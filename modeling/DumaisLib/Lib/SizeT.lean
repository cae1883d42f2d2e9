import Mathlib.Data.BitVec

/-!
# Sizes of 64 bits

The arithmetic of `size_t`, with the conditions under which it is that of the
natural numbers.
-/

/-- `size_t` addition. -/
def sizeAdd (left right : Nat) : Nat := (left + right) % 2 ^ 64

/-- `size_t` subtraction. -/
def sizeSub (left right : Nat) : Nat := (left + (2 ^ 64 - right)) % 2 ^ 64

theorem sizeAdd_of_lt {left right : Nat} (hlt : left + right < 2 ^ 64) :
    sizeAdd left right = left + right :=
  Nat.mod_eq_of_lt hlt

theorem sizeSub_of_le {left right : Nat} (hle : right ≤ left) (hlt : left < 2 ^ 64) :
    sizeSub left right = left - right := by
  rw [sizeSub]
  omega
