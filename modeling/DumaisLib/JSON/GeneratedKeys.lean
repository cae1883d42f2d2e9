import DumaisLib.JSON.Building
import DumaisLib.JSON.Scanning
import Mathlib.Data.List.Nodup
import Mathlib.Data.List.Perm.Subperm

/-!
# Keys for members without a name

An object with n members has at most n of the numbered keys, so one of the next
n + 1 is free.
-/

namespace DumaisLib.JSON

open Machine

theorem numberedKey_inj {i j : Nat} (heq : numberedKey i = numberedKey j) : i = j := by
  have hdigits := List.append_cancel_left heq
  rw [Nat.toString_eq_repr, Nat.toList_repr, Nat.toString_eq_repr, Nat.toList_repr] at hdigits
  rw [← @Nat.ofDigitChars_ten_toDigits i, hdigits, Nat.ofDigitChars_ten_toDigits]

/-- A text without NUL, quote and backslash can stand between quotes. -/
theorem quotable_of_plain {text : Text}
    (hplain : ∀ char ∈ text, char ≠ '\x00' ∧ char ≠ '"' ∧ char ≠ '\\') : Quotable false text := by
  induction text with
  | nil => rfl
  | cons char text ih =>
      obtain ⟨⟨hnul, hquote, hslash⟩, hrest⟩ := List.forall_mem_cons.mp hplain
      exact quotable_cons hnul hquote hslash (ih hrest)

theorem numberedKey_quotable (i : Nat) : numberedKey i ≠ [] ∧ Quotable false (numberedKey i) := by
  refine ⟨List.cons_ne_nil _ _, quotable_of_plain fun char hchar => ?_⟩
  rcases List.mem_append.mp hchar with hkey | hdigit
  · simp only [String.reduceToList, List.mem_cons, List.not_mem_nil, or_false] at hkey
    rcases hkey with rfl | rfl | rfl <;> decide
  · rw [Nat.toString_eq_repr, Nat.toList_repr] at hdigit
    have hisDigit := Nat.isDigit_of_mem_toDigits (by decide) (by decide) hdigit
    refine ⟨?_, ?_, ?_⟩ <;>
    · rintro rfl
      exact absurd hisDigit (by decide)

variable {mMembers : List (Text × Node)}

/-- Not all of the keys with the next numbers are taken. -/
theorem exists_free_key (keys : List Text) (start : Nat) :
    ∃ tries ≤ keys.length, numberedKey (start + tries) ∉ keys := by
  by_contra hall
  have htaken : ∀ tries ≤ keys.length, numberedKey (start + tries) ∈ keys := by
    intro tries hle
    by_contra hfree
    exact hall ⟨tries, hle, hfree⟩
  have hnodup : ((List.range (keys.length + 1)).map fun tries => numberedKey (start + tries)).Nodup :=
    List.nodup_range.map fun i j heq => Nat.add_left_cancel (numberedKey_inj heq)
  have hsubset : ((List.range (keys.length + 1)).map fun tries => numberedKey (start + tries)) ⊆
      keys := by
    intro key hkey
    obtain ⟨tries, htries, rfl⟩ := List.mem_map.mp hkey
    exact htaken tries (Nat.lt_succ_iff.mp (List.mem_range.mp htries))
  have hlength := (List.subperm_of_subset hnodup hsubset).length_le
  rw [List.length_map, List.length_range] at hlength
  omega

/-- The loop stops at a number whose key is free. -/
theorem generateKey_loop {fuel start tries : Nat}
    (hfree : numberedKey (start + tries) ∉ mMembers.map Prod.fst) (hlt : tries < fuel) :
    ∃ i, loop (generateKeyTurn mMembers) fuel start = .finished (numberedKey i) ∧
      numberedKey i ∉ mMembers.map Prod.fst := by
  induction tries generalizing start fuel with
  | zero =>
      cases fuel with
      | zero => exact absurd hlt (Nat.lt_irrefl _)
      | succ fuel =>
          rw [Nat.add_zero] at hfree
          exact ⟨start, by rw [loop, generateKeyTurn, if_neg hfree], hfree⟩
  | succ tries ih =>
      cases fuel with
      | zero => exact absurd hlt (Nat.not_lt_zero _)
      | succ fuel =>
          by_cases hstart : numberedKey start ∈ mMembers.map Prod.fst
          · rw [loop, generateKeyTurn, if_pos hstart]
            refine ih ?_ (Nat.lt_of_succ_lt_succ hlt)
            rwa [Nat.add_assoc, Nat.add_comm 1]
          · exact ⟨start, by rw [loop, generateKeyTurn, if_neg hstart], hstart⟩

theorem generateKey_eq (mMembers : List (Text × Node)) :
    ∃ i, generateKey mMembers = numberedKey i ∧ numberedKey i ∉ mMembers.map Prod.fst := by
  obtain ⟨tries, hle, hfree⟩ := exists_free_key (mMembers.map Prod.fst) mMembers.length
  rw [List.length_map] at hle
  obtain ⟨i, hloop, hi⟩ := generateKey_loop hfree (Nat.lt_succ_of_le hle)
  exact ⟨i, by rw [generateKey, hloop]; rfl, hi⟩

/-- The key of a new member can stand between quotes when its name can. -/
theorem keyFor_quotable {name : Text} (hname : name = [] ∨ Quotable false name) :
    keyFor name mMembers ≠ [] ∧ Quotable false (keyFor name mMembers) := by
  rw [keyFor]
  split
  · obtain ⟨i, hkey, -⟩ := generateKey_eq mMembers
    rw [hkey]
    exact numberedKey_quotable i
  · rename_i hne
    exact ⟨hne, hname.resolve_left hne⟩

end DumaisLib.JSON
