import Mathlib.Data.Nat.ModEq
import Mathlib.Algebra.NeZero
import Mathlib.Logic.Function.Basic

/-!
# Circular buffers by absolute position

The cells of a circular buffer of `n` places are visited in turn, lap after
lap.  An absolute position counts every visit since the start; it falls on one
cell, and two positions less than one lap apart fall on different cells.  A
buffer that holds a list is described by the absolute position of its front.
-/

namespace CircularBuffer

variable {α : Type*} {n : Nat} [NeZero n]

/-- The cell on which the absolute position `position` falls. -/
def place (n : Nat) [NeZero n] (position : Nat) : Fin n :=
  ⟨position % n, Nat.mod_lt _ (Nat.pos_of_neZero n)⟩

/-- The cell visited after `cell`. -/
def next (cell : Fin n) : Fin n :=
  ⟨(cell + 1) % n, Nat.mod_lt _ (Nat.pos_of_neZero n)⟩

@[simp] theorem next_place (position : Nat) :
    next (place n position) = place n (position + 1) := by
  simp [next, place, Nat.mod_add_mod]

theorem place_add_size (position : Nat) :
    place n (position + n) = place n position := by
  simp [place]

/-- Positions less than one lap apart fall on one cell only if they are equal. -/
theorem eq_of_place_eq {first second : Nat} (hle : first ≤ second)
    (hlap : second < first + n) (heq : place n first = place n second) :
    first = second := by
  have hmod : first % n = second % n := congrArg Fin.val heq
  have hdvd : n ∣ second - first := (Nat.modEq_iff_dvd' hle).mp hmod
  have hzero : second - first = 0 :=
    Nat.eq_zero_of_dvd_of_lt hdvd (by omega)
  omega

theorem place_ne {first second : Nat} (hlt : first < second)
    (hlap : second < first + n) : place n first ≠ place n second :=
  fun heq => Nat.ne_of_lt hlt (eq_of_place_eq (Nat.le_of_lt hlt) hlap heq)

/-- Inside one lap that starts at `base`, a cell is visited once. -/
theorem place_inj {base first second : Nat} (hfirst : base ≤ first)
    (hfirst' : first < base + n) (hsecond : base ≤ second)
    (hsecond' : second < base + n) (heq : place n first = place n second) :
    first = second := by
  rcases Nat.le_total first second with hle | hle
  · exact eq_of_place_eq hle (by omega) heq
  · exact (eq_of_place_eq hle (by omega) heq.symm).symm

/-- The cells from absolute position `front` on hold `contents`, in order. -/
def Holds (cells : Fin n → α) (front : Nat) (contents : List α) : Prop :=
  ∀ (offset : Nat) (h : offset < contents.length),
    cells (place n (front + offset)) = contents[offset]

namespace Holds

theorem nil (cells : Fin n → α) (front : Nat) : Holds cells front [] :=
  fun _ h => absurd h (Nat.not_lt_zero _)

theorem front_cell {cells : Fin n → α} {front : Nat} {value : α}
    {contents : List α} (holds : Holds cells front (value :: contents)) :
    cells (place n front) = value :=
  holds 0 (Nat.zero_lt_succ _)

/-- Writing the cell after the last one appends, while a cell is free. -/
theorem push {cells : Fin n → α} {front : Nat} {contents : List α}
    (holds : Holds cells front contents) (hspace : contents.length < n)
    (value : α) :
    Holds (Function.update cells (place n (front + contents.length)) value)
      front (contents ++ [value]) := by
  intro offset hoffset
  rw [List.length_append, List.length_singleton] at hoffset
  rcases Nat.lt_or_eq_of_le (Nat.le_of_lt_succ hoffset) with hold | rfl
  · have hne : place n (front + offset) ≠ place n (front + contents.length) :=
      place_ne (by omega) (by omega)
    rw [Function.update_of_ne hne, List.getElem_append_left hold]
    exact holds offset hold
  · simp

/-- Leaving the front cell removes the head, whatever is written into it. -/
theorem pop {cells : Fin n → α} {front : Nat} {value : α} {contents : List α}
    (holds : Holds cells front (value :: contents))
    (hsize : contents.length < n) (stale : α) :
    Holds (Function.update cells (place n front) stale) (front + 1) contents := by
  intro offset hoffset
  have hne : place n (front + 1 + offset) ≠ place n front :=
    (place_ne (by omega) (by omega)).symm
  rw [Function.update_of_ne hne, Nat.add_assoc, Nat.add_comm 1 offset]
  exact holds (offset + 1) (Nat.succ_lt_succ hoffset)

end Holds

/-- The number of steps from the cell `front` forward to the cell `back`. -/
def distance (front back : Fin n) : Nat := (back + n - front) % n

theorem distance_place {front count : Nat} (hcount : count < n) :
    distance (place n front) (place n (front + count)) = count := by
  have hfront : front % n < n := Nat.mod_lt _ (Nat.pos_of_neZero n)
  have hsum : (front + count) % n = (front % n + count) % n := by
    rw [Nat.mod_add_mod]
  simp only [distance, place, hsum]
  rcases Nat.lt_or_ge (front % n + count) n with hlt | hge
  · rw [Nat.mod_eq_of_lt hlt,
      show front % n + count + n - front % n = count + n by omega,
      Nat.add_mod_right, Nat.mod_eq_of_lt hcount]
  · rw [Nat.mod_eq_sub_mod hge,
      Nat.mod_eq_of_lt (show front % n + count - n < n by omega),
      show front % n + count - n + n - front % n = count by omega,
      Nat.mod_eq_of_lt hcount]

end CircularBuffer
