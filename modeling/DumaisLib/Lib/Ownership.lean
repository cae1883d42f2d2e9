import Mathlib.Logic.Basic

/-!
# Exclusive ownership

Owners hold at most one item each.  Items are made one after the other, and an
item that its owner gives up is released.  The books are balanced when every
item made is either held by exactly one owner or has been released exactly once.
-/

namespace Ownership

variable {held : List (Option Nat)} {released : List Nat} {made owner other item : Nat}

/-- Every item made is held once or released once, and nothing else is. -/
def Balanced (held : List (Option Nat)) (released : List Nat) (made : Nat) : Prop :=
  ∀ item, held.count (some item) + released.count item = if item < made then 1 else 0

theorem balanced_none (owners : List (Option Nat)) (hnone : ∀ owner ∈ owners, owner = none) :
    Balanced owners [] 0 := by
  intro item
  have hcount : owners.count (some item) = 0 :=
    List.count_eq_zero.mpr fun hmem => by cases hnone _ hmem
  simp [hcount]

/-! ## What a balance says -/

theorem Balanced.lt_of_held (hbalanced : Balanced held released made)
    (hheld : held[owner]? = some (some item)) : item < made := by
  have hpos := List.count_pos_iff.mpr (List.mem_of_getElem? hheld)
  have hsum := hbalanced item
  split at hsum <;> omega

theorem Balanced.not_released (hbalanced : Balanced held released made)
    (hheld : held[owner]? = some (some item)) : item ∉ released := by
  have hpos := List.count_pos_iff.mpr (List.mem_of_getElem? hheld)
  have hsum := hbalanced item
  refine List.count_eq_zero.mp ?_
  split at hsum <;> omega

theorem Balanced.held_or_released (hbalanced : Balanced held released made) (hitem : item < made) :
    (item ∉ released ∧ ∃ owner : Nat, held[owner]? = some (some item)) ∨
      (released.count item = 1 ∧ ∀ owner : Nat, held[owner]? ≠ some (some item)) := by
  have hsum := hbalanced item
  rw [if_pos hitem] at hsum
  by_cases hreleased : item ∈ released
  · refine .inr ⟨?_, fun owner hheld => hbalanced.not_released hheld hreleased⟩
    have hpos := List.count_pos_iff.mpr hreleased
    omega
  · have hzero := List.count_eq_zero.mpr hreleased
    have hmem : some item ∈ held := List.count_pos_iff.mp (by omega)
    exact .inl ⟨hreleased, List.mem_iff_getElem?.mp hmem⟩

/-- What the counts are once an owner holds something else. -/
theorem count_set (value : Option Nat) (hheld : held[owner]? = some value) (next : Option Nat)
    (item : Nat) :
    (held.set owner next).count (some item) + (if value = some item then 1 else 0) =
      held.count (some item) + (if next = some item then 1 else 0) := by
  obtain ⟨hlt, hget⟩ := List.getElem?_eq_some_iff.mp hheld
  have hpos : value = some item → 0 < held.count (some item) := fun hvalue =>
    List.count_pos_iff.mpr (hvalue ▸ List.mem_of_getElem? hheld)
  rw [List.count_set hlt, hget]
  by_cases hvalue : value = some item
  · have := hpos hvalue
    simp [hvalue]
    omega
  · simp [hvalue]

theorem Balanced.unique (hbalanced : Balanced held released made)
    (hheld : held[owner]? = some (some item)) (hother : held[other]? = some (some item)) :
    owner = other := by
  by_cases heq : owner = other
  · exact heq
  · have hstill : (held.set owner none)[other]? = some (some item) := by
      rw [List.getElem?_set_ne heq, hother]
    have hpos := List.count_pos_iff.mpr (List.mem_of_getElem? hstill)
    have hcount := count_set _ hheld none item
    have hsum := hbalanced item
    simp at hcount
    split at hsum <;> omega

/-! ## Transfers -/

/-- A new owner holds nothing. -/
theorem Balanced.enter (hbalanced : Balanced held released made) :
    Balanced (held ++ [none]) released made := by
  intro item
  simpa using hbalanced item

/-- An owner that holds nothing takes the next item. -/
theorem Balanced.own (hbalanced : Balanced held released made)
    (hheld : held[owner]? = some none) :
    Balanced (held.set owner (some made)) released (made + 1) := by
  intro item
  have hcount := count_set _ hheld (some made) item
  have hsum := hbalanced item
  by_cases hitem : item = made
  · subst hitem
    simp at hcount hsum ⊢
    omega
  · have hmade : ¬ made = item := fun h => hitem h.symm
    simp [hmade] at hcount
    rw [hcount, hsum]
    by_cases hlt : item < made
    · rw [if_pos hlt, if_pos (by omega)]
    · rw [if_neg hlt, if_neg (by omega)]

/-- An owner gives its item up. -/
theorem Balanced.release (hbalanced : Balanced held released made)
    (hheld : held[owner]? = some (some item)) :
    Balanced (held.set owner none) (released ++ [item]) made := by
  intro anItem
  have hcount := count_set _ hheld none anItem
  have hsum := hbalanced anItem
  simp only [List.count_append, List.count_singleton, Option.some.injEq, reduceCtorEq,
    if_false, beq_iff_eq] at hcount ⊢
  omega

/-- Two owners exchange what they hold. -/
theorem Balanced.exchange {first second : Option Nat} (hbalanced : Balanced held released made)
    (hfirst : held[owner]? = some first) (hsecond : held[other]? = some second)
    (hne : owner ≠ other) :
    Balanced ((held.set owner second).set other first) released made := by
  intro item
  have hother : (held.set owner second)[other]? = some second := by
    rw [List.getElem?_set_ne hne, hsecond]
  have hcount := count_set _ hfirst second item
  have hcount' := count_set _ hother first item
  have hsum := hbalanced item
  omega

end Ownership
