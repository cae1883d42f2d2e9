import Mathlib.Data.List.Infix

/-!
# Searching for a pattern in a list

The leftmost occurrence of a pattern at or after a start position, and what it
becomes when the list grows.
-/

namespace Search

variable {α : Type*}

/-- The pattern occurs at the position. -/
def OccursAt (pattern items : List α) (position : Nat) : Prop :=
  position ≤ items.length ∧ pattern <+: items.drop position

theorem OccursAt.end_le {pattern items : List α} {position : Nat}
    (hoccurs : OccursAt pattern items position) :
    position + pattern.length ≤ items.length := by
  have hlength := hoccurs.2.length_le
  have hle := hoccurs.1
  rw [List.length_drop] at hlength
  omega

theorem OccursAt.mem {item : α} {items : List α} {position : Nat}
    (hoccurs : OccursAt [item] items position) : item ∈ items.drop position :=
  hoccurs.2.subset (List.mem_singleton.mpr rfl)

theorem OccursAt.isInfix {pattern items : List α} {position : Nat}
    (hoccurs : OccursAt pattern items position) : pattern <:+: items :=
  hoccurs.2.isInfix.trans (List.drop_suffix _ _).isInfix

theorem exists_occursAt {pattern items : List α} (hinside : pattern <:+: items) :
    ∃ position, OccursAt pattern items position := by
  obtain ⟨before, behind, rfl⟩ := hinside
  refine ⟨before.length, ?_, ?_⟩
  · simp
  · rw [List.append_assoc, List.drop_left]
    exact List.prefix_append _ _

theorem occursAt_append_iff {pattern items more : List α} {position : Nat}
    (hfits : position + pattern.length ≤ items.length) :
    OccursAt pattern (items ++ more) position ↔ OccursAt pattern items position := by
  have hle : position ≤ items.length := by omega
  have hdrop : (items ++ more).drop position = items.drop position ++ more :=
    List.drop_append_of_le_length hle
  unfold OccursAt
  rw [hdrop, List.length_append]
  constructor
  · rintro ⟨_, hprefix⟩
    exact ⟨hle, List.prefix_of_prefix_length_le hprefix (List.prefix_append _ _)
      (by rw [List.length_drop]; omega)⟩
  · rintro ⟨_, hprefix⟩
    exact ⟨by omega, hprefix.trans (List.prefix_append _ _)⟩

theorem OccursAt.getElem? {pattern items : List α} {position i : Nat}
    (hoccurs : OccursAt pattern items position) (hi : i < pattern.length) :
    items[position + i]? = pattern[i]? := by
  obtain ⟨behind, hbehind⟩ := hoccurs.2
  rw [← List.getElem?_drop, ← hbehind, List.getElem?_append_left hi]

theorem occursAt_append_right {pattern before items : List α} {position : Nat} :
    OccursAt pattern (before ++ items) (before.length + position) ↔
      OccursAt pattern items position := by
  rw [OccursAt, OccursAt, List.length_append, List.drop_append, List.drop_eq_nil_of_le (by omega),
    List.nil_append, Nat.add_sub_cancel_left, Nat.add_le_add_iff_left]

section Lines

variable {cr lf : α}

/-- The lines with their ends. -/
def withEnds (cr lf : α) (lines : List (List α)) : List α :=
  lines.flatMap (· ++ [cr, lf])

/-- There is no line end within the line. -/
def Unbroken (cr lf : α) (line : List α) : Prop :=
  ¬ [cr, lf] <:+: line

theorem unbroken_of_not_mem {line : List α} (hline : lf ∉ line) : Unbroken cr lf line :=
  fun hinside => hline (hinside.subset (by simp))

theorem unbroken_nil : Unbroken cr lf [] :=
  unbroken_of_not_mem List.not_mem_nil

theorem unbroken_append_left {before line : List α} (hbefore : cr ∉ before) :
    Unbroken cr lf (before ++ line) ↔ Unbroken cr lf line := by
  refine not_congr ⟨fun hinside => ?_,
    fun hinside => hinside.trans (List.suffix_append _ _).isInfix⟩
  rcases List.infix_append_iff.mp hinside with
    hwithin | hbehind | ⟨first, second, hsplit, hends, hbegins⟩
  · exact absurd (hwithin.subset List.mem_cons_self) hbefore
  · exact hbehind
  · cases first with
    | nil => exact hsplit ▸ hbegins.isInfix
    | cons item first =>
        obtain ⟨rfl, -⟩ := List.cons.inj hsplit
        exact absurd (hends.subset List.mem_cons_self) hbefore

theorem unbroken_append_right {line after : List α} (hafter : lf ∉ after) :
    Unbroken cr lf (line ++ after) ↔ Unbroken cr lf line := by
  refine not_congr ⟨fun hinside => ?_,
    fun hinside => hinside.trans (List.prefix_append _ _).isInfix⟩
  rcases List.infix_append_iff.mp hinside with
    hwithin | hbehind | ⟨first, second, hsplit, hends, hbegins⟩
  · exact hwithin
  · exact absurd (hbehind.subset (by simp)) hafter
  · cases second using List.reverseRecOn with
    | nil => exact (hsplit.trans (List.append_nil _)) ▸ hends.isInfix
    | append_singleton second item =>
        rw [← List.append_assoc] at hsplit
        obtain ⟨-, hlast⟩ := List.append_inj' (show [cr] ++ [lf] = _ from hsplit) rfl
        obtain ⟨rfl, -⟩ := List.cons.inj hlast
        exact absurd (hbegins.subset (by simp)) hafter

/-- An empty line begins neither within a line nor in the middle of its end. -/
theorem not_occursAt_line (hne : cr ≠ lf) {line rest : List α} (hline : Unbroken cr lf line)
    {position : Nat} (hlt : position < line.length + 2) (hend : position ≠ line.length) :
    ¬ OccursAt [cr, lf, cr, lf] (line ++ [cr, lf] ++ rest) position := by
  intro hoccurs
  have hfirst := hoccurs.getElem? (i := 0) (by simp)
  have hsecond := hoccurs.getElem? (i := 1) (by simp)
  rcases Nat.lt_or_ge (position + 1) line.length with hwithin | hbehind
  · rw [List.append_assoc] at hoccurs
    have hends : OccursAt [cr, lf] (line ++ ([cr, lf] ++ rest)) position :=
      ⟨hoccurs.1, (List.prefix_append _ [cr, lf]).trans hoccurs.2⟩
    exact hline ((occursAt_append_iff hwithin).mp hends).isInfix
  · rw [List.append_assoc] at hfirst hsecond
    rcases Nat.lt_or_ge position line.length with hlast | hpast
    · have heq : position + 1 = line.length := by omega
      rw [heq, List.getElem?_append_right le_rfl] at hsecond
      exact hne (by simpa using hsecond)
    · have heq : position = line.length + 1 := by omega
      rw [heq, List.getElem?_append_right (by omega)] at hfirst
      exact hne (by simpa using hfirst.symm)

/-- A line with content does not look like a line end. -/
theorem not_prefix_line (hne : cr ≠ lf) {line rest : List α} (hcontent : line ≠ [])
    (hline : Unbroken cr lf line) : ¬ [cr, lf] <+: line ++ [cr, lf] ++ rest := by
  rintro ⟨behind, hbehind⟩
  cases line with
  | nil => exact hcontent rfl
  | cons first line =>
      cases line with
      | nil =>
          have hsecond : lf = cr := (List.cons.inj (List.cons.inj hbehind).2).1
          exact hne hsecond.symm
      | cons second line =>
          obtain ⟨hfirst, hrest⟩ := List.cons.inj hbehind
          obtain ⟨hsecond, -⟩ := List.cons.inj hrest
          refine hline (List.IsPrefix.isInfix ⟨line, ?_⟩)
          rw [← hfirst, ← hsecond]
          rfl

end Lines

variable [DecidableEq α]

instance (pattern items : List α) (position : Nat) :
    Decidable (OccursAt pattern items position) := by
  unfold OccursAt
  infer_instance

/-- The leftmost position at which the pattern occurs. -/
def findFirst (pattern : List α) : List α → Option Nat
  | [] => if pattern = [] then some 0 else none
  | item :: items =>
      if pattern.isPrefixOf (item :: items) then some 0
      else (findFirst pattern items).map (· + 1)

/-- The leftmost position from `start` on at which the pattern occurs. -/
def find (pattern items : List α) (start : Nat) : Option Nat :=
  if start ≤ items.length then
    (findFirst pattern (items.drop start)).map (start + ·)
  else
    none

theorem findFirst_eq_some_iff {pattern items : List α} {position : Nat} :
    findFirst pattern items = some position ↔
      OccursAt pattern items position ∧
        ∀ earlier < position, ¬ OccursAt pattern items earlier := by
  induction items generalizing position with
  | nil =>
      simp only [findFirst, OccursAt, List.length_nil, Nat.le_zero, List.drop_nil,
        List.prefix_nil]
      split
      · rename_i hnil
        constructor
        · rintro ⟨⟩
          exact ⟨⟨rfl, hnil⟩, fun _ hlt => absurd hlt (Nat.not_lt_zero _)⟩
        · rintro ⟨⟨rfl, _⟩, _⟩
          rfl
      · rename_i hnil
        simp [hnil]
  | cons item items ih =>
      have hstep (earlier : Nat) :
          OccursAt pattern (item :: items) (earlier + 1) ↔ OccursAt pattern items earlier := by
        simp [OccursAt]
      unfold findFirst
      split
      · rename_i hprefix
        have hzero : OccursAt pattern (item :: items) 0 :=
          ⟨Nat.zero_le _, List.isPrefixOf_iff_prefix.mp hprefix⟩
        constructor
        · rintro ⟨⟩
          exact ⟨hzero, fun _ hlt => absurd hlt (Nat.not_lt_zero _)⟩
        · rintro ⟨_, hfirst⟩
          cases position with
          | zero => rfl
          | succ position => exact absurd hzero (hfirst 0 (Nat.succ_pos _))
      · rename_i hprefix
        have hzero : ¬ OccursAt pattern (item :: items) 0 := fun hoccurs =>
          hprefix (List.isPrefixOf_iff_prefix.mpr hoccurs.2)
        cases position with
        | zero => simp [hzero]
        | succ position =>
            simp only [Option.map_eq_some_iff, Nat.add_right_cancel_iff, exists_eq_right, ih,
              hstep]
            constructor
            · rintro ⟨hoccurs, hfirst⟩
              refine ⟨hoccurs, fun earlier hlt => ?_⟩
              cases earlier with
              | zero => exact hzero
              | succ earlier => exact (hstep earlier).not.mpr (hfirst earlier (by omega))
            · rintro ⟨hoccurs, hfirst⟩
              exact ⟨hoccurs, fun earlier hlt =>
                (hstep earlier).not.mp (hfirst (earlier + 1) (by omega))⟩

theorem find_eq_some_iff {pattern items : List α} {start position : Nat} :
    find pattern items start = some position ↔
      start ≤ position ∧ OccursAt pattern items position ∧
        ∀ earlier, start ≤ earlier → earlier < position → ¬ OccursAt pattern items earlier := by
  have hdrop (offset : Nat) (hstart : start ≤ items.length) :
      OccursAt pattern (items.drop start) offset ↔ OccursAt pattern items (start + offset) := by
    simp only [OccursAt, List.length_drop, List.drop_drop]
    apply and_congr_left
    intro _
    omega
  unfold find
  split
  · rename_i hstart
    simp only [Option.map_eq_some_iff, findFirst_eq_some_iff]
    constructor
    · rintro ⟨offset, ⟨hoccurs, hfirst⟩, rfl⟩
      refine ⟨Nat.le_add_right _ _, (hdrop offset hstart).mp hoccurs,
        fun earlier hle hlt hearlier => ?_⟩
      obtain ⟨gap, rfl⟩ := Nat.exists_eq_add_of_le hle
      exact hfirst gap (by omega) ((hdrop gap hstart).mpr hearlier)
    · rintro ⟨hle, hoccurs, hfirst⟩
      obtain ⟨offset, rfl⟩ := Nat.exists_eq_add_of_le hle
      refine ⟨offset, ⟨(hdrop offset hstart).mpr hoccurs, fun earlier hlt hearlier => ?_⟩, rfl⟩
      exact hfirst (start + earlier) (by omega) (by omega) ((hdrop earlier hstart).mp hearlier)
  · rename_i hstart
    constructor
    · intro hnone
      exact absurd hnone (by simp)
    · rintro ⟨hle, hoccurs, _⟩
      exact absurd (hle.trans hoccurs.1) hstart

theorem find_end_le {pattern items : List α} {start position : Nat}
    (hfound : find pattern items start = some position) :
    position + pattern.length ≤ items.length :=
  (find_eq_some_iff.mp hfound).2.1.end_le

/-- What is found stays found, at the same place, when the list grows. -/
theorem find_append {pattern items more : List α} {start position : Nat}
    (hfound : find pattern items start = some position) :
    find pattern (items ++ more) start = some position := by
  obtain ⟨hle, hoccurs, hfirst⟩ := find_eq_some_iff.mp hfound
  have hend := hoccurs.end_le
  refine find_eq_some_iff.mpr ⟨hle, (occursAt_append_iff hend).mpr hoccurs,
    fun earlier hstart hlt hearlier => ?_⟩
  exact hfirst earlier hstart hlt ((occursAt_append_iff (by omega)).mp hearlier)

/-- What is found within the first part of a list is found there. -/
theorem find_of_append {pattern items more : List α} {start position : Nat}
    (hfound : find pattern (items ++ more) start = some position)
    (hfits : position + pattern.length ≤ items.length) :
    find pattern items start = some position := by
  obtain ⟨hle, hoccurs, hfirst⟩ := find_eq_some_iff.mp hfound
  refine find_eq_some_iff.mpr ⟨hle, (occursAt_append_iff hfits).mp hoccurs,
    fun earlier hstart hlt hearlier => ?_⟩
  exact hfirst earlier hstart hlt ((occursAt_append_iff (by omega)).mpr hearlier)

/-! ## Single items -/

/-- An item is found where it stands when it does not occur before. -/
theorem find_item {item : α} {before after : List α} {start : Nat} (hstart : start ≤ before.length)
    (hnew : item ∉ before.drop start) :
    find [item] (before ++ item :: after) start = some before.length := by
  refine find_eq_some_iff.mpr ⟨hstart, ⟨?_, ?_⟩, fun earlier hle hlt hoccurs => ?_⟩
  · rw [List.length_append]
    exact Nat.le_add_right _ _
  · rw [List.drop_left]
    exact ⟨after, rfl⟩
  · have hbegins := hoccurs.2
    rw [List.drop_append_of_le_length hlt.le, List.drop_eq_getElem_cons hlt,
      List.cons_append, List.cons_prefix_cons] at hbegins
    obtain ⟨gap, rfl⟩ := Nat.exists_eq_add_of_le hle
    have hmem : before[start + gap] ∈ (before.drop start).drop gap := by
      rw [List.drop_drop, List.drop_eq_getElem_cons hlt]
      exact List.mem_cons_self
    exact hnew (hbegins.1 ▸ List.mem_of_mem_drop hmem)

/-- The first occurrence of an item cuts a list in one way. -/
theorem split_inj {item : α} {before before' after after' : List α} (hnew : item ∉ before)
    (hnew' : item ∉ before') (hsame : before ++ item :: after = before' ++ item :: after') :
    before = before' ∧ after = after' := by
  have hfound : find [item] (before ++ item :: after) 0 = some before.length :=
    find_item (Nat.zero_le _) hnew
  have hfound' : find [item] (before' ++ item :: after') 0 = some before'.length :=
    find_item (Nat.zero_le _) hnew'
  rw [hsame, hfound'] at hfound
  obtain ⟨hbefore, hafter⟩ := List.append_inj hsame (Option.some.inj hfound).symm
  exact ⟨hbefore, (List.cons.inj hafter).2⟩

/-! ## The first empty line -/

/-- Lines with content and without a line end in them end at the first empty line. -/
theorem find_empty_line {cr lf : α} (hne : cr ≠ lf) {lines : List (List α)}
    (hlines : ∀ line ∈ lines, line ≠ [] ∧ Unbroken cr lf line) (hsome : lines ≠ [])
    (rest : List α) :
    find [cr, lf, cr, lf] (withEnds cr lf lines ++ [cr, lf] ++ rest) 0 =
      some ((withEnds cr lf lines).length - 2) := by
  induction lines with
  | nil => exact absurd rfl hsome
  | cons line lines ih =>
      obtain ⟨⟨-, hline⟩, hrest⟩ := List.forall_mem_cons.mp hlines
      have hsplit : withEnds cr lf (line :: lines) ++ [cr, lf] ++ rest =
          line ++ [cr, lf] ++ (withEnds cr lf lines ++ [cr, lf] ++ rest) := by
        simp [withEnds]
      have hlength : (withEnds cr lf (line :: lines)).length =
          (line ++ [cr, lf]).length + (withEnds cr lf lines).length := by
        rw [withEnds, List.flatMap_cons, List.length_append, withEnds]
      have hends : (line ++ [cr, lf]).length = line.length + 2 := by simp
      rw [hsplit, hlength, hends]
      cases lines with
      | nil =>
          refine find_eq_some_iff.mpr ⟨Nat.zero_le _, ?_, fun earlier _ hlt => ?_⟩
          · have hhere : OccursAt [cr, lf, cr, lf] ([cr, lf, cr, lf] ++ rest) 0 :=
              ⟨Nat.zero_le _, List.prefix_append _ _⟩
            have hmoved : OccursAt [cr, lf, cr, lf] (line ++ ([cr, lf, cr, lf] ++ rest))
                (line.length + 0) := occursAt_append_right.mpr hhere
            simpa [withEnds] using hmoved
          · have hshort : earlier < line.length := by simpa [withEnds] using hlt
            exact not_occursAt_line hne hline (by omega) (by omega)
      | cons next lines =>
          obtain ⟨⟨hcontent, hnext⟩, -⟩ := List.forall_mem_cons.mp hrest
          obtain ⟨-, hoccurs, hfirst⟩ := find_eq_some_iff.mp (ih hrest (List.cons_ne_nil _ _))
          have hlong : 2 ≤ (withEnds cr lf (next :: lines)).length := by
            simp only [withEnds, List.flatMap_cons, List.length_append, List.length_cons]
            omega
          have hposition : line.length + 2 + (withEnds cr lf (next :: lines)).length - 2 =
              (line ++ [cr, lf]).length + ((withEnds cr lf (next :: lines)).length - 2) := by
            omega
          rw [hposition]
          refine find_eq_some_iff.mpr ⟨Nat.zero_le _, occursAt_append_right.mpr hoccurs,
            fun earlier _ hlt hearlier => ?_⟩
          rcases Nat.lt_or_ge earlier (line ++ [cr, lf]).length with hwithin | hpast
          · by_cases hend : earlier = line.length
            · -- the lines behind this one would have to begin with a line end
              obtain ⟨behind, hbehind⟩ := hearlier.2
              rw [hend, List.append_assoc, List.append_assoc, List.drop_left] at hbehind
              have hsame := List.append_cancel_left
                (show [cr, lf] ++ ([cr, lf] ++ behind) = [cr, lf] ++ _ from hbehind)
              have hbegins : [cr, lf] <+: next ++ [cr, lf] ++
                  (withEnds cr lf lines ++ [cr, lf] ++ rest) := by
                refine ⟨behind, ?_⟩
                rw [hsame]
                simp [withEnds]
              exact not_prefix_line hne hcontent hnext hbegins
            · exact not_occursAt_line hne hline (by omega) hend hearlier
          · obtain ⟨offset, rfl⟩ := Nat.exists_eq_add_of_le hpast
            exact hfirst offset (Nat.zero_le _) (by omega) (occursAt_append_right.mp hearlier)

end Search
