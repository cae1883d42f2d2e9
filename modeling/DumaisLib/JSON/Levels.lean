import DumaisLib.JSON.Compact
import DumaisLib.JSON.Documents

/-!
# Levels of braces and brackets

A scan for a closing character counts the levels below it in an `int`.  It comes
through a valid text whose levels fit, and through no other.
-/

namespace DumaisLib.JSON

open DumaisLib.JSON.Parser Rfc8259

/-! ## Levels of documents -/

mutual

/-- How many pairs that begin with the character are open at a time. -/
def levels (opening : Char) : Json → Nat
  | .object members => memberLevels opening members + (if opening = '\x7b' then 1 else 0)
  | .array elements => elementLevels opening elements + (if opening = '[' then 1 else 0)
  | _ => 0

def memberLevels (opening : Char) : List (List Letter × Json) → Nat
  | [] => 0
  | (_, value) :: members => max (levels opening value) (memberLevels opening members)

def elementLevels (opening : Char) : List Json → Nat
  | [] => 0
  | element :: elements => max (levels opening element) (elementLevels opening elements)

end

/-! ## Exact scans -/

/-- A scan that is inside comes through the text as long as its levels fit, and fails otherwise. -/
structure Scans (opening closing : Char) (height : Nat) (text : Text) : Prop where
  passes : Passes opening closing height text
  fails : ∀ level position rest, 0 < level → level < 2 ^ 31 → 2 ^ 31 ≤ level + height →
    closingFrom opening closing 0 level position (text ++ rest) = .fault

section Scans

variable {opening closing : Char}

theorem scans_flat {text : Text} (hpasses : Passes opening closing 0 text) :
    Scans opening closing 0 text :=
  ⟨hpasses, fun level _ _ _ hlt hge => absurd hge (by omega)⟩

theorem Scans.append {height height' : Nat} {text text' : Text}
    (hfirst : Scans opening closing height text)
    (hsecond : Scans opening closing height' text') :
    Scans opening closing (max height height') (text ++ text') where
  passes := (hfirst.passes.mono (Nat.le_max_left _ _)).append
    (hsecond.passes.mono (Nat.le_max_right _ _))
  fails := by
    intro level position rest hpos hlt hge
    rw [List.append_assoc]
    by_cases hfits : level + height < 2 ^ 31
    · rw [hfirst.passes level position _ hpos hfits]
      exact hsecond.fails level _ rest hpos hlt (by omega)
    · exact hfirst.fails level position _ hpos hlt (by omega)

/-- Flat texts around another one add nothing to its levels. -/
theorem Scans.flat_append {height : Nat} {text text' : Text}
    (hfirst : Passes opening closing 0 text) (hsecond : Scans opening closing height text') :
    Scans opening closing height (text ++ text') := by
  have happend := (scans_flat hfirst).append hsecond
  rwa [Nat.zero_max] at happend

theorem Scans.append_flat {height : Nat} {text text' : Text}
    (hfirst : Scans opening closing height text) (hsecond : Passes opening closing 0 text') :
    Scans opening closing height (text ++ text') := by
  have happend := hfirst.append (scans_flat hsecond)
  rwa [Nat.max_zero] at happend

theorem scans_enclosed (hbrackets : Brackets opening closing) {height : Nat} {text : Text}
    (hscans : Scans opening closing height text) :
    Scans opening closing (height + 1) (opening :: (text ++ [closing])) where
  passes := passes_enclosed hbrackets hscans.passes
  fails := by
    intro level position rest hpos hlt hge
    rw [List.cons_append, List.append_assoc, closingFrom, if_neg hbrackets.opening_ne_nul,
      if_neg hbrackets.opening_ne_quote, if_pos rfl]
    by_cases hfits : level + 1 < 2 ^ 31
    · rw [if_pos hfits]
      exact hscans.fails _ _ _ (by omega) hfits (by omega)
    · rw [if_neg hfits]

/-- A pair of one kind adds a level to its own scan only. -/
theorem scans_pair (hpair : IsPair opening closing) {first last : Char}
    (hother : IsPair first last) {height : Nat} {text : Text}
    (hscans : Scans opening closing height text) :
    Scans opening closing (height + if opening = first then 1 else 0)
      (first :: (text ++ [last])) := by
  rcases hpair with ⟨rfl, rfl⟩ | ⟨rfl, rfl⟩
  · rcases hother with ⟨rfl, rfl⟩ | ⟨rfl, rfl⟩
    · exact scans_enclosed curly_brackets hscans
    · exact .flat_append (passes_char (by decide)) (hscans.append_flat (passes_char (by decide)))
  · rcases hother with ⟨rfl, rfl⟩ | ⟨rfl, rfl⟩
    · exact .flat_append (passes_char (by decide)) (hscans.append_flat (passes_char (by decide)))
    · exact scans_enclosed square_brackets hscans

/-! ## Scans of documents -/

theorem scans_members (hpair : IsPair opening closing) {members : List (List Letter × Json)}
    (hvalues : ∀ member ∈ members,
      Scans opening closing (levels opening member.2) member.2.text) :
    Scans opening closing (memberLevels opening members) (joined (members.map memberText)) := by
  induction members with
  | nil => exact scans_flat passes_nil
  | cons member members ih =>
      obtain ⟨name, value⟩ := member
      have hvalue := hvalues (name, value) List.mem_cons_self
      have hrest := ih fun later hlater => hvalues later (List.mem_cons_of_mem _ hlater)
      have hname : Passes opening closing 0 (literal name) := passes_quoted (quotable_body name)
      have hmember : Scans opening closing (levels opening value) (memberText (name, value)) :=
        .flat_append hname (.flat_append (passes_colon hpair) hvalue)
      rw [memberLevels, List.map_cons, joined]
      exact hmember.append (.flat_append (passes_separator hpair _) hrest)

theorem scans_elements (hpair : IsPair opening closing) {elements : List Json}
    (helements : ∀ element ∈ elements,
      Scans opening closing (levels opening element) element.text) :
    Scans opening closing (elementLevels opening elements)
      (joined (elements.map Json.text)) := by
  induction elements with
  | nil => exact scans_flat passes_nil
  | cons element elements ih =>
      have helement := helements element List.mem_cons_self
      have hrest := ih fun later hlater => helements later (List.mem_cons_of_mem _ hlater)
      rw [elementLevels, List.map_cons, joined]
      exact helement.append (.flat_append (passes_separator hpair _) hrest)

/-- The characters that mean something to a scan. -/
def marks : List Char :=
  ['\x00', '"', '\x7b', '\x7d', '[', ']']

theorem passes_word (hpair : IsPair opening closing) {text : Text}
    (hplain : ∀ char ∈ text, char ∉ marks) : Passes opening closing 0 text := by
  apply passes_plain
  intro char hmem
  have hchar := hplain char hmem
  simp only [marks, List.mem_cons, List.not_mem_nil, or_false, not_or] at hchar
  rcases hpair with ⟨rfl, rfl⟩ | ⟨rfl, rfl⟩
  · exact ⟨hchar.1, hchar.2.1, hchar.2.2.1, hchar.2.2.2.1⟩
  · exact ⟨hchar.1, hchar.2.1, hchar.2.2.2.2.1, hchar.2.2.2.2.2⟩

theorem unmarked {text : Text} (hall : text.all (fun char => !marks.contains char) = true) :
    ∀ char ∈ text, char ∉ marks := by
  intro char hmem
  simpa using List.all_eq_true.mp hall char hmem

theorem scans_text (hpair : IsPair opening closing) (json : Json) :
    Scans opening closing (levels opening json) json.text := by
  induction json using Json.children_induction with
  | object members ih =>
      rw [levels, text_object]
      exact scans_pair hpair (.inl ⟨rfl, rfl⟩) (scans_members hpair ih)
  | array elements ih =>
      rw [levels, text_array]
      exact scans_pair hpair (.inr ⟨rfl, rfl⟩) (scans_elements hpair ih)
  | string letters =>
      rw [levels, text_string]
      · exact scans_flat (passes_quoted (quotable_body letters))
      all_goals simp
  | number text isNumber =>
      rw [levels, text_number]
      · refine scans_flat (passes_word hpair fun char hmem hbad => ?_)
        have hnone : marks.all (fun other => !isNumberChar other) = true := by rfl
        have hother : isNumberChar char = false := by
          simpa using List.all_eq_true.mp hnone char hbad
        exact numberChar_ne isNumber hmem hother rfl
      all_goals simp
  | bool value =>
      rw [levels, text_bool]
      · cases value
        · exact scans_flat (passes_word hpair (unmarked rfl))
        · exact scans_flat (passes_word hpair (unmarked rfl))
      all_goals simp
  | null =>
      rw [levels, text_null]
      · exact scans_flat (passes_word hpair (unmarked rfl))
      all_goals simp

/-- The closing character is found unless the levels overflow. -/
theorem findClosing_exact (hbrackets : Brackets opening closing) {height : Nat} {text : Text}
    (hscans : Scans opening closing height text) (rest : Text) :
    findClosing opening closing (opening :: (text ++ [closing]) ++ rest) =
      if height + 1 < 2 ^ 31 then .found (text.length + 2) else .fault := by
  by_cases hfits : height + 1 < 2 ^ 31
  · rw [if_pos hfits]
    exact findClosing_enclosed hbrackets hscans.passes hfits rest
  · rw [if_neg hfits, List.cons_append, List.append_assoc, findClosing,
      if_neg (not_not.mpr rfl)]
    exact hscans.fails 1 1 _ (by decide) (by decide) (by omega)

end Scans

end DumaisLib.JSON
