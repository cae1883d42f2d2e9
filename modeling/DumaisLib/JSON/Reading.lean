import DumaisLib.JSON.Levels
import DumaisLib.JSON.RoundTrip

/-!
# Reading valid texts

The loops over members and elements end at the first one that they do not
recognise, and each of their turns takes one member or element of a valid text.
-/

namespace DumaisLib.JSON

open Machine DumaisLib.JSON.Parser Rfc8259

/-! ## What a tree keeps of a document -/

/-- The tree has the members and elements of the document, under the names as written. -/
inductive Mirrors : Json → Node → Prop where
  | object {members : List (List Letter × Json)} {mMembers : List (Text × Node)} :
      (mMembers.map Prod.fst).Perm (members.map fun member => body member.1) →
      (∀ member ∈ members, ∀ child, (body member.1, child) ∈ mMembers →
        Mirrors member.2 child) → Mirrors (.object members) (.Object mMembers)
  | array {elements : List Json} {mMembers : List Node} : elements.length = mMembers.length →
      (∀ pair ∈ elements.zip mMembers, Mirrors pair.1 pair.2) →
      Mirrors (.array elements) (.List mMembers)
  | string {letters mValue mSubType} : Mirrors (.string letters) (.Value mValue mSubType)
  | number {text isNumber mValue mSubType} :
      Mirrors (.number text isNumber) (.Value mValue mSubType)
  | bool {value mValue mSubType} : Mirrors (.bool value) (.Value mValue mSubType)
  | null {mValue mSubType} : Mirrors .null (.Value mValue mSubType)

/-- The members of every object have different names. -/
inductive DistinctNames : Json → Prop where
  | object {members : List (List Letter × Json)} : (members.map Prod.fst).Nodup →
      (∀ member ∈ members, DistinctNames member.2) → DistinctNames (.object members)
  | array {elements : List Json} : (∀ element ∈ elements, DistinctNames element) →
      DistinctNames (.array elements)
  | string {letters} : DistinctNames (.string letters)
  | number {text isNumber} : DistinctNames (.number text isNumber)
  | bool {value} : DistinctNames (.bool value)
  | null : DistinctNames .null

/-- The levels that the scan for the end of the value counts fit into an `int`. -/
def Scannable : Json → Prop
  | .object members => levels '\x7b' (.object members) < 2 ^ 31
  | .array elements => levels '[' (.array elements) < 2 ^ 31
  | _ => True

/-- No value but a number with a plus sign in its exponent is left before its end. -/
def readWhole : Json → Bool
  | .number text _ => !text.contains '+'
  | _ => true

mutual

/-- Names are not empty, levels fit, and only a last value is left before its end. -/
def Kept : Json → Prop
  | .object members => keptMembers members
  | .array elements => keptElements elements
  | _ => True

def keptMembers : List (List Letter × Json) → Prop
  | [] => True
  | (name, value) :: members =>
      name ≠ [] ∧ Scannable value ∧ (members = [] ∨ readWhole value = true) ∧ Kept value ∧
        keptMembers members

def keptElements : List Json → Prop
  | [] => True
  | element :: elements =>
      Scannable element ∧ (elements = [] ∨ readWhole element = true) ∧ Kept element ∧
        keptElements elements

end

/-! ## Values -/

/-- The property of a number or a literal name. -/
def naked (tmp : Text) : JSONProperty :=
  match validateNakedValue tmp with
  | .Illegal => ⟨"\x7billegal\x7d".toList, .Illegal, .JSON_Value, tmp.length⟩
  | nrv => ⟨tmp, nrv, .JSON_Value, tmp.length⟩

/-- What the scanner finds at the start of a value. -/
def property : Json → JSONProperty
  | .object members =>
      ⟨(Json.object members).text, .Illegal, .JSON_Object, (Json.object members).text.length⟩
  | .array elements =>
      ⟨(Json.array elements).text, .Illegal, .JSON_List, (Json.array elements).text.length⟩
  | .string letters => ⟨body letters, .String, .JSON_Value, (body letters).length + 2⟩
  | .number text _ => naked (parseNakedValue text)
  | .bool value => naked (Json.bool value).text
  | .null => naked Json.null.text

theorem naked_type (tmp : Text) : (naked tmp).type = .JSON_Value := by
  unfold naked
  split <;> rfl

theorem naked_size (tmp : Text) : (naked tmp).size = tmp.length := by
  unfold naked
  split <;> rfl

theorem Ends.not_naked {rest : Text} (hends : Ends rest) :
    ∀ char ∈ rest.head?, isNaked char = false := by
  intro char hhead
  rcases hends with rfl | ⟨other, more, rfl, hother⟩
  · cases hhead
  · obtain rfl := Option.some.inj hhead
    rcases hother with rfl | rfl | rfl <;> rfl

theorem parseNakedValue_append {text rest : Text}
    (hrest : ∀ char ∈ rest.head?, isNaked char = false) :
    parseNakedValue (text ++ rest) = parseNakedValue text := by
  induction text with
  | nil =>
      cases rest with
      | nil => rfl
      | cons char rest => exact List.takeWhile_cons_of_neg (by simp [hrest char rfl])
  | cons char text ih =>
      simp only [parseNakedValue, List.cons_append, List.takeWhile_cons] at ih ⊢
      rw [ih]

theorem getValue_nakedText {text rest : Text} {char : Char} {more : Text}
    (htext : text = char :: more) (hchar : isNaked char = true)
    (hrest : ∀ char ∈ rest.head?, isNaked char = false) :
    getValue (text ++ rest) = some (naked (parseNakedValue text)) := by
  have hparse := @parseNakedValue_append text rest hrest
  rw [htext, List.cons_append] at hparse ⊢
  rw [getValue, if_neg (naked_ne hchar rfl), if_neg (naked_ne hchar rfl),
    if_neg (naked_ne hchar rfl), if_pos hchar, hparse]
  dsimp only
  rw [naked]
  cases validateNakedValue (parseNakedValue (char :: more)) <;> rfl

theorem naked_of_number_head {char : Char} (hchar : char.isDigit = true ∨ char = '-') :
    isNaked char = true := by
  rcases hchar with hdigit | rfl
  · simp [isNaked, Char.isAlphanum, hdigit]
  · rfl

theorem getValue_scannable {json : Json} {rest : Text} (hscannable : Scannable json)
    (hends : Ends rest) : getValue (json.text ++ rest) = some (property json) := by
  cases json with
  | object members =>
      have hscans := scans_members (.inl ⟨rfl, rfl⟩) fun member (_ : member ∈ members) =>
        scans_text (.inl ⟨rfl, rfl⟩) member.2
      have hfits : memberLevels '\x7b' members + 1 < 2 ^ 31 := hscannable
      rw [property, text_object]
      exact getValue_object hscans.passes hfits rest
  | array elements =>
      have hscans := scans_elements (.inr ⟨rfl, rfl⟩) fun element (_ : element ∈ elements) =>
        scans_text (.inr ⟨rfl, rfl⟩) element
      have hfits : elementLevels '[' elements + 1 < 2 ^ 31 := hscannable
      rw [property, text_array]
      exact getValue_list hscans.passes hfits rest
  | string letters =>
      rw [text_string]
      exact getValue_quoted (quotable_body letters) rest
  | number text isNumber =>
      obtain ⟨char, more, htext, hchar⟩ := isNumber.head
      rw [text_number]
      exact getValue_nakedText htext (naked_of_number_head hchar) (Ends.not_naked hends)
  | bool value =>
      rw [text_bool, property, text_bool]
      cases value
      · exact getValue_nakedText rfl rfl (Ends.not_naked hends)
      · exact getValue_nakedText rfl rfl (Ends.not_naked hends)
  | null => exact getValue_nakedText rfl rfl (Ends.not_naked hends)

/-- A scan whose levels overflow fails. -/
theorem getValue_not_scannable {json : Json} (hscannable : ¬ Scannable json) (rest : Text) :
    getValue (json.text ++ rest) = none := by
  cases json with
  | object members =>
      have hscans := scans_members (.inl ⟨rfl, rfl⟩) fun member (_ : member ∈ members) =>
        scans_text (.inl ⟨rfl, rfl⟩) member.2
      have hfind := findClosing_exact curly_brackets hscans rest
      have hfits : ¬ memberLevels '\x7b' members + 1 < 2 ^ 31 := hscannable
      rw [if_neg hfits] at hfind
      rw [text_object, List.cons_append] at *
      rw [getValue, if_pos rfl, findClosingCurly, hfind]
      rfl
  | array elements =>
      have hscans := scans_elements (.inr ⟨rfl, rfl⟩) fun element (_ : element ∈ elements) =>
        scans_text (.inr ⟨rfl, rfl⟩) element
      have hfind := findClosing_exact square_brackets hscans rest
      have hfits : ¬ elementLevels '[' elements + 1 < 2 ^ 31 := hscannable
      rw [if_neg hfits] at hfind
      rw [text_array, List.cons_append] at *
      rw [getValue, if_neg (by decide), if_pos rfl, findClosingBracket, hfind]
      rfl
  | string letters => exact absurd trivial hscannable
  | number text isNumber => exact absurd trivial hscannable
  | bool value => exact absurd trivial hscannable
  | null => exact absurd trivial hscannable

/-! ## What is left behind a value -/

theorem isNaked_of_numberChar {char : Char} (hchar : isNumberChar char = true)
    (hplus : char ≠ '+') : isNaked char = true := by
  simp only [isNumberChar, Bool.or_eq_true, decide_eq_true_eq] at hchar
  rcases hchar with ((((hdigit | rfl) | rfl) | rfl) | rfl) | rfl
  · simp [isNaked, Char.isAlphanum, hdigit]
  · rfl
  · exact absurd rfl hplus
  · rfl
  · rfl
  · rfl

theorem parseNakedValue_number {text : Text} (hchars : ∀ char ∈ text, isNumberChar char = true) :
    ('+' ∉ text ∧ parseNakedValue text = text) ∨
      ∃ more, '+' ∈ text ∧ text = parseNakedValue text ++ '+' :: more := by
  induction text with
  | nil => exact .inl ⟨List.not_mem_nil, rfl⟩
  | cons char text ih =>
      by_cases hplus : char = '+'
      · subst hplus
        exact .inr ⟨text, List.mem_cons_self, rfl⟩
      · have hnaked := isNaked_of_numberChar (hchars char List.mem_cons_self) hplus
        have htake : parseNakedValue (char :: text) = char :: parseNakedValue text :=
          List.takeWhile_cons_of_pos hnaked
        rw [htake]
        rcases ih fun later hlater => hchars later (List.mem_cons_of_mem _ hlater) with
          ⟨hnone, hwhole⟩ | ⟨more, hsome, hsplit⟩
        · rw [hwhole]
          exact .inl ⟨List.not_mem_cons_of_ne_of_not_mem (Ne.symm hplus) hnone, rfl⟩
        · exact .inr ⟨more, List.mem_cons_of_mem _ hsome, congrArg (char :: ·) hsplit⟩

/-- The scanner goes to the end of the value, or to the plus sign of a number. -/
theorem property_size_cases (json : Json) :
    (readWhole json = true ∧ (property json).size = json.text.length) ∨
      (readWhole json = false ∧ ∃ seen more, json.text = seen ++ '+' :: more ∧
        (property json).size = seen.length) := by
  cases json with
  | object members => exact .inl ⟨rfl, rfl⟩
  | array elements => exact .inl ⟨rfl, rfl⟩
  | string letters =>
      refine .inl ⟨rfl, ?_⟩
      rw [text_string, literal]
      simp [property]
  | number text isNumber =>
      rw [text_number, property, naked_size]
      rcases parseNakedValue_number isNumber.chars with ⟨hnone, hwhole⟩ | ⟨more, hsome, hsplit⟩
      · exact .inl ⟨by simp [readWhole, hnone], by rw [hwhole]⟩
      · exact .inr ⟨by simp [readWhole, hsome], _, more, hsplit, rfl⟩
  | bool value =>
      refine .inl ⟨rfl, ?_⟩
      rw [property, naked_size]
  | null => exact .inl ⟨rfl, rfl⟩

/-- What stands behind the values of a list: commas and further values, up to the end. -/
def closed (closing : Char) (texts : List Text) : Text :=
  (if texts.isEmpty then [] else [',']) ++ (joined texts ++ [closing])

theorem ends_closed {closing : Char} (hclosing : closing = '\x7d' ∨ closing = ']')
    (texts : List Text) : Ends (closed closing texts) := by
  cases texts with
  | nil => exact .inr ⟨closing, [], rfl, .inr hclosing⟩
  | cons text texts => exact .inr ⟨',', _, rfl, .inl rfl⟩

/-- Behind a value that is read whole a comma may follow; otherwise a plus sign does. -/
theorem value_split {closing : Char} (hclosing : closing ≠ ',') (json : Json)
    (texts : List Text) :
    ∃ seen more, json.text ++ closed closing texts = seen ++ more ∧
      (property json).size = seen.length ∧
      (more.head? = some ',' ↔ (readWhole json && !texts.isEmpty) = true) ∧
      (more.head? = some ',' → more.tail = joined texts ++ [closing]) := by
  rcases property_size_cases json with ⟨hwhole, hsize⟩ | ⟨hleft, seen, more, htext, hsize⟩
  · refine ⟨json.text, closed closing texts, rfl, hsize, ?_⟩
    rw [hwhole, Bool.true_and]
    cases texts with
    | nil => simp [closed, joined, hclosing]
    | cons text texts => simp [closed]
  · refine ⟨seen, '+' :: more ++ closed closing texts, ?_, hsize, ?_⟩
    · rw [htext, List.append_assoc]
    · simp [hleft]

/-! ## Turns of the loops -/

/-- The text from the members on. -/
def membersText (members : List (List Letter × Json)) : Text :=
  joined (members.map memberText) ++ ['\x7d']

/-- The text from the elements on. -/
def elementsText (elements : List Json) : Text :=
  joined (elements.map Json.text) ++ [']']

theorem body_ne_nil {letters : List Letter} (hne : letters ≠ []) : body letters ≠ [] := by
  cases letters with
  | nil => exact absurd rfl hne
  | cons letter letters =>
      rw [body_cons]
      cases letter <;> exact List.cons_ne_nil _ _

theorem nul_not_mem_joined {texts : List Text} (hnul : ∀ text ∈ texts, '\x00' ∉ text) :
    '\x00' ∉ joined texts := by
  induction texts with
  | nil => exact List.not_mem_nil
  | cons text texts ih =>
      have hrest := ih fun later hlater => hnul later (List.mem_cons_of_mem _ hlater)
      have htext := hnul text List.mem_cons_self
      rw [joined]
      cases texts <;> simp [htext, hrest]

theorem nul_not_mem_memberText (member : List Letter × Json) : '\x00' ∉ memberText member := by
  have hname := nul_not_mem_of_quotable (quotable_body member.1)
  simp [memberText, literal, hname, nul_not_mem_text member.2]

theorem nul_not_mem_closed_texts {closing : Char} (hclosing : closing ≠ '\x00') {texts : List Text}
    (hnul : ∀ text ∈ texts, '\x00' ∉ text) : '\x00' ∉ closed closing texts := by
  have hjoined := nul_not_mem_joined hnul
  cases texts <;> simp [closed, hjoined, Ne.symm hclosing]

theorem membersText_cons (name : List Letter) (value : Json) (members : List (List Letter × Json)) :
    membersText ((name, value) :: members) =
      quoted (body name) ++ ':' :: (value.text ++ closed '\x7d' (members.map memberText)) := by
  simp [membersText, joined, memberText, closed, literal, quoted]

theorem getPair_member (name : List Letter) (value : Json) (members : List (List Letter × Json))
    (hname : name ≠ []) :
    getPair (membersText ((name, value) :: members)) =
      (getValue (value.text ++ closed '\x7d' (members.map memberText))).map fun val =>
        ⟨body name, val, (body name).length + 3 + val.size⟩ := by
  have hrest : '\x00' ∉ closed '\x7d' (members.map memberText) := by
    refine nul_not_mem_closed_texts (by decide) fun text hmem => ?_
    obtain ⟨member, _, rfl⟩ := List.mem_map.mp hmem
    exact nul_not_mem_memberText member
  have hcstr : '\x00' ∉ value.text ++ closed '\x7d' (members.map memberText) := fun hmem =>
    (List.mem_append.mp hmem).elim (nul_not_mem_text value) hrest
  rw [membersText_cons, getPair_name (length_quoted _) (body_ne_nil hname)
    (parseString_quoted (quotable_body name) _), Text.cstr_of_not_mem hcstr]

theorem property_type (json : Json) : (property json).type ≠ .JSON_Invalid := by
  cases json with
  | object members => rintro ⟨⟩
  | array elements => rintro ⟨⟩
  | string letters => rintro ⟨⟩
  | number text isNumber =>
      rw [property, naked_type]
      rintro ⟨⟩
  | bool value =>
      rw [property, naked_type]
      rintro ⟨⟩
  | null =>
      rw [property, naked_type]
      rintro ⟨⟩

/-- An empty name ends the loop. -/
theorem parseMembers_nameless (fuel : Nat) (done : List (Text × Node)) (value : Json)
    (members : List (List Letter × Json)) :
    parseMembers (fuel + 1) done (membersText (([], value) :: members)) =
      .finished (.Object done) := by
  rw [membersText_cons]
  rfl

theorem parseMembers_not_scannable {name : List Letter} (hname : name ≠ []) {value : Json}
    (hscannable : ¬ Scannable value) (fuel : Nat) (done : List (Text × Node))
    (members : List (List Letter × Json)) :
    parseMembers (fuel + 1) done (membersText ((name, value) :: members)) = .fault := by
  rw [parseMembers, if_neg (by simp [membersText_cons, quoted]), getPair_member name value members hname,
    getValue_not_scannable hscannable]
  rfl

/-- One turn over a member that is recognised. -/
theorem parseMembers_cons {name : List Letter} (hname : name ≠ []) {value : Json}
    (hscannable : Scannable value) (fuel : Nat) (done : List (Text × Node))
    (members : List (List Letter × Json)) :
    parseMembers (fuel + 1) done (membersText ((name, value) :: members)) =
      (newNode fuel (property value)).bind fun node =>
        if readWhole value && !members.isEmpty then
          parseMembers fuel (assign (body name) node done) (membersText members)
        else .finished (.Object (assign (body name) node done)) := by
  have hends := ends_closed (.inl rfl) (members.map memberText)
  have hpair := getPair_member name value members hname
  obtain ⟨seen, more, htext, hsize, hcomma, htail⟩ :=
    value_split (by decide : '\x7d' ≠ ',') value (members.map memberText)
  have hsplit : membersText ((name, value) :: members) =
      (quoted (body name) ++ ':' :: seen) ++ more := by
    rw [membersText_cons, htext, List.append_assoc, List.cons_append]
  have hlength : (body name).length + 3 + (property value).size =
      (quoted (body name) ++ ':' :: seen).length := by
    rw [List.length_append, length_quoted, List.length_cons, hsize]
    omega
  rw [getValue_scannable hscannable hends, Option.map_some, hsplit] at hpair
  rw [hsplit, parseMembers_turn hpair (property_type value) hlength]
  rw [List.isEmpty_map] at hcomma
  congr 1
  funext node
  by_cases hnext : more.head? = some ','
  · rw [if_pos hnext, if_pos (hcomma.mp hnext), htail hnext, membersText]
  · rw [if_neg hnext, if_neg (mt hcomma.mpr hnext)]

theorem elementsText_cons (element : Json) (elements : List Json) :
    elementsText (element :: elements) =
      element.text ++ closed ']' (elements.map Json.text) := by
  simp [elementsText, joined, closed]

theorem elementsText_ne_nil (elements : List Json) : elementsText elements ≠ [] := by
  simp [elementsText]

theorem parseElements_not_scannable {element : Json} (hscannable : ¬ Scannable element)
    (fuel : Nat) (done : List Node) (elements : List Json) :
    parseElements (fuel + 1) done (elementsText (element :: elements)) = .fault := by
  rw [parseElements, if_neg (elementsText_ne_nil _), elementsText_cons,
    getValue_not_scannable hscannable]

/-- One turn over an element. -/
theorem parseElements_cons {element : Json} (hscannable : Scannable element) (fuel : Nat)
    (done : List Node) (elements : List Json) :
    parseElements (fuel + 1) done (elementsText (element :: elements)) =
      (newNode fuel (property element)).bind fun node =>
        if readWhole element && !elements.isEmpty then
          parseElements fuel (done ++ [node]) (elementsText elements)
        else .finished (.List (done ++ [node])) := by
  have hends := ends_closed (.inr rfl) (elements.map Json.text)
  have hvalue := getValue_scannable hscannable hends
  obtain ⟨seen, more, htext, hsize, hcomma, htail⟩ :=
    value_split (by decide : ']' ≠ ',') element (elements.map Json.text)
  rw [List.isEmpty_map] at hcomma
  rw [htext] at hvalue
  rw [elementsText_cons, htext, parseElements_turn hvalue (property_type element) hsize]
  congr 1
  funext node
  by_cases hnext : more.head? = some ','
  · rw [if_pos hnext, if_pos (hcomma.mp hnext), htail hnext, elementsText]
  · rw [if_neg hnext, if_neg (mt hcomma.mpr hnext)]

/-! ## Whole loops -/

/-- No key of `done` is a name of the members, and these are different. -/
structure Fresh (done : List (Text × Node)) (members : List (List Letter × Json)) : Prop where
  nodup : (members.map Prod.fst).Nodup
  fresh : ∀ member ∈ members, body member.1 ∉ done.map Prod.fst

theorem body_inj {letters letters' : List Letter} (hbody : body letters = body letters') :
    letters = letters' := by
  have hliteral : literal letters ++ [] = literal letters' ++ [] := by
    rw [literal, literal, hbody]
  exact (literal_inj hliteral).1

theorem Fresh.assign {done : List (Text × Node)} {name : List Letter} {value : Json}
    {members : List (List Letter × Json)} (hfresh : Fresh done ((name, value) :: members))
    (node : Node) : assign (body name) node done = done ++ [(body name, node)] :=
  assign_fresh (hfresh.fresh _ List.mem_cons_self) node

theorem Fresh.next {done : List (Text × Node)} {name : List Letter} {value : Json}
    {members : List (List Letter × Json)} (hfresh : Fresh done ((name, value) :: members))
    (node : Node) : Fresh (done ++ [(body name, node)]) members where
  nodup := (List.nodup_cons.mp hfresh.nodup).2
  fresh := by
    intro member hmem hkey
    rw [List.map_append] at hkey
    rcases List.mem_append.mp hkey with hdone | hsame
    · exact hfresh.fresh member (List.mem_cons_of_mem _ hmem) hdone
    · have hname : member.1 = name := body_inj (List.mem_singleton.mp hsame)
      exact (List.nodup_cons.mp hfresh.nodup).1 (List.mem_map.mpr ⟨member, hmem, hname⟩)

theorem text_ne_nil (json : Json) : json.text ≠ [] := by
  obtain ⟨char, more, htext, _⟩ := json.text_head
  rw [htext]
  exact List.cons_ne_nil _ _

theorem length_membersText_cons (name : List Letter) (value : Json)
    (members : List (List Letter × Json)) :
    value.text.length + (membersText members).length + 1 ≤
      (membersText ((name, value) :: members)).length := by
  rw [membersText_cons]
  cases members with
  | nil =>
      simp [closed, membersText, joined, quoted]
      omega
  | cons next members =>
      simp [closed, membersText, quoted]
      omega

theorem length_elementsText_cons (element : Json) (elements : List Json) :
    element.text.length + (elementsText elements).length ≤
      (elementsText (element :: elements)).length := by
  rw [elementsText_cons]
  cases elements with
  | nil => simp [closed, elementsText, joined]
  | cons next elements => simp [closed, elementsText]

/-! ## Properties -/

theorem newNode_object (fuel : Nat) (members : List (List Letter × Json)) :
    newNode (fuel + 2) (property (.object members)) =
      parseMembers fuel [] (membersText members) := by
  rw [property, text_object]
  rfl

theorem newNode_array (fuel : Nat) (elements : List Json) :
    newNode (fuel + 2) (property (.array elements)) =
      parseElements fuel [] (elementsText elements) := by
  rw [property, text_array]
  rfl

theorem newNode_value {p : JSONProperty} (htype : p.type = .JSON_Value) (fuel : Nat) :
    newNode (fuel + 1) p = .finished (.Value (Value.textOf p.value p.subType) p.subType) := by
  rw [newNode, htype]

end DumaisLib.JSON
