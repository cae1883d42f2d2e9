import DumaisLib.JSON.Reading

/-!
# The trees of valid texts

What the parser makes of a valid text is a function of the document: the loops
leave out what stands behind an empty name or behind a number with a plus sign.
-/

namespace DumaisLib.JSON

open Machine DumaisLib.JSON.Parser Rfc8259

/-- The node that is made of a number or a literal name. -/
def madeNaked (p : JSONProperty) : Node :=
  .Value (Value.textOf p.value p.subType) p.subType

mutual

/-- The node that is made of a value. -/
def made : Json → Node
  | .object members => .Object (madeMembers members)
  | .array elements => .List (madeElements elements)
  | .string letters => .Value (Value.textOf (body letters) .String) .String
  | .number text isNumber => madeNaked (property (.number text isNumber))
  | .bool value => madeNaked (property (.bool value))
  | .null => madeNaked (property .null)

def madeMembers : List (List Letter × Json) → List (Text × Node)
  | [] => []
  | (name, value) :: members =>
      if name.isEmpty then []
      else (body name, made value) :: if readWhole value then madeMembers members else []

def madeElements : List Json → List Node
  | [] => []
  | element :: elements =>
      made element :: if readWhole element then madeElements elements else []

end

mutual

/-- The levels of the values that the loops get to fit. -/
def Fits : Json → Prop
  | .object members => fitsMembers members
  | .array elements => fitsElements elements
  | _ => True

def fitsMembers : List (List Letter × Json) → Prop
  | [] => True
  | (name, value) :: members =>
      name = [] ∨ (Scannable value ∧ Fits value ∧ (readWhole value = true → fitsMembers members))

def fitsElements : List Json → Prop
  | [] => True
  | element :: elements =>
      Scannable element ∧ Fits element ∧ (readWhole element = true → fitsElements elements)

end

/-- Whatever is made of a value is the node for it, and the levels fit. -/
def OnlyMade (json : Json) : Prop :=
  ∀ fuel node, newNode fuel (property json) = .finished node → node = made json ∧ Fits json

/-- The node is made, with enough fuel. -/
def IsMade (json : Json) : Prop :=
  ∀ fuel, 3 * json.text.length ≤ fuel → newNode fuel (property json) = .finished (made json)

theorem onlyMade_members {members : List (List Letter × Json)} {done : List (Text × Node)}
    (hfresh : Fresh done members) (hvalues : ∀ member ∈ members, OnlyMade member.2)
    {fuel : Nat} {node : Node}
    (hparse : parseMembers fuel done (membersText members) = .finished node) :
    node = .Object (done ++ madeMembers members) ∧ fitsMembers members := by
  induction members generalizing done fuel with
  | nil =>
      cases fuel with
      | zero => cases hparse
      | succ fuel =>
          obtain rfl : Node.Object done = node := Outcome.finished.inj hparse
          exact ⟨by rw [madeMembers, List.append_nil], trivial⟩
  | cons member members ih =>
      obtain ⟨name, value⟩ := member
      cases fuel with
      | zero => cases hparse
      | succ fuel =>
          by_cases hname : name = []
          · subst hname
            rw [parseMembers_nameless] at hparse
            obtain rfl := Outcome.finished.inj hparse
            exact ⟨by rw [madeMembers, List.isEmpty_nil, if_pos rfl, List.append_nil], .inl rfl⟩
          · by_cases hscannable : Scannable value
            · rw [parseMembers_cons hname hscannable] at hparse
              obtain ⟨child, hchild, hparse⟩ := Outcome.bind_eq_finished.mp hparse
              obtain ⟨rfl, hfits⟩ := hvalues _ List.mem_cons_self fuel child hchild
              rw [hfresh.assign] at hparse
              have hnonempty : ¬ name.isEmpty = true := by rwa [List.isEmpty_iff]
              rw [madeMembers, if_neg hnonempty]
              cases hwhole : readWhole value with
              | false =>
                  rw [hwhole, Bool.false_and, if_neg (by decide)] at hparse
                  obtain rfl := Outcome.finished.inj hparse
                  exact ⟨rfl, .inr ⟨hscannable, hfits, fun htrue => by rw [hwhole] at htrue; cases htrue⟩⟩
              | true =>
                  rw [hwhole, Bool.true_and] at hparse
                  cases members with
                  | nil =>
                      obtain rfl := Outcome.finished.inj hparse
                      exact ⟨rfl, .inr ⟨hscannable, hfits, fun _ => trivial⟩⟩
                  | cons next members =>
                      rw [List.isEmpty_cons, if_pos (by decide)] at hparse
                      obtain ⟨rfl, hrest⟩ := ih (hfresh.next _)
                        (fun later hlater => hvalues later (List.mem_cons_of_mem _ hlater)) hparse
                      refine ⟨?_, .inr ⟨hscannable, hfits, fun _ => hrest⟩⟩
                      rw [if_pos rfl, List.append_assoc, List.singleton_append]
            · rw [parseMembers_not_scannable hname hscannable] at hparse
              cases hparse

theorem onlyMade_elements {elements : List Json} {done : List Node}
    (hvalues : ∀ element ∈ elements, OnlyMade element) {fuel : Nat} {node : Node}
    (hparse : parseElements fuel done (elementsText elements) = .finished node) :
    node = .List (done ++ madeElements elements) ∧ fitsElements elements := by
  induction elements generalizing done fuel with
  | nil =>
      cases fuel with
      | zero => cases hparse
      | succ fuel =>
          obtain rfl : Node.List done = node := Outcome.finished.inj hparse
          exact ⟨by rw [madeElements, List.append_nil], trivial⟩
  | cons element elements ih =>
      cases fuel with
      | zero => cases hparse
      | succ fuel =>
          by_cases hscannable : Scannable element
          · rw [parseElements_cons hscannable] at hparse
            obtain ⟨child, hchild, hparse⟩ := Outcome.bind_eq_finished.mp hparse
            obtain ⟨rfl, hfits⟩ := hvalues _ List.mem_cons_self fuel child hchild
            rw [madeElements]
            cases hwhole : readWhole element with
            | false =>
                rw [hwhole, Bool.false_and, if_neg (by decide)] at hparse
                obtain rfl := Outcome.finished.inj hparse
                exact ⟨rfl, hscannable, hfits, fun htrue => by rw [hwhole] at htrue; cases htrue⟩
            | true =>
                rw [hwhole, Bool.true_and] at hparse
                cases elements with
                | nil =>
                    obtain rfl := Outcome.finished.inj hparse
                    exact ⟨rfl, hscannable, hfits, fun _ => trivial⟩
                | cons next elements =>
                    rw [List.isEmpty_cons, if_pos (by decide)] at hparse
                    obtain ⟨rfl, hrest⟩ := ih
                      (fun later hlater => hvalues later (List.mem_cons_of_mem _ hlater)) hparse
                    refine ⟨?_, hscannable, hfits, fun _ => hrest⟩
                    rw [if_pos rfl, List.append_assoc, List.singleton_append]
          · rw [parseElements_not_scannable hscannable] at hparse
            cases hparse

theorem isMade_members {members : List (List Letter × Json)} {done : List (Text × Node)}
    (hfits : fitsMembers members) (hfresh : Fresh done members)
    (hvalues : ∀ member ∈ members, Fits member.2 → IsMade member.2) {fuel : Nat}
    (hfuel : 3 * (membersText members).length ≤ fuel) :
    parseMembers fuel done (membersText members) =
      .finished (.Object (done ++ madeMembers members)) := by
  induction members generalizing done fuel with
  | nil =>
      obtain ⟨fuel, rfl⟩ := Nat.exists_eq_add_of_le' (show 1 ≤ fuel from by
        simp [membersText, joined] at hfuel
        omega)
      rw [madeMembers, List.append_nil]
      rfl
  | cons member members ih =>
      obtain ⟨name, value⟩ := member
      have hlength := length_membersText_cons name value members
      have hpos := List.length_pos_iff.mpr (text_ne_nil value)
      obtain ⟨fuel, rfl⟩ := Nat.exists_eq_add_of_le' (show 1 ≤ fuel from by omega)
      by_cases hname : name = []
      · subst hname
        rw [parseMembers_nameless, madeMembers, List.isEmpty_nil, if_pos rfl, List.append_nil]
      · obtain ⟨hscannable, hvalue, hrest⟩ := hfits.resolve_left hname
        have hnonempty : ¬ name.isEmpty = true := by rwa [List.isEmpty_iff]
        have hmade : IsMade value := hvalues _ List.mem_cons_self hvalue
        have hnode := hmade fuel (by omega)
        rw [parseMembers_cons hname hscannable, hnode, Outcome.bind, hfresh.assign, madeMembers,
          if_neg hnonempty]
        cases hwhole : readWhole value with
        | false => rw [Bool.false_and, if_neg (by decide), if_neg (by decide)]
        | true =>
            cases members with
            | nil => rw [List.isEmpty_nil, Bool.not_true, Bool.and_false, if_neg (by decide),
                if_pos rfl, madeMembers]
            | cons next members =>
                rw [List.isEmpty_cons, if_pos (by decide), if_pos rfl,
                  ih (hrest hwhole) (hfresh.next _)
                    (fun later hlater => hvalues later (List.mem_cons_of_mem _ hlater)) (by omega),
                  List.append_assoc, List.singleton_append]

theorem isMade_elements {elements : List Json} {done : List Node} (hfits : fitsElements elements)
    (hvalues : ∀ element ∈ elements, Fits element → IsMade element) {fuel : Nat}
    (hfuel : 3 * (elementsText elements).length ≤ fuel) :
    parseElements fuel done (elementsText elements) =
      .finished (.List (done ++ madeElements elements)) := by
  induction elements generalizing done fuel with
  | nil =>
      obtain ⟨fuel, rfl⟩ := Nat.exists_eq_add_of_le' (show 1 ≤ fuel from by
        simp [elementsText, joined] at hfuel
        omega)
      rw [madeElements, List.append_nil]
      rfl
  | cons element elements ih =>
      obtain ⟨hscannable, hvalue, hrest⟩ := hfits
      have hlength := length_elementsText_cons element elements
      have hpos := List.length_pos_iff.mpr (text_ne_nil element)
      have hlast := List.length_pos_iff.mpr (elementsText_ne_nil elements)
      obtain ⟨fuel, rfl⟩ := Nat.exists_eq_add_of_le' (show 1 ≤ fuel from by omega)
      have hmade : IsMade element := hvalues _ List.mem_cons_self hvalue
      have hnode := hmade fuel (by omega)
      rw [parseElements_cons hscannable, hnode, Outcome.bind, madeElements]
      cases hwhole : readWhole element with
      | false => rw [Bool.false_and, if_neg (by decide), if_neg (by decide)]
      | true =>
          cases elements with
          | nil => rw [List.isEmpty_nil, Bool.not_true, Bool.and_false, if_neg (by decide),
              if_pos rfl, madeElements]
          | cons next elements =>
              rw [List.isEmpty_cons, if_pos (by decide), if_pos rfl,
                ih (hrest hwhole)
                  (fun later hlater => hvalues later (List.mem_cons_of_mem _ hlater)) (by omega),
                List.append_assoc, List.singleton_append]

theorem onlyMade_value {json : Json} (htype : (property json).type = .JSON_Value)
    (hmade : made json = madeNaked (property json)) (hfits : Fits json) : OnlyMade json := by
  intro fuel node hnode
  cases fuel with
  | zero => cases hnode
  | succ fuel =>
      rw [newNode_value htype] at hnode
      rw [hmade]
      exact ⟨(Outcome.finished.inj hnode).symm, hfits⟩

theorem onlyMade {json : Json} (hdistinct : DistinctNames json) : OnlyMade json := by
  induction json using Json.children_induction with
  | object members ih =>
      cases hdistinct with
      | object hnodup hvalues =>
          intro fuel node hnode
          cases fuel with
          | zero => cases hnode
          | succ fuel =>
              cases fuel with
              | zero => cases hnode
              | succ fuel =>
                  rw [newNode_object] at hnode
                  exact onlyMade_members ⟨hnodup, fun _ _ => List.not_mem_nil⟩
                    (fun member hmem => ih member hmem (hvalues member hmem)) hnode
  | array elements ih =>
      cases hdistinct with
      | array hvalues =>
          intro fuel node hnode
          cases fuel with
          | zero => cases hnode
          | succ fuel =>
              cases fuel with
              | zero => cases hnode
              | succ fuel =>
                  rw [newNode_array] at hnode
                  exact onlyMade_elements
                    (fun element hmem => ih element hmem (hvalues element hmem)) hnode
  | string letters => exact onlyMade_value rfl rfl trivial
  | number text isNumber => exact onlyMade_value (naked_type _) rfl trivial
  | bool value => exact onlyMade_value (naked_type _) rfl trivial
  | null => exact onlyMade_value (naked_type _) rfl trivial

theorem isMade_value {json : Json} (htype : (property json).type = .JSON_Value)
    (hmade : made json = madeNaked (property json)) : IsMade json := by
  intro fuel hfuel
  have hpos := List.length_pos_iff.mpr (text_ne_nil json)
  obtain ⟨fuel, rfl⟩ := Nat.exists_eq_add_of_le' (show 1 ≤ fuel from by omega)
  rw [newNode_value htype, hmade, madeNaked]

theorem isMade {json : Json} (hdistinct : DistinctNames json) (hfits : Fits json) : IsMade json := by
  induction json using Json.children_induction with
  | object members ih =>
      cases hdistinct with
      | object hnodup hvalues =>
          intro fuel hfuel
          rw [text_object, List.length_cons] at hfuel
          obtain ⟨fuel, rfl⟩ := Nat.exists_eq_add_of_le' (show 2 ≤ fuel from by omega)
          rw [newNode_object, made]
          exact @isMade_members members [] hfits ⟨hnodup, fun _ _ => List.not_mem_nil⟩
            (fun member hmem => ih member hmem (hvalues member hmem)) fuel (by rw [membersText]; omega)
  | array elements ih =>
      cases hdistinct with
      | array hvalues =>
          intro fuel hfuel
          rw [text_array, List.length_cons] at hfuel
          obtain ⟨fuel, rfl⟩ := Nat.exists_eq_add_of_le' (show 2 ≤ fuel from by omega)
          rw [newNode_array, made]
          exact @isMade_elements elements [] hfits
            (fun element hmem => ih element hmem (hvalues element hmem)) fuel
            (by rw [elementsText]; omega)
  | string letters => exact isMade_value rfl rfl
  | number text isNumber => exact isMade_value (naked_type _) rfl
  | bool value => exact isMade_value (naked_type _) rfl
  | null => exact isMade_value (naked_type _) rfl

theorem parse_writtenAs {members : List (List Letter × Json)} {text : Text}
    (hwritten : (Json.object members).WrittenAs text) :
    parse text =
      newNode (3 * (Json.object members).text.length + 4) (property (.object members)) := by
  rw [parse, removeSpaces_writtenAs hwritten]
  rfl

/-- What the parser returns for a valid text of an object. -/
theorem parse_object {members : List (List Letter × Json)} {text : Text}
    (hwritten : (Json.object members).WrittenAs text)
    (hdistinct : DistinctNames (.object members)) {node : Node} :
    parse text = .finished node ↔ node = made (.object members) ∧ Fits (.object members) := by
  rw [parse_writtenAs hwritten]
  constructor
  · exact onlyMade hdistinct _ node
  · rintro ⟨rfl, hfits⟩
    exact isMade hdistinct hfits _ (by omega)

end DumaisLib.JSON
