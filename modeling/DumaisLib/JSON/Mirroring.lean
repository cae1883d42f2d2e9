import DumaisLib.JSON.ReadTrees

/-!
# Trees that mirror their texts

The tree that is made of a valid text has every member and element of it exactly
when every one is recognised to its end.
-/

namespace DumaisLib.JSON

open Machine DumaisLib.JSON.Parser Rfc8259

/-! ## Members and elements -/

/-- The members of an object are there, in the order of the text. -/
def EachMirrors (members : List (List Letter × Json)) (added : List (Text × Node)) : Prop :=
  added.map Prod.fst = members.map (fun member => body member.1) ∧
    ∀ pair ∈ members.zip added, Mirrors pair.1.2 pair.2.2

theorem EachMirrors.cons {name : List Letter} {value : Json} {members : List (List Letter × Json)}
    {node : Node} {added : List (Text × Node)} (hnode : Mirrors value node)
    (heach : EachMirrors members added) :
    EachMirrors ((name, value) :: members) ((body name, node) :: added) := by
  refine ⟨congrArg (body name :: ·) heach.1, fun pair hpair => ?_⟩
  rcases List.mem_cons.mp hpair with rfl | hpair
  · exact hnode
  · exact heach.2 pair hpair

theorem EachMirrors.of_cons {name : List Letter} {value : Json}
    {members : List (List Letter × Json)} {node : Node} {added : List (Text × Node)}
    (heach : EachMirrors ((name, value) :: members) ((body name, node) :: added)) :
    Mirrors value node ∧ EachMirrors members added :=
  ⟨heach.2 _ List.mem_cons_self, (List.cons.inj heach.1).2,
    fun pair hpair => heach.2 pair (List.mem_cons_of_mem _ hpair)⟩

/-- The node that is made of a value, with enough fuel, is its mirror image. -/
def MakesMirror (json : Json) : Prop :=
  ∀ fuel, 3 * json.text.length ≤ fuel →
    ∃ node, newNode fuel (property json) = .finished node ∧ Mirrors json node

/-- A mirror image is made of values only that are kept. -/
def MirrorsKept (json : Json) : Prop :=
  ∀ fuel node, newNode fuel (property json) = .finished node → Mirrors json node → Kept json

theorem pair_of_mem_zip {members : List (List Letter × Json)} {added : List (Text × Node)}
    (hnodup : (members.map Prod.fst).Nodup) (heach : EachMirrors members added)
    {member : List Letter × Json} (hmember : member ∈ members) {child : Node}
    (hchild : (body member.1, child) ∈ added) : Mirrors member.2 child := by
  induction members generalizing added with
  | nil => cases hmember
  | cons first members ih =>
      obtain ⟨name, value⟩ := first
      cases added with
      | nil => cases heach.1
      | cons node added =>
          obtain ⟨key, node⟩ := node
          obtain rfl : key = body name := (List.cons.inj heach.1).1
          obtain ⟨hnode, hrest⟩ := heach.of_cons
          obtain ⟨hfirst, hnodup⟩ := List.nodup_cons.mp hnodup
          rcases List.mem_cons.mp hmember with rfl | hmember
          · rcases List.mem_cons.mp hchild with heq | hchild
            · rw [(Prod.mk.inj heq).2]
              exact hnode
            · have hkey : body name ∈ added.map Prod.fst := List.mem_map.mpr ⟨_, hchild, rfl⟩
              rw [hrest.1] at hkey
              obtain ⟨other, hother, hbody⟩ := List.mem_map.mp hkey
              exact absurd (List.mem_map.mpr ⟨other, hother, body_inj hbody⟩) hfirst
          · rcases List.mem_cons.mp hchild with heq | hchild
            · have hname := body_inj (Prod.mk.inj heq).1
              exact absurd (List.mem_map.mpr ⟨member, hmember, hname⟩) hfirst
            · exact ih hnodup hrest hmember hchild

theorem eachMirrors_of_mirrors {members : List (List Letter × Json)} {added : List (Text × Node)}
    (hinitial : added.map Prod.fst <+: members.map (fun member => body member.1))
    (hmirrors : Mirrors (.object members) (.Object added)) : EachMirrors members added := by
  cases hmirrors with
  | object hperm hall =>
      have hkeys := hinitial.eq_of_length hperm.length_eq
      refine ⟨hkeys, fun pair hpair => ?_⟩
      obtain ⟨member, node⟩ := pair
      obtain ⟨index, hindex⟩ := List.mem_iff_getElem?.mp hpair
      obtain ⟨hmember, hnode⟩ := List.getElem?_zip_eq_some.mp hindex
      have hkey : (added.map Prod.fst)[index]? = (members.map fun member => body member.1)[index]? := by
        rw [hkeys]
      rw [List.getElem?_map, List.getElem?_map, hmember, hnode] at hkey
      have hsame : node.1 = body member.1 := Option.some.inj hkey
      refine hall member (List.mem_of_getElem? hmember) node.2 ?_
      rw [← hsame]
      exact List.mem_of_getElem? hnode

theorem madeMembers_cons {name : List Letter} (hname : name ≠ []) (value : Json)
    (members : List (List Letter × Json)) :
    madeMembers ((name, value) :: members) =
      (body name, made value) :: if readWhole value then madeMembers members else [] := by
  rw [madeMembers, if_neg (by rwa [List.isEmpty_iff])]

theorem madeMembers_keys (members : List (List Letter × Json)) :
    (madeMembers members).map Prod.fst <+: members.map fun member => body member.1 := by
  induction members with
  | nil => exact List.nil_prefix
  | cons member members ih =>
      obtain ⟨name, value⟩ := member
      by_cases hname : name = []
      · rw [hname, madeMembers, List.isEmpty_nil, if_pos rfl]
        exact List.nil_prefix
      · rw [madeMembers_cons hname]
        refine (List.prefix_cons_inj _).mpr ?_
        split
        · exact ih
        · exact List.nil_prefix

/-! ## Kept documents -/

theorem fitsMembers_of_kept {members : List (List Letter × Json)}
    (hvalues : ∀ member ∈ members, Kept member.2 → Fits member.2) (hkept : keptMembers members) :
    fitsMembers members := by
  induction members with
  | nil => trivial
  | cons member members ih =>
      obtain ⟨-, hscannable, -, hvalue, hrest⟩ := hkept
      have hlater := ih (fun later hlater => hvalues later (List.mem_cons_of_mem _ hlater)) hrest
      exact .inr ⟨hscannable, hvalues _ List.mem_cons_self hvalue, fun _ => hlater⟩

theorem fitsElements_of_kept {elements : List Json}
    (hvalues : ∀ element ∈ elements, Kept element → Fits element) (hkept : keptElements elements) :
    fitsElements elements := by
  induction elements with
  | nil => trivial
  | cons element elements ih =>
      obtain ⟨hscannable, -, hvalue, hrest⟩ := hkept
      have hlater := ih (fun later hlater => hvalues later (List.mem_cons_of_mem _ hlater)) hrest
      exact ⟨hscannable, hvalues _ List.mem_cons_self hvalue, fun _ => hlater⟩

theorem fits_of_kept {json : Json} (hkept : Kept json) : Fits json := by
  induction json using Json.children_induction with
  | object members ih => exact fitsMembers_of_kept ih hkept
  | array elements ih => exact fitsElements_of_kept ih hkept
  | string letters => trivial
  | number text isNumber => trivial
  | bool value => trivial
  | null => trivial

theorem eachMirrors_made {members : List (List Letter × Json)}
    (hvalues : ∀ member ∈ members, Kept member.2 → Mirrors member.2 (made member.2))
    (hkept : keptMembers members) : EachMirrors members (madeMembers members) := by
  induction members with
  | nil => exact ⟨rfl, fun _ hpair => absurd hpair List.not_mem_nil⟩
  | cons member members ih =>
      obtain ⟨name, value⟩ := member
      obtain ⟨hname, -, hwhole, hvalue, hrest⟩ := hkept
      have hmirrors : Mirrors value (made value) := hvalues _ List.mem_cons_self hvalue
      have hlater := ih (fun later hlater => hvalues later (List.mem_cons_of_mem _ hlater)) hrest
      rw [madeMembers_cons hname]
      rcases hwhole with rfl | hwhole
      · rw [madeMembers, ite_self]
        exact .cons hmirrors hlater
      · rw [if_pos hwhole]
        exact .cons hmirrors hlater

theorem elements_made {elements : List Json}
    (hvalues : ∀ element ∈ elements, Kept element → Mirrors element (made element))
    (hkept : keptElements elements) :
    elements.length = (madeElements elements).length ∧
      ∀ pair ∈ elements.zip (madeElements elements), Mirrors pair.1 pair.2 := by
  induction elements with
  | nil => exact ⟨rfl, fun _ hpair => absurd hpair List.not_mem_nil⟩
  | cons element elements ih =>
      obtain ⟨-, hwhole, hvalue, hrest⟩ := hkept
      obtain ⟨hlength, hlater⟩ := ih
        (fun later hlater => hvalues later (List.mem_cons_of_mem _ hlater)) hrest
      have hread : (if readWhole element then madeElements elements else []) =
          madeElements elements := by
        rcases hwhole with rfl | hwhole
        · rw [madeElements, ite_self]
        · rw [if_pos hwhole]
      rw [madeElements, hread]
      refine ⟨congrArg (· + 1) hlength, fun pair hpair => ?_⟩
      rcases List.mem_cons.mp hpair with rfl | hpair
      · exact hvalues _ List.mem_cons_self hvalue
      · exact hlater pair hpair

theorem mirrors_made {json : Json} (hdistinct : DistinctNames json) (hkept : Kept json) :
    Mirrors json (made json) := by
  induction json using Json.children_induction with
  | object members ih =>
      cases hdistinct with
      | object hnodup hvalues =>
          have heach := eachMirrors_made (fun member hmem => ih member hmem (hvalues member hmem)) hkept
          refine .object ?_ fun member hmem child hchild => pair_of_mem_zip hnodup heach hmem hchild
          rw [heach.1]
  | array elements ih =>
      cases hdistinct with
      | array hvalues =>
          obtain ⟨hlength, hall⟩ :=
            elements_made (fun element hmem => ih element hmem (hvalues element hmem)) hkept
          exact .array hlength hall
  | string letters => exact .string
  | number text isNumber => exact .number
  | bool value => exact .bool
  | null => exact .null

theorem makesMirror {json : Json} (hdistinct : DistinctNames json) (hkept : Kept json) :
    MakesMirror json :=
  fun fuel hfuel => ⟨made json, isMade hdistinct (fits_of_kept hkept) fuel hfuel,
    mirrors_made hdistinct hkept⟩

theorem keptMembers_of_mirrors {members : List (List Letter × Json)}
    (hvalues : ∀ member ∈ members, Fits member.2 → Mirrors member.2 (made member.2) → Kept member.2)
    (hfits : fitsMembers members) (heach : EachMirrors members (madeMembers members)) :
    keptMembers members := by
  induction members with
  | nil => trivial
  | cons member members ih =>
      obtain ⟨name, value⟩ := member
      by_cases hname : name = []
      · rw [hname, madeMembers, List.isEmpty_nil, if_pos rfl] at heach
        cases heach.1
      · obtain ⟨hscannable, hvalue, hrest⟩ := hfits.resolve_left hname
        rw [madeMembers_cons hname] at heach
        obtain ⟨hmirrors, hlater⟩ := heach.of_cons
        have hkept := hvalues _ List.mem_cons_self hvalue hmirrors
        cases hwhole : readWhole value with
        | true =>
            rw [if_pos hwhole] at hlater
            exact ⟨hname, hscannable, .inr hwhole, hkept,
              ih (fun later hmem => hvalues later (List.mem_cons_of_mem _ hmem)) (hrest hwhole) hlater⟩
        | false =>
            rw [hwhole, if_neg (by decide)] at hlater
            obtain rfl : members = [] := List.map_eq_nil_iff.mp hlater.1.symm
            exact ⟨hname, hscannable, .inl rfl, hkept, trivial⟩

theorem keptElements_of_mirrors {elements : List Json}
    (hvalues : ∀ element ∈ elements, Fits element → Mirrors element (made element) → Kept element)
    (hfits : fitsElements elements) (hlength : elements.length = (madeElements elements).length)
    (hall : ∀ pair ∈ elements.zip (madeElements elements), Mirrors pair.1 pair.2) :
    keptElements elements := by
  induction elements with
  | nil => trivial
  | cons element elements ih =>
      obtain ⟨hscannable, hvalue, hrest⟩ := hfits
      rw [madeElements] at hlength hall
      have hkept := hvalues _ List.mem_cons_self hvalue (hall _ List.mem_cons_self)
      cases hwhole : readWhole element with
      | true =>
          rw [if_pos hwhole] at hlength hall
          exact ⟨hscannable, .inr hwhole, hkept,
            ih (fun later hmem => hvalues later (List.mem_cons_of_mem _ hmem)) (hrest hwhole)
              (Nat.succ.inj hlength) fun pair hpair => hall pair (List.mem_cons_of_mem _ hpair)⟩
      | false =>
          rw [hwhole, if_neg (by decide)] at hlength
          obtain rfl : elements = [] := List.eq_nil_of_length_eq_zero (Nat.succ.inj hlength)
          exact ⟨hscannable, .inl rfl, hkept, trivial⟩

theorem kept_of_mirrors {json : Json} (hfits : Fits json) (hmirrors : Mirrors json (made json)) :
    Kept json := by
  induction json using Json.children_induction with
  | object members ih =>
      exact keptMembers_of_mirrors ih hfits
        (eachMirrors_of_mirrors (madeMembers_keys members) hmirrors)
  | array elements ih =>
      rw [made] at hmirrors
      cases hmirrors with
      | array hlength hall => exact keptElements_of_mirrors ih hfits hlength hall
  | string letters => trivial
  | number text isNumber => trivial
  | bool value => trivial
  | null => trivial

theorem mirrorsKept {json : Json} (hdistinct : DistinctNames json) : MirrorsKept json := by
  intro fuel node hnode hmirrors
  obtain ⟨rfl, hfits⟩ := onlyMade hdistinct fuel node hnode
  exact kept_of_mirrors hfits hmirrors

/--
A valid text of an object is read without losing a member or an element exactly
when it has no empty name, when every number with a plus sign is the last of its
object or list, and when the levels of its values fit.
-/
theorem parse_mirrors_iff {members : List (List Letter × Json)} {text : Text}
    (hwritten : (Json.object members).WrittenAs text)
    (hdistinct : DistinctNames (.object members)) :
    (∃ node, parse text = .finished node ∧ Mirrors (.object members) node) ↔
      Kept (.object members) := by
  rw [parse_writtenAs hwritten]
  constructor
  · rintro ⟨node, hnode, hmirrors⟩
    exact mirrorsKept hdistinct _ node hnode hmirrors
  · exact fun hkept => makesMirror hdistinct hkept _ (by omega)

theorem isPlain_a : IsPlain 'a' := by
  decide

theorem isPlain_b : IsPlain 'b' := by
  decide

/-- `\x7b"a":null,"b":[true,null]\x7d` -/
def nestedDocument : List (List Letter × Json) :=
  [([.plain 'a' isPlain_a], .null), ([.plain 'b' isPlain_b], .array [.bool true, .null])]

theorem parse_mirrors_iff_nested :
    (∃ node, parse "\x7b\"a\":null,\"b\":[true,null]\x7d".toList = .finished node ∧
      Mirrors (.object nestedDocument) node) ↔ Kept (.object nestedDocument) := by
  have hwritten : (Json.object nestedDocument).WrittenAs
      "\x7b\"a\":null,\"b\":[true,null]\x7d".toList :=
    .cons blank_nil (.cons blank_nil (.cons blank_nil (.cons blank_nil (.cons blank_nil
      (.cons blank_nil (.cons blank_nil (.cons blank_nil (.cons blank_nil (.cons blank_nil
        (.cons blank_nil (.cons blank_nil (.cons blank_nil (.nil blank_nil)))))))))))))
  refine parse_mirrors_iff hwritten (.object (by simp [nestedDocument]) fun member hmem => ?_)
  simp only [nestedDocument, List.mem_cons, List.not_mem_nil, or_false] at hmem
  rcases hmem with rfl | rfl
  · exact .null
  · refine .array fun element hmem => ?_
    simp only [List.mem_cons, List.not_mem_nil, or_false] at hmem
    rcases hmem with rfl | rfl
    · exact .bool
    · exact .null

/-- `\x7b"":null,"b":null\x7d` -/
def namelessDocument : List (List Letter × Json) :=
  [([], .null), ([.plain 'b' isPlain_b], .null)]

/-- With an empty name, that member and all behind it are lost. -/
theorem empty_name_not_mirrored :
    (Json.object namelessDocument).WrittenAs "\x7b\"\":null,\"b\":null\x7d".toList ∧
      DistinctNames (.object namelessDocument) ∧
      ¬ ∃ node, parse "\x7b\"\":null,\"b\":null\x7d".toList = .finished node ∧
        Mirrors (.object namelessDocument) node := by
  refine ⟨?_, .object (by simp [namelessDocument]) ?_, ?_⟩
  · exact .cons blank_nil (.cons blank_nil (.cons blank_nil (.cons blank_nil (.cons blank_nil
      (.cons blank_nil (.cons blank_nil (.cons blank_nil (.cons blank_nil
        (.nil blank_nil)))))))))
  · intro member hmem
    simp only [namelessDocument, List.mem_cons, List.not_mem_nil, or_false] at hmem
    rcases hmem with rfl | rfl <;> exact .null
  · rintro ⟨node, hparse, hmirrors⟩
    have hempty : parse "\x7b\"\":null,\"b\":null\x7d".toList = .finished (.Object []) := by rfl
    obtain rfl := Outcome.finished.inj (hempty.symm.trans hparse)
    cases hmirrors with
    | object hperm _ => cases hperm.length_eq

end DumaisLib.JSON
