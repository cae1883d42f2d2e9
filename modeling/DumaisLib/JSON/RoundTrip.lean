import DumaisLib.JSON.Compact

/-!
# Printing and parsing a document

The scanner finds every node at the start of its compact text, and the parser
builds it again.
-/

namespace DumaisLib.JSON

open Machine DumaisLib.JSON.Parser

/-! ## The property of a compact text -/

/-- What the scanner finds at the start of the compact text of a tree. -/
def Node.property : Node → JSONProperty
  | .Object mMembers =>
      ⟨(Node.Object mMembers).compact, .Illegal, .JSON_Object,
        (Node.Object mMembers).compact.length⟩
  | .List mMembers =>
      ⟨(Node.List mMembers).compact, .Illegal, .JSON_List, (Node.List mMembers).compact.length⟩
  | .Value mValue mSubType =>
      ⟨keptText mValue mSubType, restoredType mValue mSubType, .JSON_Value,
        (Value.stringify mValue mSubType).length⟩

theorem getValue_quoted {text : Text} (hquotable : Quotable false text) (rest : Text) :
    getValue (quoted text ++ rest) = some ⟨text, .String, .JSON_Value, text.length + 2⟩ := by
  have hparse := parseString_quoted hquotable rest
  rw [quoted, List.cons_append] at hparse ⊢
  rw [getValue, if_neg (by decide), if_neg (by decide), if_pos rfl, hparse]

theorem takeWhile_naked {text rest : Text} (hnaked : parseNakedValue text = text)
    (hrest : ∀ char ∈ rest.head?, isNaked char = false) :
    parseNakedValue (text ++ rest) = text := by
  have hstop : rest.takeWhile isNaked = [] := by
    cases rest with
    | nil => rfl
    | cons char rest => rw [List.takeWhile_cons, hrest char rfl]; rfl
  rw [parseNakedValue, List.takeWhile_append_of_pos (naked_of_parse hnaked), hstop,
    List.append_nil]

theorem getValue_naked {text rest : Text} {nrv : ValueSubType}
    (hnaked : parseNakedValue text = text) (hvalid : validateNakedValue text = nrv)
    (hlegal : nrv ≠ .Illegal) (hrest : ∀ char ∈ rest.head?, isNaked char = false) :
    getValue (text ++ rest) = some ⟨text, nrv, .JSON_Value, text.length⟩ := by
  have hparse := takeWhile_naked hnaked hrest
  cases text with
  | nil => exact absurd rfl (ne_nil_of_validate hvalid hlegal)
  | cons char text =>
      have hchar := naked_of_parse hnaked char List.mem_cons_self
      rw [List.cons_append] at hparse ⊢
      rw [getValue, if_neg (naked_ne hchar rfl), if_neg (naked_ne hchar rfl),
        if_neg (naked_ne hchar rfl), if_pos hchar, hparse]
      dsimp only
      rw [hvalid]
      cases nrv with
      | Illegal => exact absurd rfl hlegal
      | _ => rfl

theorem getValue_value {mValue rest : Text} {mSubType : ValueSubType}
    (hvalue : PrintableValue mValue mSubType)
    (hrest : ∀ char ∈ rest.head?, isNaked char = false) :
    getValue ((Node.Value mValue mSubType).compact ++ rest) =
      some (Node.Value mValue mSubType).property := by
  rw [Node.compact, Node.property]
  rcases printed_cases hvalue with ⟨hnul, hprinted, hkept, htype⟩ |
    ⟨hnaked, hprinted, hkept, hvalid, hcases⟩
  · rw [hprinted, hkept, htype, length_quoted]
    exact getValue_quoted (quotable_escapeString hnul) rest
  · rw [hprinted, hkept]
    exact getValue_naked hnaked hvalid (legal_of_cases hcases) hrest

theorem enclosed_found (opening closing : Char) (type : JSONType) (text rest : Text) :
    enclosed (opening :: (text ++ [closing]) ++ rest) type (.found (text.length + 2)) =
      some ⟨opening :: (text ++ [closing]), .Illegal, type,
        (opening :: (text ++ [closing])).length⟩ := by
  have hlength : (opening :: (text ++ [closing])).length = text.length + 2 := by simp
  rw [enclosed, ← hlength, List.take_left]

theorem getValue_object {height : Nat} {text : Text} (hpasses : Passes '\x7b' '\x7d' height text)
    (hlt : height + 1 < 2 ^ 31) (rest : Text) :
    getValue ('\x7b' :: (text ++ ['\x7d']) ++ rest) =
      some ⟨'\x7b' :: (text ++ ['\x7d']), .Illegal, .JSON_Object,
        ('\x7b' :: (text ++ ['\x7d'])).length⟩ := by
  have hvalue := enclosed_found '\x7b' '\x7d' .JSON_Object text rest
  rw [← findClosing_enclosed curly_brackets hpasses hlt rest] at hvalue
  rw [List.cons_append] at hvalue ⊢
  rwa [getValue, if_pos rfl]

theorem getValue_list {height : Nat} {text : Text} (hpasses : Passes '[' ']' height text)
    (hlt : height + 1 < 2 ^ 31) (rest : Text) :
    getValue ('[' :: (text ++ [']']) ++ rest) =
      some ⟨'[' :: (text ++ [']']), .Illegal, .JSON_List, ('[' :: (text ++ [']'])).length⟩ := by
  have hvalue := enclosed_found '[' ']' .JSON_List text rest
  rw [← findClosing_enclosed square_brackets hpasses hlt rest] at hvalue
  rw [List.cons_append] at hvalue ⊢
  rwa [getValue, if_neg (by decide), if_pos rfl]

/-- At the start of its compact text the scanner finds the whole tree. -/
theorem getValue_compact {node : Node} (hprintable : node.Printable) (hdepth : node.depth < 2 ^ 31)
    {rest : Text} (hrest : ∀ char ∈ rest.head?, isNaked char = false) :
    getValue (node.compact ++ rest) = some node.property := by
  cases hprintable with
  | object hnodup hkeys hchildren =>
      exact getValue_object (passes_members (Or.inl ⟨rfl, rfl⟩)
        (fun member hmember => (hkeys member hmember).2)
        fun member hmember => passes_compact (Or.inl ⟨rfl, rfl⟩) (hchildren member hmember))
        hdepth rest
  | list hchildren =>
      exact getValue_list (passes_elements (Or.inr ⟨rfl, rfl⟩)
        fun child hchild => passes_compact (Or.inr ⟨rfl, rfl⟩) (hchildren child hchild))
        hdepth rest
  | value hvalue => exact getValue_value hvalue hrest

/-! ## Parsing the compact text -/

/-- A constructor keeps the text that was printed. -/
theorem textOf_kept {mValue : Text} {mSubType : ValueSubType}
    (hvalue : PrintableValue mValue mSubType) :
    Value.textOf (keptText mValue mSubType) (restoredType mValue mSubType) = mValue := by
  rcases printed_cases hvalue with ⟨_, _, hkept, htype⟩ | ⟨hnaked, _, hkept, _, hcases⟩
  · rw [hkept, htype]
    exact unEscapeString_escapeString mValue
  · rw [hkept, Value.textOf]
    split
    · rename_i hbool
      rcases hcases with ⟨_, hlower⟩ | hnumeric
      · exact hlower
      · rw [hbool] at hnumeric
        cases hnumeric
    · exact unEscapeString_of_not_mem fun hmem =>
        naked_ne (naked_of_parse hnaked _ hmem) rfl rfl

theorem charAt_append (text rest : Text) (char : Char) :
    charAt (text ++ char :: rest) text.length = some char := by
  rw [charAt, if_pos (by simp), List.getElem?_append_right le_rfl, Nat.sub_self]
  rfl

/-- The loop goes on behind a comma. -/
theorem behind_append (text more : Text) :
    behind (text ++ more) text.length =
      some (if more.head? = some ',' then .next more.tail else .stop) := by
  cases more with
  | nil =>
      rw [List.append_nil, behind, charAt, if_neg (Nat.lt_irrefl _), if_pos rfl]
      rfl
  | cons char more =>
      have hdrop : (text ++ char :: more).drop (text.length + 1) = more := by
        rw [← List.drop_drop, List.drop_left, List.drop_one, List.tail_cons]
      rw [behind, charAt_append, Option.map_some, hdrop]
      by_cases hcomma : char = ','
      · simp [hcomma]
      · simp [hcomma]

/-- The pair at the start of a text is a name and what is found behind the colon. -/
theorem getPair_name {key name : Text} (hlength : name.length = key.length + 2) (hne : key ≠ [])
    {rest : Text} (hkey : parseString (name ++ ':' :: rest) = key) :
    getPair (name ++ ':' :: rest) =
      (getValue (Text.cstr rest)).map fun val => ⟨key, val, key.length + 3 + val.size⟩ := by
  have hcolon := charAt_append name rest ':'
  have hdrop : (name ++ ':' :: rest).drop (key.length + 3) = rest := by
    rw [show key.length + 3 = name.length + 1 by rw [hlength], ← List.drop_drop,
      List.drop_left, List.drop_one, List.tail_cons]
  rw [hlength] at hcolon
  rw [getPair, hkey, if_neg hne, hcolon]
  dsimp only
  rw [if_neg (not_not.mpr rfl), hdrop]
  cases getValue (Text.cstr rest) <;> rfl

/-- One turn over a member that is found. -/
theorem parseMembers_turn {before more : Text} {p : Pair}
    (hpair : getPair (before ++ more) = some p) (hvalid : p.val.type ≠ .JSON_Invalid)
    (hsize : p.size = before.length) (fuel : Nat) (done : List (Text × Node)) :
    parseMembers (fuel + 1) done (before ++ more) =
      (newNode fuel p.val).bind fun node =>
        if more.head? = some ',' then parseMembers fuel (assign p.key node done) more.tail
        else .finished (.Object (assign p.key node done)) := by
  have hne : before ++ more ≠ [] := by
    intro hnil
    rw [hnil] at hpair
    obtain rfl := Option.some.inj hpair
    exact hvalid rfl
  rw [parseMembers, if_neg hne, hpair]
  dsimp only
  rw [if_neg hvalid, hsize, behind_append]
  cases newNode fuel p.val with
  | outOfFuel => rfl
  | fault => rfl
  | finished node =>
      by_cases hcomma : more.head? = some ','
      · simp only [if_pos hcomma, Outcome.bind]
      · simp only [if_neg hcomma, Outcome.bind]

/-- One turn over an element that is found. -/
theorem parseElements_turn {before more : Text} {p : JSONProperty}
    (hvalue : getValue (before ++ more) = some p) (hvalid : p.type ≠ .JSON_Invalid)
    (hsize : p.size = before.length) (fuel : Nat) (done : List Node) :
    parseElements (fuel + 1) done (before ++ more) =
      (newNode fuel p).bind fun node =>
        if more.head? = some ',' then parseElements fuel (done ++ [node]) more.tail
        else .finished (.List (done ++ [node])) := by
  have hne : before ++ more ≠ [] := by
    intro hnil
    rw [hnil] at hvalue
    obtain rfl := Option.some.inj hvalue
    exact hvalid rfl
  rw [parseElements, if_neg hne, hvalue]
  dsimp only
  rw [if_neg hvalid, hsize, behind_append]
  cases newNode fuel p with
  | outOfFuel => rfl
  | fault => rfl
  | finished node =>
      by_cases hcomma : more.head? = some ','
      · simp only [if_pos hcomma, Outcome.bind]
      · simp only [if_neg hcomma, Outcome.bind]

theorem separator_not_naked {closing : Char} (hclosing : isNaked closing = false) {rest : Text}
    {last : Bool} (hlast : last = true → rest = []) :
    ∀ char ∈ ((if last then [] else [',']) ++ (rest ++ [closing])).head?,
      isNaked char = false := by
  intro char hchar
  cases last with
  | false =>
      obtain rfl := Option.some.inj hchar
      decide
  | true =>
      rw [hlast rfl] at hchar
      obtain rfl := Option.some.inj hchar
      exact hclosing

theorem property_size (node : Node) : node.property.size = node.compact.length := by
  cases node <;> rfl

theorem property_valid (node : Node) : node.property.type ≠ .JSON_Invalid := by
  cases node <;> rintro ⟨⟩

theorem assign_fresh {key : Text} {mMembers : List (Text × Node)}
    (hfresh : key ∉ mMembers.map Prod.fst) (node : Node) :
    assign key node mMembers = mMembers ++ [(key, node)] := by
  induction mMembers with
  | nil => rfl
  | cons member members ih =>
      obtain ⟨hfirst, hrest⟩ := not_or.mp (List.mem_cons.not.mp hfresh)
      rw [assign, if_neg (Ne.symm hfirst), ih hrest, List.cons_append]

/-- The pair at the start of the compact text of a member. -/
theorem getPair_compact {key : Text} {child : Node} {rest : Text} (hne : key ≠ [])
    (hquotable : Quotable false key) (hprintable : child.Printable)
    (hdepth : child.depth < 2 ^ 31) (hnul : '\x00' ∉ rest)
    (hrest : ∀ char ∈ rest.head?, isNaked char = false) :
    getPair ((quoted key ++ ':' :: child.compact) ++ rest) =
      some ⟨key, child.property, (quoted key ++ ':' :: child.compact).length⟩ := by
  have hlength : (quoted key ++ ':' :: child.compact).length =
      key.length + 3 + child.compact.length := by
    rw [List.length_append, length_quoted, List.length_cons]
    omega
  have hcstr : Text.cstr (child.compact ++ rest) = child.compact ++ rest :=
    Text.cstr_of_not_mem fun hmem =>
      (List.mem_append.mp hmem).elim (nul_not_mem_compact hprintable) hnul
  rw [hlength, List.append_assoc, List.cons_append,
    getPair_name (length_quoted key) hne (parseString_quoted hquotable _), hcstr,
    getValue_compact hprintable hdepth hrest, Option.map_some, property_size]

theorem compact_ne_nil {node : Node} (hprintable : node.Printable) : node.compact ≠ [] := by
  cases hprintable with
  | object => exact List.cons_ne_nil _ _
  | list => exact List.cons_ne_nil _ _
  | value hvalue =>
      rw [Node.compact]
      rcases printed_cases hvalue with ⟨_, hprinted, _⟩ | ⟨_, hprinted, _, hvalid, hcases⟩
      · rw [hprinted]
        exact List.cons_ne_nil _ _
      · rw [hprinted]
        exact ne_nil_of_validate hvalid (legal_of_cases hcases)

/-- A child is parsed back with three calls for each character of its text. -/
def Parses (node : Node) : Prop :=
  ∀ fuel, 3 * node.compact.length ≤ fuel → newNode fuel node.property = .finished node.restored

theorem printable_tail {member : Text × Node} {members : List (Text × Node)}
    (hprintable : (Node.Object (member :: members)).Printable) :
    (Node.Object members).Printable := by
  cases hprintable with
  | object hnodup hkeys hchildren =>
      exact .object (List.nodup_cons.mp hnodup).2
        (fun later hlater => hkeys later (List.mem_cons_of_mem _ hlater))
        fun later hlater => hchildren later (List.mem_cons_of_mem _ hlater)

theorem nul_not_mem_closed {opening closing : Char} {text : Text}
    (hnul : '\x00' ∉ opening :: (text ++ [closing])) : '\x00' ∉ text ++ [closing] :=
  fun hmem => hnul (List.mem_cons_of_mem _ hmem)

/-- What stands behind a child: a separator and the other children, up to the end. -/
theorem nul_not_mem_rest {text : Text} (hnul : '\x00' ∉ text) (last : Bool) :
    '\x00' ∉ (if last then [] else [',']) ++ text := by
  cases last <;> simpa using hnul

/-- The loop over the members of a compact object appends them as they come back. -/
theorem parseMembers_compact {members done : List (Text × Node)}
    (hprintable : (Node.Object members).Printable)
    (hfresh : ∀ member ∈ members, member.1 ∉ done.map Prod.fst)
    (hdepth : depthMembers members < 2 ^ 31) (hparses : ∀ member ∈ members, Parses member.2)
    {fuel : Nat} (hfuel : 3 * (compactMembers members ++ ['\x7d']).length ≤ fuel) :
    parseMembers fuel done (compactMembers members ++ ['\x7d']) =
      .finished (.Object (done ++ restoredMembers members)) := by
  induction members generalizing done fuel with
  | nil =>
      obtain ⟨fuel, rfl⟩ := Nat.exists_eq_add_of_le' (show 1 ≤ fuel from by
        simp [compactMembers] at hfuel
        omega)
      rw [restoredMembers, List.append_nil]
      rfl
  | cons member members ih =>
      obtain ⟨key, child⟩ := member
      have hrest := printable_tail hprintable
      have hchild : Parses child := hparses (key, child) List.mem_cons_self
      have hnew := hfresh (key, child) List.mem_cons_self
      rw [depthMembers, max_lt_iff] at hdepth
      cases hprintable with
      | object hnodup hkeys hchildren =>
          obtain ⟨hne, hquotable⟩ := hkeys (key, child) List.mem_cons_self
          have hprinted := hchildren (key, child) List.mem_cons_self
          obtain ⟨hkey, _⟩ := List.nodup_cons.mp hnodup
          have hnul := nul_not_mem_closed (nul_not_mem_compact hrest)
          have hlast : members.isEmpty = true → compactMembers members = [] := fun hempty => by
            rw [List.isEmpty_iff.mp hempty]
            rfl
          have htext : compactMembers ((key, child) :: members) ++ ['\x7d'] =
              (quoted key ++ ':' :: child.compact) ++
                ((if members.isEmpty then [] else [',']) ++
                  (compactMembers members ++ ['\x7d'])) := by
            simp [compactMembers]
          have hpair := getPair_compact hne hquotable hprinted hdepth.1
            (nul_not_mem_rest hnul members.isEmpty) (separator_not_naked (by decide) hlast)
          rw [htext] at hfuel ⊢
          obtain ⟨fuel, rfl⟩ := Nat.exists_eq_add_of_le' (show 1 ≤ fuel from by
            simp at hfuel
            omega)
          have hnode := hchild fuel (by simp at hfuel; omega)
          rw [parseMembers_turn hpair (property_valid child) rfl, hnode, Outcome.bind,
            assign_fresh hnew]
          cases members with
          | nil => rfl
          | cons next members =>
              change parseMembers fuel (done ++ [(key, child.restored)])
                (compactMembers (next :: members) ++ ['\x7d']) = _
              rw [ih hrest ?_ hdepth.2 (fun later hlater => hparses later
                (List.mem_cons_of_mem _ hlater)) ?_, List.append_assoc]
              · rfl
              · intro later hlater hmem
                rw [List.map_append] at hmem
                rcases List.mem_append.mp hmem with hdone | hsame
                · exact hfresh later (List.mem_cons_of_mem _ hlater) hdone
                · obtain hsame : later.1 = key := by simpa using hsame
                  exact hkey (hsame ▸ List.mem_map.mpr ⟨later, hlater, rfl⟩)
              · simp at hfuel ⊢
                omega

/-- The loop over the elements of a compact list appends them as they come back. -/
theorem parseElements_compact {elements done : List Node}
    (hprintable : (Node.List elements).Printable) (hdepth : depthElements elements < 2 ^ 31)
    (hparses : ∀ child ∈ elements, Parses child) {fuel : Nat}
    (hfuel : 3 * (compactElements elements ++ [']']).length ≤ fuel) :
    parseElements fuel done (compactElements elements ++ [']']) =
      .finished (.List (done ++ restoredElements elements)) := by
  induction elements generalizing done fuel with
  | nil =>
      obtain ⟨fuel, rfl⟩ := Nat.exists_eq_add_of_le' (show 1 ≤ fuel from by
        simp [compactElements] at hfuel
        omega)
      rw [restoredElements, List.append_nil]
      rfl
  | cons child elements ih =>
      have hchild : Parses child := hparses child List.mem_cons_self
      rw [depthElements, max_lt_iff] at hdepth
      cases hprintable with
      | list hchildren =>
          have hprinted := hchildren child List.mem_cons_self
          have hrest : (Node.List elements).Printable :=
            .list fun later hlater => hchildren later (List.mem_cons_of_mem _ hlater)
          have hlast : elements.isEmpty = true → compactElements elements = [] := fun hempty => by
            rw [List.isEmpty_iff.mp hempty]
            rfl
          have htext : compactElements (child :: elements) ++ [']'] = child.compact ++
              ((if elements.isEmpty then [] else [',']) ++
                (compactElements elements ++ [']'])) := by
            simp [compactElements]
          have hvalue := getValue_compact hprinted hdepth.1
            (separator_not_naked (show isNaked ']' = false by decide) hlast)
          have hpos := List.length_pos_iff.mpr (compact_ne_nil hprinted)
          rw [htext] at hfuel ⊢
          obtain ⟨fuel, rfl⟩ := Nat.exists_eq_add_of_le' (show 1 ≤ fuel from by
            simp at hfuel
            omega)
          have hnode := hchild fuel (by simp at hfuel; omega)
          rw [parseElements_turn hvalue (property_valid child) (property_size child), hnode,
            Outcome.bind]
          cases elements with
          | nil => rfl
          | cons next elements =>
              change parseElements fuel (done ++ [child.restored])
                (compactElements (next :: elements) ++ [']']) = _
              rw [ih hrest hdepth.2 (fun later hlater => hparses later
                (List.mem_cons_of_mem _ hlater)) ?_, List.append_assoc]
              · rfl
              · simp at hfuel ⊢
                omega

theorem depth_le_depthMembers {member : Text × Node} {mMembers : List (Text × Node)}
    (hmember : member ∈ mMembers) : member.2.depth ≤ depthMembers mMembers := by
  induction mMembers with
  | nil => cases hmember
  | cons first members ih =>
      rw [depthMembers]
      cases hmember with
      | head => exact le_max_left _ _
      | tail _ hlater => exact le_max_of_le_right (ih hlater)

theorem depth_le_depthElements {child : Node} {mMembers : List Node}
    (hchild : child ∈ mMembers) : child.depth ≤ depthElements mMembers := by
  induction mMembers with
  | nil => cases hchild
  | cons first elements ih =>
      rw [depthElements]
      cases hchild with
      | head => exact le_max_left _ _
      | tail _ hlater => exact le_max_of_le_right (ih hlater)

theorem parseObject_compact {mMembers : List (Text × Node)}
    (hprintable : (Node.Object mMembers).Printable) (hdepth : (Node.Object mMembers).depth < 2 ^ 31)
    (hparses : ∀ member ∈ mMembers, Parses member.2) {fuel : Nat}
    (hfuel : 3 * (Node.Object mMembers).compact.length ≤ fuel + 2) :
    parseObject (fuel + 1) (Node.Object mMembers).compact =
      .finished (Node.Object mMembers).restored := by
  rw [Node.depth] at hdepth
  rw [Node.compact, List.length_cons] at hfuel
  rw [Node.compact, Node.restored, parseObject, if_neg (not_not.mpr rfl)]
  exact parseMembers_compact hprintable (fun _ _ => List.not_mem_nil) (by omega) hparses (by omega)

theorem parseList_compact {mMembers : List Node}
    (hprintable : (Node.List mMembers).Printable) (hdepth : (Node.List mMembers).depth < 2 ^ 31)
    (hparses : ∀ child ∈ mMembers, Parses child) {fuel : Nat}
    (hfuel : 3 * (Node.List mMembers).compact.length ≤ fuel + 2) :
    parseList (fuel + 1) (Node.List mMembers).compact =
      .finished (Node.List mMembers).restored := by
  rw [Node.depth] at hdepth
  rw [Node.compact, List.length_cons] at hfuel
  rw [Node.compact, Node.restored, parseList, if_neg (not_not.mpr rfl)]
  exact parseElements_compact hprintable (by omega) hparses (by omega)

theorem parses {node : Node} (hprintable : node.Printable) (hdepth : node.depth < 2 ^ 31) :
    Parses node := by
  induction node using Node.children_induction with
  | object mMembers ih =>
      cases hprintable with
      | object hnodup hkeys hchildren =>
          intro fuel hfuel
          obtain ⟨fuel, rfl⟩ := Nat.exists_eq_add_of_le' (show 2 ≤ fuel from by
            simp [Node.compact] at hfuel
            omega)
          refine parseObject_compact (.object hnodup hkeys hchildren) hdepth ?_ hfuel
          intro member hmember
          have hle := depth_le_depthMembers hmember
          rw [Node.depth] at hdepth
          exact ih member hmember (hchildren member hmember) (by omega)
  | list mMembers ih =>
      cases hprintable with
      | list hchildren =>
          intro fuel hfuel
          obtain ⟨fuel, rfl⟩ := Nat.exists_eq_add_of_le' (show 2 ≤ fuel from by
            simp [Node.compact] at hfuel
            omega)
          refine parseList_compact (.list hchildren) hdepth ?_ hfuel
          intro child hchild
          have hle := depth_le_depthElements hchild
          rw [Node.depth] at hdepth
          exact ih child hchild (hchildren child hchild) (by omega)
  | value mValue mSubType =>
      intro fuel hfuel
      have hpos := List.length_pos_iff.mpr (compact_ne_nil hprintable)
      obtain ⟨fuel, rfl⟩ := Nat.exists_eq_add_of_le' (show 1 ≤ fuel from by omega)
      cases hprintable with
      | value hvalue =>
          change Outcome.finished (Node.Value (Value.textOf (keptText mValue mSubType)
            (restoredType mValue mSubType)) (restoredType mValue mSubType)) = _
          rw [textOf_kept hvalue]
          rfl

/-! ## The tree that comes back -/

/-- A value of the first type comes back as one of the second. -/
def ComesBackAs : ValueSubType → ValueSubType → Prop
  | .Illegal, type => type = .String
  | .String, type => type = .String
  | .Bool, type => type = .Bool
  | _, type => numeric type = true

/-- The same tree, up to the order of the members and the types of values. -/
inductive Restored : Node → Node → Prop where
  | object {mMembers mMembers'} : (mMembers'.map Prod.fst).Nodup →
      (∀ key, key ∈ mMembers'.map Prod.fst ↔ key ∈ mMembers.map Prod.fst) →
      (∀ key child child', (key, child) ∈ mMembers → (key, child') ∈ mMembers' →
        Restored child child') → Restored (.Object mMembers) (.Object mMembers')
  | list {mMembers mMembers'} : mMembers'.length = mMembers.length →
      (∀ (index : Nat) child child', mMembers[index]? = some child →
        mMembers'[index]? = some child' → Restored child child') →
      Restored (.List mMembers) (.List mMembers')
  | value {mValue type type'} : ComesBackAs type type' →
      Restored (.Value mValue type) (.Value mValue type')

theorem comesBackAs_restoredType {mValue : Text} {mSubType : ValueSubType}
    (hvalue : PrintableValue mValue mSubType) :
    ComesBackAs mSubType (restoredType mValue mSubType) := by
  cases mSubType with
  | Illegal => rfl
  | String => rfl
  | Bool => rfl
  | Double => exact hvalue.2
  | Int => exact hvalue.2
  | UInt => exact hvalue.2

theorem restoredMembers_eq_map (mMembers : List (Text × Node)) :
    restoredMembers mMembers = mMembers.map fun member => (member.1, member.2.restored) := by
  induction mMembers with
  | nil => rfl
  | cons member members ih => rw [restoredMembers, ih, List.map_cons]

theorem restoredElements_eq_map (mMembers : List Node) :
    restoredElements mMembers = mMembers.map Node.restored := by
  induction mMembers with
  | nil => rfl
  | cons child elements ih => rw [restoredElements, ih, List.map_cons]

theorem keys_restoredMembers (mMembers : List (Text × Node)) :
    (restoredMembers mMembers).map Prod.fst = mMembers.map Prod.fst := by
  rw [restoredMembers_eq_map, List.map_map]
  rfl

theorem restored_child {mMembers : List (Text × Node)} (hnodup : (mMembers.map Prod.fst).Nodup)
    {key : Text} {child child' : Node} (hmember : (key, child) ∈ mMembers)
    (hmember' : (key, child') ∈ restoredMembers mMembers) : child' = child.restored := by
  rw [restoredMembers_eq_map] at hmember'
  obtain ⟨member, hother, heq⟩ := List.mem_map.mp hmember'
  obtain ⟨hkey, hchild⟩ := Prod.mk.inj heq
  have hsame := List.inj_on_of_nodup_map hnodup hother hmember hkey
  rw [← hchild, hsame]

theorem restored_restored {node : Node} (hprintable : node.Printable) :
    Restored node node.restored := by
  induction node using Node.children_induction with
  | object mMembers ih =>
      cases hprintable with
      | object hnodup _ hchildren =>
          rw [Node.restored]
          refine .object ?_ ?_ ?_
          · rwa [keys_restoredMembers]
          · intro key
            rw [keys_restoredMembers]
          · intro key child child' hmember hmember'
            rw [restored_child hnodup hmember hmember']
            exact ih (key, child) hmember (hchildren (key, child) hmember)
  | list mMembers ih =>
      cases hprintable with
      | list hchildren =>
          rw [Node.restored, restoredElements_eq_map]
          apply Restored.list (List.length_map _)
          intro index child child' hchild hchild'
          rw [List.getElem?_map, hchild] at hchild'
          obtain rfl := Option.some.inj hchild'
          have hmem := List.mem_of_getElem? hchild
          exact ih child hmem (hchildren child hmem)
  | value mValue mSubType =>
      cases hprintable with
      | value hvalue => exact .value (comesBackAs_restoredType hvalue)

/-- What a printed document is parsed as. -/
theorem parse_printed (formatted : Bool) {mMembers : List (Text × Node)}
    (hprintable : (Node.Object mMembers).Printable)
    (hdepth : (Node.Object mMembers).depth < 2 ^ 31) :
    parse (stringify formatted (.Object mMembers)) = .finished (Node.Object mMembers).restored := by
  have hnode := parses hprintable hdepth
    (3 * (Node.Object mMembers).compact.length + 4) (by omega)
  rw [parse, stringify, removeSpaces_stringify hprintable]
  exact hnode

/--
A printed document is parsed back, in whatever order the tables enumerate the
members, formatted or not.
-/
theorem parse_stringify (formatted : Bool) {mMembers : List (Text × Node)}
    (hprintable : (Node.Object mMembers).Printable)
    (hdepth : (Node.Object mMembers).depth < 2 ^ 31) :
    ∃ parsed, parse (stringify formatted (.Object mMembers)) = .finished parsed ∧
      Restored (.Object mMembers) parsed :=
  ⟨_, parse_printed formatted hprintable hdepth, restored_restored hprintable⟩

/-- An object with a list, whose texts have quotes, braces and a backslash. -/
def exampleMembers : List (Text × Node) :=
  [("a \x7b\\\"".toList, .List [.Value "\x7d]\"\\".toList .String, .Object [],
      .Value "\n".toList .Illegal]),
    ("n".toList, .Value "-1.5".toList .Double), ("b".toList, .Value "true".toList .Bool)]

theorem printable_exampleMembers : (Node.Object exampleMembers).Printable := by
  refine .object (by decide) ?_ ?_
  · simp [exampleMembers, Quotable]
  · intro member hmember
    simp only [exampleMembers, List.mem_cons, List.not_mem_nil, or_false] at hmember
    rcases hmember with rfl | rfl | rfl
    · apply Node.Printable.list
      intro child hchild
      simp only [List.mem_cons, List.not_mem_nil, or_false] at hchild
      rcases hchild with rfl | rfl | rfl
      · exact .value (show '\x00' ∉ _ by decide)
      · exact .object List.nodup_nil (List.forall_mem_nil _) (List.forall_mem_nil _)
      · exact .value (show '\x00' ∉ _ by decide)
    · exact .value ⟨by decide, by decide⟩
    · exact .value (Or.inl rfl)

theorem parse_stringify_example :
    (Node.Object exampleMembers).Printable ∧ (Node.Object exampleMembers).depth < 2 ^ 31 ∧
      ∃ parsed, parse (stringify true (.Object exampleMembers)) = .finished parsed ∧
        Restored (.Object exampleMembers) parsed :=
  ⟨printable_exampleMembers, by decide,
    parse_stringify true printable_exampleMembers (by decide)⟩

end DumaisLib.JSON
