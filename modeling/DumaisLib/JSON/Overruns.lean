import DumaisLib.JSON.CutTexts
import DumaisLib.JSON.Reading

/-!
# Parsing texts of any form

The parser stays in its texts unless it comes to an object or a list whose scan
goes too far.  Which values it comes to shows from the text: those behind complete
members and elements that commas follow.
-/

namespace DumaisLib.JSON

open Machine DumaisLib.JSON.Parser

/-! ## Values -/

/-- The scan for the end of the object or list goes on behind the end of the text. -/
def Overruns (text : Text) : Prop :=
  ∃ opening closing, IsPair opening closing ∧
    (CutOff opening closing text ∨ TooDeep opening closing text)

/-- The text of a value, which need not be a valid one. -/
inductive IsValue : Text → Prop where
  | enclosed {opening closing piece} : IsPair opening closing → Enclosed opening closing piece →
      IsValue piece
  | literal {body piece} : Literal body piece → IsValue piece
  | naked {piece} : piece ≠ [] → (∀ char ∈ piece, isNaked char = true) → IsValue piece

/-- The type of what the character begins. -/
def pairType (opening : Char) : JSONType :=
  if opening = '\x7b' then .JSON_Object else .JSON_List

/-- The property that is made of the text of a value. -/
inductive Found (piece : Text) : JSONProperty → Prop where
  | enclosed {opening closing} : IsPair opening closing → Enclosed opening closing piece →
      Found piece ⟨piece, .Illegal, pairType opening, piece.length⟩
  | value {p} : p.type = .JSON_Value → p.size = piece.length → Found piece p

theorem Found.valid {piece : Text} {p : JSONProperty} (hfound : Found piece p) :
    p.type ≠ .JSON_Invalid ∧ p.size = piece.length := by
  cases hfound with
  | @enclosed opening closing hpair _ =>
      refine ⟨?_, rfl⟩
      rcases hpair with ⟨rfl, _⟩ | ⟨rfl, _⟩
      · rintro ⟨⟩
      · rintro ⟨⟩
  | value htype hsize =>
      rw [htype]
      exact ⟨by rintro ⟨⟩, hsize⟩

theorem brackets_of_pair {opening closing : Char} (hpair : IsPair opening closing) :
    Brackets opening closing := by
  rcases hpair with ⟨rfl, rfl⟩ | ⟨rfl, rfl⟩
  · exact curly_brackets
  · exact square_brackets

theorem getValue_pair {opening closing : Char} (hpair : IsPair opening closing) (text : Text) :
    getValue (opening :: text) =
      enclosed (opening :: text) (pairType opening)
        (findClosing opening closing (opening :: text)) := by
  rcases hpair with ⟨rfl, rfl⟩ | ⟨rfl, rfl⟩
  · rfl
  · rfl

theorem Enclosed.head {opening closing : Char} {piece : Text}
    (henclosed : Enclosed opening closing piece) : ∃ inner, piece = opening :: inner := by
  obtain ⟨before, rfl, hinside⟩ := henclosed
  obtain ⟨inner, rfl⟩ := hinside.head
  exact ⟨_, rfl⟩

theorem getValue_enclosed {opening closing : Char} (hpair : IsPair opening closing) {piece : Text}
    (henclosed : Enclosed opening closing piece) (more : Text) :
    getValue (piece ++ more) = some ⟨piece, .Illegal, pairType opening, piece.length⟩ := by
  have hfind := henclosed.findClosing (brackets_of_pair hpair) more
  obtain ⟨inner, rfl⟩ := henclosed.head
  rw [List.cons_append] at hfind ⊢
  rw [getValue_pair hpair, hfind, Parser.enclosed, ← List.cons_append, List.take_left]

theorem Enclosed.nul_not_mem {opening closing : Char} (hpair : IsPair opening closing)
    {piece : Text} (henclosed : Enclosed opening closing piece) : '\x00' ∉ piece := by
  have hbrackets := brackets_of_pair hpair
  obtain ⟨before, rfl, hinside⟩ := henclosed
  intro hmem
  rcases List.mem_append.mp hmem with hbefore | hclosing
  · exact hinside.nul_not_mem hbrackets hbefore
  · exact hbrackets.closing_ne_nul (List.mem_singleton.mp hclosing).symm

/-- The literal of a C string has lost the NUL that ends it, but not its body. -/
theorem Literal.parseString_cstr {body piece : Text} (hliteral : Literal body piece)
    (more : Text) : Parser.parseString (Text.cstr (piece ++ more)) = body := by
  cases hliteral with
  | closed hbody =>
      have hnul : '\x00' ∉ quoted body := by
        simp [quoted, nul_not_mem_of_quotable hbody]
      rw [Text.cstr_append, if_neg hnul]
      exact parseString_quoted hbody _
  | cut hbody =>
      obtain ⟨hnul, hcount⟩ := unclosed_iff.mp hbody
      have hquote : '\x00' ∉ '"' :: body := by simp [hnul]
      have hcstr : Text.cstr ('"' :: (body ++ ['\x00']) ++ more) = '"' :: body := by
        have hsplit := Text.cstr_append ('"' :: body) ('\x00' :: more)
        rw [if_neg hquote] at hsplit
        simpa [Text.cstr] using hsplit
      have hfind : Parser.findClosingQuote ('"' :: (body ++ [])) = some (body.length + 2) := by
        rw [List.append_nil, Parser.findClosingQuote, if_neg (not_not.mpr rfl), hcount,
          Nat.add_comm 1]
      have hparse := parseString_counted hfind
      rw [hcstr]
      rwa [List.append_nil] at hparse

theorem getValue_literal {body piece : Text} (hliteral : Literal body piece) (more : Text) :
    getValue (Text.cstr (piece ++ more)) =
      some ⟨body, .String, .JSON_Value, body.length + 2⟩ := by
  have hparse := hliteral.parseString_cstr more
  obtain ⟨last, hpiece⟩ := hliteral.split
  have hcstr : Text.cstr (piece ++ more) = '"' :: Text.cstr (body ++ [last] ++ more) := by
    rw [hpiece]
    rfl
  rw [hcstr] at hparse ⊢
  rw [getValue, if_neg (by decide), if_neg (by decide), if_pos rfl, hparse]

theorem head?_cstr {text : Text} (hhead : ∀ char ∈ text.head?, isNaked char = false) :
    ∀ char ∈ (Text.cstr text).head?, isNaked char = false := by
  intro char hchar
  cases text with
  | nil => cases hchar
  | cons next text =>
      refine hhead char ?_
      by_cases hnext : next = '\x00'
      · simp [Text.cstr, hnext] at hchar
      · simpa [Text.cstr, hnext] using hchar

/-- A naked value ends where something else follows. -/
theorem getValue_naked_piece {piece more : Text} (hne : piece ≠ [])
    (hall : ∀ char ∈ piece, isNaked char = true)
    (hmore : ∀ char ∈ more.head?, isNaked char = false) :
    getValue (Text.cstr (piece ++ more)) = some (naked piece) := by
  obtain ⟨char, rest, rfl⟩ := List.exists_cons_of_ne_nil hne
  have hnul : '\x00' ∉ char :: rest := fun hmem => absurd (hall _ hmem) (by decide)
  have hwhole : parseNakedValue (char :: rest) = char :: rest :=
    List.takeWhile_eq_self_iff.mpr hall
  rw [Text.cstr_append, if_neg hnul,
    getValue_nakedText rfl (hall char List.mem_cons_self) (head?_cstr hmore), hwhole]

/-- A value is found at the start of a text. -/
theorem getValue_isValue {piece more : Text} (hvalue : IsValue piece)
    (hmore : ∀ char ∈ more.head?, isNaked char = false) :
    ∃ p, getValue (Text.cstr (piece ++ more)) = some p ∧ Found piece p := by
  cases hvalue with
  | enclosed hpair henclosed =>
      rw [Text.cstr_append, if_neg (henclosed.nul_not_mem hpair)]
      exact ⟨_, getValue_enclosed hpair henclosed _, .enclosed hpair henclosed⟩
  | literal hliteral =>
      exact ⟨_, getValue_literal hliteral more, .value rfl hliteral.length.symm⟩
  | naked hne hall =>
      exact ⟨_, getValue_naked_piece hne hall hmore, .value (naked_type _) (naked_size _)⟩

theorem getValue_overruns {text : Text} (hoverruns : Overruns text) : getValue text = none := by
  obtain ⟨opening, closing, hpair, hscan⟩ := hoverruns
  have hbrackets := brackets_of_pair hpair
  have hfind : findClosing opening closing text = .fault := by
    rcases hscan with hcut | hdeep
    · exact hcut.findClosing hbrackets
    · exact hdeep.findClosing hbrackets
  have hhead : ∃ rest, text = opening :: rest := by
    rcases hscan with ⟨_, before, body, rfl, hinside, _⟩ | ⟨before, rest, rfl, hinside⟩
    · obtain ⟨inner, rfl⟩ := hinside.head
      exact ⟨_, rfl⟩
    · obtain ⟨inner, rfl⟩ := hinside.head
      exact ⟨_, rfl⟩
  obtain ⟨rest, rfl⟩ := hhead
  rw [getValue_pair hpair, hfind]
  rfl

/-- At the start of an object or a list there is its scan, which may go too far. -/
theorem getValue_pair_cases {opening closing : Char} (hpair : IsPair opening closing)
    {rest : Text} (hnul : '\x00' ∉ rest) :
    Overruns (opening :: rest) ∨ getValue (opening :: rest) = some invalid ∨
      ∃ piece more, opening :: rest = piece ++ more ∧ Enclosed opening closing piece := by
  rcases scan_cases .start hnul with hfound | ⟨level, hinside⟩ | hfault
  · exact .inr (.inr hfound)
  · refine .inr (.inl ?_)
    have hfind := hinside.findClosing_end (brackets_of_pair hpair)
    rw [List.singleton_append] at hfind
    rw [getValue_pair hpair, hfind]
    rfl
  · exact .inl ⟨opening, closing, hpair, hfault⟩

theorem getValue_other {char : Char} (hopening : ¬ ∃ closing, IsPair char closing)
    (hquote : char ≠ '"') (hnaked : isNaked char = false) (rest : Text) :
    getValue (char :: rest) = some invalid := by
  have hcurly : char ≠ '\x7b' := fun heq => hopening ⟨_, .inl ⟨heq, rfl⟩⟩
  have hbracket : char ≠ '[' := fun heq => hopening ⟨_, .inr ⟨heq, rfl⟩⟩
  rw [getValue, if_neg hcurly, if_neg hbracket, if_neg hquote, hnaked]
  rfl

theorem naked_split {char : Char} (hnaked : isNaked char = true) (text : Text) :
    ∃ piece more, char :: text = piece ++ more ∧ piece ≠ [] ∧
      (∀ other ∈ piece, isNaked other = true) ∧ ∀ other ∈ more.head?, isNaked other = false := by
  refine ⟨(char :: text).takeWhile isNaked, (char :: text).dropWhile isNaked,
    (List.takeWhile_append_dropWhile).symm, ?_, fun _ hmem => List.mem_takeWhile_imp hmem, ?_⟩
  · rw [List.takeWhile_cons_of_pos hnaked]
    exact List.cons_ne_nil _ _
  · intro other hother
    have hnot := List.head?_dropWhile_not isNaked (char :: text)
    rw [Option.mem_def.mp hother] at hnot
    simpa using hnot

/-- What there is at the start of a text: a scan that goes too far, nothing valid, or a value. -/
theorem getValue_cases {text : Text} (hlexed : Lexed text) :
    Overruns (Text.cstr text) ∨ getValue (Text.cstr text) = some invalid ∨
      ∃ piece more p, text = piece ++ more ∧ IsValue piece ∧
        getValue (Text.cstr text) = some p ∧ Found piece p := by
  cases text with
  | nil => exact .inr (.inl rfl)
  | cons char text =>
      by_cases hnul : char = '\x00'
      · subst hnul
        exact .inr (.inl rfl)
      · have hcstr : Text.cstr (char :: text) = char :: Text.cstr text :=
          List.takeWhile_cons_of_pos (by simpa using hnul)
        by_cases hopening : ∃ closing, IsPair char closing
        · obtain ⟨closing, hpair⟩ := hopening
          have hrest : '\x00' ∉ Text.cstr text := fun hmem => by
            simpa using List.mem_takeWhile_imp hmem
          rw [hcstr]
          rcases getValue_pair_cases hpair hrest with hoverruns | hinvalid | hfound
          · exact .inl hoverruns
          · exact .inr (.inl hinvalid)
          · obtain ⟨piece, more, hsplit, henclosed⟩ := hfound
            refine .inr (.inr ⟨piece, more ++ text.dropWhile (· ≠ '\x00'), _, ?_,
              .enclosed hpair henclosed, ?_, .enclosed hpair henclosed⟩)
            · rw [← List.append_assoc, ← hsplit, List.cons_append, Text.cstr,
                List.takeWhile_append_dropWhile]
            · rw [hsplit]
              exact getValue_enclosed hpair henclosed more
        · by_cases hquote : char = '"'
          · subst hquote
            obtain ⟨body, piece, more, hsplit, hliteral, _⟩ := hlexed.literal_of_quote
            rw [hsplit]
            exact .inr (.inr ⟨piece, more, _, rfl, .literal hliteral,
              getValue_literal hliteral more, .value rfl hliteral.length.symm⟩)
          · cases hnaked : isNaked char with
            | true =>
                obtain ⟨piece, more, hsplit, hne, hall, hmore⟩ := naked_split hnaked text
                rw [hsplit]
                exact .inr (.inr ⟨piece, more, _, rfl, .naked hne hall,
                  getValue_naked_piece hne hall hmore, .value (naked_type _) (naked_size _)⟩)
            | false =>
                rw [hcstr]
                exact .inr (.inl (getValue_other hopening hquote hnaked _))

/-! ## What the parser comes to -/

/-- Where a text stands: at a member, at an element, or at the value of one of them. -/
inductive Place where
  | member
  | element
  | value

/--
The texts that the parser comes to.  It goes on behind a value that a comma
follows, and into every object and list whose end it finds.
-/
inductive Meets (json : Text) : Place → Text → Prop where
  | start {text} : Compacted json ('\x7b' :: text) → Meets json .member text
  | memberValue {key name rest} : Meets json .member (name ++ ':' :: rest) → Literal key name →
      key ≠ [] → Meets json .value (Text.cstr rest)
  | nextMember {key name piece rest} :
      Meets json .member (name ++ ':' :: (piece ++ ',' :: rest)) → Literal key name → key ≠ [] →
      IsValue piece → Meets json .member rest
  | elementValue {text} : Meets json .element text → Meets json .value text
  | nextElement {piece rest} : Meets json .element (piece ++ ',' :: rest) → IsValue piece →
      Meets json .element rest
  | object {inner more} : Meets json .value ('\x7b' :: inner ++ more) →
      Enclosed '\x7b' '\x7d' ('\x7b' :: inner) → Meets json .member inner
  | list {inner more} : Meets json .value ('[' :: inner ++ more) →
      Enclosed '[' ']' ('[' :: inner) → Meets json .element inner

theorem Enclosed.lexed {opening closing : Char} (hpair : IsPair opening closing) {inner : Text}
    (henclosed : Enclosed opening closing (opening :: inner)) : Lexed inner := by
  have hbrackets := brackets_of_pair hpair
  obtain ⟨before, hbefore, hinside⟩ := henclosed
  rw [← lexed_char_iff hbrackets.opening_ne_quote, hbefore, hinside.lexed_append hbrackets]
  exact .char hbrackets.closing_ne_quote .nil

theorem IsValue.lexed_append {piece rest : Text} (hvalue : IsValue piece)
    (hlexed : Lexed (piece ++ rest)) : Lexed rest := by
  cases hvalue with
  | enclosed hpair henclosed =>
      have hbrackets := brackets_of_pair hpair
      obtain ⟨before, rfl, hinside⟩ := henclosed
      rw [List.append_assoc, hinside.lexed_append hbrackets] at hlexed
      exact hlexed.of_char hbrackets.closing_ne_quote
  | literal hliteral => exact hlexed.of_literal hliteral
  | naked _ hall => exact hlexed.of_unquoted fun hmem => absurd (hall _ hmem) (by decide)

/-! ## Turns of the loops -/

theorem getPair_literal {key name : Text} (hliteral : Literal key name) (hne : key ≠ [])
    (rest : Text) :
    getPair (name ++ ':' :: rest) =
      (getValue (Text.cstr rest)).map fun val => ⟨key, val, key.length + 3 + val.size⟩ :=
  getPair_name hliteral.length hne (hliteral.parseString _)

/-- One turn over a member with a value. -/
theorem parseMembers_found {key name piece more : Text} {p : JSONProperty}
    (hliteral : Literal key name) (hne : key ≠ [])
    (hvalue : getValue (Text.cstr (piece ++ more)) = some p) (hfound : Found piece p)
    (fuel : Nat) (done : List (Text × Node)) :
    parseMembers (fuel + 1) done (name ++ ':' :: (piece ++ more)) =
      (newNode fuel p).bind fun node =>
        if more.head? = some ',' then parseMembers fuel (assign key node done) more.tail
        else .finished (.Object (assign key node done)) := by
  obtain ⟨hvalid, hsize⟩ := hfound.valid
  have hpair := getPair_literal hliteral hne (piece ++ more)
  have hsplit : name ++ ':' :: (piece ++ more) = (name ++ ':' :: piece) ++ more := by
    rw [List.append_assoc, List.cons_append]
  have hlength : key.length + 3 + p.size = (name ++ ':' :: piece).length := by
    rw [List.length_append, hliteral.length, List.length_cons, hsize]
    omega
  rw [hvalue, Option.map_some, hsplit] at hpair
  rw [hsplit, parseMembers_turn hpair hvalid hlength]

/-! ## Whole runs -/

theorem nul_not_mem_cstr (text : Text) : '\x00' ∉ Text.cstr text := fun hmem => by
  simpa using List.mem_takeWhile_imp hmem

/-- The literals of the text all end, and only what stands at a member may have a NUL. -/
def Tidy : Place → Text → Prop
  | .member, text => Lexed text
  | .element, text => Lexed text ∧ '\x00' ∉ text
  | .value, text => '\x00' ∉ text

theorem Meets.tidy {json text : Text} {place : Place} (hmeets : Meets json place text) :
    Tidy place text := by
  induction hmeets with
  | start htext => exact htext.lexed.of_char (by decide)
  | memberValue => exact nul_not_mem_cstr _
  | nextMember _ hliteral _ hvalue ih =>
      have hrest : Lexed _ := (Lexed.of_literal hliteral ih).of_char (by decide)
      exact (hvalue.lexed_append hrest).of_char (by decide)
  | elementValue _ ih => exact ih.2
  | nextElement _ hvalue ih =>
      refine ⟨(hvalue.lexed_append ih.1).of_char (by decide), fun hmem => ih.2 ?_⟩
      exact List.mem_append_right _ (List.mem_cons_of_mem _ hmem)
  | object _ henclosed _ => exact henclosed.lexed (.inl ⟨rfl, rfl⟩)
  | list _ henclosed ih =>
      exact ⟨henclosed.lexed (.inr ⟨rfl, rfl⟩), fun hmem =>
        ih (List.mem_append_left _ (List.mem_cons_of_mem _ hmem))⟩

/-- The call for the text has come to an end. -/
def Ran : Place → Text → Prop
  | .member, text => ∃ fuel done node, parseMembers fuel done text = .finished node
  | .element, text => ∃ fuel done node, parseElements fuel done text = .finished node
  | .value, text => ∃ p, getValue text = some p ∧
      (p.type ≠ .JSON_Invalid → ∃ fuel node, newNode fuel p = .finished node)

theorem comma_not_naked (rest : Text) : ∀ char ∈ (',' :: rest).head?, isNaked char = false := by
  intro char hhead
  obtain rfl := Option.some.inj hhead
  rfl

theorem ran_invalid {text : Text} (hvalue : getValue text = some invalid) : Ran .value text :=
  ⟨invalid, hvalue, fun hvalid => absurd rfl hvalid⟩

theorem ran_memberValue {key name rest : Text} (hliteral : Literal key name) (hne : key ≠ [])
    (hlexed : Lexed rest) (hran : Ran .member (name ++ ':' :: rest)) :
    Ran .value (Text.cstr rest) := by
  obtain ⟨fuel, done, node, hparse⟩ := hran
  cases fuel with
  | zero => cases hparse
  | succ fuel =>
      rcases getValue_cases hlexed with hoverruns | hinvalid | hvalue
      · rw [parseMembers, if_neg (by simp), getPair_literal hliteral hne,
          getValue_overruns hoverruns] at hparse
        cases hparse
      · exact ran_invalid hinvalid
      · obtain ⟨piece, more, p, rfl, _, hp, hfound⟩ := hvalue
        rw [parseMembers_found hliteral hne hp hfound] at hparse
        obtain ⟨child, hchild, _⟩ := Outcome.bind_eq_finished.mp hparse
        exact ⟨p, hp, fun _ => ⟨fuel, child, hchild⟩⟩

theorem ran_elementValue {text : Text} (hlexed : Lexed text) (hnul : '\x00' ∉ text)
    (hran : Ran .element text) : Ran .value text := by
  obtain ⟨fuel, done, node, hparse⟩ := hran
  have hcases := getValue_cases hlexed
  rw [Text.cstr_of_not_mem hnul] at hcases
  cases fuel with
  | zero => cases hparse
  | succ fuel =>
      rcases hcases with hoverruns | hinvalid | hvalue
      · have hvalue := getValue_overruns hoverruns
        have hne : text ≠ [] := by
          rintro rfl
          cases hvalue
        rw [parseElements, if_neg hne, hvalue] at hparse
        cases hparse
      · exact ran_invalid hinvalid
      · obtain ⟨piece, more, p, rfl, _, hp, hfound⟩ := hvalue
        rw [parseElements_turn hp hfound.valid.1 hfound.valid.2] at hparse
        obtain ⟨child, hchild, _⟩ := Outcome.bind_eq_finished.mp hparse
        exact ⟨p, hp, fun _ => ⟨fuel, child, hchild⟩⟩

theorem ran_nextMember {key name piece rest : Text} (hliteral : Literal key name) (hne : key ≠ [])
    (hvalue : IsValue piece) (hran : Ran .member (name ++ ':' :: (piece ++ ',' :: rest))) :
    Ran .member rest := by
  obtain ⟨fuel, done, node, hparse⟩ := hran
  obtain ⟨p, hp, hfound⟩ := getValue_isValue hvalue (comma_not_naked rest)
  cases fuel with
  | zero => cases hparse
  | succ fuel =>
      rw [parseMembers_found hliteral hne hp hfound] at hparse
      obtain ⟨child, _, hrest⟩ := Outcome.bind_eq_finished.mp hparse
      exact ⟨fuel, _, node, hrest⟩

theorem ran_nextElement {piece rest : Text} (hvalue : IsValue piece)
    (hnul : '\x00' ∉ piece ++ ',' :: rest) (hran : Ran .element (piece ++ ',' :: rest)) :
    Ran .element rest := by
  obtain ⟨fuel, done, node, hparse⟩ := hran
  obtain ⟨p, hp, hfound⟩ := getValue_isValue hvalue (comma_not_naked rest)
  rw [Text.cstr_of_not_mem hnul] at hp
  cases fuel with
  | zero => cases hparse
  | succ fuel =>
      rw [parseElements_turn hp hfound.valid.1 hfound.valid.2] at hparse
      obtain ⟨child, _, hrest⟩ := Outcome.bind_eq_finished.mp hparse
      exact ⟨fuel, _, node, hrest⟩

/-- A new object or list takes two calls before its loop. -/
theorem newNode_pair_fuel {opening closing : Char} (hpair : IsPair opening closing) {inner : Text}
    {size fuel : Nat} {node : Node}
    (hnode : newNode fuel ⟨opening :: inner, .Illegal, pairType opening, size⟩ = .finished node) :
    ∃ less, fuel = less + 2 := by
  cases fuel with
  | zero => cases hnode
  | succ fuel =>
      cases fuel with
      | zero => rcases hpair with ⟨rfl, _⟩ | ⟨rfl, _⟩ <;> cases hnode
      | succ fuel => exact ⟨fuel, rfl⟩

theorem ran_object {inner more : Text} (henclosed : Enclosed '\x7b' '\x7d' ('\x7b' :: inner))
    (hran : Ran .value ('\x7b' :: inner ++ more)) : Ran .member inner := by
  obtain ⟨p, hp, hnode⟩ := hran
  rw [getValue_enclosed (.inl ⟨rfl, rfl⟩) henclosed] at hp
  obtain rfl := Option.some.inj hp
  obtain ⟨fuel, node, hnode⟩ := hnode (by rintro ⟨⟩)
  obtain ⟨fuel, rfl⟩ := newNode_pair_fuel (.inl ⟨rfl, rfl⟩) hnode
  exact ⟨fuel, [], node, hnode⟩

theorem ran_list {inner more : Text} (henclosed : Enclosed '[' ']' ('[' :: inner))
    (hran : Ran .value ('[' :: inner ++ more)) : Ran .element inner := by
  obtain ⟨p, hp, hnode⟩ := hran
  rw [getValue_enclosed (.inr ⟨rfl, rfl⟩) henclosed] at hp
  obtain rfl := Option.some.inj hp
  obtain ⟨fuel, node, hnode⟩ := hnode (by rintro ⟨⟩)
  obtain ⟨fuel, rfl⟩ := newNode_pair_fuel (.inr ⟨rfl, rfl⟩) hnode
  exact ⟨fuel, [], node, hnode⟩

/-- When the whole run comes to an end, every call that it makes does. -/
theorem Meets.ran {json text : Text} {place : Place} {node : Node}
    (hparse : parse json = .finished node) (hmeets : Meets json place text) : Ran place text := by
  induction hmeets with
  | start htext =>
      rw [parse, htext.removeSpaces] at hparse
      exact ⟨_, [], node, hparse⟩
  | memberValue hmember hliteral hne ih =>
      exact ran_memberValue hliteral hne
        ((Lexed.of_literal hliteral hmember.tidy).of_char (by decide)) ih
  | nextMember _ hliteral hne hvalue ih => exact ran_nextMember hliteral hne hvalue ih
  | elementValue helement ih => exact ran_elementValue helement.tidy.1 helement.tidy.2 ih
  | nextElement helement hvalue ih => exact ran_nextElement hvalue helement.tidy.2 ih
  | object _ henclosed ih => exact ran_object henclosed ih
  | list _ henclosed ih => exact ran_list henclosed ih

/-- What there is at the start of a member: a name and a colon, or nothing valid. -/
theorem getPair_cases {text : Text} (hlexed : Lexed text) :
    (∃ key name rest, text = name ++ ':' :: rest ∧ Literal key name ∧ key ≠ []) ∨
      ∃ p, getPair text = some p ∧ p.val.type = .JSON_Invalid := by
  have hnameless (hkey : parseString text = []) :
      ∃ p, getPair text = some p ∧ p.val.type = .JSON_Invalid := by
    rw [getPair, hkey]
    exact ⟨_, rfl, rfl⟩
  cases text with
  | nil => exact .inr (hnameless rfl)
  | cons char text =>
      by_cases hquote : char = '"'
      · subst hquote
        obtain ⟨key, name, rest, hsplit, hliteral, _⟩ := hlexed.literal_of_quote
        have hkey := hliteral.parseString rest
        rw [hsplit] at hnameless ⊢
        by_cases hne : key = []
        · exact .inr (hnameless (hkey.trans hne))
        · have hcolon (hchar : ∃ char, charAt (name ++ rest) (key.length + 2) = some char ∧
              char ≠ ':') : ∃ p, getPair (name ++ rest) = some p ∧ p.val.type = .JSON_Invalid := by
            obtain ⟨char, hchar, hother⟩ := hchar
            rw [getPair, hkey, if_neg hne, hchar]
            dsimp only
            rw [if_pos hother]
            exact ⟨_, rfl, rfl⟩
          rw [← hliteral.length] at hcolon
          cases rest with
          | nil =>
              refine .inr (hcolon ⟨'\x00', ?_, by decide⟩)
              rw [List.append_nil, charAt, if_neg (Nat.lt_irrefl _), if_pos rfl]
          | cons next rest =>
              by_cases hnext : next = ':'
              · subst hnext
                exact .inl ⟨key, name, rest, rfl, hliteral, hne⟩
              · exact .inr (hcolon ⟨next, charAt_append name rest next, hnext⟩)
      · refine .inr (hnameless ?_)
        rw [parseString, findClosingQuote, if_pos hquote]

/-- With this fuel the calls for members and elements come to an end. -/
structure Finishes (json : Text) (fuel : Nat) : Prop where
  members : ∀ text done, Meets json .member text → 3 * text.length + 1 ≤ fuel →
    ∃ node, parseMembers fuel done text = .finished node
  elements : ∀ text done, Meets json .element text → 3 * text.length + 1 ≤ fuel →
    ∃ node, parseElements fuel done text = .finished node

section Finishes

variable {json : Text} {fuel : Nat}

theorem newNode_finishes (hless : ∀ fewer < fuel, Finishes json fewer) {piece more : Text}
    {p : JSONProperty} (hmeets : Meets json .value (Text.cstr (piece ++ more)))
    (hfound : Found piece p) (hpos : 0 < fuel) (hfuel : 3 * piece.length ≤ fuel) :
    ∃ node, newNode fuel p = .finished node := by
  cases hfound with
  | enclosed hpair henclosed =>
      obtain ⟨inner, rfl⟩ := henclosed.head
      rw [Text.cstr_append, if_neg (henclosed.nul_not_mem hpair)] at hmeets
      rw [List.length_cons] at hfuel
      obtain ⟨fuel, rfl⟩ := Nat.exists_eq_add_of_le' (show 2 ≤ fuel from by omega)
      have hinner := hless fuel (by omega)
      rcases hpair with ⟨rfl, rfl⟩ | ⟨rfl, rfl⟩
      · exact hinner.members inner [] (.object hmeets henclosed) (by omega)
      · exact hinner.elements inner [] (.list hmeets henclosed) (by omega)
  | value htype _ =>
      obtain ⟨fuel, rfl⟩ := Nat.exists_eq_add_of_le' hpos
      exact ⟨_, newNode_value htype fuel⟩

theorem parseMembers_finishes (hsafe : ∀ text, Meets json .value text → ¬ Overruns text)
    (hless : ∀ fewer < fuel + 1, Finishes json fewer) {text : Text}
    (hmeets : Meets json .member text) (hfuel : 3 * text.length ≤ fuel)
    (done : List (Text × Node)) :
    ∃ node, parseMembers (fuel + 1) done text = .finished node := by
  by_cases hne : text = []
  · exact ⟨.Object done, by rw [parseMembers, if_pos hne]⟩
  · have hlexed : Lexed text := hmeets.tidy
    rcases getPair_cases hlexed with ⟨key, name, rest, rfl, hliteral, hkey⟩ | ⟨p, hp, hinvalid⟩
    · have hmeetsValue : Meets json .value (Text.cstr rest) := hmeets.memberValue hliteral hkey
      have hrest : Lexed rest := (hlexed.of_literal hliteral).of_char (by decide)
      rcases getValue_cases hrest with hoverruns | hinvalid | hvalue
      · exact absurd hoverruns (hsafe _ hmeetsValue)
      · refine ⟨.Object done, ?_⟩
        rw [parseMembers, if_neg hne, getPair_literal hliteral hkey, hinvalid]
        rfl
      · obtain ⟨piece, more, p, rfl, hpiece, hp, hfound⟩ := hvalue
        rw [List.length_append, List.length_cons, List.length_append, hliteral.length] at hfuel
        obtain ⟨node, hnode⟩ := newNode_finishes
          (fun fewer (hlt : fewer < fuel) => hless fewer (by omega))
          hmeetsValue hfound (by omega) (by omega)
        rw [parseMembers_found hliteral hkey hp hfound, hnode, Outcome.bind]
        by_cases hcomma : more.head? = some ','
        · obtain ⟨later, rfl⟩ := List.head?_eq_some_iff.mp hcomma
          rw [if_pos hcomma]
          rw [List.length_cons] at hfuel
          exact (hless fuel (Nat.lt_succ_self _)).members later _
            (hmeets.nextMember hliteral hkey hpiece) (by omega)
        · exact ⟨_, if_neg hcomma⟩
    · refine ⟨.Object done, ?_⟩
      rw [parseMembers, if_neg hne, hp]
      dsimp only
      rw [if_pos hinvalid]

theorem parseElements_finishes (hsafe : ∀ text, Meets json .value text → ¬ Overruns text)
    (hless : ∀ fewer < fuel + 1, Finishes json fewer) {text : Text}
    (hmeets : Meets json .element text) (hfuel : 3 * text.length ≤ fuel) (done : List Node) :
    ∃ node, parseElements (fuel + 1) done text = .finished node := by
  by_cases hne : text = []
  · exact ⟨.List done, by rw [parseElements, if_pos hne]⟩
  · obtain ⟨hlexed, hnul⟩ := hmeets.tidy
    have hcases := getValue_cases hlexed
    have hmeetsValue := Meets.elementValue hmeets
    rw [Text.cstr_of_not_mem hnul] at hcases
    rcases hcases with hoverruns | hinvalid | hvalue
    · exact absurd hoverruns (hsafe _ hmeetsValue)
    · refine ⟨.List done, ?_⟩
      rw [parseElements, if_neg hne, hinvalid]
      rfl
    · obtain ⟨piece, more, p, rfl, hpiece, hp, hfound⟩ := hvalue
      have hpos := List.length_pos_iff.mpr hne
      rw [← Text.cstr_of_not_mem hnul] at hmeetsValue
      rw [List.length_append] at hfuel hpos
      obtain ⟨node, hnode⟩ := newNode_finishes
          (fun fewer (hlt : fewer < fuel) => hless fewer (by omega))
        hmeetsValue hfound (by omega) (by omega)
      rw [parseElements_turn hp hfound.valid.1 hfound.valid.2, hnode, Outcome.bind]
      by_cases hcomma : more.head? = some ','
      · obtain ⟨later, rfl⟩ := List.head?_eq_some_iff.mp hcomma
        rw [if_pos hcomma]
        rw [List.length_cons] at hfuel
        exact (hless fuel (Nat.lt_succ_self _)).elements later _
          (hmeets.nextElement hpiece) (by omega)
      · exact ⟨_, if_neg hcomma⟩

theorem finishes (hsafe : ∀ text, Meets json .value text → ¬ Overruns text) (fuel : Nat) :
    Finishes json fuel := by
  induction fuel using Nat.strongRecOn with
  | ind fuel ih =>
      cases fuel with
      | zero =>
          exact ⟨fun _ _ _ hfuel => absurd hfuel (Nat.not_succ_le_zero _),
            fun _ _ _ hfuel => absurd hfuel (Nat.not_succ_le_zero _)⟩
      | succ fuel =>
          exact ⟨fun _ done hmeets hfuel =>
              parseMembers_finishes hsafe ih hmeets (Nat.le_of_succ_le_succ hfuel) done,
            fun _ done hmeets hfuel =>
              parseElements_finishes hsafe ih hmeets (Nat.le_of_succ_le_succ hfuel) done⟩

end Finishes

/-- Where the copy of a literal ends: at the terminating NUL at the latest. -/
theorem findClosingQuote_le {text : Text} {size : Nat}
    (hfind : findClosingQuote text = some size) : size ≤ text.length + 1 := by
  have hcount (nextEscape : Bool) (text : Text) : closingQuoteFrom nextEscape text ≤ text.length := by
    induction text generalizing nextEscape with
    | nil => exact Nat.le_refl _
    | cons char text ih =>
        have hfalse := ih false
        have htrue := ih true
        rw [closingQuoteFrom, List.length_cons]
        split
        · omega
        · split
          · omega
          · split
            · omega
            · split <;> omega
  cases text with
  | nil => cases hfind
  | cons char text =>
      rw [findClosingQuote] at hfind
      split at hfind
      · cases hfind
      · obtain rfl := Option.some.inj hfind
        have hle := hcount false text
        rw [List.length_cons]
        omega

/--
The parser stays in the texts that it scans: the copies of literals end at the
terminating NUL at the latest, and no scan fails.
-/
def StaysInside (json : Text) : Prop :=
  (∀ before text size, json = before ++ text → findClosingQuote text = some size →
      size ≤ text.length + 1) ∧
    ∃ node, parse json = .finished node

/-- It does so exactly when no value that it comes to has a scan that goes too far. -/
theorem staysInside_iff (json : Text) :
    StaysInside json ↔ ∀ text, Meets json .value text → ¬ Overruns text := by
  constructor
  · rintro ⟨_, node, hparse⟩ text hmeets hoverruns
    obtain ⟨p, hp, _⟩ := Meets.ran hparse hmeets
    rw [getValue_overruns hoverruns] at hp
    cases hp
  · intro hsafe
    refine ⟨fun _ _ _ _ hfind => findClosingQuote_le hfind, ?_⟩
    have hcompacted := compacted_removeSpaces json
    rw [parse]
    cases htext : removeSpaces json with
    | nil => exact ⟨_, rfl⟩
    | cons char text =>
        by_cases hcurly : char = '\x7b'
        · subst hcurly
          rw [htext] at hcompacted
          exact (finishes hsafe _).members text [] (.start hcompacted) (by
            rw [List.length_cons]
            omega)
        · exact ⟨_, if_pos hcurly⟩

/-- `\x7b"a":\x7b"b` -/
theorem cut_off_object_not_staysInside :
    ¬ StaysInside "\x7b\"a\":\x7b\"b".toList := by
  rintro ⟨_, node, hparse⟩
  have hfault : parse "\x7b\"a\":\x7b\"b".toList = .fault := by rfl
  rw [hfault] at hparse
  cases hparse

end DumaisLib.JSON
