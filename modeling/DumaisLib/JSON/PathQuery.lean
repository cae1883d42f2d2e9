import DumaisLib.JSON.Paths
import Mathlib.Data.List.DropRight

/-!
# Path queries

A query is cut into segments at its slashes.  Each segment is looked up as a
name, or as a name and an index when the pattern for an index occurs in it.
-/

namespace DumaisLib.JSON

open Machine Regex

/-- What `std::stoi` throws. -/
inductive StoiError where
  | invalid_argument
  | out_of_range
  deriving DecidableEq

/-- `std::stoi` of a text of digits. -/
def stoi (str : Text) : Except StoiError Nat :=
  let index := str.foldl Text.addDigit 0
  if str = [] then .error .invalid_argument
  else if index < 2 ^ 31 then .ok index
  else .error .out_of_range

/-- `[^\/]+` -/
def segmentPattern : List (Piece Char) :=
  [.one (· ≠ '/'), .many (· ≠ '/') false]

/-- `(.+)\[([0-9]*)\]`; its first group begins where the match does. -/
def indexPattern : List (Piece Char) :=
  [.one Text.dot, .many Text.dot true, .one (· = '['), .many Char.isDigit true, .one (· = ']')]

/-- One turn of the loop of `JSONPathQuery`, on the segments found and the rest of the query. -/
def objectsTurn (state : List Text × Text) : Option (Turn (List Text × Text) (List Text)) :=
  match searchAt segmentPattern state.2 with
  | some (start, hit) =>
      some (.again (state.1 ++ [start.take (start.length - hit.rest.length)], hit.rest))
  | none => some (.stop state.1)

/-- The segments; each turn but the last one takes at least one character. -/
def objects (query : Text) : List Text :=
  ((loop objectsTurn (query.length + 1) ([], query)).result?).getD []

/-- `none` is the invalid node. -/
def getByKey (node : Option Node) (key : Text) : Option Node :=
  node.bind fun node => node.child? (.key key)

def getByIndex (node : Option Node) (i : Nat) : Option Node :=
  node.bind fun node => node.child? (.index i)

/-- The node that one segment leads to. -/
def nextNode (node : Option Node) (segment : Text) : Except StoiError (Option Node) :=
  match searchAt indexPattern segment with
  | some (start, hit) =>
      let name := start.take ((hit.captures.getD 0 []).length + 1)
      match stoi (hit.captures.getD 1 []) with
      | .ok index => .ok (getByIndex (getByKey node name) index)
      | .error error => .error error
  | none => .ok (getByKey node segment)

def matchNode : List Text → Option Node → Except StoiError (Option Node)
  | [], node => .ok node
  | segment :: query, node =>
      match nextNode node segment with
      | .ok node => matchNode query node
      | .error error => .error error

def JSONPathQuery (json : Option Node) (query : Text) : Except StoiError (Option Node) :=
  matchNode (objects query) json

/-! ## Queries -/

/-- A name, and the digits of an index when there is one. -/
structure Segment where
  name : Text
  index : Option Text
  name_ne_nil : name ≠ []
  name_plain : ∀ char ∈ name, char ≠ '/' ∧ char ≠ '[' ∧ char ≠ ']'
  index_digits : ∀ digits ∈ index, ∀ char ∈ digits, char.isDigit = true

/-- The text of an index. -/
def bracketed (digits : Text) : Text :=
  '[' :: (digits ++ [']'])

def Segment.text (segment : Segment) : Text :=
  segment.name ++ (segment.index.map bracketed).getD []

def queryOf (segments : List Segment) : Text :=
  ['/'].intercalate (segments.map Segment.text)

/-- A lookup by name, which one by index may follow. -/
structure Lookup where
  name : Text
  index : Option Nat
  deriving DecidableEq

def Lookup.path (lookup : Lookup) : Path :=
  .key lookup.name :: (lookup.index.map Index.index).toList

/-- What the segment asks for, if its index is not empty. -/
def Segment.lookup? (segment : Segment) : Option Lookup :=
  match segment.index with
  | none => some ⟨segment.name, none⟩
  | some digits =>
      if digits = [] then none else some ⟨segment.name, some (digits.foldl Text.addDigit 0)⟩

/--
What the pattern makes of the segment: an index counts from behind the last line
end in the name, and not at all when the name ends with one.
-/
def Segment.read (segment : Segment) : Except StoiError Lookup :=
  match segment.index with
  | none => .ok ⟨segment.name, none⟩
  | some digits =>
      if segment.name.rtakeWhile Text.dot = [] then .ok ⟨segment.text, none⟩
      else (stoi digits).map fun index => ⟨segment.name.rtakeWhile Text.dot, some index⟩

/-- The node that the chain of lookups gives; `none` when one of them gives none. -/
def chain : List Segment → Option Node → Option Node
  | [], node => node
  | segment :: segments, node =>
      chain segments (segment.lookup?.bind fun lookup => node.bind (Node.below? lookup.path))

/-! ## Cutting a query -/

/-- The segment at the start of a text, behind slashes. -/
theorem searchAt_segment {slashes text rest : Text} (hslashes : ∀ char ∈ slashes, char = '/')
    (hne : text ≠ []) (htext : ∀ char ∈ text, char ≠ '/') (hrest : ∀ char ∈ rest.head?, char = '/') :
    searchAt segmentPattern (slashes ++ (text ++ rest)) = some (text ++ rest, ⟨[], rest⟩) := by
  have hnone (tail : Text) (htail : tail ≠ []) (hsuffix : tail <:+ slashes) :
      matchHere segmentPattern (tail ++ (text ++ rest)) = none := by
    obtain ⟨char, more, rfl⟩ := List.exists_cons_of_ne_nil htail
    have hchar := hslashes char (hsuffix.subset List.mem_cons_self)
    rw [hchar]
    rfl
  rw [searchAt_append hnone]
  obtain ⟨first, text, rfl⟩ := List.exists_cons_of_ne_nil hne
  obtain ⟨hfirst, hlater⟩ := List.forall_mem_cons.mp htext
  have hdrop : (text ++ rest).dropWhile (· ≠ '/') = rest := by
    rw [List.dropWhile_append_of_pos fun char hchar => by simpa using hlater char hchar]
    cases rest with
    | nil => rfl
    | cons char rest =>
        have hchar : char = '/' := hrest char rfl
        rw [hchar]
        rfl
  have hmany : matchHere [.many (· ≠ '/') false] (text ++ rest) = some ⟨[], rest⟩ := by
    have hmatch := @matchHere_many Char (· ≠ '/') false [] (text ++ rest) ⟨[], rest⟩
      (by rw [hdrop]; rfl)
    exact hmatch
  apply searchAt_of_match
  rw [List.cons_append, segmentPattern, matchHere, if_pos (by simpa using hfirst), hmany]

theorem objectsTurn_segment {slashes text rest : Text} (hslashes : ∀ char ∈ slashes, char = '/')
    (hne : text ≠ []) (htext : ∀ char ∈ text, char ≠ '/') (hrest : ∀ char ∈ rest.head?, char = '/')
    (found : List Text) :
    objectsTurn (found, slashes ++ (text ++ rest)) = some (.again (found ++ [text], rest)) := by
  rw [objectsTurn, searchAt_segment hslashes hne htext hrest]
  simp

/-- The loop finds the texts between the slashes. -/
theorem loop_objects {texts : List Text} (htexts : ∀ text ∈ texts, text ≠ [] ∧ '/' ∉ text)
    {fuel : Nat} (hfuel : texts.length < fuel) (found : List Text) :
    loop objectsTurn fuel (found, texts.flatMap ('/' :: ·)) = .finished (found ++ texts) := by
  induction texts generalizing fuel found with
  | nil =>
      cases fuel with
      | zero => exact absurd hfuel (Nat.not_lt_zero _)
      | succ fuel => rw [List.append_nil]; rfl
  | cons text texts ih =>
      cases fuel with
      | zero => exact absurd hfuel (Nat.not_lt_zero _)
      | succ fuel =>
          obtain ⟨⟨hne, hslash⟩, hrest⟩ := List.forall_mem_cons.mp htexts
          have hturn := @objectsTurn_segment ['/'] text (texts.flatMap ('/' :: ·)) (by simp) hne
            (fun char hchar heq => hslash (heq ▸ hchar)) (by cases texts <;> simp) found
          rw [List.singleton_append] at hturn
          rw [List.flatMap_cons, List.cons_append, loop, hturn]
          have hloop := ih hrest (Nat.lt_of_succ_lt_succ hfuel) (found ++ [text])
          rwa [List.append_assoc, List.singleton_append] at hloop

theorem intercalate_cons (text : Text) (texts : List Text) :
    ['/'].intercalate (text :: texts) = text ++ texts.flatMap ('/' :: ·) := by
  induction texts generalizing text with
  | nil => simp
  | cons next texts ih =>
      rw [List.intercalate_cons_cons, ih, List.flatMap_cons]
      simp

theorem length_le_intercalate {texts : List Text} (htexts : ∀ text ∈ texts, text ≠ []) :
    texts.length ≤ (['/'].intercalate texts).length := by
  have hcount : ∀ texts : List Text, texts.length ≤ (texts.flatMap ('/' :: ·)).length := by
    intro texts
    induction texts with
    | nil => exact Nat.zero_le _
    | cons text texts ih =>
        rw [List.flatMap_cons, List.length_append, List.length_cons, List.length_cons]
        omega
  cases texts with
  | nil => exact Nat.zero_le _
  | cons text texts =>
      have hpos := List.length_pos_iff.mpr (htexts text List.mem_cons_self)
      have hrest := hcount texts
      rw [intercalate_cons, List.length_append, List.length_cons]
      omega

theorem objects_intercalate {texts : List Text} (htexts : ∀ text ∈ texts, text ≠ [] ∧ '/' ∉ text) :
    loop objectsTurn ((['/'].intercalate texts).length + 1) ([], ['/'].intercalate texts) =
      .finished texts := by
  have hlength := length_le_intercalate fun text htext => (htexts text htext).1
  generalize (['/'].intercalate texts).length = length at hlength
  cases texts with
  | nil => rfl
  | cons text texts =>
      obtain ⟨⟨hne, hslash⟩, hrest⟩ := List.forall_mem_cons.mp htexts
      have hturn := @objectsTurn_segment [] text (texts.flatMap ('/' :: ·)) (by simp) hne
        (fun char hchar heq => hslash (heq ▸ hchar)) (by cases texts <;> simp) []
      rw [List.nil_append] at hturn
      rw [intercalate_cons, loop, hturn]
      exact loop_objects hrest hlength [text]

theorem Segment.text_spec (segment : Segment) : segment.text ≠ [] ∧ '/' ∉ segment.text := by
  constructor
  · rw [Segment.text]
    exact List.append_ne_nil_of_left_ne_nil segment.name_ne_nil _
  · intro hmem
    rcases List.mem_append.mp hmem with hname | hindex
    · exact (segment.name_plain _ hname).1 rfl
    · cases hdigits : segment.index with
      | none =>
          rw [hdigits] at hindex
          cases hindex
      | some digits =>
          rw [hdigits] at hindex
          have hmem' : '/' ∈ digits := by simpa [bracketed] using hindex
          exact absurd (segment.index_digits digits hdigits _ hmem') (by decide)

theorem objects_queryOf (segments : List Segment) :
    objects (queryOf segments) = segments.map Segment.text := by
  have htexts : ∀ text ∈ segments.map Segment.text, text ≠ [] ∧ '/' ∉ text := by
    intro text htext
    obtain ⟨segment, _, rfl⟩ := List.mem_map.mp htext
    exact segment.text_spec
  rw [objects, queryOf, objects_intercalate htexts]
  rfl

/-! ## Looking for an index -/

theorem matchHere_bracket_none {items : Text} (hhead : ∀ char ∈ items.head?, char ≠ '[')
    (pieces : List (Piece Char)) : matchHere (.one (· = '[') :: pieces) items = none := by
  cases items with
  | nil => rfl
  | cons char items =>
      have hchar : char ≠ '[' := hhead char rfl
      rw [matchHere, if_neg (by simpa using hchar)]

theorem head_drop_mem {items : Text} {count : Nat} {char : Char}
    (hhead : char ∈ (items.drop count).head?) : char ∈ items :=
  (List.drop_suffix count items).subset (List.mem_of_mem_head? hhead)

/-- A match of the pattern goes on with a bracket behind the first character. -/
theorem matchHere_index_none {items : Text} (hbracket : '[' ∉ items.tail) :
    matchHere indexPattern items = none := by
  cases items with
  | nil => rfl
  | cons first items =>
      rw [indexPattern, matchHere]
      split
      · rw [matchHere]
        apply longestFirst_eq_none
        intro count _
        rw [matchHere_bracket_none]
        · rfl
        · rintro char hhead rfl
          exact hbracket (head_drop_mem hhead)
      · rfl

/-- A match of the pattern does not reach over the end of a line. -/
theorem matchHere_index_line {before rest : Text} {lineEnd : Char} (hbracket : '[' ∉ before)
    (hline : Text.dot lineEnd = false) :
    matchHere indexPattern (before ++ lineEnd :: rest) = none := by
  cases before with
  | nil => rw [List.nil_append, indexPattern, matchHere, if_neg (by rw [hline]; decide)]
  | cons first before =>
      rw [List.cons_append, indexPattern, matchHere]
      split
      · rw [matchHere]
        apply longestFirst_eq_none
        intro count hcount
        have hle : count ≤ before.length := by
          refine hcount.trans ?_
          rw [List.takeWhile_append]
          split
          · rw [List.takeWhile_cons, if_neg (by rw [hline]; decide), List.append_nil]
          · exact (List.takeWhile_prefix _).length_le
        rw [List.drop_append_of_le_length hle, matchHere_bracket_none]
        · rfl
        · rintro char hhead rfl
          cases hdrop : before.drop count with
          | nil =>
              rw [hdrop] at hhead
              obtain rfl := Option.some.inj hhead
              exact absurd hline (by decide)
          | cons next more =>
              rw [hdrop] at hhead
              obtain rfl := Option.some.inj hhead
              exact hbracket (List.mem_cons_of_mem _
                (head_drop_mem (by rw [hdrop]; rfl)))
      · rfl

theorem matchHere_digits {digits : Text} (hdigits : ∀ char ∈ digits, char.isDigit = true) :
    matchHere [.one (· = '['), .many Char.isDigit true, .one (· = ']')] (bracketed digits) =
      some ⟨[digits], []⟩ := by
  have hdrop : (digits ++ [']']).dropWhile Char.isDigit = [']'] := by
    rw [List.dropWhile_append_of_pos hdigits]
    rfl
  have htake : (digits ++ [']']).takeWhile Char.isDigit = digits := by
    rw [List.takeWhile_append_of_pos hdigits]
    exact List.append_nil digits
  have hmany := @matchHere_many Char Char.isDigit true [.one (· = ']')] (digits ++ [']']) ⟨[], []⟩
    (by rw [hdrop]; rfl)
  rw [bracketed, matchHere, if_pos (by decide), hmany, if_pos rfl, htake]

/-- The pattern takes a name on one line and the index behind it. -/
theorem matchHere_index {name digits : Text} (hne : name ≠ [])
    (hdots : ∀ char ∈ name, Text.dot char = true) (hbracket : '[' ∉ name)
    (hdigits : ∀ char ∈ digits, char.isDigit = true) :
    matchHere indexPattern (name ++ bracketed digits) = some ⟨[name.tail, digits], []⟩ := by
  obtain ⟨first, name, rfl⟩ := List.exists_cons_of_ne_nil hne
  obtain ⟨hfirst, hlater⟩ := List.forall_mem_cons.mp hdots
  have hend : '[' ∉ digits ++ [']'] := by
    intro hmem
    rcases List.mem_append.mp hmem with hdigit | hlast
    · exact absurd (hdigits _ hdigit) (by decide)
    · exact absurd (List.mem_singleton.mp hlast) (by decide)
  rw [List.cons_append, indexPattern, matchHere, if_pos hfirst, matchHere]
  refine @longestFirst_eq_of_most _ _ name.length _ _ ?_ ?_ ?_
  · rw [List.drop_left, List.take_left, matchHere_digits hdigits]
    rfl
  · rw [List.takeWhile_append_of_pos hlater, List.length_append]
    exact Nat.le_add_right _ _
  · intro more hlt _
    obtain ⟨behind, rfl⟩ := Nat.exists_eq_add_of_lt hlt
    have hdrop : (name ++ bracketed digits).drop (name.length + behind + 1) =
        (digits ++ [']']).drop behind := by
      rw [Nat.add_assoc, List.drop_append]
      simp [bracketed]
    rw [hdrop, matchHere_bracket_none]
    · rfl
    · rintro char hhead rfl
      exact hend (head_drop_mem hhead)

/-! ## The lookups of a segment -/

section Read

variable {segment : Segment} {digits : Text}

theorem read_name (hindex : segment.index = none) :
    segment.read = .ok ⟨segment.name, none⟩ := by
  rw [Segment.read, hindex]

/-- Behind a line end an index is part of the name. -/
theorem read_text (hindex : segment.index = some digits)
    (hline : segment.name.rtakeWhile Text.dot = []) :
    segment.read = .ok ⟨segment.text, none⟩ := by
  rw [Segment.read, hindex]
  exact if_pos hline

theorem read_index (hindex : segment.index = some digits)
    (hline : segment.name.rtakeWhile Text.dot ≠ []) :
    segment.read =
      (stoi digits).map fun index => ⟨segment.name.rtakeWhile Text.dot, some index⟩ := by
  rw [Segment.read, hindex]
  exact if_neg hline

end Read

theorem below_key (node : Option Node) (name : Text) :
    node.bind (Node.below? (Lookup.path ⟨name, none⟩)) = getByKey node name := by
  cases node with
  | none => rfl
  | some node =>
      change node.below? [.key name] = node.child? (.key name)
      rw [below_cons]
      exact Option.bind_fun_some _

theorem below_index (node : Option Node) (name : Text) (i : Nat) :
    node.bind (Node.below? (Lookup.path ⟨name, some i⟩)) = getByIndex (getByKey node name) i := by
  cases node with
  | none => rfl
  | some node =>
      change node.below? [.key name, .index i] = _
      rw [below_cons]
      change (node.child? (.key name)).bind (Node.below? [.index i]) =
        getByIndex (node.child? (.key name)) i
      cases node.child? (.key name) with
      | none => rfl
      | some child =>
          change child.below? [.index i] = child.child? (.index i)
          rw [below_cons]
          exact Option.bind_fun_some _

theorem nextNode_of_none {segment : Text} (hnone : searchAt indexPattern segment = none)
    (node : Option Node) :
    nextNode node segment = .ok (node.bind (Node.below? (Lookup.path ⟨segment, none⟩))) := by
  rw [nextNode, hnone, below_key]

/-- Without a bracket behind its first character, a text is a name. -/
theorem searchAt_index_none {items : Text} (hbracket : '[' ∉ items.tail) :
    searchAt indexPattern items = none := by
  induction items with
  | nil => rfl
  | cons first items ih =>
      rw [searchAt, matchHere_index_none hbracket]
      exact ih fun hmem => hbracket (List.mem_of_mem_tail hmem)

/-- No match begins before the last line end. -/
theorem searchAt_index_line {before items : Text} (hbracket : '[' ∉ before)
    (hline : ∀ char ∈ before.getLast?, Text.dot char = false) :
    searchAt indexPattern (before ++ items) = searchAt indexPattern items := by
  apply searchAt_append
  intro tail hne hsuffix
  obtain ⟨front, last, rfl⟩ := (List.eq_nil_or_concat' tail).resolve_left hne
  obtain ⟨start, hstart⟩ := hsuffix
  have hlast : Text.dot last = false := by
    apply hline
    rw [← hstart, ← List.append_assoc, List.getLast?_concat]
    rfl
  rw [List.append_assoc, List.singleton_append]
  apply matchHere_index_line ?_ hlast
  intro hmem
  apply hbracket
  rw [← hstart]
  exact List.mem_append_right _ (List.mem_append_left _ hmem)

theorem getLast_rdropWhile {test : Char → Bool} {text : Text} :
    ∀ char ∈ (text.rdropWhile test).getLast?, test char = false := by
  intro char hchar
  have hne : text.rdropWhile test ≠ [] := by
    intro hnil
    rw [hnil] at hchar
    cases hchar
  rw [List.getLast?_eq_some_getLast hne] at hchar
  obtain rfl := Option.some.inj hchar
  exact Bool.eq_false_iff.mpr (List.rdropWhile_last_not test text hne)

theorem nextNode_text (segment : Segment) (node : Option Node) :
    nextNode node segment.text =
      segment.read.map fun lookup => node.bind (Node.below? lookup.path) := by
  have hname : '[' ∉ segment.name := fun hmem => (segment.name_plain _ hmem).2.1 rfl
  cases hindex : segment.index with
  | none =>
      have htext : segment.text = segment.name := by
        rw [Segment.text, hindex]
        exact List.append_nil _
      rw [htext, read_name hindex, nextNode_of_none (searchAt_index_none fun hmem =>
        hname (List.mem_of_mem_tail hmem))]
      rfl
  | some digits =>
      have hdigits := segment.index_digits digits hindex
      have htext : segment.text = segment.name.rdropWhile Text.dot ++
          (segment.name.rtakeWhile Text.dot ++ bracketed digits) := by
        rw [Segment.text, hindex, ← List.append_assoc, List.rdropWhile_append_rtakeWhile]
        rfl
      have hbefore : '[' ∉ segment.name.rdropWhile Text.dot :=
        fun hmem => hname ((List.rdropWhile_prefix _ _).subset hmem)
      have hsearch : searchAt indexPattern segment.text =
          searchAt indexPattern (segment.name.rtakeWhile Text.dot ++ bracketed digits) := by
        rw [htext]
        exact searchAt_index_line hbefore getLast_rdropWhile
      by_cases hline : segment.name.rtakeWhile Text.dot = []
      · have hnone : searchAt indexPattern segment.text = none := by
          rw [hsearch, hline, List.nil_append]
          apply searchAt_index_none
          rw [bracketed, List.tail_cons]
          intro hmem
          rcases List.mem_append.mp hmem with hdigit | hlast
          · exact absurd (hdigits _ hdigit) (by decide)
          · exact absurd (List.mem_singleton.mp hlast) (by decide)
        rw [read_text hindex hline, nextNode_of_none hnone]
        rfl
      · have hmatch := matchHere_index hline (fun char hchar => List.mem_rtakeWhile_imp hchar)
          (fun hmem => hname ((List.rtakeWhile_suffix _ _).subset hmem)) hdigits
        obtain ⟨first, line, hfirst⟩ := List.exists_cons_of_ne_nil hline
        rw [nextNode, hsearch, searchAt_of_match hmatch, read_index hindex hline]
        have hlength : (segment.name.rtakeWhile Text.dot).tail.length + 1 =
            (segment.name.rtakeWhile Text.dot).length := by
          rw [hfirst]
          rfl
        simp only [List.getD_cons_zero, List.getD_cons_succ, hlength, List.take_left]
        cases stoi digits with
        | ok index =>
            change _ = Except.ok (node.bind (Node.below? (Lookup.path _)))
            rw [below_index]
        | error error => rfl

end DumaisLib.JSON
