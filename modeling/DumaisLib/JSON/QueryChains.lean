import DumaisLib.JSON.PathQuery
import Mathlib.Data.List.Forall2

/-!
# Where path queries are answered

A query is answered by the lookups that the patterns read from its segments.  A
document is built in which no other lookups lead to the same node, so the answer
is right in every document only when these are the lookups that were asked for.
-/

namespace DumaisLib.JSON

open Machine

/-! ## Chains of lookups -/

/-- The lookups one after the other. -/
def pathOf (lookups : List Lookup) : Path :=
  lookups.flatMap Lookup.path

theorem below_pathOf_cons (lookup : Lookup) (lookups : List Lookup) (node : Option Node) :
    node.bind (Node.below? (pathOf (lookup :: lookups))) =
      (node.bind (Node.below? lookup.path)).bind (Node.below? (pathOf lookups)) := by
  cases node with
  | none => rfl
  | some node => exact below_append node lookup.path (pathOf lookups)

theorem matchNode_of_read {segments : List Segment} {lookups : List Lookup}
    (hread : List.Forall₂ (fun segment lookup => segment.read = .ok lookup) segments lookups)
    (node : Option Node) :
    matchNode (segments.map Segment.text) node =
      .ok (node.bind (Node.below? (pathOf lookups))) := by
  induction hread generalizing node with
  | nil =>
      cases node with
      | none => rfl
      | some node => rfl
  | @cons segment lookup segments lookups hfirst _ ih =>
      have hnext : nextNode node segment.text = .ok (node.bind (Node.below? lookup.path)) := by
        rw [nextNode_text, hfirst]
        rfl
      rw [List.map_cons, matchNode, hnext, below_pathOf_cons]
      exact ih _

/-- Whether a query throws depends on no document. -/
theorem matchNode_throws_iff (segments : List Segment) (node : Option Node) :
    (∃ error, matchNode (segments.map Segment.text) node = .error error) ↔
      ∃ segment ∈ segments, ∃ error, segment.read = .error error := by
  induction segments generalizing node with
  | nil =>
      constructor
      · rintro ⟨error, hthrows⟩
        cases hthrows
      · rintro ⟨segment, hmem, _⟩
        cases hmem
  | cons segment segments ih =>
      rw [List.exists_mem_cons_iff, List.map_cons, matchNode, nextNode_text]
      cases segment.read with
      | ok lookup =>
          have hrest := ih (node.bind (Node.below? lookup.path))
          constructor
          · exact fun hthrows => Or.inr (hrest.mp hthrows)
          · rintro (⟨error, herror⟩ | hlater)
            · cases herror
            · exact hrest.mpr hlater
      | error error => exact iff_of_true ⟨error, rfl⟩ (Or.inl ⟨error, rfl⟩)

theorem exists_reads {segments : List Segment}
    (hread : ¬ ∃ segment ∈ segments, ∃ error, segment.read = .error error) :
    ∃ lookups, List.Forall₂ (fun segment lookup => segment.read = .ok lookup) segments lookups := by
  induction segments with
  | nil => exact ⟨[], .nil⟩
  | cons segment segments ih =>
      rw [List.exists_mem_cons_iff, not_or] at hread
      obtain ⟨lookups, hlookups⟩ := ih hread.2
      cases hfirst : segment.read with
      | ok lookup => exact ⟨lookup :: lookups, .cons hfirst hlookups⟩
      | error error => exact absurd ⟨error, hfirst⟩ hread.1

theorem chain_of_lookups {segments : List Segment} {lookups : List Lookup}
    (hlookups : List.Forall₂ (fun segment lookup => segment.lookup? = some lookup) segments lookups)
    (node : Option Node) : chain segments node = node.bind (Node.below? (pathOf lookups)) := by
  induction hlookups generalizing node with
  | nil =>
      cases node with
      | none => rfl
      | some node => rfl
  | cons hfirst _ ih =>
      rw [chain, hfirst, below_pathOf_cons]
      exact ih _

theorem chain_none (segments : List Segment) : chain segments none = none := by
  induction segments with
  | nil => rfl
  | cons segment segments ih =>
      rw [chain]
      cases segment.lookup? with
      | none => exact ih
      | some lookup => exact ih

/-- A chain that leads to a node has an index in every pair of brackets. -/
theorem exists_lookups {segments : List Segment} {node : Option Node} {found : Node}
    (hchain : chain segments node = some found) :
    ∃ lookups,
      List.Forall₂ (fun segment lookup => segment.lookup? = some lookup) segments lookups := by
  induction segments generalizing node with
  | nil => exact ⟨[], .nil⟩
  | cons segment segments ih =>
      rw [chain] at hchain
      obtain ⟨lookups, hlookups⟩ := ih hchain
      cases hfirst : segment.lookup? with
      | none =>
          rw [hfirst, Option.bind_none, chain_none] at hchain
          cases hchain
      | some lookup => exact ⟨lookup :: lookups, .cons hfirst hlookups⟩

/-! ## Documents that tell paths apart -/

/-- A document in which the path leads to the node. -/
def documentFor (found : Node) : Path → Node
  | [] => found
  | .key key :: path => .Object [(key, documentFor found path)]
  | .index i :: path => .List (List.replicate i (.Object []) ++ [documentFor found path])

theorem below_documentFor (found : Node) (path : Path) :
    (documentFor found path).below? path = some found := by
  induction path with
  | nil => rfl
  | cons index path ih =>
      rw [below_cons]
      cases index with
      | key key =>
          have hchild : (documentFor found (.key key :: path)).child? (.key key) =
              some (documentFor found path) := List.lookup_cons_self
          rw [hchild]
          exact ih
      | index i =>
          have hchild : (documentFor found (.index i :: path)).child? (.index i) =
              some (documentFor found path) := by
            rw [documentFor, Node.child?, List.getElem?_append_right (by rw [List.length_replicate]),
              List.length_replicate, Nat.sub_self]
            rfl
          rw [hchild]
          exact ih

/-- No path leads from an empty object to a value. -/
theorem below_empty_ne_value (path : Path) (mValue : Text) (mSubType : ValueSubType) :
    (Node.Object []).below? path ≠ some (.Value mValue mSubType) := by
  cases path with
  | nil => exact fun heq => Node.noConfusion (Option.some.inj heq)
  | cons index path =>
      rw [below_cons]
      cases index with
      | key key => rintro ⟨⟩
      | index i => rintro ⟨⟩

/-- No other path leads to the value. -/
theorem path_eq_of_below {mValue : Text} {mSubType : ValueSubType} {path other : Path}
    (hbelow : (documentFor (.Value mValue mSubType) path).below? other =
      some (.Value mValue mSubType)) : other = path := by
  induction path generalizing other with
  | nil =>
      cases other with
      | nil => rfl
      | cons index other =>
          rw [below_cons] at hbelow
          cases hbelow
  | cons index path ih =>
      cases other with
      | nil =>
          have hsame := Option.some.inj hbelow
          cases index with
          | key key => cases hsame
          | index i => cases hsame
      | cons index' other =>
          rw [below_cons] at hbelow
          obtain ⟨child, hchild, hrest⟩ := Option.bind_eq_some_iff.mp hbelow
          cases index with
          | key key =>
              cases index' with
              | index i => cases hchild
              | key key' =>
                  have hlookup := member_of_lookup hchild
                  obtain ⟨rfl, rfl⟩ := Prod.mk.inj (List.mem_singleton.mp hlookup)
                  rw [ih hrest]
          | index i =>
              cases index' with
              | key key => cases hchild
              | index i' =>
                  have hget : (List.replicate i (Node.Object []) ++
                      [documentFor (.Value mValue mSubType) path])[i']? = some child := hchild
                  rcases Nat.lt_trichotomy i' i with hlt | rfl | hgt
                  · rw [List.getElem?_append_left (by rwa [List.length_replicate]),
                      List.getElem?_replicate, if_pos hlt] at hget
                    obtain rfl := Option.some.inj hget
                    exact absurd hrest (below_empty_ne_value other mValue mSubType)
                  · rw [List.getElem?_append_right (by rw [List.length_replicate]),
                      List.length_replicate, Nat.sub_self] at hget
                    obtain rfl := Option.some.inj hget
                    rw [ih hrest]
                  · rw [List.getElem?_eq_none (by simp; omega)] at hget
                    cases hget

/-- A path shows which lookups it is made of. -/
theorem pathOf_inj {lookups lookups' : List Lookup} (hpath : pathOf lookups = pathOf lookups') :
    lookups = lookups' := by
  have hhead (lookups : List Lookup) (i : Nat) (path : Path) :
      pathOf lookups ≠ .index i :: path := by
    cases lookups with
    | nil => rintro ⟨⟩
    | cons lookup lookups => exact fun heq => Index.noConfusion (List.cons.inj heq).1
  induction lookups generalizing lookups' with
  | nil =>
      cases lookups' with
      | nil => rfl
      | cons lookup lookups' => cases hpath
  | cons lookup lookups ih =>
      cases lookups' with
      | nil => cases hpath
      | cons lookup' lookups' =>
          obtain ⟨name, index⟩ := lookup
          obtain ⟨name', index'⟩ := lookup'
          obtain ⟨hname, hrest⟩ := List.cons.inj hpath
          obtain rfl := Index.key.inj hname
          cases index with
          | none =>
              cases index' with
              | none => rw [ih hrest]
              | some i' => exact absurd hrest (hhead lookups i' _)
          | some i =>
              cases index' with
              | none => exact absurd hrest.symm (hhead lookups' i _)
              | some i' =>
                  obtain ⟨hindex, hlater⟩ := List.cons.inj hrest
                  rw [Index.index.inj hindex, ih hlater]

/-! ## Where queries are answered -/

/-- The index can be read, and the name in front of it stands on one line. -/
def Segment.Readable (segment : Segment) : Prop :=
  ∀ digits ∈ segment.index, digits ≠ [] ∧ digits.foldl Text.addDigit 0 < 2 ^ 31 ∧
    '\n' ∉ segment.name ∧ '\r' ∉ segment.name

theorem stoi_eq_ok_iff {str : Text} {index : Nat} :
    stoi str = .ok index ↔
      str ≠ [] ∧ str.foldl Text.addDigit 0 < 2 ^ 31 ∧ str.foldl Text.addDigit 0 = index := by
  rw [stoi]
  by_cases hempty : str = []
  · rw [if_pos hempty]
    exact iff_of_false (by rintro ⟨⟩) fun hall => hall.1 hempty
  · rw [if_neg hempty]
    by_cases hsmall : str.foldl Text.addDigit 0 < 2 ^ 31
    · rw [if_pos hsmall, Except.ok.injEq]
      exact ⟨fun heq => ⟨hempty, hsmall, heq⟩, fun hall => hall.2.2⟩
    · rw [if_neg hsmall]
      exact iff_of_false (by rintro ⟨⟩) fun hall => hsmall hall.2.1

theorem all_dots_iff (text : Text) :
    text.rtakeWhile Text.dot = text ↔ '\n' ∉ text ∧ '\r' ∉ text := by
  rw [List.rtakeWhile_eq_self_iff]
  constructor
  · intro hall
    constructor
    · exact fun hmem => absurd (hall _ hmem) (by decide)
    · exact fun hmem => absurd (hall _ hmem) (by decide)
  · rintro ⟨hnewline, hreturn⟩ char hchar
    have hne : char ≠ '\n' := fun heq => hnewline (heq ▸ hchar)
    have hne' : char ≠ '\r' := fun heq => hreturn (heq ▸ hchar)
    simp [Text.dot, hne, hne']

/-- The readable segments are read as what they ask for. -/
theorem readable_iff (segment : Segment) :
    segment.Readable ↔ ∃ lookup, segment.read = .ok lookup ∧ segment.lookup? = some lookup := by
  cases hindex : segment.index with
  | none =>
      refine iff_of_true ?_ ⟨⟨segment.name, none⟩, ?_, ?_⟩
      · intro digits hdigits
        rw [hindex] at hdigits
        cases hdigits
      · exact read_name hindex
      · rw [Segment.lookup?, hindex]
  | some digits =>
      have hlookup : segment.lookup? = if digits = [] then none
          else some ⟨segment.name, some (digits.foldl Text.addDigit 0)⟩ := by
        rw [Segment.lookup?, hindex]
      rw [Segment.Readable, hindex, hlookup]
      constructor
      · intro hreadable
        obtain ⟨hne, hsmall, hlines⟩ := hreadable digits rfl
        have hline := (all_dots_iff segment.name).mpr hlines
        have hread := read_index hindex (by rw [hline]; exact segment.name_ne_nil)
        refine ⟨⟨segment.name, some (digits.foldl Text.addDigit 0)⟩, ?_, if_neg hne⟩
        rw [hread, hline, stoi_eq_ok_iff.mpr ⟨hne, hsmall, rfl⟩]
        rfl
      · rintro ⟨lookup, hread, hlookup⟩ digits' hdigits'
        obtain rfl := Option.some.inj hdigits'
        split at hlookup
        · cases hlookup
        · rename_i hne
          obtain rfl := Option.some.inj hlookup
          by_cases hline : segment.name.rtakeWhile Text.dot = []
          · rw [read_text hindex hline] at hread
            cases (Lookup.mk.inj (Except.ok.inj hread)).2
          · rw [read_index hindex hline] at hread
            cases hstoi : stoi digits with
            | error error =>
                rw [hstoi] at hread
                cases hread
            | ok index =>
                rw [hstoi] at hread
                have hname := (Lookup.mk.inj (Except.ok.inj hread)).1
                exact ⟨hne, (stoi_eq_ok_iff.mp hstoi).2.1, (all_dots_iff segment.name).mp hname⟩

theorem JSONPathQuery_queryOf (segments : List Segment) (document : Option Node) :
    JSONPathQuery document (queryOf segments) = matchNode (segments.map Segment.text) document := by
  rw [JSONPathQuery, objects_queryOf]

/-- Readable segments lead where their lookups do. -/
theorem JSONPathQuery_of_readable {segments : List Segment}
    (hreadable : ∀ segment ∈ segments, segment.Readable) (document : Option Node) :
    JSONPathQuery document (queryOf segments) = .ok (chain segments document) := by
  have hlookups : ∃ lookups,
      List.Forall₂ (fun segment lookup => segment.read = .ok lookup) segments lookups ∧
        List.Forall₂ (fun segment lookup => segment.lookup? = some lookup) segments lookups := by
    induction segments with
    | nil => exact ⟨[], .nil, .nil⟩
    | cons segment segments ih =>
        obtain ⟨hfirst, hrest⟩ := List.forall_mem_cons.mp hreadable
        obtain ⟨lookup, hread, hlookup⟩ := (readable_iff segment).mp hfirst
        obtain ⟨lookups, hreads, hlookups⟩ := ih hrest
        exact ⟨lookup :: lookups, .cons hread hreads, .cons hlookup hlookups⟩
  obtain ⟨lookups, hreads, hlookups⟩ := hlookups
  rw [JSONPathQuery_queryOf, matchNode_of_read hreads, chain_of_lookups hlookups]

/-- Segments that are answered rightly in every document are readable. -/
theorem readable_of_answered {segments : List Segment}
    (hanswered : ∀ document,
      JSONPathQuery document (queryOf segments) = .ok (chain segments document)) :
    ∀ segment ∈ segments, segment.Readable := by
  have hnever : ¬ ∃ segment ∈ segments, ∃ error, segment.read = .error error := by
    intro hthrows
    obtain ⟨error, herror⟩ := (matchNode_throws_iff segments none).mpr hthrows
    have hnone := hanswered none
    rw [JSONPathQuery_queryOf, herror] at hnone
    cases hnone
  obtain ⟨lookups, hreads⟩ := exists_reads hnever
  have hfound := hanswered (some (documentFor (.Value [] .String) (pathOf lookups)))
  rw [JSONPathQuery_queryOf, matchNode_of_read hreads, Option.bind_some, below_documentFor]
    at hfound
  have hchain := (Except.ok.inj hfound).symm
  obtain ⟨lookups', hlookups⟩ := exists_lookups hchain
  rw [chain_of_lookups hlookups] at hchain
  obtain rfl := pathOf_inj (path_eq_of_below hchain)
  have hboth : List.Forall₂
      (fun segment lookup => segment.Readable ∧ segment.read = .ok lookup) segments lookups' :=
    hlookups.mp (fun segment lookup hlookup hread =>
      ⟨(readable_iff segment).mpr ⟨lookup, hread, hlookup⟩, hread⟩) hreads
  exact ((List.forall₂_and_left _ _).mp hboth).1

/--
A query finds what its chain of lookups gives, in every document, exactly when
each index is a number below `2 ^ 31` behind a name that stands on one line.
-/
theorem JSONPathQuery_iff_readable (segments : List Segment) :
    (∀ document, JSONPathQuery document (queryOf segments) = .ok (chain segments document)) ↔
      ∀ segment ∈ segments, segment.Readable :=
  ⟨readable_of_answered, JSONPathQuery_of_readable⟩

/-- The segment `a[]` -/
def emptyIndex : Segment where
  name := ['a']
  index := some []
  name_ne_nil := List.cons_ne_nil _ _
  name_plain := by simp
  index_digits := by simp

/-- The query `a[]` throws where the invalid node is asked for. -/
theorem JSONPathQuery_empty_index_throws :
    queryOf [emptyIndex] = "a[]".toList ∧
      JSONPathQuery (some (.Object [])) "a[]".toList = .error .invalid_argument ∧
      chain [emptyIndex] (some (.Object [])) = none := by
  exact ⟨rfl, rfl, rfl⟩

/-- A query throws, in every document, exactly when it has an index that cannot be read. -/
theorem JSONPathQuery_throws_iff (segments : List Segment) (document : Option Node) :
    (∃ error, JSONPathQuery document (queryOf segments) = .error error) ↔
      ∃ segment ∈ segments, ∃ digits ∈ segment.index,
        segment.name.rtakeWhile Text.dot ≠ [] ∧
          (digits = [] ∨ 2 ^ 31 ≤ digits.foldl Text.addDigit 0) := by
  rw [JSONPathQuery_queryOf, matchNode_throws_iff]
  refine exists_congr fun segment => and_congr_right fun _ => ?_
  cases hindex : segment.index with
  | none =>
      rw [read_name hindex]
      exact iff_of_false (by rintro ⟨_, ⟨⟩⟩) (by rintro ⟨_, ⟨⟩, _⟩)
  | some digits =>
      have hdigits (holds : Text → Prop) : (∃ other ∈ some digits, holds other) ↔ holds digits := by
        simp
      rw [hdigits]
      by_cases hline : segment.name.rtakeWhile Text.dot = []
      · rw [read_text hindex hline]
        exact iff_of_false (by rintro ⟨_, ⟨⟩⟩) fun hall => hall.1 hline
      · rw [read_index hindex hline]
        cases hstoi : stoi digits with
        | ok index =>
            obtain ⟨hne, hsmall, _⟩ := stoi_eq_ok_iff.mp hstoi
            refine iff_of_false (by rintro ⟨_, ⟨⟩⟩) fun hall => ?_
            rcases hall.2 with hempty | hlarge
            · exact hne hempty
            · omega
        | error error =>
            refine iff_of_true ⟨error, rfl⟩ ⟨hline, ?_⟩
            by_contra hgood
            obtain ⟨hne, hsmall⟩ := not_or.mp hgood
            have hok := stoi_eq_ok_iff.mpr ⟨hne, Nat.lt_of_not_le hsmall, rfl⟩
            rw [hstoi] at hok
            cases hok

end DumaisLib.JSON
