import DumaisLib.JSON.DocumentOperations

/-!
# Programs and values

A program has documents, which share a memory.  To the program a document is a
value: nothing, or a tree.  A copy takes a value, and no operation on a document
changes another one.
-/

namespace DumaisLib.JSON

open Machine Forest Heap

/--
What a program does; a document is named by its place among those that live.  A
move construction, which leaves a document with a null pointer, is not there.
-/
inductive Command where
  | construct
  | copyConstruct (json : Nat) (path : Path)
  | destroy (document : Nat)
  | parse (document : Nat) (json : Text)
  | parseFile (document : Nat) (contents : Option Text)
  | add (document : Nat) (path : Path) (addition : Addition)
  | assignScalar (document : Nat) (path : Path) (val : Scalar)
  | copyAssign (document : Nat) (path : Path) (json : Nat) (source : Path)
  | moveAssign (document : Nat) (json : Nat)

/-! ## Documents in a memory -/

/-- The documents that live, in the order in which they were constructed. -/
structure Program where
  heap : Heap
  documents : List Address

namespace Program

/-- The invalid instance is constructed before the program begins. -/
def start : Program :=
  ⟨⟨[some ⟨some Heap.mInvalid, .pure⟩]⟩, []⟩

/-- What a chain of lookups in a document returns. -/
def locate (program : Program) (document : Nat) (path : Path) : Option Address :=
  program.documents[document]?.bind fun address => program.heap.locate address path

/-- An operation on an instance. -/
def on (program : Program) (reference : Option Address) (operate : Address → Option Heap) :
    Option Program :=
  (reference.bind operate).map fun heap => { program with heap := heap }

/-- Disabled when the behaviour is not defined. -/
def step (program : Program) : Command → Option Program
  | .construct =>
      let (address, heap) := program.heap.new .pure
      some ⟨heap, program.documents ++ [address]⟩
  | .copyConstruct json path =>
      (program.locate json path).bind fun reference =>
        let (address, heap) := program.heap.new .pure
        -- `mRoot` is null when the instance takes its first tree
        ((heap.setRoot address none).bind (·.assign address reference)).map fun heap =>
          ⟨heap, program.documents ++ [address]⟩
  | .destroy document =>
      program.documents[document]?.bind fun address =>
        ((program.heap.deleteRoot address).map (·.free address)).map fun heap =>
          ⟨heap, program.documents.eraseIdx document⟩
  | .parse document json =>
      program.on program.documents[document]? fun address => program.heap.parse address json
  | .parseFile document contents =>
      program.on program.documents[document]? fun address => program.heap.parseFile address contents
  | .add document path addition =>
      program.on (program.locate document path) fun reference =>
        (program.heap.add reference addition).map Prod.snd
  | .assignScalar document path val =>
      program.on (program.locate document path) fun reference =>
        program.heap.assignScalar reference val
  | .copyAssign document path json source =>
      program.on (program.locate document path) fun reference =>
        (program.locate json source).bind (program.heap.copyAssign reference)
  | .moveAssign document json =>
      program.on program.documents[document]? fun address =>
        program.documents[json]?.bind (program.heap.moveAssign address)

end Program

/-! ## Documents as values -/

/-- What each document holds, and the number of nodes that were left without an owner. -/
structure Values where
  contents : List (Option Node)
  leaked : Nat

/-- What a document holds after an addition below a path. -/
def added (path : Path) (addition : Addition) : Option Node → Node
  | none => (Node.Object []).add addition
  | some node => node.mapBelow (Node.add addition) path

namespace Values

def start : Values :=
  ⟨[], 0⟩

/-- The tree below a path in a document, none when there is none. -/
def shown (values : Values) (document : Nat) (path : Path) : Option (Option Node) :=
  values.contents[document]?.map fun held => held.bind (Node.below? path)

def put (values : Values) (document : Nat) (held : Option Node) : Values :=
  { values with contents := values.contents.set document held }

/-- The document holds the tree of the text; what repeated names overwrite is lost. -/
def parse (values : Values) (document : Nat) (json : Text) : Option Values :=
  (JSON.parse json).result?.map fun obj =>
    { values.put document (some obj) with
      leaked := values.leaked + ((overwritten json).map Node.size).sum }

/--
Disabled for texts that the parser does not come through, and for moves between
documents that do not both hold trees.
-/
def step (values : Values) : Command → Option Values
  | .construct => some { values with contents := values.contents ++ [none] }
  | .copyConstruct json path =>
      (values.shown json path).map fun shown =>
        { values with contents := values.contents ++ [shown] }
  | .destroy document =>
      values.contents[document]?.map fun _ =>
        { values with contents := values.contents.eraseIdx document }
  | .parse document json =>
      values.contents[document]?.bind fun _ =>
        values.parse document json
  | .parseFile document contents =>
      values.contents[document]?.bind fun _ =>
        match contents with
        | none => some values
        | some contents =>
            values.parse document (fileText contents)
  | .add document path addition =>
      values.contents[document]?.map fun held =>
        { values.put document (some (added path addition held)) with
          leaked := values.leaked +
            ((held.bind (Node.below? path)).map (Node.leaks addition)).getD 0 }
  | .assignScalar document path val =>
      values.contents[document]?.map fun held =>
        values.put document (held.map (Node.mapBelow (Node.assignScalar val) path))
  | .copyAssign document path json source =>
      values.contents[document]?.bind fun held =>
        (values.shown json source).map fun shown =>
          -- only a document can be assigned, and a tree has no document below it
          if path = [] ∨ held = none then values.put document shown else values
  | .moveAssign document json =>
      values.contents[document]?.bind fun held =>
        values.contents[json]?.bind fun other =>
          if document = json then some values
          else if held.isSome ∧ other.isSome then some ((values.put document other).put json held)
          else none

end Values

/-- The instances of the documents, those that were left without an owner, and no others. -/
def Represents (program : Program) (values : Values) : Prop :=
  ∃ print lost, Holds Shape program.heap.instance? (Heap.mInvalid :: program.documents)
    (.document none :: values.contents.map .document) print ∧
      Owns program.heap.instance? (print + lost) ∧ lost.card = values.leaked

namespace Represents

variable {program : Program} {values : Values} {heap next : Heap} {documents : List Address}
variable {contents : List (Option Node)} {held : Option Node} {document : Nat} {path : Path}
variable {print lost : Multiset Nat}

theorem start : Represents Program.start Values.start := by
  refine ⟨Heap.mInvalid ::ₘ (0 + 0), 0, .cons rfl .empty .nil .nil, ?_, rfl⟩
  let invalid : Instance := ⟨some Heap.mInvalid, .pure⟩
  have hnothing : Owns (fun _ => none : Nat → Option Instance) 0 :=
    ⟨Multiset.nodup_zero, fun _ => by simp⟩
  have howns : Owns (Function.update (fun _ => none) Heap.mInvalid (some invalid))
      (Heap.mInvalid ::ₘ 0) :=
    hnothing.alloc rfl invalid
  rw [add_zero, add_zero]
  convert howns using 1
  funext address
  cases address <;> rfl

/-! ## One document among the others -/

theorem of_leaves {store : Nat → Option Instance} {leaked leaks : Nat}
    (hleaves : Leaves Shape store heap.instance? lost (Heap.mInvalid :: documents)
      (.document none :: contents.map .document) leaks) (hlost : lost.card = leaked) :
    Represents ⟨heap, documents⟩ ⟨contents, leaked + leaks⟩ := by
  obtain ⟨print, gone, hholds, howns, rfl, -⟩ := hleaves
  refine ⟨print, gone + lost, hholds, howns, ?_⟩
  rw [Multiset.card_add, hlost, Nat.add_comm]

theorem invalid_cell (hholds : Holds Shape heap.instance? (Heap.mInvalid :: documents)
    (.document none :: contents.map .document) print) :
    heap.Intact ∧ ∃ beside, print = Heap.mInvalid ::ₘ beside := by
  obtain ⟨own, beside, rfl, hinvalid, -⟩ := hholds.cons_cases
  obtain ⟨hintact, rfl⟩ := cell_of_empty hinvalid
  exact ⟨hintact, beside, by rw [Multiset.cons_add, zero_add]⟩

theorem stored_document (hheld : contents[document]? = some held) :
    (.document none :: contents.map Stored.document)[document + 1]? = some (.document held) := by
  rw [List.getElem?_cons_succ, List.getElem?_map, hheld, Option.map_some]

/-- A document, and what becomes of the program when it is changed or destroyed. -/
structure Among (heap : Heap) (documents : List Address) (values : Values) (document : Nat)
    (held : Option Node) (address : Address) (inner rest : Multiset Nat) : Prop where
  found : documents[document]? = some address
  ne : address ≠ Heap.mInvalid
  intact : heap.Intact
  holds : Holds Shape heap.instance? [address] [.document held] inner
  owns : Owns heap.instance? (inner + rest)
  put : ∀ {next : Heap} {held' leaks},
    Leaves Shape heap.instance? next.instance? rest [address] [.document held'] leaks →
    Represents ⟨next, documents⟩ ⟨values.contents.set document held', values.leaked + leaks⟩
  erase : ∀ {next : Heap}, Leaves Shape heap.instance? next.instance? rest [] [] 0 →
    Represents ⟨next, documents.eraseIdx document⟩
      ⟨values.contents.eraseIdx document, values.leaked⟩

theorem at_document (hrepresents : Represents ⟨heap, documents⟩ values)
    (hheld : values.contents[document]? = some held) :
    ∃ address inner rest, Among heap documents values document held address inner rest := by
  obtain ⟨print, lost, hholds, howns, hlost⟩ := hrepresents
  obtain ⟨hintact, -⟩ := invalid_cell hholds
  obtain ⟨address, inner, outer, haddress, rfl, hinner, houter, hcompletes⟩ :=
    hholds.at (stored_document hheld)
  rw [List.getElem?_cons_succ] at haddress
  rw [List.eraseIdx_cons_succ, List.eraseIdx_cons_succ, List.eraseIdx_map] at houter
  rw [add_assoc] at howns
  refine ⟨address, inner, outer + lost, haddress, ?_, hintact, hinner, howns, ?_, ?_⟩
  · rintro rfl
    obtain ⟨-, beside, rfl⟩ := invalid_cell houter
    obtain ⟨_, _, _, below, -, -, -, rfl⟩ := hinner.single_cases
    have hnodup := howns.nodup
    rw [Multiset.cons_add, Multiset.nodup_cons] at hnodup
    exact hnodup.1 (by simp)
  · intro next held' leaks hleaves
    have hwhole := hleaves.plug (hcompletes address (.document held'))
    rw [List.set_cons_succ, List.set_cons_succ, set_of_getElem? haddress, ← List.map_set] at hwhole
    exact of_leaves hwhole hlost
  · intro next hleaves
    obtain ⟨none', gone, hnone, hcells, hgone, hsame⟩ := hleaves
    cases hnone
    rw [Multiset.card_eq_zero.mp hgone, zero_add, zero_add] at hcells
    exact ⟨outer, lost, houter.frame (agree_add.mp hsame).1, hcells, hlost⟩

/-- The root of a document, and the instances below it. -/
theorem Among.owner {address : Address} {inner rest : Multiset Nat}
    (hamong : Among heap documents values document held address inner rest) :
    ∃ below, Owner heap address below ∧ Owns heap.instance? (below + address ::ₘ rest) := by
  obtain ⟨below, rfl, howner⟩ := owner_of_document hamong.holds hamong.owns
  refine ⟨below, howner, ?_⟩
  rw [Multiset.add_cons, ← Multiset.cons_add]
  exact hamong.owns

/-! ## What lookups show -/

/-- A chain of lookups shows the value below its path, in every later state that keeps the cells. -/
theorem locate_shown
    (hholds : Holds Shape program.heap.instance? (Heap.mInvalid :: program.documents)
      (.document none :: values.contents.map .document) print)
    (howns : Owns program.heap.instance? (print + lost)) {shown : Option Node}
    (hshown : values.shown document path = some shown) :
    ∃ reference, program.locate document path = some reference ∧
      (∀ node, shown = some node → node.DistinctKeys) ∧ ∀ {later : Heap} {others},
        (∀ other ∈ print + lost, later.instance? other = program.heap.instance? other) →
        Owns later.instance? (print + lost + others) → later.contents reference = some shown := by
  obtain ⟨held, hheld, rfl⟩ := Option.map_eq_some_iff.mp hshown
  obtain ⟨hintact, beside, hprint⟩ := invalid_cell hholds
  obtain ⟨address, inner, outer, haddress, hsplit, hinner, -⟩ := hholds.at (stored_document hheld)
  rw [List.getElem?_cons_succ] at haddress
  have hcells := howns
  rw [hsplit, add_assoc] at hcells
  obtain ⟨reference, hreference, hlater⟩ := contents_located hintact hinner hcells path
  refine ⟨reference, by rw [Program.locate, haddress, Option.bind_some, hreference], ?_, ?_⟩
  · intro node hnode
    obtain ⟨whole, rfl, hbelow⟩ := Option.bind_eq_some_iff.mp hnode
    obtain ⟨root, below, -, -, hroot⟩ := root_of_document hinner hcells
    exact (distinctKeys_of_node hroot).of_below hbelow
  · intro later others hsame howns
    obtain ⟨hkept, -⟩ := agree_add.mp hsame
    rw [hsplit, add_assoc, add_assoc] at howns
    refine hlater ?_ (fun other hother => hkept other ?_) howns
    · exact (hkept Heap.mInvalid (hprint ▸ Multiset.mem_cons_self _ _)).trans hintact
    · rw [hsplit]
      exact Multiset.mem_add.mpr (.inl hother)

theorem shown (hrepresents : Represents program values) {shown : Option Node}
    (hshown : values.shown document path = some shown) :
    ∃ reference, program.locate document path = some reference ∧
      program.heap.contents reference = some shown ∧
      ∀ node, shown = some node → node.DistinctKeys := by
  obtain ⟨print, lost, hholds, howns, -⟩ := hrepresents
  obtain ⟨reference, hreference, hdistinct, hlater⟩ := locate_shown hholds howns hshown
  exact ⟨reference, hreference, hlater (fun _ _ => rfl) (by rwa [add_zero]), hdistinct⟩

/-! ## Lifetimes -/

/-- A new document lies behind all others. -/
theorem append (hholds : Holds Shape program.heap.instance? (Heap.mInvalid :: program.documents)
      (.document none :: values.contents.map .document) print)
    (hlost : lost.card = values.leaked) {address : Address}
    (hleaves : Leaves Shape program.heap.instance? next.instance? (print + lost) [address]
      [.document held] 0) :
    Represents ⟨next, program.documents ++ [address]⟩
      { values with contents := values.contents ++ [held] } := by
  have hwhole := hleaves.plug (hholds.completes_append address (.document held))
  rw [List.cons_append, List.cons_append, ← List.map_singleton, ← List.map_append] at hwhole
  exact of_leaves hwhole hlost

theorem construct (hrepresents : Represents program values) {values' : Values}
    (hstep : values.step .construct = some values') :
    ∃ program', program.step .construct = some program' ∧ Represents program' values' := by
  obtain rfl := Option.some.inj hstep
  obtain ⟨print, lost, hholds, howns, hlost⟩ := hrepresents
  exact ⟨_, rfl, append hholds hlost (construct_leaves howns)⟩

theorem copyConstruct (hrepresents : Represents program values) {values' : Values} {json : Nat}
    (hstep : values.step (.copyConstruct json path) = some values') :
    ∃ program', program.step (.copyConstruct json path) = some program' ∧
      Represents program' values' := by
  obtain ⟨shown, hshown, rfl⟩ := Option.map_eq_some_iff.mp hstep
  obtain ⟨print, lost, hholds, howns, hlost⟩ := hrepresents
  obtain ⟨reference, hreference, hdistinct, hlater⟩ := locate_shown hholds howns hshown
  obtain ⟨-, beside, hprint⟩ := invalid_cell hholds
  have hinvalid : Heap.mInvalid ∈ print + lost := by
    rw [hprint, Multiset.cons_add]
    exact Multiset.mem_cons_self _ _
  obtain ⟨next, hnext, hleaves⟩ := copyConstruct_leaves howns hinvalid hlater hdistinct
  refine ⟨⟨next, program.documents ++ [(program.heap.new .pure).1]⟩, ?_,
    append hholds hlost hleaves⟩
  rw [Program.step, hreference]
  exact congrArg (Option.map _) hnext

theorem destroy (hrepresents : Represents program values) {values' : Values}
    (hstep : values.step (.destroy document) = some values') :
    ∃ program', program.step (.destroy document) = some program' ∧ Represents program' values' := by
  obtain ⟨held, hheld, rfl⟩ := Option.map_eq_some_iff.mp hstep
  obtain ⟨address, inner, rest, hamong⟩ := hrepresents.at_document hheld
  obtain ⟨below, howner, howns⟩ := hamong.owner
  obtain ⟨next, hnext, hleaves⟩ := destroy_leaves howner howns
  refine ⟨⟨next, program.documents.eraseIdx document⟩, ?_, hamong.erase hleaves⟩
  rw [Program.step, hamong.found, Option.bind_some, hnext, Option.map_some]

/-! ## Texts -/

theorem parse (hrepresents : Represents program values) {values' : Values} {json : Text}
    (hstep : values.step (.parse document json) = some values') :
    ∃ program', program.step (.parse document json) = some program' ∧
      Represents program' values' := by
  obtain ⟨held, hheld, hparse⟩ := Option.bind_eq_some_iff.mp hstep
  obtain ⟨obj, hobj, rfl⟩ := Option.map_eq_some_iff.mp hparse
  obtain ⟨address, inner, rest, hamong⟩ := hrepresents.at_document hheld
  obtain ⟨below, howner, howns⟩ := hamong.owner
  obtain ⟨next, hnext, hleaves⟩ := parse_leaves hamong.ne howner howns hobj
  refine ⟨⟨next, program.documents⟩, ?_, hamong.put hleaves⟩
  rw [Program.step, Program.on, hamong.found, Option.bind_some, hnext, Option.map_some]

/-- A file is a text; one that cannot be opened changes nothing. -/
theorem parseFile (hrepresents : Represents program values) {values' : Values}
    {text : Option Text} (hstep : values.step (.parseFile document text) = some values') :
    ∃ program', program.step (.parseFile document text) = some program' ∧
      Represents program' values' := by
  obtain ⟨held, hheld, hread⟩ := Option.bind_eq_some_iff.mp hstep
  obtain ⟨address, inner, rest, hamong⟩ := hrepresents.at_document hheld
  cases text with
  | none =>
      obtain rfl := Option.some.inj hread
      refine ⟨program, ?_, hrepresents⟩
      rw [Program.step, Program.on, hamong.found, Option.bind_some, Heap.parseFile,
        if_neg hamong.ne]
      rfl
  | some text =>
      have htext : values.step (.parse document (fileText text)) = some values' := by
        rw [Values.step, hheld, Option.bind_some]
        exact hread
      obtain ⟨program', hprogram, hnext⟩ := hrepresents.parse htext
      refine ⟨program', ?_, hnext⟩
      rw [← hprogram, Program.step, Program.step, Program.on, Program.on, hamong.found,
        Option.bind_some, Option.bind_some, Heap.parseFile, if_neg hamong.ne]

/-! ## Changes -/

theorem Among.locate {address reference : Address} {inner rest : Multiset Nat}
    (hamong : Among program.heap program.documents values document held address inner rest)
    (hreference : program.heap.locate address path = some reference) :
    program.locate document path = some reference := by
  rw [Program.locate, hamong.found, Option.bind_some, hreference]

theorem add (hrepresents : Represents program values) {values' : Values} {addition : Addition}
    (hstep : values.step (.add document path addition) = some values') :
    ∃ program', program.step (.add document path addition) = some program' ∧
      Represents program' values' := by
  obtain ⟨held, hheld, rfl⟩ := Option.map_eq_some_iff.mp hstep
  obtain ⟨address, inner, rest, hamong⟩ := hrepresents.at_document hheld
  have hadded : ∃ reference next, program.heap.locate address path = some reference ∧
      (program.heap.add reference addition).map Prod.snd = some next ∧
      Leaves Shape program.heap.instance? next.instance? rest [address]
        [.document (some (added path addition held))]
        (((held.bind (Node.below? path)).map (Node.leaks addition)).getD 0) := by
    cases held with
    | none =>
        obtain ⟨hcell, -⟩ := cell_of_empty hamong.holds
        obtain ⟨next, hnext, hleaves⟩ := add_empty hamong.ne hamong.holds hamong.owns addition
        exact ⟨address, next, locate_empty hcell path, hnext, hleaves⟩
    | some node => exact add_located hamong.intact hamong.ne hamong.holds hamong.owns addition path
  obtain ⟨reference, next, hreference, hnext, hleaves⟩ := hadded
  refine ⟨⟨next, program.documents⟩, ?_, hamong.put hleaves⟩
  rw [Program.step, Program.on, hamong.locate hreference, Option.bind_some, hnext, Option.map_some]

theorem assignScalar (hrepresents : Represents program values) {values' : Values} {val : Scalar}
    (hstep : values.step (.assignScalar document path val) = some values') :
    ∃ program', program.step (.assignScalar document path val) = some program' ∧
      Represents program' values' := by
  obtain ⟨held, hheld, rfl⟩ := Option.map_eq_some_iff.mp hstep
  obtain ⟨address, inner, rest, hamong⟩ := hrepresents.at_document hheld
  have hassigned : ∃ reference next, program.heap.locate address path = some reference ∧
      program.heap.assignScalar reference val = some next ∧
      Leaves Shape program.heap.instance? next.instance? rest [address]
        [.document (held.map (Node.mapBelow (Node.assignScalar val) path))] 0 := by
    cases held with
    | none =>
        obtain ⟨hcell, -⟩ := cell_of_empty hamong.holds
        refine ⟨address, program.heap, locate_empty hcell path, ?_, hamong.holds.leaves hamong.owns⟩
        rw [Heap.assignScalar, root_node hcell]
        rfl
    | some node =>
        obtain ⟨reference, next, hreference, hnext, hleaves⟩ :=
          assignScalar_located hamong.intact hamong.holds hamong.owns val path
        refine ⟨reference, next, hreference, hnext, ?_⟩
        cases hfound : node.below? path <;> rwa [hfound] at hleaves
  obtain ⟨reference, next, hreference, hnext, hleaves⟩ := hassigned
  refine ⟨⟨next, program.documents⟩, ?_, hamong.put hleaves⟩
  rw [Program.step, Program.on, hamong.locate hreference, Option.bind_some, hnext, Option.map_some]

/-! ## Assignments -/

theorem put_self (hheld : values.contents[document]? = some held) :
    values.put document held = values := by
  rw [Values.put, set_of_getElem? hheld]

/-- What a document takes from another part of the program, or from itself. -/
theorem Among.copyAssign {address other : Address} {inner rest : Multiset Nat} {shown : Option Node}
    (hamong : Among program.heap program.documents values document held address inner rest)
    (hrepresents : Represents program values) (hheld : values.contents[document]? = some held)
    (hcontents : program.heap.contents other = some shown)
    (hdistinct : ∀ node, shown = some node → node.DistinctKeys) :
    ∃ next, program.heap.copyAssign address other = some next ∧
      Represents ⟨next, program.documents⟩ (values.put document shown) := by
  by_cases hself : address = other
  · -- a document shows its own value
    subst hself
    obtain ⟨reference, hfound, hlater⟩ := contents_located hamong.intact hamong.holds hamong.owns []
    obtain rfl := Option.some.inj hfound
    have hsame := hcontents.symm.trans (hlater hamong.intact (fun _ _ => rfl) hamong.owns)
    have hwhole : held.bind (Node.below? []) = held := by cases held <;> rfl
    rw [hwhole] at hsame
    obtain rfl := Option.some.inj hsame
    rw [put_self hheld]
    exact ⟨program.heap, if_pos rfl, hrepresents⟩
  · obtain ⟨below, howner, howns⟩ := hamong.owner
    obtain ⟨mRoot, hcell⟩ := howner.cell
    obtain ⟨next, hnext, hleaves⟩ := assign_leaves hamong.ne howner howns hcontents hdistinct
    refine ⟨next, ?_, hamong.put hleaves⟩
    rw [Heap.copyAssign, if_neg hself, hcell]
    exact hnext

theorem copyAssign (hrepresents : Represents program values) {values' : Values} {json : Nat}
    {source : Path} (hstep : values.step (.copyAssign document path json source) = some values') :
    ∃ program', program.step (.copyAssign document path json source) = some program' ∧
      Represents program' values' := by
  obtain ⟨held, hheld, hassigned⟩ := Option.bind_eq_some_iff.mp hstep
  obtain ⟨shown, hshown, rfl⟩ := Option.map_eq_some_iff.mp hassigned
  obtain ⟨other, hother, hcontents, hdistinct⟩ := hrepresents.shown hshown
  obtain ⟨address, inner, rest, hamong⟩ := hrepresents.at_document hheld
  have hstepped {reference : Address} {next : Heap}
      (hreference : program.heap.locate address path = some reference)
      (hnext : program.heap.copyAssign reference other = some next) :
      program.step (.copyAssign document path json source) = some ⟨next, program.documents⟩ := by
    rw [Program.step, Program.on, hamong.locate hreference, hother, Option.bind_some,
      Option.bind_some, hnext, Option.map_some]
  split
  · rename_i hwhole
    have hreference : program.heap.locate address path = some address := by
      rcases hwhole with rfl | rfl
      · rfl
      · exact locate_empty (cell_of_empty hamong.holds).1 path
    obtain ⟨next, hnext, hkept⟩ := hamong.copyAssign hrepresents hheld hcontents hdistinct
    exact ⟨⟨next, program.documents⟩, hstepped hreference hnext, hkept⟩
  · rename_i hbelow
    obtain ⟨hpath, hsome⟩ := not_or.mp hbelow
    obtain ⟨node, rfl⟩ := Option.ne_none_iff_exists'.mp hsome
    obtain ⟨index, path, rfl⟩ := List.exists_cons_of_ne_nil hpath
    obtain ⟨reference, hreference, hkept⟩ :=
      copyAssign_located hamong.intact hamong.holds hamong.owns index path
    exact ⟨program, hstepped hreference (hkept other), hrepresents⟩

theorem moveAssign (hrepresents : Represents program values) {values' : Values} {json : Nat}
    (hstep : values.step (.moveAssign document json) = some values') :
    ∃ program', program.step (.moveAssign document json) = some program' ∧
      Represents program' values' := by
  obtain ⟨held, hheld, hfound⟩ := Option.bind_eq_some_iff.mp hstep
  obtain ⟨other, hother, hmoved⟩ := Option.bind_eq_some_iff.mp hfound
  split at hmoved
  · rename_i hself
    subst hself
    obtain rfl := Option.some.inj hmoved
    obtain ⟨address, inner, rest, hamong⟩ := hrepresents.at_document hheld
    refine ⟨program, ?_, hrepresents⟩
    simp only [Program.step, Program.on, hamong.found, Option.bind_some, Heap.moveAssign, if_true,
      Option.map_some]
  rename_i hne
  split at hmoved
  · rename_i htrees
    obtain rfl := Option.some.inj hmoved
    obtain ⟨node, rfl⟩ := Option.isSome_iff_exists.mp htrees.1
    obtain ⟨node', rfl⟩ := Option.isSome_iff_exists.mp htrees.2
    obtain ⟨print, lost, hholds, howns, hlost⟩ := hrepresents
    obtain ⟨address, address', inner, inner', outer, haddress, haddress', rfl, hinner, hinner',
      hput⟩ := hholds.at_two (fun heq => hne (Nat.succ.inj heq)) (stored_document hheld)
        (stored_document hother)
    rw [List.getElem?_cons_succ] at haddress haddress'
    rw [add_assoc, add_assoc] at howns
    obtain ⟨next, print, print', hnext, hprint, hprint', hcells, hsame⟩ :=
      moveAssign_documents hinner hinner' howns
    have hwhole := hput _ _ _ _ _ (agree_add.mp hsame).1 hprint hprint'
    rw [List.set_cons_succ, List.set_cons_succ, ← List.map_set, ← List.map_set] at hwhole
    refine ⟨⟨next, program.documents⟩, ?_, _, lost, hwhole, ?_, hlost⟩
    · simp only [Program.step, Program.on, haddress, haddress', Option.bind_some, hnext,
        Option.map_some]
    · rwa [add_assoc, add_assoc]
  · cases hmoved

/-! ## Runs -/

theorem step {command : Command} (hrepresents : Represents program values) {values' : Values}
    (hstep : values.step command = some values') :
    ∃ program', program.step command = some program' ∧ Represents program' values' := by
  cases command with
  | construct => exact hrepresents.construct hstep
  | copyConstruct json path => exact hrepresents.copyConstruct hstep
  | destroy document => exact hrepresents.destroy hstep
  | parse document json => exact hrepresents.parse hstep
  | parseFile document contents => exact hrepresents.parseFile hstep
  | add document path addition => exact hrepresents.add hstep
  | assignScalar document path val => exact hrepresents.assignScalar hstep
  | copyAssign document path json source => exact hrepresents.copyAssign hstep
  | moveAssign document json => exact hrepresents.moveAssign hstep

theorem runAll {commands : List Command} (hrepresents : Represents program values) {last : Values}
    (hrun : Machine.runAll Values.step values commands = some last) :
    ∃ program', Machine.runAll Program.step program commands = some program' ∧
      Represents program' last := by
  induction commands generalizing program values with
  | nil =>
      obtain rfl := Option.some.inj hrun
      exact ⟨program, rfl, hrepresents⟩
  | cons command commands ih =>
      obtain ⟨next, hnext, hrest⟩ := Option.bind_eq_some_iff.mp hrun
      obtain ⟨program', hprogram, hkept⟩ := hrepresents.step hnext
      obtain ⟨program'', hlast, hheld⟩ := ih hkept hrest
      exact ⟨program'', by rw [Machine.runAll, hprogram, Option.bind_some, hlast], hheld⟩

theorem length_eq (hrepresents : Represents program values) :
    program.documents.length = values.contents.length := by
  obtain ⟨print, lost, hholds, -⟩ := hrepresents
  have hlength := hholds.length_eq
  rwa [List.length_cons, List.length_cons, List.length_map, Nat.succ_inj] at hlength

theorem contents_eq (hrepresents : Represents program values) (document : Nat) (path : Path) :
    (program.locate document path).bind program.heap.contents = values.shown document path := by
  cases hshown : values.shown document path with
  | none =>
      have hnone : program.documents[document]? = none := by
        rw [List.getElem?_eq_none_iff, hrepresents.length_eq, ← List.getElem?_eq_none_iff]
        exact Option.map_eq_none_iff.mp hshown
      rw [Program.locate, hnone]
      rfl
  | some shown =>
      obtain ⟨reference, hreference, hcontents, -⟩ := hrepresents.shown hshown
      rw [hreference, Option.bind_some, hcontents]

/-- The invalid instance, an instance for every document and every node, and those that are lost. -/
theorem countP_eq (hrepresents : Represents program values) :
    program.heap.instances.countP Option.isSome =
      (values.contents.map fun held => (Stored.document held).size).sum + values.leaked + 1 := by
  obtain ⟨print, lost, hholds, howns, hlost⟩ := hrepresents
  have hcount := howns.card_eq
  rw [Multiset.card_add, card_of_holds hholds, List.map_cons, List.sum_cons, List.map_map,
    hlost] at hcount
  rw [← hcount, Nat.add_assoc, Nat.add_comm]
  rfl

end Represents

/-! ## What programs see -/

/--
Whatever a program does with its documents, its memory holds them with the values
that they have: every lookup in every document shows the part of its own value.
-/
theorem runs_show_values {commands : List Command} {values : Values}
    (hrun : runAll Values.step Values.start commands = some values) :
    ∃ program, runAll Program.step Program.start commands = some program ∧
      program.documents.length = values.contents.length ∧
      ∀ document path,
        (program.locate document path).bind program.heap.contents = values.shown document path := by
  obtain ⟨program, hprogram, hrepresents⟩ := Represents.start.runAll hrun
  exact ⟨program, hprogram, hrepresents.length_eq, hrepresents.contents_eq⟩

/-- The value `x` in the object `a`, a copy of the object, and another object in its place. -/
def exampleCommands : List Command :=
  [.construct, .add 0 [] (.addObject "a".toList),
    .add 0 [.key "a".toList] (.addValue (.string "x".toList) "b".toList),
    .copyConstruct 0 [.key "a".toList], .add 0 [] (.addObject "a".toList)]

def exampleValues : Values where
  contents := [some (.Object [("a".toList, .Object [])]),
    some (.Object [("b".toList, .Value "x".toList .String)])]
  leaked := 2

theorem exampleCommands_run :
    runAll Values.step Values.start exampleCommands = some exampleValues := by
  rfl

theorem runs_show_values_example :
    ∃ program, runAll Program.step Program.start exampleCommands = some program ∧
      program.documents.length = 2 ∧
      ∀ document path,
        (program.locate document path).bind program.heap.contents =
          exampleValues.shown document path :=
  runs_show_values exampleCommands_run

/--
The instances that a program has not given back are the invalid one, those of its
documents, and as many as its additions have put other objects and lists in the
place of and as repeated names in the texts that it parsed have overwritten.
-/
theorem runs_count_instances {commands : List Command} {values : Values}
    (hrun : runAll Values.step Values.start commands = some values) :
    ∃ program, runAll Program.step Program.start commands = some program ∧
      program.heap.instances.countP Option.isSome =
        (values.contents.map fun held => (Stored.document held).size).sum + values.leaked + 1 := by
  obtain ⟨program, hprogram, hrepresents⟩ := Represents.start.runAll hrun
  exact ⟨program, hprogram, hrepresents.countP_eq⟩

theorem runs_count_instances_example :
    ∃ program, runAll Program.step Program.start exampleCommands = some program ∧
      program.heap.instances.countP Option.isSome =
        (exampleValues.contents.map fun held => (Stored.document held).size).sum + 2 + 1 :=
  runs_count_instances exampleCommands_run

end DumaisLib.JSON
