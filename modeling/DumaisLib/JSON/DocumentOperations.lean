import DumaisLib.JSON.Contents

/-!
# Operations on documents in memory

Each of them needs the instances of its document only, beside those that it reads,
and leaves a document in their place.
-/

namespace DumaisLib.JSON.Heap

open Machine Forest

variable {heap next : Heap} {address reference json : Address} {node : Node}
variable {print below rest : Multiset Nat}

/-! ## Changes of a node below a document -/

/--
An operation that changes any node in its place, that a document forwards to its
root and that the invalid instance ignores changes the node below a path.
-/
theorem change_located (hintact : heap.Intact)
    (hholds : Holds Shape heap.instance? [address] [.document (some node)] print)
    (howns : Owns heap.instance? (print + rest)) {operate : Address → Option Heap}
    {change : Node → Node} {leaked : Node → Nat}
    (hnode : ∀ {reference found inner rest},
      Holds Shape heap.instance? [reference] [.node found] inner →
      Owns heap.instance? (inner + rest) → ∃ next, operate reference = some next ∧
        Leaves Shape heap.instance? next.instance? rest [reference] [.node (change found)]
          (leaked found))
    (hforward : ∀ root, heap.Root address root → operate address = operate root)
    (hinvalid : operate mInvalid = some heap) (path : Path) :
    ∃ reference next, heap.locate address path = some reference ∧ operate reference = some next ∧
      Leaves Shape heap.instance? next.instance? rest [address]
        [.document (some (node.mapBelow change path))]
        (((node.below? path).map leaked).getD 0) := by
  obtain ⟨root, below, hroot, rfl, hbelow⟩ := root_of_document hholds howns
  have hdistinct := distinctKeys_of_node hbelow
  rcases found_of_holds hintact hdistinct hbelow path with
    ⟨hreference, hmissing⟩ |
      @⟨reference, found, inner, outer, hreference, hfound, rfl, hinner, hcompletes⟩
  · obtain _ | ⟨index, path⟩ := path
    · cases hmissing
    refine ⟨mInvalid, heap, (hroot.locate_cons index path).trans hreference, hinvalid, ?_⟩
    rw [hmissing, mapBelow_missing hdistinct hmissing]
    exact hholds.leaves howns
  · have hcells : address ::ₘ (inner + outer) + rest = inner + (outer + address ::ₘ 0 + rest) := by
      rw [← Multiset.singleton_add, Multiset.cons_zero]
      ac_rfl
    rw [hcells] at howns
    obtain ⟨next, hnext, hleaves⟩ := hnode hinner howns
    have hwhole := hleaves.plug
      ((hcompletes change).trans (.below hroot.cell .document (.self _ _ _)))
    rw [hfound]
    obtain _ | ⟨index, path⟩ := path
    · obtain rfl := Option.some.inj hreference
      exact ⟨address, next, rfl, (hforward root hroot).trans hnext, hwhole⟩
    · exact ⟨reference, next, (hroot.locate_cons index path).trans hreference, hnext, hwhole⟩

/-! ## Additions and assigned values -/

/-- A node takes a call however often it has been forwarded. -/
theorem Root.add_eq {root : Address} (hroot : heap.Root address root) (hne : address ≠ mInvalid)
    (addition : Addition) : heap.add address addition = heap.add root addition := by
  obtain ⟨body, hbody, hsolid⟩ := hroot.solid
  have hroots : ¬ some root = some address := fun heq => hroot.ne (Option.some.inj heq)
  have hfirst : heap.add address addition =
      addFrom (heap.instances.length + 1) heap root addition := by
    rw [add, addFrom, hroot.cell]
    simp only [Option.bind_some, if_neg hne, if_neg hroots]
  rw [hfirst, add, addFrom, addFrom, hbody]
  cases body with
  | pure => exact absurd rfl hsolid
  | Object mMembers => rfl
  | List mMembers => rfl
  | Value mValue mSubType => rfl

theorem add_node (hholds : Holds Shape heap.instance? [address] [.node node] print)
    (howns : Owns heap.instance? (print + rest)) (addition : Addition) :
    ∃ next, (heap.add address addition).map Prod.snd = some next ∧
      Leaves Shape heap.instance? next.instance? rest [address] [.node (node.add addition)]
        (node.leaks addition) := by
  obtain ⟨child, next, hnext, hleaves⟩ :=
    addFrom_node hholds howns addition (heap.instances.length + 1)
  exact ⟨next, by rw [add, hnext, Option.map_some], hleaves⟩

theorem add_located (hintact : heap.Intact) (hne : address ≠ mInvalid)
    (hholds : Holds Shape heap.instance? [address] [.document (some node)] print)
    (howns : Owns heap.instance? (print + rest)) (addition : Addition) (path : Path) :
    ∃ reference next, heap.locate address path = some reference ∧
      (heap.add reference addition).map Prod.snd = some next ∧
      Leaves Shape heap.instance? next.instance? rest [address]
        [.document (some (node.mapBelow (Node.add addition) path))]
        (((node.below? path).map (Node.leaks addition)).getD 0) := by
  refine change_located hintact hholds howns (fun hnode hinner => add_node hnode hinner addition)
    (fun root hroot => by rw [hroot.add_eq hne]) ?_ path
  have hinvalid : heap.operate mInvalid (.add addition) = some heap :=
    operate_of_intact hintact fun _ heq => by cases heq
  exact hinvalid

theorem assignScalar_located (hintact : heap.Intact)
    (hholds : Holds Shape heap.instance? [address] [.document (some node)] print)
    (howns : Owns heap.instance? (print + rest)) (val : Scalar) (path : Path) :
    ∃ reference next, heap.locate address path = some reference ∧
      heap.assignScalar reference val = some next ∧
      Leaves Shape heap.instance? next.instance? rest [address]
        [.document (some (node.mapBelow (Node.assignScalar val) path))]
        (((node.below? path).map fun _ => 0).getD 0) := by
  refine change_located hintact hholds howns
    (fun hnode hinner => assignScalar_node hnode hinner val) (fun root hroot => ?_) ?_ path
  · rw [Heap.assignScalar, hroot.same]
    rfl
  · rw [Heap.assignScalar, hintact.root?]
    rfl

/-- The end of a path in a document that holds a tree is no document. -/
theorem copyAssign_located (hintact : heap.Intact)
    (hholds : Holds Shape heap.instance? [address] [.document (some node)] print)
    (howns : Owns heap.instance? (print + rest)) (index : Index) (path : Path) :
    ∃ reference, heap.locate address (index :: path) = some reference ∧
      ∀ json, heap.copyAssign reference json = some heap := by
  obtain ⟨root, below, hroot, rfl, hbelow⟩ := root_of_document hholds howns
  rw [hroot.locate_cons]
  rcases found_of_holds hintact (distinctKeys_of_node hbelow) hbelow (index :: path) with
    ⟨hreference, -⟩ | ⟨hreference, -, -, hinner, -⟩
  · refine ⟨mInvalid, hreference, fun json => ?_⟩
    have hinvalid : heap.operate mInvalid (.copyAssign json) = some heap :=
      operate_of_intact hintact fun _ heq => by cases heq
    exact hinvalid
  · refine ⟨_, hreference, fun json => ?_⟩
    obtain ⟨_, _, _, _, hcell, hshape, -, -⟩ := hinner.single_cases
    cases hshape with
    | node hstands =>
        rw [copyAssign, hcell]
        split
        · rfl
        · cases hstands <;> rfl

/-! ## Roots that are taken and given up -/

/-- A pure instance, with the instances below it. -/
inductive Owner (heap : Heap) (address : Address) : Multiset Nat → Prop where
  | null : heap.instance? address = some ⟨none, .pure⟩ → Owner heap address 0
  | self : heap.instance? address = some ⟨some address, .pure⟩ → Owner heap address 0
  | root {root : Address} {node : Node} {below : Multiset Nat} :
      heap.instance? address = some ⟨some root, .pure⟩ → root ≠ address →
      Holds Shape heap.instance? [root] [.node node] below → Owner heap address below

theorem Owner.cell (howner : Owner heap address below) :
    ∃ mRoot, heap.instance? address = some ⟨mRoot, .pure⟩ := by
  cases howner with
  | null hcell => exact ⟨_, hcell⟩
  | self hcell => exact ⟨_, hcell⟩
  | root hcell _ _ => exact ⟨_, hcell⟩

theorem Owner.frame (howner : Owner heap address below)
    (hroot : next.instance? address = heap.instance? address)
    (hbelow : ∀ other ∈ below, next.instance? other = heap.instance? other) :
    Owner next address below := by
  cases howner with
  | null hcell => exact .null (hroot.trans hcell)
  | self hcell => exact .self (hroot.trans hcell)
  | root hcell hne hholds => exact .root (hroot.trans hcell) hne (hholds.frame hbelow)

theorem owner_of_document {held : Option Node}
    (hholds : Holds Shape heap.instance? [address] [.document held] print)
    (howns : Owns heap.instance? (print + rest)) :
    ∃ below, print = address ::ₘ below ∧ Owner heap address below := by
  cases held with
  | none =>
      obtain ⟨hcell, rfl⟩ := cell_of_empty hholds
      exact ⟨0, rfl, .self hcell⟩
  | some node =>
      obtain ⟨root, below, hroot, rfl, hnode⟩ := root_of_document hholds howns
      exact ⟨below, rfl, .root hroot.cell hroot.ne hnode⟩

/-- A pure instance deletes the tree below it, and nothing else. -/
theorem deleteRoot_leaves (howner : Owner heap address below)
    (howns : Owns heap.instance? (below + rest)) :
    ∃ next, heap.deleteRoot address = some next ∧
      Leaves Shape heap.instance? next.instance? rest [] [] 0 := by
  cases howner with
  | null hcell =>
      rw [zero_add] at howns
      exact ⟨heap, by rw [deleteRoot, hcell]; rfl, leaves_nothing howns fun _ _ => rfl⟩
  | self hcell =>
      rw [zero_add] at howns
      refine ⟨heap, ?_, leaves_nothing howns fun _ _ => rfl⟩
      rw [deleteRoot, hcell]
      exact if_pos rfl
  | root hcell hne hholds =>
      obtain ⟨next, hnext, hleaves⟩ := delete_tree hholds howns
      refine ⟨next, ?_, hleaves⟩
      rw [deleteRoot, hcell]
      exact (if_neg hne).trans hnext

/-- A pure instance takes a root, and is a document. -/
theorem setRoot_leaves {store : Nat → Option Instance} {mRoot : Option Address} {root : Address}
    {parts : List Address} {children : List Stored} {held : Option Node} {leaked : Nat}
    (hleaves : Leaves Shape store heap.instance? (address ::ₘ rest) parts children leaked)
    (hcell : store address = some ⟨mRoot, .pure⟩)
    (hshape : Shape address ⟨some root, .pure⟩ (.document held) parts children) :
    heap.setRoot address (some root) = some (heap.set address ⟨some root, .pure⟩) ∧
      Leaves Shape store (heap.set address ⟨some root, .pure⟩).instance? rest [address]
        [.document held] leaked := by
  have hfound := (hleaves.same address (Multiset.mem_cons_self _ _)).trans hcell
  refine ⟨by rw [setRoot, hfound]; rfl, ?_⟩
  rw [instance?_write hfound]
  exact hleaves.write hshape

/-- A document that holds nothing gets an object for its root first. -/
theorem add_empty (hne : address ≠ mInvalid)
    (hholds : Holds Shape heap.instance? [address] [.document none] print)
    (howns : Owns heap.instance? (print + rest)) (addition : Addition) :
    ∃ next, (heap.add address addition).map Prod.snd = some next ∧
      Leaves Shape heap.instance? next.instance? rest [address]
        [.document (some ((Node.Object []).add addition))] 0 := by
  obtain ⟨hcell, rfl⟩ := cell_of_empty hholds
  rw [Multiset.cons_add, zero_add] at howns
  have hstands : StandsFor (.Object []) (.Object []) := .Object rfl List.nodup_nil
  have hobject : Leaves Shape heap.instance? (heap.new (.Object [])).2.instance? (address ::ₘ rest)
      [(heap.new (.Object [])).1] [.node (.Object [])] 0 :=
    new_leaves (leaves_nothing howns fun _ _ => rfl) hstands
  obtain ⟨hset, hrooted⟩ := setRoot_leaves hobject hcell .document
  have hfound := (hobject.same address (Multiset.mem_cons_self _ _)).trans hcell
  have hleaks : (Node.Object []).leaks addition = 0 := ite_self 0
  have hadd : heap.add address addition = addFrom (heap.instances.length + 1)
      ((heap.new (.Object [])).2.set address ⟨some (heap.new (.Object [])).1, .pure⟩)
      (heap.new (.Object [])).1 addition := by
    rw [add, addFrom, hcell]
    simp only [Option.bind_some, if_neg hne, if_true, hset]
  rw [hadd]
  refine hrooted.trans fun print cells hdocument hcells => ?_
  obtain ⟨root, below, hroot, rfl, hnode⟩ := root_of_document hdocument hcells
  have hsame := hroot.cell
  rw [instance?_set _ hfound] at hsame
  obtain rfl : (heap.new (.Object [])).1 = root :=
    Option.some.inj (congrArg Instance.mRoot (Option.some.inj hsame))
  have hsplit : address ::ₘ below + cells = below + (address ::ₘ 0 + cells) := by
    rw [Multiset.cons_add, Multiset.cons_add, Multiset.add_cons, zero_add]
  rw [hsplit] at hcells
  obtain ⟨child, next, hnext, hleaves⟩ :=
    addFrom_node hnode hcells addition heap.instances.length
  refine ⟨next, by rw [hnext, Option.map_some], ?_⟩
  rw [hleaks] at hleaves
  exact hleaves.plug (.below hroot.cell .document (.self _ _ _))

/-! ## Copies and texts -/

theorem copyRoot_of_contents {shown : Option Node} (hshows : heap.contents json = some shown) :
    ∃ found, heap.root? json = some found ∧
      heap.copy found.1 = some (shown.elim (none, heap) fun node =>
        (some (heap.newTree node).1, (heap.newTree node).2)) := by
  obtain ⟨⟨root, item⟩, hfound, hread⟩ := Option.bind_eq_some_iff.mp hshows
  have hcell : heap.instance? root = some item := by
    obtain ⟨mRoot, -, hroot⟩ := Option.bind_eq_some_iff.mp hfound
    obtain ⟨found, hitem, heq⟩ := Option.map_eq_some_iff.mp hroot
    obtain ⟨rfl, rfl⟩ := Prod.mk.inj heq
    exact hitem
  refine ⟨(root, item), hfound, ?_⟩
  rw [copy, hcell, Option.bind_some]
  obtain ⟨mRoot, body⟩ := item
  cases body with
  | pure =>
      obtain rfl := Option.some.inj hread
      rfl
  | Object mMembers =>
      obtain ⟨node, hnode, rfl⟩ := Option.map_eq_some_iff.mp hread
      dsimp only at hnode ⊢
      rw [hnode]
      rfl
  | List mMembers =>
      obtain ⟨node, hnode, rfl⟩ := Option.map_eq_some_iff.mp hread
      dsimp only at hnode ⊢
      rw [hnode]
      rfl
  | Value mValue mSubType =>
      obtain ⟨node, hnode, rfl⟩ := Option.map_eq_some_iff.mp hread
      dsimp only at hnode ⊢
      rw [hnode]
      rfl

/-- The copy is made before the tree that it replaces is deleted. -/
theorem assign_leaves (hne : address ≠ mInvalid) (howner : Owner heap address below)
    (howns : Owns heap.instance? (below + address ::ₘ rest)) {shown : Option Node}
    (hshows : heap.contents json = some shown)
    (hdistinct : ∀ node, shown = some node → node.DistinctKeys) :
    ∃ next, heap.assign address json = some next ∧
      Leaves Shape heap.instance? next.instance? rest [address] [.document shown] 0 := by
  obtain ⟨found, hfound, hcopy⟩ := copyRoot_of_contents hshows
  obtain ⟨mRoot, hcell⟩ := howner.cell
  cases shown with
  | none =>
      obtain ⟨cleared, hcleared, hleaves⟩ := deleteRoot_leaves howner howns
      obtain ⟨hset, hempty⟩ := setRoot_leaves hleaves hcell .empty
      refine ⟨_, ?_, hempty⟩
      simp only [assign, if_neg hne, hfound, hcopy, Option.bind_some, Option.elim_none, hcleared,
        Option.getD_none, hset]
  | some node =>
      have hmade := newTree_leaves (hdistinct node rfl) howns
      obtain ⟨hbelow, hrest⟩ := agree_add.mp hmade.same
      obtain ⟨cleared, hcleared, hleaves⟩ := hmade.consume fun cells hcells =>
        deleteRoot_leaves (howner.frame (agree_cons.mp hrest).1 hbelow) hcells
      obtain ⟨hset, hrooted⟩ := setRoot_leaves hleaves hcell .document
      refine ⟨_, ?_, hrooted⟩
      simp only [assign, if_neg hne, hfound, hcopy, Option.bind_some, Option.elim_some, hcleared,
        Option.getD_some, hset]

/-- Trees that are made and not kept. -/
theorem newTrees_leaves {store : Nat → Option Instance} {addresses : List Address}
    {trees : List Stored} {leaked : Nat} {nodes : List Node}
    (hdistinct : ∀ node ∈ nodes, node.DistinctKeys)
    (hleaves : Leaves Shape store heap.instance? rest addresses trees leaked) :
    Leaves Shape store (nodes.foldl (fun heap node => (heap.newTree node).2) heap).instance? rest
      addresses trees (leaked + (nodes.map Node.size).sum) := by
  induction nodes generalizing heap leaked with
  | nil => exact hleaves
  | cons node nodes ih =>
      obtain ⟨hnode, hnodes⟩ := List.forall_mem_cons.mp hdistinct
      have hmade := hleaves.discard (fun cells hcells => newTree_leaves hnode hcells)
        fun print hholds => card_of_holds hholds
      have hrest := ih hnodes hmade
      rw [Nat.add_zero, Nat.add_assoc] at hrest
      exact hrest

theorem parse_leaves (hne : address ≠ mInvalid) (howner : Owner heap address below)
    (howns : Owns heap.instance? (below + address ::ₘ rest)) {text : Text} {obj : Node}
    (hparse : (JSON.parse text).result? = some obj) :
    ∃ next, heap.parse address text = some next ∧
      Leaves Shape heap.instance? next.instance? rest [address] [.document (some obj)]
        ((overwritten text).map Node.size).sum := by
  have hdistinct : obj.DistinctKeys := by
    cases hresult : JSON.parse text with
    | finished node =>
        rw [hresult] at hparse
        obtain rfl := Option.some.inj hparse
        exact parse_distinctKeys hresult
    | fault =>
        rw [hresult] at hparse
        cases hparse
    | outOfFuel =>
        rw [hresult] at hparse
        cases hparse
  obtain ⟨mRoot, hcell⟩ := howner.cell
  obtain ⟨cleared, hcleared, hleaves⟩ := deleteRoot_leaves howner howns
  have hmade := hleaves.append fun cells hcells => newTree_leaves hdistinct hcells
  have hall := newTrees_leaves (overwritten_distinctKeys text) hmade
  rw [Nat.zero_add] at hall
  obtain ⟨hset, hrooted⟩ := setRoot_leaves hall hcell .document
  refine ⟨_, ?_, hrooted⟩
  simp only [parse, if_neg hne, hcleared, hparse, Option.bind_some, hset]

/-! ## Moves -/

/-- Two documents exchange their trees. -/
theorem moveAssign_documents {address' : Address} {node' : Node} {inner inner' : Multiset Nat}
    (hinner : Holds Shape heap.instance? [address] [.document (some node)] inner)
    (hinner' : Holds Shape heap.instance? [address'] [.document (some node')] inner')
    (howns : Owns heap.instance? (inner + (inner' + rest))) :
    ∃ next print print', heap.moveAssign address address' = some next ∧
      Holds Shape next.instance? [address] [.document (some node')] print ∧
      Holds Shape next.instance? [address'] [.document (some node)] print' ∧
      Owns next.instance? (print + (print' + rest)) ∧
      ∀ other ∈ rest, next.instance? other = heap.instance? other := by
  obtain ⟨root, below, hroot, rfl, hnode⟩ := root_of_document hinner howns
  rw [add_left_comm] at howns
  obtain ⟨root', below', hroot', rfl, hnode'⟩ := root_of_document hinner' howns
  rw [Multiset.cons_add, Multiset.cons_add, Multiset.add_cons] at howns
  obtain ⟨hfresh', hrest⟩ := Multiset.nodup_cons.mp howns.nodup
  obtain ⟨hfresh, -⟩ := Multiset.nodup_cons.mp hrest
  simp only [Multiset.mem_cons, Multiset.mem_add, not_or] at hfresh hfresh'
  obtain ⟨hne', hbelow', hbelow, hrest'⟩ := hfresh'
  have hother : (heap.set address ⟨some root', .pure⟩).instance? address' =
      some ⟨some root', .pure⟩ := by
    rw [instance?_set_ne _ hne', hroot'.cell]
  let next : Heap := (heap.set address ⟨some root', .pure⟩).set address' ⟨some root, .pure⟩
  have hnext : heap.moveAssign address address' = some next := by
    rw [moveAssign, if_neg (Ne.symm hne'), hroot.cell, hroot'.cell]
    rfl
  have hsame (other : Nat) (hleft : other ≠ address) (hright : other ≠ address') :
      next.instance? other = heap.instance? other := by
    rw [instance?_set_ne _ hright, instance?_set_ne _ hleft]
  have hcell : next.instance? address = some ⟨some root', .pure⟩ := by
    rw [instance?_set_ne _ (Ne.symm hne'), instance?_set _ hroot.cell]
  have hcell' : next.instance? address' = some ⟨some root, .pure⟩ := instance?_set _ hother
  have hkept {cells : Multiset Nat} (hleft : address ∉ cells) (hright : address' ∉ cells) :
      ∀ other ∈ cells, next.instance? other = heap.instance? other := fun other hmem =>
    hsame other (fun heq => hleft (heq ▸ hmem)) fun heq => hright (heq ▸ hmem)
  refine ⟨next, address ::ₘ below', address' ::ₘ below, hnext,
    .single hcell .document (hnode'.frame (hkept hfresh.1 hbelow')),
    .single hcell' .document (hnode.frame (hkept hfresh.2.1 hbelow)), ?_, hkept hfresh.2.2 hrest'⟩
  have hwritten := (howns.write (Multiset.mem_cons_of_mem (Multiset.mem_cons_self _ _))
    ⟨some root', .pure⟩).write (Multiset.mem_cons_self _ _) ⟨some root, .pure⟩
  rw [← instance?_write hroot.cell, ← instance?_write hother] at hwritten
  rwa [Multiset.cons_add, Multiset.cons_add, Multiset.add_cons, Multiset.cons_swap]

/-! ## Lifetimes -/

theorem construct_leaves {cells : Multiset Nat} (howns : Owns heap.instance? cells) :
    Leaves Shape heap.instance? (heap.new .pure).2.instance? cells [(heap.new .pure).1]
      [.document none] 0 := by
  rw [instance?_new]
  exact (leaves_nothing howns fun _ _ => rfl).alloc (instance?_length heap) .empty

/-- A new instance has no root until it takes a copy of what the reference shows. -/
theorem copyConstruct_leaves {cells : Multiset Nat} (howns : Owns heap.instance? cells)
    (hinvalid : mInvalid ∈ cells) {shown : Option Node}
    (hshows : ∀ {later : Heap} {others},
      (∀ other ∈ cells, later.instance? other = heap.instance? other) →
      Owns later.instance? (cells + others) → later.contents json = some shown)
    (hdistinct : ∀ node, shown = some node → node.DistinctKeys) :
    ∃ next, ((heap.new .pure).2.setRoot (heap.new .pure).1 none).bind
        (·.assign (heap.new .pure).1 json) = some next ∧
      Leaves Shape heap.instance? next.instance? cells [(heap.new .pure).1] [.document shown] 0 := by
  have hfresh := howns.notMem (instance?_length heap)
  have hfound : (heap.new .pure).2.instance? heap.instances.length =
      some ⟨some heap.instances.length, .pure⟩ := by
    rw [instance?_new, Function.update_self]
  have hset : (heap.new .pure).2.setRoot heap.instances.length none =
      some ((heap.new .pure).2.set heap.instances.length ⟨none, .pure⟩) := by
    rw [setRoot, hfound]
    rfl
  have hcells := howns.alloc (instance?_length heap) ⟨some heap.instances.length, .pure⟩
  rw [← instance?_new] at hcells
  have hnull := hcells.write (Multiset.mem_cons_self _ _) ⟨none, .pure⟩
  rw [← instance?_write hfound] at hnull
  have hsame : ∀ other ∈ cells,
      ((heap.new .pure).2.set heap.instances.length ⟨none, .pure⟩).instance? other =
        heap.instance? other := by
    intro other hother
    have hne : other ≠ heap.instances.length := fun heq => hfresh (heq ▸ hother)
    rw [instance?_set_ne _ hne, instance?_new, Function.update_of_ne hne]
  have hlater : Owns ((heap.new .pure).2.set heap.instances.length ⟨none, .pure⟩).instance?
      (cells + heap.instances.length ::ₘ 0) := by
    rwa [Multiset.add_cons, add_zero]
  have hshown := hshows hsame hlater
  have hne : heap.instances.length ≠ mInvalid := fun heq => hfresh (heq ▸ hinvalid)
  have howner := Owner.null (instance?_set ⟨none, .pure⟩ hfound)
  obtain ⟨next, hnext, hleaves⟩ := assign_leaves hne howner (by rwa [zero_add]) hshown hdistinct
  exact ⟨next, (congrArg (Option.bind · _) hset).trans hnext, hleaves.rebase hsame⟩

/-- The destructor gives the tree back, and then the document itself is gone. -/
theorem destroy_leaves (howner : Owner heap address below)
    (howns : Owns heap.instance? (below + address ::ₘ rest)) :
    ∃ next, (heap.deleteRoot address).map (·.free address) = some next ∧
      Leaves Shape heap.instance? next.instance? rest [] [] 0 := by
  obtain ⟨cleared, hcleared, hleaves⟩ := deleteRoot_leaves howner howns
  obtain ⟨none', lost, hnone, hcells, hlost, hsame⟩ := hleaves
  cases hnone
  rw [Multiset.card_eq_zero.mp hlost, zero_add, zero_add] at hcells
  refine ⟨cleared.free address, by rw [hcleared, Option.map_some], ?_⟩
  rw [instance?_free]
  refine leaves_nothing hcells.free fun other hother => ?_
  have hne : other ≠ address := by
    rintro rfl
    exact (Multiset.nodup_cons.mp hcells.nodup).1 hother
  rw [Function.update_of_ne hne]
  exact hsame other (Multiset.mem_cons_of_mem hother)

end DumaisLib.JSON.Heap
