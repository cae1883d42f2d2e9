import DumaisLib.JSON.Changes

/-!
# Documents in memory

A document is a pure instance, which forwards what is asked of it to the root of
the tree that it holds.  A reference shows the tree below the node it leads to, or
nothing when it leads to a pure instance.
-/

namespace DumaisLib.JSON.Heap

open Machine Forest

variable {heap next : Heap} {address reference : Address} {node : Node}
variable {print rest : Multiset Nat}

/-- The tree that a reference shows, none when it shows a pure instance. -/
def contents (heap : Heap) (reference : Address) : Option (Option Node) :=
  (heap.root? reference).bind fun found =>
    match found.2.body with
    | .pure => some none
    | _ => (tree (heap.instances.length + 1) heap found.1).map some

theorem contents_node (hholds : Holds Shape heap.instance? [address] [.node node] print)
    (howns : Owns heap.instance? (print + rest)) : heap.contents address = some (some node) := by
  have hcard := card_le howns
  rw [Multiset.card_add] at hcard
  have hfuel : print.card ≤ heap.instances.length + 1 := by omega
  have hread := tree_of_holds hholds hfuel
  obtain ⟨_, _, _, below, hcell, hshape, -, rfl⟩ := hholds.single_cases
  cases hshape with
  | node hstands =>
      rw [contents, root_node hcell]
      cases hstands <;> simp only [Option.bind_some, hread, Option.map_some]

theorem contents_invalid (hintact : heap.Intact) : heap.contents mInvalid = some none := by
  rw [contents, hintact.root?]
  rfl

/-! ## Trees have distinct keys -/

theorem distinctKeys_of_holds {store : Nat → Option Instance} {addresses : List Address}
    {trees : List Stored} (hholds : Holds Shape store addresses trees print) :
    ∀ node, .node node ∈ trees → node.DistinctKeys := by
  induction hholds with
  | nil => exact fun node hmem => absurd hmem List.not_mem_nil
  | cons _ hshape _ _ ihbelow ihbeside =>
      intro node hmem
      rcases List.mem_cons.mp hmem with rfl | hmem
      · cases hshape with
        | node hstands =>
            cases hstands with
            | Object hkeys hnodup =>
                refine .object hnodup fun member hmember => ihbelow member.2 ?_
                exact List.mem_map.mpr ⟨_, List.mem_map.mpr ⟨member, hmember, rfl⟩, rfl⟩
            | List =>
                exact .list fun child hchild => ihbelow child (List.mem_map.mpr ⟨child, hchild, rfl⟩)
            | Value => exact .value
      · exact ihbeside node hmem

theorem distinctKeys_of_node {store : Nat → Option Instance}
    (hholds : Holds Shape store [address] [.node node] print) : node.DistinctKeys :=
  distinctKeys_of_holds hholds node (List.mem_singleton_self _)

/-! ## Documents and their roots -/

/-- A document that holds a tree forwards everything to its root. -/
structure Root (heap : Heap) (document root : Address) : Prop where
  cell : heap.instance? document = some ⟨some root, .pure⟩
  ne : root ≠ document
  same : heap.root? document = heap.root? root
  solid : ∃ body, heap.instance? root = some ⟨some root, body⟩ ∧ body ≠ .pure

theorem root_of_document (hholds : Holds Shape heap.instance? [address] [.document (some node)] print)
    (howns : Owns heap.instance? (print + rest)) :
    ∃ root below, heap.Root address root ∧ print = address ::ₘ below ∧
      Holds Shape heap.instance? [root] [.node node] below := by
  obtain ⟨_, _, _, below, hcell, hshape, hbelow, rfl⟩ := hholds.single_cases
  cases hshape with
  | @document root _ =>
      obtain ⟨_, _, _, inner, hroot, hnode, hinner, rfl⟩ := hbelow.single_cases
      refine ⟨root, _, ⟨hcell, ?_, ?_, ?_⟩, rfl, hbelow⟩
      · rintro rfl
        have hnodup := howns.nodup
        rw [Multiset.cons_add, Multiset.nodup_cons] at hnodup
        exact hnodup.1 (Multiset.mem_add.mpr (.inl (Multiset.mem_cons_self _ _)))
      · cases hnode with
        | node hstands =>
            rw [root_node hroot]
            simp [root?, hcell, hroot]
      · cases hnode with
        | node hstands => exact ⟨_, hroot, hstands.ne_pure⟩

theorem Root.locate_cons {root : Address} (hroot : heap.Root address root) (index : Index)
    (path : Path) : heap.locate address (index :: path) = heap.locate root (index :: path) := by
  rw [Heap.locate_cons, Heap.locate_cons, lookup, lookup, hroot.same]

/-- Every lookup in a document that holds nothing finds the document. -/
theorem locate_empty (hcell : heap.instance? address = some ⟨some address, .pure⟩) (path : Path) :
    heap.locate address path = some address := by
  induction path with
  | nil => rfl
  | cons index path ih =>
      rw [locate_cons, lookup, root_node hcell]
      exact ih

theorem cell_of_empty (hholds : Holds Shape heap.instance? [address] [.document none] print) :
    heap.instance? address = some ⟨some address, .pure⟩ ∧ print = address ::ₘ 0 := by
  obtain ⟨_, _, _, below, hcell, hshape, hbelow, rfl⟩ := hholds.single_cases
  cases hshape
  cases hbelow
  exact ⟨hcell, rfl⟩

/-- What is found below a path is shown, as long as the document is not changed. -/
theorem contents_located (hintact : heap.Intact) {held : Option Node}
    (hholds : Holds Shape heap.instance? [address] [.document held] print)
    (howns : Owns heap.instance? (print + rest)) (path : Path) :
    ∃ reference, heap.locate address path = some reference ∧ ∀ {later : Heap} {others},
      later.Intact → (∀ other ∈ print, later.instance? other = heap.instance? other) →
      Owns later.instance? (print + others) →
      later.contents reference = some (held.bind (Node.below? path)) := by
  cases held with
  | none =>
      obtain ⟨hcell, rfl⟩ := cell_of_empty hholds
      refine ⟨address, locate_empty hcell path, fun _ hsame _ => ?_⟩
      rw [contents, root_node ((hsame address (Multiset.mem_cons_self _ _)).trans hcell)]
      rfl
  | some node =>
      obtain ⟨root, below, hroot, rfl, hnode⟩ := root_of_document hholds howns
      cases path with
      | nil =>
          refine ⟨address, rfl, fun _ hsame hlater => ?_⟩
          obtain ⟨root', below', hroot', heq, hnode'⟩ := root_of_document (hholds.frame hsame) hlater
          rw [contents, hroot'.same]
          rw [heq, Multiset.cons_add, ← Multiset.add_cons] at hlater
          exact contents_node hnode' hlater
      | cons index path =>
          rw [hroot.locate_cons]
          rcases found_of_holds hintact (distinctKeys_of_node hnode) hnode (index :: path) with
            ⟨hinvalid, hmissing⟩ | ⟨hreference, hfound, rfl, hinner, -⟩
          · refine ⟨mInvalid, hinvalid, fun hlater _ _ => ?_⟩
            rw [contents_invalid hlater, Option.bind_some, hmissing]
          · refine ⟨_, hreference, fun _ hsame hlater => ?_⟩
            rw [Multiset.cons_add, ← Multiset.add_cons, add_assoc] at hlater
            obtain ⟨hinnerSame, -⟩ := agree_add.mp (agree_cons.mp hsame).2
            rw [contents_node (hinner.frame hinnerSame) hlater, Option.bind_some, hfound]

end DumaisLib.JSON.Heap
