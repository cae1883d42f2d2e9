import DumaisLib.JSON.DistinctKeys
import DumaisLib.JSON.Sentinel
import DumaisLib.Lib.Forest

/-!
# Trees in memory

The instances of a document are the cells of a tree.  Making a tree takes fresh
instances, deleting one gives exactly its own back, and a chain of lookups leads
to the instance of the node below the path.
-/

namespace DumaisLib.JSON

open Machine Forest

/-- A document with the tree that it holds, or a node of a tree. -/
inductive Stored where
  | document (contents : Option Node)
  | node (node : Node)

/-- What the body of an instance has of a node; the children are instances of their own. -/
inductive StandsFor : Body → Node → Prop where
  | Object {mMembers : List (Text × Address)} {members : List (Text × Node)} :
      mMembers.map Prod.fst = members.map Prod.fst → (members.map Prod.fst).Nodup →
      StandsFor (.Object mMembers) (.Object members)
  | List {mMembers : List Address} {nodes : List Node} : StandsFor (.List mMembers) (.List nodes)
  | Value {mValue : Text} {mSubType : ValueSubType} :
      StandsFor (.Value mValue mSubType) (.Value mValue mSubType)

/-- How instances stand for documents and nodes. -/
inductive Shape : Address → Instance → Stored → List Address → List Stored → Prop where
  | empty {address : Address} : Shape address ⟨some address, .pure⟩ (.document none) [] []
  | document {address root : Address} {node : Node} :
      Shape address ⟨some root, .pure⟩ (.document (some node)) [root] [.node node]
  | node {address : Address} {body : Body} {node : Node} : StandsFor body node →
      Shape address ⟨some address, body⟩ (.node node) (childrenOf body)
        ((childNodes node).map .node)

theorem StandsFor.ne_pure {body : Body} {node : Node} (hstands : StandsFor body node) :
    body ≠ .pure := by
  cases hstands <;> exact fun heq => by cases heq

/-- The body of a node stands for it when one of its children has changed. -/
theorem StandsFor.mapChild {body : Body} (hstands : StandsFor body node) (change : Node → Node)
    (index : Index) : StandsFor body (node.mapChild change index) := by
  cases hstands with
  | Object hkeys hnodup =>
      cases index with
      | key key =>
          refine .Object ?_ ?_
          · rw [map_fst_mapChild, hkeys]
          · rwa [map_fst_mapChild]
      | index i => exact .Object hkeys hnodup
  | List => cases index <;> exact .List
  | Value => exact .Value

namespace Heap

variable {heap next : Heap} {address reference : Address} {node : Node} {rest : Multiset Nat}

/-! ## Instances as cells -/

theorem instance?_write {found : Instance} (hfound : heap.instance? address = some found)
    (item : Instance) :
    (heap.set address item).instance? = Function.update heap.instance? address (some item) := by
  funext other
  by_cases heq : other = address
  · subst heq
    rw [Function.update_self, instance?_set item hfound]
  · rw [Function.update_of_ne heq, instance?_set_ne item heq]

theorem instance?_free (heap : Heap) (address : Address) :
    (heap.free address).instance? = Function.update heap.instance? address none := by
  funext other
  by_cases heq : other = address
  · subst heq
    rw [Function.update_self, instance?, free, List.getElem?_set]
    simp only [if_true]
    split <;> rfl
  · rw [Function.update_of_ne heq, instance?, free, List.getElem?_set_ne (Ne.symm heq)]
    rfl

theorem instance?_length (heap : Heap) : heap.instance? heap.instances.length = none := by
  rw [instance?, List.getElem?_eq_none (Nat.le_refl _)]
  rfl

theorem instance?_new (heap : Heap) (body : Body) :
    (heap.new body).2.instance? =
      Function.update heap.instance? heap.instances.length
        (some ⟨some heap.instances.length, body⟩) := by
  funext other
  rw [instance?, new]
  dsimp only
  by_cases heq : other = heap.instances.length
  · subst heq
    rw [Function.update_self, List.getElem?_append_right (Nat.le_refl _), Nat.sub_self]
    rfl
  · rw [Function.update_of_ne heq]
    by_cases hlt : other < heap.instances.length
    · rw [List.getElem?_append_left hlt]
      rfl
    · have hbeyond : heap.instances.length < other :=
        Nat.lt_of_le_of_ne (Nat.le_of_not_lt hlt) (Ne.symm heq)
      rw [instance?, List.getElem?_eq_none (Nat.le_of_not_lt hlt), List.getElem?_eq_none]
      rwa [List.length_append, List.length_singleton]

/-- There are no more instances than addresses. -/
theorem card_le {cells : Multiset Nat} (howns : Owns heap.instance? cells) :
    cells.card ≤ heap.instances.length := by
  rw [howns.card_eq]
  exact List.countP_le_length

/-! ## Reading trees -/

theorem mapM_members {mMembers : List (Text × Address)} {members : List (Text × Node)}
    {read : Address → Option Node} (hkeys : mMembers.map Prod.fst = members.map Prod.fst)
    (hread : (mMembers.map Prod.snd).mapM read = some (members.map Prod.snd)) :
    (mMembers.mapM fun member => (read member.2).map (member.1, ·)) = some members := by
  induction mMembers generalizing members with
  | nil =>
      obtain rfl := List.map_eq_nil_iff.mp hkeys.symm
      rfl
  | cons member mMembers ih =>
      obtain _ | ⟨⟨key, node⟩, members⟩ := members
      · cases hkeys
      obtain ⟨hkey, hrest⟩ := List.cons.inj hkeys
      rw [List.map_cons, List.mapM_cons] at hread
      obtain ⟨child, hchild, hread⟩ := Option.bind_eq_some_iff.mp hread
      obtain ⟨children, hchildren, hread⟩ := Option.bind_eq_some_iff.mp hread
      obtain ⟨rfl, rfl⟩ := List.cons.inj (Option.some.inj hread)
      rw [List.mapM_cons, hchild, ih hrest hchildren]
      dsimp only at hkey
      rw [← hkey]
      rfl

/-- The trees below instances are read when there is a call for every instance. -/
theorem mapM_tree {addresses : List Address} {nodes : List Node} {print : Multiset Nat}
    (hholds : Holds Shape heap.instance? addresses (nodes.map .node) print) {fuel : Nat}
    (hfuel : print.card ≤ fuel) : addresses.mapM (tree fuel heap) = some nodes := by
  generalize htrees : nodes.map Stored.node = trees at hholds
  induction hholds generalizing nodes fuel with
  | nil =>
      obtain rfl := List.map_eq_nil_iff.mp htrees
      rfl
  | @cons address _ _ _ _ _ _ _ _ hcell hshape _ _ ihbelow ihbeside =>
      obtain _ | ⟨node, nodes⟩ := nodes
      · cases htrees
      obtain ⟨rfl, hrest⟩ := List.cons.inj htrees
      rw [Multiset.card_cons, Multiset.card_add] at hfuel
      obtain _ | fuel := fuel
      · cases hfuel
      cases hshape with
      | node hstands =>
          have hbelow := @ihbelow (childNodes node) fuel (by omega) rfl
          have hbeside := @ihbeside nodes (fuel + 1) (by omega) hrest
          have hfirst : tree (fuel + 1) heap address = some node := by
            rw [tree, hcell]
            cases hstands with
            | Object hkeys hnodup => simp only [Option.bind_some, mapM_members hkeys hbelow]; rfl
            | List => exact congrArg (Option.map Node.List) hbelow
            | Value => rfl
          rw [List.mapM_cons, hfirst, hbeside]
          rfl

theorem tree_of_holds {print : Multiset Nat}
    (hholds : Holds Shape heap.instance? [address] [.node node] print) {fuel : Nat}
    (hfuel : print.card ≤ fuel) : tree fuel heap address = some node := by
  have hread : [address].mapM (tree fuel heap) = some [node] := mapM_tree hholds hfuel
  rw [List.mapM_cons] at hread
  obtain ⟨found, hfound, hread⟩ := Option.bind_eq_some_iff.mp hread
  rw [hfound]
  exact congrArg List.head? (Option.some.inj hread)

/-! ## Deleting trees -/

/-- Nothing is left of the cells that an operation owned. -/
theorem leaves_nothing {store store' : Nat → Option Instance} (howns : Owns store' rest)
    (hsame : ∀ other ∈ rest, store' other = store other) :
    Leaves Shape store store' rest [] [] 0 :=
  ⟨0, 0, .nil, by rwa [zero_add, zero_add], rfl, hsame⟩

/-- One after the other, the trees are deleted, with their instances and no others. -/
theorem delete_all {store : Nat → Option Instance} {addresses : List Address} {trees : List Stored}
    {print : Multiset Nat} (hholds : Holds Shape store addresses trees print)
    (hnodes : ∀ tree ∈ trees, ∃ node, tree = .node node) {heap : Heap}
    (hsame : ∀ other ∈ print, heap.instance? other = store other) {rest : Multiset Nat}
    (howns : Owns heap.instance? (print + rest)) {fuel : Nat} (hfuel : print.card ≤ fuel) :
    ∃ next, addresses.foldlM (delete fuel) heap = some next ∧ Owns next.instance? rest ∧
      ∀ other ∈ rest, next.instance? other = heap.instance? other := by
  induction hholds generalizing heap rest fuel with
  | nil => exact ⟨heap, rfl, by rwa [zero_add] at howns, fun _ _ => rfl⟩
  | @cons address cell tree parts children addresses trees below beside hcell hshape _ _ ihbelow
      ihbeside =>
      obtain ⟨hnode, hothernodes⟩ := List.forall_mem_cons.mp hnodes
      obtain ⟨hroot, hothers⟩ := agree_cons.mp hsame
      obtain ⟨hbelow, hbeside⟩ := agree_add.mp hothers
      obtain ⟨node, rfl⟩ := hnode
      rw [Multiset.card_cons, Multiset.card_add] at hfuel
      obtain _ | fuel := fuel
      · cases hfuel
      cases hshape with
      | node hstands =>
          have hfuelBelow : below.card ≤ fuel := by omega
          have hfuelBeside : beside.card ≤ fuel + 1 := by omega
          rw [Multiset.cons_add] at howns
          have hfree : ∀ other ∈ below + beside + rest,
              (heap.free address).instance? other = heap.instance? other := by
            intro other hother
            rw [instance?_free, Function.update_of_ne]
            rintro rfl
            exact (Multiset.nodup_cons.mp howns.nodup).1 hother
          obtain ⟨hfirst, hrest⟩ := agree_add.mp hfree
          obtain ⟨hfreeBelow, hfreeBeside⟩ := agree_add.mp hfirst
          have hownsBelow := howns.free
          rw [← instance?_free, add_assoc] at hownsBelow
          obtain ⟨next, hnext, hownsNext, hkept⟩ := ihbelow (by simp)
            (fun other hother => (hfreeBelow other hother).trans (hbelow other hother)) hownsBelow
            hfuelBelow
          obtain ⟨hkeptBeside, hkeptRest⟩ := agree_add.mp hkept
          obtain ⟨last, hlast, hownsLast, hsameLast⟩ := ihbeside hothernodes
            (fun other hother => (hkeptBeside other hother).trans
              ((hfreeBeside other hother).trans (hbeside other hother))) hownsNext
            hfuelBeside
          have hdelete : delete (fuel + 1) heap address = some next := by
            rw [delete, hroot, hcell]
            cases hstands <;> simp only [Option.bind_some, hnext, if_true]
          refine ⟨last, ?_, hownsLast, fun other hother => ?_⟩
          · rw [List.foldlM_cons, hdelete]
            exact hlast
          · exact (hsameLast other hother).trans
              ((hkeptRest other hother).trans (hrest other hother))

theorem delete_tree {print : Multiset Nat}
    (hholds : Holds Shape heap.instance? [address] [.node node] print)
    (howns : Owns heap.instance? (print + rest)) :
    ∃ next, delete (heap.instances.length + 1) heap address = some next ∧
      Leaves Shape heap.instance? next.instance? rest [] [] 0 := by
  have hcard := card_le howns
  rw [Multiset.card_add] at hcard
  have hfuel : print.card ≤ heap.instances.length + 1 := by omega
  obtain ⟨next, hnext, hownsNext, hsame⟩ :=
    delete_all hholds (by simp) (fun _ _ => rfl) howns hfuel
  refine ⟨next, ?_, leaves_nothing hownsNext hsame⟩
  rw [List.foldlM_cons] at hnext
  obtain ⟨only, honly, hlast⟩ := Option.bind_eq_some_iff.mp hnext
  rw [honly]
  exact hlast

/-! ## Making trees -/

/-- The trees that `new` makes of nodes lie in fresh instances. -/
def Makes (node : Node) : Prop :=
  ∀ {heap : Heap} {rest : Multiset Nat}, Owns heap.instance? rest →
    Leaves Shape heap.instance? (heap.newTree node).2.instance? rest [(heap.newTree node).1]
      [.node node] 0

theorem new_leaves {store : Nat → Option Instance} {body : Body}
    (hleaves : Leaves Shape store heap.instance? rest (childrenOf body)
      ((childNodes node).map .node) 0) (hstands : StandsFor body node) :
    Leaves Shape store (heap.new body).2.instance? rest [(heap.new body).1] [.node node] 0 := by
  rw [instance?_new]
  exact hleaves.alloc (instance?_length heap) (.node hstands)

theorem newElements_leaves {nodes : List Node} (hmakes : ∀ node ∈ nodes, Makes node) {heap : Heap}
    (howns : Owns heap.instance? rest) :
    Leaves Shape heap.instance? (newElements heap nodes).2.instance? rest (newElements heap nodes).1
      (nodes.map .node) 0 := by
  induction nodes generalizing heap rest with
  | nil => exact leaves_nothing howns fun _ _ => rfl
  | cons node nodes ih =>
      obtain ⟨hfirst, hmakes⟩ := List.forall_mem_cons.mp hmakes
      exact (hfirst howns).append fun cells hcells => ih hmakes hcells

theorem newMembers_leaves {members : List (Text × Node)}
    (hmakes : ∀ member ∈ members, Makes member.2) {heap : Heap} (howns : Owns heap.instance? rest) :
    (newMembers heap members).1.map Prod.fst = members.map Prod.fst ∧
      Leaves Shape heap.instance? (newMembers heap members).2.instance? rest
        ((newMembers heap members).1.map Prod.snd) ((members.map Prod.snd).map .node) 0 := by
  induction members generalizing heap rest with
  | nil => exact ⟨rfl, leaves_nothing howns fun _ _ => rfl⟩
  | cons member members ih =>
      obtain ⟨key, node⟩ := member
      obtain ⟨hfirst, hmakes⟩ := List.forall_mem_cons.mp hmakes
      refine ⟨?_, (hfirst howns).append fun cells hcells => (ih hmakes hcells).2⟩
      obtain ⟨cells, hcells⟩ := (hfirst howns).owns
      exact congrArg (key :: ·) (ih hmakes hcells).1

theorem newTree_leaves (hdistinct : node.DistinctKeys) : Makes node := by
  induction node using Node.children_induction with
  | object mMembers ih =>
      cases hdistinct with
      | object hnodup hchildren =>
          intro heap rest howns
          obtain ⟨hkeys, hleaves⟩ := newMembers_leaves
            (fun member hmember => ih member hmember (hchildren member hmember)) howns
          have hstands : StandsFor (.Object (newMembers heap mMembers).1) (.Object mMembers) :=
            .Object hkeys hnodup
          refine new_leaves ?_ hstands
          exact hleaves
  | list mMembers ih =>
      cases hdistinct with
      | list hchildren =>
          intro heap rest howns
          have hleaves := newElements_leaves
            (fun child hchild => ih child hchild (hchildren child hchild)) howns
          have hstands : StandsFor (.List (newElements heap mMembers).1) (.List mMembers) := .List
          refine new_leaves ?_ hstands
          exact hleaves
  | value mValue mSubType =>
      intro heap rest howns
      exact new_leaves (leaves_nothing howns fun _ _ => rfl) .Value

/-! ## Lookups -/

theorem root_node {body : Body} (hcell : heap.instance? address = some ⟨some address, body⟩) :
    heap.root? address = some (address, ⟨some address, body⟩) := by
  simp [root?, hcell]

/-- A lookup finds the part in the place of the child. -/
theorem lookup_node {body : Body} (hcell : heap.instance? address = some ⟨some address, body⟩)
    (hstands : StandsFor body node) (hlength : (childrenOf body).length = (childNodes node).length)
    (index : Index) :
    heap.lookup address index =
      some (((node.slot? index).bind fun i => (childrenOf body)[i]?).getD mInvalid) := by
  rw [lookup, root_node hcell]
  cases hstands with
  | @Object mMembers members hkeys hnodup =>
      cases index with
      | key key =>
          simp only [Option.map_some, Node.slot?, ← hkeys, childrenOf, lookup_eq_idxOf]
      | index i => rfl
  | @List mMembers nodes =>
      cases index with
      | key key => rfl
      | index i =>
          simp only [Option.map_some, Node.slot?, childrenOf]
          split
          · rfl
          · rename_i hlt
            rw [List.getElem?_eq_none]
            · rfl
            · rw [show mMembers.length = nodes.length from hlength]
              exact Nat.le_of_not_lt hlt
  | Value => rfl

theorem lookup_invalid (hintact : heap.Intact) (index : Index) :
    heap.lookup mInvalid index = some mInvalid := by
  rw [lookup, hintact.root?]
  rfl

theorem locate_invalid (hintact : heap.Intact) (path : Path) :
    heap.locate mInvalid path = some mInvalid := by
  induction path with
  | nil => rfl
  | cons index path ih =>
      rw [locate, List.foldlM_cons, lookup_invalid hintact]
      exact ih

theorem locate_cons (heap : Heap) (address : Address) (index : Index) (path : Path) :
    heap.locate address (index :: path) = (heap.lookup address index).bind (heap.locate · path) :=
  List.foldlM_cons

/-- What a chain of lookups leads to in the tree of a node. -/
inductive Found (heap : Heap) (address : Address) (node : Node) (print : Multiset Nat) (path : Path) :
    Prop where
  | missing : heap.locate address path = some mInvalid → node.below? path = none →
      Found heap address node print path
  | found {reference : Address} {below : Node} {inner outer : Multiset Nat} :
      heap.locate address path = some reference → node.below? path = some below →
      print = inner + outer → Holds Shape heap.instance? [reference] [.node below] inner →
      (∀ change : Node → Node, Completes Shape heap.instance? reference (.node (change below))
        [address] [.node (node.mapBelow change path)] outer) →
      Found heap address node print path

theorem found_of_holds (hintact : heap.Intact) (hdistinct : node.DistinctKeys) {print : Multiset Nat}
    (hholds : Holds Shape heap.instance? [address] [.node node] print) (path : Path) :
    Found heap address node print path := by
  induction path generalizing address node print with
  | nil =>
      exact .found rfl rfl (add_zero print).symm hholds fun change => .self _ _ _
  | cons index path ih =>
      obtain ⟨_, _, _, below, hcell, hshape, hbelow, rfl⟩ := hholds.single_cases
      cases hshape with
      | @node body _ hstands =>
          have hlength := hbelow.length_eq
          rw [List.length_map] at hlength
          have hlookup := lookup_node hcell hstands hlength index
          cases hchild : node.child? index with
          | none =>
              have hnone : ((node.slot? index).bind fun i => (childrenOf body)[i]?) = none := by
                rw [child_eq_slot] at hchild
                cases hslot : node.slot? index with
                | none => rfl
                | some i =>
                    rw [hslot, Option.bind_some, List.getElem?_eq_none_iff, ← hlength] at hchild
                    exact List.getElem?_eq_none hchild
              refine .missing ?_ ?_
              · rw [locate_cons, hlookup, hnone]
                exact locate_invalid hintact path
              · rw [below_cons, hchild]
                rfl
          | some child =>
              obtain ⟨i, hslot, hget⟩ := slot_of_child hchild
              have hstored : ((childNodes node).map Stored.node)[i]? = some (.node child) := by
                rw [List.getElem?_map, hget]
                rfl
              obtain ⟨part, inner, outer, hpart, rfl, hinner, -, hcompletes⟩ := hbelow.at hstored
              rw [hslot, Option.bind_some, hpart, Option.getD_some] at hlookup
              have hlocate : heap.locate address (index :: path) = heap.locate part path := by
                rw [locate_cons, hlookup]
                rfl
              have hpath : node.below? (index :: path) = child.below? path := by
                rw [below_cons, hchild]
                rfl
              rcases ih (hdistinct.child hchild) hinner with ⟨hinvalid, hmissing⟩ |
                @⟨reference, found, inner', outer', hreference, hfound, rfl, hholds', hcompletes'⟩
              · exact .missing (hlocate.trans hinvalid) (hpath.trans hmissing)
              · have hprint : address ::ₘ (inner' + outer' + outer) =
                    inner' + (outer' + address ::ₘ outer) := by
                  rw [add_assoc, Multiset.add_cons, Multiset.add_cons]
                refine .found (hlocate.trans hreference) (hpath.trans hfound) hprint hholds'
                  fun change => ?_
                have hchildren : childNodes (node.mapBelow change (index :: path)) =
                    (childNodes node).set i (child.mapBelow change path) :=
                  childNodes_mapChild hdistinct hslot hget
                have hshape : Shape address ⟨some address, body⟩
                    (.node (node.mapBelow change (index :: path))) (childrenOf body)
                    ((childNodes (node.mapBelow change (index :: path))).map .node) :=
                  .node (hstands.mapChild (Node.mapBelow change path) index)
                rw [hchildren, List.map_set] at hshape
                have hplace := hcompletes part (.node (child.mapBelow change path))
                rw [set_of_getElem? hpart] at hplace
                exact (hcompletes' change).trans (.below hcell hshape hplace)

end Heap

end DumaisLib.JSON
