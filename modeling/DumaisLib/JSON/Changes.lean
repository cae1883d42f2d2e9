import DumaisLib.JSON.Memory

/-!
# Changes in memory

A member that is added, a value that is assigned and a document that takes
another tree touch the instances of that document only.
-/

namespace DumaisLib.JSON

open Machine Forest

/-! ## Sizes -/

mutual

/-- The number of nodes of a tree. -/
def Node.size : Node → Nat
  | .Object mMembers => sizeMembers mMembers + 1
  | .List mMembers => sizeElements mMembers + 1
  | .Value _ _ => 1

def sizeMembers : List (Text × Node) → Nat
  | [] => 0
  | (_, child) :: members => child.size + sizeMembers members

def sizeElements : List Node → Nat
  | [] => 0
  | child :: elements => child.size + sizeElements elements

end

/-- A document is an instance itself. -/
def Stored.size : Stored → Nat
  | .document none => 1
  | .document (some root) => root.size + 1
  | .node item => item.size

theorem sizeElements_eq (nodes : List Node) :
    sizeElements nodes = ((nodes.map .node).map Stored.size).sum := by
  induction nodes with
  | nil => rfl
  | cons child nodes ih =>
      rw [sizeElements, ih]
      rfl

theorem sizeMembers_eq (members : List (Text × Node)) :
    sizeMembers members = sizeElements (members.map Prod.snd) := by
  induction members with
  | nil => rfl
  | cons member members ih =>
      obtain ⟨key, child⟩ := member
      rw [sizeMembers, ih]
      rfl

theorem size_eq (node : Node) :
    node.size = (((childNodes node).map .node).map Stored.size).sum + 1 := by
  cases node with
  | Object mMembers => rw [Node.size, sizeMembers_eq, sizeElements_eq]; rfl
  | List mMembers => rw [Node.size, sizeElements_eq]; rfl
  | Value mValue mSubType => rfl

/-- A tree takes as many instances as it has nodes. -/
theorem card_of_holds {store : Nat → Option Instance} {addresses : List Address}
    {trees : List Stored} {print : Multiset Nat}
    (hholds : Holds Shape store addresses trees print) :
    print.card = (trees.map Stored.size).sum := by
  let count : List Stored → Nat := fun trees => (trees.map Stored.size).sum
  have hcount : print.card = count trees := by
    refine hholds.card_eq rfl fun hshape others => ?_
    rw [Nat.add_right_comm]
    cases hshape with
    | empty => rfl
    | document => rfl
    | node hstands =>
        rw [← size_eq]
        rfl
  exact hcount

/-! ## Members in their places -/

section Put

variable {α : Type} {put : List (Text × α) → List (Text × α)} {key : Text} {value : α}
  (hnil : put [] = [(key, value)])
  (hcons : ∀ member mMembers, put (member :: mMembers) =
    if member.1 = key then (key, value) :: mMembers else member :: put mMembers)

include hnil hcons in
theorem put_fresh {mMembers : List (Text × α)}
    (hslot : (mMembers.map Prod.fst).idxOf? key = none) :
    put mMembers = mMembers ++ [(key, value)] := by
  rw [List.idxOf?_eq_none_iff] at hslot
  induction mMembers with
  | nil => exact hnil
  | cons member mMembers ih =>
      obtain ⟨hfirst, hrest⟩ := not_or.mp (List.mem_cons.not.mp hslot)
      rw [hcons, if_neg (Ne.symm hfirst), ih hrest, List.cons_append]

include hcons in
theorem put_slot {mMembers : List (Text × α)} {i : Nat}
    (hslot : (mMembers.map Prod.fst).idxOf? key = some i) :
    put mMembers = mMembers.set i (key, value) := by
  induction mMembers generalizing i with
  | nil => cases hslot
  | cons member mMembers ih =>
      rw [List.map_cons, List.idxOf?_cons] at hslot
      rw [hcons]
      by_cases hkey : member.1 = key
      · rw [if_pos (by simpa using hkey)] at hslot
        obtain rfl := Option.some.inj hslot
        rw [if_pos hkey]
        rfl
      · rw [if_neg (by simpa using hkey)] at hslot
        obtain ⟨j, hj, rfl⟩ := Option.map_eq_some_iff.mp hslot
        rw [if_neg hkey, ih hj]
        rfl

end Put

/-- The key of a new member depends on the keys that there are. -/
theorem keyFor_congr {mMembers mMembers' : List (Text × Node)}
    (hkeys : mMembers.map Prod.fst = mMembers'.map Prod.fst) (name : Text) :
    keyFor name mMembers = keyFor name mMembers' := by
  have hlength := congrArg List.length hkeys
  rw [List.length_map, List.length_map] at hlength
  rw [keyFor, keyFor, generateKey, generateKey, hlength]
  congr 4
  funext i
  rw [generateKeyTurn, generateKeyTurn, hkeys]

/-! ## New members -/

/-- A new value deletes the member that it replaces; a new object or list does not. -/
def Addition.deletes : Addition → Bool
  | .addValue _ _ => true
  | _ => false

/-- The number of nodes that an addition to a node leaves without an owner. -/
def Node.leaks (addition : Addition) : Node → Nat
  | .Object mMembers =>
      if addition.deletes then 0
      else ((mMembers.lookup (keyFor addition.name mMembers)).map Node.size).getD 0
  | _ => 0

/-! ## Assigned values -/

def Body.value? : Body → Option Node
  | .Value mValue mSubType => some (.Value mValue mSubType)
  | _ => none

/-- Objects and lists ignore the call. -/
def Node.assignScalar (val : Scalar) : Node → Node
  | .Value mValue mSubType => val.assigned.value?.getD (.Value mValue mSubType)
  | node => node

theorem standsFor_assigned (val : Scalar) (mValue : Text) (mSubType : ValueSubType) :
    StandsFor val.assigned ((Node.Value mValue mSubType).assignScalar val) ∧
      childrenOf val.assigned = [] ∧
        childNodes ((Node.Value mValue mSubType).assignScalar val) = [] := by
  cases val <;> exact ⟨.Value, rfl, rfl⟩

namespace Heap

variable {heap next : Heap} {address reference : Address} {node : Node} {rest : Multiset Nat}

/-- The member that a new one replaces is deleted, or its instances are lost. -/
theorem replaced_leaves {inner : Multiset Nat} {old : Address} {child : Node} (addition : Addition)
    (hholds : Holds Shape heap.instance? [old] [.node child] inner)
    (howns : Owns heap.instance? (inner + rest)) :
    ∃ next, heap.replaced addition (some old) = some next ∧
      Leaves Shape heap.instance? next.instance? rest [] []
        (if addition.deletes then 0 else child.size) := by
  have hlost := (leaves_nothing howns fun _ _ => rfl).lose
  have hcard : 0 + inner.card = child.size := by
    rw [Nat.zero_add, card_of_holds hholds]
    rfl
  cases addition with
  | addValue val name => exact delete_tree hholds howns
  | addObject name => exact ⟨heap, rfl, hcard ▸ hlost⟩
  | addList name => exact ⟨heap, rfl, hcard ▸ hlost⟩

/-- The instance of a node gets other children. -/
theorem write_body {body body' : Body} {node' : Node} {leaked : Nat}
    (hcell : heap.instance? address = some ⟨some address, body⟩)
    (hleaves : Leaves Shape heap.instance? next.instance? (address ::ₘ rest) (childrenOf body')
      ((childNodes node').map .node) leaked) (hstands : StandsFor body' node') :
    Leaves Shape heap.instance? (next.set address ⟨some address, body'⟩).instance? rest [address]
      [.node node'] leaked := by
  have hfound := (hleaves.same address (Multiset.mem_cons_self _ _)).trans hcell
  rw [instance?_write hfound]
  exact hleaves.write (.node hstands)

/-- An object with a new member: the key is fresh, or the member in its place is replaced. -/
theorem add_object {mMembers : List (Text × Address)} {members : List (Text × Node)}
    {below : Multiset Nat} (hcell : heap.instance? address = some ⟨some address, .Object mMembers⟩)
    (hkeys : mMembers.map Prod.fst = members.map Prod.fst) (hnodup : (members.map Prod.fst).Nodup)
    (hbelow : Holds Shape heap.instance? (mMembers.map Prod.snd)
      ((members.map Prod.snd).map .node) below)
    (howns : Owns heap.instance? (below + address ::ₘ rest)) (addition : Addition) {key : Text}
    (hkey : keyFor addition.name members = key) :
    ∃ cleared, heap.replaced addition (mMembers.lookup key) = some cleared ∧
      Leaves Shape heap.instance? ((cleared.newTree addition.node).2.set address
        ⟨some address, .Object (assignAddress key (cleared.newTree addition.node).1 mMembers)⟩).instance?
        rest [address] [.node (.Object (JSON.assign key addition.node members))]
        ((Node.Object members).leaks addition) := by
  have hmakes : Makes addition.node := newTree_leaves (distinctKeys_kept.addition addition)
  have hnew := nodup_assign hnodup key addition.node
  rw [lookup_eq_idxOf, hkeys]
  cases hslot : (members.map Prod.fst).idxOf? key with
  | none =>
      have hleaks : (Node.Object members).leaks addition = 0 := by
        rw [Node.leaks, hkey, lookup_eq_idxOf, hslot]
        exact ite_self 0
      have hreplaced : heap.replaced addition none = some heap := by
        cases addition <;> rfl
      refine ⟨heap, hreplaced, ?_⟩
      have hassign : JSON.assign key addition.node members = members ++ [(key, addition.node)] :=
        @put_fresh _ (JSON.assign key addition.node) _ _ rfl (fun _ _ => rfl) _ hslot
      have haddress : assignAddress key (heap.newTree addition.node).1 mMembers =
          mMembers ++ [(key, (heap.newTree addition.node).1)] :=
        @put_fresh _ (assignAddress key (heap.newTree addition.node).1) _ _ rfl (fun _ _ => rfl) _
          (by rw [hkeys, hslot])
      rw [hassign] at hnew ⊢
      rw [haddress, hleaks]
      refine write_body hcell ?_ (.Object ?_ hnew)
      · rw [childrenOf, childNodes, List.map_append, List.map_append, List.map_append]
        exact (hmakes howns).plug (hbelow.completes_append _ _)
      · rw [List.map_append, List.map_append, hkeys]
        rfl
  | some i =>
      have hlt : i < members.length := by
        obtain ⟨hlt, -⟩ := List.idxOf?_eq_some_iff.mp hslot
        rwa [List.length_map] at hlt
      have hstored : ((members.map Prod.snd).map Stored.node)[i]? = some (.node members[i].2) := by
        simp [hlt]
      obtain ⟨old, inner, outer, hold, rfl, hinner, -, hcompletes⟩ := hbelow.at hstored
      have hleaks : (Node.Object members).leaks addition =
          if addition.deletes then 0 else members[i].2.size := by
        rw [Node.leaks, hkey, lookup_eq_idxOf, hslot]
        simp [hlt]
      rw [add_assoc] at howns
      obtain ⟨cleared, hcleared, hleaves⟩ := replaced_leaves addition hinner howns
      refine ⟨cleared, by rw [Option.bind_some, hold, hcleared], ?_⟩
      have hassign : JSON.assign key addition.node members = members.set i (key, addition.node) :=
        @put_slot _ (JSON.assign key addition.node) _ _ (fun _ _ => rfl) _ _ hslot
      have haddress : assignAddress key (cleared.newTree addition.node).1 mMembers =
          mMembers.set i (key, (cleared.newTree addition.node).1) :=
        @put_slot _ (assignAddress key (cleared.newTree addition.node).1) _ _ (fun _ _ => rfl) _ _
          (by rw [hkeys, hslot])
      rw [hassign] at hnew ⊢
      rw [haddress, hleaks]
      refine write_body hcell ?_ (.Object ?_ hnew)
      · rw [childrenOf, childNodes, List.map_set, List.map_set, List.map_set]
        exact (hleaves.append fun cells hcells => hmakes hcells).plug (hcompletes _ _)
      · rw [List.map_set, List.map_set, hkeys]

/-- A call of `addObject`, `addList` or `addValue` on a node. -/
theorem addFrom_node {print : Multiset Nat}
    (hholds : Holds Shape heap.instance? [address] [.node node] print)
    (howns : Owns heap.instance? (print + rest)) (addition : Addition) (fuel : Nat) :
    ∃ child next, addFrom (fuel + 1) heap address addition = some (child, next) ∧
      Leaves Shape heap.instance? next.instance? rest [address] [.node (node.add addition)]
        (node.leaks addition) := by
  obtain ⟨_, _, _, below, hcell, hshape, hbelow, rfl⟩ := hholds.single_cases
  rw [addFrom, hcell]
  cases hshape with
  | node hstands =>
      cases hstands with
      | @Object mMembers members hkeys hnodup =>
          have hkey : keyFor addition.name (mMembers.map fun member => (member.1, Node.Object [])) =
              keyFor addition.name members := by
            refine keyFor_congr ?_ _
            rw [List.map_map]
            exact hkeys
          rw [Multiset.cons_add, ← Multiset.add_cons] at howns
          obtain ⟨cleared, hcleared, hleaves⟩ :=
            add_object hcell hkeys hnodup hbelow howns addition rfl
          refine ⟨(cleared.newTree addition.node).1, _, ?_, hleaves⟩
          simp only [Option.bind_some, hkey, hcleared]
          rfl
      | @List mMembers nodes =>
          rw [Multiset.cons_add, ← Multiset.add_cons] at howns
          have hmakes : Makes addition.node := newTree_leaves (distinctKeys_kept.addition addition)
          have hchildren : childNodes ((Node.List nodes).add addition) = nodes ++ [addition.node] := rfl
          refine ⟨_, _, rfl, write_body hcell ?_ .List⟩
          rw [childrenOf, hchildren, List.map_append]
          exact (hmakes howns).plug (hbelow.completes_append _ _)
      | Value => exact ⟨_, _, rfl, hholds.leaves howns⟩

theorem assignScalar_node {print : Multiset Nat}
    (hholds : Holds Shape heap.instance? [address] [.node node] print)
    (howns : Owns heap.instance? (print + rest)) (val : Scalar) :
    ∃ next, heap.assignScalar address val = some next ∧
      Leaves Shape heap.instance? next.instance? rest [address] [.node (node.assignScalar val)] 0 := by
  obtain ⟨_, _, _, below, hcell, hshape, hbelow, rfl⟩ := hholds.single_cases
  cases hshape with
  | node hstands =>
      rw [Heap.assignScalar, root_node hcell]
      cases hstands with
      | Object hkeys hnodup => exact ⟨heap, rfl, hholds.leaves howns⟩
      | List => exact ⟨heap, rfl, hholds.leaves howns⟩
      | @Value mValue mSubType =>
          obtain ⟨hassigned, hparts, hchildren⟩ := standsFor_assigned val mValue mSubType
          refine ⟨_, rfl, write_body hcell ?_ hassigned⟩
          cases hbelow
          rw [hparts, hchildren]
          exact leaves_nothing howns fun _ _ => rfl

end Heap

end DumaisLib.JSON
