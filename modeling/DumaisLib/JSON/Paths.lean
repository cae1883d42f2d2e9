import DumaisLib.JSON.Printing
import DumaisLib.JSON.RoundTrip

/-!
# Changes below a path

A node below the root is replaced by another one: it is found where it was, what
can be printed can still be, and the tree grows by one level at most.
-/

namespace DumaisLib.JSON

variable {change : Node → Node}

theorem lookup_mapped {key : Text} {child : Node} {mMembers : List (Text × Node)}
    (hlookup : mMembers.lookup key = some child) :
    (mMembers.map fun member => if member.1 = key then (member.1, change member.2) else member).lookup
      key = some (change child) := by
  induction mMembers with
  | nil => cases hlookup
  | cons member mMembers ih =>
      obtain ⟨name, node⟩ := member
      by_cases hkey : name = key
      · subst hkey
        rw [List.lookup_cons_self] at hlookup
        rw [List.map_cons, if_pos rfl, List.lookup_cons_self, Option.some.inj hlookup]
      · have hne : (key == name) = false := beq_eq_false_iff_ne.mpr (Ne.symm hkey)
        rw [List.lookup_cons, hne] at hlookup
        rw [List.map_cons, if_neg hkey, List.lookup_cons, hne]
        exact ih hlookup

theorem child_mapChild {node child : Node} {index : Index} (hchild : node.child? index = some child) :
    (node.mapChild change index).child? index = some (change child) := by
  cases node with
  | Object mMembers =>
      cases index with
      | key key => exact lookup_mapped hchild
      | index i => cases hchild
  | List mMembers =>
      cases index with
      | key key => cases hchild
      | index i =>
          have hget : mMembers[i]? = some child := hchild
          simp [Node.mapChild, Node.child?, hget]
  | Value mValue mSubType => cases hchild

theorem below_cons (node : Node) (index : Index) (path : Path) :
    node.below? (index :: path) = (node.child? index).bind (Node.below? path) :=
  List.foldlM_cons

theorem below_append (node : Node) (path rest : Path) :
    node.below? (path ++ rest) = (node.below? path).bind (Node.below? rest) :=
  List.foldlM_append

/-- The changed node is found where the old one was. -/
theorem below_mapBelow {node found : Node} {path : Path} (hfound : node.below? path = some found)
    (rest : Path) : (node.mapBelow change path).below? (path ++ rest) = (change found).below? rest := by
  induction path generalizing node with
  | nil =>
      obtain rfl := Option.some.inj hfound
      rfl
  | cons index path ih =>
      rw [below_cons] at hfound
      obtain ⟨child, hchild, hrest⟩ := Option.bind_eq_some_iff.mp hfound
      rw [List.cons_append, below_cons, Node.mapBelow, child_mapChild hchild]
      exact ih hrest

theorem member_of_lookup {α : Type} {key : Text} {child : α} {mMembers : List (Text × α)}
    (hlookup : mMembers.lookup key = some child) : (key, child) ∈ mMembers := by
  obtain ⟨before, after, rfl, -⟩ := List.lookup_eq_some_iff.mp hlookup
  exact List.mem_append_right _ List.mem_cons_self

theorem lookup_of_member {key : Text} {child : Node} {mMembers : List (Text × Node)}
    (hnodup : (mMembers.map Prod.fst).Nodup) (hmember : (key, child) ∈ mMembers) :
    mMembers.lookup key = some child := by
  induction mMembers with
  | nil => cases hmember
  | cons member mMembers ih =>
      obtain ⟨hfresh, hrest⟩ := List.nodup_cons.mp hnodup
      rcases List.mem_cons.mp hmember with rfl | hlater
      · exact List.lookup_cons_self
      · have hne : (key == member.1) = false := by
          rw [beq_eq_false_iff_ne]
          rintro rfl
          exact hfresh (List.mem_map.mpr ⟨_, hlater, rfl⟩)
        rw [List.lookup_cons, hne]
        exact ih hrest hlater

/-! ## What can be printed -/

theorem map_fst_mapChild (key : Text) (mMembers : List (Text × Node)) :
    (mMembers.map fun member => if member.1 = key then (member.1, change member.2) else member).map
      Prod.fst = mMembers.map Prod.fst := by
  rw [List.map_map]
  refine List.map_congr_left fun member _ => ?_
  simp only [Function.comp_apply]
  split <;> rfl

theorem Node.Printable.mapChild {node : Node} (hprintable : node.Printable) {index : Index}
    (hchange : ∀ child, node.child? index = some child → child.Printable → (change child).Printable) :
    (node.mapChild change index).Printable := by
  cases hprintable with
  | object hnodup hkeys hchildren =>
      cases index with
      | key key =>
          refine .object (by rwa [map_fst_mapChild])
            (forall_mem_mapKey hkeys fun child hmember => hkeys (key, child) hmember)
            (forall_mem_mapKey hchildren fun child hmember => ?_)
          exact hchange child (lookup_of_member hnodup hmember) (hchildren _ hmember)
      | index i => exact .object hnodup hkeys hchildren
  | list hchildren =>
      cases index with
      | key key => exact .list hchildren
      | index i =>
          refine .list (forall_mem_modify hchildren fun child hget => ?_)
          exact hchange child hget (hchildren child (List.mem_of_getElem? hget))
  | value hvalue => exact .value hvalue

/-- A change that leaves the node at the path printable leaves the whole tree so. -/
theorem Node.Printable.mapBelow {path : Path} {node : Node} (hprintable : node.Printable)
    (hchange : ∀ found, node.below? path = some found → found.Printable → (change found).Printable) :
    (node.mapBelow change path).Printable := by
  induction path generalizing node with
  | nil => exact hchange node rfl hprintable
  | cons index path ih =>
      refine hprintable.mapChild fun child hchild hprinted => ih hprinted fun found hfound => ?_
      refine hchange found ?_
      rw [below_cons, hchild]
      exact hfound

/-! ## What holds of all names and values -/

/-- Every name and every value, at every level. -/
inductive Node.Everywhere (name : Text → Prop) (value : Text → ValueSubType → Prop) : Node → Prop where
  | object {mMembers} : (∀ member ∈ mMembers, name member.1) →
      (∀ member ∈ mMembers, member.2.Everywhere name value) →
      Node.Everywhere name value (.Object mMembers)
  | list {mMembers} : (∀ child ∈ mMembers, child.Everywhere name value) →
      Node.Everywhere name value (.List mMembers)
  | value {mValue mSubType} : value mValue mSubType →
      Node.Everywhere name value (.Value mValue mSubType)

section Everywhere

variable {name : Text → Prop} {value : Text → ValueSubType → Prop} {node : Node}

theorem everywhere_assign {key : Text} {mMembers : List (Text × Node)}
    (hmembers : (Node.Object mMembers).Everywhere name value) (hkey : name key)
    (hnode : node.Everywhere name value) :
    (Node.Object (assign key node mMembers)).Everywhere name value := by
  cases hmembers with
  | object hkeys hchildren =>
      exact .object (forall_mem_assign hkeys hkey) (forall_mem_assign hchildren hnode)

theorem everywhere_append {mMembers : List Node}
    (hmembers : (Node.List mMembers).Everywhere name value) (hnode : node.Everywhere name value) :
    (Node.List (mMembers ++ [node])).Everywhere name value := by
  cases hmembers with
  | list hchildren => exact .list (forall_mem_append_singleton hchildren hnode)

theorem Node.Everywhere.mapChild (hnode : node.Everywhere name value)
    (hchange : ∀ child : Node, child.Everywhere name value → (change child).Everywhere name value)
    (index : Index) : (node.mapChild change index).Everywhere name value := by
  cases hnode with
  | object hkeys hchildren =>
      cases index with
      | key key =>
          refine .object (forall_mem_mapKey hkeys fun child hmember => hkeys (key, child) hmember)
            (forall_mem_mapKey hchildren fun child hmember => ?_)
          exact hchange child (hchildren _ hmember)
      | index i => exact .object hkeys hchildren
  | list hchildren =>
      cases index with
      | key key => exact .list hchildren
      | index i =>
          refine .list (forall_mem_modify hchildren fun child hget => ?_)
          exact hchange child (hchildren child (List.mem_of_getElem? hget))
  | value hvalue => exact .value hvalue

theorem Node.Everywhere.mapBelow
    (hchange : ∀ child : Node, child.Everywhere name value → (change child).Everywhere name value)
    (path : Path) (hnode : node.Everywhere name value) :
    (node.mapBelow change path).Everywhere name value := by
  induction path generalizing node with
  | nil => exact hchange node hnode
  | cons index path ih => exact hnode.mapChild (fun child hchild => ih hchild) index

theorem Node.Everywhere.below_path (hnode : node.Everywhere name value) {path : Path} {found : Node}
    (hfound : node.below? path = some found) : found.Everywhere name value := by
  induction path generalizing node with
  | nil =>
      obtain rfl := Option.some.inj hfound
      exact hnode
  | cons index path ih =>
      rw [below_cons] at hfound
      obtain ⟨child, hchild, hrest⟩ := Option.bind_eq_some_iff.mp hfound
      refine ih ?_ hrest
      cases hnode with
      | object hkeys hchildren =>
          cases index with
          | key key => exact hchildren _ (member_of_lookup hchild)
          | index i => cases hchild
      | list hchildren =>
          cases index with
          | key key => cases hchild
          | index i => exact hchildren child (List.mem_of_getElem? hchild)
      | value hvalue => cases hchild

end Everywhere

/-! ## Depths -/

theorem depthMembers_le {bound : Nat} {mMembers : List (Text × Node)}
    (hle : ∀ member ∈ mMembers, member.2.depth ≤ bound) : depthMembers mMembers ≤ bound := by
  induction mMembers with
  | nil => exact Nat.zero_le _
  | cons member mMembers ih =>
      obtain ⟨hmember, hrest⟩ := List.forall_mem_cons.mp hle
      exact max_le hmember (ih hrest)

theorem depthElements_le {bound : Nat} {mMembers : List Node}
    (hle : ∀ child ∈ mMembers, child.depth ≤ bound) : depthElements mMembers ≤ bound := by
  induction mMembers with
  | nil => exact Nat.zero_le _
  | cons child mMembers ih =>
      obtain ⟨hchild, hrest⟩ := List.forall_mem_cons.mp hle
      exact max_le hchild (ih hrest)

theorem depth_mapChild_le (hchange : ∀ child : Node, (change child).depth ≤ child.depth + 1)
    (node : Node) (index : Index) : (node.mapChild change index).depth ≤ node.depth + 1 := by
  cases node with
  | Object mMembers =>
      cases index with
      | key key =>
          refine Nat.succ_le_succ (depthMembers_le fun member hmember => ?_)
          obtain ⟨member', hmember', rfl⟩ := List.mem_map.mp hmember
          have hdepth := depth_le_depthMembers hmember'
          split
          · exact (hchange member'.2).trans (Nat.succ_le_succ hdepth)
          · exact Nat.le_succ_of_le hdepth
      | index i => exact Nat.le_succ _
  | List mMembers =>
      cases index with
      | key key => exact Nat.le_succ _
      | index i =>
          refine Nat.succ_le_succ (depthElements_le fun child hchild => ?_)
          obtain ⟨position, hget⟩ := List.mem_iff_getElem?.mp hchild
          rw [List.getElem?_modify] at hget
          obtain ⟨child', hget', rfl⟩ := Option.map_eq_some_iff.mp hget
          have hdepth := depth_le_depthElements (List.mem_of_getElem? hget')
          split
          · exact (hchange child').trans (Nat.succ_le_succ hdepth)
          · exact Nat.le_succ_of_le hdepth
  | Value mValue mSubType => exact Nat.le_succ _

/-- A change that adds one level at most does so anywhere in a tree. -/
theorem depth_mapBelow_le (hchange : ∀ child : Node, (change child).depth ≤ child.depth + 1)
    (path : Path) (node : Node) : (node.mapBelow change path).depth ≤ node.depth + 1 := by
  induction path generalizing node with
  | nil => exact hchange node
  | cons index path ih => exact depth_mapChild_le ih node index

/-! ## Orders of members -/

theorem nodeWise_printable : NodeWise Node.Printable fun keys =>
    keys.Nodup ∧ ∀ key ∈ keys, key ≠ [] ∧ Quotable false key where
  perm hperm hkeys :=
    ⟨hperm.nodup_iff.mp hkeys.1, fun key hmem => hkeys.2 key (hperm.mem_iff.mpr hmem)⟩
  object {mMembers} := by
    rw [List.forall_mem_map]
    exact ⟨fun | .object hnodup hkeys hchildren => ⟨⟨hnodup, hkeys⟩, hchildren⟩,
      fun hall => .object hall.1.1 hall.1.2 hall.2⟩
  list := ⟨fun | .list hchildren => hchildren, .list⟩

theorem depth_reordered_le {node node' : Node} (hreordered : Reordered node node') :
    node'.depth ≤ node.depth := by
  induction node using Node.children_induction generalizing node' with
  | object mMembers ih =>
      cases node' with
      | Object mMembers' =>
          refine Nat.succ_le_succ (depthMembers_le fun member' hmember' => ?_)
          obtain ⟨member, hmember, -, hsame⟩ := hreordered.member hmember'
          exact (ih member hmember hsame).trans (depth_le_depthMembers hmember)
      | List mMembers' => cases hreordered
      | Value mValue mSubType => cases hreordered
  | list mMembers ih =>
      cases node' with
      | Object mMembers' => cases hreordered
      | List mMembers' =>
          refine Nat.succ_le_succ (depthElements_le fun child' hchild' => ?_)
          obtain ⟨child, hchild, hsame⟩ :=
            exists_of_mem_right (reordered_list_iff.mp hreordered) hchild'
          exact (ih child hchild hsame).trans (depth_le_depthElements hchild)
      | Value mValue mSubType => cases hreordered
  | value mValue mSubType =>
      cases hreordered
      exact Nat.le_refl _

/-- What comes back of a reordered tree has come back of the tree. -/
theorem Restored.of_reordered {node node' parsed : Node} (hreordered : Reordered node node')
    (hrestored : Restored node' parsed) : Restored node parsed := by
  induction node using Node.children_induction generalizing node' parsed with
  | object mMembers ih =>
      cases hrestored with
      | object hnodup hkeys hchildren =>
          have hsame := hreordered.keys
          refine .object hnodup (fun key => (hkeys key).trans hsame.mem_iff) ?_
          intro key child parsed' hmember hparsed
          obtain ⟨member', hmember', hkey, hchild⟩ := hreordered.symm.member hmember
          refine ih _ hmember hchild.symm (hchildren key member'.2 parsed' ?_ hparsed)
          rw [← show member'.1 = key from hkey]
          exact hmember'
      | list hlength hchildren => cases hreordered
      | value hcomes => cases hreordered
  | list mMembers ih =>
      cases hrestored with
      | object hnodup hkeys hchildren => cases hreordered
      | list hlength hchildren =>
          have hsame := reordered_list_iff.mp hreordered
          refine .list (hlength.trans hsame.length_eq.symm) fun i child parsed' hget hparsed => ?_
          obtain ⟨hlt, rfl⟩ := List.getElem?_eq_some_iff.mp hget
          have hlt' := hsame.length_eq ▸ hlt
          exact ih _ (List.getElem_mem hlt) ((List.forall₂_iff_get.mp hsame).2 i hlt hlt')
            (hchildren i _ _ (List.getElem?_eq_getElem hlt') hparsed)
      | value hcomes => cases hreordered
  | value mValue mSubType =>
      cases hreordered
      exact hrestored

/-! ## Trees that come back -/

theorem Restored.child {node node' child : Node} (hrestored : Restored node node') {index : Index}
    (hchild : node.child? index = some child) :
    ∃ child', node'.child? index = some child' ∧ Restored child child' := by
  cases hrestored with
  | object hnodup hkeys hchildren =>
      cases index with
      | key key =>
          have hmember := member_of_lookup hchild
          obtain ⟨⟨name, child'⟩, hmember', rfl⟩ :=
            List.mem_map.mp ((hkeys key).mpr (List.mem_map.mpr ⟨_, hmember, rfl⟩))
          exact ⟨child', lookup_of_member hnodup hmember', hchildren _ _ _ hmember hmember'⟩
      | index i => cases hchild
  | list hlength hchildren =>
      rename_i mMembers mMembers'
      cases index with
      | key key => cases hchild
      | index i =>
          have hget : mMembers[i]? = some child := hchild
          have hlt := (List.getElem?_eq_some_iff.mp hget).1
          have hget' : mMembers'[i]? = some mMembers'[i] := List.getElem?_eq_getElem (hlength ▸ hlt)
          exact ⟨_, hget', hchildren i _ _ hget hget'⟩
  | value hcomes => cases hchild

/-- What is found below a path is found there in the tree that comes back. -/
theorem Restored.below_path {node node' found : Node} (hrestored : Restored node node') {path : Path}
    (hfound : node.below? path = some found) :
    ∃ found', node'.below? path = some found' ∧ Restored found found' := by
  induction path generalizing node node' with
  | nil =>
      obtain rfl := Option.some.inj hfound
      exact ⟨node', rfl, hrestored⟩
  | cons index path ih =>
      rw [below_cons] at hfound
      obtain ⟨child, hchild, hrest⟩ := Option.bind_eq_some_iff.mp hfound
      obtain ⟨child', hchild', hrestored'⟩ := hrestored.child hchild
      rw [below_cons, hchild']
      exact ih hrestored' hrest

end DumaisLib.JSON
