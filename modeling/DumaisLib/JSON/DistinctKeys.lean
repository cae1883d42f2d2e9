import DumaisLib.JSON.RepeatedNames
import DumaisLib.JSON.StoredStrings

/-!
# Distinct keys

What holds of empty objects and lists and of all values, and is kept when a child
is added, holds of every tree that the parser makes.  So no object that is parsed
has two members with the same key, and a key tells which child is meant.
-/

namespace DumaisLib.JSON

open Machine DumaisLib.JSON.Parser

/-! ## What additions keep -/

/-- A property of trees that are built by adding children. -/
structure KeptByAdding (holds : Node → Prop) : Prop where
  object : holds (.Object [])
  list : holds (.List [])
  value : ∀ mValue mSubType, holds (.Value mValue mSubType)
  assign : ∀ {mMembers child} key, holds (.Object mMembers) → holds child →
    holds (.Object (assign key child mMembers))
  append : ∀ {mMembers child}, holds (.List mMembers) → holds child →
    holds (.List (mMembers ++ [child]))

/-- What calls with this fuel make of texts. -/
structure MadeWith (holds : Node → Prop) (fuel : Nat) : Prop where
  newNode : ∀ {p node}, newNode fuel p = .finished node → holds node
  parseObject : ∀ {str node}, parseObject fuel str = .finished node → holds node
  parseList : ∀ {str node}, parseList fuel str = .finished node → holds node
  parseMembers : ∀ {done tmp node}, holds (.Object done) →
    parseMembers fuel done tmp = .finished node → holds node
  parseElements : ∀ {done tmp node}, holds (.List done) →
    parseElements fuel done tmp = .finished node → holds node

section Made

variable {holds : Node → Prop} {fuel : Nat}

theorem KeptByAdding.next (hkept : KeptByAdding holds) (hmade : MadeWith holds fuel) :
    MadeWith holds (fuel + 1) where
  newNode hfinished := by
    rw [JSON.newNode] at hfinished
    split at hfinished
    · exact hmade.parseObject hfinished
    · exact hmade.parseList hfinished
    · obtain rfl := Outcome.finished.inj hfinished
      exact hkept.value _ _
  parseObject {str node} hfinished := by
    cases str with
    | nil =>
        obtain rfl := Outcome.finished.inj hfinished
        exact hkept.object
    | cons char str =>
        rw [JSON.parseObject] at hfinished
        split at hfinished
        · obtain rfl := Outcome.finished.inj hfinished
          exact hkept.object
        · exact hmade.parseMembers hkept.object hfinished
  parseList {str node} hfinished := by
    cases str with
    | nil =>
        obtain rfl := Outcome.finished.inj hfinished
        exact hkept.list
    | cons char str =>
        rw [JSON.parseList] at hfinished
        split at hfinished
        · obtain rfl := Outcome.finished.inj hfinished
          exact hkept.list
        · exact hmade.parseElements hkept.list hfinished
  parseMembers {done tmp node} hdone hfinished := by
    rw [JSON.parseMembers] at hfinished
    split at hfinished
    · obtain rfl := Outcome.finished.inj hfinished
      exact hdone
    · split at hfinished
      · cases hfinished
      · rename_i p _
        split at hfinished
        · obtain rfl := Outcome.finished.inj hfinished
          exact hdone
        · split at hfinished
          · cases hfinished
          · cases hfinished
          · rename_i child hchild
            have hadded := hkept.assign p.key hdone (hmade.newNode hchild)
            split at hfinished
            · cases hfinished
            · obtain rfl := Outcome.finished.inj hfinished
              exact hadded
            · exact hmade.parseMembers hadded hfinished
  parseElements {done tmp node} hdone hfinished := by
    rw [JSON.parseElements] at hfinished
    split at hfinished
    · obtain rfl := Outcome.finished.inj hfinished
      exact hdone
    · split at hfinished
      · cases hfinished
      · split at hfinished
        · obtain rfl := Outcome.finished.inj hfinished
          exact hdone
        · split at hfinished
          · cases hfinished
          · cases hfinished
          · rename_i child hchild
            have hadded := hkept.append hdone (hmade.newNode hchild)
            split at hfinished
            · cases hfinished
            · obtain rfl := Outcome.finished.inj hfinished
              exact hadded
            · exact hmade.parseElements hadded hfinished

theorem KeptByAdding.madeWith (hkept : KeptByAdding holds) (fuel : Nat) : MadeWith holds fuel := by
  induction fuel with
  | zero =>
      constructor <;> intros <;> rename_i hfinished <;> cases hfinished
  | succ fuel ih => exact hkept.next ih

theorem KeptByAdding.parse (hkept : KeptByAdding holds) {json : Text} {node : Node}
    (hparse : JSON.parse json = .finished node) : holds node :=
  (hkept.madeWith _).parseObject hparse

/-- The new child is empty or a value. -/
theorem KeptByAdding.addition (hkept : KeptByAdding holds) (addition : Addition) :
    holds addition.node := by
  cases addition with
  | addObject name => exact hkept.object
  | addList name => exact hkept.list
  | addValue val name =>
      cases val with
      | string val => exact hkept.value _ _
      | uint val => exact hkept.value _ _
      | int val => exact hkept.value _ _
      | double printed => exact hkept.value _ _
      | bool val => exact hkept.value _ _

end Made

/-! ## Keys -/

/-- The members of an object are told apart by their keys, at every level. -/
inductive Node.DistinctKeys : Node → Prop where
  | object {mMembers} : (mMembers.map Prod.fst).Nodup →
      (∀ member ∈ mMembers, member.2.DistinctKeys) → Node.DistinctKeys (.Object mMembers)
  | list {mMembers} : (∀ child ∈ mMembers, child.DistinctKeys) → Node.DistinctKeys (.List mMembers)
  | value {mValue mSubType} : Node.DistinctKeys (.Value mValue mSubType)

theorem distinctKeys_kept : KeptByAdding Node.DistinctKeys where
  object := .object List.nodup_nil (List.forall_mem_nil _)
  list := .list (List.forall_mem_nil _)
  value _ _ := .value
  assign key hmembers hchild := by
    cases hmembers with
    | object hnodup hchildren =>
        exact .object (nodup_assign hnodup key _) (forall_mem_assign hchildren hchild)
  append hmembers hchild := by
    cases hmembers with
    | list hchildren => exact .list (forall_mem_append_singleton hchildren hchild)

/-- No object of a parsed tree has a key twice. -/
theorem parse_distinctKeys {json : Text} {node : Node} (hparse : parse json = .finished node) :
    node.DistinctKeys :=
  distinctKeys_kept.parse hparse

/-! ## Overwritten members -/

/-- What is overwritten in calls with this fuel. -/
structure OverwritesWith (holds : Node → Prop) (fuel : Nat) : Prop where
  node : ∀ p, ∀ node ∈ overwrittenNode fuel p, holds node
  object : ∀ str, ∀ node ∈ overwrittenObject fuel str, holds node
  list : ∀ str, ∀ node ∈ overwrittenList fuel str, holds node
  members : ∀ {done}, (∀ member ∈ done, holds member.2) → ∀ tmp,
    ∀ node ∈ overwrittenMembers fuel done tmp, holds node
  elements : ∀ tmp, ∀ node ∈ overwrittenElements fuel tmp, holds node

section Overwritten

variable {holds : Node → Prop} {fuel : Nat}

theorem OverwritesWith.next (hoverwrites : OverwritesWith holds fuel)
    (hmade : MadeWith holds fuel) :
    OverwritesWith holds (fuel + 1) where
  node p := by
    rw [overwrittenNode]
    split
    · exact hoverwrites.object p.value
    · exact hoverwrites.list p.value
    · exact List.forall_mem_nil _
  object str := by
    cases str with
    | nil => exact List.forall_mem_nil _
    | cons char str =>
        rw [overwrittenObject]
        split
        · exact List.forall_mem_nil _
        · exact hoverwrites.members (List.forall_mem_nil _) str
  list str := by
    cases str with
    | nil => exact List.forall_mem_nil _
    | cons char str =>
        rw [overwrittenList]
        split
        · exact List.forall_mem_nil _
        · exact hoverwrites.elements str
  members {done} hdone tmp := by
    rw [overwrittenMembers]
    split
    · exact List.forall_mem_nil _
    · split
      · exact List.forall_mem_nil _
      · rename_i p _
        split
        · exact List.forall_mem_nil _
        · split
          · exact List.forall_mem_nil _
          · exact List.forall_mem_nil _
          · rename_i child hchild
            refine List.forall_mem_append.mpr ⟨List.forall_mem_append.mpr
              ⟨hoverwrites.node p.val, fun node hnode => ?_⟩, ?_⟩
            · exact hdone _ (member_of_lookup (Option.mem_toList.mp hnode))
            · split
              · exact List.forall_mem_nil _
              · exact List.forall_mem_nil _
              · exact hoverwrites.members (forall_mem_assign hdone (hmade.newNode hchild)) _
  elements tmp := by
    rw [overwrittenElements]
    split
    · exact List.forall_mem_nil _
    · split
      · exact List.forall_mem_nil _
      · rename_i p _
        split
        · exact List.forall_mem_nil _
        · refine List.forall_mem_append.mpr ⟨hoverwrites.node p, ?_⟩
          split
          · exact List.forall_mem_nil _
          · exact List.forall_mem_nil _
          · exact hoverwrites.elements _

theorem KeptByAdding.overwritesWith (hkept : KeptByAdding holds) (fuel : Nat) :
    OverwritesWith holds fuel := by
  induction fuel with
  | zero =>
      constructor <;> intros <;> rename_i hmem <;> cases hmem
  | succ fuel ih => exact ih.next (hkept.madeWith fuel)

end Overwritten

theorem overwritten_distinctKeys (json : Text) :
    ∀ node ∈ overwritten json, node.DistinctKeys :=
  (distinctKeys_kept.overwritesWith _).object _

/-! ## Children and their places -/

/-- The children of a node, in order. -/
def childNodes : Node → List Node
  | .Object mMembers => mMembers.map Prod.snd
  | .List mMembers => mMembers
  | .Value _ _ => []

/-- The place of a child among its siblings. -/
def Node.slot? : Node → Index → Option Nat
  | .Object mMembers, .key key => (mMembers.map Prod.fst).idxOf? key
  | .List mMembers, .index i => if i < mMembers.length then some i else none
  | _, _ => none

theorem lookup_eq_idxOf {α : Type} (key : Text) (mMembers : List (Text × α)) :
    mMembers.lookup key =
      ((mMembers.map Prod.fst).idxOf? key).bind fun i => (mMembers.map Prod.snd)[i]? := by
  induction mMembers with
  | nil => rfl
  | cons member mMembers ih =>
      obtain ⟨name, value⟩ := member
      rw [List.map_cons, List.map_cons, List.idxOf?_cons]
      by_cases hkey : name = key
      · subst hkey
        rw [List.lookup_cons_self, if_pos (beq_self_eq_true name)]
        rfl
      · have hne : (key == name) = false := beq_eq_false_iff_ne.mpr (Ne.symm hkey)
        rw [if_neg (by simpa using hkey), List.lookup_cons, hne, ih, Option.bind_map]
        rfl

theorem child_eq_slot (node : Node) (index : Index) :
    node.child? index = (node.slot? index).bind fun i => (childNodes node)[i]? := by
  cases node with
  | Object mMembers =>
      cases index with
      | key key => exact lookup_eq_idxOf key mMembers
      | index i => rfl
  | List mMembers =>
      cases index with
      | key key => rfl
      | index i =>
          rw [Node.child?, Node.slot?, childNodes]
          split
          · rfl
          · rename_i hlt
            exact List.getElem?_eq_none (Nat.le_of_not_lt hlt)
  | Value mValue mSubType => rfl

theorem Node.DistinctKeys.child {node child : Node} {index : Index} (hdistinct : node.DistinctKeys)
    (hchild : node.child? index = some child) : child.DistinctKeys := by
  cases hdistinct with
  | object hnodup hchildren =>
      cases index with
      | key key => exact hchildren _ (member_of_lookup hchild)
      | index i => cases hchild
  | list hchildren =>
      cases index with
      | key key => cases hchild
      | index i => exact hchildren child (List.mem_of_getElem? hchild)
  | value => cases hchild

theorem Node.DistinctKeys.of_below {node found : Node} {path : Path} (hdistinct : node.DistinctKeys)
    (hfound : node.below? path = some found) : found.DistinctKeys := by
  induction path generalizing node with
  | nil =>
      obtain rfl := Option.some.inj hfound
      exact hdistinct
  | cons index path ih =>
      rw [below_cons] at hfound
      obtain ⟨child, hchild, hrest⟩ := Option.bind_eq_some_iff.mp hfound
      exact ih (hdistinct.child hchild) hrest

/-- With distinct keys a lookup finds the same child in whatever order the members are. -/
theorem Reordered.child {node node' child : Node} (hreordered : Reordered node node')
    (hdistinct : node.DistinctKeys) {index : Index} (hchild : node.child? index = some child) :
    ∃ child', node'.child? index = some child' ∧ Reordered child child' := by
  cases hdistinct with
  | object hnodup _ =>
      cases index with
      | key key =>
          cases node' with
          | Object mMembers' =>
              have hnodup' := hreordered.keys.nodup_iff.mpr hnodup
              obtain ⟨⟨key', child'⟩, hmember', hkey, hsame⟩ :=
                hreordered.symm.member (member_of_lookup hchild)
              obtain rfl : key' = key := hkey
              exact ⟨child', lookup_of_member hnodup' hmember', hsame.symm⟩
          | List mMembers' => cases hreordered
          | Value mValue mSubType => cases hreordered
      | index i => cases hchild
  | list _ =>
      cases index with
      | key key => cases hchild
      | index i =>
          cases node' with
          | Object mMembers' => cases hreordered
          | List mMembers' =>
              have hsame := reordered_list_iff.mp hreordered
              obtain ⟨hlt, rfl⟩ := List.getElem?_eq_some_iff.mp hchild
              have hlt' := hsame.length_eq ▸ hlt
              exact ⟨_, List.getElem?_eq_getElem hlt', (List.forall₂_iff_get.mp hsame).2 i hlt hlt'⟩
          | Value mValue mSubType => cases hreordered
  | value => cases hchild

theorem Reordered.below_path {node node' found : Node} (hreordered : Reordered node node')
    (hdistinct : node.DistinctKeys) {path : Path} (hfound : node.below? path = some found) :
    ∃ found', node'.below? path = some found' ∧ Reordered found found' := by
  induction path generalizing node node' with
  | nil =>
      obtain rfl := Option.some.inj hfound
      exact ⟨node', rfl, hreordered⟩
  | cons index path ih =>
      rw [below_cons] at hfound
      obtain ⟨child, hchild, hrest⟩ := Option.bind_eq_some_iff.mp hfound
      obtain ⟨child', hchild', hsame⟩ := hreordered.child hdistinct hchild
      rw [below_cons, hchild']
      exact ih hsame (hdistinct.child hchild) hrest

theorem slot_of_child {node child : Node} {index : Index} (hchild : node.child? index = some child) :
    ∃ i, node.slot? index = some i ∧ (childNodes node)[i]? = some child := by
  rw [child_eq_slot] at hchild
  exact Option.bind_eq_some_iff.mp hchild

/-! ## Changes below -/

section Changes

variable {node child : Node} {change change' : Node → Node} {index : Index}

theorem mapChild_id (node : Node) (index : Index) : node.mapChild id index = node := by
  cases node with
  | Object mMembers =>
      cases index with
      | key key =>
          have hsame (member : Text × Node) :
              (if member.1 = key then (member.1, id member.2) else member) = member := by
            split <;> rfl
          simp only [Node.mapChild, hsame, List.map_id']
      | index i => rfl
  | List mMembers =>
      cases index with
      | key key => rfl
      | index i => rw [Node.mapChild, List.modify_id]
  | Value mValue mSubType => rfl

/-- Only the child that is looked up matters. -/
theorem mapChild_congr (hdistinct : node.DistinctKeys)
    (hchange : ∀ child, node.child? index = some child → change child = change' child) :
    node.mapChild change index = node.mapChild change' index := by
  cases hdistinct with
  | @object mMembers hnodup _ =>
      cases index with
      | key key =>
          refine congrArg Node.Object (List.map_congr_left fun member hmember => ?_)
          obtain ⟨name, child⟩ := member
          split
          · rename_i hkey
            dsimp only at hkey
            subst hkey
            rw [hchange child (lookup_of_member hnodup hmember)]
          · rfl
      | index i => rfl
  | @list mMembers _ =>
      cases index with
      | key key => rfl
      | index i =>
          refine congrArg Node.List (List.ext_getElem? fun place => ?_)
          rw [List.getElem?_modify, List.getElem?_modify]
          split
          · rename_i hplace
            subst hplace
            cases hget : mMembers[i]? with
            | none => rfl
            | some child => exact congrArg some (hchange child hget)
          · rfl
  | value => rfl

theorem map_snd_mapKey {key : Text} {mMembers : List (Text × Node)} {i : Nat}
    (hnodup : (mMembers.map Prod.fst).Nodup) (hslot : (mMembers.map Prod.fst).idxOf? key = some i)
    (hchild : (mMembers.map Prod.snd)[i]? = some child) :
    (mMembers.map fun member => if member.1 = key then (member.1, change member.2) else member).map
      Prod.snd = (mMembers.map Prod.snd).set i (change child) := by
  induction mMembers generalizing i with
  | nil => cases hslot
  | cons member mMembers ih =>
      obtain ⟨name, first⟩ := member
      obtain ⟨hfresh, hrest⟩ := List.nodup_cons.mp hnodup
      rw [List.map_cons, List.idxOf?_cons] at hslot
      by_cases hkey : name = key
      · subst hkey
        rw [if_pos (beq_self_eq_true name)] at hslot
        obtain rfl := Option.some.inj hslot
        obtain rfl := Option.some.inj hchild
        -- no other member has the key
        have hothers : (mMembers.map fun member =>
            if member.1 = name then (member.1, change member.2) else member) = mMembers := by
          refine (List.map_congr_left fun member hmember => if_neg ?_).trans (List.map_id' mMembers)
          exact fun heq => hfresh (List.mem_map.mpr ⟨member, hmember, heq⟩)
        rw [List.map_cons, List.map_cons, if_pos rfl, hothers]
        rfl
      · rw [if_neg (by simpa using hkey)] at hslot
        obtain ⟨j, hj, rfl⟩ := Option.map_eq_some_iff.mp hslot
        rw [List.map_cons, List.map_cons, if_neg hkey, ih hrest hj hchild]
        rfl

theorem childNodes_mapChild (hdistinct : node.DistinctKeys) {i : Nat}
    (hslot : node.slot? index = some i) (hchild : (childNodes node)[i]? = some child) :
    childNodes (node.mapChild change index) = (childNodes node).set i (change child) := by
  have hfound : node.child? index = some child := by
    rw [child_eq_slot, hslot]
    exact hchild
  cases hdistinct with
  | @object mMembers hnodup _ =>
      cases index with
      | index i => cases hslot
      | key key => exact map_snd_mapKey hnodup hslot hchild
  | @list mMembers _ =>
      cases index with
      | key key => cases hslot
      | index i' =>
          rw [Node.slot?] at hslot
          split at hslot
          · obtain rfl := Option.some.inj hslot
            have hget : mMembers[i']? = some child := hchild
            have : Inhabited Node := ⟨child⟩
            rw [Node.mapChild, childNodes, List.modify_eq_set, hget]
            rfl
          · cases hslot
  | value => cases hslot

/-- A path that leads nowhere changes nothing. -/
theorem mapBelow_missing {path : Path} (hdistinct : node.DistinctKeys)
    (hmissing : node.below? path = none) : node.mapBelow change path = node := by
  induction path generalizing node with
  | nil => cases hmissing
  | cons index path ih =>
      rw [below_cons] at hmissing
      have hsame : node.mapChild (Node.mapBelow change path) index = node.mapChild id index := by
        refine mapChild_congr hdistinct fun child hchild => ?_
        rw [hchild] at hmissing
        exact ih (hdistinct.child hchild) hmissing
      exact hsame.trans (mapChild_id node index)

end Changes

end DumaisLib.JSON
