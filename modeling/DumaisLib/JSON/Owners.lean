import DumaisLib.JSON.Handles

/-!
# Handles own their nodes

Every operation but a move keeps each node the root of one handle at most, and
deletes a node when its handle gives it up.
-/

namespace DumaisLib.JSON.Store

open Machine Ownership

variable {store next : Store} {handle other : Handle} {pointer : Pointer} {address : Nat}

/-! ## Roots and nodes -/

/-- The node that each handle holds. -/
def held (store : Store) : List (Option Nat) :=
  store.roots.map fun root => root.bind Pointer.address?

theorem held_of_mRoot (hroot : store.mRoot handle = some pointer) :
    store.held[handle]? = some pointer.address? := by
  have hget := Option.join_eq_some_iff.mp hroot
  simp [held, hget]

theorem mRoot_of_held (hheld : store.held[handle]? = some (some address)) :
    store.mRoot handle = some (.node address) := by
  simp only [held, List.getElem?_map, Option.map_eq_some_iff, Option.bind_eq_some_iff] at hheld
  obtain ⟨_, hget, pointer, rfl, haddress⟩ := hheld
  cases pointer with
  | null => cases haddress
  | handle other => cases haddress
  | node address' =>
      cases haddress
      simp [mRoot, hget]

theorem lt_of_mRoot (hroot : store.mRoot handle = some pointer) : handle < store.roots.length := by
  exact (List.getElem?_eq_some_iff.mp (Option.join_eq_some_iff.mp hroot)).1

theorem mRoot_setRoot (hlt : handle < store.roots.length) (pointer : Pointer) :
    (store.setRoot handle pointer).mRoot handle = some pointer := by
  simp [mRoot, setRoot, hlt]

theorem mRoot_setRoot_ne (hne : handle ≠ other) (pointer : Pointer) :
    (store.setRoot handle pointer).mRoot other = store.mRoot other := by
  simp [mRoot, setRoot, List.getElem?_set_ne hne]

theorem mRoot_addRoot_new (store : Store) (pointer : Pointer) :
    (store.addRoot pointer).mRoot store.roots.length = some pointer := by
  simp [mRoot, addRoot]

theorem mRoot_addRoot (hroot : store.mRoot handle = some pointer) (pointer' : Pointer) :
    (store.addRoot pointer').mRoot handle = some pointer := by
  have hlt := lt_of_mRoot hroot
  simpa [mRoot, addRoot, List.getElem?_append_left hlt] using hroot

@[simp] theorem mRoot_new (store : Store) (node : Node) (handle : Handle) :
    (store.new node).mRoot handle = store.mRoot handle := rfl

@[simp] theorem held_setRoot (store : Store) (handle : Handle) (pointer : Pointer) :
    (store.setRoot handle pointer).held = store.held.set handle pointer.address? := by
  simp [held, setRoot, List.map_set]

@[simp] theorem held_new (store : Store) (node : Node) : (store.new node).held = store.held := rfl

@[simp] theorem held_drop (store : Store) (address : Nat) :
    (store.drop address).held = store.held := rfl

@[simp] theorem held_setNode (store : Store) (address : Nat) (node : Node) :
    (store.setNode address node).held = store.held := rfl

@[simp] theorem held_addRoot (store : Store) (pointer : Pointer) :
    (store.addRoot pointer).held = store.held ++ [pointer.address?] := by
  simp [held, addRoot]

/-! ## Sound stores -/

/-- What every operation but a move keeps. -/
structure Sound (store : Store) : Prop where
  rooted : ∀ handle pointer, store.mRoot handle = some pointer →
    pointer = .handle handle ∨ ∃ address, pointer = .node address
  balanced : Balanced store.held store.deleted store.nodes.length
  present : ∀ address < store.nodes.length,
    (store.node? address).isSome ↔ address ∉ store.deleted
  sentinel : (store.mRoot mInvalid).isSome

theorem sound_start : start.Sound where
  rooted := by
    intro handle pointer hroot
    cases handle with
    | zero => exact .inl (Option.some.inj hroot).symm
    | succ handle => cases hroot
  balanced := balanced_none _ (by decide)
  present := fun address hlt => absurd hlt (Nat.not_lt_zero address)
  sentinel := rfl

theorem Sound.isSome_node (hsound : store.Sound)
    (hroot : store.mRoot handle = some (.node address)) : (store.node? address).isSome := by
  have hheld := held_of_mRoot hroot
  exact (hsound.present address (hsound.balanced.lt_of_held hheld)).mpr
    (hsound.balanced.not_released hheld)

theorem Sound.exclusive (hsound : store.Sound) : store.Exclusive := by
  intro handle pointer hroot
  rcases hsound.rooted handle pointer hroot with hself | ⟨address, rfl⟩
  · exact .inl hself
  · refine .inr ⟨address, rfl, hsound.isSome_node hroot, fun other hother => ?_⟩
    exact hsound.balanced.unique (held_of_mRoot hother) (held_of_mRoot hroot)

theorem Sound.deletedOnce (hsound : store.Sound) : store.DeletedOnce := by
  intro address hlt
  rcases hsound.balanced.held_or_released hlt with ⟨hkept, handle, hheld⟩ | ⟨hcount, hnone⟩
  · exact .inl ⟨hkept, handle, mRoot_of_held hheld⟩
  · exact .inr ⟨hcount, fun handle hroot => hnone handle (held_of_mRoot hroot)⟩

/-! ## What operations are made of -/

theorem Sound.enter (hsound : store.Sound) :
    (store.addRoot (.handle store.roots.length)).Sound where
  rooted := by
    intro handle pointer hroot
    have hlt := lt_of_mRoot hroot
    simp only [addRoot, List.length_append, List.length_singleton] at hlt
    by_cases hnew : handle = store.roots.length
    · subst hnew
      rw [mRoot_addRoot_new] at hroot
      exact .inl (Option.some.inj hroot).symm
    · have hold : handle < store.roots.length :=
        Nat.lt_of_le_of_ne (Nat.lt_succ_iff.mp hlt) hnew
      refine hsound.rooted handle pointer ?_
      simpa only [mRoot, addRoot, List.getElem?_append_left hold] using hroot
  balanced := by
    rw [held_addRoot]
    exact hsound.balanced.enter
  present := hsound.present
  sentinel := by
    obtain ⟨pointer, hroot⟩ := Option.isSome_iff_exists.mp hsound.sentinel
    rw [mRoot_addRoot hroot]
    rfl

/-- Other handles keep their roots when one is rewritten. -/
theorem Sound.rooted_set (hsound : store.Sound) (hlt : handle < store.roots.length)
    (hpointer : pointer = .handle handle ∨ ∃ address, pointer = .node address) :
    ∀ other pointer', (store.setRoot handle pointer).mRoot other = some pointer' →
      pointer' = .handle other ∨ ∃ address, pointer' = .node address := by
  intro other pointer' hroot
  by_cases heq : handle = other
  · subst heq
    rw [mRoot_setRoot hlt] at hroot
    obtain rfl := Option.some.inj hroot
    exact hpointer
  · rw [mRoot_setRoot_ne heq] at hroot
    exact hsound.rooted other pointer' hroot

theorem isSome_mRoot_setRoot (hlt : handle < store.roots.length)
    (hlive : (store.mRoot other).isSome) :
    ((store.setRoot handle pointer).mRoot other).isSome := by
  by_cases heq : handle = other
  · subst heq
    rw [mRoot_setRoot hlt]
    rfl
  · rw [mRoot_setRoot_ne heq]
    exact hlive

/-- A handle without a node takes a new one. -/
theorem Sound.own (hsound : store.Sound) (hroot : store.mRoot handle = some (.handle handle))
    (node : Node) : ((store.new node).setRoot handle (.node store.nodes.length)).Sound where
  rooted := hsound.rooted_set (lt_of_mRoot hroot) (.inr ⟨_, rfl⟩)
  balanced := by
    rw [held_setRoot, held_new]
    have howned := hsound.balanced.own (held_of_mRoot hroot)
    simpa [new, setRoot] using howned
  present := by
    intro address hlt
    simp only [setRoot, new, List.length_append, List.length_singleton, node?] at hlt ⊢
    by_cases hnew : address = store.nodes.length
    · subst hnew
      have hfresh : store.nodes.length ∉ store.deleted := by
        have hsum := hsound.balanced store.nodes.length
        rw [if_neg (Nat.lt_irrefl _)] at hsum
        exact List.count_eq_zero.mp (by omega)
      simp [hfresh]
    · rw [List.getElem?_append_left (by omega)]
      exact hsound.present address (by omega)
  sentinel := isSome_mRoot_setRoot (lt_of_mRoot hroot) hsound.sentinel

/-- A handle deletes its node and is pure again. -/
theorem Sound.release (hsound : store.Sound) (hroot : store.mRoot handle = some (.node address)) :
    ((store.drop address).setRoot handle (.handle handle)).Sound where
  rooted := hsound.rooted_set (lt_of_mRoot hroot) (.inl rfl)
  balanced := by
    rw [held_setRoot, held_drop]
    have hreleased := hsound.balanced.release (held_of_mRoot hroot)
    simpa [drop, setRoot] using hreleased
  present := by
    intro address' hlt
    simp only [setRoot, drop, List.length_set, node?] at hlt ⊢
    by_cases heq : address = address'
    · subst heq
      simp [hlt]
    · have hpresent := hsound.present address' hlt
      have hne : ¬ address' = address := fun h => heq h.symm
      simpa [node?, List.getElem?_set_ne heq, hne] using hpresent
  sentinel := isSome_mRoot_setRoot (lt_of_mRoot hroot) hsound.sentinel

theorem Sound.exchange {address' : Nat} (hsound : store.Sound) (hne : handle ≠ other)
    (hroot : store.mRoot handle = some (.node address))
    (hroot' : store.mRoot other = some (.node address')) :
    ((store.setRoot handle (.node address')).setRoot other (.node address)).Sound where
  rooted := by
    intro handle' pointer' hnow
    have hlt : other < (store.setRoot handle (.node address')).roots.length := by
      simpa [setRoot] using lt_of_mRoot hroot'
    by_cases heq : other = handle'
    · subst heq
      rw [mRoot_setRoot hlt] at hnow
      exact .inr ⟨address, (Option.some.inj hnow).symm⟩
    · rw [mRoot_setRoot_ne heq] at hnow
      exact hsound.rooted_set (lt_of_mRoot hroot) (.inr ⟨_, rfl⟩) handle' pointer' hnow
  balanced := by
    rw [held_setRoot, held_setRoot]
    exact hsound.balanced.exchange (held_of_mRoot hroot) (held_of_mRoot hroot') hne
  present := hsound.present
  sentinel := isSome_mRoot_setRoot (by simpa [setRoot] using lt_of_mRoot hroot')
    (isSome_mRoot_setRoot (lt_of_mRoot hroot) hsound.sentinel)

/-- What a node contains is its own affair. -/
theorem Sound.change (hsound : store.Sound) (hlive : (store.node? address).isSome) (node : Node) :
    (store.setNode address node).Sound where
  rooted := hsound.rooted
  balanced := by
    rw [held_setNode]
    simpa [setNode] using hsound.balanced
  present := by
    intro address' hlt
    simp only [setNode, List.length_set] at hlt
    have hpresent := hsound.present address' hlt
    by_cases heq : address = address'
    · subst heq
      have hnow : ((store.setNode address node).node? address).isSome := by
        simp [node?, setNode, hlt]
      exact iff_of_true hnow (hpresent.mp hlive)
    · simpa [node?, setNode, List.getElem?_set_ne heq] using hpresent
  sentinel := hsound.sentinel

/-- A pure handle is destroyed. -/
theorem Sound.leave (hsound : store.Sound) (hroot : store.mRoot handle = some (.handle handle))
    (hne : handle ≠ mInvalid) : Sound { store with roots := store.roots.set handle none } where
  rooted := by
    intro other pointer hother
    by_cases heq : handle = other
    · subst heq
      simp [mRoot, lt_of_mRoot hroot] at hother
    · refine hsound.rooted other pointer ?_
      simpa [mRoot, List.getElem?_set_ne heq] using hother
  balanced := by
    obtain ⟨hlt, hget⟩ := List.getElem?_eq_some_iff.mp (held_of_mRoot hroot)
    have hsame : held { store with roots := store.roots.set handle none } = store.held := by
      rw [held, List.map_set]
      exact (congrArg (store.held.set handle) hget.symm).trans (List.set_getElem_self hlt)
    rw [hsame]
    exact hsound.balanced
  present := hsound.present
  sentinel := by
    simpa [mRoot, List.getElem?_set_ne hne] using hsound.sentinel

/-! ## Emptied handles -/

theorem setRoot_same (hroot : store.mRoot handle = some pointer) :
    store.setRoot handle pointer = store := by
  obtain ⟨hlt, hget⟩ := List.getElem?_eq_some_iff.mp (Option.join_eq_some_iff.mp hroot)
  have hsame : store.roots.set handle (some pointer) = store.roots :=
    (congrArg (store.roots.set handle) hget.symm).trans (List.set_getElem_self hlt)
  rw [setRoot, hsame]

/-- The store once the handle has given up what it holds. -/
def emptied (store : Store) (handle : Handle) : Store :=
  match store.mRoot handle with
  | some (.node address) => (store.drop address).setRoot handle (.handle handle)
  | _ => store

theorem emptied_self (hroot : store.mRoot handle = some (.handle handle)) :
    store.emptied handle = store := by
  simp only [emptied, hroot]

theorem emptied_node (hroot : store.mRoot handle = some (.node address)) :
    store.emptied handle = (store.drop address).setRoot handle (.handle handle) := by
  simp only [emptied, hroot]

theorem length_emptied (store : Store) (handle : Handle) :
    (store.emptied handle).nodes.length = store.nodes.length := by
  unfold emptied
  split
  · simp [setRoot, drop]
  · rfl

/-- A live handle of a sound store is pure or holds a node that is there. -/
theorem Sound.mRoot_cases (hsound : store.Sound) (hlive : (store.mRoot handle).isSome) :
    store.mRoot handle = some (.handle handle) ∨
      ∃ address node, store.mRoot handle = some (.node address) ∧
        store.node? address = some node := by
  obtain ⟨pointer, hroot⟩ := Option.isSome_iff_exists.mp hlive
  rcases hsound.rooted handle pointer hroot with rfl | ⟨address, rfl⟩
  · exact .inl hroot
  · obtain ⟨node, hnode⟩ := Option.isSome_iff_exists.mp (hsound.isSome_node hroot)
    exact .inr ⟨address, node, hroot, hnode⟩

theorem Sound.emptied (hsound : store.Sound) (hlive : (store.mRoot handle).isSome) :
    (store.emptied handle).Sound ∧
      (store.emptied handle).mRoot handle = some (.handle handle) := by
  rcases hsound.mRoot_cases hlive with hroot | ⟨address, _, hroot, _⟩
  · rw [emptied_self hroot]
    exact ⟨hsound, hroot⟩
  · rw [emptied_node hroot]
    exact ⟨hsound.release hroot, mRoot_setRoot (lt_of_mRoot hroot) _⟩

theorem Sound.clean_eq (hsound : store.Sound) (hlive : (store.mRoot handle).isSome) :
    store.clean handle = some (store.emptied handle) := by
  rcases hsound.mRoot_cases hlive with hroot | ⟨address, node, hroot, hnode⟩
  · simp [clean, hroot, emptied_self hroot]
  · simp [clean, hroot, emptied_node hroot, delete, hnode]

/-- A handle can be cleaned after the copy has been made, too. -/
theorem Sound.clean_new (hsound : store.Sound) (hlive : (store.mRoot handle).isSome)
    (node : Node) : (store.new node).clean handle = some ((store.emptied handle).new node) := by
  rcases hsound.mRoot_cases hlive with hroot | ⟨address, held, hroot, hheld⟩
  · simp [clean, hroot, emptied_self hroot]
  · have hlt : address < store.nodes.length :=
      (List.getElem?_eq_some_iff.mp (Option.join_eq_some_iff.mp hheld)).1
    have hthere : (store.new node).node? address = some held := by
      simpa only [node?, new, List.getElem?_append_left hlt] using hheld
    have hdrop : (store.new node).drop address = (store.drop address).new node := by
      simp [new, drop, List.set_append_left _ _ hlt]
    simp only [clean, mRoot_new, hroot, Option.bind_some, delete, hthere, hdrop,
      emptied_node hroot, reduceCtorEq, if_false, Option.map_some]
    rfl

/-! ## Places -/

/-- A live handle or a node that is there. -/
def Valid (store : Store) : Place → Prop
  | .handle handle =>
      store.mRoot handle = some (.handle handle) ∨
        ∃ address node, store.mRoot handle = some (.node address) ∧
          store.node? address = some node
  | .node address path => ((store.node? address).bind (Node.below? path)).isSome

theorem Sound.lookup (hsound : store.Sound) {place : Place} (hvalid : store.Valid place)
    (index : Index) : ∃ found, store.lookup place index = some found ∧ store.Valid found := by
  have hinvalid : store.Valid (.handle mInvalid) := hsound.mRoot_cases hsound.sentinel
  cases place with
  | handle handle =>
      rcases hvalid with hroot | ⟨address, node, hroot, hnode⟩
      · exact ⟨.handle handle, by simp [Store.lookup, hroot], .inl hroot⟩
      · simp only [Store.lookup, hroot, hnode, Option.map_some]
        refine ⟨_, rfl, ?_⟩
        split
        · rename_i hchild
          simpa [Valid, hnode, Node.below?] using hchild
        · exact hinvalid
  | node address path =>
      obtain ⟨below, hbelow⟩ := Option.isSome_iff_exists.mp hvalid
      obtain ⟨node, hnode, _⟩ := Option.bind_eq_some_iff.mp hbelow
      simp only [Store.lookup, hnode, Option.map_some]
      refine ⟨_, rfl, ?_⟩
      split
      · rename_i hchild
        simpa [Valid, hnode] using hchild
      · exact hinvalid

theorem Sound.locate (hsound : store.Sound) (hlive : (store.mRoot handle).isSome) (path : Path) :
    ∃ place, store.locate handle path = some place ∧ store.Valid place := by
  have hall (place : Place) (hvalid : store.Valid place) :
      ∃ found, path.foldlM store.lookup place = some found ∧ store.Valid found := by
    induction path generalizing place with
    | nil => exact ⟨place, rfl, hvalid⟩
    | cons index path ih =>
        obtain ⟨next, hnext, hvalid⟩ := hsound.lookup hvalid index
        obtain ⟨found, hfound, hvalid⟩ := ih next hvalid
        exact ⟨found, by rw [List.foldlM_cons, hnext]; exact hfound, hvalid⟩
  obtain ⟨pointer, hroot⟩ := Option.isSome_iff_exists.mp hlive
  obtain ⟨found, hfound, hvalid⟩ := hall (.handle handle) (hsound.mRoot_cases hlive)
  exact ⟨found, by rw [Store.locate, hroot]; exact hfound, hvalid⟩

theorem isSome_of_locate {path : Path} {place : Place}
    (hplace : store.locate handle path = some place) : (store.mRoot handle).isSome := by
  obtain ⟨_, hlive, _⟩ := Option.bind_eq_some_iff.mp hplace
  obtain ⟨pointer, hroot, _⟩ := Option.map_eq_some_iff.mp hlive
  rw [hroot]
  rfl

theorem Valid.addRoot {place : Place} (hvalid : store.Valid place) (pointer : Pointer) :
    (store.addRoot pointer).Valid place := by
  cases place with
  | handle handle =>
      rcases hvalid with hroot | ⟨address, node, hroot, hnode⟩
      · exact .inl (mRoot_addRoot hroot pointer)
      · exact .inr ⟨address, node, mRoot_addRoot hroot pointer, hnode⟩
  | node address path => exact hvalid

/-- A pure instance has no copy, and a node has a new one. -/
theorem Valid.copyRoot {place : Place} (hvalid : store.Valid place) :
    store.copyRoot place = some (.null, store) ∨
      ∃ node, store.copyRoot place = some (.node store.nodes.length, store.new node) := by
  cases place with
  | handle handle =>
      rcases hvalid with hroot | ⟨address, node, hroot, hnode⟩
      · exact .inl (by simp [Store.copyRoot, hroot, copy])
      · exact .inr ⟨node, by simp [Store.copyRoot, hroot, copy, hnode]⟩
  | node address path =>
      obtain ⟨node, hnode⟩ := Option.isSome_iff_exists.mp hvalid
      exact .inr ⟨node, by rw [Store.copyRoot, hnode]; rfl⟩

/-! ## Operations -/

theorem ne_mInvalid_of_new (hsound : store.Sound) : store.roots.length ≠ mInvalid := by
  obtain ⟨pointer, hroot⟩ := Option.isSome_iff_exists.mp hsound.sentinel
  exact Nat.ne_of_gt (lt_of_mRoot hroot)

/-- The handle under construction is cleaned without deleting anything. -/
theorem clean_fresh (store : Store) :
    (store.addRoot .null).clean store.roots.length =
      some (store.addRoot (.handle store.roots.length)) := by
  rw [clean, mRoot_addRoot_new]
  simp [delete, addRoot, setRoot]

theorem Sound.copyConstruct {place : Place} (hsound : store.Sound) (hvalid : store.Valid place) :
    ∃ next, (store.addRoot .null).assign store.roots.length place = some next ∧ next.Sound := by
  have hself := mRoot_addRoot_new store (.handle store.roots.length)
  rw [assign, if_neg (ne_mInvalid_of_new hsound)]
  rcases (hvalid.addRoot .null).copyRoot with hcopy | ⟨node, hcopy⟩
  · refine ⟨store.addRoot (.handle store.roots.length), ?_, hsound.enter⟩
    simp [hcopy, clean_fresh, setRoot_same hself]
  · have hclean : ((store.addRoot .null).new node).clean store.roots.length =
        some ((store.new node).addRoot (.handle store.roots.length)) :=
      clean_fresh (store.new node)
    refine ⟨_, ?_, hsound.enter.own hself node⟩
    simp only [hcopy, hclean, Option.bind_some, Option.map_some, reduceCtorEq, if_false]
    rfl

theorem Sound.assign {place : Place} (hsound : store.Sound) (hlive : (store.mRoot handle).isSome)
    (hvalid : store.Valid place) :
    ∃ next, store.assign handle place = some next ∧ next.Sound := by
  by_cases hinvalid : handle = mInvalid
  · exact ⟨store, by rw [Store.assign, if_pos hinvalid], hsound⟩
  · obtain ⟨hemptied, hself⟩ := hsound.emptied hlive
    rw [Store.assign, if_neg hinvalid]
    rcases hvalid.copyRoot with hcopy | ⟨node, hcopy⟩
    · refine ⟨store.emptied handle, ?_, hemptied⟩
      simp [hcopy, hsound.clean_eq hlive, setRoot_same hself]
    · have hown := hemptied.own hself node
      rw [length_emptied] at hown
      refine ⟨_, ?_, hown⟩
      simp [hcopy, hsound.clean_new hlive]

/-- Parsing deletes the node of the handle and holds the one that the text makes. -/
theorem Sound.parse_eq (hsound : store.Sound) (hlive : (store.mRoot handle).isSome)
    (hinvalid : handle ≠ mInvalid) (json : Text) :
    store.parse handle json = (JSON.parse json).result?.map fun obj =>
      ((store.emptied handle).new obj).setRoot handle (.node store.nodes.length) := by
  rw [parse, if_neg hinvalid]
  rcases hsound.mRoot_cases hlive with hroot | ⟨address, node, hroot, hnode⟩
  · simp [hroot, emptied_self hroot]
  · simp [hroot, emptied_node hroot, delete, hnode, setRoot, new, drop]

theorem Sound.parse (hsound : store.Sound) (hlive : (store.mRoot handle).isSome) (json : Text)
    (hparses : handle = mInvalid ∨ (JSON.parse json).result?.isSome) :
    ∃ next, store.parse handle json = some next ∧ next.Sound := by
  by_cases hinvalid : handle = mInvalid
  · exact ⟨store, by rw [Store.parse, if_pos hinvalid], hsound⟩
  · obtain ⟨obj, hobj⟩ := Option.isSome_iff_exists.mp (hparses.resolve_left hinvalid)
    obtain ⟨hemptied, hself⟩ := hsound.emptied hlive
    have hown := hemptied.own hself obj
    rw [length_emptied] at hown
    exact ⟨_, by rw [hsound.parse_eq hlive hinvalid, hobj]; rfl, hown⟩

theorem Sound.addBelow {node : Node} (hsound : store.Sound) (hnode : store.node? address = some node)
    (path : Path) (addition : Addition) :
    ∃ next, store.addBelow address path addition = some next ∧ next.Sound := by
  refine ⟨_, by rw [Store.addBelow, hnode]; rfl, hsound.change ?_ _⟩
  rw [hnode]
  rfl

theorem Sound.add {place : Place} (hsound : store.Sound) (hvalid : store.Valid place)
    (addition : Addition) : ∃ next, store.add addition place = some next ∧ next.Sound := by
  cases place with
  | handle handle =>
      simp only [Store.add, addFrom]
      by_cases hinvalid : handle = mInvalid
      · exact ⟨store, by rw [if_pos hinvalid], hsound⟩
      · rw [if_neg hinvalid]
        rcases hvalid with hroot | ⟨address, node, hroot, hnode⟩
        · have hown := hsound.own hroot (Node.add addition (.Object []))
          exact ⟨_, by simp only [hroot, if_true], hown⟩
        · simp only [hroot]
          exact hsound.addBelow hnode [] addition
  | node address path =>
      obtain ⟨below, hbelow⟩ := Option.isSome_iff_exists.mp hvalid
      obtain ⟨node, hnode, _⟩ := Option.bind_eq_some_iff.mp hbelow
      exact hsound.addBelow hnode path addition

theorem isSome_swap (hlive : (store.mRoot handle).isSome) (hlive' : (store.mRoot other).isSome) :
    (store.swap handle other).isSome := by
  obtain ⟨pointer, hroot⟩ := Option.isSome_iff_exists.mp hlive
  obtain ⟨pointer', hroot'⟩ := Option.isSome_iff_exists.mp hlive'
  simp [swap, hroot, hroot']

/-! ## Steps -/

theorem callable_of_step {action : Action} (hsound : store.Sound)
    (hstep : store.step action = some next) : store.Callable action := by
  cases action with
  | construct => trivial
  | copyConstruct json path =>
      obtain ⟨place, hplace, _⟩ := Option.bind_eq_some_iff.mp hstep
      exact isSome_of_locate hplace
  | moveConstruct json =>
      obtain ⟨pointer, hroot, _⟩ := Option.bind_eq_some_iff.mp hstep
      exact Option.isSome_iff_exists.mpr ⟨pointer, hroot⟩
  | copyAssign handle json path =>
      obtain ⟨pointer, hroot, hrest⟩ := Option.bind_eq_some_iff.mp hstep
      obtain ⟨place, hplace, _⟩ := Option.bind_eq_some_iff.mp hrest
      exact ⟨Option.isSome_iff_exists.mpr ⟨pointer, hroot⟩, isSome_of_locate hplace⟩
  | moveAssign handle json =>
      simp only [step] at hstep
      split at hstep
      · rename_i heq
        obtain ⟨pointer, hroot, _⟩ := Option.map_eq_some_iff.mp hstep
        have hlive : (store.mRoot handle).isSome := Option.isSome_iff_exists.mpr ⟨pointer, hroot⟩
        exact ⟨hlive, heq ▸ hlive⟩
      · obtain ⟨pointer, hroot, hrest⟩ := Option.bind_eq_some_iff.mp hstep
        obtain ⟨pointer', hroot', _⟩ := Option.map_eq_some_iff.mp hrest
        exact ⟨Option.isSome_iff_exists.mpr ⟨pointer, hroot⟩,
          Option.isSome_iff_exists.mpr ⟨pointer', hroot'⟩⟩
  | parse handle json =>
      simp only [step, Store.parse] at hstep
      split at hstep
      · rename_i hinvalid
        exact ⟨hinvalid ▸ hsound.sentinel, .inl hinvalid⟩
      · obtain ⟨pointer, hroot, hrest⟩ := Option.bind_eq_some_iff.mp hstep
        obtain ⟨cleaned, _, hrest⟩ := Option.bind_eq_some_iff.mp hrest
        obtain ⟨obj, hobj, _⟩ := Option.map_eq_some_iff.mp hrest
        exact ⟨Option.isSome_iff_exists.mpr ⟨pointer, hroot⟩,
          .inr (Option.isSome_iff_exists.mpr ⟨obj, hobj⟩)⟩
  | add handle path addition =>
      obtain ⟨place, hplace, _⟩ := Option.bind_eq_some_iff.mp hstep
      exact isSome_of_locate hplace
  | destroy handle =>
      simp only [step] at hstep
      split at hstep
      · cases hstep
      · rename_i hinvalid
        obtain ⟨cleaned, hclean, _⟩ := Option.map_eq_some_iff.mp hstep
        obtain ⟨pointer, hroot, _⟩ := Option.bind_eq_some_iff.mp hclean
        exact ⟨Option.isSome_iff_exists.mpr ⟨pointer, hroot⟩, hinvalid⟩

/-- Every operation that keeps the roots succeeds and leaves a sound store. -/
theorem Sound.acts {action : Action} (hsound : store.Sound) (hcallable : store.Callable action)
    (hkeeps : store.KeepsRoots action) : ∃ next, store.step action = some next ∧ next.Sound := by
  cases action with
  | construct => exact ⟨_, rfl, hsound.enter⟩
  | copyConstruct json path =>
      obtain ⟨place, hplace, hvalid⟩ := hsound.locate hcallable path
      simp only [step, hplace, Option.bind_some]
      exact hsound.copyConstruct hvalid
  | moveConstruct json => exact hkeeps.elim
  | copyAssign handle json path =>
      obtain ⟨pointer, hroot⟩ := Option.isSome_iff_exists.mp hcallable.1
      obtain ⟨place, hplace, hvalid⟩ := hsound.locate hcallable.2 path
      simp only [step, hroot, hplace, Option.bind_some]
      cases place with
      | handle other =>
          by_cases heq : other = handle
          · exact ⟨store, by simp only [if_pos heq], hsound⟩
          · simp only [if_neg heq]
            exact hsound.assign hcallable.1 hvalid
      | node address path => exact hsound.assign hcallable.1 hvalid
  | moveAssign handle json =>
      by_cases heq : handle = json
      · obtain ⟨pointer, hroot⟩ := Option.isSome_iff_exists.mp hcallable.1
        exact ⟨store, by simp only [step, if_pos heq, hroot, Option.map_some], hsound⟩
      · obtain ⟨address, address', hroot, hroot'⟩ := hkeeps.resolve_left heq
        refine ⟨_, ?_, hsound.exchange heq hroot hroot'⟩
        simp only [step, if_neg heq, swap, hroot, hroot', Option.bind_some, Option.map_some]
  | parse handle json => exact hsound.parse hcallable.1 json hcallable.2
  | add handle path addition =>
      obtain ⟨place, hplace, hvalid⟩ := hsound.locate hcallable path
      simp only [step, hplace, Option.bind_some]
      exact hsound.add hvalid addition
  | destroy handle =>
      obtain ⟨hemptied, hself⟩ := hsound.emptied hcallable.1
      refine ⟨_, ?_, hemptied.leave hself hcallable.2⟩
      simp only [step, if_neg hcallable.2, hsound.clean_eq hcallable.1, Option.map_some]

/-- What does not keep the roots moves a handle that has no node, or to one that has none. -/
theorem moves_of_not_keepsRoots {action : Action} (hkeeps : ¬ store.KeepsRoots action) :
    (∃ json, action = .moveConstruct json) ∨
      ∃ handle json, action = .moveAssign handle json ∧ handle ≠ json ∧
        ¬ ∃ address address', store.mRoot handle = some (.node address) ∧
          store.mRoot json = some (.node address') := by
  cases action with
  | moveConstruct json => exact .inl ⟨json, rfl⟩
  | moveAssign handle json => exact .inr ⟨handle, json, rfl, not_or.mp hkeeps⟩
  | construct => exact absurd trivial hkeeps
  | copyConstruct json path => exact absurd trivial hkeeps
  | copyAssign handle json path => exact absurd trivial hkeeps
  | parse handle json => exact absurd trivial hkeeps
  | add handle path addition => exact absurd trivial hkeeps
  | destroy handle => exact absurd trivial hkeeps

theorem Sound.followed (hsound : store.Sound) : store.Followed := by
  intro action hcallable
  by_cases hkeeps : store.KeepsRoots action
  · obtain ⟨next, hstep, _⟩ := hsound.acts hcallable hkeeps
    exact Option.isSome_iff_exists.mpr ⟨next, hstep⟩
  · rcases moves_of_not_keepsRoots hkeeps with ⟨json, rfl⟩ | ⟨handle, json, rfl, hne, _⟩
    · obtain ⟨pointer, hroot⟩ := Option.isSome_iff_exists.mp hcallable
      simp only [step, hroot, Option.bind_some]
      apply isSome_swap
      · rw [mRoot_addRoot_new]
        rfl
      · rw [mRoot_addRoot hroot]
        rfl
    · simp only [step, if_neg hne]
      exact isSome_swap hcallable.1 hcallable.2

theorem Sound.owned (hsound : store.Sound) : store.Owned :=
  ⟨hsound.exclusive, hsound.deletedOnce, hsound.followed⟩

/-! ## Moves -/

/-- After an exchange of pointers, a handle that points to the other one breaks the promise. -/
theorem not_exclusive_of_swapped (hroot : store.mRoot handle = some pointer)
    (hself : pointer ≠ .handle handle) (hnode : ∀ address, pointer ≠ .node address) :
    ¬ store.Exclusive := by
  intro hexclusive
  rcases hexclusive handle pointer hroot with heq | ⟨address, heq, _⟩
  · exact hself heq
  · exact hnode address heq

/-- Where the pointers are after an exchange. -/
theorem mRoot_of_swap (hne : handle ≠ other) (hswap : store.swap handle other = some next) :
    ∃ pointer pointer', store.mRoot handle = some pointer ∧ store.mRoot other = some pointer' ∧
      next.mRoot handle = some pointer' ∧ next.mRoot other = some pointer := by
  obtain ⟨pointer, hroot, hrest⟩ := Option.bind_eq_some_iff.mp hswap
  obtain ⟨pointer', hroot', rfl⟩ := Option.map_eq_some_iff.mp hrest
  refine ⟨pointer, pointer', hroot, hroot', ?_, ?_⟩
  · rw [mRoot_setRoot_ne (fun h => hne h.symm), mRoot_setRoot (lt_of_mRoot hroot)]
  · have hlt : other < (store.setRoot handle pointer').roots.length := by
      simpa [setRoot] using lt_of_mRoot hroot'
    rw [mRoot_setRoot hlt]

/-- Every other move leaves a handle without a root of its own. -/
theorem Sound.broken {action : Action} (hsound : store.Sound) (hkeeps : ¬ store.KeepsRoots action)
    (hstep : store.step action = some next) : ¬ next.Exclusive := by
  rcases moves_of_not_keepsRoots hkeeps with ⟨json, rfl⟩ | ⟨handle, json, rfl, hne, hnodes⟩
  · obtain ⟨pointer, hroot, hswap⟩ := Option.bind_eq_some_iff.mp hstep
    have hnew : store.roots.length ≠ json := Nat.ne_of_gt (lt_of_mRoot hroot)
    obtain ⟨root, _, hnull, _, _, hnow⟩ := mRoot_of_swap hnew hswap
    rw [mRoot_addRoot_new] at hnull
    obtain rfl := Option.some.inj hnull
    exact not_exclusive_of_swapped hnow (by simp) (by simp)
  · simp only [step, if_neg hne] at hstep
    obtain ⟨pointer, pointer', hroot, hroot', hnow, hnow'⟩ := mRoot_of_swap hne hstep
    rcases hsound.rooted handle pointer hroot with rfl | ⟨address, rfl⟩
    · exact not_exclusive_of_swapped hnow' (by simpa using hne) (by simp)
    · rcases hsound.rooted json pointer' hroot' with rfl | ⟨address', rfl⟩
      · exact not_exclusive_of_swapped hnow (by simpa using fun h => hne h.symm) (by simp)
      · exact absurd ⟨address, address', hroot, hroot'⟩ hnodes

/--
The handles own their nodes in every state of a run exactly when the run moves
nothing but nodes, from one handle that holds one to another.
-/
theorem handles_own_iff (actions : List Action) :
    Always step Owned start actions ↔ Admitted step KeepsRoots start actions := by
  have hkeeps (store : Store) (action : Action) (next : Store) (hsound : store.Sound)
      (hallowed : store.KeepsRoots action) (hstep : store.step action = some next) :
      next.Sound := by
    obtain ⟨next', hstep', hnext⟩ := hsound.acts (callable_of_step hsound hstep) hallowed
    obtain rfl : next' = next := Option.some.inj (hstep'.symm.trans hstep)
    exact hnext
  have hbreaks (store : Store) (action : Action) (next : Store) (hsound : store.Sound)
      (hallowed : ¬ store.KeepsRoots action) (hstep : store.step action = some next) :
      ¬ next.Owned :=
    fun howned => hsound.broken hallowed hstep howned.exclusive
  exact always_iff_admitted (fun _ hsound => Sound.owned hsound) hkeeps hbreaks sound_start actions

/-- After `JSON j; JSON k = std::move(j);` the first handle is without a root. -/
theorem moved_handle_not_owned : ¬ Always step Owned start [.construct, .moveConstruct 1] := by
  intro halways
  have howned : Owned ⟨[some (.handle 0), some .null, some (.handle 1)], [], []⟩ :=
    (halways.2 _ rfl).2 _ rfl
  have hnull : mRoot ⟨[some (.handle 0), some .null, some (.handle 1)], [], []⟩ 1 = some .null :=
    rfl
  exact not_exclusive_of_swapped hnull (by decide) (by simp) howned.exclusive

end DumaisLib.JSON.Store
