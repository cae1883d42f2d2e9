import DumaisLib.JSON.Building
import DumaisLib.Lib.Ownership

/-!
# JSON handles

A pure instance of the JSON class holds a reference to an object, a list or a
value, or none.  The same pointer says which: it points to the instance itself
when there is nothing to hold.
-/

namespace DumaisLib.JSON

open Machine Ownership

/-- The identity of a pure instance: its number among those constructed. -/
abbrev Handle := Nat

/-- The invalid instance is constructed before all others. -/
def mInvalid : Handle := 0

/-- What a `JSON *` is; nodes are numbered in the order in which `new` makes them. -/
inductive Pointer where
  | null
  | handle (handle : Handle)
  | node (address : Nat)
  deriving DecidableEq

/-- The address of a node. -/
def Pointer.address? : Pointer → Option Nat
  | .node address => some address
  | _ => none

@[simp] theorem address_null : Pointer.null.address? = none := rfl

@[simp] theorem address_handle (handle : Handle) : (Pointer.handle handle).address? = none := rfl

@[simp] theorem address_node (address : Nat) : (Pointer.node address).address? = some address := rfl

/--
The `mRoot` of every handle, none for those destroyed, and every node that has
been made, none for those deleted; with the nodes in the order of their deletion.
-/
structure Store where
  roots : List (Option Pointer)
  nodes : List (Option Node)
  deleted : List Nat

namespace Store

/-- The program begins with the invalid instance only. -/
def start : Store :=
  ⟨[some (.handle mInvalid)], [], []⟩

def mRoot (store : Store) (handle : Handle) : Option Pointer :=
  store.roots[handle]?.join

def node? (store : Store) (address : Nat) : Option Node :=
  store.nodes[address]?.join

def setRoot (store : Store) (handle : Handle) (pointer : Pointer) : Store :=
  { store with roots := store.roots.set handle (some pointer) }

def setNode (store : Store) (address : Nat) (node : Node) : Store :=
  { store with nodes := store.nodes.set address (some node) }

/-- Room for one more handle. -/
def addRoot (store : Store) (pointer : Pointer) : Store :=
  { store with roots := store.roots ++ [some pointer] }

/-- `new`; the address is the number of nodes made before. -/
def new (store : Store) (node : Node) : Store :=
  { store with nodes := store.nodes ++ [some node] }

/-- The node is gone, with all nodes below it. -/
def drop (store : Store) (address : Nat) : Store :=
  { store with nodes := store.nodes.set address none, deleted := store.deleted ++ [address] }

/-- `delete`: not for handles, which `new` did not make, and not twice. -/
def delete (store : Store) : Pointer → Option Store
  | .null => some store
  | .handle _ => none
  | .node address => (store.node? address).map fun _ => store.drop address

/-! ## Lookups -/

/-- What a reference to a JSON instance refers to. -/
inductive Place where
  | handle (handle : Handle)
  | node (address : Nat) (path : Path)

/-- `operator[]`: a pure instance finds itself, and a missing child is the invalid instance. -/
def lookup (store : Store) : Place → Index → Option Place
  | .handle handle, index =>
      match store.mRoot handle with
      | some (.handle other) => (store.mRoot other).map fun _ => .handle other
      | some (.node address) =>
          (store.node? address).map fun node =>
            if (node.child? index).isSome then .node address [index] else .handle mInvalid
      | _ => none
  | .node address path, index =>
      (store.node? address).map fun node =>
        if (node.below? (path ++ [index])).isSome then .node address (path ++ [index])
        else .handle mInvalid

/-- The place that a chain of lookups leads to. -/
def locate (store : Store) (handle : Handle) (path : Path) : Option Place :=
  ((store.mRoot handle).map fun _ => Place.handle handle).bind fun place =>
    path.foldlM store.lookup place

/-! ## Operations -/

def clean (store : Store) (handle : Handle) : Option Store :=
  (store.mRoot handle).bind fun pointer =>
    if pointer = .handle handle then some store
    else (store.delete pointer).map (·.setRoot handle (.handle handle))

/-- `copy` on what the pointer points to; a pure instance has no copy. -/
def copy (store : Store) : Pointer → Option (Pointer × Store)
  | .null => none
  | .handle handle => (store.mRoot handle).map fun _ => (.null, store)
  | .node address => (store.node? address).map fun node => (.node store.nodes.length, store.new node)

/-- `copy` on the `mRoot` of an instance; a node in a tree is its own. -/
def copyRoot (store : Store) : Place → Option (Pointer × Store)
  | .handle handle => (store.mRoot handle).bind store.copy
  | .node address path =>
      ((store.node? address).bind (Node.below? path)).map fun node =>
        (.node store.nodes.length, store.new node)

def assign (store : Store) (handle : Handle) (json : Place) : Option Store :=
  if handle = mInvalid then some store
  else
    (store.copyRoot json).bind fun copied =>
      (copied.2.clean handle).map fun store =>
        store.setRoot handle (if copied.1 = .null then .handle handle else copied.1)

/-- `std::swap` on the pointers of two handles. -/
def swap (store : Store) (handle other : Handle) : Option Store :=
  (store.mRoot handle).bind fun pointer =>
    (store.mRoot other).map fun pointer' =>
      (store.setRoot handle pointer').setRoot other pointer

def parse (store : Store) (handle : Handle) (json : Text) : Option Store :=
  if handle = mInvalid then some store
  else
    (store.mRoot handle).bind fun pointer =>
      (if pointer = .handle handle then some store else store.delete pointer).bind fun store =>
        (JSON.parse json).result?.map fun obj =>
          (store.new obj).setRoot handle (.node store.nodes.length)

/-- An added child somewhere in the tree of a node. -/
def addBelow (store : Store) (address : Nat) (path : Path) (addition : Addition) : Option Store :=
  (store.node? address).map fun node =>
    store.setNode address (node.mapBelow (Node.add addition) path)

/-- Calls that a pure instance forwards to `mRoot`, at most `fuel` of them. -/
def addFrom : Nat → Store → Handle → Addition → Option Store
  | 0, _, _, _ => none
  | fuel + 1, store, handle, addition =>
      if handle = mInvalid then some store
      else
        match store.mRoot handle with
        | some (.handle other) =>
            if other = handle then
              some ((store.new (Node.add addition (.Object []))).setRoot handle
                (.node store.nodes.length))
            else addFrom fuel store other addition
        | some (.node address) => store.addBelow address [] addition
        | _ => none

/-- A call forwarded more often than there are handles goes around in a circle. -/
def add (store : Store) (addition : Addition) : Place → Option Store
  | .handle handle => store.addFrom (store.roots.length + 1) handle addition
  | .node address path => store.addBelow address path addition

/-! ## Runs -/

/-- What a program does with its handles; copies and additions also take references into trees. -/
inductive Action where
  | construct
  | copyConstruct (json : Handle) (path : Path)
  | moveConstruct (json : Handle)
  | copyAssign (handle : Handle) (json : Handle) (path : Path)
  | moveAssign (handle : Handle) (json : Handle)
  | parse (handle : Handle) (json : Text)
  | add (handle : Handle) (path : Path) (addition : Addition)
  | destroy (handle : Handle)

/-- A step is disabled when its behaviour is not defined. -/
def step (store : Store) : Action → Option Store
  | .construct => some (store.addRoot (.handle store.roots.length))
  | .copyConstruct json path =>
      (store.locate json path).bind fun place =>
        (store.addRoot .null).assign store.roots.length place
  | .moveConstruct json =>
      (store.mRoot json).bind fun _ => (store.addRoot .null).swap store.roots.length json
  | .copyAssign handle json path =>
      (store.mRoot handle).bind fun _ =>
        (store.locate json path).bind fun place =>
          match place with
          | .handle other => if other = handle then some store else store.assign handle place
          | .node _ _ => store.assign handle place
  | .moveAssign handle json =>
      if handle = json then (store.mRoot handle).map fun _ => store else store.swap handle json
  | .parse handle json => store.parse handle json
  | .add handle path addition => (store.locate handle path).bind (store.add addition)
  | .destroy handle =>
      if handle = mInvalid then none
      else (store.clean handle).map fun store => { store with roots := store.roots.set handle none }

/-! ## What handles promise -/

/--
The `mRoot` of every live handle is the handle itself or a node that no other
live handle has.
-/
def Exclusive (store : Store) : Prop :=
  ∀ handle pointer, store.mRoot handle = some pointer →
    pointer = .handle handle ∨
      ∃ address, pointer = .node address ∧ (store.node? address).isSome ∧
        ∀ other, store.mRoot other = some (.node address) → other = handle

/--
Every node made is the root of a live handle and not deleted, or deleted once and no root.
Counted are the nodes that handles hold as `mRoot`, not those inside their trees.
-/
def DeletedOnce (store : Store) : Prop :=
  ∀ address < store.nodes.length,
    (address ∉ store.deleted ∧ ∃ handle, store.mRoot handle = some (.node address)) ∨
      (store.deleted.count address = 1 ∧ ∀ handle, store.mRoot handle ≠ some (.node address))

/-- The handles of the action are live, and the parser comes through the text that it is given. -/
def Callable (store : Store) : Action → Prop
  | .construct => True
  | .copyConstruct json _ => (store.mRoot json).isSome
  | .moveConstruct json => (store.mRoot json).isSome
  | .copyAssign handle json _ => (store.mRoot handle).isSome ∧ (store.mRoot json).isSome
  | .moveAssign handle json => (store.mRoot handle).isSome ∧ (store.mRoot json).isSome
  | .parse handle json =>
      (store.mRoot handle).isSome ∧ (handle = mInvalid ∨ (JSON.parse json).result?.isSome)
  | .add handle _ _ => (store.mRoot handle).isSome
  | .destroy handle => (store.mRoot handle).isSome ∧ handle ≠ mInvalid

/-- Every operation on live handles can follow their pointers. -/
def Followed (store : Store) : Prop :=
  ∀ action, store.Callable action → (store.step action).isSome

/-- What holds of a state in which handles own their nodes. -/
structure Owned (store : Store) : Prop where
  exclusive : store.Exclusive
  deletedOnce : store.DeletedOnce
  followed : store.Followed

/-- The moves that keep the promise: assignments between handles that hold nodes. -/
def KeepsRoots (store : Store) : Action → Prop
  | .moveConstruct _ => False
  | .moveAssign handle json =>
      handle = json ∨ ∃ address address',
        store.mRoot handle = some (.node address) ∧ store.mRoot json = some (.node address')
  | _ => True

end Store

end DumaisLib.JSON
