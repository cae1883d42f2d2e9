import DumaisLib.JSON.RepeatedNames
import Mathlib.Data.List.Basic

/-!
# Instances in memory

Every object, list and value of a document is an instance of the JSON class
with an `mRoot` of its own, which points to the instance itself until two of
them are swapped.  A pure instance has nothing but that pointer.
-/

namespace DumaisLib.JSON

open Machine

abbrev Address := Nat

/-- What the classes that inherit from JSON add to it. -/
inductive Body where
  | pure
  | Object (mMembers : List (Text × Address))
  | List (mMembers : List Address)
  | Value (mValue : Text) (mSubType : ValueSubType)

/-- A null pointer is `none`. -/
structure Instance where
  mRoot : Option Address
  body : Body

/-- The instances by address, none for those that have been deleted. -/
structure Heap where
  instances : List (Option Instance)

/-- The members that a destructor deletes. -/
def childrenOf : Body → List Address
  | .Object mMembers => mMembers.map Prod.snd
  | .List mMembers => mMembers
  | _ => []

/-- `mMembers[key] = address` -/
def assignAddress (key : Text) (address : Address) : List (Text × Address) → List (Text × Address)
  | [] => [(key, address)]
  | member :: members =>
      if member.1 = key then (key, address) :: members
      else member :: assignAddress key address members

/-- What `operator=` makes of a value. -/
def Scalar.assigned : Scalar → Body
  | .string val => .Value (Value.unEscapeString val) .String
  | .uint val => .Value (toString val).toList .UInt
  | .int val => .Value (toString val).toList .Int
  | .double printed => .Value printed .Double
  | .bool val => .Value (if val then "true".toList else "false".toList) .Bool

namespace Heap

/-- The invalid instance is constructed before all others. -/
def mInvalid : Address := 0

def instance? (heap : Heap) (address : Address) : Option Instance :=
  heap.instances[address]?.join

def set (heap : Heap) (address : Address) (item : Instance) : Heap :=
  ⟨heap.instances.set address (some item)⟩

def free (heap : Heap) (address : Address) : Heap :=
  ⟨heap.instances.set address none⟩

/-- `new`, of an instance that is its own root. -/
def new (heap : Heap) (body : Body) : Address × Heap :=
  (heap.instances.length, ⟨heap.instances ++ [some ⟨some heap.instances.length, body⟩]⟩)

/-- The instance that `mRoot` points to, with its address. -/
def root? (heap : Heap) (reference : Address) : Option (Address × Instance) :=
  ((heap.instance? reference).bind Instance.mRoot).bind fun root =>
    (heap.instance? root).map fun item => (root, item)

def setRoot (heap : Heap) (reference : Address) (mRoot : Option Address) : Option Heap :=
  (heap.instance? reference).map fun item => heap.set reference { item with mRoot := mRoot }

/-! ## Reading -/

/-- `operator[]`: `getByIndex` or `getByKey` of the root. -/
def lookup (heap : Heap) (reference : Address) (index : Index) : Option Address :=
  (heap.root? reference).map fun found =>
    match found.2.body, index with
    | .pure, _ => found.1
    | .Object mMembers, .key key => (mMembers.lookup key).getD mInvalid
    | .List mMembers, .index i => mMembers[i]?.getD mInvalid
    | _, _ => mInvalid

/-- What a chain of lookups returns. -/
def locate (heap : Heap) (document : Address) (path : Path) : Option Address :=
  path.foldlM heap.lookup document

def str (heap : Heap) (reference : Address) : Option Text :=
  (heap.root? reference).map fun found =>
    match found.2.body with
    | .pure => "\x7binvalid\x7d".toList
    | .Object _ => "\x7bobject\x7d".toList
    | .List _ => "\x7blist\x7d".toList
    | .Value mValue _ => mValue

def isValid (heap : Heap) (reference : Address) : Option Bool :=
  (heap.root? reference).map fun found =>
    match found.2.body with
    | .pure => false
    | _ => true

/-- The tree below an instance that is not pure; it is at most as deep as there are instances. -/
def tree : Nat → Heap → Address → Option Node
  | 0, _, _ => none
  | fuel + 1, heap, address =>
      (heap.instance? address).bind fun item =>
        match item.body with
        | .pure => none
        | .Object mMembers =>
            (mMembers.mapM fun member => (tree fuel heap member.2).map (member.1, ·)).map .Object
        | .List mMembers => (mMembers.mapM (tree fuel heap)).map .List
        | .Value mValue mSubType => some (.Value mValue mSubType)

/-! ## Making and deleting trees -/

mutual

def newTree (heap : Heap) : Node → Address × Heap
  | .Object mMembers =>
      let (mMembers, heap) := newMembers heap mMembers
      heap.new (.Object mMembers)
  | .List mMembers =>
      let (mMembers, heap) := newElements heap mMembers
      heap.new (.List mMembers)
  | .Value mValue mSubType => heap.new (.Value mValue mSubType)

def newMembers (heap : Heap) : List (Text × Node) → List (Text × Address) × Heap
  | [] => ([], heap)
  | (key, node) :: members =>
      let (address, heap) := newTree heap node
      let (addresses, heap) := newMembers heap members
      ((key, address) :: addresses, heap)

def newElements (heap : Heap) : List Node → List Address × Heap
  | [] => ([], heap)
  | node :: nodes =>
      let (address, heap) := newTree heap node
      let (addresses, heap) := newElements heap nodes
      (address :: addresses, heap)

end

/-- A pure instance, which `new` did not make, has no copy. -/
def copy (heap : Heap) (address : Address) : Option (Option Address × Heap) :=
  (heap.instance? address).bind fun item =>
    match item.body with
    | .pure => some (none, heap)
    | _ =>
        (tree (heap.instances.length + 1) heap address).map fun node =>
          let (copied, heap) := heap.newTree node
          (some copied, heap)

/-- `delete`: the members, then a root that is another instance, and not twice. -/
def delete : Nat → Heap → Address → Option Heap
  | 0, _, _ => none
  | fuel + 1, heap, address =>
      (heap.instance? address).bind fun item =>
        match item.body with
        | .pure => none
        | body =>
            ((childrenOf body).foldlM (delete fuel) (heap.free address)).bind fun heap =>
              match item.mRoot with
              | none => some heap
              | some root => if root = address then some heap else delete fuel heap root

/-- `delete mRoot`, when it is neither null nor the instance itself. -/
def deleteRoot (heap : Heap) (reference : Address) : Option Heap :=
  (heap.instance? reference).bind fun item =>
    match item.mRoot with
    | none => some heap
    | some root => if root = reference then some heap else delete (heap.instances.length + 1) heap root

/-! ## Operations -/

def assign (heap : Heap) (reference json : Address) : Option Heap :=
  if reference = mInvalid then some heap
  else
    (heap.root? json).bind fun found =>
      (heap.copy found.1).bind fun copied =>
        (copied.2.deleteRoot reference).bind fun heap =>
          heap.setRoot reference (some (copied.1.getD reference))

/-- An object, a list and a value take no other instance. -/
def copyAssign (heap : Heap) (reference json : Address) : Option Heap :=
  if reference = json then some heap
  else
    (heap.instance? reference).bind fun item =>
      match item.body with
      | .pure => heap.assign reference json
      | _ => some heap

/-- `std::swap` on the two pointers. -/
def moveAssign (heap : Heap) (reference json : Address) : Option Heap :=
  if reference = json then some heap
  else
    (heap.instance? reference).bind fun item =>
      (heap.instance? json).map fun other =>
        (heap.set reference { item with mRoot := other.mRoot }).set json
          { other with mRoot := item.mRoot }

/-- `operator=` for a string, a number or a truth value: only values take it. -/
def assignScalar (heap : Heap) (reference : Address) (val : Scalar) : Option Heap :=
  (heap.root? reference).map fun found =>
    match found.2.body with
    | .Value _ _ => heap.set found.1 { found.2 with body := val.assigned }
    | _ => heap

/-- The new tree, and behind it the trees that were overwritten while the text was parsed. -/
def parse (heap : Heap) (reference : Address) (json : Text) : Option Heap :=
  if reference = mInvalid then some heap
  else
    (heap.deleteRoot reference).bind fun heap =>
      (JSON.parse json).result?.bind fun obj =>
        let (address, heap) := heap.newTree obj
        ((overwritten json).foldl (fun heap node => (heap.newTree node).2) heap).setRoot reference
          (some address)

/-- The file is read in pieces, and each piece up to its first NUL. -/
def fileText (contents : Text) : Text :=
  (contents.toChunks 1023).flatMap (List.takeWhile (· ≠ '\x00'))

/-- A file that cannot be opened has no contents. -/
def parseFile (heap : Heap) (reference : Address) (contents : Option Text) : Option Heap :=
  if reference = mInvalid then some heap
  else
    match contents with
    | none => some heap
    | some contents => heap.parse reference (fileText contents)

/-- A new value takes the place of another member, which is deleted; a new object or list does not. -/
def replaced (heap : Heap) (addition : Addition) (old : Option Address) : Option Heap :=
  match addition, old with
  | .addValue _ _, some old => delete (heap.instances.length + 1) heap old
  | _, _ => some heap

/-- Calls that pure instances forward to their roots, at most `fuel` of them. -/
def addFrom : Nat → Heap → Address → Addition → Option (Address × Heap)
  | 0, _, _, _ => none
  | fuel + 1, heap, reference, addition =>
      (heap.instance? reference).bind fun item =>
        match item.body with
        | .pure =>
            if reference = mInvalid then some (mInvalid, heap)
            else if item.mRoot = some reference then
              let (object, heap) := heap.new (.Object [])
              (heap.setRoot reference (some object)).bind fun heap =>
                addFrom fuel heap object addition
            else item.mRoot.bind fun root => addFrom fuel heap root addition
        | .Object mMembers =>
            -- the key depends on the keys of the members only
            let key := keyFor addition.name (mMembers.map fun member => (member.1, .Object []))
            (heap.replaced addition (mMembers.lookup key)).map fun heap =>
              let (child, heap) := heap.newTree addition.node
              (child,
                heap.set reference { item with body := .Object (assignAddress key child mMembers) })
        | .List mMembers =>
            let (child, heap) := heap.newTree addition.node
            some (child, heap.set reference { item with body := .List (mMembers ++ [child]) })
        | .Value _ _ => some (mInvalid, heap)

/-- A call forwarded more often than there are instances goes around in a circle. -/
def add (heap : Heap) (reference : Address) (addition : Addition) : Option (Address × Heap) :=
  addFrom (heap.instances.length + 2) heap reference addition

/-- What may be done with a reference. -/
inductive Operation where
  | lookup (index : Index)
  | add (addition : Addition)
  | parse (json : Text)
  | parseFile (contents : Option Text)
  | assignScalar (val : Scalar)
  | copyAssign (json : Address)
  | moveAssign (json : Address)

def operate (heap : Heap) (reference : Address) : Operation → Option Heap
  | .lookup index => (heap.lookup reference index).map fun _ => heap
  | .add addition => (heap.add reference addition).map Prod.snd
  | .parse json => heap.parse reference json
  | .parseFile contents => heap.parseFile reference contents
  | .assignScalar val => heap.assignScalar reference val
  | .copyAssign json => heap.copyAssign reference json
  | .moveAssign json => heap.moveAssign reference json

end Heap

end DumaisLib.JSON
