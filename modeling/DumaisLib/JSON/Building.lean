import DumaisLib.JSON.Tree

/-!
# Building trees

Objects, lists and values are added below a node that a chain of lookups by name
and index leads to.
-/

namespace DumaisLib.JSON

open Machine

/-- What an overload of `addValue` takes; the text of a double is the one that its stream prints. -/
inductive Scalar where
  | string (val : Text)
  | uint (val : Nat)
  | int (val : Int)
  | double (printed : Text)
  | bool (val : Bool)

/-- The new value; the constructor for an `int` keeps the type of an unsigned one. -/
def Scalar.node : Scalar → Node
  | .string val => .Value (Value.textOf val .String) .String
  | .uint val => .Value (toString val).toList .UInt
  | .int val => .Value (toString val).toList .UInt
  | .double printed => .Value printed .Double
  | .bool val => .Value (if val then "true".toList else "false".toList) .Bool

/-- The calls that add a child, with the name that they are given. -/
inductive Addition where
  | addObject (name : Text)
  | addList (name : Text)
  | addValue (val : Scalar) (name : Text)

def Addition.name : Addition → Text
  | .addObject name => name
  | .addList name => name
  | .addValue _ name => name

/-- The new child. -/
def Addition.node : Addition → Node
  | .addObject _ => .Object []
  | .addList _ => .List []
  | .addValue val _ => val.node

/-! ## Keys -/

def numberedKey (i : Nat) : Text :=
  "key".toList ++ (toString i).toList

/-- One turn of the loop of `generateKey`. -/
def generateKeyTurn (mMembers : List (Text × Node)) (i : Nat) : Option (Turn Nat Text) :=
  some (if numberedKey i ∈ mMembers.map Prod.fst then .again (i + 1) else .stop (numberedKey i))

/-- The members have too few keys to keep the loop in more turns than this. -/
def generateKey (mMembers : List (Text × Node)) : Text :=
  ((loop (generateKeyTurn mMembers) (mMembers.length + 1) mMembers.length).result?).getD []

/-- The key of a new member of an object. -/
def keyFor (name : Text) (mMembers : List (Text × Node)) : Text :=
  if name = [] then generateKey mMembers else name

/-- A list ignores the name, and a value ignores the call. -/
def Node.add (addition : Addition) : Node → Node
  | .Object mMembers =>
      .Object (assign (keyFor addition.name mMembers) addition.node mMembers)
  | .List mMembers => .List (mMembers ++ [addition.node])
  | .Value mValue mSubType => .Value mValue mSubType

/-! ## Lookups -/

/-- The argument of a lookup. -/
inductive Index where
  | key (key : Text)
  | index (i : Nat)

/-- A chain of lookups. -/
abbrev Path := List Index

/-- The child that the lookup finds; without one it leads to the invalid instance. -/
def Node.child? : Node → Index → Option Node
  | .Object mMembers, .key key => mMembers.lookup key
  | .List mMembers, .index i => mMembers[i]?
  | _, _ => none

/-- The node that a chain of lookups finds. -/
def Node.below? (path : Path) (node : Node) : Option Node :=
  path.foldlM Node.child? node

/-- The node with the child replaced, when there is one. -/
def Node.mapChild (change : Node → Node) : Node → Index → Node
  | .Object mMembers, .key key =>
      .Object (mMembers.map fun member =>
        if member.1 = key then (member.1, change member.2) else member)
  | .List mMembers, .index i => .List (mMembers.modify i change)
  | node, _ => node

/-- The node with the one below it changed; a path that leads nowhere changes nothing. -/
def Node.mapBelow (change : Node → Node) : Path → Node → Node
  | [], node => change node
  | index :: path, node => node.mapChild (Node.mapBelow change path) index

/-! ## Assigned members -/

theorem lookup_assign (key : Text) (node : Node) (mMembers : List (Text × Node)) :
    (assign key node mMembers).lookup key = some node := by
  induction mMembers with
  | nil => exact List.lookup_cons_self
  | cons member mMembers ih =>
      rw [assign]
      split
      · exact List.lookup_cons_self
      · rename_i hkey
        have hne : (key == member.1) = false := beq_eq_false_iff_ne.mpr (Ne.symm hkey)
        rw [List.lookup_cons, hne]
        exact ih

theorem lookup_assign_of_ne {key other : Text} (hne : other ≠ key) (node : Node)
    (mMembers : List (Text × Node)) :
    (assign key node mMembers).lookup other = mMembers.lookup other := by
  induction mMembers with
  | nil =>
      rw [assign, List.lookup_cons, beq_eq_false_iff_ne.mpr hne]
  | cons member mMembers ih =>
      obtain ⟨name, child⟩ := member
      rw [assign]
      split
      · rename_i hkey
        dsimp only at hkey
        subst hkey
        rw [List.lookup_cons, List.lookup_cons, beq_eq_false_iff_ne.mpr hne]
      · rw [List.lookup_cons, List.lookup_cons, ih]

/-! ## What holds of all children -/

section Children

variable {change : Node → Node}

theorem forall_mem_assign {holds : Text × Node → Prop} {key : Text} {node : Node}
    {mMembers : List (Text × Node)} (hmembers : ∀ member ∈ mMembers, holds member)
    (hnew : holds (key, node)) : ∀ member ∈ assign key node mMembers, holds member := by
  induction mMembers with
  | nil => exact List.forall_mem_singleton.mpr hnew
  | cons first mMembers ih =>
      obtain ⟨hfirst, hrest⟩ := List.forall_mem_cons.mp hmembers
      rw [assign]
      split
      · exact List.forall_mem_cons.mpr ⟨hnew, hrest⟩
      · exact List.forall_mem_cons.mpr ⟨hfirst, ih hrest⟩

theorem forall_mem_append_singleton {holds : Node → Prop} {node : Node} {mMembers : List Node}
    (hchildren : ∀ child ∈ mMembers, holds child) (hnew : holds node) :
    ∀ child ∈ mMembers ++ [node], holds child :=
  List.forall_mem_append.mpr ⟨hchildren, List.forall_mem_singleton.mpr hnew⟩

theorem forall_mem_mapKey {holds : Text × Node → Prop} {key : Text} {mMembers : List (Text × Node)}
    (hmembers : ∀ member ∈ mMembers, holds member)
    (hchange : ∀ child, (key, child) ∈ mMembers → holds (key, change child)) :
    ∀ member ∈ mMembers.map fun member =>
      if member.1 = key then (member.1, change member.2) else member, holds member := by
  intro member hmember
  obtain ⟨⟨name, child⟩, hold, rfl⟩ := List.mem_map.mp hmember
  split
  · rename_i hkey
    dsimp only at hkey
    subst hkey
    exact hchange child hold
  · exact hmembers _ hold

theorem forall_mem_modify {holds : Node → Prop} {i : Nat} {mMembers : List Node}
    (hchildren : ∀ child ∈ mMembers, holds child)
    (hchange : ∀ child, mMembers[i]? = some child → holds (change child)) :
    ∀ child ∈ mMembers.modify i change, holds child := by
  intro child hchild
  obtain ⟨position, hget⟩ := List.mem_iff_getElem?.mp hchild
  rw [List.getElem?_modify] at hget
  obtain ⟨child', hget', rfl⟩ := Option.map_eq_some_iff.mp hget
  split
  · rename_i hi
    subst hi
    exact hchange child' hget'
  · exact hchildren child' (List.mem_of_getElem? hget')

end Children

end DumaisLib.JSON
