import DumaisLib.JSON.Value
import DumaisLib.Lib.Machine

/-!
# Trees of objects, lists and values

A tree is printed by walking over it and parsed by scanning for the end of each
member, which is then parsed on its own.
-/

namespace DumaisLib.JSON

open Machine DumaisLib.JSON.Parser

/--
The members of an object stand in the order in which its hash table enumerates
them; no theorem depends on that order.
-/
inductive Node where
  | Object (mMembers : List (Text × Node))
  | List (mMembers : List Node)
  | Value (mValue : Text) (mSubType : ValueSubType)

/-- Induction over trees, with a hypothesis for every child. -/
@[elab_as_elim]
theorem Node.children_induction {motive : Node → Prop}
    (object : ∀ mMembers, (∀ member ∈ mMembers, motive member.2) → motive (.Object mMembers))
    (list : ∀ mMembers, (∀ child ∈ mMembers, motive child) → motive (.List mMembers))
    (value : ∀ mValue mSubType, motive (.Value mValue mSubType)) : ∀ node, motive node
  | .Object mMembers => object mMembers fun member _ =>
      Node.children_induction object list value member.2
  | .List mMembers => list mMembers fun child _ =>
      Node.children_induction object list value child
  | .Value mValue mSubType => value mValue mSubType
termination_by node => sizeOf node
decreasing_by
  · rename_i hmember
    have hlt := List.sizeOf_lt_of_mem hmember
    obtain ⟨key, child⟩ := member
    simp at hlt ⊢
    omega
  · rename_i hchild
    have hlt := List.sizeOf_lt_of_mem hchild
    simp
    omega

/-! ## Printing -/

/-- The line ends of a formatted text. -/
def lineEnd (level : Int) : Text :=
  if level = -1 then [] else "\r\n".toList

def tabs (level : Int) : Text :=
  .replicate level.toNat '\t'

/-- The level of the children. -/
def below (level : Int) : Int :=
  if level = -1 then level else level + 1

mutual

/-- Level `-1` stands for a text that is not formatted. -/
def Node.stringify (level : Int) : Node → Text
  | .Object mMembers =>
      '\x7b' :: (lineEnd level ++ (stringifyMembers level mMembers ++ (tabs (level - 1) ++ ['\x7d'])))
  | .List mMembers =>
      '[' :: (lineEnd level ++ (stringifyElements level mMembers ++ (tabs (level - 1) ++ [']'])))
  | .Value mValue mSubType => Value.stringify mValue mSubType

def stringifyMembers (level : Int) : List (Text × Node) → Text
  | [] => []
  | (key, child) :: members =>
      tabs level ++ ('"' :: (key ++ "\" : ".toList ++ (child.stringify (below level) ++
        ((if members.isEmpty then [] else [',']) ++
          (lineEnd level ++ stringifyMembers level members)))))

def stringifyElements (level : Int) : List Node → Text
  | [] => []
  | child :: elements =>
      tabs level ++ (child.stringify (below level) ++
        ((if elements.isEmpty then [] else [',']) ++
          (lineEnd level ++ stringifyElements level elements)))

end

/-! ## Parsing -/

/-- `mMembers[key] = node` -/
def assign (key : Text) (node : Node) : List (Text × Node) → List (Text × Node)
  | [] => [(key, node)]
  | member :: members =>
      if member.1 = key then (key, node) :: members else member :: assign key node members

/-- What stands behind a member: nothing more, the next member, or the end of the text. -/
inductive Behind where
  | stop
  | next (tmp : Text)

/-- The text behind the first `size` characters when they are followed by a comma. -/
def behind (tmp : Text) (size : Nat) : Option Behind :=
  (charAt tmp size).map fun char =>
    if char = ',' then .next (tmp.drop (size + 1)) else .stop

mutual

/-- A new object, list or value for a property, which is not invalid. -/
def newNode : Nat → JSONProperty → Outcome Node
  | 0, _ => .outOfFuel
  | fuel + 1, p =>
      match p.type with
      | .JSON_Object => parseObject fuel p.value
      | .JSON_List => parseList fuel p.value
      | _ => .finished (.Value (Value.textOf p.value p.subType) p.subType)

def parseObject : Nat → Text → Outcome Node
  | 0, _ => .outOfFuel
  | fuel + 1, str =>
      match str with
      | [] => .finished (.Object [])
      | char :: tmp =>
          if char ≠ '\x7b' then .finished (.Object []) else parseMembers fuel [] tmp

def parseList : Nat → Text → Outcome Node
  | 0, _ => .outOfFuel
  | fuel + 1, str =>
      match str with
      | [] => .finished (.List [])
      | char :: tmp =>
          if char ≠ '[' then .finished (.List []) else parseElements fuel [] tmp

/-- The loop of `parseObject`; `tmp` is the text from index `i` on. -/
def parseMembers : Nat → List (Text × Node) → Text → Outcome Node
  | 0, _, _ => .outOfFuel
  | fuel + 1, mMembers, tmp =>
      if tmp = [] then .finished (.Object mMembers)
      else
        match getPair tmp with
        | none => .fault
        | some p =>
            if p.val.type = .JSON_Invalid then .finished (.Object mMembers)
            else
              match newNode fuel p.val with
              | .outOfFuel => .outOfFuel
              | .fault => .fault
              | .finished node =>
                  let mMembers := assign p.key node mMembers
                  match behind tmp p.size with
                  | none => .fault
                  | some .stop => .finished (.Object mMembers)
                  | some (.next tmp) => parseMembers fuel mMembers tmp

/-- The loop of `parseList`. -/
def parseElements : Nat → List Node → Text → Outcome Node
  | 0, _, _ => .outOfFuel
  | fuel + 1, mMembers, tmp =>
      if tmp = [] then .finished (.List mMembers)
      else
        match getValue tmp with
        | none => .fault
        | some p =>
            if p.type = .JSON_Invalid then .finished (.List mMembers)
            else
              match newNode fuel p with
              | .outOfFuel => .outOfFuel
              | .fault => .fault
              | .finished node =>
                  let mMembers := mMembers ++ [node]
                  match behind tmp p.size with
                  | none => .fault
                  | some .stop => .finished (.List mMembers)
                  | some (.next tmp) => parseElements fuel mMembers tmp

end

/-! ## Documents -/

/-- The text of a document; the root is at level `1` when it is formatted. -/
def stringify (formatted : Bool) (mRoot : Node) : Text :=
  mRoot.stringify (if formatted then 1 else -1)

/-- The calls nest at most three deep for each character of the text. -/
def parse (json : Text) : Outcome Node :=
  let json := removeSpaces json
  parseObject (3 * json.length + 3) json

end DumaisLib.JSON
