import DumaisLib.JSON.Building

/-!
# Repeated names

When a name comes a second time in an object, the loop of `parseObject` writes the
new node over the pointer to the one before, which nothing points to from then on.
-/

namespace DumaisLib.JSON

open Machine DumaisLib.JSON.Parser

mutual

/-- The nodes that are overwritten while the node of a property is made. -/
def overwrittenNode : Nat → JSONProperty → List Node
  | 0, _ => []
  | fuel + 1, p =>
      match p.type with
      | .JSON_Object => overwrittenObject fuel p.value
      | .JSON_List => overwrittenList fuel p.value
      | _ => []

def overwrittenObject : Nat → Text → List Node
  | 0, _ => []
  | fuel + 1, str =>
      match str with
      | [] => []
      | char :: tmp => if char ≠ '\x7b' then [] else overwrittenMembers fuel [] tmp

def overwrittenList : Nat → Text → List Node
  | 0, _ => []
  | fuel + 1, str =>
      match str with
      | [] => []
      | char :: tmp => if char ≠ '[' then [] else overwrittenElements fuel tmp

/-- A node that is overwritten is lost with all below it. -/
def overwrittenMembers : Nat → List (Text × Node) → Text → List Node
  | 0, _, _ => []
  | fuel + 1, mMembers, tmp =>
      if tmp = [] then []
      else
        match getPair tmp with
        | none => []
        | some p =>
            if p.val.type = .JSON_Invalid then []
            else
              match newNode fuel p.val with
              | .outOfFuel => []
              | .fault => []
              | .finished node =>
                  overwrittenNode fuel p.val ++ (mMembers.lookup p.key).toList ++
                    match behind tmp p.size with
                    | none => []
                    | some .stop => []
                    | some (.next tmp) => overwrittenMembers fuel (assign p.key node mMembers) tmp

def overwrittenElements : Nat → Text → List Node
  | 0, _ => []
  | fuel + 1, tmp =>
      if tmp = [] then []
      else
        match getValue tmp with
        | none => []
        | some p =>
            if p.type = .JSON_Invalid then []
            else
              overwrittenNode fuel p ++
                match behind tmp p.size with
                | none => []
                | some .stop => []
                | some (.next tmp) => overwrittenElements fuel tmp

end

/-- The nodes that are overwritten while a text is parsed. -/
def overwritten (json : Text) : List Node :=
  let json := removeSpaces json
  overwrittenObject (3 * json.length + 3) json

example : (overwritten "\x7b\"a\":\"x\",\"a\":[]\x7d".toList).map (Node.stringify (-1)) =
    ["\"x\"".toList] := by
  decide +kernel

end DumaisLib.JSON
