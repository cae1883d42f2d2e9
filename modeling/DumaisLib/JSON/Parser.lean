import DumaisLib.Lib.Text

/-!
# The JSON scanner

Texts are scanned as C strings: a scan ends at a NUL character or at the end of
the text, where the terminating NUL is.  A scan that would go on behind the
terminating NUL is a fault.
-/

namespace DumaisLib.JSON

inductive ValueSubType where
  | Illegal
  | Double
  | Int
  | UInt
  | String
  | Bool
  deriving DecidableEq

inductive JSONType where
  | JSON_Invalid
  | JSON_Object
  | JSON_List
  | JSON_Value
  deriving DecidableEq

structure JSONProperty where
  value : Text
  subType : ValueSubType
  type : JSONType
  size : Nat
  deriving DecidableEq

structure Pair where
  key : Text
  val : JSONProperty
  size : Nat
  deriving DecidableEq

/-- Where a scan for a closing brace or bracket ends; `npos` when there is none. -/
inductive Scan where
  | fault
  | npos
  | found (size : Nat)
  deriving DecidableEq

/-- The character at the index, NUL at the end; none behind the end. -/
def charAt (str : Text) (index : Nat) : Option Char :=
  if index < str.length then str[index]?
  else if index = str.length then some '\x00'
  else none

namespace Parser

/-- The number of characters before the closing quote, or before the NUL. -/
def closingQuoteFrom (nextEscape : Bool) : Text → Nat
  | [] => 0
  | char :: buf =>
      if char = '\x00' then 0
      else if nextEscape then closingQuoteFrom false buf + 1
      else if char = '\\' then closingQuoteFrom true buf + 1
      else if char = '"' then 0
      else closingQuoteFrom false buf + 1

/-- The size of the literal, both quotes included; that of an open one counts its NUL. -/
def findClosingQuote : Text → Option Nat
  | [] => none
  | char :: buf => if char ≠ '"' then none else some (1 + closingQuoteFrom false buf + 1)

/--
The scan behind the first `position` characters; the next `skip` characters
belong to a literal whose end is known, and `level` is an `int`.
-/
def closingFrom (opening closing : Char) : Nat → Nat → Nat → Text → Scan
  | 0, _, _, [] => .npos
  | _ + 1, _, _, [] => .fault
  | skip + 1, level, position, _ :: buf =>
      closingFrom opening closing skip level (position + 1) buf
  | 0, level, position, char :: buf =>
      if char = '\x00' then .npos
      else if char = '"' then
        match findClosingQuote (char :: buf) with
        | none => .npos
        | some size => closingFrom opening closing (size - 1) level (position + 1) buf
      else if char = opening then
        if level + 1 < 2 ^ 31 then closingFrom opening closing 0 (level + 1) (position + 1) buf
        else .fault
      else if char = closing then
        if level - 1 = 0 then .found (position + 1)
        else closingFrom opening closing 0 (level - 1) (position + 1) buf
      else closingFrom opening closing 0 level (position + 1) buf

/-- The scan for the end of what the opening character begins. -/
def findClosing (opening closing : Char) : Text → Scan
  | [] => .npos
  | char :: buf => if char ≠ opening then .npos else closingFrom opening closing 0 1 1 buf

def findClosingCurly : Text → Scan :=
  findClosing '\x7b' '\x7d'

def findClosingBracket : Text → Scan :=
  findClosing '[' ']'

def isSpace (char : Char) : Bool :=
  char = '\t' || char = ' ' || char = '\r' || char = '\n'

/--
The rest of the result, when the next `copy` characters belong to a literal;
copying may reach the NUL behind the text.
-/
def removeSpacesFrom : Nat → Text → Option Text
  | 0, [] => some []
  | _ + 1, [] => some ['\x00']
  | copy + 1, char :: str => (removeSpacesFrom copy str).map (char :: ·)
  | 0, char :: str =>
      if char = '"' then
        match findClosingQuote (char :: str) with
        | none => none
        | some size => (removeSpacesFrom (size - 1) str).map (char :: ·)
      else if isSpace char then removeSpacesFrom 0 str
      else (removeSpacesFrom 0 str).map (char :: ·)

def removeSpaces (str : Text) : Text :=
  (removeSpacesFrom 0 str).getD []

def parseString (str : Text) : Text :=
  match findClosingQuote str with
  | none => []
  | some size => if size < 3 then [] else str.substr 1 (size - 2)

/-- A character of a number or of a literal name. -/
def isNaked (char : Char) : Bool :=
  char.isAlphanum || char = '.' || char = '-'

def parseNakedValue (str : Text) : Text :=
  str.takeWhile isNaked

/-- The check of a number; `first` at its first character, `dot` behind a dot. -/
def validateNumber (first dot : Bool) (nrv : ValueSubType) : Text → ValueSubType
  | [] => nrv
  | char :: ret =>
      if char = '-' then
        if ¬ first then .Illegal
        else validateNumber false dot (if nrv ≠ .Double then .UInt else nrv) ret
      else if char = '.' then
        if dot then .Illegal else validateNumber false true .Double ret
      else if ¬ char.isDigit then .Illegal
      else validateNumber false dot nrv ret

def validateNakedValue (ret : Text) : ValueSubType :=
  if ret = [] then .Illegal
  else if ret.toLower = "true".toList ∨ ret.toLower = "false".toList then .Bool
  else validateNumber true false .Int ret

/-- A property of no type. -/
def invalid : JSONProperty :=
  ⟨[], .Illegal, .JSON_Invalid, 0⟩

/-- The object or list that the scan has found the end of. -/
def enclosed (str : Text) (type : JSONType) : Scan → Option JSONProperty
  | .fault => none
  | .npos => some invalid
  | .found size => some ⟨str.take size, .Illegal, type, size⟩

/-- The property at the start of the text; its `subType` counts for values only. -/
def getValue (str : Text) : Option JSONProperty :=
  match str with
  | [] => some invalid
  | char :: _ =>
      if char = '\x7b' then enclosed str .JSON_Object (findClosingCurly str)
      else if char = '[' then enclosed str .JSON_List (findClosingBracket str)
      else if char = '"' then
        let value := parseString str
        some ⟨value, .String, .JSON_Value, value.length + 2⟩
      else if isNaked char then
        let tmp := parseNakedValue str
        match validateNakedValue tmp with
        | .Illegal => some ⟨"\x7billegal\x7d".toList, .Illegal, .JSON_Value, tmp.length⟩
        | nrv => some ⟨tmp, nrv, .JSON_Value, tmp.length⟩
      else some invalid

/-- The key and the value at the start of the text. -/
def getPair (str : Text) : Option Pair :=
  let key := parseString str
  if key = [] then some ⟨[], invalid, 0⟩
  else
    match charAt str (key.length + 2) with
    | none => none
    | some char =>
        if char ≠ ':' then some ⟨key, invalid, key.length + 2⟩
        else
          match getValue (Text.cstr (str.drop (key.length + 3))) with
          | none => none
          | some val => some ⟨key, val, key.length + 3 + val.size⟩

end Parser

end DumaisLib.JSON
