import DumaisLib.JSON.Parser

/-!
# Texts of values

The texts of string values are escaped when they are printed and unescaped when
a value is made of them.
-/

namespace DumaisLib.JSON.Value

def escapeChar (char : Char) : Text :=
  if char = '"' then ['\\', '"']
  else if char = '\n' then ['\\', 'n']
  else if char = '\r' then ['\\', 'r']
  else if char = '\t' then ['\\', 't']
  else if char = '\\' then ['\\', '\\']
  else [char]

def escapeString (st : Text) : Text :=
  st.flatMap escapeChar

/-- The character that a backslash and `char` stand for. -/
def unEscapeChar (char : Char) : Option Char :=
  if char = '\x27' then some '\x27'
  else if char = '"' then some '"'
  else if char = 'n' then some '\n'
  else if char = 'r' then some '\r'
  else if char = 't' then some '\t'
  else if char = '\\' then some '\\'
  else none

def unEscapeString : Text → Text
  | [] => []
  | [char] => [char]
  | char :: char2 :: st =>
      if char = '\\' then
        match unEscapeChar char2 with
        | some plain => plain :: unEscapeString st
        | none => char :: unEscapeString (char2 :: st)
      else char :: unEscapeString (char2 :: st)

/-- What the printed text of a value is. -/
def stringify (mValue : Text) (mSubType : ValueSubType) : Text :=
  match mSubType with
  | .Illegal => '"' :: (escapeString mValue ++ ['"'])
  | .String => '"' :: (escapeString mValue ++ ['"'])
  | .UInt => mValue
  | .Int => mValue
  | .Double => mValue
  | .Bool => mValue

/-- The text that the constructor keeps. -/
def textOf (value : Text) (subType : ValueSubType) : Text :=
  if subType = .Bool then Text.toLower value else unEscapeString value

end DumaisLib.JSON.Value
