import DumaisLib.Lib.Text

/-!
# Base 64

The encoding of RFC 4648, section 4: groups of 24 bits as four digits.  A last
group of 8 or 16 bits is filled up with zero bits to whole digits.
-/

namespace Rfc4648

/-- The digit for a value of six bits. -/
def digit (value : BitVec 6) : Char :=
  if value.toNat < 26 then Char.ofNat (65 + value.toNat)
  else if value.toNat < 52 then Char.ofNat (97 + (value.toNat - 26))
  else if value.toNat < 62 then Char.ofNat (48 + (value.toNat - 52))
  else if value.toNat = 62 then '+'
  else '/'

def base64 : List Byte → Text
  | [] => []
  | [first] =>
      [digit (first.extractLsb' 2 6), digit (first.extractLsb' 0 2 ++ 0#4), '=', '=']
  | [first, second] =>
      [digit (first.extractLsb' 2 6), digit (first.extractLsb' 0 2 ++ second.extractLsb' 4 4),
        digit (second.extractLsb' 0 4 ++ 0#2), '=']
  | first :: second :: third :: bytes =>
      [digit (first.extractLsb' 2 6), digit (first.extractLsb' 0 2 ++ second.extractLsb' 4 4),
        digit (second.extractLsb' 0 4 ++ third.extractLsb' 6 2), digit (third.extractLsb' 0 6)] ++
        base64 bytes

/-- The value of a digit. -/
def value (char : Char) : Nat :=
  if 'A' ≤ char ∧ char ≤ 'Z' then char.toNat - 65
  else if 'a' ≤ char ∧ char ≤ 'z' then char.toNat - 97 + 26
  else if '0' ≤ char ∧ char ≤ '9' then char.toNat - 48 + 52
  else if char = '+' then 62
  else 63

theorem value_digit (digits : BitVec 6) : value (digit digits) = digits.toNat := by
  revert digits
  decide

theorem digit_inj {first second : BitVec 6} (hdigit : digit first = digit second) :
    first = second := by
  have hvalue := congrArg value hdigit
  rw [value_digit, value_digit] at hvalue
  exact BitVec.eq_of_toNat_eq hvalue

end Rfc4648
