import DumaisLib.Lib.BigEndian
import DumaisLib.Lib.Search
import DumaisLib.Lib.Regex
import Mathlib.Data.List.AList

/-!
# Texts

A `std::string` is a list of characters, each standing for one byte.
-/

/-- A string of byte-sized characters. -/
abbrev Text := List Char

/-- A table from texts to texts. -/
abbrev TextMap := AList fun _ : Text => Text

namespace TextMap

/-- The table with the entries added one after the other. -/
def addAll (entries : List (Text × Text)) (table : TextMap) : TextMap :=
  entries.foldl (fun table entry => table.insert entry.1 entry.2) table

theorem addAll_append (entries more : List (Text × Text)) (table : TextMap) :
    addAll (entries ++ more) table = addAll more (addAll entries table) :=
  List.foldl_append

/-- The last entry for a key counts. -/
theorem lookup_addAll (entries : List (Text × Text)) (table : TextMap) (key : Text) :
    (addAll entries table).lookup key = (entries.reverse.lookup key).or (table.lookup key) := by
  induction entries generalizing table with
  | nil => rfl
  | cons entry entries ih =>
      obtain ⟨first, value⟩ := entry
      have hstep : addAll ((first, value) :: entries) table =
          addAll entries (table.insert first value) := rfl
      rw [hstep, ih, List.reverse_cons, List.lookup_append, Option.or_assoc,
        List.lookup_singleton]
      by_cases hkey : key = first
      · subst hkey
        rw [AList.lookup_insert, if_pos (beq_self_eq_true _), Option.some_or]
      · rw [AList.lookup_insert_ne hkey, if_neg (by simpa using hkey), Option.none_or]

theorem lookup_addAll_mem {entries : List (Text × Text)} {key value : Text}
    (hlookup : (addAll entries ∅).lookup key = some value) : (key, value) ∈ entries := by
  rw [lookup_addAll, AList.lookup_empty, Option.or_none] at hlookup
  obtain ⟨before, after, hsplit, -⟩ := List.lookup_eq_some_iff.mp hlookup
  rw [← List.mem_reverse, hsplit]
  exact List.mem_append_right _ List.mem_cons_self

/-- With distinct keys every entry is found. -/
theorem lookup_addAll_iff {entries : List (Text × Text)} (hdistinct : (entries.map Prod.fst).Nodup)
    {key value : Text} : (addAll entries ∅).lookup key = some value ↔ (key, value) ∈ entries := by
  refine ⟨lookup_addAll_mem, fun hmem => ?_⟩
  cases hlookup : (addAll entries ∅).lookup key with
  | some other =>
      have heq := List.inj_on_of_nodup_map hdistinct hmem (lookup_addAll_mem hlookup) rfl
      rw [(Prod.mk.inj heq).2]
  | none =>
      rw [lookup_addAll, AList.lookup_empty, Option.or_none, List.lookup_eq_none_iff] at hlookup
      exact absurd (hlookup _ (List.mem_reverse.mpr hmem)) (by simp)

end TextMap

namespace Text

/-- The bytes as characters. -/
def ofBytes (bytes : List Byte) : Text :=
  bytes.map fun byte => Char.ofNat byte.toNat

/-- The characters as bytes. -/
def toBytes (text : Text) : List Byte :=
  text.map fun char => BitVec.ofNat 8 char.toNat

/-- `substr`: at most `count` characters from `start` on. -/
def substr (text : Text) (start count : Nat) : Text :=
  (text.drop start).take count

/-- `tolower` on every character. -/
def toLower (text : Text) : Text :=
  text.map Char.toLower

/-- `toupper` on every character. -/
def toUpper (text : Text) : Text :=
  text.map Char.toUpper

/-- The text up to its first NUL character. -/
def cstr (text : Text) : Text :=
  text.takeWhile (· ≠ '\x00')

/-- The white space of the C locale. -/
def isSpace (char : Char) : Bool :=
  char = ' ' || ('\t' ≤ char && char ≤ '\r')

/-- One more digit of a decimal number. -/
def addDigit (total : Nat) (char : Char) : Nat :=
  10 * total + (char.toNat - 48)

/-- The digits at the start of the text as a decimal number. -/
def digits (text : Text) : Nat :=
  (text.takeWhile Char.isDigit).foldl addDigit 0

/-- An optional sign and digits. -/
def signed : Text → Int
  | [] => 0
  | char :: rest =>
      if char = '-' then -digits rest
      else if char = '+' then digits rest
      else digits (char :: rest)

/-- The number at the start of the text, after white space. -/
def number (text : Text) : Int :=
  signed (text.dropWhile isSpace)

/-- `atoi` by way of a 64-bit `strtol`, which saturates; the cast to `int` wraps around. -/
def atoi (text : Text) : Int :=
  (max (-2 ^ 63) (min (number text) (2 ^ 63 - 1))).bmod (2 ^ 32)

/-- The tests of a literal pattern that ignores case. -/
def noCase (text : Text) : List (Char → Bool) :=
  text.map fun char other => other.toLower = char.toLower

/-- The `.` of a pattern: any character that does not end a line. -/
def dot (char : Char) : Bool :=
  char ≠ '\n' && char ≠ '\r'

/-! ## Letters -/

theorem char_toLower_toUpper (char : Char) : char.toUpper.toLower = char.toLower := by
  by_cases hlower : char.toNat < 123
  · have hall : ∀ code : Fin 123,
        (Char.ofNat code).toUpper.toLower = (Char.ofNat code).toLower := by decide
    have hcode := hall ⟨char.toNat, hlower⟩
    rwa [Char.ofNat_toNat] at hcode
  · have hupper : char.toUpper = char := by
      refine dif_neg fun hsmall => hlower ?_
      exact Nat.lt_succ_of_le (UInt32.le_iff_toNat_le.mp hsmall.2)
    rw [hupper]

/-- Only letters are changed, and not to the ends of lines. -/
theorem dot_toLower (char : Char) : dot char.toLower = dot char := by
  by_cases hlower : char.toNat < 123
  · have hall : ∀ code : Fin 123, dot (Char.ofNat code).toLower = dot (Char.ofNat code) := by decide
    have hcode := hall ⟨char.toNat, hlower⟩
    rwa [Char.ofNat_toNat] at hcode
  · have hsame : char.toLower = char := by
      refine dif_neg fun hletter => hlower ?_
      have hle := UInt32.le_iff_toNat_le.mp hletter.2
      exact (show char.toNat ≤ 90 from hle).trans_lt (by decide)
    rw [hsame]

theorem toLower_toUpper (text : Text) : toLower (toUpper text) = toLower text := by
  rw [toLower, toUpper, List.map_map]
  exact List.map_congr_left fun char _ => char_toLower_toUpper char

/-! ## Texts that grow at their end -/

theorem cstr_of_not_mem {text : Text} (hnul : '\x00' ∉ text) : cstr text = text := by
  apply List.takeWhile_eq_self_iff.mpr
  intro char hchar
  have hne : char ≠ '\x00' := fun heq => hnul (heq ▸ hchar)
  simpa using hne

theorem cstr_length_lt {text : Text} (hnul : '\x00' ∈ text) : (cstr text).length < text.length := by
  have hbegins : cstr text <+: text := List.takeWhile_prefix _
  refine lt_of_le_of_ne hbegins.length_le fun heq => ?_
  have hself : cstr text = text := hbegins.eq_of_length heq
  exact absurd (List.takeWhile_eq_self_iff.mp hself _ hnul) (by decide)

theorem cstr_append (text more : Text) :
    cstr (text ++ more) = if '\x00' ∈ text then cstr text else text ++ cstr more := by
  unfold cstr
  rw [List.takeWhile_append]
  by_cases hnul : '\x00' ∈ text
  · have hshort : (text.takeWhile (· ≠ '\x00')).length ≠ text.length := (cstr_length_lt hnul).ne
    rw [if_pos hnul, if_neg hshort]
  · have hself : text.takeWhile (· ≠ '\x00') = text := cstr_of_not_mem hnul
    rw [if_neg hnul, if_pos (by rw [hself])]

theorem cstr_prefix (text more : Text) : cstr text <+: cstr (text ++ more) :=
  Regex.takeWhile_append_prefix _ _ _

theorem foldl_addDigit_mono {total total' : Nat} (hle : total ≤ total') (text more : Text) :
    text.foldl addDigit total ≤ (text ++ more).foldl addDigit total' := by
  induction text generalizing total total' with
  | nil =>
      induction more generalizing total' with
      | nil => exact hle
      | cons char more ih =>
          refine ih (hle.trans ?_)
          unfold addDigit
          omega
  | cons char text ih =>
      apply ih
      unfold addDigit
      omega

theorem digits_mono (text more : Text) : digits text ≤ digits (text ++ more) := by
  obtain ⟨rest, hrest⟩ := Regex.takeWhile_append_prefix Char.isDigit text more
  unfold digits
  rw [← hrest]
  exact foldl_addDigit_mono le_rfl _ _

theorem signed_mono {text more : Text} (hpos : 0 ≤ signed text)
    (hpos' : 0 ≤ signed (text ++ more)) : signed text ≤ signed (text ++ more) := by
  cases text with
  | nil => exact hpos'
  | cons char rest =>
      have hrest := digits_mono rest more
      have hwhole := digits_mono (char :: rest) more
      simp only [List.cons_append, signed] at hpos hpos' hwhole ⊢
      split at hpos'
      · rename_i hminus
        simp only [hminus, if_true] at hpos ⊢
        omega
      · rename_i hminus
        simp only [hminus, if_false]
        split <;> omega

/-- A number that is not negative grows with its text. -/
theorem number_mono {text more : Text} (hpos : 0 ≤ number text)
    (hpos' : 0 ≤ number (text ++ more)) : number text ≤ number (text ++ more) := by
  unfold number at *
  rcases Regex.dropWhile_append_prefix isSpace text more with hnil | hdrop
  · rw [hnil]
    exact hpos'
  · rw [hdrop] at hpos' ⊢
    exact signed_mono hpos hpos'

end Text
