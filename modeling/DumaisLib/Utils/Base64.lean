import DumaisLib.Lib.Rfc4648
import DumaisLib.Utils.Hash

/-!
# Base 64

Four bytes are read at a time, also where fewer are left.  The digits of a last
group take bits of the byte behind it.
-/

namespace DumaisLib.Utils.Base64

open Digest

/-- What lies in memory from an address on: the bytes and what is behind them. -/
def memory (bytes : List Byte) (behind : Nat → Byte) (address : Nat) : Byte :=
  if address < bytes.length then bytes.getD address 0#8 else behind (address - bytes.length)

def digits : Text :=
  "ABCDEFGHIJKLMNOPQRSTUVWXYZabcdefghijklmnopqrstuvwxyz0123456789+/".toList

/-- `digits[(tmp>>shift)&0x3F]` -/
def digitAt (tmp : Word) (shift : Nat) : Char :=
  digits.getD ((tmp >>> shift) &&& 0x3F#32).toNat '\x00'

/-- `MOVEBE(*((unsigned int*)&data[i]))` -/
def wordAt (data : Nat → Byte) (i : Nat) : Word :=
  MOVEBE (data (i + 3) ++ data (i + 2) ++ data (i + 1) ++ data i)

/-- The loop from index `i` on, with `size - i` bytes left. -/
def encodeFrom (data : Nat → Byte) : Nat → Nat → Text
  | 0, _ => []
  | 1, i => [digitAt (wordAt data i) 26, digitAt (wordAt data i) 20, '=', '=']
  | 2, i =>
      [digitAt (wordAt data i) 26, digitAt (wordAt data i) 20, digitAt (wordAt data i) 14, '=']
  | left + 3, i =>
      [digitAt (wordAt data i) 26, digitAt (wordAt data i) 20, digitAt (wordAt data i) 14,
        digitAt (wordAt data i) 8] ++ encodeFrom data left (i + 3)

def encode (data : Nat → Byte) (size : Nat) : Text :=
  encodeFrom data size 0

/-! ## The digits -/

theorem digits_eq (value : BitVec 6) : digits.getD value.toNat '\x00' = Rfc4648.digit value := by
  revert value
  decide

theorem digitAt_eq (tmp : Word) (shift : Nat) :
    digitAt tmp shift = Rfc4648.digit (tmp.extractLsb' shift 6) := by
  have hvalue : ((tmp >>> shift) &&& 0x3F#32).toNat = (tmp.extractLsb' shift 6).toNat := by
    rw [BitVec.toNat_and, BitVec.toNat_ushiftRight, BitVec.extractLsb'_toNat]
    exact Nat.and_two_pow_sub_one_eq_mod _ 6
  rw [digitAt, hvalue, digits_eq]

/-- The 24 bits that are taken of four bytes. -/
theorem extract_group (byte0 byte1 byte2 byte3 : Byte) :
    (byte0 ++ byte1 ++ byte2 ++ byte3).extractLsb' 26 6 = byte0.extractLsb' 2 6 ∧
      (byte0 ++ byte1 ++ byte2 ++ byte3).extractLsb' 20 6 =
        byte0.extractLsb' 0 2 ++ byte1.extractLsb' 4 4 ∧
      (byte0 ++ byte1 ++ byte2 ++ byte3).extractLsb' 14 6 =
        byte1.extractLsb' 0 4 ++ byte2.extractLsb' 6 2 ∧
      (byte0 ++ byte1 ++ byte2 ++ byte3).extractLsb' 8 6 = byte2.extractLsb' 0 6 := by
  refine ⟨?_, ?_, ?_, ?_⟩
  all_goals
    apply BitVec.eq_of_getLsbD_eq
    intro bit hbit
    simp only [BitVec.getLsbD_extractLsb', BitVec.getLsbD_append]
    interval_cases bit <;> simp [- BitVec.getLsbD_eq_getElem]

section Digits

variable (data : Nat → Byte) (i : Nat)

theorem first_digit :
    digitAt (wordAt data i) 26 = Rfc4648.digit ((data i).extractLsb' 2 6) := by
  rw [digitAt_eq, wordAt, MOVEBE_append]
  exact congrArg Rfc4648.digit (extract_group _ _ _ _).1

theorem second_digit :
    digitAt (wordAt data i) 20 =
      Rfc4648.digit ((data i).extractLsb' 0 2 ++ (data (i + 1)).extractLsb' 4 4) := by
  rw [digitAt_eq, wordAt, MOVEBE_append]
  exact congrArg Rfc4648.digit (extract_group _ _ _ _).2.1

theorem third_digit :
    digitAt (wordAt data i) 14 =
      Rfc4648.digit ((data (i + 1)).extractLsb' 0 4 ++ (data (i + 2)).extractLsb' 6 2) := by
  rw [digitAt_eq, wordAt, MOVEBE_append]
  exact congrArg Rfc4648.digit (extract_group _ _ _ _).2.2.1

theorem fourth_digit :
    digitAt (wordAt data i) 8 = Rfc4648.digit ((data (i + 2)).extractLsb' 0 6) := by
  rw [digitAt_eq, wordAt, MOVEBE_append]
  exact congrArg Rfc4648.digit (extract_group _ _ _ _).2.2.2

end Digits

/-! ## The last group -/

/-- The bits that the last group takes of the next byte are zero. -/
def Clear (size : Nat) (next : Byte) : Prop :=
  (size % 3 = 1 → next.toNat < 16) ∧ (size % 3 = 2 → next.toNat < 64)

instance (size : Nat) (next : Byte) : Decidable (Clear size next) :=
  inferInstanceAs (Decidable ((size % 3 = 1 → next.toNat < 16) ∧ (size % 3 = 2 → next.toNat < 64)))

theorem clear_four (first : BitVec 2) (next : Byte) :
    Rfc4648.digit (first ++ next.extractLsb' 4 4) = Rfc4648.digit (first ++ 0#4) ↔
      next.toNat < 16 := by
  have hcancel : ∀ (first : BitVec 2) (bits : BitVec 4), first ++ bits = first ++ 0#4 → bits = 0#4 := by
    decide
  have hclear : ∀ next : Byte, next.extractLsb' 4 4 = 0#4 ↔ next.toNat < 16 := by decide
  rw [← hclear]
  exact ⟨fun hdigit => hcancel _ _ (Rfc4648.digit_inj hdigit), fun hzero => by rw [hzero]⟩

theorem clear_two (first : BitVec 4) (next : Byte) :
    Rfc4648.digit (first ++ next.extractLsb' 6 2) = Rfc4648.digit (first ++ 0#2) ↔
      next.toNat < 64 := by
  have hcancel : ∀ (first : BitVec 4) (bits : BitVec 2), first ++ bits = first ++ 0#2 → bits = 0#2 := by
    decide
  have hclear : ∀ next : Byte, next.extractLsb' 6 2 = 0#2 ↔ next.toNat < 64 := by decide
  rw [← hclear]
  exact ⟨fun hdigit => hcancel _ _ (Rfc4648.digit_inj hdigit), fun hzero => by rw [hzero]⟩

theorem encodeFrom_iff (data : Nat → Byte) (left i : Nat) :
    encodeFrom data left i = Rfc4648.base64 ((List.range' i left).map data) ↔
      Clear left (data (i + left)) := by
  induction left, i using encodeFrom.induct with
  | case1 i => exact iff_of_true rfl ⟨fun hmod => absurd hmod (by decide), fun hmod => absurd hmod (by decide)⟩
  | case2 i =>
      have hlist : (List.range' i 1).map data = [data i] := rfl
      rw [hlist, encodeFrom, Rfc4648.base64, first_digit, second_digit]
      simp [clear_four, Clear]
  | case3 i =>
      have hlist : (List.range' i 2).map data = [data i, data (i + 1)] := rfl
      rw [hlist, encodeFrom, Rfc4648.base64, first_digit, second_digit, third_digit]
      simp [clear_two, Clear]
  | case4 left i ih =>
      have hlist : (List.range' i (left + 3)).map data =
          data i :: data (i + 1) :: data (i + 2) :: (List.range' (i + 3) left).map data := rfl
      have hnext : i + (left + 3) = i + 3 + left := by omega
      have hmod : (left + 3) % 3 = left % 3 := Nat.add_mod_right left 3
      rw [hlist, encodeFrom, Rfc4648.base64, first_digit, second_digit, third_digit, fourth_digit,
        List.append_cancel_left_eq, ih, hnext, Clear, Clear, hmod]

/-- The bytes in memory are those of the string. -/
theorem map_memory (bytes : List Byte) (behind : Nat → Byte) :
    (List.range' 0 bytes.length).map (memory bytes behind) = bytes := by
  apply List.ext_getElem
  · rw [List.length_map, List.length_range']
  · intro index hindex hbytes
    rw [List.getElem_map, List.getElem_range', Nat.zero_add, Nat.one_mul, memory, if_pos hbytes,
      List.getD_eq_getElem _ _ hbytes]

/-- The text is the encoding exactly when the byte behind the string happens to have zero bits. -/
theorem encode_iff (bytes : List Byte) (behind : Nat → Byte) :
    encode (memory bytes behind) bytes.length = Rfc4648.base64 bytes ↔
      Clear bytes.length (behind 0) := by
  have hiff := encodeFrom_iff (memory bytes behind) bytes.length 0
  have hnext : memory bytes behind (0 + bytes.length) = behind 0 := by
    rw [memory, Nat.zero_add, if_neg (Nat.lt_irrefl _), Nat.sub_self]
  rwa [map_memory, hnext] at hiff

end DumaisLib.Utils.Base64
