import Mathlib.Data.List.GetD
import Mathlib.Data.List.Induction
import Mathlib.Data.BitVec

/-!
# Big-endian numbers assembled from bytes

A number is sent most significant byte first.  Code that shifts the bytes
together as *signed* values sign-extends each of them, so that a byte with its
top bit set overwrites everything assembled before it with ones.  The main
results say for which byte strings the result is still the intended number.
-/

/-- A byte of eight bits. -/
abbrev Byte := BitVec 8

namespace BigEndian

/-- The number that the bytes denote. -/
def value (bytes : List Byte) : Nat :=
  bytes.foldl (fun total byte => total * 256 + byte.toNat) 0

/-- The bytes shifted together as unsigned values. -/
def ofUnsigned (w : Nat) (bytes : List Byte) : BitVec w :=
  bytes.foldl (fun total byte => total <<< 8 ||| byte.setWidth w) 0#w

/-- The bytes shifted together as sign-extended values. -/
def ofSigned (w : Nat) (bytes : List Byte) : BitVec w :=
  bytes.foldl (fun total byte => total <<< 8 ||| byte.signExtend w) 0#w

@[simp] theorem value_concat (bytes : List Byte) (byte : Byte) :
    value (bytes ++ [byte]) = value bytes * 256 + byte.toNat := by
  simp [value]

@[simp] theorem ofUnsigned_concat (w : Nat) (bytes : List Byte) (byte : Byte) :
    ofUnsigned w (bytes ++ [byte]) = ofUnsigned w bytes <<< 8 ||| byte.setWidth w := by
  simp [ofUnsigned]

@[simp] theorem ofSigned_concat (w : Nat) (bytes : List Byte) (byte : Byte) :
    ofSigned w (bytes ++ [byte]) = ofSigned w bytes <<< 8 ||| byte.signExtend w := by
  simp [ofSigned]

theorem value_lt (bytes : List Byte) : value bytes < 2 ^ (8 * bytes.length) := by
  induction bytes using List.reverseRecOn with
  | nil => simp [value]
  | append_singleton bytes byte ih =>
      have hbyte := byte.isLt
      rw [value_concat, List.length_append, List.length_singleton, Nat.mul_add,
        Nat.mul_one, Nat.pow_add]
      omega

/-- The bits of the unsigned assembly are the bits of its bytes. -/
theorem getLsbD_ofUnsigned {w : Nat} (bytes : List Byte) {i : Nat} (hi : i < w) :
    (ofUnsigned w bytes).getLsbD i = (bytes.reverse.getD (i / 8) 0#8).getLsbD (i % 8) := by
  induction bytes using List.reverseRecOn generalizing i with
  | nil => simp [ofUnsigned]
  | append_singleton bytes byte ih =>
      rw [ofUnsigned_concat, List.reverse_concat]
      simp only [BitVec.getLsbD_or, BitVec.getLsbD_shiftLeft, BitVec.getLsbD_setWidth, hi,
        decide_true, Bool.true_and]
      rcases Nat.lt_or_ge i 8 with hlow | hhigh
      · simp [hlow, Nat.div_eq_of_lt hlow, Nat.mod_eq_of_lt hlow]
      · have hdiv : i / 8 = (i - 8) / 8 + 1 := by omega
        have hmod : i % 8 = (i - 8) % 8 := by omega
        rw [hdiv, hmod, List.getD_cons_succ, ih (by omega)]
        simp [hhigh]

/-- A set top bit of a later byte shows in every more significant position. -/
theorem getLsbD_ofSigned {w : Nat} (bytes : List Byte) {i : Nat} (hi : i < w) :
    (ofSigned w bytes).getLsbD i =
      ((ofUnsigned w bytes).getLsbD i || (bytes.reverse.take (i / 8)).any BitVec.msb) := by
  induction bytes using List.reverseRecOn generalizing i with
  | nil => simp [ofSigned, ofUnsigned]
  | append_singleton bytes byte ih =>
      rw [ofSigned_concat, ofUnsigned_concat, List.reverse_concat]
      simp only [BitVec.getLsbD_or, BitVec.getLsbD_shiftLeft, BitVec.getLsbD_setWidth,
        BitVec.getLsbD_signExtend, hi, decide_true, Bool.true_and]
      rcases Nat.lt_or_ge i 8 with hlow | hhigh
      · simp [hlow, Nat.div_eq_of_lt hlow]
      · have hdiv : i / 8 = (i - 8) / 8 + 1 := by omega
        rw [hdiv, ih (by omega)]
        simp [Nat.not_lt.mpr hhigh, byte.getLsbD_of_ge i hhigh, Bool.or_comm,
          Bool.or_left_comm]

/-- The unsigned assembly denotes the number when the word is wide enough. -/
theorem toNat_ofUnsigned {w : Nat} (bytes : List Byte) (hw : 8 * bytes.length ≤ w) :
    (ofUnsigned w bytes).toNat = value bytes := by
  induction bytes using List.reverseRecOn with
  | nil => simp [ofUnsigned, value]
  | append_singleton bytes byte ih =>
      rw [List.length_append, List.length_singleton, Nat.mul_add, Nat.mul_one] at hw
      have hvalue := value_lt bytes
      have hbyte := byte.isLt
      have hpow : 2 ^ (8 * bytes.length) * 256 ≤ 2 ^ w := by
        calc 2 ^ (8 * bytes.length) * 256 = 2 ^ (8 * bytes.length + 8) := by
              rw [Nat.pow_add]
          _ ≤ 2 ^ w := Nat.pow_le_pow_right (by decide) hw
      have hpos : 0 < 2 ^ (8 * bytes.length) := Nat.two_pow_pos _
      rw [ofUnsigned_concat, value_concat, BitVec.toNat_or, BitVec.toNat_shiftLeft,
        BitVec.toNat_setWidth, ih (by omega), Nat.shiftLeft_eq,
        Nat.mod_eq_of_lt (show value bytes * 2 ^ 8 < 2 ^ w by omega),
        Nat.mod_eq_of_lt (show byte.toNat < 2 ^ w by omega), ← Nat.shiftLeft_eq,
        ← Nat.shiftLeft_add_eq_or_of_lt hbyte, Nat.shiftLeft_eq]

/-- Sign extension is harmless exactly when it hits bits that are set anyway. -/
theorem ofSigned_eq_ofUnsigned_iff {w : Nat} (bytes : List Byte) :
    ofSigned w bytes = ofUnsigned w bytes ↔
      ∀ i < w, (bytes.reverse.take (i / 8)).any BitVec.msb = true →
        (bytes.reverse.getD (i / 8) 0#8).getLsbD (i % 8) = true := by
  constructor
  · intro heq i hi hany
    have hbit := getLsbD_ofSigned bytes hi
    rw [heq, hany, Bool.or_true, getLsbD_ofUnsigned bytes hi] at hbit
    exact hbit
  · intro hbits
    apply BitVec.eq_of_getLsbD_eq
    intro i hi
    rw [getLsbD_ofSigned bytes hi]
    cases hany : (bytes.reverse.take (i / 8)).any BitVec.msb with
    | false => simp
    | true => rw [getLsbD_ofUnsigned bytes hi, hbits i hi hany, Bool.true_or]

/-- With room above the bytes, no byte at all may have its top bit set. -/
theorem ofSigned_eq_ofUnsigned_iff_of_lt {w : Nat} (bytes : List Byte)
    (hw : 8 * bytes.length < w) :
    ofSigned w bytes = ofUnsigned w bytes ↔ ∀ byte ∈ bytes, byte.msb = false := by
  rw [ofSigned_eq_ofUnsigned_iff]
  constructor
  · intro hbits byte hbyte
    by_contra hmsb
    have htrue := hbits (8 * bytes.length) hw (by
      rw [Nat.mul_div_cancel_left _ (by decide : 0 < 8),
        List.take_of_length_le (by simp)]
      exact List.any_eq_true.mpr ⟨byte, by simpa using hbyte, by simpa using hmsb⟩)
    simp at htrue
  · intro hmsb i _ hany
    obtain ⟨byte, hbyte, htop⟩ := List.any_eq_true.mp hany
    have hmem : byte ∈ bytes := List.mem_reverse.mp (List.mem_of_mem_take hbyte)
    simp [hmsb byte hmem] at htop

theorem getLsbD_ones {i : Nat} (hi : i < 8) : (0xFF#8).getLsbD i = true := by
  rw [show (0xFF#8) = BitVec.allOnes 8 from rfl, BitVec.getLsbD_allOnes]
  exact decide_eq_true hi

/-- When the bytes fill the word, a top bit needs only ones before it. -/
theorem ofSigned_eq_ofUnsigned_iff_of_eq {w : Nat} (bytes : List Byte)
    (hw : 8 * bytes.length = w) :
    ofSigned w bytes = ofUnsigned w bytes ↔
      bytes.Pairwise fun earlier later => later.msb = true → earlier = 0xFF#8 := by
  rw [ofSigned_eq_ofUnsigned_iff, ← List.pairwise_reverse, List.pairwise_iff_getElem]
  constructor
  · intro hbits i j hi hj hij hmsb
    apply BitVec.eq_of_getLsbD_eq
    intro bit hbit
    have htrue := hbits (8 * j + bit) (by simp at hj; omega) (by
      rw [show (8 * j + bit) / 8 = j by omega]
      exact List.any_eq_true.mpr
        ⟨bytes.reverse[i], List.mem_take_iff_getElem.mpr ⟨i, by omega, rfl⟩, hmsb⟩)
    rw [show (8 * j + bit) / 8 = j by omega, show (8 * j + bit) % 8 = bit by omega,
      List.getD_eq_getElem _ _ hj] at htrue
    rw [htrue, getLsbD_ones hbit]
  · intro hpair i hi hany
    obtain ⟨byte, hbyte, hmsb⟩ := List.any_eq_true.mp hany
    obtain ⟨j, hj, rfl⟩ := List.mem_take_iff_getElem.mp hbyte
    have hlength : i / 8 < bytes.reverse.length := by simp; omega
    have hones := hpair j (i / 8) (by omega) hlength (by omega) hmsb
    rw [List.getD_eq_getElem _ _ hlength, hones]
    exact getLsbD_ones (Nat.mod_lt _ (by decide))

end BigEndian
