import DumaisLib.Lib.Digest
import Mathlib.Tactic.IntervalCases

/-!
# Hashes

The loop over chunks of 64 bytes is the same text in all three hashes: it copies
a chunk, appends the end mark behind the input and writes the size into the last
chunk.  Words lie in memory with their least significant byte first.
-/

namespace DumaisLib.Utils

open Digest

/-! ## Words -/

def MOVEBE (x : Word) : Word :=
  (x &&& 0xff000000#32) >>> 24 ||| (x &&& 0xff#32) <<< 24 ||| (x &&& 0xff0000#32) >>> 8 |||
    (x &&& 0xff00#32) <<< 8

def ROL (x : Word) (shift : Nat) : Word :=
  x <<< shift ||| x >>> (32 - shift)

def ROR (x : Word) (shift : Nat) : Word :=
  x >>> shift ||| x <<< (32 - shift)

theorem ROL_eq (x : Word) {shift : Nat} (hlt : shift < 32) : ROL x shift = x.rotateLeft shift := by
  rw [BitVec.rotateLeft_def, Nat.mod_eq_of_lt hlt, ROL]

theorem MOVEBE_append (byte0 byte1 byte2 byte3 : Byte) :
    MOVEBE (byte3 ++ byte2 ++ byte1 ++ byte0) = byte0 ++ byte1 ++ byte2 ++ byte3 := by
  apply BitVec.eq_of_getLsbD_eq
  intro i hi
  unfold MOVEBE
  simp only [BitVec.getLsbD_or, BitVec.getLsbD_and, BitVec.getLsbD_ushiftRight,
    BitVec.getLsbD_shiftLeft, BitVec.getLsbD_append]
  interval_cases i <;> simp [- BitVec.getLsbD_eq_getElem]

theorem MOVEBE_littleWord (bytes : List Byte) (t : Nat) :
    MOVEBE (littleWord bytes t) = bigWord bytes t :=
  MOVEBE_append _ _ _ _

theorem littleBytes_MOVEBE (x : Word) : littleBytes (MOVEBE x) = bigBytes x := by
  have hbyte (start start' : Nat) (hstarts : (start = 0 ∧ start' = 24) ∨ (start = 8 ∧ start' = 16) ∨
      (start = 16 ∧ start' = 8) ∨ (start = 24 ∧ start' = 0)) :
      (MOVEBE x).extractLsb' start 8 = x.extractLsb' start' 8 := by
    apply BitVec.eq_of_getLsbD_eq
    intro i hi
    unfold MOVEBE
    rcases hstarts with ⟨rfl, rfl⟩ | ⟨rfl, rfl⟩ | ⟨rfl, rfl⟩ | ⟨rfl, rfl⟩ <;>
      interval_cases i <;> simp
  rw [littleBytes, bigBytes, hbyte 0 24 (by decide), hbyte 8 16 (by decide), hbyte 16 8 (by decide),
    hbyte 24 0 (by decide)]

/-! ## Chunks -/

/-- What is copied of the input, with the end mark behind its end. -/
def copyChunk (input : List Byte) (size2 : Nat) (trail : Byte) : List Byte :=
  if 64 ≤ size2 then input.take 64
  else (input.take size2 ++ List.replicate (64 - size2) 0#8).set size2 trail

/-- The loop from a chunk on; `putSize` writes the size and `process` takes the chunk. -/
def forEachChunk {State : Type} (process : State → List Byte → State)
    (putSize : List Byte → List Byte) (frameIndexForSize : Nat) :
    Nat → Nat → List Byte → Nat → Byte → State → State
  | 0, _, _, _, _, state => state
  | remaining + 1, chunkIndex, input, size2, trail, state =>
      let size3 := if 64 ≤ size2 then 64 else size2
      let copied := copyChunk input size2 trail
      let words := if chunkIndex = frameIndexForSize then putSize copied else copied
      forEachChunk process putSize frameIndexForSize remaining (chunkIndex + 1) (input.drop 64)
        (size2 - size3) (if 64 ≤ size2 then trail else 0#8) (process state words)

/-- The number of chunks, computed with 32 bits. -/
def numChunks (size : Nat) : Nat :=
  ((size + 1 + 8 + 63) % 2 ^ 32) >>> 6

/-- The loop of a constructor. -/
def processChunks {State : Type} (process : State → List Byte → State)
    (putSize : Nat → List Byte → List Byte) (input : List Byte) (size : Nat) (state : State) : State :=
  forEachChunk process (putSize size) ((numChunks size + (2 ^ 32 - 1)) % 2 ^ 32) (numChunks size) 0
    input size 0x80#8 state

/-- The chunks that a constructor takes. -/
def chunksFed (putSize : Nat → List Byte → List Byte) (input : List Byte) (size : Nat) :
    List (List Byte) :=
  processChunks (fun fed words => fed ++ [words]) putSize input size []

/-- The size in bits at the end of a chunk, its most significant byte first. -/
def putBigEndianSize (size : Nat) (words : List Byte) : List Byte :=
  ((List.range 8).foldl (fun (state : List Byte × BitVec 64) i =>
    (state.1.set (63 - i) ((state.2 &&& 0xff#64).setWidth 8), state.2 >>> 8))
    (words, BitVec.ofNat 64 size <<< 3)).1

/-- The size in bits as the last number of 64 bits, as it lies in memory. -/
def putLittleEndianSize (size : Nat) (words : List Byte) : List Byte :=
  let number := BitVec.ofNat 64 size <<< 3
  words.take 56 ++ [0, 8, 16, 24, 32, 40, 48, 56].map fun shift => number.extractLsb' shift 8

section Chunks

variable {State : Type} {putSize : List Byte → List Byte} {frameIndexForSize : Nat}

/-- What is made of the chunks is made of them one after the other. -/
theorem forEachChunk_eq_foldl (process : State → List Byte → State) (init : State)
    (remaining chunkIndex : Nat) (input : List Byte) (size2 : Nat) (trail : Byte)
    (fed : List (List Byte)) :
    forEachChunk process putSize frameIndexForSize remaining chunkIndex input size2 trail
        (fed.foldl process init) =
      (forEachChunk (fun fed words => fed ++ [words]) putSize frameIndexForSize remaining chunkIndex
        input size2 trail fed).foldl process init := by
  induction remaining generalizing chunkIndex input size2 trail fed with
  | zero => rfl
  | succ remaining ih =>
      rw [forEachChunk, forEachChunk, ← ih, List.foldl_append]
      rfl

theorem length_copyChunk {input : List Byte} {size2 : Nat} (hsize : size2 ≤ input.length)
    (trail : Byte) : (copyChunk input size2 trail).length = 64 := by
  unfold copyChunk
  split
  · rw [List.length_take]
    omega
  · rw [List.length_set, List.length_append, List.length_take, List.length_replicate]
    omega

/-- Behind the input the end mark stands, and zeros follow it. -/
theorem copyChunk_last {message : List Byte} (hlt : message.length < 64) (behind : List Byte)
    (trail : Byte) :
    copyChunk (message ++ behind) message.length trail =
      message ++ trail :: List.replicate (63 - message.length) 0#8 := by
  have hzeros : 64 - message.length = 63 - message.length + 1 := by omega
  rw [copyChunk, if_neg (Nat.not_le.mpr hlt), List.take_left, hzeros, List.replicate_succ,
    List.set_append_right _ _ (Nat.le_refl _), Nat.sub_self, List.set_cons_zero]

/-- The last chunk takes the size. -/
theorem forEachChunk_last (input : List Byte) (size2 : Nat) (trail : Byte) (fed : List (List Byte)) :
    forEachChunk (fun fed words => fed ++ [words]) putSize frameIndexForSize 1 frameIndexForSize
        input size2 trail fed =
      fed ++ [putSize (copyChunk input size2 trail)] := by
  rw [forEachChunk, if_pos rfl]
  rfl

/-- A rest of less than 64 bytes takes one chunk, or two when the size does not fit in. -/
theorem forEachChunk_short {field : List Byte} (hfield : field.length = 8)
    (hput : ∀ words : List Byte, words.length = 64 → putSize words = words.take 56 ++ field)
    (message behind : List Byte) (hlt : message.length < 64) {chunkIndex : Nat}
    (hlast : chunkIndex + (message.length + 72) / 64 = frameIndexForSize + 1)
    (fed : List (List Byte)) :
    ∃ frames, forEachChunk (fun fed words => fed ++ [words]) putSize frameIndexForSize
          ((message.length + 72) / 64) chunkIndex (message ++ behind) message.length 0x80#8 fed =
        fed ++ frames ∧
      frames.flatten =
        message ++ 0x80#8 :: (List.replicate (zeros message.length) 0#8 ++ field) ∧
      ∀ frame ∈ frames, frame.length = 64 := by
  have hcopied := copyChunk_last hlt behind 0x80#8
  have hsize : message.length ≤ (message ++ behind).length := by
    rw [List.length_append]
    omega
  have hlength := length_copyChunk hsize 0x80#8
  by_cases hfits : message.length ≤ 55
  · have hcount : (message.length + 72) / 64 = 1 := by omega
    obtain rfl : chunkIndex = frameIndexForSize := by omega
    have hzeros : zeros message.length = 55 - message.length := by
      unfold zeros
      omega
    have htake : (message ++ 0x80#8 :: List.replicate (63 - message.length) 0#8).take 56 =
        message ++ 0x80#8 :: List.replicate (55 - message.length) 0#8 := by
      have hsplit : 56 = message.length + (55 - message.length + 1) := by omega
      rw [hsplit, List.take_length_add_append, List.take_succ_cons, List.take_replicate]
      congr 3
      omega
    refine ⟨[putSize (copyChunk (message ++ behind) message.length 0x80#8)], ?_, ?_, ?_⟩
    · rw [hcount, forEachChunk_last]
    · rw [List.flatten_singleton, hput _ hlength, hcopied, htake, hzeros, List.append_assoc,
        List.cons_append]
    · rw [List.forall_mem_singleton, hput _ hlength, List.length_append, List.length_take, hlength,
        hfield]
      rfl
  · have hcount : (message.length + 72) / 64 = 2 := by omega
    obtain rfl : frameIndexForSize = chunkIndex + 1 := by omega
    have hzeros : zeros message.length = 63 - message.length + 56 := by
      unfold zeros
      omega
    have hempty : copyChunk ((message ++ behind).drop 64) 0 0#8 = List.replicate 64 0#8 :=
      @copyChunk_last [] (by decide) _ _
    have hput' := hput (List.replicate 64 0#8) List.length_replicate
    refine ⟨[copyChunk (message ++ behind) message.length 0x80#8,
      putSize (List.replicate 64 0#8)], ?_, ?_, ?_⟩
    · rw [hcount, forEachChunk, if_neg (Nat.ne_of_lt (Nat.lt_succ_self _)),
        if_neg (Nat.not_le.mpr hlt), if_neg (Nat.not_le.mpr hlt), Nat.sub_self, forEachChunk_last,
        hempty, List.append_assoc, List.singleton_append]
    · rw [List.flatten_cons, List.flatten_singleton, hput', hcopied, hzeros, List.take_replicate,
        List.replicate_add]
      simp only [List.append_assoc, List.cons_append]
      rfl
    · rw [List.forall_mem_cons, List.forall_mem_singleton, hput', List.length_append,
        List.length_take, List.length_replicate, hfield]
      exact ⟨hlength, rfl⟩

/-- The chunks are the blocks of the padded message. -/
theorem forEachChunk_feeds {field : List Byte} (hfield : field.length = 8)
    (hput : ∀ words : List Byte, words.length = 64 → putSize words = words.take 56 ++ field)
    (message behind : List Byte) {chunkIndex : Nat}
    (hlast : chunkIndex + (message.length + 72) / 64 = frameIndexForSize + 1)
    (fed : List (List Byte)) :
    ∃ frames, forEachChunk (fun fed words => fed ++ [words]) putSize frameIndexForSize
          ((message.length + 72) / 64) chunkIndex (message ++ behind) message.length 0x80#8 fed =
        fed ++ frames ∧
      frames.flatten =
        message ++ 0x80#8 :: (List.replicate (zeros message.length) 0#8 ++ field) ∧
      ∀ frame ∈ frames, frame.length = 64 := by
  induction hsize : message.length using Nat.strong_induction_on
    generalizing message chunkIndex fed with
  | h size ih =>
      subst hsize
      by_cases hmore : 64 ≤ message.length
      · have hcount : (message.length + 72) / 64 = (message.length - 64 + 72) / 64 + 1 := by omega
        have hrest : (message.drop 64).length = message.length - 64 := List.length_drop
        have hnext : chunkIndex ≠ frameIndexForSize := by omega
        have hcopied : copyChunk (message ++ behind) message.length 0x80#8 = message.take 64 := by
          rw [copyChunk, if_pos hmore, List.take_append_of_le_length hmore]
        have hdrop : (message ++ behind).drop 64 = message.drop 64 ++ behind :=
          List.drop_append_of_le_length hmore
        have hlast' : chunkIndex + 1 + (message.length - 64 + 72) / 64 = frameIndexForSize + 1 := by
          omega
        obtain ⟨frames, hfrom, hflatten, hlengths⟩ := ih (message.length - 64) (by omega)
          (message.drop 64) (by rwa [hrest]) (fed ++ [message.take 64]) hrest
        refine ⟨message.take 64 :: frames, ?_, ?_, ?_⟩
        · rw [hcount, forEachChunk, hcopied, if_neg hnext, if_pos hmore, if_pos hmore, hdrop, hfrom, List.append_assoc,
            List.singleton_append]
        · have hzeros : zeros (message.length - 64) = zeros message.length := by
            unfold zeros
            omega
          rw [List.flatten_cons, hflatten, hzeros, ← List.append_assoc, List.take_append_drop]
        · refine List.forall_mem_cons.mpr ⟨?_, hlengths⟩
          rw [List.length_take]
          omega
      · exact forEachChunk_short hfield hput message behind (Nat.not_le.mp hmore) hlast fed

end Chunks

/-! ## Sizes -/

theorem ofNat_shiftLeft_three (size : Nat) :
    BitVec.ofNat 64 size <<< 3 = BitVec.ofNat 64 (8 * size) := by
  apply BitVec.eq_of_toNat_eq
  simp only [BitVec.toNat_shiftLeft, BitVec.toNat_ofNat, Nat.shiftLeft_eq]
  omega

theorem lowByte (number : BitVec 64) (shift : Nat) :
    ((number >>> shift) &&& 0xff#64).setWidth 8 = number.extractLsb' shift 8 := by
  apply BitVec.eq_of_getLsbD_eq
  intro i hi
  interval_cases i <;> simp

theorem set_behind {words : List Byte} {position : Nat} (hlt : position < words.length) (byte : Byte)
    (last : List Byte) :
    (words.take (position + 1) ++ last).set position byte = words.take position ++ byte :: last := by
  have hlength : (words.take position).length = position := by
    rw [List.length_take]
    omega
  rw [List.take_succ_eq_append_getElem hlt, List.append_assoc,
    List.set_append_right _ _ (by rw [hlength]), hlength, Nat.sub_self, List.singleton_append,
    List.set_cons_zero]

/-- The bytes are written from the last one on. -/
theorem putBigEndianSize_eq (size : Nat) {words : List Byte} (hlength : words.length = 64) :
    putBigEndianSize size words = words.take 56 ++ bigField size := by
  have hloop (number : BitVec 64) (count : Nat) (hle : count ≤ 8) :
      (List.range count).foldl (fun (state : List Byte × BitVec 64) i =>
        (state.1.set (63 - i) ((state.2 &&& 0xff#64).setWidth 8), state.2 >>> 8)) (words, number) =
      (words.take (64 - count) ++
        ((List.range count).map fun i => number.extractLsb' (8 * i) 8).reverse,
        number >>> (8 * count)) := by
    induction count with
    | zero =>
        rw [Nat.sub_zero, List.take_of_length_le hlength.le]
        simp
    | succ count ih =>
        have hposition : 64 - count = 63 - count + 1 := by omega
        have hnext : 64 - (count + 1) = 63 - count := by omega
        rw [List.range_succ, List.foldl_append, ih (by omega), List.foldl_cons, List.foldl_nil,
          lowByte, hposition, set_behind (by omega), ← BitVec.shiftRight_add, List.map_append,
          List.reverse_append, hnext]
        rfl
  rw [putBigEndianSize, ofNat_shiftLeft_three, hloop _ 8 (Nat.le_refl _)]
  rfl

theorem putLittleEndianSize_eq (size : Nat) (words : List Byte) :
    putLittleEndianSize size words = words.take 56 ++ littleField size := by
  rw [putLittleEndianSize, ofNat_shiftLeft_three, littleField]

/-- A constructor takes the blocks of the padded message, whatever lies behind it. -/
theorem chunksFed_eq {put : Nat → List Byte → List Byte} {field : Nat → List Byte}
    (hfield : ∀ size, (field size).length = 8)
    (hput : ∀ size (words : List Byte), words.length = 64 → put size words = words.take 56 ++ field size)
    (message behind : List Byte) (hsize : message.length ≤ 2 ^ 32 - 73) :
    chunksFed put (message ++ behind) message.length = blocks (padded field message) := by
  have hcount : numChunks message.length = (message.length + 72) / 64 := by
    rw [numChunks, Nat.shiftRight_eq_div_pow, Nat.mod_eq_of_lt (by omega)]
  have hlast : 0 + (message.length + 72) / 64 =
      ((message.length + 72) / 64 + (2 ^ 32 - 1)) % 2 ^ 32 + 1 := by
    omega
  obtain ⟨frames, hfed, hflatten, hlengths⟩ := forEachChunk_feeds (hfield message.length)
    (hput message.length) message behind hlast []
  rw [chunksFed, processChunks, hcount, hfed, List.nil_append, padded, ← hflatten,
    blocks_flatten hlengths]

theorem processChunks_eq_foldl {State : Type} (process : State → List Byte → State)
    (put : Nat → List Byte → List Byte) (input : List Byte) (size : Nat) (init : State) :
    processChunks process put input size init = (chunksFed put input size).foldl process init :=
  forEachChunk_eq_foldl process init _ _ _ _ _ []

/-- When every chunk is mixed in as the standard says, so is the whole message. -/
theorem value_processChunks {State Standard : Type} {mix : State → List Byte → State}
    {compress : Standard → List Byte → Standard} {value : State → Standard}
    (hmix : ∀ state words, value (mix state words) = compress (value state) words)
    {put : Nat → List Byte → List Byte} {field : Nat → List Byte}
    (hfield : ∀ size, (field size).length = 8)
    (hput : ∀ size (words : List Byte), words.length = 64 → put size words = words.take 56 ++ field size)
    (message behind : List Byte) (hsize : message.length ≤ 2 ^ 32 - 73) (init : State) :
    value (processChunks mix put (message ++ behind) message.length init) =
      (blocks (padded field message)).foldl compress (value init) := by
  rw [processChunks_eq_foldl, chunksFed_eq hfield hput message behind hsize]
  exact foldl_value (fun state words _ => hmix state words) init

/-! ## Texts -/

structure Hash where
  mHashSize : Nat
  H : List Word

namespace Hash

def mDigits : Text :=
  "0123456789abcdef".toList

/-- The words as they lie in memory. -/
def getDigest (hash : Hash) : List Byte :=
  hash.H.flatMap littleBytes

/-- Words that have been turned round lie in memory with their most significant byte first. -/
theorem getDigest_MOVEBE (mHashSize : Nat) (words : List Word) :
    (Hash.mk mHashSize (words.map MOVEBE)).getDigest = words.flatMap bigBytes := by
  rw [getDigest, List.flatMap_map]
  simp only [littleBytes_MOVEBE]

def toHex (hash : Hash) : Text :=
  let buf := hash.getDigest
  (List.range hash.mHashSize).foldl (fun output i =>
    (output.set (i * 2 + 1) (mDigits.getD (buf.getD i 0#8 &&& 0x0F#8).toNat '\x00')).set (i * 2)
      (mDigits.getD ((buf.getD i 0#8 &&& 0xF0#8) >>> 4).toNat '\x00'))
    (List.replicate (hash.mHashSize * 2) '\x00')

theorem mDigits_eq {digit : Nat} (hlt : digit < 16) : mDigits.getD digit '\x00' = Nat.digitChar digit := by
  interval_cases digit <;> rfl

theorem lowDigit (byte : Byte) : (byte &&& 0x0F#8).toNat = byte.toNat % 16 :=
  Nat.and_two_pow_sub_one_eq_mod byte.toNat 4

theorem highDigit (byte : Byte) : ((byte &&& 0xF0#8) >>> 4).toNat = byte.toNat / 16 := by
  revert byte
  decide

theorem length_hex (bytes : List Byte) : (hex bytes).length = bytes.length * 2 := by
  induction bytes with
  | nil => rfl
  | cons byte bytes ih =>
      rw [hex, List.flatMap_cons, List.length_append, ← hex, ih, List.length_cons]
      simp
      omega

/-- Two digits for each byte in memory. -/
theorem toHex_eq (hash : Hash) (hlength : hash.getDigest.length = hash.mHashSize) :
    hash.toHex = hex hash.getDigest := by
  have hloop (count : Nat) (hle : count ≤ hash.getDigest.length) :
      (List.range count).foldl (fun output i =>
        (output.set (i * 2 + 1)
          (mDigits.getD (hash.getDigest.getD i 0#8 &&& 0x0F#8).toNat '\x00')).set (i * 2)
          (mDigits.getD ((hash.getDigest.getD i 0#8 &&& 0xF0#8) >>> 4).toNat '\x00'))
        (List.replicate (hash.mHashSize * 2) '\x00') =
      hex (hash.getDigest.take count) ++
        List.replicate ((hash.mHashSize - count) * 2) '\x00' := by
    induction count with
    | zero => rfl
    | succ count ih =>
        have hbyte := hash.getDigest.getElem?_eq_getElem hle
        rw [List.range_succ, List.foldl_append, ih (by omega), List.foldl_cons, List.foldl_nil]
        have hsplit : (hash.mHashSize - count) * 2 = (hash.mHashSize - (count + 1)) * 2 + 1 + 1 := by
          omega
        have hdone : (hex (hash.getDigest.take count)).length = count * 2 := by
          rw [length_hex, List.length_take]
          omega
        have htake : hash.getDigest.take (count + 1) =
            hash.getDigest.take count ++ [hash.getDigest.getD count 0#8] := by
          rw [List.take_succ_eq_append_getElem hle, List.getD_eq_getElem _ _ hle]
        rw [hsplit, List.replicate_succ, List.replicate_succ,
          List.set_append_right _ _ (by omega), List.set_append_right _ _ (by omega), hdone,
          Nat.add_sub_cancel_left, Nat.sub_self, List.set_cons_succ, List.set_cons_zero,
          List.set_cons_zero, lowDigit, highDigit, mDigits_eq (Nat.mod_lt _ (by decide)),
          mDigits_eq (by omega), htake, hex, hex, List.flatMap_append, List.append_assoc]
        rfl
  have hwhole := hloop hash.getDigest.length (Nat.le_refl _)
  rw [List.take_length, hlength, Nat.sub_self, Nat.zero_mul, List.replicate_zero,
    List.append_nil] at hwhole
  exact hwhole

end Hash

end DumaisLib.Utils
