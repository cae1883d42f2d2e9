import DumaisLib.Lib.BigEndian
import DumaisLib.Lib.Text

/-!
# Message digests

What the digests of FIPS 180-4 and of RFC 1321 share: 32-bit words made of
bytes, the padding of a message to whole blocks of 64 bytes, and hexadecimal
texts.
-/

namespace Digest

/-- A word of 32 bits. -/
abbrev Word := BitVec 32

/-! ## Words and bytes -/

/-- The word at index `t`, its most significant byte first. -/
def bigWord (bytes : List Byte) (t : Nat) : Word :=
  bytes.getD (4 * t) 0#8 ++ bytes.getD (4 * t + 1) 0#8 ++ bytes.getD (4 * t + 2) 0#8 ++
    bytes.getD (4 * t + 3) 0#8

/-- The word at index `t`, its least significant byte first. -/
def littleWord (bytes : List Byte) (t : Nat) : Word :=
  bytes.getD (4 * t + 3) 0#8 ++ bytes.getD (4 * t + 2) 0#8 ++ bytes.getD (4 * t + 1) 0#8 ++
    bytes.getD (4 * t) 0#8

/-- The bytes of a word, the most significant one first. -/
def bigBytes (word : Word) : List Byte :=
  [word.extractLsb' 24 8, word.extractLsb' 16 8, word.extractLsb' 8 8, word.extractLsb' 0 8]

/-- The bytes of a word, the least significant one first. -/
def littleBytes (word : Word) : List Byte :=
  [word.extractLsb' 0 8, word.extractLsb' 8 8, word.extractLsb' 16 8, word.extractLsb' 24 8]

/-! ## Padding -/

/-- The length in bits as a number of 64 bits, its most significant byte first. -/
def bigField (length : Nat) : List Byte :=
  [56, 48, 40, 32, 24, 16, 8, 0].map fun shift =>
    (BitVec.ofNat 64 (8 * length)).extractLsb' shift 8

/-- The length in bits as a number of 64 bits, its least significant byte first. -/
def littleField (length : Nat) : List Byte :=
  [0, 8, 16, 24, 32, 40, 48, 56].map fun shift =>
    (BitVec.ofNat 64 (8 * length)).extractLsb' shift 8

/-- The number of zeros between the end mark and the length. -/
def zeros (length : Nat) : Nat :=
  (119 - length % 64) % 64

/-- With the end mark and the zeros, eight bytes are missing to whole blocks. -/
theorem zeros_fill (length : Nat) : (length + 1 + zeros length) % 64 = 56 := by
  unfold zeros
  omega

/-- No smaller number of zeros does that. -/
theorem zeros_least {length count : Nat} (hfill : (length + 1 + count) % 64 = 56) :
    zeros length ≤ count := by
  unfold zeros
  omega

/-- The message with the end mark, zeros and its length. -/
def padded (field : Nat → List Byte) (message : List Byte) : List Byte :=
  message ++ 0x80#8 :: (List.replicate (zeros message.length) 0#8 ++ field message.length)

/-- The blocks of 64 bytes. -/
def blocks (bytes : List Byte) : List (List Byte) :=
  (List.range (bytes.length / 64)).map fun index => (bytes.drop (64 * index)).take 64

theorem blocks_append {block : List Byte} (hblock : block.length = 64) (bytes : List Byte) :
    blocks (block ++ bytes) = block :: blocks bytes := by
  have hcount : (block ++ bytes).length / 64 = bytes.length / 64 + 1 := by
    rw [List.length_append]
    omega
  rw [blocks, hcount, List.range_succ_eq_map, List.map_cons, List.map_map, blocks]
  congr 1
  · rw [Nat.mul_zero, List.drop_zero, ← hblock, List.take_left]
  · refine List.map_congr_left fun index _ => ?_
    have hindex : 64 * (index + 1) = block.length + 64 * index := by omega
    rw [Function.comp_apply, hindex, List.drop_length_add_append]

/-- Blocks put together fall apart into the same blocks. -/
theorem blocks_flatten {frames : List (List Byte)} (hlength : ∀ frame ∈ frames, frame.length = 64) :
    blocks frames.flatten = frames := by
  induction frames with
  | nil => rfl
  | cons frame frames ih =>
      obtain ⟨hframe, hrest⟩ := List.forall_mem_cons.mp hlength
      rw [List.flatten_cons, blocks_append hframe, ih hrest]

/-! ## Loops -/

/-- What is said of the states holds of the state behind a loop. -/
theorem foldl_value {α β γ : Type*} {value : α → β} {step : α → γ → α} {step' : β → γ → β}
    {items : List γ} (hstep : ∀ state, ∀ item ∈ items,
      value (step state item) = step' (value state) item) (state : α) :
    value (items.foldl step state) = items.foldl step' (value state) := by
  induction items generalizing state with
  | nil => rfl
  | cons item items ih =>
      obtain ⟨hfirst, hrest⟩ : (∀ state, value (step state item) = step' (value state) item) ∧
          ∀ state, ∀ item ∈ items, value (step state item) = step' (value state) item :=
        ⟨fun state => hstep state item List.mem_cons_self,
          fun state later hlater => hstep state later (List.mem_cons_of_mem _ hlater)⟩
      rw [List.foldl_cons, List.foldl_cons, ih hrest, hfirst]

theorem getD_range_map {α : Type*} (value : Nat → α) (default : α) {index count : Nat}
    (hlt : index < count) : ((List.range count).map value).getD index default = value index := by
  rw [List.getD_eq_getElem _ _ (by rwa [List.length_map, List.length_range]), List.getElem_map,
    List.getElem_range]

/-- A table whose entries are computed in order from those before them. -/
theorem foldl_table {α : Type*} {value : Nat → α} {next : List α → Nat → α} {start : Nat}
    (hnext : ∀ t, start ≤ t → next ((List.range t).map value) t = value t) (count : Nat) :
    (List.range' start count).foldl (fun table t => table ++ [next table t])
        ((List.range start).map value) =
      (List.range (start + count)).map value := by
  induction count with
  | zero => rfl
  | succ count ih =>
      rw [List.range'_concat, List.foldl_append, ih, Nat.one_mul, List.foldl_cons, List.foldl_nil,
        hnext _ (Nat.le_add_right _ _), ← Nat.add_assoc, List.range_succ, List.map_append,
        List.map_singleton]

/-! ## Hexadecimal texts -/

/-- Two digits for each byte. -/
def hex (bytes : List Byte) : Text :=
  bytes.flatMap fun byte => [Nat.digitChar (byte.toNat / 16), Nat.digitChar (byte.toNat % 16)]

end Digest
