import DumaisLib.Lib.BigEndian
import DumaisLib.Lib.StreamReader

/-!
# WebSocket frames

The frames that a client sends: a header with the payload length in one of two
forms, a masking key of four bytes and the payload masked by it.  The frames of
a server have no key, and the payload as it is.
-/

namespace Rfc6455

/-- The payload combined with the key, byte by byte. -/
def applyMask (maskKey payload : List Byte) : List Byte :=
  payload.mapIdx fun i byte => byte ^^^ maskKey.getD (i % 4) 0#8

@[simp] theorem length_applyMask (maskKey payload : List Byte) :
    (applyMask maskKey payload).length = payload.length :=
  List.length_mapIdx

/-- Masking twice gives the payload back. -/
theorem applyMask_applyMask (maskKey payload : List Byte) :
    applyMask maskKey (applyMask maskKey payload) = payload := by
  apply List.ext_getElem (by simp)
  intro i _ _
  simp only [applyMask, List.getElem_mapIdx]
  rw [BitVec.xor_assoc, BitVec.xor_self, BitVec.xor_zero]

/-- Where the payload length is written: in the header, or in two bytes after it. -/
inductive LengthForm where
  | seven
  | sixteen
  deriving DecidableEq

/-- The first length that the form cannot write. -/
def LengthForm.limit : LengthForm → Nat
  | .seven => 126
  | .sixteen => 2 ^ 16

/-- A frame as a client means it, with the form chosen for its length. -/
structure ClientFrame where
  fin : Bool
  rsv : BitVec 3
  opcode : BitVec 4
  form : LengthForm
  maskKey : List Byte
  payload : List Byte
  maskKey_length : maskKey.length = 4
  payload_lt : payload.length < form.limit

namespace ClientFrame

variable (frame : ClientFrame)

def lengthBits : BitVec 7 :=
  match frame.form with
  | .seven => BitVec.ofNat 7 frame.payload.length
  | .sixteen => 126#7

def extendedLength : List Byte :=
  match frame.form with
  | .seven => []
  | .sixteen =>
      [BitVec.ofNat 8 (frame.payload.length / 256), BitVec.ofNat 8 (frame.payload.length % 256)]

/-- The two bytes of flags, opcode and length. -/
def fixedHeader : List Byte :=
  [BitVec.ofBool frame.fin ++ (frame.rsv ++ frame.opcode),
    BitVec.ofBool true ++ frame.lengthBits]

def header : List Byte :=
  frame.fixedHeader ++ (frame.extendedLength ++ frame.maskKey)

/-- The bytes of the frame on the wire. -/
def encode : List Byte :=
  frame.header ++ applyMask frame.maskKey frame.payload

@[simp] theorem length_fixedHeader : frame.fixedHeader.length = 2 := rfl

theorem length_header :
    frame.header.length = match frame.form with | .seven => 6 | .sixteen => 8 := by
  rw [header, List.length_append, List.length_append, length_fixedHeader, extendedLength,
    frame.maskKey_length]
  cases frame.form <;> rfl

theorem length_encode : frame.encode.length = frame.header.length + frame.payload.length := by
  simp [encode]

theorem payload_length_lt : frame.payload.length < 2 ^ 16 := by
  have hlt := frame.payload_lt
  cases hform : frame.form <;> simp only [hform, LengthForm.limit] at hlt <;> omega

end ClientFrame

/-- A frame as a server means it. -/
structure ServerFrame where
  fin : Bool
  rsv : BitVec 3
  opcode : BitVec 4
  form : LengthForm
  payload : List Byte
  payload_lt : payload.length < form.limit

namespace ServerFrame

variable (frame : ServerFrame)

def lengthBits : BitVec 7 :=
  match frame.form with
  | .seven => BitVec.ofNat 7 frame.payload.length
  | .sixteen => 126#7

def extendedLength : List Byte :=
  match frame.form with
  | .seven => []
  | .sixteen =>
      [BitVec.ofNat 8 (frame.payload.length / 256), BitVec.ofNat 8 (frame.payload.length % 256)]

/-- The bytes of the frame on the wire. -/
def encode : List Byte :=
  [BitVec.ofBool frame.fin ++ (frame.rsv ++ frame.opcode),
    BitVec.ofBool false ++ frame.lengthBits] ++ (frame.extendedLength ++ frame.payload)

end ServerFrame

/-- The bytes are one frame of a server. -/
def IsServerFrame (bytes : List Byte) : Prop :=
  ∃ frame : ServerFrame, bytes = frame.encode

/-- The mask bit of a server frame is not set. -/
theorem IsServerFrame.mask {bytes : List Byte} (hframe : IsServerFrame bytes) :
    (bytes.getD 1 0#8).getLsbD 7 = false := by
  obtain ⟨frame, rfl⟩ := hframe
  change (BitVec.ofBool false ++ frame.lengthBits).getLsbD 7 = false
  rw [BitVec.getLsbD_append]
  simp

/-! ## Base framing -/

/-- A frame of either side, with the number of bytes of its extended length. -/
structure Frame where
  fin : Bool
  rsv : BitVec 3
  opcode : BitVec 4
  maskKey : Option (List Byte)
  lengthSize : Nat
  payload : List Byte
  deriving DecidableEq

/-- The first bytes, when there are that many. -/
def takeExactly (count : Nat) (bytes : List Byte) : Option (List Byte × List Byte) :=
  if count ≤ bytes.length then some (bytes.take count, bytes.drop count) else none

/-- The number of bytes of the extended length, by the seven bits of the header. -/
def extendedSize (lengthBits : Nat) : Nat :=
  if lengthBits = 126 then 2 else if lengthBits = 127 then 8 else 0

/-- The form that takes the fewest bytes. -/
def shortestSize (length : Nat) : Nat :=
  if length ≤ 125 then 0 else if length ≤ 65535 then 2 else 8

/-- The length of the payload; the top bit of an eight byte length has to be clear. -/
def payloadLength (lengthBits : Nat) (field : List Byte) : Option Nat :=
  if extendedSize lengthBits = 0 then some lengthBits
  else if BigEndian.value field < 2 ^ 63 then some (BigEndian.value field) else none

/-- Masking key and payload. -/
def decodePayload (masked : Bool) (length : Nat) (bytes : List Byte) :
    Option ((Option (List Byte) × List Byte) × List Byte) :=
  if masked then
    (takeExactly 4 bytes).bind fun (maskKey, behindKey) =>
      (takeExactly length behindKey).map fun (payload, rest) =>
        ((some maskKey, applyMask maskKey payload), rest)
  else
    (takeExactly length bytes).map fun (payload, rest) => ((none, payload), rest)

/-- What stands behind the two bytes of the header: extended length, masking key and payload. -/
def decodeBody (lengthBits : Nat) (masked : Bool) (bytes : List Byte) :
    Option ((Option (List Byte) × List Byte) × List Byte) :=
  (takeExactly (extendedSize lengthBits) bytes).bind fun (field, behindLength) =>
    (payloadLength lengthBits field).bind fun length => decodePayload masked length behindLength

/-- The frame at the start of the bytes, and what is left of them. -/
def decodeFrame : List Byte → Option (Frame × List Byte)
  | first :: second :: bytes =>
      let lengthBits := (second.extractLsb' 0 7).toNat
      (decodeBody lengthBits (second.getLsbD 7) bytes).map fun ((maskKey, payload), rest) =>
        ({ fin := first.getLsbD 7
           rsv := first.extractLsb' 4 3
           opcode := first.extractLsb' 0 4
           maskKey := maskKey
           lengthSize := extendedSize lengthBits
           payload := payload }, rest)
  | _ => none

theorem length_takeExactly {count : Nat} {bytes taken rest : List Byte}
    (htake : takeExactly count bytes = some (taken, rest)) : rest.length ≤ bytes.length := by
  rw [takeExactly] at htake
  split at htake
  · obtain ⟨rfl, rfl⟩ := Prod.mk.inj (Option.some.inj htake)
    rw [List.length_drop]
    exact Nat.sub_le _ _
  · cases htake

theorem length_decodePayload {masked : Bool} {length : Nat} {bytes rest : List Byte}
    {body : Option (List Byte) × List Byte}
    (hbody : decodePayload masked length bytes = some (body, rest)) :
    rest.length ≤ bytes.length := by
  rw [decodePayload] at hbody
  split at hbody
  · obtain ⟨⟨maskKey, behindKey⟩, hkey, hbody⟩ := Option.bind_eq_some_iff.mp hbody
    obtain ⟨⟨payload, rest'⟩, hpayload, heq⟩ := Option.map_eq_some_iff.mp hbody
    obtain rfl := (Prod.mk.inj heq).2
    exact (length_takeExactly hpayload).trans (length_takeExactly hkey)
  · obtain ⟨⟨payload, rest'⟩, hpayload, heq⟩ := Option.map_eq_some_iff.mp hbody
    obtain rfl := (Prod.mk.inj heq).2
    exact length_takeExactly hpayload

theorem length_decodeBody {lengthBits : Nat} {masked : Bool} {bytes rest : List Byte}
    {body : Option (List Byte) × List Byte}
    (hbody : decodeBody lengthBits masked bytes = some (body, rest)) :
    rest.length ≤ bytes.length := by
  obtain ⟨⟨field, behindLength⟩, hfield, hbody⟩ := Option.bind_eq_some_iff.mp hbody
  obtain ⟨length, -, hpayload⟩ := Option.bind_eq_some_iff.mp hbody
  exact (length_decodePayload hpayload).trans (length_takeExactly hfield)

theorem length_decodeFrame {bytes rest : List Byte} {frame : Frame}
    (hframe : decodeFrame bytes = some (frame, rest)) : rest.length < bytes.length := by
  cases bytes with
  | nil => cases hframe
  | cons first bytes =>
      cases bytes with
      | nil => cases hframe
      | cons second bytes =>
          obtain ⟨⟨body, rest'⟩, hbody, heq⟩ := Option.map_eq_some_iff.mp hframe
          obtain rfl := (Prod.mk.inj heq).2
          have hle := length_decodeBody hbody
          rw [List.length_cons, List.length_cons]
          omega

/-- The frames that the bytes are made of; none when some bytes are left over. -/
def decodeFrames (bytes : List Byte) : Option (List Frame) :=
  if bytes = [] then some []
  else
    match _hframe : decodeFrame bytes with
    | none => none
    | some (frame, rest) => (decodeFrames rest).map (frame :: ·)
termination_by bytes.length
decreasing_by exact length_decodeFrame ‹_›

theorem decodeFrames_nil : decodeFrames [] = some [] := by
  rw [decodeFrames, if_pos rfl]

theorem decodeFrames_cons {bytes rest : List Byte} {frame : Frame}
    (hframe : decodeFrame bytes = some (frame, rest)) :
    decodeFrames bytes = (decodeFrames rest).map (frame :: ·) := by
  have hne : bytes ≠ [] := by
    rintro rfl
    cases hframe
  rw [decodeFrames, if_neg hne]
  split
  · rename_i hnone
    rw [hframe] at hnone
    cases hnone
  · rename_i frame' rest' hsome
    obtain ⟨rfl, rfl⟩ := Prod.mk.inj (Option.some.inj (hframe.symm.trans hsome))
    rfl

/-- Encodings that are decoded whatever follows them are decoded one after the other. -/
theorem decodeFrames_flatMap {α : Type*} {encode : α → List Byte} {frameOf : α → Frame}
    {items : List α} (hdecode : ∀ item ∈ items, ∀ rest,
      decodeFrame (encode item ++ rest) = some (frameOf item, rest)) :
    decodeFrames (items.flatMap encode) = some (items.map frameOf) := by
  induction items with
  | nil => exact decodeFrames_nil
  | cons item items ih =>
      obtain ⟨hitem, hitems⟩ := List.forall_mem_cons.mp hdecode
      rw [List.flatMap_cons, decodeFrames_cons (hitem _), ih hitems, Option.map_some, List.map_cons]

/-! ## The frames of a server are decoded -/

theorem takeExactly_append (bytes rest : List Byte) :
    takeExactly bytes.length (bytes ++ rest) = some (bytes, rest) := by
  rw [takeExactly, if_pos (by rw [List.length_append]; omega), List.take_left, List.drop_left]

theorem decode_flags (fin : Bool) (rsv : BitVec 3) (opcode : BitVec 4) :
    (BitVec.ofBool fin ++ (rsv ++ opcode)).getLsbD 7 = fin ∧
      (BitVec.ofBool fin ++ (rsv ++ opcode)).extractLsb' 4 3 = rsv ∧
      (BitVec.ofBool fin ++ (rsv ++ opcode)).extractLsb' 0 4 = opcode := by
  revert fin rsv opcode
  decide

theorem decode_length (masked : Bool) (lengthBits : BitVec 7) :
    (BitVec.ofBool masked ++ lengthBits).getLsbD 7 = masked ∧
      (BitVec.ofBool masked ++ lengthBits).extractLsb' 0 7 = lengthBits := by
  revert masked lengthBits
  decide

/-- The number of bytes that the form takes behind the header. -/
def LengthForm.size : LengthForm → Nat
  | .seven => 0
  | .sixteen => 2

/-- The form that takes the fewest bytes, of the two. -/
def LengthForm.shortest (length : Nat) : LengthForm :=
  if length ≤ 125 then .seven else .sixteen

theorem LengthForm.lt_limit_shortest {length : Nat} (hle : length ≤ 65535) :
    length < (shortest length).limit := by
  rw [shortest]
  split
  · rw [limit]
    omega
  · rw [limit]
    omega

theorem LengthForm.size_shortest {length : Nat} (hle : length ≤ 65535) :
    (shortest length).size = shortestSize length := by
  rw [shortest, shortestSize, if_pos hle]
  split
  · rfl
  · rfl

theorem ServerFrame.decodeBody_encode (frame : ServerFrame) (rest : List Byte) :
    decodeBody frame.lengthBits.toNat false (frame.extendedLength ++ frame.payload ++ rest) =
        some ((none, frame.payload), rest) ∧
      extendedSize frame.lengthBits.toNat = frame.form.size := by
  have hpayload : decodePayload false frame.payload.length (frame.payload ++ rest) =
      some ((none, frame.payload), rest) := by
    rw [decodePayload, if_neg (by decide), takeExactly_append]
    rfl
  have hlt := frame.payload_lt
  cases hform : frame.form with
  | seven =>
      rw [hform, LengthForm.limit] at hlt
      have hbits : frame.lengthBits.toNat = frame.payload.length := by
        rw [lengthBits, hform]
        exact Nat.mod_eq_of_lt (by omega)
      have hsize : extendedSize frame.payload.length = 0 := by
        rw [extendedSize, if_neg (by omega), if_neg (by omega)]
      have hlength : payloadLength frame.payload.length [] = some frame.payload.length :=
        if_pos hsize
      have hfield : takeExactly 0 (frame.payload ++ rest) = some ([], frame.payload ++ rest) :=
        takeExactly_append [] _
      rw [hbits, extendedLength, hform, decodeBody, hsize]
      refine ⟨?_, rfl⟩
      rw [List.nil_append, hfield, Option.bind_some]
      dsimp only
      rw [hlength, Option.bind_some, hpayload]
  | sixteen =>
      rw [hform, LengthForm.limit] at hlt
      have hbits : frame.lengthBits.toNat = 126 := by
        rw [lengthBits, hform]
        rfl
      have hsize : frame.extendedLength.length = extendedSize 126 := by
        rw [extendedLength, hform]
        rfl
      have hvalue : BigEndian.value frame.extendedLength = frame.payload.length := by
        rw [extendedLength, hform]
        simp [BigEndian.value]
        omega
      have hlength : payloadLength 126 frame.extendedLength = some frame.payload.length := by
        rw [payloadLength, if_neg (by decide), hvalue, if_pos (by omega)]
      rw [hbits, decodeBody, ← hsize, List.append_assoc, takeExactly_append, Option.bind_some]
      dsimp only
      rw [hlength, Option.bind_some, hpayload]
      exact ⟨rfl, hsize⟩

/-- The frame as it is read. -/
def ServerFrame.frame (frame : ServerFrame) : Frame where
  fin := frame.fin
  rsv := frame.rsv
  opcode := frame.opcode
  maskKey := none
  lengthSize := frame.form.size
  payload := frame.payload

theorem ServerFrame.decodeFrame_encode (frame : ServerFrame) (rest : List Byte) :
    decodeFrame (frame.encode ++ rest) = some (frame.frame, rest) := by
  obtain ⟨hfin, hrsv, hopcode⟩ := decode_flags frame.fin frame.rsv frame.opcode
  obtain ⟨hmask, hlength⟩ := decode_length false frame.lengthBits
  obtain ⟨hbody, hsize⟩ := frame.decodeBody_encode rest
  rw [encode, List.append_assoc, List.cons_append, List.cons_append, List.nil_append, decodeFrame]
  dsimp only
  rw [hmask, hlength, hbody, hsize, hfin, hrsv, hopcode]
  rfl

/-! ## Frames as they arrive -/

theorem takeExactly_stable {count : Nat} {bytes taken rest : List Byte} (more : List Byte)
    (htake : takeExactly count bytes = some (taken, rest)) :
    takeExactly count (bytes ++ more) = some (taken, rest ++ more) := by
  rw [takeExactly] at htake
  split at htake
  · rename_i hle
    obtain ⟨rfl, rfl⟩ := Prod.mk.inj (Option.some.inj htake)
    rw [takeExactly, if_pos (by rw [List.length_append]; omega),
      List.take_append_of_le_length hle, List.drop_append_of_le_length hle]
  · cases htake

theorem decodePayload_stable {masked : Bool} {length : Nat} {bytes rest : List Byte}
    {body : Option (List Byte) × List Byte} (more : List Byte)
    (hbody : decodePayload masked length bytes = some (body, rest)) :
    decodePayload masked length (bytes ++ more) = some (body, rest ++ more) := by
  rw [decodePayload] at hbody ⊢
  split at hbody
  · rename_i hmasked
    obtain ⟨⟨maskKey, behindKey⟩, hkey, hbody⟩ := Option.bind_eq_some_iff.mp hbody
    obtain ⟨⟨payload, rest'⟩, hpayload, heq⟩ := Option.map_eq_some_iff.mp hbody
    obtain ⟨rfl, rfl⟩ := Prod.mk.inj heq
    rw [if_pos hmasked, takeExactly_stable more hkey, Option.bind_some]
    dsimp only
    rw [takeExactly_stable more hpayload]
    rfl
  · rename_i hplain
    obtain ⟨⟨payload, rest'⟩, hpayload, heq⟩ := Option.map_eq_some_iff.mp hbody
    obtain ⟨rfl, rfl⟩ := Prod.mk.inj heq
    rw [if_neg hplain, takeExactly_stable more hpayload]
    rfl

theorem decodeBody_stable {lengthBits : Nat} {masked : Bool} {bytes rest : List Byte}
    {body : Option (List Byte) × List Byte} (more : List Byte)
    (hbody : decodeBody lengthBits masked bytes = some (body, rest)) :
    decodeBody lengthBits masked (bytes ++ more) = some (body, rest ++ more) := by
  rw [decodeBody] at hbody ⊢
  obtain ⟨⟨field, behindLength⟩, hfield, hbody⟩ := Option.bind_eq_some_iff.mp hbody
  obtain ⟨length, hlength, hpayload⟩ := Option.bind_eq_some_iff.mp hbody
  rw [takeExactly_stable more hfield, Option.bind_some]
  dsimp only
  rw [hlength, Option.bind_some]
  exact decodePayload_stable more hpayload

theorem decodeFrame_stable {bytes rest : List Byte} {frame : Frame} (more : List Byte)
    (hframe : decodeFrame bytes = some (frame, rest)) :
    decodeFrame (bytes ++ more) = some (frame, rest ++ more) := by
  cases bytes with
  | nil => cases hframe
  | cons first bytes =>
      cases bytes with
      | nil => cases hframe
      | cons second bytes =>
          obtain ⟨⟨body, rest'⟩, hbody, heq⟩ := Option.map_eq_some_iff.mp hframe
          obtain ⟨rfl, rfl⟩ := Prod.mk.inj heq
          rw [List.cons_append, List.cons_append, decodeFrame]
          dsimp only
          rw [decodeBody_stable more hbody]
          rfl

/-- The frames as a receiver takes them off a stream. -/
def frameReader : StreamReader.Reader Byte Frame where
  read := decodeFrame
  shrinks := length_decodeFrame
  stable := decodeFrame_stable

end Rfc6455
