import DumaisLib.WebSocket.WSProtocolParser

/-!
# The payload length that a frame header announces

`decodePayloadSize` shifts sign-extended bytes together.  This module states
what a header is meant to announce and which headers are decoded to just that.
-/

namespace DumaisLib.WebSocket

open BigEndian

namespace WSHeader

/-- The bytes of the extended payload length. -/
def lengthField (header : WSHeader) (data : List Byte) : List Byte :=
  if header.payloadSize = 126#7 then (data.drop 2).take 2
  else if header.payloadSize = 127#7 then (data.drop 2).take 8
  else []

/-- The announced payload length: 7 bits, or the unsigned big-endian field. -/
def payloadLength (header : WSHeader) (data : List Byte) : Nat :=
  if header.payloadSize = 126#7 ∨ header.payloadSize = 127#7 then
    value (header.lengthField data)
  else
    header.payloadSize.toNat

/-- Sign extension leaves the announced length alone. -/
def SignSafe (header : WSHeader) (data : List Byte) : Prop :=
  if header.payloadSize = 126#7 then
    ∀ byte ∈ header.lengthField data, byte.msb = false
  else
    (header.lengthField data).Pairwise fun earlier later =>
      later.msb = true → earlier = 0xFF#8

instance (header : WSHeader) (data : List Byte) : Decidable (header.SignSafe data) := by
  unfold SignSafe
  infer_instance

theorem decodePayloadSize_two {header : WSHeader} {data : List Byte}
    (hform : header.payloadSize = 126#7) (hlength : 4 ≤ data.length) :
    header.decodePayloadSize data = (ofSigned 64 (header.lengthField data)).toNat := by
  match data, hlength with
  | _ :: _ :: _ :: _ :: _, _ => simp [decodePayloadSize, lengthField, hform, ofSigned]

theorem decodePayloadSize_eight {header : WSHeader} {data : List Byte}
    (hform : header.payloadSize = 127#7) (hlength : 10 ≤ data.length) :
    header.decodePayloadSize data = (ofSigned 64 (header.lengthField data)).toNat := by
  match data, hlength with
  | _ :: _ :: _ :: _ :: _ :: _ :: _ :: _ :: _ :: _ :: _, _ =>
      simp only [decodePayloadSize, lengthField, hform]
      simp [ofSigned, BitVec.shiftLeft_or_distrib, ← BitVec.shiftLeft_add]

theorem length_lengthField_two {header : WSHeader} {data : List Byte}
    (hform : header.payloadSize = 126#7) (hlength : 4 ≤ data.length) :
    (header.lengthField data).length = 2 := by
  simp [lengthField, hform]
  omega

theorem length_lengthField_eight {header : WSHeader} {data : List Byte}
    (hform : header.payloadSize = 127#7) (hlength : 10 ≤ data.length) :
    (header.lengthField data).length = 8 := by
  simp [lengthField, hform]
  omega

/-- The decoded length is the announced one exactly for sign-safe headers. -/
theorem decodePayloadSize_eq_iff {header : WSHeader} {data : List Byte}
    (hlength : header.headerSize ≤ data.length) :
    header.decodePayloadSize data = header.payloadLength data ↔ header.SignSafe data := by
  by_cases htwo : header.payloadSize = 126#7
  · have hfour : 4 ≤ data.length := by
      have hsize : header.headerSize = 8 := by simp [headerSize, htwo, size]
      omega
    have hfield := length_lengthField_two htwo hfour
    rw [decodePayloadSize_two htwo hfour, payloadLength, if_pos (Or.inl htwo),
      ← toNat_ofUnsigned (w := 64) _ (by omega), BitVec.toNat_inj,
      ofSigned_eq_ofUnsigned_iff_of_lt _ (by omega), SignSafe, if_pos htwo]
  · by_cases height : header.payloadSize = 127#7
    · have hten : 10 ≤ data.length := by
        have hsize : header.headerSize = 14 := by simp [headerSize, height, size]
        omega
      have hfield := length_lengthField_eight height hten
      rw [decodePayloadSize_eight height hten, payloadLength, if_pos (Or.inr height),
        ← toNat_ofUnsigned (w := 64) _ (by omega), BitVec.toNat_inj,
        ofSigned_eq_ofUnsigned_iff_of_eq _ (by omega), SignSafe, if_neg htwo]
    · simp [decodePayloadSize, payloadLength, SignSafe, lengthField, htwo, height]

theorem decodePayloadSize_lt (header : WSHeader) (data : List Byte) :
    header.decodePayloadSize data < 2 ^ 64 := by
  simp only [decodePayloadSize]
  split
  · exact BitVec.isLt _
  · split
    · exact BitVec.isLt _
    · exact header.payloadSize.isLt.trans (by decide)

/-- The header is decoded to the announced frame length. -/
def LengthDecodes (data : List Byte) : Prop :=
  let header := read data
  header.SignSafe data ∧ header.headerSize + header.payloadLength data < 2 ^ 64

instance (data : List Byte) : Decidable (LengthDecodes data) := by
  unfold LengthDecodes
  infer_instance

/-- The frame length comes out right exactly when the header is decoded so. -/
theorem frameLength_eq_iff {data : List Byte} (hlength : (read data).headerSize ≤ data.length) :
    sizeAdd (read data).headerSize ((read data).decodePayloadSize data) =
        (read data).headerSize + (read data).payloadLength data ↔
      LengthDecodes data := by
  have hiff := decodePayloadSize_eq_iff hlength
  have hdecode := (read data).decodePayloadSize_lt data
  simp only [LengthDecodes, ← hiff, sizeAdd]
  omega

end WSHeader

end DumaisLib.WebSocket
