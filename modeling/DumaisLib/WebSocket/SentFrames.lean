import DumaisLib.WebSocket.ServerFrames

/-!
# The frames of the messages that are sent

Every message is packed into one frame.  The packets of any messages, one after
the other, are read back as these messages.
-/

set_option linter.dupNamespace false

namespace DumaisLib.WebSocket

open Rfc6455

/-- A message that fits into one frame. -/
structure Message where
  opcode : BitVec 4
  payload : List Byte
  length_payload : payload.length ≤ 65535

namespace Message

/-- The one frame that a message is: final, unmasked, with the shortest length. -/
def frame (message : Message) : Frame where
  fin := true
  rsv := 0#3
  opcode := message.opcode
  maskKey := none
  lengthSize := shortestSize message.payload.length
  payload := message.payload

/-- The frame as the server builds it. -/
def serverFrame (message : Message) : ServerFrame :=
  messageFrame message.opcode message.payload message.length_payload

theorem frame_serverFrame (message : Message) : message.serverFrame.frame = message.frame := by
  have hsize := LengthForm.size_shortest message.length_payload
  rw [ServerFrame.frame, frame, ← hsize]
  rfl

theorem sendData_eq (message : Message) :
    WSProtocolParser.sendData message.opcode message.payload = some message.serverFrame.encode :=
  sendData_eq_encode message.length_payload

theorem decodeFrame_serverFrame (message : Message) (rest : List Byte) :
    decodeFrame (message.serverFrame.encode ++ rest) = some (message.frame, rest) := by
  rw [ServerFrame.decodeFrame_encode, frame_serverFrame]

theorem encode_bounds (message : Message) :
    message.serverFrame.encode ≠ [] ∧ message.serverFrame.encode.length < 2 ^ 64 := by
  refine ⟨List.cons_ne_nil _ _, ?_⟩
  have hlength := message.length_payload
  have hpayload : message.serverFrame.payload = message.payload := rfl
  have hextended : message.serverFrame.extendedLength.length ≤ 2 := by
    rw [ServerFrame.extendedLength]
    split
    · exact Nat.zero_le _
    · exact le_rfl
  rw [ServerFrame.encode, List.length_append, List.length_append, hpayload]
  simp only [List.length_cons, List.length_nil]
  omega

/-- The packets that are made for the messages. -/
def packets (messages : List Message) : Option (List (List Byte)) :=
  messages.mapM fun message => WSProtocolParser.sendData message.opcode message.payload

theorem packets_eq (messages : List Message) :
    packets messages = some (messages.map fun message => message.serverFrame.encode) := by
  induction messages with
  | nil => rfl
  | cons message messages ih =>
      rw [packets] at ih
      rw [packets, List.mapM_cons, sendData_eq, ih]
      rfl

/--
The packets of any messages, joined, are read as exactly these messages: one
final, unmasked frame each, with the shortest length, and no bytes left over.
-/
theorem decodeFrames_packets (messages : List Message) :
    ∃ sent, packets messages = some sent ∧
      decodeFrames sent.flatten = some (messages.map frame) := by
  refine ⟨_, packets_eq messages, ?_⟩
  rw [← List.flatMap_def]
  exact decodeFrames_flatMap fun message _ rest => message.decodeFrame_serverFrame rest

example : (packets [⟨1#4, [0x68#8, 0x69#8], by decide⟩]).map List.flatten =
    some [0x81#8, 0x02#8, 0x68#8, 0x69#8] := by
  decide

end Message

end DumaisLib.WebSocket
