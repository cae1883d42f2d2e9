import DumaisLib.Lib.BigEndian
import DumaisLib.Lib.SizeT

/-!
# The WebSocket frame parser

`parseWSMessage` collects the bytes of one frame in three stages: the two fixed
header bytes, the rest of the header, and the payload.  Only `expectedLength`
remembers the stage.  `size_t` has 64 bits and plain `char` is signed.
-/

namespace DumaisLib.WebSocket

/-! ## Headers -/

def WS_CONTINUE : BitVec 4 := 0x0#4
def WS_TEXT : BitVec 4 := 0x1#4
def WS_BINARY : BitVec 4 := 0x2#4
def WS_CLOSE : BitVec 4 := 0x8#4
def WS_PING : BitVec 4 := 0x9#4
def WS_PONG : BitVec 4 := 0xA#4

/-- The packed bit fields, least significant bit first. -/
structure WSHeader where
  opcode : BitVec 4
  reserved : BitVec 3
  fin : Bool
  payloadSize : BitVec 7
  mask : Bool
  deriving DecidableEq

namespace WSHeader

/-- `sizeof(WSHeader)` -/
def size : Nat := 2

def ofBytes (first second : Byte) : WSHeader where
  opcode := first.extractLsb' 0 4
  reserved := first.extractLsb' 4 3
  fin := first.getLsbD 7
  payloadSize := second.extractLsb' 0 7
  mask := second.getLsbD 7

def toBytes (header : WSHeader) : List Byte :=
  [BitVec.ofBool header.fin ++ (header.reserved ++ header.opcode),
    BitVec.ofBool header.mask ++ header.payloadSize]

/-- The header that a byte buffer starts with. -/
def read (data : List Byte) : WSHeader :=
  ofBytes (data.getD 0 0#8) (data.getD 1 0#8)

/-- The size of a masked header. -/
def headerSize (header : WSHeader) : Nat :=
  if header.payloadSize = 126#7 then size + 4 + 2
  else if header.payloadSize = 127#7 then size + 4 + 8
  else size + 4

/-- The payload size; the extended bytes are `char`s and so are sign-extended. -/
def decodePayloadSize (header : WSHeader) (data : List Byte) : Nat :=
  let byte (index : Nat) : BitVec 64 := (data.getD index 0#8).signExtend 64
  if header.payloadSize = 126#7 then
    (byte 2 <<< 8 ||| byte 3).toNat
  else if header.payloadSize = 127#7 then
    (byte 2 <<< 56 ||| byte 3 <<< 48 ||| byte 4 <<< 40 ||| byte 5 <<< 32 |||
      byte 6 <<< 24 ||| byte 7 <<< 16 ||| byte 8 <<< 8 ||| byte 9).toNat
  else
    header.payloadSize.toNat

theorem headerSize_cases (header : WSHeader) :
    header.headerSize = 6 ∨ header.headerSize = 8 ∨ header.headerSize = 14 := by
  unfold headerSize size
  split
  · simp
  · split <;> simp

theorem getLsbD_ofBool_append {w : Nat} (bit : Bool) (low : BitVec w) :
    (BitVec.ofBool bit ++ low).getLsbD w = bit := by
  rw [BitVec.getLsbD_append]
  cases bit <;> simp

theorem ofBytes_toBytes (header : WSHeader) : read header.toBytes = header := by
  obtain ⟨opcode, reserved, fin, payloadSize, mask⟩ := header
  simp only [read, toBytes, ofBytes, List.getD_cons_zero, List.getD_cons_succ,
    mk.injEq]
  refine ⟨?_, ?_, ?_, ?_, ?_⟩
  · apply BitVec.eq_of_getLsbD_eq
    intro i hi
    rw [BitVec.getLsbD_extractLsb', BitVec.getLsbD_append, BitVec.getLsbD_append]
    simp [hi, show i < 7 by omega]
  · apply BitVec.eq_of_getLsbD_eq
    intro i hi
    rw [BitVec.getLsbD_extractLsb', BitVec.getLsbD_append, BitVec.getLsbD_append]
    simp [hi, show 4 + i < 7 by omega]
  · exact getLsbD_ofBool_append fin (reserved ++ opcode)
  · exact BitVec.extractLsb'_append_eq_right
  · exact getLsbD_ofBool_append mask payloadSize

end WSHeader

/-! ## The parser -/

def DEFAULT_DATA_SIZE : Nat := 1024

/--
`data` lists the bytes written since the last reset; the rest of the
`currentBufferSize` allocated bytes is never read.
-/
structure WSProtocolParser where
  data : List Byte
  dataIndex : Nat
  currentBufferSize : Nat
  expectedLength : Nat
  deriving DecidableEq

/-- The status of a call, with the result fields that the status sets. -/
inductive WSParsingStatus where
  | error
  | messageReady (buffer : List Byte) (headerSize payloadSize : Nat)
  | messageIncomplete
  deriving DecidableEq

structure WSParsingResult where
  status : WSParsingStatus
  dataRead : Nat
  deriving DecidableEq

namespace WSProtocolParser

def create : WSProtocolParser where
  data := []
  dataIndex := 0
  currentBufferSize := DEFAULT_DATA_SIZE
  expectedLength := WSHeader.size

def resetMessageBuffer (parser : WSProtocolParser) : WSProtocolParser where
  data := []
  dataIndex := 0
  currentBufferSize :=
    if parser.currentBufferSize > DEFAULT_DATA_SIZE then DEFAULT_DATA_SIZE
    else parser.currentBufferSize
  expectedLength := WSHeader.size

/-- How many bytes of the buffer belong to the current stage. -/
def toRead (parser : WSProtocolParser) (bufSize : Nat) : Nat :=
  if sizeAdd parser.dataIndex bufSize > parser.expectedLength then
    sizeSub parser.expectedLength parser.dataIndex
  else
    bufSize

/-- What follows the copy: the end of a stage is recognised and acted on. -/
def finishStage (parser : WSProtocolParser) : WSProtocolParser × WSParsingStatus :=
  if parser.dataIndex = parser.expectedLength then
    let header := WSHeader.read parser.data
    if header.mask = false then
      -- "All frames sent from client to server have this bit set to 1."
      (parser, .error)
    else
      let headerSize := header.headerSize
      let expectedLength :=
        if parser.expectedLength = WSHeader.size then headerSize
        else parser.expectedLength
      if parser.dataIndex = headerSize then
        let fullLength := sizeAdd headerSize (header.decodePayloadSize parser.data)
        ({ parser with
            expectedLength := fullLength
            currentBufferSize :=
              if fullLength > parser.currentBufferSize then fullLength
              else parser.currentBufferSize },
          .messageIncomplete)
      else if expectedLength > headerSize then
        ({ parser with expectedLength := expectedLength },
          .messageReady parser.data headerSize (expectedLength - headerSize))
      else
        ({ parser with expectedLength := expectedLength }, .messageIncomplete)
  else
    (parser, .messageIncomplete)

/-- `none` when the copy would leave the received buffer or `data`. -/
def parseWSMessage (parser : WSProtocolParser) (buf : List Byte) :
    Option (WSProtocolParser × WSParsingResult) :=
  let toRead := parser.toRead buf.length
  if toRead ≤ buf.length ∧ parser.dataIndex + toRead ≤ parser.currentBufferSize then
    let copied := { parser with
      data := parser.data.take parser.dataIndex ++ buf.take toRead
      dataIndex := parser.dataIndex + toRead }
    let finished := copied.finishStage
    some (finished.1, ⟨finished.2, toRead⟩)
  else
    none

/-- The packet for a server message; there is none for more than 65535 bytes. -/
def sendData (type : BitVec 4) (buffer : List Byte) : Option (List Byte) :=
  let size := buffer.length
  let header (payloadSize : BitVec 7) : WSHeader :=
    { opcode := type, reserved := 0#3, fin := true, payloadSize := payloadSize, mask := false }
  if size > 125 then
    if size > 65535 then
      none
    else
      some ((header 126#7).toBytes ++ [BitVec.ofNat 8 (size >>> 8), BitVec.ofNat 8 size] ++
        buffer)
  else
    some ((header (BitVec.ofNat 7 size)).toBytes ++ buffer)

def generateCloseMessage : List Byte :=
  WSHeader.toBytes
    { opcode := WS_CLOSE, reserved := 0#3, fin := true, payloadSize := 0#7, mask := false }

end WSProtocolParser

/-! ## The parser state as a function of the frame's bytes -/

/-- The length that ends the stage in which a frame with these bytes is. -/
def stageEnd (bytes : List Byte) : Nat :=
  let header := WSHeader.read bytes
  if bytes.length < WSHeader.size ∨ header.mask = false then WSHeader.size
  else if bytes.length < header.headerSize then header.headerSize
  else sizeAdd header.headerSize (header.decodePayloadSize bytes)

/-- The status of a call that has left exactly these bytes in the buffer. -/
def stageStatus (bytes : List Byte) : WSParsingStatus :=
  let header := WSHeader.read bytes
  if bytes.length < WSHeader.size then .messageIncomplete
  else if header.mask = false then .error
  else if bytes.length ≤ header.headerSize then .messageIncomplete
  else if bytes.length = stageEnd bytes then
    .messageReady bytes header.headerSize (stageEnd bytes - header.headerSize)
  else .messageIncomplete

/-- The parser has collected exactly `bytes` of the current frame. -/
structure Tracks (parser : WSProtocolParser) (bytes : List Byte) : Prop where
  data_eq : parser.data = bytes
  dataIndex_eq : parser.dataIndex = bytes.length
  expectedLength_eq : parser.expectedLength = stageEnd bytes
  fits : stageEnd bytes ≤ parser.currentBufferSize
  default_le : DEFAULT_DATA_SIZE ≤ parser.currentBufferSize
  size_lt : parser.currentBufferSize < 2 ^ 64

namespace Tracks

theorem create : Tracks .create [] := by
  constructor <;> decide

theorem reset {parser : WSProtocolParser} {bytes : List Byte}
    (tracks : Tracks parser bytes) : Tracks parser.resetMessageBuffer [] := by
  have hsize : parser.resetMessageBuffer.currentBufferSize = DEFAULT_DATA_SIZE := by
    have hle := tracks.default_le
    simp only [WSProtocolParser.resetMessageBuffer]
    split <;> omega
  exact ⟨rfl, rfl, rfl, by rw [hsize]; decide, by rw [hsize], by rw [hsize]; decide⟩

end Tracks

/-- Bytes after the second do not change the header fields. -/
theorem read_append {bytes more : List Byte} (hlength : 2 ≤ bytes.length) :
    WSHeader.read (bytes ++ more) = WSHeader.read bytes := by
  match bytes, hlength with
  | _ :: _ :: _, _ => rfl

/-- Bytes after the header do not change the payload size. -/
theorem decodePayloadSize_append {bytes more : List Byte} {header : WSHeader}
    (hlength : header.headerSize ≤ bytes.length) :
    header.decodePayloadSize (bytes ++ more) = header.decodePayloadSize bytes := by
  have hbyte (index : Nat) (hindex : index < header.headerSize) :
      (bytes ++ more).getD index 0#8 = bytes.getD index 0#8 :=
    List.getD_append _ _ _ _ (by omega)
  unfold WSHeader.headerSize WSHeader.size at hbyte
  unfold WSHeader.decodePayloadSize
  split
  · rename_i h126
    simp only [h126, if_true] at hbyte
    simp only [hbyte 2 (by decide), hbyte 3 (by decide)]
  · split
    · rename_i _ h127
      simp only [h127] at hbyte
      simp only [hbyte 2 (by decide), hbyte 3 (by decide), hbyte 4 (by decide),
        hbyte 5 (by decide), hbyte 6 (by decide), hbyte 7 (by decide),
        hbyte 8 (by decide), hbyte 9 (by decide)]
    · rfl

/-- While the stage is not over, its end does not move. -/
theorem stageEnd_append {bytes more : List Byte}
    (hlt : bytes.length + more.length < stageEnd bytes) :
    stageEnd (bytes ++ more) = stageEnd bytes := by
  rcases Nat.lt_or_ge bytes.length 2 with hshort | hlong
  · have hend : stageEnd bytes = 2 := by simp [stageEnd, WSHeader.size, hshort]
    rw [hend] at hlt ⊢
    simp [stageEnd, WSHeader.size, hlt]
  · unfold stageEnd WSHeader.size at hlt ⊢
    simp only [read_append hlong, List.length_append] at hlt ⊢
    have hlong' : ¬ bytes.length < 2 := by omega
    have hlong'' : ¬ bytes.length + more.length < 2 := by omega
    simp only [hlong', hlong'', false_or] at hlt ⊢
    split at hlt
    · omega
    · rename_i hmask
      simp only [hmask]
      split at hlt
      · rename_i hheader
        simp [hlt, hheader]
      · rename_i hheader
        have hheader' : ¬ bytes.length + more.length < (WSHeader.read bytes).headerSize := by
          omega
        simp [hheader, hheader', decodePayloadSize_append (Nat.not_lt.mp hheader)]

end DumaisLib.WebSocket
