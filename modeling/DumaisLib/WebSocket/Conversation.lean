import DumaisLib.WebSocket.Delivery
import DumaisLib.WebSocket.RequestChunks
import DumaisLib.WebSocket.SentFrames
import DumaisLib.WebSocket.WebSocketServer

/-!
# A client and a server

A client asks for the WebSocket protocol, reads the whole answer, and then sends
messages, which the application answers one by one.  Between the two ends the
bytes travel in both directions, cut and delayed in any way.
-/

set_option linter.dupNamespace false

namespace DumaisLib.WebSocket

open Machine Rfc6455 DumaisLib.Utils

/-! ## An application that answers -/

def Send.opcode : Send → BitVec 4
  | .text _ => WS_TEXT
  | .binary _ => WS_BINARY

def Send.payload : Send → List Byte
  | .text content => Text.toBytes content
  | .binary buffer => buffer

theorem Send.frame?_eq (call : Send) :
    call.frame? = WSProtocolParser.sendData call.opcode call.payload := by
  cases call with
  | text content => rfl
  | binary buffer => rfl

/-- An application that answers each message with one that fits into a frame. -/
structure Service where
  choose : List Event → Option Text
  answer : List Event → Send
  fits : ∀ log, (answer log).payload.length ≤ 65535
  onNewConnection : Bool
  onConnectionClosed : Bool
  digest : Text → Text

namespace Service

variable (service : Service)

def application : Application where
  onWebSocketRequest := some service.choose
  onNewConnection := if service.onNewConnection then some fun _ => [] else none
  onConnectionClosed := service.onConnectionClosed
  onMessage := some fun log => [service.answer log]
  digest := service.digest

/-- The answer to the last message of the log. -/
def message (log : List Event) : Message where
  opcode := (service.answer log).opcode
  payload := (service.answer log).payload
  length_payload := service.fits log

/-- The answers to the frames, which are told after what the log has. -/
def answers : List Event → List ClientFrame → List Message
  | _, [] => []
  | log, frame :: frames =>
      let log := log ++ [.message (messageOfFrame frame)]
      service.message log :: answers log frames

theorem length_answers (log : List Event) (frames : List ClientFrame) :
    (service.answers log frames).length = frames.length := by
  induction frames generalizing log with
  | nil => rfl
  | cons frame frames ih => rw [answers, List.length_cons, List.length_cons, ih]

theorem answers_append (log : List Event) (frames later : List ClientFrame) :
    service.answers log (frames ++ later) =
      service.answers log frames ++
        service.answers (log ++ frames.map (.message ∘ messageOfFrame)) later := by
  induction frames generalizing log with
  | nil => simp [answers]
  | cons frame frames ih => simp [answers, ih]

/-- An answer is queued as one frame. -/
theorem frame_answer (log : List Event) :
    (service.answer log).frame? = some (service.message log).serverFrame.encode := by
  rw [Send.frame?_eq]
  exact (service.message log).sendData_eq

end Service

/-! ## A handshake that succeeds -/

/-- A complete request, with what the application makes of it. -/
structure Handshake (service : Service) where
  bytes : List Byte
  text : HTTPProtocolParser.RequestText
  text_eq : Text.ofBytes bytes = text.text
  key : Text
  chosen : Text
  ready : (HTTPProtocolParser.answer text.text).status = .ready
  get : (HTTPProtocolParser.answer text.text).type = "GET".toList
  key_eq : (HTTPProtocolParser.answer text.text).headers.lookup "sec-websocket-key".toList = some key
  chosen_eq : service.choose [.webSocketRequest (HTTPProtocolParser.answer text.text).resource
    (HTTPProtocolParser.answer text.text).protocols] = some chosen
  chosen_line : 10#8 ∉ Text.toBytes chosen
  digest_line : 10#8 ∉ Text.toBytes (service.digest (key ++ MAGIC))
  response_lt : (Text.toBytes (HTTPProtocolParser.switchProtocol service.digest key chosen)).length <
    2 ^ 64

namespace Handshake

variable {service : Service} (handshake : Handshake service)

def request : HTTPRequest :=
  HTTPProtocolParser.answer handshake.text.text

/-- The answer of the server. -/
def response : List Byte :=
  Text.toBytes (HTTPProtocolParser.switchProtocol service.digest handshake.key handshake.chosen)

/-- What the application has been told before the first message. -/
def opening : List Event :=
  .webSocketRequest handshake.request.resource handshake.request.protocols ::
    (if service.onNewConnection then [.newConnection] else [])

/-- The answers to the frames. -/
def answers (frames : List ClientFrame) : List Message :=
  service.answers handshake.opening frames

/-- The buffers that are queued until the frames have been answered. -/
def queued (frames : List ClientFrame) : List (List Byte) :=
  handshake.response :: (handshake.answers frames).map fun message => message.serverFrame.encode

/-- The lines of the answer, without their ends. -/
def lines : List Text :=
  ["HTTP/1.1 101 Switching Protocols".toList, "Upgrade: websocket".toList,
    "Connection: Upgrade".toList, "Access-Control-Allow-Origin: *".toList,
    "Sec-WebSocket-Accept: ".toList ++ service.digest (handshake.key ++ MAGIC),
    "Sec-WebSocket-Protocol: ".toList ++ handshake.chosen]

theorem switchProtocol_eq :
    HTTPProtocolParser.switchProtocol service.digest handshake.key handshake.chosen =
      handshake.lines.flatMap (· ++ "\r\n".toList) ++ "\r\n".toList := by
  have hstatus : "HTTP/1.1 101 Switching Protocols\r\n".toList =
    "HTTP/1.1 101 Switching Protocols".toList ++ "\r\n".toList := by simp
  have hupgrade : "Upgrade: websocket\r\n".toList =
    "Upgrade: websocket".toList ++ "\r\n".toList := by simp
  have hconnection : "Connection: Upgrade\r\n".toList =
    "Connection: Upgrade".toList ++ "\r\n".toList := by simp
  have hallow : "Access-Control-Allow-Origin: *\r\n".toList =
    "Access-Control-Allow-Origin: *".toList ++ "\r\n".toList := by simp
  unfold HTTPProtocolParser.switchProtocol lines
  rw [hstatus, hupgrade, hconnection, hallow]
  generalize "\r\n".toList = ending
  simp only [List.flatMap_cons, List.flatMap_nil, List.append_assoc, List.nil_append]

theorem response_eq :
    handshake.response =
      Search.withEnds 13#8 10#8 (handshake.lines.map Text.toBytes) ++ [13#8, 10#8] := by
  have hend : Text.toBytes "\r\n".toList = [13#8, 10#8] := rfl
  rw [response, switchProtocol_eq, Search.withEnds, List.flatMap_map, ← hend]
  simp only [Text.toBytes, List.map_append, List.map_flatMap]

theorem lines_plain :
    ∀ line ∈ handshake.lines.map Text.toBytes, line ≠ [] ∧ 10#8 ∉ line := by
  have hdigest := handshake.digest_line
  have hchosen := handshake.chosen_line
  rw [Text.toBytes] at hdigest hchosen
  simp only [lines, List.map_cons, List.map_nil, Text.toBytes, List.map_append]
  refine List.forall_mem_cons.mpr ⟨by decide, List.forall_mem_cons.mpr ⟨by decide,
    List.forall_mem_cons.mpr ⟨by decide, List.forall_mem_cons.mpr ⟨by decide,
      List.forall_mem_cons.mpr ⟨⟨by simp, ?_⟩, List.forall_mem_singleton.mpr ⟨by simp, ?_⟩⟩⟩⟩⟩⟩
  · exact fun hmem => (List.mem_append.mp hmem).elim (by decide) hdigest
  · exact fun hmem => (List.mem_append.mp hmem).elim (by decide) hchosen

end Handshake

/-! ## The system -/

/--
The connection of the server, the bytes on their way to either side, and what
the client has read and sent.
-/
structure Conversation where
  server : WebSocket
  toServer : List Byte
  toClient : List Byte
  received : List Byte
  sent : List ClientFrame

/-- What stands behind the first empty line. -/
def behindHeader (bytes : List Byte) : Option (List Byte) :=
  (Search.find [13#8, 10#8, 13#8, 10#8] bytes 0).map fun position => bytes.drop (position + 4)

theorem behindHeader_append {bytes rest : List Byte} (more : List Byte)
    (hbehind : behindHeader bytes = some rest) :
    behindHeader (bytes ++ more) = some (rest ++ more) := by
  obtain ⟨position, hfind, rfl⟩ := Option.map_eq_some_iff.mp hbehind
  have hend : position + 4 ≤ bytes.length := Search.find_end_le hfind
  rw [behindHeader, Search.find_append hfind, Option.map_some,
    List.drop_append_of_le_length hend]

/-- The answer of the server ends with its first empty line. -/
theorem Handshake.behindHeader_response {service : Service} (handshake : Handshake service)
    (rest : List Byte) : behindHeader (handshake.response ++ rest) = some rest := by
  have hne : (13#8 : Byte) ≠ 10#8 := by decide
  have hfind := Search.find_empty_line hne
    (fun line hmem => (handshake.lines_plain line hmem).imp_right Search.unbroken_of_not_mem)
    (List.cons_ne_nil _ _) rest
  rw [← response_eq] at hfind
  have hlength : (Search.withEnds 13#8 10#8 (handshake.lines.map Text.toBytes)).length - 2 + 4 =
      handshake.response.length := by
    rw [response_eq, List.length_append]
    have hlong : 2 ≤ (Search.withEnds 13#8 10#8
        (handshake.lines.map Text.toBytes)).length := by
      simp [Search.withEnds, Handshake.lines]
      omega
    simp only [List.length_cons, List.length_nil]
    omega
  rw [behindHeader, hfind, Option.map_some, hlength, List.drop_left]

namespace Conversation

/-- The frames that the client has read behind the answer to its request. -/
def frames (conversation : Conversation) : List Frame :=
  ((behindHeader conversation.received).map frameReader.complete).getD []

inductive Act where
  | deliver (now count : Nat)
  | transmit (count : Nat)
  | watchdog (now : Nat)
  | read (count : Nat)
  | submit (frame : ClientFrame)

/-- The size of the buffer of `processReceive`. -/
def RECEIVE_SIZE : Nat := 1024

/-- A step is disabled when there are too few bytes, or the server gives the connection up. -/
def step (app : Application) (conversation : Conversation) : Act → Option Conversation
  | .deliver now count =>
      if 1 ≤ count ∧ count ≤ RECEIVE_SIZE ∧ count ≤ conversation.toServer.length then
        match conversation.server.processData app now count (conversation.toServer.take count) with
        | .finished (true, server) =>
            some { conversation with
              server := server
              toServer := conversation.toServer.drop count }
        | _ => none
      else none
  | .transmit count =>
      let offered := conversation.server.getTxData
      -- a socket that takes nothing has reported EAGAIN
      if count = 0 then some { conversation with server := offered.2 }
      else if count ≤ offered.1.2 then
        some { conversation with
          server := offered.2.onDataSent count
          toClient := conversation.toClient ++ offered.1.1.take count }
      else none
  | .watchdog now =>
      let watched := conversation.server.watchdog now
      if watched.1 then some { conversation with server := watched.2 } else none
  | .read count =>
      if 1 ≤ count ∧ count ≤ conversation.toClient.length then
        some { conversation with
          toClient := conversation.toClient.drop count
          received := conversation.received ++ conversation.toClient.take count }
      else none
  | .submit frame =>
      some { conversation with
        toServer := conversation.toServer ++ frame.encode
        sent := conversation.sent ++ [frame] }

/-- The answers that may be outstanding. -/
def WINDOW : Nat := 999

/-- The client reads the answer first, and does not send more messages ahead than the queue holds. -/
def Disciplined (conversation : Conversation) : Act → Prop
  | .submit frame =>
      Deliverable frame ∧ (behindHeader conversation.received).isSome ∧
        conversation.sent.length < conversation.frames.length + WINDOW
  | _ => True

/-- The request is on its way to a new connection. -/
def start {service : Service} (handshake : Handshake service) (closingTimeStamp : Nat)
    (connectionState : WSState) (fresh : Fin TX_LIST_SIZE → SendBuffer) : Conversation where
  server := .create closingTimeStamp connectionState fresh
  toServer := handshake.bytes
  toClient := []
  received := []
  sent := []

end Conversation

end DumaisLib.WebSocket
