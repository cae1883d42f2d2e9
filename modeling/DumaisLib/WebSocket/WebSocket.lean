import DumaisLib.Utils.MPSCRingBuffer
import DumaisLib.WebSocket.HTTPProtocolParser
import DumaisLib.WebSocket.ParserInvariant

/-!
# A WebSocket connection

One connection from the HTTP request to its end, driven by the server loop and
by the application.  Callbacks are the application's choice; each is recorded
in a log, and may depend on everything recorded before.
-/

set_option linter.dupNamespace false

namespace DumaisLib.WebSocket

open DumaisLib.Utils Machine

/-! ## State -/

inductive Protocol where
  | http
  | webSocket
  deriving DecidableEq

inductive WSState where
  | connected
  | closing
  | closed
  deriving DecidableEq

structure WebSocketMessage where
  buffer : List Byte
  size : Nat
  type : BitVec 4
  fin : Bool
  deriving DecidableEq

structure SendBuffer where
  buffer : List Byte
  size : Nat
  currentIndex : Nat
  mustDeleteBuffer : Bool
  deriving DecidableEq

/-- A callback invocation. -/
inductive Event where
  | webSocketRequest (resource : Text) (protocols : TextMap)
  | newConnection
  | message (msg : WebSocketMessage)
  | connectionClosed

/-- A public sending call. -/
inductive Send where
  | text (text : Text)
  | binary (buffer : List Byte)
  deriving DecidableEq

/--
The application.  An absent callback is `none`; a present one sees the log,
which ends with its own invocation.  `digest` is the SHA-1 digest in base64.
-/
structure Application where
  onWebSocketRequest : Option (List Event → Option Text)
  onNewConnection : Option (List Event → List Send)
  onConnectionClosed : Bool
  onMessage : Option (List Event → List Send)
  digest : Text → Text

def TX_LIST_SIZE : Nat := 1000

instance : NeZero TX_LIST_SIZE := ⟨by decide⟩

structure WebSocket where
  protocol : Protocol
  closingTimeStamp : Nat
  connectionState : WSState
  httpParser : HTTPProtocolParser
  wsParser : WSProtocolParser
  txList : MPSCRingBuffer SendBuffer TX_LIST_SIZE
  currentSendBuffer : Option SendBuffer
  log : List Event

namespace WebSocket

/-- The constructor; the arguments are what uninitialised memory contains. -/
def create (closingTimeStamp : Nat) (connectionState : WSState)
    (fresh : Fin TX_LIST_SIZE → SendBuffer) : WebSocket where
  protocol := .http
  closingTimeStamp := closingTimeStamp
  connectionState := connectionState
  httpParser := .create
  wsParser := .create
  txList := .create fresh
  currentSendBuffer := none
  log := []

/-! ## Sending -/

/-- We just abort the connection immediately. -/
def abortWebSocket (ws : WebSocket) : WebSocket :=
  { ws with connectionState := .closed }

/-- The queued buffer has the same content whoever owned the given one. -/
def sendData (ws : WebSocket) (buffer : List Byte) : WebSocket :=
  let sendBuffer : SendBuffer :=
    { buffer := buffer, size := buffer.length, currentIndex := 0, mustDeleteBuffer := true }
  let put := ws.txList.put sendBuffer
  let queued := { ws with txList := put.2 }
  if put.1 = false then queued.abortWebSocket else queued

def closeWebSocket (ws : WebSocket) (now : Nat) : WebSocket :=
  let sent := ws.sendData WSProtocolParser.generateCloseMessage
  { sent with connectionState := .closing, closingTimeStamp := now }

def sendText (ws : WebSocket) (text : Text) : WebSocket :=
  match WSProtocolParser.sendData WS_TEXT (Text.toBytes text) with
  | none => ws
  | some packet => ws.sendData packet

def sendBinary (ws : WebSocket) (buffer : List Byte) : WebSocket :=
  match WSProtocolParser.sendData WS_BINARY buffer with
  | none => ws
  | some packet => ws.sendData packet

def send (ws : WebSocket) : Send → WebSocket
  | .text text => ws.sendText text
  | .binary buffer => ws.sendBinary buffer

/-- The application is called and sends what it likes. -/
def notify (ws : WebSocket) (callback : Option (List Event → List Send)) (event : Event) :
    WebSocket :=
  match callback with
  | none => ws
  | some reply =>
      let log := ws.log ++ [event]
      (reply log).foldl send { ws with log := log }

/-- The bytes on offer with their number, and the state after the call. -/
def getTxData (ws : WebSocket) : (List Byte × Nat) × WebSocket :=
  if ws.protocol = .webSocket ∧ ws.connectionState ≠ .connected then
    (([], 0), ws)
  else
    let ws :=
      if ws.currentSendBuffer = none then
        match ws.txList.get with
        | (some sendBuffer, txList) =>
            { ws with currentSendBuffer := some sendBuffer, txList := txList }
        | (none, txList) => { ws with txList := txList }
      else ws
    match ws.currentSendBuffer with
    | none => (([], 0), ws)
    | some current =>
        ((current.buffer.drop current.currentIndex,
          sizeSub current.size current.currentIndex), ws)

def onDataSent (ws : WebSocket) (size : Nat) : WebSocket :=
  match ws.currentSendBuffer with
  | none => ws
  | some current =>
      let currentIndex := sizeAdd current.currentIndex size
      if currentIndex = current.size then
        { ws with currentSendBuffer := none }
      else
        { ws with currentSendBuffer := some { current with currentIndex := currentIndex } }

/-! ## Receiving -/

def checkHTTPBuffer (app : Application) (ws : WebSocket) (buffer : List Byte) :
    Option WebSocket :=
  match ws.httpParser.parseIncoming (Text.ofBytes buffer) with
  | none => none
  | some (httpParser, req) =>
      let ws := { ws with httpParser := httpParser }
      if req.status ≠ .ready then some ws
      else if req.type ≠ "GET".toList then some ws
      else
        let rejected (ws : WebSocket) : WebSocket :=
          ws.sendData (Text.toBytes (HTTPProtocolParser.reject 404 "Not Found".toList))
        match app.onWebSocketRequest with
        | none => some (rejected ws)
        | some handler =>
            let log := ws.log ++ [.webSocketRequest req.resource req.protocols]
            let ws := { ws with log := log }
            match handler log with
            | none => some (rejected ws)
            | some chosen =>
                match req.headers.lookup "sec-websocket-key".toList with
                | none => some ws
                | some key =>
                    let ws := ws.sendData (Text.toBytes
                      (HTTPProtocolParser.switchProtocol app.digest key chosen))
                    let ws := { ws with protocol := .webSocket, connectionState := .connected }
                    some (ws.notify app.onNewConnection .newConnection)

/-- The payload decoded with the mask, byte by byte. -/
def unmask (mask payload : List Byte) : List Byte :=
  payload.mapIdx fun i byte => byte ^^^ mask.getD (i % 4) 0#8

/-- The ping's bytes are sent back with the opcode of a pong. -/
def processPing (ws : WebSocket) (buf : List Byte) : WebSocket :=
  let header := { WSHeader.read buf with opcode := WS_PONG }
  ws.sendData (header.toBytes ++ buf.drop WSHeader.size)

/-- Opcodes of the frames that carry application data. -/
def IsData (opcode : BitVec 4) : Prop :=
  opcode = WS_CONTINUE ∨ opcode = WS_TEXT ∨ opcode = WS_BINARY

instance (opcode : BitVec 4) : Decidable (IsData opcode) := by
  unfold IsData
  infer_instance

/-- The payload sizes that the `int` counter of the unmasking loop can reach. -/
def MAX_INT : Nat := 2 ^ 31 - 1

/-- What a data frame tells the application. -/
def messageOf (buffer : List Byte) (headerSize payloadSize : Nat) : WebSocketMessage :=
  let header := WSHeader.read buffer
  { buffer := unmask ((buffer.drop (headerSize - 4)).take 4)
      ((buffer.drop headerSize).take payloadSize)
    size := payloadSize
    type := header.opcode
    fin := header.fin }

/-- `none` when the unmasking loop's counter overflows. -/
def processWholeWSPacket (app : Application) (now : Nat) (ws : WebSocket) (buffer : List Byte)
    (headerSize payloadSize : Nat) : Option WebSocket :=
  let header := WSHeader.read buffer
  let complete (ws : WebSocket) : Option WebSocket :=
    some { ws with wsParser := ws.wsParser.resetMessageBuffer }
  if IsData header.opcode then
    if payloadSize > MAX_INT then none
    else
      complete (ws.notify app.onMessage (.message (messageOf buffer headerSize payloadSize)))
  else if header.opcode = WS_CLOSE then
    let ws := if ws.connectionState = .connected then ws.closeWebSocket now else ws
    complete ws.abortWebSocket
  else if header.opcode = WS_PING then
    complete (ws.processPing (buffer.take (payloadSize + headerSize)))
  else
    some (ws.closeWebSocket now)

/-- One iteration of the receive loop: it leaves the loop, or goes on with the rest. -/
inductive Iteration where
  | leave (ws : WebSocket)
  | again (ws : WebSocket) (rest : List Byte)

def iterate (app : Application) (now : Nat) (ws : WebSocket) (buf : List Byte) :
    Option Iteration :=
  match ws.wsParser.parseWSMessage buf with
  | none => none
  | some (wsParser, result) =>
      let ws := { ws with wsParser := wsParser }
      let rest := buf.drop result.dataRead
      match result.status with
      | .error => some (.leave (ws.closeWebSocket now))
      | .messageReady buffer headerSize payloadSize =>
          (ws.processWholeWSPacket app now buffer headerSize payloadSize).map (.again · rest)
      | .messageIncomplete => some (.again ws rest)

/-- "loop until we read them all": the loop, for at most `fuel` iterations. -/
def receiveLoop (app : Application) (now : Nat) : Nat → WebSocket → List Byte → Outcome WebSocket
  | _, ws, [] => .finished ws
  | 0, _, _ :: _ => .outOfFuel
  | fuel + 1, ws, buf =>
      match ws.iterate app now buf with
      | none => .fault
      | some (.leave ws) => .finished ws
      | some (.again ws rest) => receiveLoop app now fuel ws rest

def processData (app : Application) (now fuel : Nat) (ws : WebSocket) (buf : List Byte) :
    Outcome (Bool × WebSocket) :=
  match ws.protocol with
  | .http =>
      match ws.checkHTTPBuffer app buf with
      | none => .fault
      | some ws => .finished (true, ws)
  | .webSocket =>
      match receiveLoop app now fuel ws buf with
      | .outOfFuel => .outOfFuel
      | .fault => .fault
      | .finished ws => .finished (decide (ws.connectionState ≠ .closed), ws)

/-! ## The rest of the connection's life -/

def CLOSING_TIMEOUT : Nat := 5

def watchdog (ws : WebSocket) (now : Nat) : Bool × WebSocket :=
  if ws.protocol ≠ .webSocket then (true, ws)
  else if ws.connectionState = .closing ∧ now ≥ ws.closingTimeStamp + CLOSING_TIMEOUT then
    (false, ws.abortWebSocket)
  else
    (true, ws)

/-- The callbacks of a connection, once it is destroyed. -/
def destroy (app : Application) (ws : WebSocket) : List Event :=
  if app.onConnectionClosed then ws.log ++ [.connectionClosed] else ws.log

/-- The states of a connection over all its lives with the given application. -/
inductive Reachable (app : Application) : WebSocket → Prop where
  | create (closingTimeStamp : Nat) (connectionState : WSState)
      (fresh : Fin TX_LIST_SIZE → SendBuffer) :
      Reachable app (create closingTimeStamp connectionState fresh)
  | processData {ws next : WebSocket} {now fuel : Nat} {buf : List Byte} {alive : Bool} :
      Reachable app ws → buf.length < 2 ^ 64 →
      ws.processData app now fuel buf = .finished (alive, next) → Reachable app next
  | send {ws : WebSocket} (call : Send) : Reachable app ws → Reachable app (ws.send call)
  | getTxData {ws : WebSocket} : Reachable app ws → Reachable app ws.getTxData.2
  | onDataSent {ws : WebSocket} (size : Nat) :
      Reachable app ws → Reachable app (ws.onDataSent size)
  | watchdog {ws : WebSocket} (now : Nat) : Reachable app ws → Reachable app (ws.watchdog now).2

end WebSocket

end DumaisLib.WebSocket
