import DumaisLib.Lib.Machine
import DumaisLib.Lib.SizeT
import DumaisLib.Utils.MPSCRingBuffer
import DumaisLib.WebServer.HTTPFramingStrategy

/-!
# A TCP client of the web server

The receiving side hands each chunk to the framing strategy as often as needed
and reports the framed messages; the sending side queues buffers.
-/

namespace DumaisLib.WebServer

open DumaisLib.Utils Machine

def MAX_INTERNAL_TX_COUNT : Nat := 4000

instance : NeZero MAX_INTERNAL_TX_COUNT := ⟨by decide⟩

structure SendBuffer where
  buffer : Text
  size : Nat
  currentIndex : Nat
  mustDeleteBuffer : Bool
  deriving DecidableEq

/-- What the observer of a client is told. -/
inductive TcpClientEvent where
  | framingError (error : Int)
  | clientMessage (message : Text)
  deriving DecidableEq

/-- `log` records the calls of the observer. -/
structure TcpClient where
  mFailed : Bool
  currentMessage : FullMessageInfo
  txList : MPSCRingBuffer SendBuffer MAX_INTERNAL_TX_COUNT
  currentSendBuffer : Option SendBuffer
  log : List TcpClientEvent

namespace TcpClient

/-- The constructor; `fresh` is what the new queue happens to contain. -/
def create (fresh : Fin MAX_INTERNAL_TX_COUNT → SendBuffer) : TcpClient where
  mFailed := false
  currentMessage := .empty
  txList := .create fresh
  currentSendBuffer := none
  log := []

/-- The variables of the loop in `onReceive`. -/
structure Receiving where
  client : TcpClient
  data : Text

/--
One turn of the loop; it faults when the chunk is left.  `after` is the memory
behind the message when the given data is still to be processed.
-/
def receiveTurn (after : Text → Text) (state : Receiving) :
    Option (Turn Receiving (Bool × TcpClient)) :=
  if state.data = [] then
    some (.stop (true, state.client))
  else
    let client := state.client
    let (ret, info) :=
      HTTPFramingStrategy.processData (after state.data) state.data client.currentMessage
    if ret < 0 then
      some (.stop (false,
        { client with
          mFailed := true
          currentMessage := info
          log := client.log ++ [.framingError ret] }))
    else if ret > state.data.length then
      none
    else
      let data := state.data.drop ret.toNat
      if info.complete then
        some (.again
          { client :=
              { client with
                currentMessage := .empty
                log := client.log ++ [.clientMessage info.held] }
            data := data })
      else
        some (.again { client := { client with currentMessage := info }, data := data })

def onReceive (after : Text → Text) (fuel : Nat) (client : TcpClient) (data : Text) :
    Outcome (Bool × TcpClient) :=
  if client.mFailed then .finished (false, client)
  else loop (receiveTurn after) fuel { client := client, data := data }

/-! ## Sending -/

/-- A `put` that fails goes unnoticed. -/
def sendData (client : TcpClient) (buffer : Text) (copyInNewBuffer : Bool) : TcpClient :=
  let sendBuffer : SendBuffer :=
    { buffer := buffer
      size := buffer.length
      currentIndex := 0
      mustDeleteBuffer := copyInNewBuffer }
  { client with txList := (client.txList.put sendBuffer).2 }

/-- The bytes on offer with their number, and the client after the call. -/
def getTxData (client : TcpClient) : (Text × Nat) × TcpClient :=
  let client :=
    if client.currentSendBuffer = none then
      match client.txList.get with
      | (some sendBuffer, txList) =>
          { client with currentSendBuffer := some sendBuffer, txList := txList }
      | (none, txList) => { client with txList := txList }
    else client
  match client.currentSendBuffer with
  | none => (([], 0), client)
  | some current =>
      ((current.buffer.drop current.currentIndex,
        sizeSub current.size current.currentIndex), client)

def onDataSent (client : TcpClient) (size : Nat) : TcpClient :=
  match client.currentSendBuffer with
  | none => client
  | some current =>
      let currentIndex := sizeAdd current.currentIndex size
      if currentIndex = current.size then
        { client with currentSendBuffer := none }
      else
        { client with currentSendBuffer := some { current with currentIndex := currentIndex } }

end TcpClient

end DumaisLib.WebServer
