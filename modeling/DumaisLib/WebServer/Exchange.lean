import DumaisLib.WebServer.DigestHandshake
import DumaisLib.WebServer.Pipelining
import DumaisLib.WebServer.ResponseChunks

/-!
# Requests and their responses

On every connection one request comes, in pieces, and what the server answers
goes out in pieces.  The server has a synchronous listener, and may ask for
authorization.
-/

namespace DumaisLib.WebServer

open Machine StreamReader WebServer

/-- The response that an effect sends. -/
def Effect.answer? : Effect → Option HTTPResponse
  | .sendResponse response _ => some response
  | _ => none

/--
What of the request has not arrived, the client that the server has for the
connection, the responses queued on it, and what its peer has received.
-/
structure Exchange.Connection where
  arriving : Text
  client : TcpClient
  answers : List HTTPResponse
  received : Text

structure Exchange where
  server : WebServer
  connections : Nat → Exchange.Connection

/-- Some more of a request arrives, or a socket takes some of what is on offer, perhaps none. -/
inductive Exchange.Event where
  | receive (i count : Nat) (outside : Surroundings)
  | send (i count : Nat)

namespace Exchange.Connection

/-- The client queues the responses. -/
def answer (responses : List HTTPResponse) (connection : Connection) : Connection :=
  { connection with
    client := responses.foldl (fun client response => sendResponse (some response) client)
      connection.client
    answers := connection.answers ++ responses }

/-- One turn of `processSend`: the socket takes `count` bytes, or none with `EAGAIN`. -/
def send (count : Nat) (connection : Connection) : Option Connection :=
  let offer := connection.client.getTxData
  if offer.1.2 < count then none
  else some
    { connection with
      client := if count = 0 then offer.2 else offer.2.onDataSent count
      received := connection.received ++ offer.1.1.take count }

end Exchange.Connection

namespace Exchange

/-- A read of `processReceive` returns from one byte to the size of its buffer. -/
def READ_SIZE : Nat := 1024

/-- What the server does with what the client has reported, one event after the other. -/
def react (computemd5 : Text → Text) (outside : Surroundings) (client : TcpClientPointer) :
    List TcpClientEvent → WebServer → List Effect × WebServer
  | [], server => ([], server)
  | .framingError error :: events, server =>
      let (effects, server) := react computemd5 outside client events server
      (onFramingError client error ++ effects, server)
  | .clientMessage message :: events, server =>
      let (effects, server) := server.onClientMessage computemd5 outside client message
      let (later, server) := react computemd5 outside client events server
      (effects ++ later, server)

/-- The pointer to the client of a connection. -/
def pointer (i : Nat) : TcpClientPointer :=
  ⟨i, i⟩

def setConnection (exchange : Exchange) (i : Nat) (connection : Connection) : Exchange :=
  { exchange with connections := Function.update exchange.connections i connection }

@[simp] theorem connections_setConnection (exchange : Exchange) (i : Nat) (connection : Connection) :
    (exchange.setConnection i connection).connections i = connection :=
  Function.update_self _ _ _

theorem connections_setConnection_of_ne {i j : Nat} (hne : j ≠ i) (exchange : Exchange)
    (connection : Connection) :
    (exchange.setConnection i connection).connections j = exchange.connections j :=
  Function.update_of_ne hne _ _

def step (computemd5 : Text → Text) (exchange : Exchange) : Event → Option Exchange
  | .receive i count outside =>
      let connection := exchange.connections i
      let chunk := connection.arriving.take count
      if count < 1 ∨ READ_SIZE < count ∨ chunk = [] then none
      else
        (connection.client.onReceive TcpClient.nulAfter (count + 1) chunk).result?.map
          fun result =>
            let reported := result.2.log.drop connection.client.log.length
            let reaction :=
              react computemd5 outside (pointer i) reported exchange.server
            setConnection { exchange with server := reaction.2 } i
              ({ connection with
                arriving := connection.arriving.drop count
                client := result.2 }.answer (reaction.1.filterMap Effect.answer?))
  | .send i count =>
      ((exchange.connections i).send count).map fun connection => exchange.setConnection i connection

/-- The requests are about to come on new connections. -/
def start (server : WebServer) (fresh : Fin MAX_INTERNAL_TX_COUNT → SendBuffer)
    (requests : Nat → Request) : Exchange where
  server := server
  connections i := ⟨(requests i).bytes, .create fresh, [], []⟩

/-! ## Listeners and servers -/

/-- A new response whose fields have no line ends, and room for a cookie in the queue. -/
structure Presentable (response : HTTPResponse) : Prop where
  isNew : response.mHeaderBuilt = false
  unbroken : response.Unbroken
  fits : response.message.length + 64 ≤ BUFSIZE * (MAX_INTERNAL_TX_COUNT - 2)

/-- The listener answers every request. -/
def Answering (outside : Surroundings) : Prop :=
  ∀ request, ∃ response ∈ outside.answer request, Presentable response

/-- The listener is synchronous, and the nonces of the sessions are those of challenges. -/
structure Serving (server : WebServer) : Prop where
  listens : server.hasListener = true
  sync : server.mAsync = false
  isNonce : ∀ nonce ∈ server.mSessions, Challenging.IsNonce nonce ∧ nonce.length = 20

/-- Whatever arrives does so in the given surroundings. -/
def Allowed (given : Surroundings → Prop) (_ : Exchange) : Event → Prop
  | .receive _ _ outside => given outside
  | .send _ _ => True

/--
The response is one that the server of the run has given to the request: it was
sent by a step on the way, to the bytes of the request.
-/
def Answers (computemd5 : Text → Text) (given : Surroundings → Prop) (begun exchange : Exchange)
    (request : Request) (i : Nat) (response : HTTPResponse) : Prop :=
  ∃ before after count outside,
    Reaches (step computemd5) (Allowed given) begun before ∧ given outside ∧
    step computemd5 before (.receive i count outside) = some after ∧
    Reaches (step computemd5) (Allowed given) after exchange ∧
    .sendResponse response (pointer i) ∈
      (before.server.onClientMessage computemd5 outside (pointer i) request.bytes).1

end Exchange

end DumaisLib.WebServer
