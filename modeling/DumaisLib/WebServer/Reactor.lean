import DumaisLib.Lib.Wakeups
import DumaisLib.WebServer.TcpServer
import DumaisLib.WebServer.WebServer
import Mathlib.Data.List.AList
import Mathlib.Data.List.Sort

/-!
# The reactor of the TCP server

The reactor thread waits until epoll reports sockets, and then serves each of
them until it would block.  As the sockets are watched edge triggered, something
that is passed over is not reported again.  Other threads queue what is to be
sent, and then write to the event descriptor.
-/

namespace DumaisLib.WebServer

open DumaisLib.Utils Machine SendPass Wakeups

/-- A call of `sendData` on the client of the socket. -/
structure Call where
  socket : Int
  buffer : Text
  copyInNewBuffer : Bool

/-- A client with what has arrived on its socket and has not been read. -/
structure Connection where
  client : TcpClient
  inbound : Text
  finished : Bool

/-- What epoll watches. -/
inductive Source where
  | listenSocket
  | controlEventFd
  | client (socket : Int)
  deriving DecidableEq

structure EpollEvent where
  source : Source
  epollin : Bool
  deriving DecidableEq

/-- Where the reactor thread is; the events are those of `epoll_wait` that are left. -/
inductive Phase where
  | loop
  | wait
  | handle (events : List EpollEvent)
  | accept (events : List EpollEvent)
  | receive (socket : Int) (events : List EpollEvent)
  | asyncQueueEvent
  | send (sockets : List Int)
  | exited

/--
`ready` are the sources that something has happened to since they were last
reported, and `writes` counts the threads that have still to write to the event
descriptor.
-/
structure Reactor (ρ : Type) where
  maxConnections : Nat
  stopping : Bool
  clientList : AList fun _ : Int => Connection
  backlog : Nat
  mAsyncResponses : MPSCRingBuffer ρ ASYNC_RESPONSES
  ready : List Source
  writes : Nat
  phase : Phase

namespace Reactor

variable {ρ : Type}

inductive Act (ρ : Type) where
  /-- The other sides. -/
  | connect
  | arrive (socket : Int) (data : Text)
  | finish (socket : Int)
  /-- Other threads. -/
  | sendData (call : Call)
  | queueResponse (response : ρ)
  | stop
  | write
  /-- The reactor thread. -/
  | loop
  | epollWait
  | event
  | accept (socket : Int) (fresh : Fin MAX_INTERNAL_TX_COUNT → SendBuffer) (inbound : Text)
      (finished : Bool) (calls : List Call)
  | acceptStops (error : Bool)
  | read (count : Nat) (calls : List Call)
  | readStops
  | readFails (reset : Bool)
  | asyncTurn
  | send (reply : Reply)
  | sent

/-- The source is ready, once. -/
def notify (reactor : Reactor ρ) (source : Source) : Reactor ρ :=
  { reactor with ready := reactor.ready.insert source }

/-- The client is put back into the table. -/
def update (reactor : Reactor ρ) (socket : Int) (connection : Connection) : Reactor ρ :=
  { reactor with clientList := reactor.clientList.insert socket connection }

/-- A call queues a buffer, as far as the client is still there. -/
def put (reactor : Reactor ρ) (call : Call) : Reactor ρ :=
  match reactor.clientList.lookup call.socket with
  | none => reactor
  | some connection =>
      reactor.update call.socket { connection with
        client := connection.client.sendData call.buffer call.copyInNewBuffer }

/-- The calls that the reactor thread itself makes. -/
def perform (reactor : Reactor ρ) (calls : List Call) : Reactor ρ :=
  calls.foldl (fun reactor call => (reactor.put call).notify .controlEventFd) reactor

/-- `onDisconnected`, and the client is deleted, which closes its socket. -/
def remove (reactor : Reactor ρ) (socket : Int) : Reactor ρ :=
  { reactor with
    clientList := reactor.clientList.erase socket
    ready := reactor.ready.erase (.client socket) }

/-- Whether there is something to read is seen when the event is reported. -/
def report (reactor : Reactor ρ) (source : Source) : EpollEvent where
  source := source
  epollin := match source with
    | .client socket => match reactor.clientList.lookup socket with
      | some connection => connection.inbound ≠ [] || connection.finished
      | none => false
    | _ => true

/-- The size of the buffer of `processReceive`. -/
def RECEIVE_SIZE : Nat := 1024

/-- The events of one wait. -/
def epollWait (reactor : Reactor ρ) : Reactor ρ :=
  { reactor with
    ready := reactor.ready.drop (reactor.maxConnections + 2)
    phase := .handle ((reactor.ready.take (reactor.maxConnections + 2)).map reactor.report) }

/-- The next event is looked at. -/
def handle (reactor : Reactor ρ) : List EpollEvent → Reactor ρ
  | [] => { reactor with phase := .asyncQueueEvent }
  | event :: events =>
      match event.source with
      | .listenSocket =>
          if reactor.stopping then { reactor with phase := .handle events }
          else { reactor with phase := .accept events }
      | .controlEventFd => { reactor with phase := .handle events }
      | .client socket =>
          if event.epollin ∧ socket ∈ reactor.clientList then
            { reactor with phase := .receive socket events }
          else { reactor with phase := .handle events }

/-- At most 1024 bytes are read and received, during which the listener may send. -/
def read (after : Text → Text) (reactor : Reactor ρ) (socket : Int) (count : Nat)
    (calls : List Call) : Option (Reactor ρ) :=
  match reactor.clientList.lookup socket with
  | none => none
  | some connection =>
      if 1 ≤ count ∧ count ≤ RECEIVE_SIZE ∧ count ≤ connection.inbound.length then
        match connection.client.onReceive after (count + 1) (connection.inbound.take count) with
        | .finished (_, client) =>
            some ((reactor.update socket
              { connection with
                client := client
                inbound := connection.inbound.drop count }).perform calls)
        | _ => none
      else none

/-- `read` has nothing to return, or 0 at the end. -/
def readStops (reactor : Reactor ρ) (socket : Int) (events : List EpollEvent) :
    Option (Reactor ρ) :=
  match reactor.clientList.lookup socket with
  | none => none
  | some connection =>
      if connection.inbound ≠ [] then none
      else if connection.finished then
        some { reactor.remove socket with phase := .handle events }
      else some { reactor with phase := .handle events }

/--
The socket takes some bytes, reports that it is full, or fails.  Where it returns
0 an iterator is used after it was erased, and no step is left.
-/
def send (reactor : Reactor ρ) (socket : Int) (reply : Reply) : Option (Reactor ρ) :=
  match reactor.clientList.lookup socket with
  | none => none
  | some connection =>
      let offered := connection.client.getTxData
      match reply with
      | .sent count =>
          if 1 ≤ count ∧ count ≤ offered.1.2 then
            some (reactor.update socket { connection with client := offered.2.onDataSent count })
          else none
      | .again =>
          if offered.1.2 = 0 then none
          else some (reactor.update socket { connection with client := offered.2 })
      | .error =>
          if offered.1.2 = 0 then none
          else some { reactor.update socket { connection with client := offered.2 } with
            stopping := true }
      | .closed => none

/-- The client offers nothing; one that has failed is deleted with its iterator, which faults. -/
def sent (reactor : Reactor ρ) (socket : Int) (sockets : List Int) : Option (Reactor ρ) :=
  match reactor.clientList.lookup socket with
  | none => none
  | some connection =>
      let offered := connection.client.getTxData
      if offered.1.2 = 0 ∧ offered.2.mFailed = false then
        some { reactor.update socket { connection with client := offered.2 } with
          phase := .send sockets }
      else none

variable (calls : ρ → List Call) (after : Text → Text)

/-- One turn of the handler of the asynchronous queue, or the send pass begins. -/
def asyncTurn (reactor : Reactor ρ) : Reactor ρ :=
  let (response, ring) := reactor.mAsyncResponses.get
  let reactor := { reactor with mAsyncResponses := ring }
  match response with
  | some response => reactor.perform (calls response)
  | none =>
      if reactor.stopping then { reactor with phase := .loop }
      else { reactor with phase := .send (reactor.clientList.keys.insertionSort (· ≤ ·)) }

/-- A step is disabled where the thread is elsewhere, and where the code faults. -/
def step (reactor : Reactor ρ) : Act ρ → Option (Reactor ρ)
  | .connect => some ({ reactor with backlog := reactor.backlog + 1 }.notify .listenSocket)
  | .arrive socket data =>
      (reactor.clientList.lookup socket).map fun connection =>
        (reactor.update socket { connection with
          inbound := connection.inbound ++ data }).notify (.client socket)
  | .finish socket =>
      (reactor.clientList.lookup socket).map fun connection =>
        (reactor.update socket { connection with finished := true }).notify (.client socket)
  | .sendData call => some { reactor.put call with writes := reactor.writes + 1 }
  | .queueResponse response =>
      let (accepted, ring) := reactor.mAsyncResponses.put response
      some { reactor with
        mAsyncResponses := ring
        writes := if accepted then reactor.writes + 1 else reactor.writes }
  | .stop => some { reactor with stopping := true, writes := reactor.writes + 1 }
  | .write =>
      if reactor.writes = 0 then none
      else some ({ reactor with writes := reactor.writes - 1 }.notify .controlEventFd)
  | .loop =>
      match reactor.phase with
      | .loop => some { reactor with phase := if reactor.stopping then .exited else .wait }
      | _ => none
  | .epollWait =>
      match reactor.phase with
      | .wait => if reactor.ready = [] then none else some reactor.epollWait
      | _ => none
  | .event =>
      match reactor.phase with
      | .handle events => some (reactor.handle events)
      | _ => none
  | .accept socket fresh inbound finished calls =>
      match reactor.phase with
      | .accept _ =>
          if 0 < reactor.backlog ∧ socket ∉ reactor.clientList then
            some (({ reactor with backlog := reactor.backlog - 1 }.update socket
              ⟨.create fresh, inbound, finished⟩).notify (.client socket) |>.perform calls)
          else none
      | _ => none
  | .acceptStops error =>
      match reactor.phase with
      | .accept events =>
          if error then some { reactor with stopping := true, phase := .handle events }
          else if reactor.backlog = 0 then some { reactor with phase := .handle events }
          else none
      | _ => none
  | .read count calls =>
      match reactor.phase with
      | .receive socket events =>
          if reactor.stopping then some { reactor with phase := .handle events }
          else reactor.read after socket count calls
      | _ => none
  | .readStops =>
      match reactor.phase with
      | .receive socket events =>
          if reactor.stopping then some { reactor with phase := .handle events }
          else reactor.readStops socket events
      | _ => none
  | .readFails reset =>
      match reactor.phase with
      | .receive socket events =>
          if reset then some { reactor.remove socket with phase := .handle events }
          else some { reactor with stopping := true, phase := .handle events }
      | _ => none
  | .asyncTurn =>
      match reactor.phase with
      | .asyncQueueEvent => some (reactor.asyncTurn calls)
      | _ => none
  | .send reply =>
      match reactor.phase with
      | .send (socket :: _) => reactor.send socket reply
      | _ => none
  | .sent =>
      match reactor.phase with
      | .send [] => some { reactor with phase := .loop }
      | .send (socket :: sockets) => reactor.sent socket sockets
      | _ => none

/-- The sockets have been registered, and connections may be waiting already. -/
def start (maxConnections backlog : Nat) (fresh : Fin ASYNC_RESPONSES → ρ) : Reactor ρ where
  maxConnections := maxConnections
  stopping := false
  clientList := ∅
  backlog := backlog
  mAsyncResponses := .create fresh
  ready := [.listenSocket, .controlEventFd]
  writes := 0
  phase := .loop

end Reactor

end DumaisLib.WebServer
