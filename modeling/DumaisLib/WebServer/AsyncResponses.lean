import DumaisLib.Utils.MPSCRingBufferFifo
import DumaisLib.WebServer.WebServer

/-!
# Answers that outlive their connection

An asynchronous answer finds its client by the address that the callback has
captured.  When the client has gone and a new one was created at the same
address, the answer goes to the new one.
-/

namespace DumaisLib.WebServer

open DumaisLib.Utils Machine WebServer

/-- A response, the client that it was produced for, and the connection it was sent on. -/
structure SentResponse where
  response : HTTPResponse
  client : TcpClientPointer
  sentOn : Option Nat
  deriving DecidableEq

/--
The server with the clients created so far, the callbacks that the listener
holds, whether the server thread is in `processAsyncQueue`, and what was sent.
-/
structure AsyncSystem where
  server : WebServer
  created : Nat
  callBacks : List HTTPRequestCallBack
  draining : Bool
  sent : List SentResponse

inductive AsyncEvent where
  | accept (address : Nat)
  | message (client : TcpClientPointer) (buffer : Text) (outside : Surroundings)
  | framingError (client : TcpClientPointer) (error : Int)
  | disconnect (client : TcpClientPointer)
  | callBack (index : Nat) (resp : Option HTTPResponse)
  | processAsyncQueue
  | asyncQueueTurn

namespace AsyncSystem

def start (server : WebServer) : AsyncSystem where
  server := server
  created := 0
  callBacks := []
  draining := false
  sent := []

/-- A response is sent on the object that lives at the address, if any. -/
def perform (system : AsyncSystem) : Effect → AsyncSystem
  | .processHTTPRequest _ => system
  | .processHTTPRequestAsync _ callBack =>
      { system with callBacks := system.callBacks ++ [callBack] }
  | .sendResponse response client =>
      let live := system.server.clients.lookup client.address
      { system with
        sent := system.sent ++ [⟨response, client, live.map TcpClientPointer.connection⟩] }

/-- The client is connected. -/
def Connected (system : AsyncSystem) (client : TcpClientPointer) : Prop :=
  system.server.clients.lookup client.address = some client

instance (system : AsyncSystem) (client : TcpClientPointer) :
    Decidable (system.Connected client) :=
  inferInstanceAs (Decidable (_ = _))

/--
One event; the events of the server thread other than the turns of
`processAsyncQueue` wait for the end of a pass, callbacks come at any time.
-/
def step (computemd5 : Text → Text) (system : AsyncSystem) : AsyncEvent → Option AsyncSystem
  | .accept address =>
      if system.draining = false ∧ address ∉ system.server.clients then
        some
          { system with
            server := system.server.onClientConnected ⟨address, system.created⟩
            created := system.created + 1 }
      else none
  | .message client buffer outside =>
      if system.draining = false ∧ system.Connected client then
        let (effects, server) := system.server.onClientMessage computemd5 outside client buffer
        some (effects.foldl perform { system with server := server })
      else none
  | .framingError client error =>
      if system.draining = false ∧ system.Connected client then
        some ((onFramingError client error).foldl perform system)
      else none
  | .disconnect client =>
      if system.draining = false ∧ system.Connected client then
        some { system with server := system.server.onClientDisconnected client }
      else none
  | .callBack index resp =>
      match system.callBacks[index]? with
      | none => none
      | some callBack =>
          some
            { system with
              server := (system.server.callBack callBack resp).2
              callBacks := system.callBacks.eraseIdx index }
  | .processAsyncQueue =>
      if system.draining then none else some { system with draining := true }
  | .asyncQueueTurn =>
      if system.draining then
        match system.server.asyncQueueTurn with
        | (none, server) => some { system with server := server, draining := false }
        | (some effects, server) => some (effects.foldl perform { system with server := server })
      else none

/-- Each response was sent on the connection whose request produced it. -/
def OwnConnection (system : AsyncSystem) : Prop :=
  ∀ sent ∈ system.sent, sent.sentOn = some sent.client.connection

/-- No client is created at the address of one for which an answer is outstanding. -/
def AddressFree (system : AsyncSystem) (event : AsyncEvent) : Prop :=
  ∀ address, event = .accept address →
    (∀ callBack ∈ system.callBacks, callBack.client.address ≠ address) ∧
      ∀ answer ∈ system.server.mAsyncResponses.held, answer.client.address ≠ address

/-! ## The invariant -/

/-- Nothing but the client itself lives at its address. -/
def Current (system : AsyncSystem) (client : TcpClientPointer) : Prop :=
  ∀ live, system.server.clients.lookup client.address = some live → live = client

structure Consistent (system : AsyncSystem) : Prop where
  wellFormed : system.server.mAsyncResponses.WellFormed
  callBacks : ∀ callBack ∈ system.callBacks, system.Current callBack.client
  answers : ∀ answer ∈ system.server.mAsyncResponses.held, system.Current answer.client
  ownConnection : system.OwnConnection

variable {system : AsyncSystem}

theorem Connected.current {client : TcpClientPointer} (hconnected : system.Connected client) :
    system.Current client := by
  intro live hlive
  exact Option.some.inj (hlive.symm.trans hconnected)

/-- Effects on connected clients keep the invariant. -/
theorem Consistent.perform {effects : List Effect} (consistent : system.Consistent)
    (hclients : ∀ effect ∈ effects, ∀ client, effect.client? = some client →
      system.Connected client) :
    (effects.foldl AsyncSystem.perform system).Consistent := by
  induction effects generalizing system with
  | nil => exact consistent
  | cons effect effects ih =>
      have hrest : ∀ later ∈ effects, ∀ client, later.client? = some client →
          (system.perform effect).Connected client := by
        intro later hlater client hclient
        have hconnected := hclients later (List.mem_cons_of_mem _ hlater) client hclient
        cases effect <;> exact hconnected
      refine ih ?_ hrest
      have hfirst := hclients effect List.mem_cons_self
      cases effect with
      | processHTTPRequest request => exact consistent
      | processHTTPRequestAsync request callBack =>
          refine ⟨consistent.wellFormed, fun other hother => ?_, consistent.answers,
            consistent.ownConnection⟩
          rcases List.mem_append.mp hother with hold | hnew
          · exact consistent.callBacks other hold
          · obtain rfl := List.mem_singleton.mp hnew
            exact (hfirst _ rfl).current
      | sendResponse response client =>
          refine ⟨consistent.wellFormed, consistent.callBacks, consistent.answers,
            fun sent hsent => ?_⟩
          rcases List.mem_append.mp hsent with hold | hnew
          · exact consistent.ownConnection sent hold
          · obtain rfl := List.mem_singleton.mp hnew
            have hlive : system.server.clients.lookup client.address = some client :=
              hfirst client rfl
            change (system.server.clients.lookup client.address).map _ = some client.connection
            rw [hlive]
            rfl

/-- The listener's answer is put into the queue, or lost with all others. -/
theorem Consistent.callBack (consistent : system.Consistent) {callBack : HTTPRequestCallBack}
    {index : Nat} (hindex : system.callBacks[index]? = some callBack)
    (resp : Option HTTPResponse) :
    Consistent
      { system with
        server := (system.server.callBack callBack resp).2
        callBacks := system.callBacks.eraseIdx index } := by
  have hcurrent := consistent.callBacks callBack (List.mem_of_getElem? hindex)
  obtain ⟨hwf, hheld⟩ := MPSCRingBuffer.put_held consistent.wellFormed
    ⟨callBack.client, resp.map (withCookie callBack.cookie)⟩
  refine ⟨hwf, fun other hother => ?_, fun answer hanswer => ?_, consistent.ownConnection⟩
  · exact consistent.callBacks other (List.mem_of_mem_eraseIdx hother)
  · rcases hheld answer hanswer with hold | rfl
    · exact consistent.answers answer hold
    · exact hcurrent

/-- The next answer of the queue goes to its client or to nobody. -/
theorem Consistent.asyncQueueTurn (consistent : system.Consistent) {draining : Bool}
    {answer : Option (List Effect)} {server : WebServer}
    (hturn : system.server.asyncQueueTurn = (answer, server)) :
    Consistent ((answer.getD []).foldl AsyncSystem.perform
      { system with server := server, draining := draining }) := by
  obtain ⟨hwf, htaken, hheld⟩ := MPSCRingBuffer.get_held consistent.wellFormed
  unfold WebServer.asyncQueueTurn at hturn
  dsimp only at hturn
  have hnext (draining : Bool) : Consistent
      { system with
        server := { system.server with mAsyncResponses := system.server.mAsyncResponses.get.2 }
        draining := draining } :=
    ⟨hwf, consistent.callBacks, fun answer hanswer => consistent.answers answer (hheld _ hanswer),
      consistent.ownConnection⟩
  split at hturn
  · obtain ⟨rfl, rfl⟩ := Prod.mk.inj hturn
    exact hnext draining
  · rename_i taken htake
    split at hturn
    · rename_i hlive
      obtain ⟨rfl, rfl⟩ := Prod.mk.inj hturn
      apply (hnext draining).perform
      intro effect heffect client hclient
      obtain ⟨response, _, rfl⟩ := List.mem_map.mp heffect
      obtain rfl := Option.some.inj hclient
      obtain ⟨live, hlookup⟩ := Option.isSome_iff_exists.mp (AList.lookup_isSome.mpr hlive)
      have hsame := consistent.answers taken (htaken taken htake) live hlookup
      rw [hsame] at hlookup
      exact hlookup
    · obtain ⟨rfl, rfl⟩ := Prod.mk.inj hturn
      exact hnext draining

/-- A new client elsewhere leaves the others current. -/
theorem Current.accept {client : TcpClientPointer} (hcurrent : system.Current client)
    {address : Nat} (hne : client.address ≠ address) {created : Nat} :
    Current
      { system with
        server := system.server.onClientConnected ⟨address, system.created⟩
        created := created } client := by
  intro live hlive
  apply hcurrent live
  rw [← hlive]
  exact (AList.lookup_insert_ne hne).symm

theorem Current.disconnect {client : TcpClientPointer} (hcurrent : system.Current client)
    (gone : TcpClientPointer) :
    Current { system with server := system.server.onClientDisconnected gone } client := by
  intro live hlive
  by_cases haddress : client.address = gone.address
  · have hnone : (system.server.clients.erase gone.address).lookup client.address = none := by
      rw [haddress]
      exact AList.lookup_erase _ _
    cases hlive.symm.trans hnone
  · apply hcurrent live
    rw [← hlive]
    exact (AList.lookup_erase_ne haddress).symm

/-- A server with the same connections and the same queue keeps the system consistent. -/
theorem Consistent.withServer (consistent : system.Consistent) {server : WebServer}
    (hclients : server.clients = system.server.clients)
    (hring : server.mAsyncResponses = system.server.mAsyncResponses) :
    Consistent { system with server := server } := by
  have hsame (other : TcpClientPointer) (hcurrent : system.Current other) :
      Current { system with server := server } other := by
    intro live hlive
    rw [hclients] at hlive
    exact hcurrent live hlive
  refine ⟨?_, fun other hother => hsame _ (consistent.callBacks other hother),
    fun answer hanswer => ?_, consistent.ownConnection⟩
  · rw [hring]
    exact consistent.wellFormed
  · rw [hring] at hanswer
    exact hsame _ (consistent.answers answer hanswer)

/-- One event, when it reuses no address for which an answer is outstanding. -/
theorem Consistent.step {computemd5 : Text → Text} {event : AsyncEvent} {next : AsyncSystem}
    (consistent : system.Consistent) (hfree : system.AddressFree event)
    (hstep : system.step computemd5 event = some next) : next.Consistent := by
  cases event with
  | accept address =>
      obtain ⟨hcallBacks, hanswers⟩ := hfree address rfl
      rw [AsyncSystem.step] at hstep
      split at hstep
      · obtain rfl := Option.some.inj hstep
        exact ⟨consistent.wellFormed,
          fun other hother => (consistent.callBacks other hother).accept (hcallBacks other hother),
          fun answer hanswer =>
            (consistent.answers answer hanswer).accept (hanswers answer hanswer),
          consistent.ownConnection⟩
      · cases hstep
  | message client buffer outside =>
      obtain ⟨hclients, hring, heffects⟩ :=
        system.server.onClientMessage_frame computemd5 outside client buffer
      rw [AsyncSystem.step] at hstep
      generalize system.server.onClientMessage computemd5 outside client buffer = result at *
      obtain ⟨effects, server⟩ := result
      dsimp only at hclients hring heffects
      split at hstep
      · rename_i hready
        obtain rfl := Option.some.inj hstep
        refine (consistent.withServer hclients hring).perform
          fun effect heffect other hother => ?_
        obtain rfl := heffects effect heffect other hother
        change server.clients.lookup other.address = some other
        rw [hclients]
        exact hready.2
      · cases hstep
  | framingError client error =>
      rw [AsyncSystem.step] at hstep
      split at hstep
      · rename_i hready
        obtain rfl := Option.some.inj hstep
        apply consistent.perform
        intro effect heffect other hother
        obtain rfl := List.mem_singleton.mp heffect
        obtain rfl := Option.some.inj hother
        exact hready.2
      · cases hstep
  | disconnect client =>
      rw [AsyncSystem.step] at hstep
      split at hstep
      · obtain rfl := Option.some.inj hstep
        exact ⟨consistent.wellFormed,
          fun other hother => (consistent.callBacks other hother).disconnect client,
          fun answer hanswer => (consistent.answers answer hanswer).disconnect client,
          consistent.ownConnection⟩
      · cases hstep
  | callBack index resp =>
      rw [AsyncSystem.step] at hstep
      split at hstep
      · cases hstep
      · rename_i callBack hindex
        obtain rfl := Option.some.inj hstep
        exact consistent.callBack hindex resp
  | processAsyncQueue =>
      rw [AsyncSystem.step] at hstep
      split at hstep
      · cases hstep
      · obtain rfl := Option.some.inj hstep
        exact ⟨consistent.wellFormed, consistent.callBacks, consistent.answers,
          consistent.ownConnection⟩
  | asyncQueueTurn =>
      rw [AsyncSystem.step] at hstep
      split at hstep
      · split at hstep
        · rename_i server hturn
          obtain rfl := Option.some.inj hstep
          exact consistent.asyncQueueTurn hturn
        · rename_i effects server hturn
          obtain rfl := Option.some.inj hstep
          exact consistent.asyncQueueTurn hturn
      · cases hstep

theorem consistent_start (fresh : Fin ASYNC_RESPONSES → AsyncResponse) {server : WebServer}
    (hring : server.mAsyncResponses = .create fresh) : (start server).Consistent := by
  refine ⟨?_, nofun, fun answer hanswer => ?_, nofun⟩
  · change MPSCRingBuffer.WellFormed server.mAsyncResponses
    rw [hring]
    exact MPSCRingBuffer.wellFormed_create fresh
  · change answer ∈ server.mAsyncResponses.held at hanswer
    rw [hring, (MPSCRingBuffer.Represents.create fresh).held_eq] at hanswer
    cases hanswer

/--
In every run in which no client is created at an address for which an answer is
outstanding, every response is sent on the connection whose request produced it.
-/
theorem responses_stay_on_connection (computemd5 : Text → Text)
    (fresh : Fin ASYNC_RESPONSES → AsyncResponse) {server : WebServer}
    (hring : server.mAsyncResponses = .create fresh) {system : AsyncSystem}
    (hreaches : Reaches (step computemd5) AddressFree (start server) system) :
    system.OwnConnection := by
  have hconsistent : system.Consistent :=
    hreaches.invariant (consistent_start fresh hring) fun _ _ _ consistent hfree hstep =>
      consistent.step hfree hstep
  exact hconsistent.ownConnection

/-! ## Two runs -/

/-- A new asynchronous server with a listener. -/
def exampleServer : WebServer :=
  (WebServer.create (fun _ => ⟨⟨0, 0⟩, none⟩) true).setListener

def exampleAnswer : HTTPResponse :=
  .buildBufferedResponse .OK "hi".toList "text/plain".toList []

/-- A request, its answer, and the pass that sends it. -/
def exampleExchange : List AsyncEvent :=
  [.message ⟨1, 0⟩ "GET / HTTP/1.1\r\n\r\n".toList ⟨0, fun _ => false, fun _ => 0, 0, fun _ => none⟩,
    .callBack 0 (some exampleAnswer), .processAsyncQueue, .asyncQueueTurn]

/-- The same with the client gone, and another one at its address, before the answer. -/
def exampleReuse : List AsyncEvent :=
  [.accept 1,
    .message ⟨1, 0⟩ "GET / HTTP/1.1\r\n\r\n".toList ⟨0, fun _ => false, fun _ => 0, 0, fun _ => none⟩,
    .disconnect ⟨1, 0⟩, .accept 1, .callBack 0 (some exampleAnswer), .processAsyncQueue,
    .asyncQueueTurn]

theorem responses_stay_on_connection_exchange :
    ∃ system : AsyncSystem, system.sent = [⟨exampleAnswer, ⟨1, 0⟩, some 0⟩] ∧ system.OwnConnection := by
  have hsent : (runAll (step id) (start exampleServer) (.accept 1 :: exampleExchange)).map
      AsyncSystem.sent = some [⟨exampleAnswer, ⟨1, 0⟩, some 0⟩] := by
    decide +kernel
  obtain ⟨system, hsystem, hanswer⟩ := Option.map_eq_some_iff.mp hsent
  obtain ⟨next, hnext, hrest⟩ := Option.bind_eq_some_iff.mp hsystem
  have hfirst : Reaches (step id) AddressFree (start exampleServer) next :=
    .step .start (fun _ _ => ⟨nofun, fun answer hanswer => by
      rw [show (start exampleServer).server.mAsyncResponses.held = [] from
        (MPSCRingBuffer.Represents.create _).held_eq] at hanswer
      exact nomatch hanswer⟩) hnext
  have hothers : ∀ state, ∀ event ∈ exampleExchange, AddressFree state event := by
    simp [AddressFree, exampleExchange]
  exact ⟨system, hanswer,
    responses_stay_on_connection id _ rfl (hfirst.runAll hothers hrest)⟩

/-- The answer for the first connection is sent on the second one. -/
theorem answer_reaches_other_connection :
    ∃ system : AsyncSystem, Reaches (step id) (fun _ _ => True) (start exampleServer) system ∧
      system.sent = [⟨exampleAnswer, ⟨1, 0⟩, some 1⟩] ∧ ¬ system.OwnConnection := by
  have hsent : (runAll (step id) (start exampleServer) exampleReuse).map AsyncSystem.sent =
      some [⟨exampleAnswer, ⟨1, 0⟩, some 1⟩] := by
    decide +kernel
  obtain ⟨system, hsystem, hanswer⟩ := Option.map_eq_some_iff.mp hsent
  refine ⟨system, Reaches.start.runAll (fun _ _ _ => trivial) hsystem, hanswer, fun hown => ?_⟩
  have hfirst := hown ⟨exampleAnswer, ⟨1, 0⟩, some 1⟩ (by rw [hanswer]; exact List.mem_cons_self)
  exact absurd hfirst (by decide)

end AsyncSystem

end DumaisLib.WebServer
