import DumaisLib.Lib.Machine
import Mathlib.Data.Finset.Card

/-!
# The sockets of the WebSocket server

The limit on connections is tested before an accept pass begins, and the pass
then takes everything that is waiting.  A connection that leaves the map is not
always closed, and a socket that is open stays registered with epoll.
-/

namespace DumaisLib.WebSocket

open Machine

/-- The keys of `webSockets`, the sockets that epoll watches and the connections not accepted yet. -/
structure ServerSockets where
  maxConnections : Nat
  listenSocket : Option Int
  webSockets : Finset Int
  registered : Finset Int
  backlog : Nat
  watched : webSockets ⊆ registered

/-- How a connection leaves the map. -/
inductive Disconnection where
  | recvReturnsZero
  | processDataFails
  | watchdogFails
  | sendReturnsZero
  deriving DecidableEq

/-- Whether the socket is closed, which takes it out of what epoll watches. -/
def Disconnection.closes : Disconnection → Bool
  | .recvReturnsZero => false
  | .processDataFails => true
  | .watchdogFails => true
  | .sendReturnsZero => false

inductive SocketEvent where
  | connect
  | processAccept (accepted : List Int)
  | disconnect (socket : Int) (disconnection : Disconnection)
  | abort
  deriving DecidableEq

namespace ServerSockets

/-- The constructor, when the address could be bound. -/
def start (listenSocket : Int) (maxConnections : Nat) : ServerSockets where
  maxConnections := maxConnections
  listenSocket := some listenSocket
  webSockets := ∅
  registered := {listenSocket}
  backlog := 0
  watched := Finset.empty_subset _

/-- One accepted connection is put into the map and registered. -/
def accept (server : ServerSockets) (socket : Int) : ServerSockets where
  maxConnections := server.maxConnections
  listenSocket := server.listenSocket
  webSockets := insert socket server.webSockets
  registered := insert socket server.registered
  backlog := server.backlog - 1
  watched := Finset.insert_subset_insert socket server.watched

/-- `accepted` are the sockets that `accept` returns before it reports `EAGAIN`. -/
def processAccept (server : ServerSockets) (accepted : List Int) : ServerSockets :=
  if server.maxConnections ≤ server.webSockets.card then server else accepted.foldl accept server

/--
The connection leaves the map; the socket is closed or forgotten.  That an entry
is read after it was erased is an error of its own, which is left out here.
-/
def disconnect (server : ServerSockets) (socket : Int) (disconnection : Disconnection) :
    ServerSockets where
  maxConnections := server.maxConnections
  listenSocket := server.listenSocket
  webSockets := server.webSockets.erase socket
  registered :=
    if disconnection.closes then server.registered.erase socket else server.registered
  backlog := server.backlog
  watched := by
    split
    · exact Finset.erase_subset_erase socket server.watched
    · exact (Finset.erase_subset socket server.webSockets).trans server.watched

/-- Everything is closed. -/
def abort (server : ServerSockets) : ServerSockets where
  maxConnections := server.maxConnections
  listenSocket := none
  webSockets := ∅
  registered := ∅
  backlog := 0
  watched := Finset.empty_subset _

/-- What `accept` can return: sockets that are not open, one for each connection waiting. -/
def Acceptable (server : ServerSockets) (accepted : List Int) : Prop :=
  accepted.length = server.backlog ∧ accepted.Nodup ∧ ∀ socket ∈ accepted, socket ∉ server.registered

instance (server : ServerSockets) (accepted : List Int) : Decidable (server.Acceptable accepted) :=
  inferInstanceAs (Decidable (_ ∧ _ ∧ _))

/-- One event; none when it cannot happen. -/
def step (server : ServerSockets) (event : SocketEvent) : Option ServerSockets :=
  if server.listenSocket = none then none
  else
    match event with
    | .connect => some { server with backlog := server.backlog + 1 }
    | .processAccept accepted =>
        if server.Acceptable accepted then some (server.processAccept accepted) else none
    | .disconnect socket disconnection =>
        if socket ∈ server.webSockets then some (server.disconnect socket disconnection) else none
    | .abort => some server.abort

/-- The map is no larger than the limit, and epoll can report on every socket it watches. -/
def WithinLimits (server : ServerSockets) : Prop :=
  server.webSockets.card ≤ server.maxConnections ∧
    server.registered.card ≤ server.maxConnections + 1

instance (server : ServerSockets) : Decidable server.WithinLimits :=
  inferInstanceAs (Decidable (_ ∧ _))

/-- An accept pass that gets past the test finds no more connections than there is room for. -/
def Fits (server : ServerSockets) : SocketEvent → Prop
  | .processAccept _ =>
      server.webSockets.card < server.maxConnections →
        server.webSockets.card + server.backlog ≤ server.maxConnections ∧
          server.registered.card + server.backlog ≤ server.maxConnections + 1
  | _ => True

/-! ## One step -/

theorem card_accepted {server : ServerSockets} {accepted : List Int} (hnodup : accepted.Nodup)
    (hnew : ∀ socket ∈ accepted, socket ∉ server.registered) :
    (accepted.foldl accept server).webSockets.card = server.webSockets.card + accepted.length ∧
      (accepted.foldl accept server).registered.card =
        server.registered.card + accepted.length := by
  induction accepted generalizing server with
  | nil => exact ⟨rfl, rfl⟩
  | cons socket accepted ih =>
      obtain ⟨hfirst, hlater⟩ := List.forall_mem_cons.mp hnew
      obtain ⟨hfresh, hrest⟩ := List.nodup_cons.mp hnodup
      have hopen : ∀ other ∈ accepted, other ∉ (server.accept socket).registered := by
        intro other hother hmem
        rcases Finset.mem_insert.mp hmem with rfl | hold
        · exact hfresh hother
        · exact hlater other hother hold
      have hmap : (server.accept socket).webSockets.card = server.webSockets.card + 1 :=
        Finset.card_insert_of_notMem fun hmem => hfirst (server.watched hmem)
      have hepoll : (server.accept socket).registered.card = server.registered.card + 1 :=
        Finset.card_insert_of_notMem hfirst
      obtain ⟨hwebSockets, hregistered⟩ := ih hrest hopen
      rw [List.foldl_cons, hwebSockets, hregistered, hmap, hepoll, List.length_cons]
      constructor
      · omega
      · omega

theorem maxConnections_accepted (server : ServerSockets) (accepted : List Int) :
    (accepted.foldl accept server).maxConnections = server.maxConnections := by
  induction accepted generalizing server with
  | nil => rfl
  | cons socket accepted ih => exact ih (server.accept socket)

/-- An accept pass leaves the limits kept exactly when what it finds has room. -/
theorem processAccept_withinLimits {server : ServerSockets} (hwithin : server.WithinLimits)
    {accepted : List Int} (hacceptable : server.Acceptable accepted) :
    (server.processAccept accepted).WithinLimits ↔ server.Fits (.processAccept accepted) := by
  obtain ⟨hlength, hnodup, hnew⟩ := hacceptable
  rw [processAccept, Fits]
  split
  · rename_i hfull
    exact iff_of_true hwithin fun hroom => absurd hroom (not_lt.mpr hfull)
  · rename_i hroom
    obtain ⟨hwebSockets, hregistered⟩ := card_accepted hnodup hnew
    rw [WithinLimits, hwebSockets, hregistered, maxConnections_accepted, hlength]
    exact ⟨fun hall _ => hall, fun hfits => hfits (not_le.mp hroom)⟩

theorem disconnect_withinLimits {server : ServerSockets} (hwithin : server.WithinLimits)
    (socket : Int) (disconnection : Disconnection) :
    (server.disconnect socket disconnection).WithinLimits := by
  obtain ⟨hwebSockets, hregistered⟩ := hwithin
  refine ⟨(Finset.card_erase_le).trans hwebSockets, ?_⟩
  rw [disconnect]
  dsimp only
  split
  · exact (Finset.card_erase_le).trans hregistered
  · exact hregistered

/-- Each step keeps the limits exactly when it fits. -/
theorem step_withinLimits {server next : ServerSockets} {event : SocketEvent}
    (hwithin : server.WithinLimits) (hstep : server.step event = some next) :
    next.WithinLimits ↔ server.Fits event := by
  unfold step at hstep
  split at hstep
  · cases hstep
  · cases event with
    | connect =>
        obtain rfl := Option.some.inj hstep
        exact iff_of_true hwithin trivial
    | processAccept accepted =>
        dsimp only at hstep
        split at hstep
        · rename_i hacceptable
          obtain rfl := Option.some.inj hstep
          exact processAccept_withinLimits hwithin hacceptable
        · cases hstep
    | disconnect socket disconnection =>
        dsimp only at hstep
        split at hstep
        · obtain rfl := Option.some.inj hstep
          exact iff_of_true (disconnect_withinLimits hwithin socket disconnection) trivial
        · cases hstep
    | abort =>
        obtain rfl := Option.some.inj hstep
        exact iff_of_true ⟨Nat.zero_le _, Nat.zero_le _⟩ trivial

/-! ## Runs -/

theorem start_withinLimits (listenSocket : Int) (maxConnections : Nat) :
    (start listenSocket maxConnections).WithinLimits :=
  ⟨Nat.zero_le _, Nat.le_add_left 1 maxConnections⟩

/--
In every state of a run the limits are kept exactly when each accept pass that
gets past the test finds no more connections than there is room for.
-/
theorem within_limits_iff (listenSocket : Int) (maxConnections : Nat) (events : List SocketEvent) :
    Always step WithinLimits (start listenSocket maxConnections) events ↔
      Admitted step Fits (start listenSocket maxConnections) events := by
  apply always_iff_admitted (fun _ hwithin => hwithin)
  · exact fun _ _ _ hwithin hfits hstep => (step_withinLimits hwithin hstep).mpr hfits
  · exact fun _ _ _ hwithin hfits hstep hnext => hfits ((step_withinLimits hwithin hstep).mp hnext)
  · exact start_withinLimits listenSocket maxConnections

/-- Two connections wait when a server for one accepts. -/
theorem burst_exceeds_limits :
    ∃ last, runAll step (start 3 1) [.connect, .connect, .processAccept [5, 6]] = some last ∧
      last.webSockets.card = 2 ∧ last.registered.card = 3 ∧ ¬ last.WithinLimits :=
  ⟨_, rfl, rfl, rfl, by decide⟩

/-- One connection waits at a time, but the one that has left was not closed. -/
theorem forgotten_socket_exceeds_limits :
    ∃ last, runAll step (start 3 1) [.connect, .processAccept [5],
        .disconnect 5 .recvReturnsZero, .connect, .processAccept [6]] = some last ∧
      last.webSockets.card = 1 ∧ last.registered.card = 3 ∧ ¬ last.WithinLimits :=
  ⟨_, rfl, rfl, rfl, by decide⟩

end ServerSockets

end DumaisLib.WebSocket
