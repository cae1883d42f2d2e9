import DumaisLib.Lib.SendPassRuns
import DumaisLib.WebServer.ResponseStream

/-!
# The send pass of the TCP server

`processSend` goes through the table of clients.  It takes a client out of the
table when its send returns 0, and when it has failed; both leave the pass with
an iterator that has been erased.
-/

namespace DumaisLib.WebServer

open DumaisLib.Utils Machine SendPass

/-- The map of the clients by socket. -/
structure ClientList where
  entries : List (Int × TcpClient)
  sorted : (entries.map Prod.fst).Pairwise (· < ·)
  sound : ∀ entry ∈ entries, ResponseStream.Sound entry.2

structure TcpServer where
  stopping : Bool
  clientList : ClientList

namespace TcpServer

def peer : Peer TcpClient where
  offer client := (client.getTxData.1.2, client.getTxData.2)
  sent := TcpClient.onDataSent

def onDisconnected (state : State TcpClient) (it : Int) (client : Nat) : Option (State TcpClient) :=
  (state.deref client).map fun _ => state.record (.disconnected it)

/-- The branches of the loop. -/
def handlers : Handlers TcpClient where
  onError state _ _ := some { state with aborted := true }
  onClosed state it client :=
    (onDisconnected state it client).bind fun state =>
      let state := state.erase it
      (state.second it).bind fun second =>
        (state.delete second).map fun state => { state with place := .after it client }
  afterwards state it client :=
    (state.deref client).bind fun item =>
      if item.mFailed then
        (onDisconnected state it client).bind fun state =>
          (state.delete client).bind fun state =>
            let state := state.erase it
            (State.increment it state.table).map fun next => { state with place := .visit next }
      else
        (State.increment it state.table).map fun next => { state with place := .visit next }

def processSend (answers : Answers) (fuel : Nat) (server : TcpServer) : Outcome (State TcpClient) :=
  if server.stopping then .finished (start server.clientList.entries)
  else loop (body peer handlers answers) fuel (start server.clientList.entries)

/-! ## The laws of the clients and of the branches -/

/-- Asked again, a client offers the same and stays as it is. -/
theorem getTxData_settles (client : TcpClient) :
    client.getTxData.2.getTxData = client.getTxData ∧
      client.getTxData.2.mFailed = client.mFailed := by
  obtain ⟨mFailed, currentMessage, txList, currentSendBuffer, log⟩ := client
  cases currentSendBuffer with
  | some current => exact ⟨rfl, rfl⟩
  | none =>
      by_cases hempty : txList.get.1 = none
      · have hring := MPSCRingBuffer.get_of_none hempty
        simp [TcpClient.getTxData, hring]
      · obtain ⟨current, hcurrent⟩ := Option.ne_none_iff_exists'.mp hempty
        have hring : txList.get = (some current, txList.get.2) := Prod.ext hcurrent rfl
        simp only [TcpClient.getTxData, if_true]
        rw [hring]
        exact ⟨rfl, rfl⟩

theorem onDataSent_mFailed (client : TcpClient) (size : Nat) :
    (client.onDataSent size).mFailed = client.mFailed := by
  simp only [TcpClient.onDataSent]
  split
  · rfl
  · split <;> rfl

theorem peer_lawful :
    peer.Lawful ResponseStream.Sound (fun client => (ResponseStream.pending client).length)
      TcpClient.mFailed := by
  refine Peer.lawful_of_drains ResponseStream.sound_drains ?_ (fun _ => rfl) rfl ?_
    (fun client => (getTxData_settles client).2) onDataSent_mFailed
  · exact fun client hsound => client.getTxData_eq.2.2 hsound
  · intro client
    simp only [peer, (getTxData_settles client).1]

theorem handlers_lawful : handlers.Lawful TcpClient.mFailed := by
  constructor
  · intro state it client
    simp only [handlers, onDisconnected]
    cases state.deref client with
    | none => rfl
    | some item => simp [second_erase]
  · intro state it client item hitem hfailed
    simp only [handlers, onDisconnected, hitem, hfailed, if_true, Option.bind_some,
      Option.map_some, increment_erase, Option.map_none]
    exact Option.bind_fun_none _
  · intro state it client item hitem hfailed
    simp [handlers, hitem, hfailed]
  · intro state it client next hnext
    obtain ⟨item, hitem, hafter⟩ := Option.bind_eq_some_iff.mp hnext
    split at hafter
    · obtain ⟨told, -, hremoved⟩ := Option.bind_eq_some_iff.mp hafter
      obtain ⟨deleted, -, herased⟩ := Option.bind_eq_some_iff.mp hremoved
      simp only [increment_erase] at herased
      cases herased
    · obtain ⟨it', -, rfl⟩ := Option.map_eq_some_iff.mp hafter
      rfl
  · intro state it client next hnext
    obtain rfl := Option.some.inj hnext
    rfl

/-! ## What a pass is for -/

def entries (server : TcpServer) : List (Int × TcpClient) :=
  server.clientList.entries

/-- One turn of the loop of `processSend`. -/
abbrev turn (answers : Answers) : State TcpClient → Option (Turn (State TcpClient) (State TcpClient)) :=
  body peer handlers answers

/--
The call returns, and unless the server is stopping it has had every client's
turn, made no send after an EAGAIN to the same client and none after an error.
-/
def Sends (server : TcpServer) (answers : Answers) : Prop :=
  ∃ fuel result, server.processSend answers fuel = .finished result ∧
    (server.stopping = false → WellSent (server.entries.map Prod.fst) result.log)

/--
The call returns, and unless the server is stopping it has removed exactly the
clients that are failed or whose send returned 0, and visited the others.
-/
def Removes (server : TcpServer) (answers : Answers) : Prop :=
  ∃ fuel result, server.processSend answers fuel = .finished result ∧
    (server.stopping = false → WellRemoved TcpClient.mFailed server.entries result)

theorem nodup_keys (server : TcpServer) : (server.entries.map Prod.fst).Nodup :=
  server.clientList.sorted.imp fun hlt => Int.ne_of_lt hlt

/-- A call returns at once, or it is a pass. -/
theorem processSend_iff (server : TcpServer) (answers : Answers)
    (property : State TcpClient → Prop) :
    (∃ fuel result, server.processSend answers fuel = .finished result ∧
        (server.stopping = false → property result)) ↔
      server.stopping = true ∨ ∃ fuel result,
        loop (turn answers) fuel (start server.entries) = .finished result ∧ property result := by
  cases hstopping : server.stopping with
  | true =>
      constructor
      · exact fun _ => Or.inl rfl
      · exact fun _ => ⟨0, start server.clientList.entries, by rw [processSend, if_pos hstopping],
          fun hgoing => by cases hgoing⟩
  | false =>
      have heq (fuel : Nat) : server.processSend answers fuel =
          loop (turn answers) fuel (start server.entries) := by
        rw [processSend, if_neg (by rw [hstopping]; decide)]
        rfl
      simp [heq]

theorem sends_iff (server : TcpServer) (answers : Answers) :
    server.Sends answers ↔
      server.stopping = true ∨ (∀ entry ∈ server.entries, entry.2.mFailed = false) ∧
        ∀ visited, Visited (turn answers) (start server.entries) visited → ∀ reply,
          visited.asked peer answers = some reply → ∃ count, reply = .sent count := by
  refine (server.processSend_iff answers _).trans (or_congr_right ?_)
  exact wellSent_iff server.nodup_keys server.clientList.sound peer_lawful handlers_lawful
    (Or.inl fun _ _ _ => rfl)

/--
A pass does what it should with the clients that are to be removed exactly when
there are none, and no client's sends fail for ever.
-/
theorem removes_iff (server : TcpServer) (answers : Answers) :
    server.Removes answers ↔
      server.stopping = true ∨ (∀ entry ∈ server.entries, entry.2.mFailed = false) ∧
        ∀ visited, Visited (turn answers) (start server.entries) visited →
          visited.asked peer answers ≠ some .closed ∧ Patient peer answers visited := by
  refine (server.processSend_iff answers _).trans (or_congr_right ?_)
  exact wellRemoved_iff server.nodup_keys server.clientList.sound peer_lawful handlers_lawful
    fun _ _ _ => rfl

/-- A server with one client on socket 5. -/
def withClient (client : TcpClient) (hsound : ResponseStream.Sound client) : TcpServer where
  stopping := false
  clientList :=
    { entries := [(5, client)]
      sorted := List.pairwise_singleton _ _
      sound := List.forall_mem_singleton.mpr hsound }

/-- The client has sent a request that the framing strategy does not accept. -/
def failedClient : TcpClient :=
  { TcpClient.create fun _ => ⟨[], 0, 0, false⟩ with mFailed := true }

theorem failed_client_faults :
    ¬ (withClient failedClient (ResponseStream.create_sound _).1).Removes fun _ _ => .again := by
  rintro ⟨fuel, result, hloop, -⟩
  rcases fuel with _ | _ | _ | fuel
  · cases hloop
  · cases hloop
  · cases hloop
  · cases hloop

end TcpServer

end DumaisLib.WebServer
