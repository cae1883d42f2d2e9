import DumaisLib.WebServer.TcpServer
import DumaisLib.WebSocket.SendStream

/-!
# The send pass of the WebSocket server

`processSend` goes through the map of connections, as that of the TCP server
does.  An error makes it close everything in the middle of the pass.
-/

set_option linter.dupNamespace false

namespace DumaisLib.WebSocket

open DumaisLib.Utils Machine SendPass Transmission

namespace WebSocket

/-- The ring is in order and every buffer has the size that it says. -/
def Sound (ws : WebSocket) : Prop :=
  SendQueue.Sound SendBuffer.fields.Sound ws.sendQueue

instance (ws : WebSocket) : Decidable ws.IsOpen :=
  inferInstanceAs (Decidable (_ → _))

/-- What goes out next; a connection that is closing offers nothing. -/
def front (ws : WebSocket) : List Byte :=
  if ws.IsOpen then ws.sendQueue.front SendBuffer.cursor else []

def pending (ws : WebSocket) : List Byte :=
  ws.sendQueue.pending SendBuffer.cursor

theorem getTxData_of_not_isOpen {ws : WebSocket} (hclosing : ¬ ws.IsOpen) :
    ws.getTxData = (([], 0), ws) := by
  rw [getTxData, if_pos]
  rwa [IsOpen, Classical.not_imp] at hclosing

/-- Whatever its state, a connection gives its pending bytes away in order. -/
theorem sound_drains : Drains sender Sound front pending where
  offer ws hsound := by
    by_cases hopen : ws.IsOpen
    · obtain ⟨hoffer, hqueue, hopen', -⟩ := getTxData_of_isOpen hopen
      obtain ⟨-, hbuffers, -⟩ := SendQueue.fetch_buffers hsound.wellFormed
      refine ⟨?_, ?_, ?_⟩
      · simp only [Sound, sender, hqueue]
        exact hsound.fetch
      · simp only [front, sender, if_pos hopen', hoffer, hqueue]
      · simp only [pending, sender, hqueue]
        exact congrArg (List.flatMap SendBuffer.cursor.rest) hbuffers
    · simp only [sender, getTxData_of_not_isOpen hopen]
      exact ⟨hsound, (if_neg hopen).symm, trivial⟩
  sent ws count hsound hpos hle := by
    by_cases hopen : ws.IsOpen
    · rw [front, if_pos hopen] at hle
      obtain ⟨hnext, hfront, hpending⟩ := (SendQueue.drains
        (Cursor.ofFields_lawful SendBuffer.fields)).sent ws.sendQueue count hsound hpos hle
      have hqueue := onDataSent_sendQueue ws count
      simp only [Sound, front, pending, sender, hqueue, if_pos hopen,
        if_pos (onDataSent_isOpen hopen count)]
      exact ⟨hnext, hfront, hpending⟩
    · rw [front, if_neg hopen] at hle
      exact absurd hle (Nat.not_le_of_lt hpos)
  front_begins ws _ := by
    by_cases hopen : ws.IsOpen
    · rw [front, if_pos hopen]
      exact SendQueue.front_begins SendBuffer.cursor (sendQueue ws)
    · rw [front, if_neg hopen]
      exact List.nil_prefix

/-- Asked again, a connection offers the same and stays as it is. -/
theorem getTxData_settles (ws : WebSocket) : ws.getTxData.2.getTxData = ws.getTxData := by
  by_cases hopen : ws.IsOpen
  · have hgate : ¬ (ws.protocol = .webSocket ∧ ws.connectionState ≠ .connected) := fun hgate =>
      hgate.2 (hopen hgate.1)
    cases hcurrent : ws.currentSendBuffer with
    | some current => simp [getTxData, hcurrent, hgate]
    | none =>
        cases hwaiting : ws.txList.get.1 with
        | none =>
            simp [getTxData, hcurrent, hgate, MPSCRingBuffer.get_of_none hwaiting]
        | some current =>
            have hring : ws.txList.get = (some current, ws.txList.get.2) := Prod.ext hwaiting rfl
            simp only [getTxData, hcurrent, if_neg hgate, if_true]
            rw [hring]
            simp [hgate]
  · rw [getTxData_of_not_isOpen hopen]
    exact getTxData_of_not_isOpen hopen

/-- The number on offer is that of the bytes. -/
theorem getTxData_length {ws : WebSocket} (hsound : Sound ws) :
    ws.getTxData.1.2 = ws.getTxData.1.1.length := by
  by_cases hopen : ws.IsOpen
  · obtain ⟨hbytes, -, -, hsize⟩ := getTxData_of_isOpen hopen
    rw [hbytes, SendQueue.front]
    cases hcurrent : ws.sendQueue.fetch.current with
    | none =>
        have hgate : ¬ (ws.protocol = .webSocket ∧ ws.connectionState ≠ .connected) := fun hgate =>
          hgate.2 (hopen hgate.1)
        rw [SendQueue.fetch] at hcurrent
        cases hown : ws.currentSendBuffer with
        | some own => simp [sendQueue, hown] at hcurrent
        | none =>
            simp only [sendQueue, hown] at hcurrent
            simp [getTxData, hown, hgate, MPSCRingBuffer.get_of_none hcurrent]
    | some current =>
        have hmem : current ∈ ws.sendQueue.fetch.buffers :=
          List.mem_append_left _ (Option.mem_toList.mpr hcurrent)
        have hbuffer : SendBuffer.fields.Sound current := hsound.fetch.buffers current hmem
        have hlength : (SendBuffer.cursor.rest current).length =
          current.size - current.currentIndex := hbuffer.length_rest
        rw [hsize current hcurrent, Option.map_some, Option.getD_some, hlength]
        exact sizeSub_of_le hbuffer.index_le hbuffer.size_lt
  · rw [getTxData_of_not_isOpen hopen]
    rfl

end WebSocket

/-- The map of the connections by socket, in the order of its buckets. -/
structure WebSockets where
  entries : List (Int × WebSocket)
  nodup : (entries.map Prod.fst).Nodup
  sound : ∀ entry ∈ entries, entry.2.Sound

structure WebSocketServer where
  webSockets : WebSockets

namespace WebSocketServer

def peer : Peer WebSocket where
  offer ws := (ws.getTxData.1.2, ws.getTxData.2)
  sent := WebSocket.onDataSent

/-- Every connection is deleted and the map is cleared. -/
def abort (state : SendPass.State WebSocket) : SendPass.State WebSocket :=
  { state with
    table := []
    peers := state.peers.map fun _ => none
    aborted := true }

/-- The branches of the loop. -/
def handlers : Handlers WebSocket where
  onError state it ws := some { abort state with place := .after it ws }
  onClosed state it ws :=
    let state := state.erase it
    (state.second it).bind fun second =>
      (state.delete second).map fun state => { state with place := .after it ws }
  afterwards state it _ :=
    (State.increment it state.table).map fun next => { state with place := .visit next }

def processSend (answers : Answers) (fuel : Nat) (server : WebSocketServer) :
    Outcome (SendPass.State WebSocket) :=
  loop (body peer handlers answers) fuel (start server.webSockets.entries)

theorem peer_lawful :
    peer.Lawful WebSocket.Sound (fun ws => ws.pending.length) fun _ => false := by
  refine Peer.lawful_of_drains WebSocket.sound_drains ?_ (fun _ => rfl) rfl ?_ (fun _ => rfl)
    fun _ _ => rfl
  · exact fun ws hsound => WebSocket.getTxData_length hsound
  · intro ws
    simp only [peer, ws.getTxData_settles]

theorem handlers_lawful : handlers.Lawful fun _ : WebSocket => false := by
  constructor
  · intro state it ws
    simp [handlers, second_erase]
  · intro state it ws item _ hmarked
    cases hmarked
  · exact fun _ _ _ _ _ _ => rfl
  · intro state it ws next hnext
    obtain ⟨it', -, rfl⟩ := Option.map_eq_some_iff.mp hnext
    rfl
  · intro state it ws next hnext
    obtain rfl := Option.some.inj hnext
    rfl

/-- After an error there is no next connection. -/
theorem onError_faults {answers : Answers} {state next : SendPass.State WebSocket} {it : Int}
    {ws : Nat} (hnext : handlers.onError state it ws = some next) :
    body peer handlers answers next = none := by
  obtain rfl := Option.some.inj hnext
  rfl

def entries (server : WebSocketServer) : List (Int × WebSocket) :=
  server.webSockets.entries

/-- One turn of the loop of `processSend`. -/
abbrev turn (answers : Answers) :
    SendPass.State WebSocket → Option (Turn (SendPass.State WebSocket) (SendPass.State WebSocket)) :=
  body peer handlers answers

/--
The call returns, and has had every connection's turn, made no send after an
EAGAIN to the same connection and none after an error.
-/
def Sends (server : WebSocketServer) (answers : Answers) : Prop :=
  ∃ fuel result, server.processSend answers fuel = .finished result ∧
    WellSent (server.entries.map Prod.fst) result.log

theorem sends_iff (server : WebSocketServer) (answers : Answers) :
    server.Sends answers ↔
      ∀ visited, Visited (turn answers) (start server.entries) visited → ∀ reply,
        visited.asked peer answers = some reply → ∃ count, reply = .sent count := by
  refine (wellSent_iff server.webSockets.nodup server.webSockets.sound peer_lawful handlers_lawful
    (Or.inr fun _ _ _ _ => onError_faults)).trans ?_
  exact and_iff_right fun _ _ => rfl

end WebSocketServer

/--
The send pass of either server treats the answers of the sockets as it should
exactly when no client has failed and every send takes something.
-/
theorem processSend_sends_iff (answers : Answers) :
    (∀ server : WebServer.TcpServer, server.Sends answers ↔
      server.stopping = true ∨ (∀ entry ∈ server.entries, entry.2.mFailed = false) ∧
        ∀ visited, Visited (WebServer.TcpServer.turn answers) (start server.entries) visited →
          ∀ reply, visited.asked WebServer.TcpServer.peer answers = some reply →
            ∃ count, reply = .sent count) ∧
      ∀ server : WebSocketServer, server.Sends answers ↔
        ∀ visited, Visited (WebSocketServer.turn answers) (start server.entries) visited →
          ∀ reply, visited.asked WebSocketServer.peer answers = some reply →
            ∃ count, reply = .sent count :=
  ⟨fun server => server.sends_iff answers, fun server => server.sends_iff answers⟩

/-- A client with one byte to send. -/
def greetingClient : WebServer.TcpClient :=
  { WebServer.TcpClient.create fun _ => ⟨[], 0, 0, false⟩ with
    currentSendBuffer := some ⟨"a".toList, 1, 0, true⟩ }

theorem greetingClient_sound : WebServer.ResponseStream.Sound greetingClient := by
  obtain ⟨⟨hwf, -⟩, hbuffers⟩ := WebServer.ResponseStream.create_sound fun _ => ⟨[], 0, 0, false⟩
  refine ⟨hwf, fun buffer hbuffer => ?_⟩
  rcases List.mem_append.mp hbuffer with hcurrent | hheld
  · obtain rfl := Option.some.inj (Option.mem_toList.mp hcurrent)
    exact ⟨rfl, by decide, Nat.zero_le _⟩
  · refine absurd (?_ : buffer ∈ []) List.not_mem_nil
    rw [← hbuffers]
    exact List.mem_append_right _ hheld

/-- A client that takes nothing for the time being is sent to for ever. -/
theorem full_socket_blocks (fuel : Nat) (result : SendPass.State WebServer.TcpClient) :
    (WebServer.TcpServer.withClient greetingClient greetingClient_sound).processSend
      (fun _ _ => .again) fuel ≠ .finished result := by
  intro hloop
  cases fuel with
  | zero => cases hloop
  | succ fuel =>
      have hstart : At WebServer.ResponseStream.Sound WebServer.TcpClient.mFailed
          [(5, greetingClient)] 0 .visit (start [(5, greetingClient)]) :=
        at_start (List.forall_mem_singleton.mpr greetingClient_sound)
      obtain ⟨next, hbody, hnext, -⟩ := @At.visit _ WebServer.TcpServer.peer
        WebServer.TcpServer.handlers (fun _ _ => .again) _ _ [(5, greetingClient)] _ _
        (List.nodup_singleton _) hstart (by decide)
      obtain rfl := Turn.again.inj (Option.some.inj hbody)
      exact never_finishes WebServer.TcpServer.peer_lawful (fun _ _ _ => rfl) hnext rfl (by decide)
        (fun _ _ => Or.inl rfl) fuel result hloop

/-- So the pass does not do what it should. -/
theorem full_socket_not_sends :
    ¬ (WebServer.TcpServer.withClient greetingClient greetingClient_sound).Sends
      fun _ _ => .again := by
  rintro ⟨fuel, result, hloop, -⟩
  exact full_socket_blocks fuel result hloop

end DumaisLib.WebSocket
