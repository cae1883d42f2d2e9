import DumaisLib.Utils.SendQueue
import DumaisLib.WebSocket.Progress
import DumaisLib.WebSocket.SendStream

/-!
# A connection turn by turn

After the handshake a connection is driven by the received chunks, by the
application and by the server loop.  Here one turn of the receive loop is one
step, and anything else may happen between two turns.
-/

set_option linter.dupNamespace false

namespace DumaisLib.WebSocket

open DumaisLib.Utils Machine

/-! ## The buffers that an operation queues -/

/-- The frame that a sending call makes, if it makes one. -/
def Send.frame? : Send → Option (List Byte)
  | .text content => WSProtocolParser.sendData WS_TEXT (Text.toBytes content)
  | .binary buffer => WSProtocolParser.sendData WS_BINARY buffer

namespace WebSocket

def sendAll (ws : WebSocket) (buffers : List (List Byte)) : WebSocket :=
  buffers.foldl sendData ws

/-- One of the buffers finds the queue full. -/
def overflows (queue : SendQueue SendBuffer TX_LIST_SIZE) : List (List Byte) → Bool
  | [] => false
  | buffer :: buffers =>
      !(queue.waiting.put (.ofBytes buffer)).1 || overflows (queue.put (.ofBytes buffer)) buffers

theorem send_eq_sendAll (ws : WebSocket) (call : Send) :
    ws.send call = ws.sendAll call.frame?.toList := by
  cases call with
  | text text =>
      simp only [send, sendText, Send.frame?]
      split
      · rename_i hnone
        rw [hnone]
        rfl
      · rename_i hsome
        rw [hsome]
        rfl
  | binary buffer =>
      simp only [send, sendBinary, Send.frame?]
      split
      · rename_i hnone
        rw [hnone]
        rfl
      · rename_i hsome
        rw [hsome]
        rfl

theorem foldl_send_eq_sendAll (ws : WebSocket) (calls : List Send) :
    calls.foldl send ws = ws.sendAll (calls.filterMap Send.frame?) := by
  induction calls generalizing ws with
  | nil => rfl
  | cons call calls ih =>
      rw [List.foldl_cons, ih, send_eq_sendAll, sendAll, sendAll, sendAll, ← List.foldl_append]
      congr 1
      cases hframe : call.frame? with
      | none => rw [List.filterMap_cons_none hframe]; rfl
      | some frame => rw [List.filterMap_cons_some hframe]; rfl

/-- The frames that the application sends when it is called. -/
def replies (ws : WebSocket) (callback : Option (List Event → List Send)) (event : Event) :
    List (List Byte) :=
  match callback with
  | none => []
  | some reply => (reply (ws.log ++ [event])).filterMap Send.frame?

/-- The connection after the application has been called, and before it sends. -/
def called (ws : WebSocket) (callback : Option (List Event → List Send)) (event : Event) :
    WebSocket :=
  match callback with
  | none => ws
  | some _ => { ws with log := ws.log ++ [event] }

@[simp] theorem called_sendQueue (ws : WebSocket)
    (callback : Option (List Event → List Send)) (event : Event) :
    (ws.called callback event).sendQueue = ws.sendQueue := by
  cases callback <;> rfl

@[simp] theorem called_connectionState (ws : WebSocket)
    (callback : Option (List Event → List Send)) (event : Event) :
    (ws.called callback event).connectionState = ws.connectionState := by
  cases callback <;> rfl

theorem notify_eq_sendAll (ws : WebSocket) (callback : Option (List Event → List Send))
    (event : Event) :
    ws.notify callback event = (ws.called callback event).sendAll (ws.replies callback event) := by
  cases callback with
  | none => rfl
  | some reply => exact foldl_send_eq_sendAll _ _

theorem sendAll_sendQueue (ws : WebSocket) (buffers : List (List Byte)) :
    (ws.sendAll buffers).sendQueue = ws.sendQueue.putAll (buffers.map .ofBytes) := by
  induction buffers generalizing ws with
  | nil => rfl
  | cons buffer buffers ih =>
      refine (ih (ws.sendData buffer)).trans ?_
      rw [sendData_sendQueue]
      rfl

theorem sendData_connectionState (ws : WebSocket) (buffer : List Byte) :
    (ws.sendData buffer).connectionState =
      if (ws.txList.put (.ofBytes buffer)).1 = false then .closed else ws.connectionState := by
  rw [sendData_eq]
  by_cases hput : (ws.txList.put (.ofBytes buffer)).1 = false
  · rw [if_pos hput, if_pos hput]
    rfl
  · rw [if_neg hput, if_neg hput]

/-- A full queue closes the connection; otherwise sending leaves its state alone. -/
theorem sendAll_connectionState (ws : WebSocket) (buffers : List (List Byte)) :
    (ws.sendAll buffers).connectionState =
      if overflows ws.sendQueue buffers = true then .closed else ws.connectionState := by
  induction buffers generalizing ws with
  | nil => rfl
  | cons buffer buffers ih =>
      refine (ih (ws.sendData buffer)).trans ?_
      rw [sendData_connectionState, sendData_sendQueue, overflows]
      have hwaiting : ws.sendQueue.waiting = ws.txList := rfl
      by_cases hput : (ws.txList.put (.ofBytes buffer)).1 = false
      · simp [hput, hwaiting]
      · simp [hput, hwaiting]

@[simp] theorem sendAll_log (ws : WebSocket) (buffers : List (List Byte)) :
    (ws.sendAll buffers).log = ws.log := by
  induction buffers generalizing ws with
  | nil => rfl
  | cons buffer buffers ih => exact (ih (ws.sendData buffer)).trans (ws.sendData_log buffer)

@[simp] theorem sendAll_protocol (ws : WebSocket) (buffers : List (List Byte)) :
    (ws.sendAll buffers).protocol = ws.protocol := by
  induction buffers generalizing ws with
  | nil => rfl
  | cons buffer buffers ih =>
      exact (ih (ws.sendData buffer)).trans (ws.sendData_protocol buffer)

end WebSocket

/-! ## Sessions -/

/-- A connection with what its receive loop has not read yet. -/
structure Session where
  ws : WebSocket
  chunk : List Byte

/-- What may happen next. -/
inductive Action where
  | receive (buf : List Byte)
  | turn (now : Nat)
  | send (call : Send)
  | getTxData
  | onDataSent (size : Nat)
  | watchdog (now : Nat)

namespace Session

def step (app : Application) (session : Session) : Action → Option Session
  | .receive buf => if session.chunk = [] then some { session with chunk := buf } else none
  | .turn now =>
      if session.chunk = [] then none
      else
        (session.ws.iterate app now session.chunk).map fun
          | .leave ws => ⟨ws, []⟩
          | .again ws rest => ⟨ws, rest⟩
  | .send call => some { session with ws := session.ws.send call }
  | .getTxData => some { session with ws := session.ws.getTxData.2 }
  | .onDataSent size => some { session with ws := session.ws.onDataSent size }
  | .watchdog now => some { session with ws := (session.ws.watchdog now).2 }

/-- The receive loop is a run of turns. -/
theorem reaches_of_receiveLoop {app : Application} {now fuel : Nat} {start : Session}
    {ws next : WebSocket} {buf : List Byte} {allowed : Session → Action → Prop}
    (hallowed : ∀ session, allowed session (.turn now))
    (hreaches : Reaches (step app) allowed start ⟨ws, buf⟩)
    (hloop : ws.receiveLoop app now fuel buf = .finished next) :
    Reaches (step app) allowed start ⟨next, []⟩ := by
  induction fuel generalizing ws buf with
  | zero =>
      cases buf with
      | nil =>
          obtain rfl := Outcome.finished.inj hloop
          exact hreaches
      | cons byte buf => cases hloop
  | succ fuel ih =>
      by_cases hne : buf = []
      · subst hne
        obtain rfl := Outcome.finished.inj hloop
        exact hreaches
      · rw [WebSocket.receiveLoop_cons fuel ws hne] at hloop
        have hturn (turned : Session) (hstep : step app ⟨ws, buf⟩ (.turn now) = some turned) :
            Reaches (step app) allowed start turned :=
          hreaches.step (hallowed _) hstep
        cases hiterate : ws.iterate app now buf with
        | none => simp [hiterate] at hloop
        | some iteration =>
            rw [hiterate] at hloop
            cases iteration with
            | leave left =>
                obtain rfl := Outcome.finished.inj hloop
                exact hturn ⟨left, []⟩ (by simp [step, hne, hiterate])
            | again left rest =>
                exact ih (hturn ⟨left, rest⟩ (by simp [step, hne, hiterate])) hloop

/-! ## What a turn does -/

/-- What the parser's answer makes the connection do. -/
inductive Deed where
  | refuse
  | message (msg : WebSocketMessage)
  | closeFrame
  | ping (buf : List Byte)
  | nothing
  deriving DecidableEq

def deedOf : WSParsingStatus → Deed
  | .error => .refuse
  | .messageIncomplete => .nothing
  | .messageReady buffer headerSize payloadSize =>
      let opcode := (WSHeader.read buffer).opcode
      if WebSocket.IsData opcode then
        .message (WebSocket.messageOf buffer headerSize payloadSize)
      else if opcode = WS_CLOSE then .closeFrame
      else if opcode = WS_PING then .ping (buffer.take (payloadSize + headerSize))
      else .refuse

/-- What the next turn does. -/
def deed (session : Session) : Deed :=
  match session.ws.wsParser.parseWSMessage session.chunk with
  | none => .nothing
  | some (_, result) => deedOf result.status

def perform (app : Application) (now : Nat) (ws : WebSocket) : Deed → WebSocket
  | .refuse => ws.closeWebSocket now
  | .message msg => ws.notify app.onMessage (.message msg)
  | .closeFrame =>
      (if ws.connectionState = .connected then ws.closeWebSocket now else ws).abortWebSocket
  | .ping buf => ws.processPing buf
  | .nothing => ws

theorem processWholeWSPacket_deed {app : Application} {now : Nat} {ws next : WebSocket}
    {buffer : List Byte} {headerSize payloadSize : Nat}
    (hprocess : ws.processWholeWSPacket app now buffer headerSize payloadSize = some next) :
    ∃ p, next = (perform app now ws (deedOf (.messageReady buffer headerSize payloadSize))).withParser
      p := by
  simp only [WebSocket.processWholeWSPacket] at hprocess
  simp only [deedOf]
  split at hprocess
  · rename_i hdata
    rw [if_pos hdata]
    split at hprocess
    · cases hprocess
    · obtain rfl := Option.some.inj hprocess
      exact ⟨_, rfl⟩
  · rename_i hdata
    rw [if_neg hdata]
    split at hprocess
    · rename_i hclose
      rw [if_pos hclose]
      obtain rfl := Option.some.inj hprocess
      exact ⟨_, rfl⟩
    · rename_i hclose
      rw [if_neg hclose]
      split at hprocess
      · rename_i hping
        rw [if_pos hping]
        obtain rfl := Option.some.inj hprocess
        exact ⟨_, rfl⟩
      · rename_i hping
        rw [if_neg hping]
        obtain rfl := Option.some.inj hprocess
        exact ⟨(ws.closeWebSocket now).wsParser, rfl⟩

theorem perform_withParser (app : Application) (now : Nat) (ws : WebSocket)
    (p : WSProtocolParser) (deed : Deed) :
    perform app now (ws.withParser p) deed = (perform app now ws deed).withParser p := by
  cases deed with
  | refuse => exact ws.closeWebSocket_withParser p
  | message msg => exact ws.notify_withParser p app.onMessage _
  | closeFrame =>
      simp only [perform]
      by_cases hconnected : ws.connectionState = .connected
      · have hconnected' : (ws.withParser p).connectionState = .connected := hconnected
        rw [if_pos hconnected, if_pos hconnected', WebSocket.closeWebSocket_withParser]
        rfl
      · have hconnected' : (ws.withParser p).connectionState ≠ .connected := hconnected
        rw [if_neg hconnected, if_neg hconnected']
        rfl
  | ping buf => exact ws.sendData_withParser p _
  | nothing => rfl

/-- A turn performs its deed, and touches the parser. -/
theorem step_turn {app : Application} {now : Nat} {session next : Session}
    (hstep : session.step app (.turn now) = some next) :
    session.chunk ≠ [] ∧ ∃ p, next.ws = (perform app now session.ws session.deed).withParser p := by
  rw [step] at hstep
  split at hstep
  · cases hstep
  · rename_i hne
    refine ⟨hne, ?_⟩
    obtain ⟨iteration, hiterate, rfl⟩ := Option.map_eq_some_iff.mp hstep
    rw [WebSocket.iterate] at hiterate
    rw [deed]
    cases hparse : session.ws.wsParser.parseWSMessage session.chunk with
    | none => simp [hparse] at hiterate
    | some parsed =>
        obtain ⟨p, status, dataRead⟩ := parsed
        simp only [hparse] at hiterate
        cases status with
        | error =>
            obtain rfl := Option.some.inj hiterate
            exact ⟨p, session.ws.closeWebSocket_withParser p⟩
        | messageReady buffer headerSize payloadSize =>
            obtain ⟨ws, hprocess, rfl⟩ := Option.map_eq_some_iff.mp hiterate
            have hprocess' : (session.ws.withParser p).processWholeWSPacket app now buffer
                headerSize payloadSize = some ws := hprocess
            obtain ⟨q, hdeed⟩ := processWholeWSPacket_deed hprocess'
            rw [perform_withParser] at hdeed
            exact ⟨q, hdeed⟩
        | messageIncomplete =>
            obtain rfl := Option.some.inj hiterate
            exact ⟨p, rfl⟩

/-! ## What a deed changes -/

section Perform

variable (app : Application) (now : Nat) (ws : WebSocket) (deed : Deed)

/-- The pong that answers the bytes of a ping. -/
def pong (buf : List Byte) : List Byte :=
  WSHeader.toBytes { WSHeader.read buf with opcode := WS_PONG } ++ buf.drop WSHeader.size

/-- The buffers that a deed queues, in order. -/
def queued : List (List Byte) :=
  match deed with
  | .refuse => [WSProtocolParser.generateCloseMessage]
  | .message msg => ws.replies app.onMessage (.message msg)
  | .closeFrame =>
      if ws.connectionState = .connected then [WSProtocolParser.generateCloseMessage] else []
  | .ping buf => [pong buf]
  | .nothing => []

theorem perform_sendQueue :
    (perform app now ws deed).sendQueue = ws.sendQueue.putAll ((queued app ws deed).map .ofBytes) := by
  cases deed with
  | refuse => exact ws.sendData_sendQueue _
  | message msg =>
      rw [perform, WebSocket.notify_eq_sendAll, WebSocket.sendAll_sendQueue,
        WebSocket.called_sendQueue, queued]
  | closeFrame =>
      simp only [perform, queued]
      by_cases hconnected : ws.connectionState = .connected
      · rw [if_pos hconnected, if_pos hconnected]
        exact ws.sendData_sendQueue _
      · rw [if_neg hconnected, if_neg hconnected]
        rfl
  | ping buf => exact ws.sendData_sendQueue _
  | nothing => rfl

/-- The application is told about messages only. -/
def Deed.told (deed : Deed) (app : Application) : List Event :=
  match deed with
  | .message msg => if app.onMessage.isSome then [.message msg] else []
  | _ => []

theorem perform_log : (perform app now ws deed).log = ws.log ++ deed.told app := by
  cases deed with
  | refuse => exact (ws.sendData_log _).trans (List.append_nil _).symm
  | message msg =>
      rw [perform, WebSocket.notify_eq_sendAll, WebSocket.sendAll_log]
      cases hcallback : app.onMessage <;> simp [WebSocket.called, Deed.told, hcallback]
  | closeFrame =>
      simp only [perform, Deed.told, List.append_nil]
      split
      · exact ws.sendData_log _
      · rfl
  | ping buf => exact (ws.sendData_log _).trans (List.append_nil _).symm
  | nothing => exact (List.append_nil _).symm

@[simp] theorem perform_protocol : (perform app now ws deed).protocol = ws.protocol := by
  cases deed with
  | refuse => exact ws.sendData_protocol _
  | message msg =>
      rw [perform, WebSocket.notify_eq_sendAll, WebSocket.sendAll_protocol]
      cases hcallback : app.onMessage <;> rfl
  | closeFrame =>
      simp only [perform]
      split
      · exact ws.sendData_protocol _
      · rfl
  | ping buf => exact ws.sendData_protocol _
  | nothing => rfl

/-- The deed makes the connection abort, by itself or because the queue is full. -/
def Deed.aborts (deed : Deed) (app : Application) (ws : WebSocket) : Bool :=
  WebSocket.overflows ws.sendQueue (queued app ws deed) || decide (deed = .closeFrame)

theorem perform_connectionState (hrefuse : deed ≠ .refuse) :
    (perform app now ws deed).connectionState =
      if deed.aborts app ws = true then .closed else ws.connectionState := by
  cases deed with
  | refuse => exact absurd rfl hrefuse
  | message msg =>
      rw [perform, WebSocket.notify_eq_sendAll, WebSocket.sendAll_connectionState,
        WebSocket.called_sendQueue, WebSocket.called_connectionState]
      simp [Deed.aborts, queued]
  | closeFrame => simp [Deed.aborts, perform, WebSocket.abortWebSocket]
  | ping buf =>
      rw [show perform app now ws (.ping buf) = ws.sendAll [pong buf] from rfl,
        WebSocket.sendAll_connectionState]
      simp [Deed.aborts, queued]
  | nothing => rfl

end Perform

/-! ## What a step changes -/

/-- The buffers that a step queues. -/
def queuedBy (app : Application) (session : Session) : Action → List (List Byte)
  | .turn _ => queued app session.ws session.deed
  | .send call => call.frame?.toList
  | _ => []

/-- Being asked for data changes the queue and the current buffer only. -/
theorem getTxData_frame (ws : WebSocket) :
    ∃ current ring, ws.getTxData.2 =
      { ws with currentSendBuffer := current, txList := ring } := by
  rw [WebSocket.getTxData]
  split
  · exact ⟨_, _, rfl⟩
  · cases hcurrent : ws.currentSendBuffer with
    | some current =>
        rw [if_neg (by simp)]
        simp only [hcurrent]
        exact ⟨_, _, rfl⟩
    | none =>
        rw [if_pos rfl]
        generalize ws.txList.get = fetched
        obtain ⟨sendBuffer, txList⟩ := fetched
        cases sendBuffer with
        | none => exact ⟨_, _, rfl⟩
        | some sendBuffer => exact ⟨_, _, rfl⟩

theorem onDataSent_frame (ws : WebSocket) (size : Nat) :
    ∃ current, ws.onDataSent size = { ws with currentSendBuffer := current } := by
  rw [WebSocket.onDataSent]
  split
  · exact ⟨_, rfl⟩
  · dsimp only
    split <;> exact ⟨_, rfl⟩

/-- Only a connection that has been closing for long enough is aborted. -/
def TimedOut (ws : WebSocket) (now : Nat) : Prop :=
  ws.protocol = .webSocket ∧ ws.connectionState = .closing ∧
    now ≥ ws.closingTimeStamp + WebSocket.CLOSING_TIMEOUT

instance (ws : WebSocket) (now : Nat) : Decidable (TimedOut ws now) := by
  unfold TimedOut
  infer_instance

theorem watchdog_eq (ws : WebSocket) (now : Nat) :
    (ws.watchdog now).2 = if TimedOut ws now then ws.abortWebSocket else ws := by
  by_cases hout : TimedOut ws now
  · rw [if_pos hout, WebSocket.watchdog, if_neg (not_not_intro hout.1), if_pos hout.2]
  · rw [if_neg hout, WebSocket.watchdog]
    by_cases hprotocol : ws.protocol = .webSocket
    · rw [if_neg (not_not_intro hprotocol), if_neg fun hlong => hout ⟨hprotocol, hlong⟩]
    · rw [if_pos hprotocol]

/-- The step makes the connection abort: a full queue, a Close frame or the watchdog. -/
def aborts (app : Application) (session : Session) : Action → Bool
  | .turn _ => session.deed.aborts app session.ws
  | .send call => WebSocket.overflows session.ws.sendQueue call.frame?.toList
  | .watchdog now => decide (TimedOut session.ws now)
  | _ => false

/-- The step makes the connection start closing, whatever else it does. -/
def Refuses (session : Session) : Action → Prop
  | .turn _ => session.deed = .refuse
  | _ => False

/-- What the application is told in the step. -/
def told (app : Application) (session : Session) : Action → List Event
  | .turn _ => session.deed.told app
  | _ => []

theorem told_cases (app : Application) (session : Session) (action : Action) :
    session.told app action = [] ∨ ∃ msg, session.told app action = [.message msg] := by
  cases action with
  | turn now =>
      rw [told]
      cases hdeed : session.deed with
      | message msg =>
          rw [Deed.told]
          split
          · exact Or.inr ⟨msg, rfl⟩
          · exact Or.inl rfl
      | refuse => exact Or.inl rfl
      | closeFrame => exact Or.inl rfl
      | ping buf => exact Or.inl rfl
      | nothing => exact Or.inl rfl
  | receive buf => exact Or.inl rfl
  | send call => exact Or.inl rfl
  | getTxData => exact Or.inl rfl
  | onDataSent size => exact Or.inl rfl
  | watchdog now => exact Or.inl rfl

/-- What one step does to the state of a connection. -/
theorem step_connectionState {app : Application} {session next : Session} {action : Action}
    (hstep : session.step app action = some next) :
    (session.Refuses action ∧ next.ws.connectionState = .closing) ∨
      (¬ session.Refuses action ∧ next.ws.connectionState =
        if session.aborts app action = true then .closed else session.ws.connectionState) := by
  cases action with
  | receive buf =>
      rw [step] at hstep
      split at hstep
      · obtain rfl := Option.some.inj hstep
        exact Or.inr ⟨not_false, rfl⟩
      · cases hstep
  | turn now =>
      obtain ⟨-, p, hnext⟩ := step_turn hstep
      by_cases hrefuse : session.deed = .refuse
      · refine Or.inl ⟨hrefuse, ?_⟩
        rw [hnext, hrefuse]
        rfl
      · refine Or.inr ⟨hrefuse, ?_⟩
        rw [hnext]
        exact perform_connectionState app now session.ws session.deed hrefuse
  | send call =>
      obtain rfl := Option.some.inj hstep
      refine Or.inr ⟨not_false, ?_⟩
      rw [WebSocket.send_eq_sendAll]
      exact session.ws.sendAll_connectionState _
  | getTxData =>
      obtain rfl := Option.some.inj hstep
      obtain ⟨_, _, hframe⟩ := getTxData_frame session.ws
      exact Or.inr ⟨not_false, by rw [hframe]; rfl⟩
  | onDataSent size =>
      obtain rfl := Option.some.inj hstep
      obtain ⟨_, hframe⟩ := onDataSent_frame session.ws size
      exact Or.inr ⟨not_false, by rw [hframe]; rfl⟩
  | watchdog now =>
      obtain rfl := Option.some.inj hstep
      refine Or.inr ⟨not_false, ?_⟩
      simp only [watchdog_eq, aborts, decide_eq_true_eq]
      split <;> rfl

/-- The protocol does not change any more, and the log grows by what is told. -/
theorem step_protocol_log {app : Application} {session next : Session} {action : Action}
    (hstep : session.step app action = some next) :
    next.ws.protocol = session.ws.protocol ∧
      next.ws.log = session.ws.log ++ session.told app action := by
  cases action with
  | receive buf =>
      rw [step] at hstep
      split at hstep
      · obtain rfl := Option.some.inj hstep
        exact ⟨rfl, (List.append_nil _).symm⟩
      · cases hstep
  | turn now =>
      obtain ⟨-, p, hnext⟩ := step_turn hstep
      rw [hnext]
      exact ⟨perform_protocol app now session.ws session.deed,
        perform_log app now session.ws session.deed⟩
  | send call =>
      obtain rfl := Option.some.inj hstep
      simp only [WebSocket.send_eq_sendAll]
      exact ⟨session.ws.sendAll_protocol _, by simp [told]⟩
  | getTxData =>
      obtain rfl := Option.some.inj hstep
      obtain ⟨_, _, hframe⟩ := getTxData_frame session.ws
      simp only [hframe]
      exact ⟨trivial, (List.append_nil _).symm⟩
  | onDataSent size =>
      obtain rfl := Option.some.inj hstep
      obtain ⟨_, hframe⟩ := onDataSent_frame session.ws size
      simp only [hframe]
      exact ⟨trivial, (List.append_nil _).symm⟩
  | watchdog now =>
      obtain rfl := Option.some.inj hstep
      simp only [watchdog_eq]
      split <;> exact ⟨rfl, (List.append_nil _).symm⟩

/-- Apart from handing bytes out, a step does to the queue what its buffers do. -/
theorem step_sendQueue {app : Application} {session next : Session} {action : Action}
    (hstep : session.step app action = some next) (hasked : action ≠ .getTxData)
    (hsent : ∀ size, action ≠ .onDataSent size) :
    next.ws.sendQueue =
      session.ws.sendQueue.putAll ((session.queuedBy app action).map .ofBytes) := by
  cases action with
  | receive buf =>
      rw [step] at hstep
      split at hstep
      · obtain rfl := Option.some.inj hstep
        rfl
      · cases hstep
  | turn now =>
      obtain ⟨-, p, hnext⟩ := step_turn hstep
      rw [hnext]
      exact perform_sendQueue app now session.ws session.deed
  | send call =>
      obtain rfl := Option.some.inj hstep
      simp only [WebSocket.send_eq_sendAll]
      exact session.ws.sendAll_sendQueue _
  | getTxData => exact absurd rfl hasked
  | onDataSent size => exact absurd rfl (hsent size)
  | watchdog now =>
      obtain rfl := Option.some.inj hstep
      simp only [watchdog_eq]
      split <;> rfl

/-- Each returning call of `processData` is a run of turns. -/
theorem reaches_of_processData {app : Application} {now fuel : Nat} {start : Session}
    {ws next : WebSocket} {buf : List Byte} {alive : Bool}
    (hreaches : Reaches (step app) (fun _ _ => True) start ⟨ws, []⟩)
    (hprotocol : ws.protocol = .webSocket)
    (hprocess : ws.processData app now fuel buf = .finished (alive, next)) :
    Reaches (step app) (fun _ _ => True) start ⟨next, []⟩ ∧
      alive = decide (next.connectionState ≠ .closed) := by
  rw [WebSocket.processData, hprotocol] at hprocess
  simp only at hprocess
  split at hprocess
  · cases hprocess
  · cases hprocess
  · rename_i hloop
    obtain ⟨rfl, rfl⟩ := Prod.mk.inj (Outcome.finished.inj hprocess)
    have hreceive : step app ⟨ws, []⟩ (.receive buf) = some ⟨ws, buf⟩ := by simp [step]
    have hreceived := hreaches.step trivial hreceive
    exact ⟨reaches_of_receiveLoop (fun _ => trivial) hreceived hloop, rfl⟩

/-! ## The handshake -/

/-- The connection with the parser's new state, the request in the log and the answer queued. -/
def answered (ws : WebSocket) (httpParser : HTTPProtocolParser) (asked : List Event)
    (answers : List (List Byte)) : WebSocket :=
  WebSocket.sendAll { ws with httpParser := httpParser, log := ws.log ++ asked } answers

/-- The switch of the protocol. -/
def switched (app : Application) (ws : WebSocket) : WebSocket :=
  WebSocket.notify { ws with protocol := .webSocket, connectionState := .connected }
    app.onNewConnection .newConnection

/-- The request handler is the only one called before the switch. -/
def IsRequest : Event → Prop
  | .webSocketRequest _ _ => True
  | _ => False

/-- A chunk of the HTTP request is answered, and may switch the protocol. -/
theorem checkHTTPBuffer_cases {app : Application} {ws next : WebSocket} {buffer : List Byte}
    (hcheck : ws.checkHTTPBuffer app buffer = some next) :
    ∃ httpParser asked answers, (∀ event ∈ asked, IsRequest event) ∧
      (next = answered ws httpParser asked answers ∨
        next = switched app (answered ws httpParser asked answers)) := by
  rw [WebSocket.checkHTTPBuffer] at hcheck
  split at hcheck
  · cases hcheck
  · rename_i httpParser req _
    have hquiet : { ws with httpParser := httpParser } = answered ws httpParser [] [] := by
      simp [answered, WebSocket.sendAll]
    dsimp only at hcheck
    split at hcheck
    · obtain rfl := Option.some.inj hcheck
      exact ⟨httpParser, [], [], List.forall_mem_nil _, Or.inl hquiet⟩
    · split at hcheck
      · obtain rfl := Option.some.inj hcheck
        exact ⟨httpParser, [], [], List.forall_mem_nil _, Or.inl hquiet⟩
      · split at hcheck
        · obtain rfl := Option.some.inj hcheck
          rw [hquiet]
          exact ⟨httpParser, [], [_], List.forall_mem_nil _, Or.inl rfl⟩
        · have hasked : ∀ event ∈ [Event.webSocketRequest req.resource req.protocols],
              IsRequest event := List.forall_mem_singleton.mpr trivial
          split at hcheck
          · obtain rfl := Option.some.inj hcheck
            exact ⟨httpParser, _, [_], hasked, Or.inl rfl⟩
          · split at hcheck
            · obtain rfl := Option.some.inj hcheck
              exact ⟨httpParser, _, [], hasked, Or.inl rfl⟩
            · obtain rfl := Option.some.inj hcheck
              exact ⟨httpParser, _, [_], hasked, Or.inr rfl⟩

/-- What the handshake and every step preserve holds in every state of a connection; turns
are only taken after the handshake. -/
theorem reachable_invariant {app : Application} (inv : WebSocket → Prop)
    (hcreate : ∀ closingTimeStamp connectionState fresh,
      inv (.create closingTimeStamp connectionState fresh))
    (hhandshake : ∀ (ws next : WebSocket) (buffer : List Byte), inv ws → ws.protocol = .http →
      ws.checkHTTPBuffer app buffer = some next → inv next)
    (hstep : ∀ (session next : Session) (action : Action), inv session.ws →
      (∀ now, action = .turn now → session.ws.protocol = .webSocket) →
      session.step app action = some next → inv next.ws)
    {ws : WebSocket} (hreach : WebSocket.Reachable app ws) : inv ws := by
  induction hreach with
  | create closingTimeStamp connectionState fresh => exact hcreate _ _ _
  | @processData ws next now fuel buf alive _ _ hprocess ih =>
      cases hprotocol : ws.protocol with
      | http =>
          rw [WebSocket.processData, hprotocol] at hprocess
          simp only at hprocess
          split at hprocess
          · cases hprocess
          · rename_i hcheck
            obtain ⟨-, rfl⟩ := Prod.mk.inj (Outcome.finished.inj hprocess)
            exact hhandshake ws _ buf ih hprotocol hcheck
      | webSocket =>
          have hstart : Reaches (step app) (fun _ _ => True) ⟨ws, []⟩ ⟨ws, []⟩ := .start
          obtain ⟨hreaches, -⟩ := reaches_of_processData hstart hprotocol hprocess
          have hboth := @Reaches.invariant _ _ _ _ _ _
            (fun session : Session => session.ws.protocol = .webSocket ∧ inv session.ws)
            ⟨hprotocol, ih⟩ (fun session action next hinv _ hnext =>
              ⟨(step_protocol_log hnext).1.trans hinv.1,
                hstep session next action hinv.2 (fun _ _ => hinv.1) hnext⟩) hreaches
          exact hboth.2
  | send call _ ih => exact hstep ⟨_, []⟩ _ (.send call) ih (fun _ => Action.noConfusion) rfl
  | getTxData _ ih => exact hstep ⟨_, []⟩ _ .getTxData ih (fun _ => Action.noConfusion) rfl
  | onDataSent size _ ih => exact hstep ⟨_, []⟩ _ (.onDataSent size) ih (fun _ => Action.noConfusion) rfl
  | watchdog now _ ih => exact hstep ⟨_, []⟩ _ (.watchdog now) ih (fun _ => Action.noConfusion) rfl

/-! ## Connections after the handshake -/

/-- The connection has just completed the handshake. -/
def Opened (app : Application) (ws : WebSocket) : Prop :=
  ∃ (before : WebSocket) (now fuel : Nat) (buf : List Byte) (alive : Bool),
    WebSocket.Reachable app before ∧ before.protocol = .http ∧ buf.length < 2 ^ 64 ∧
      before.processData app now fuel buf = .finished (alive, ws) ∧ ws.protocol = .webSocket

/-- A state of a connection after its handshake. -/
def Run (app : Application) (session : Session) : Prop :=
  ∃ ws, Opened app ws ∧ Reaches (step app) (fun _ _ => True) ⟨ws, []⟩ session

theorem Run.protocol {app : Application} {session : Session} (hrun : Run app session) :
    session.ws.protocol = .webSocket := by
  obtain ⟨ws, ⟨_, _, _, _, _, _, _, _, _, hopened⟩, hreaches⟩ := hrun
  induction hreaches with
  | start => exact hopened
  | step _ _ hstep ih => exact (step_protocol_log hstep).1.trans ih

/-! ## A connection for examples -/

/-- The connection that the shortest request opens. -/
def helloSocket : WebSocket :=
  ((WebSocket.create 0 .closed fun _ => ⟨[], 0, 0, false⟩).checkHTTPBuffer WebSocket.acceptAll
    (Text.toBytes "GET / \r\nSec-WebSocket-Key:k\r\n\r\n".toList)).getD
      (.create 0 .closed fun _ => ⟨[], 0, 0, false⟩)

theorem helloSocket_opened : Opened WebSocket.acceptAll helloSocket := by
  let fresh := WebSocket.create 0 .closed fun _ => ⟨[], 0, 0, false⟩
  let request := Text.toBytes "GET / \r\nSec-WebSocket-Key:k\r\n\r\n".toList
  have hsome : (fresh.checkHTTPBuffer WebSocket.acceptAll request).isSome = true := by
    decide +kernel
  have hprotocol : helloSocket.protocol = .webSocket := by
    decide +kernel
  obtain ⟨ws, hcheck⟩ := Option.isSome_iff_exists.mp hsome
  have hws : helloSocket = ws := by
    rw [helloSocket, hcheck]
    rfl
  have hprocess : fresh.processData WebSocket.acceptAll 0 0 request =
      .finished (true, helloSocket) := by
    rw [WebSocket.processData, show fresh.protocol = .http from rfl]
    simp only [hcheck, hws]
  exact ⟨fresh, 0, 0, request, true, .create _ _ _, rfl, by decide, hprocess, hprotocol⟩

/-- The states after a list of actions, beginning with the connection above. -/
theorem hello_run {session : Session} {actions : List Action}
    (hlast : runAll (step WebSocket.acceptAll) ⟨helloSocket, []⟩ actions = some session) :
    Run WebSocket.acceptAll session := by
  have hstart : Reaches (step WebSocket.acceptAll) (fun _ _ => True) ⟨helloSocket, []⟩
      ⟨helloSocket, []⟩ := .start
  exact ⟨helloSocket, helloSocket_opened, hstart.runAll (fun _ _ _ => trivial) hlast⟩

end Session

end DumaisLib.WebSocket
