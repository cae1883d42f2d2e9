import DumaisLib.WebSocket.Session

/-!
# The callbacks of a connection's life

The log of a connection is the requests that the handler was asked about, then
the announcement of the connection, then its messages.  The destructor reports
the end of every connection, also of one that was never announced.
-/

set_option linter.dupNamespace false

namespace DumaisLib.WebSocket

open DumaisLib.Utils Machine

namespace Event

def isNewConnection : Event → Bool
  | .newConnection => true
  | _ => false

def isConnectionClosed : Event → Bool
  | .connectionClosed => true
  | _ => false

def isMessage : Event → Bool
  | .message _ => true
  | _ => false

end Event

/-- The connection is announced once at most, its end is reported exactly if it was
announced, and messages come in between. -/
structure Paired (calls : List Event) : Prop where
  closed : calls.countP Event.isConnectionClosed = if calls.any Event.isNewConnection then 1 else 0
  new : calls.countP Event.isNewConnection ≤ 1
  messages : ∀ before msg after, calls = before ++ .message msg :: after →
    before.any Event.isNewConnection ∧ ¬ before.any Event.isConnectionClosed ∧
      after.any Event.isConnectionClosed

namespace WebSocket

/-- Whether the application has been told of the connection. -/
def Announced (app : Application) (ws : WebSocket) : Prop :=
  ws.protocol = .webSocket ∧ app.onNewConnection.isSome

instance (app : Application) (ws : WebSocket) : Decidable (Announced app ws) := by
  unfold Announced
  infer_instance

/-- The announcement of the connection, if there was one. -/
def announcement (app : Application) (ws : WebSocket) : List Event :=
  if Announced app ws then [.newConnection] else []

/-- The log: requests, the announcement and messages. -/
structure Logged (app : Application) (ws : WebSocket) (asked told : List Event) : Prop where
  log_eq : ws.log = asked ++ (announcement app ws ++ told)
  asked_requests : ∀ event ∈ asked, Session.IsRequest event
  told_messages : ∀ event ∈ told, event.isMessage = true
  http : ws.protocol = .http → told = []

end WebSocket

namespace Session

variable {app : Application}

theorem told_messages (app : Application) (session : Session) (action : Action) :
    ∀ event ∈ session.told app action, event.isMessage = true := by
  rcases told_cases app session action with hnone | ⟨msg, hmsg⟩
  · rw [hnone]
    exact List.forall_mem_nil _
  · rw [hmsg]
    exact List.forall_mem_singleton.mpr rfl

theorem announcement_http {ws : WebSocket} (hprotocol : ws.protocol = .http) :
    ws.announcement app = [] := by
  rw [WebSocket.announcement, if_neg]
  rintro ⟨hwebSocket, -⟩
  rw [hprotocol] at hwebSocket
  cases hwebSocket

theorem logged_checkHTTPBuffer {ws next : WebSocket} {buffer : List Byte} {asked told : List Event}
    (hlogged : ws.Logged app asked told) (hprotocol : ws.protocol = .http)
    (hcheck : ws.checkHTTPBuffer app buffer = some next) :
    ∃ asked told, next.Logged app asked told := by
  obtain ⟨httpParser, more, answers, hmore, hnext⟩ := checkHTTPBuffer_cases hcheck
  have hlog : ws.log = asked := by
    rw [hlogged.log_eq, announcement_http hprotocol, hlogged.http hprotocol, List.append_nil,
      List.append_nil]
  have hrequests : ∀ event ∈ asked ++ more, IsRequest event :=
    List.forall_mem_append.mpr ⟨hlogged.asked_requests, hmore⟩
  have hanswered : (answered ws httpParser more answers).log = asked ++ more ∧
      (answered ws httpParser more answers).protocol = .http := by
    rw [answered, WebSocket.sendAll_log, WebSocket.sendAll_protocol, ← hlog]
    exact ⟨rfl, hprotocol⟩
  refine ⟨asked ++ more, [], ?_⟩
  rcases hnext with rfl | rfl
  · refine ⟨?_, hrequests, List.forall_mem_nil _, fun _ => rfl⟩
    rw [hanswered.1, announcement_http hanswered.2, List.append_nil, List.append_nil]
  · refine ⟨?_, hrequests, List.forall_mem_nil _, fun _ => rfl⟩
    simp only [switched, WebSocket.notify_eq_sendAll, WebSocket.sendAll_log,
      WebSocket.announcement, WebSocket.Announced, WebSocket.sendAll_protocol, List.append_nil]
    cases hcallback : app.onNewConnection with
    | none => simp [WebSocket.called, hanswered.1]
    | some reply => simp [WebSocket.called, hanswered.1]

theorem logged_step {session next : Session} {action : Action} {asked told : List Event}
    (hlogged : session.ws.Logged app asked told)
    (hturn : ∀ now, action = .turn now → session.ws.protocol = .webSocket)
    (hstep : session.step app action = some next) :
    next.ws.Logged app asked (told ++ session.told app action) := by
  obtain ⟨hprotocol, hlog⟩ := step_protocol_log hstep
  refine ⟨?_, hlogged.asked_requests, ?_, ?_⟩
  · have hsame : next.ws.announcement app = session.ws.announcement app := by
      simp only [WebSocket.announcement, WebSocket.Announced, hprotocol]
    rw [hlog, hlogged.log_eq, hsame, List.append_assoc, List.append_assoc]
  · exact List.forall_mem_append.mpr ⟨hlogged.told_messages, told_messages app session action⟩
  · intro hhttp
    rw [hprotocol] at hhttp
    rw [hlogged.http hhttp, List.nil_append]
    cases action with
    | turn now =>
        rw [hturn now rfl] at hhttp
        cases hhttp
    | receive buf => rfl
    | send call => rfl
    | getTxData => rfl
    | onDataSent size => rfl
    | watchdog now => rfl

theorem reachable_logged {ws : WebSocket} (hreach : WebSocket.Reachable app ws) :
    ∃ asked told, ws.Logged app asked told := by
  refine reachable_invariant (fun ws => ∃ asked told, ws.Logged app asked told) ?_ ?_ ?_ hreach
  · intro closingTimeStamp connectionState fresh
    refine ⟨[], [], ?_, List.forall_mem_nil _, List.forall_mem_nil _, fun _ => rfl⟩
    rw [announcement_http (show (WebSocket.create _ _ _).protocol = .http from rfl)]
    rfl
  · rintro ws next buffer ⟨asked, told, hlogged⟩ hprotocol hcheck
    exact logged_checkHTTPBuffer hlogged hprotocol hcheck
  · rintro session next action ⟨asked, told, hlogged⟩ hturn hstep
    exact ⟨asked, _, logged_step hlogged hturn hstep⟩

end Session

/-! ## The callbacks of a whole life -/

variable {α : Type*}

/-- What stands in the right part of a list is behind the left part. -/
theorem split_right {left right before after : List α} {item : α}
    (hsplit : left ++ right = before ++ item :: after) (hitem : item ∉ left) :
    ∃ between, before = left ++ between ∧ right = between ++ item :: after := by
  rcases List.append_eq_append_iff.mp hsplit with ⟨between, hbefore, hright⟩ | ⟨rest, hleft, hrest⟩
  · exact ⟨between, hbefore, hright⟩
  · cases rest with
    | nil => exact ⟨[], by rw [List.append_nil, hleft, List.append_nil], hrest.symm⟩
    | cons head rest =>
        obtain ⟨rfl, -⟩ := List.cons.inj hrest
        exact absurd (hleft ▸ List.mem_append_right before List.mem_cons_self) hitem

/-- What stands in the left part of a list is before the right part. -/
theorem split_left {left right before after : List α} {item : α}
    (hsplit : left ++ right = before ++ item :: after) (hitem : item ∉ right) :
    ∃ between, left = before ++ item :: between ∧ after = between ++ right := by
  rcases List.append_eq_append_iff.mp hsplit with ⟨between, -, hright⟩ | ⟨rest, hleft, hrest⟩
  · exact absurd (hright ▸ List.mem_append_right between List.mem_cons_self) hitem
  · cases rest with
    | nil =>
        have hright : item :: after = right := hrest
        exact absurd (hright ▸ List.mem_cons_self) hitem
    | cons head rest =>
        obtain ⟨rfl, hafter⟩ := List.cons.inj hrest
        exact ⟨rest, hleft, hafter⟩

namespace WebSocket

variable {app : Application} {ws : WebSocket}

/-- The end of the connection, if the application is told of it. -/
def farewell (app : Application) : List Event :=
  if app.onConnectionClosed then [.connectionClosed] else []

theorem Logged.destroy_eq {asked told : List Event} (hlogged : ws.Logged app asked told) :
    ws.destroy app = (asked ++ ws.announcement app) ++ (told ++ farewell app) := by
  rw [destroy, farewell]
  split
  · rw [hlogged.log_eq]
    simp
  · rw [hlogged.log_eq]
    simp

theorem Logged.kinds {asked told : List Event} (hlogged : ws.Logged app asked told) :
    (∀ event ∈ asked, event.isNewConnection = false ∧ event.isConnectionClosed = false ∧
        event.isMessage = false) ∧
      ∀ event ∈ told, event.isNewConnection = false ∧ event.isConnectionClosed = false := by
  constructor
  · intro event hevent
    have hrequest := hlogged.asked_requests event hevent
    cases event with
    | webSocketRequest resource protocols => exact ⟨rfl, rfl, rfl⟩
    | newConnection => exact hrequest.elim
    | message msg => exact hrequest.elim
    | connectionClosed => exact hrequest.elim
  · intro event hevent
    have hmessage := hlogged.told_messages event hevent
    cases event with
    | message msg => exact ⟨rfl, rfl⟩
    | webSocketRequest resource protocols => cases hmessage
    | newConnection => cases hmessage
    | connectionClosed => cases hmessage

/-- Neither requests nor messages count as the beginning or the end of a connection. -/
theorem Logged.countP_destroy {asked told : List Event} (hlogged : ws.Logged app asked told)
    {kind : Event → Bool} (hasked : ∀ event ∈ asked, kind event = false)
    (htold : ∀ event ∈ told, kind event = false) :
    (ws.destroy app).countP kind =
      (ws.announcement app).countP kind + (farewell app).countP kind := by
  have hasked' : asked.countP kind = 0 :=
    List.countP_eq_zero.mpr fun event hevent => by simp [hasked event hevent]
  have htold' : told.countP kind = 0 :=
    List.countP_eq_zero.mpr fun event hevent => by simp [htold event hevent]
  rw [hlogged.destroy_eq, List.countP_append, List.countP_append, List.countP_append, hasked',
    htold', Nat.zero_add, Nat.zero_add]

theorem Logged.count_new {asked told : List Event} (hlogged : ws.Logged app asked told) :
    (ws.destroy app).countP Event.isNewConnection = if Announced app ws then 1 else 0 := by
  obtain ⟨hasked, htold⟩ := hlogged.kinds
  have hfarewell : (farewell app).countP Event.isNewConnection = 0 := by
    rw [farewell]
    split <;> rfl
  rw [hlogged.countP_destroy (fun event hevent => (hasked event hevent).1)
    fun event hevent => (htold event hevent).1, hfarewell, announcement]
  split <;> rfl

theorem Logged.any_new {asked told : List Event} (hlogged : ws.Logged app asked told) :
    (ws.destroy app).any Event.isNewConnection = decide (Announced app ws) := by
  rw [Bool.eq_iff_iff, List.any_eq_true, ← List.countP_pos_iff, hlogged.count_new,
    decide_eq_true_iff]
  by_cases hannounced : Announced app ws
  · simp [hannounced]
  · simp [hannounced]

theorem Logged.count_closed {asked told : List Event} (hlogged : ws.Logged app asked told) :
    (ws.destroy app).countP Event.isConnectionClosed = if app.onConnectionClosed then 1 else 0 := by
  obtain ⟨hasked, htold⟩ := hlogged.kinds
  have hannouncement : (ws.announcement app).countP Event.isConnectionClosed = 0 := by
    rw [announcement]
    split <;> rfl
  rw [hlogged.countP_destroy (fun event hevent => (hasked event hevent).2.1)
    fun event hevent => (htold event hevent).2, hannouncement, farewell]
  cases app.onConnectionClosed <;> rfl

/-- A message stands between the announcement and the end. -/
theorem Logged.message_between {asked told before after : List Event} {msg : WebSocketMessage}
    (hlogged : ws.Logged app asked told) (hannounced : Announced app ws)
    (hclosed : app.onConnectionClosed = true)
    (hsplit : ws.destroy app = before ++ .message msg :: after) :
    before.any Event.isNewConnection ∧ ¬ before.any Event.isConnectionClosed ∧
      after.any Event.isConnectionClosed := by
  obtain ⟨hasked, htold⟩ := hlogged.kinds
  have hannouncement : ws.announcement app = [.newConnection] := if_pos hannounced
  have hfarewell : farewell app = [.connectionClosed] := if_pos hclosed
  rw [hlogged.destroy_eq, hannouncement, hfarewell] at hsplit
  have hleft : Event.message msg ∉ asked ++ [.newConnection] := by
    intro hmem
    rcases List.mem_append.mp hmem with hold | hnew
    · exact Bool.noConfusion ((hasked _ hold).2.2.symm.trans rfl : false = true)
    · cases List.mem_singleton.mp hnew
  have hright : Event.message msg ∉ [Event.connectionClosed] := by
    intro hmem
    cases List.mem_singleton.mp hmem
  obtain ⟨between, rfl, hrest⟩ := split_right hsplit hleft
  obtain ⟨later, rfl, rfl⟩ := split_left hrest hright
  refine ⟨?_, ?_, ?_⟩
  · simp [Event.isNewConnection]
  · rw [Bool.not_eq_true, List.any_eq_false]
    intro event hevent
    rcases List.mem_append.mp hevent with hfirst | hbetween
    · rcases List.mem_append.mp hfirst with hold | hnew
      · simp [(hasked event hold).2.1]
      · rw [List.mem_singleton.mp hnew]
        exact Bool.noConfusion
    · simp [(htold event (List.mem_append_left _ hbetween)).2]
  · simp [Event.isConnectionClosed]

/-- Begun and ended once each, or neither. -/
theorem Logged.closed_iff {asked told : List Event} (hlogged : ws.Logged app asked told) :
    ((ws.destroy app).countP Event.isConnectionClosed =
        if (ws.destroy app).any Event.isNewConnection then 1 else 0) ↔
      (app.onConnectionClosed = true ↔ Announced app ws) := by
  rw [hlogged.count_closed, hlogged.any_new]
  by_cases hannounced : Announced app ws
  · cases app.onConnectionClosed <;> simp [hannounced]
  · cases app.onConnectionClosed <;> simp [hannounced]

theorem message_of_destroy {msg : WebSocketMessage} (hmem : .message msg ∈ ws.destroy app) :
    .message msg ∈ ws.log := by
  rw [destroy] at hmem
  split at hmem
  · rcases List.mem_append.mp hmem with hold | hend
    · exact hold
    · cases List.mem_singleton.mp hend
  · exact hmem

/-- A connection that has had a message is past its handshake. -/
theorem Logged.protocol_of_message {asked told : List Event} (hlogged : ws.Logged app asked told)
    {msg : WebSocketMessage} (hlog : .message msg ∈ ws.log) : ws.protocol = .webSocket := by
  cases hstate : ws.protocol with
  | webSocket => rfl
  | http =>
      have hall := hlogged.log_eq
      rw [Session.announcement_http hstate, hlogged.http hstate, List.append_nil,
        List.append_nil] at hall
      have hkind := (hlogged.kinds.1 _ (hall ▸ hlog)).2.2
      cases hkind

/-- A message that the announcement stands before was announced. -/
theorem Logged.announced_of_paired {asked told : List Event} (hlogged : ws.Logged app asked told)
    (hpaired : Paired (ws.destroy app)) {msg : WebSocketMessage} (hmsg : .message msg ∈ ws.log) :
    Announced app ws := by
  obtain ⟨before, after, hlog⟩ := List.append_of_mem hmsg
  have hsplit : ws.destroy app = before ++ .message msg :: (after ++ farewell app) := by
    rw [destroy, farewell, hlog]
    split <;> simp
  obtain ⟨hnew, -, -⟩ := hpaired.messages _ _ _ hsplit
  have hany : (ws.destroy app).any Event.isNewConnection = true := by
    rw [hsplit, List.any_append, hnew, Bool.true_or]
  rw [hlogged.any_new] at hany
  exact of_decide_eq_true hany

/--
For every application and every state in which a connection is destroyed: the
callbacks are paired exactly when the end is reported if and only if the
connection was announced, and no unannounced connection has had a message.
-/
theorem callbacks_paired_iff (hreach : Reachable app ws) :
    Paired (ws.destroy app) ↔
      (app.onConnectionClosed = true ↔ Announced app ws) ∧
        ∀ msg, .message msg ∈ ws.log → app.onNewConnection.isSome := by
  obtain ⟨asked, told, hlogged⟩ := Session.reachable_logged hreach
  constructor
  · intro hpaired
    exact ⟨hlogged.closed_iff.mp hpaired.closed,
      fun msg hmsg => (hlogged.announced_of_paired hpaired hmsg).2⟩
  · rintro ⟨hclosed, hmessages⟩
    refine ⟨hlogged.closed_iff.mpr hclosed, ?_, fun before msg after hsplit => ?_⟩
    · rw [hlogged.count_new]
      split
      · exact Nat.le_refl _
      · exact Nat.zero_le _
    · have hmem : .message msg ∈ ws.destroy app :=
        hsplit ▸ List.mem_append_right _ List.mem_cons_self
      have hlog := message_of_destroy hmem
      have hannounced : Announced app ws := ⟨hlogged.protocol_of_message hlog, hmessages msg hlog⟩
      exact hlogged.message_between hannounced (hclosed.mpr hannounced) hsplit

/-- An application that is told of everything, and accepts every request. -/
def greeter : Application :=
  { acceptAll with onNewConnection := some fun _ => [], onConnectionClosed := true }

theorem callbacks_paired_iff_greeted :
    ∃ ws, Reachable greeter ws ∧ Paired (ws.destroy greeter) := by
  let fresh := create 0 .closed fun _ => ⟨[], 0, 0, false⟩
  let request := Text.toBytes "GET / \r\nSec-WebSocket-Key:k\r\n\r\n".toList
  have hopens : (fresh.checkHTTPBuffer greeter request).map (·.protocol) = some .webSocket := by
    decide +kernel
  obtain ⟨ws, hcheck, hprotocol⟩ := Option.map_eq_some_iff.mp hopens
  have hprocess : fresh.processData greeter 0 0 request = .finished (true, ws) := by
    rw [WebSocket.processData, show fresh.protocol = .http from rfl]
    simp only [hcheck]
  have hreach : Reachable greeter ws := .processData (.create _ _ _) (by decide) hprocess
  exact ⟨ws, hreach, (callbacks_paired_iff hreach).mpr
    ⟨iff_of_true rfl ⟨hprotocol, rfl⟩, fun _ _ => rfl⟩⟩

/-- A client that connects and goes away is reported as a closed connection. -/
theorem silent_client_is_reported :
    ¬ ∀ ws, Reachable greeter ws → Paired (ws.destroy greeter) := by
  intro hall
  have hpaired := hall (create 0 .closed fun _ => ⟨[], 0, 0, false⟩) (.create _ _ _)
  exact absurd hpaired.closed (by decide)

end WebSocket

end DumaisLib.WebSocket
