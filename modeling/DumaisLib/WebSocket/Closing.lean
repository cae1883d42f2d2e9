import DumaisLib.WebSocket.Session

/-!
# The end of a connection

What may still be sent once the server has begun to close a connection, and
what may still happen to one that is closed.
-/

set_option linter.dupNamespace false

namespace DumaisLib.WebSocket

open DumaisLib.Utils Machine

namespace Session

variable {app : Application} {session next : Session} {action : Action}

/-! ## The ring stays in order -/

theorem sendAll_wellFormed {ws : WebSocket} (hwf : ws.txList.WellFormed)
    (buffers : List (List Byte)) : (ws.sendAll buffers).txList.WellFormed := by
  have hqueue : (ws.sendAll buffers).txList = _ :=
    congrArg SendQueue.waiting (ws.sendAll_sendQueue buffers)
  rw [hqueue]
  exact SendQueue.putAll_wellFormed hwf _

theorem step_wellFormed (hwf : session.ws.txList.WellFormed)
    (hstep : session.step app action = some next) : next.ws.txList.WellFormed := by
  by_cases hasked : action = .getTxData
  · subst hasked
    obtain rfl := Option.some.inj hstep
    change session.ws.getTxData.2.txList.WellFormed
    by_cases hgate : session.ws.protocol = .webSocket ∧ session.ws.connectionState ≠ .connected
    · rw [WebSocket.getTxData, if_pos hgate]
      exact hwf
    · have hopen : session.ws.IsOpen := fun hprotocol => by
        by_contra hstate
        exact hgate ⟨hprotocol, hstate⟩
      obtain ⟨-, hqueue, -, -⟩ := WebSocket.getTxData_of_isOpen hopen
      have hwf' : session.ws.sendQueue.waiting.WellFormed := hwf
      obtain ⟨hwf', -, -⟩ := SendQueue.fetch_buffers hwf'
      rwa [← hqueue] at hwf'
  · by_cases hsent : ∃ size, action = .onDataSent size
    · obtain ⟨size, rfl⟩ := hsent
      obtain rfl := Option.some.inj hstep
      obtain ⟨_, hframe⟩ := onDataSent_frame session.ws size
      simp only [hframe]
      exact hwf
    · have hqueue := step_sendQueue hstep hasked fun size heq => hsent ⟨size, heq⟩
      have hring : next.ws.txList = _ := congrArg SendQueue.waiting hqueue
      rw [hring]
      exact SendQueue.putAll_wellFormed hwf _

theorem reachable_wellFormed {ws : WebSocket} (hreach : WebSocket.Reachable app ws) :
    ws.txList.WellFormed := by
  refine reachable_invariant (fun ws => ws.txList.WellFormed) ?_ ?_ ?_ hreach
  · exact fun _ _ fresh => MPSCRingBuffer.wellFormed_create fresh
  · intro ws next buffer hwf _ hcheck
    obtain ⟨httpParser, asked, answers, -, hnext⟩ := checkHTTPBuffer_cases hcheck
    have hlogged : ({ ws with httpParser := httpParser, log := ws.log ++ asked } :
        WebSocket).txList.WellFormed := hwf
    have hanswered : (answered ws httpParser asked answers).txList.WellFormed :=
      sendAll_wellFormed hlogged answers
    rcases hnext with rfl | rfl
    · exact hanswered
    · rw [switched, WebSocket.notify_eq_sendAll]
      refine sendAll_wellFormed ?_ _
      rw [show ∀ ws : WebSocket, ws.txList = ws.sendQueue.waiting from fun _ => rfl,
        WebSocket.called_sendQueue]
      exact hanswered
  · exact fun session next action hwf _ hstep => step_wellFormed hwf hstep

theorem Run.reachable_start {ws : WebSocket} (hopened : Opened app ws) :
    WebSocket.Reachable app ws := by
  obtain ⟨_, _, _, _, _, hbefore, -, hbuf, hprocess, -⟩ := hopened
  exact .processData hbefore hbuf hprocess

theorem Run.wellFormed (hrun : Run app session) : session.ws.txList.WellFormed := by
  obtain ⟨ws, hopened, hreaches⟩ := hrun
  induction hreaches with
  | start => exact reachable_wellFormed (Run.reachable_start hopened)
  | step _ _ hstep ih => exact step_wellFormed ih hstep

/-! ## Closing -/

/-- The Close frame as it waits to be sent. -/
def closeBuffer : SendBuffer :=
  .ofBytes WSProtocolParser.generateCloseMessage

/--
As long as the connection is closing and the Close frame has not gone out, the
sender is given something to send.
-/
def CloseAvailable (app : Application) (session : Session) : Prop :=
  ∀ later, Reaches (step app) (fun _ _ => True) session later →
    later.ws.connectionState = .closing → closeBuffer ∈ later.ws.sendQueue.buffers →
      later.ws.getTxData.1.2 ≠ 0

/-- No step makes a connection Connected again. -/
theorem step_not_connected (hstep : session.step app action = some next)
    (hstate : session.ws.connectionState ≠ .connected) : next.ws.connectionState ≠ .connected := by
  rcases step_connectionState hstep with ⟨-, hclosing⟩ | ⟨-, hnext⟩
  · rw [hclosing]
    exact WSState.noConfusion
  · rw [hnext]
    split
    · exact WSState.noConfusion
    · exact hstate

/-- Once a connection is not Connected any more nothing is offered to the sender. -/
theorem nothing_offered {later : Session} (hprotocol : session.ws.protocol = .webSocket)
    (hstate : session.ws.connectionState ≠ .connected)
    (hreaches : Reaches (step app) (fun _ _ => True) session later) :
    later.ws.getTxData = (([], 0), later.ws) := by
  have hgate : later.ws.protocol = .webSocket ∧ later.ws.connectionState ≠ .connected := by
    induction hreaches with
    | start => exact ⟨hprotocol, hstate⟩
    | step _ _ hstep ih =>
        exact ⟨(step_protocol_log hstep).1.trans ih.1, step_not_connected hstep ih.2⟩
  rw [WebSocket.getTxData, if_pos hgate]

/-- With room in the queue, the turn that begins to close leaves a Close frame waiting. -/
theorem close_frame_waits {now : Nat} (hwf : session.ws.txList.WellFormed)
    (hroom : session.ws.txList.held.length + 1 < TX_LIST_SIZE)
    (hstep : session.step app (.turn now) = some next)
    (hconnected : session.ws.connectionState = .connected)
    (hclosing : next.ws.connectionState = .closing) :
    closeBuffer ∈ next.ws.sendQueue.buffers := by
  have hrefuse : session.deed = .refuse := by
    rcases step_connectionState hstep with ⟨hrefuse, -⟩ | ⟨-, hnext⟩
    · exact hrefuse
    · rw [hconnected, hclosing] at hnext
      split at hnext <;> cases hnext
  have hqueue := step_sendQueue hstep Action.noConfusion fun _ => Action.noConfusion
  rw [queuedBy, hrefuse] at hqueue
  have hput : next.ws.sendQueue = session.ws.sendQueue.put closeBuffer := hqueue
  have hwf' : session.ws.sendQueue.waiting.WellFormed := hwf
  obtain ⟨hbuffers, -⟩ := SendQueue.put_buffers hwf' closeBuffer hroom
  rw [hput, hbuffers]
  exact List.mem_append_right _ (List.mem_singleton_self _)

/--
When the server begins to close a connection, the Close frame waits in the queue
and is never offered: the closing connection offers nothing until it is aborted.
-/
theorem close_frame_is_never_offered {now : Nat} (hrun : Run app session)
    (hconnected : session.ws.connectionState = .connected)
    (hroom : session.ws.txList.held.length + 1 < TX_LIST_SIZE)
    (hstep : session.step app (.turn now) = some next)
    (hclosing : next.ws.connectionState = .closing) :
    ¬ CloseAvailable app next ∧
      ∀ later, Reaches (step app) (fun _ _ => True) next later →
        later.ws.getTxData = (([], 0), later.ws) := by
  have hprotocol := (step_protocol_log hstep).1.trans hrun.protocol
  have hstate : next.ws.connectionState ≠ .connected := by
    rw [hclosing]
    exact WSState.noConfusion
  have hnothing (later : Session) (hreaches : Reaches (step app) (fun _ _ => True) next later) :
      later.ws.getTxData = (([], 0), later.ws) :=
    nothing_offered hprotocol hstate hreaches
  refine ⟨fun havailable => ?_, hnothing⟩
  have hwaits := close_frame_waits hrun.wellFormed hroom hstep hconnected hclosing
  exact havailable next .start hclosing hwaits (by rw [hnothing next .start])

/-- A client frame without a masking key makes the server close. -/
theorem close_frame_is_never_offered_unmasked :
    ∃ session next, Run WebSocket.acceptAll session ∧
      session.step WebSocket.acceptAll (.turn 0) = some next ∧
      next.ws.connectionState = .closing ∧ ¬ CloseAvailable WebSocket.acceptAll next := by
  have hrun : Run WebSocket.acceptAll ⟨helloSocket, [0x81#8, 0x01#8]⟩ :=
    hello_run (show runAll _ _ [.receive [0x81#8, 0x01#8]] = _ from rfl)
  have hturn : (step WebSocket.acceptAll ⟨helloSocket, [0x81#8, 0x01#8]⟩ (.turn 0)).map
      (·.ws.connectionState) = some .closing := by
    decide +kernel
  obtain ⟨next, hstep, hclosing⟩ := Option.map_eq_some_iff.mp hturn
  exact ⟨_, next, hrun, hstep, hclosing, (close_frame_is_never_offered hrun (by decide +kernel)
    (by decide +kernel) hstep hclosing).1⟩

/-- The Close frame that answers an unknown opcode waits, and is not offered. -/
theorem unknown_opcode_closes_silently :
    ∃ session, Run WebSocket.acceptAll session ∧ session.ws.connectionState = .closing ∧
      ¬ CloseAvailable WebSocket.acceptAll session := by
  have hlast : (runAll (step WebSocket.acceptAll) ⟨helloSocket, []⟩
      [.receive [0x83#8, 0x81#8, 1#8, 2#8, 3#8, 4#8, 5#8], .turn 0, .turn 0, .turn 0]).map
        (fun session => (session.ws.connectionState,
          decide (closeBuffer ∈ session.ws.sendQueue.buffers), session.ws.getTxData.1.2)) =
      some (.closing, true, 0) := by
    decide +kernel
  obtain ⟨session, hsession, hstate⟩ := Option.map_eq_some_iff.mp hlast
  obtain ⟨hclosing, hrest⟩ := Prod.mk.inj hstate
  obtain ⟨hwaits, hzero⟩ := Prod.mk.inj hrest
  exact ⟨session, hello_run hsession, hclosing, fun havailable =>
    havailable session .start hclosing (of_decide_eq_true hwaits) hzero⟩

/-! ## Closed connections -/

/-- A session with what has happened since the connection was aborted. -/
structure Watched where
  session : Session
  stopped : Bool
  /-- What the log has grown by afterwards. -/
  late : List Event
  /-- What `processData` has returned since, the call in which it happened included. -/
  answers : List Bool

namespace Watched

def start (ws : WebSocket) : Watched where
  session := ⟨ws, []⟩
  stopped := decide (ws.connectionState = .closed)
  late := []
  answers := []

/-- The turn after which `processData` returns. -/
def Returns (next : Session) : Action → Prop
  | .turn _ => next.chunk = []
  | _ => False

instance (next : Session) (action : Action) : Decidable (Returns next action) := by
  cases action <;> unfold Returns <;> infer_instance

def step (app : Application) (watched : Watched) (action : Action) : Option Watched :=
  (watched.session.step app action).map fun next =>
    let stopped := watched.stopped || watched.session.aborts app action
    { session := next
      stopped := stopped
      late :=
        if watched.stopped then
          watched.late ++ next.ws.log.drop watched.session.ws.log.length
        else watched.late
      answers :=
        if stopped = true ∧ Returns next action then
          watched.answers ++ [decide (next.ws.connectionState ≠ .closed)]
        else watched.answers }

/-- Once aborted, the connection is Closed, silent, and reported as such. -/
def ClosedIsFinal (watched : Watched) : Prop :=
  watched.stopped = true →
    watched.session.ws.connectionState = .closed ∧ (∀ msg, .message msg ∉ watched.late) ∧
      ∀ answer ∈ watched.answers, answer = false

/--
The step does not begin to close a connection that is Closed or whose queue is
full, and does not tell the application about a message on a Closed one.
-/
def Quiet (app : Application) (watched : Watched) (action : Action) : Prop :=
  (watched.session.Refuses action → watched.session.ws.connectionState ≠ .closed ∧
      watched.session.aborts app action = false) ∧
    (watched.session.ws.connectionState = .closed → watched.session.told app action = [])

/-- The connection is Closed exactly when it has been aborted, and all was quiet since. -/
structure Settled (watched : Watched) : Prop where
  stopped_iff : watched.stopped = true ↔ watched.session.ws.connectionState = .closed
  late_eq : watched.late = []
  answers_eq : ∀ answer ∈ watched.answers, answer = false

variable {watched after : Watched}

/-- The log grows by what the application is told in the step. -/
theorem drop_log {session next : Session} (hnext : session.step app action = some next) :
    next.ws.log.drop session.ws.log.length = session.told app action := by
  rw [(step_protocol_log hnext).2, List.drop_left]

theorem Settled.closedIsFinal (hsettled : Settled watched) : ClosedIsFinal watched := by
  intro hstopped
  refine ⟨hsettled.stopped_iff.mp hstopped, ?_, hsettled.answers_eq⟩
  rw [hsettled.late_eq]
  exact fun _ => List.not_mem_nil

theorem settled_step (hsettled : Settled watched) (hquiet : Quiet app watched action)
    (hstep : watched.step app action = some after) : Settled after := by
  obtain ⟨next, hnext, rfl⟩ := Option.map_eq_some_iff.mp hstep
  obtain ⟨hrefuses, hsilent⟩ := hquiet
  have hstopped : (watched.stopped || watched.session.aborts app action) = true ↔
      next.ws.connectionState = .closed := by
    rw [Bool.or_eq_true, hsettled.stopped_iff]
    rcases step_connectionState hnext with ⟨hrefuse, hstate⟩ | ⟨-, hstate⟩
    · obtain ⟨hopen, habort⟩ := hrefuses hrefuse
      rw [hstate, habort]
      simp [hopen]
    · rw [hstate]
      split
      · rename_i habort
        simp [habort]
      · rename_i habort
        simp [habort]
  refine ⟨hstopped, ?_, ?_⟩
  · dsimp only
    split
    · rename_i hclosed
      rw [hsettled.late_eq, drop_log hnext, hsilent (hsettled.stopped_iff.mp hclosed)]
      rfl
    · exact hsettled.late_eq
  · dsimp only
    split
    · rename_i hreturns
      have hclosed := hstopped.mp hreturns.1
      exact List.forall_mem_append.mpr
        ⟨hsettled.answers_eq, List.forall_mem_singleton.mpr (by simp [hclosed])⟩
    · exact hsettled.answers_eq

theorem not_closedIsFinal_step (hsettled : Settled watched) (hloud : ¬ Quiet app watched action)
    (hstep : watched.step app action = some after) : ¬ ClosedIsFinal after := by
  obtain ⟨next, hnext, rfl⟩ := Option.map_eq_some_iff.mp hstep
  intro hfinal
  rcases not_and_or.mp hloud with hrefuses | htold
  · obtain ⟨hrefuse, hbad⟩ := Classical.not_imp.mp hrefuses
    have hstopped : (watched.stopped || watched.session.aborts app action) = true := by
      by_contra hgoes
      rw [Bool.or_eq_true, not_or] at hgoes
      exact hbad ⟨fun hclosed => hgoes.1 (hsettled.stopped_iff.mpr hclosed),
        Bool.eq_false_iff.mpr hgoes.2⟩
    have hclosed : next.ws.connectionState = .closed := (hfinal hstopped).1
    rcases step_connectionState hnext with ⟨-, hclosing⟩ | ⟨hnot, -⟩
    · rw [hclosing] at hclosed
      cases hclosed
    · exact hnot hrefuse
  · obtain ⟨hclosed, htold⟩ := Classical.not_imp.mp htold
    have hstopped := hsettled.stopped_iff.mpr hclosed
    obtain hnone | ⟨msg, hmsg⟩ := told_cases app watched.session action
    · exact htold hnone
    · have hsilent := (hfinal (by simp [hstopped])).2.1 msg
      simp only [hstopped, if_true, drop_log hnext, hmsg] at hsilent
      exact hsilent (List.mem_append_right _ (List.mem_singleton_self _))

/--
In a run, a connection that was aborted stays Closed, tells the application
nothing and is reported as closed exactly when all of its steps are quiet.
-/
theorem closed_is_final_iff (app : Application) (ws : WebSocket) (actions : List Action) :
    Always (step app) ClosedIsFinal (start ws) actions ↔
      Admitted (step app) (Quiet app) (start ws) actions := by
  refine always_iff_admitted (fun _ hsettled => Settled.closedIsFinal hsettled)
    (fun _ _ _ hsettled hquiet hstep => settled_step hsettled hquiet hstep)
    (fun _ _ _ hsettled hloud hstep => not_closedIsFinal_step hsettled hloud hstep) ?_ actions
  exact ⟨decide_eq_true_iff, rfl, List.forall_mem_nil _⟩

/-- An unmasked frame behind a Close frame makes the closed connection closing again. -/
theorem close_frame_is_undone :
    Opened WebSocket.acceptAll helloSocket ∧
      ¬ Always (step WebSocket.acceptAll) ClosedIsFinal (start helloSocket)
        [.receive [0x88#8, 0x82#8, 1#8, 2#8, 3#8, 4#8, 5#8, 6#8, 0x81#8, 0x01#8],
          .turn 0, .turn 0, .turn 0, .turn 0] := by
  have hlast : (runAll (step WebSocket.acceptAll) (start helloSocket)
      [.receive [0x88#8, 0x82#8, 1#8, 2#8, 3#8, 4#8, 5#8, 6#8, 0x81#8, 0x01#8],
        .turn 0, .turn 0, .turn 0, .turn 0]).map (fun watched =>
          (watched.stopped, watched.session.ws.connectionState, watched.answers)) =
      some (true, .closing, [true]) := by
    decide +kernel
  obtain ⟨watched, hwatched, hstate⟩ := Option.map_eq_some_iff.mp hlast
  obtain ⟨hstopped, hrest⟩ := Prod.mk.inj hstate
  refine ⟨helloSocket_opened, fun halways => ?_⟩
  have hclosed := (halways.last hwatched hstopped).1
  rw [(Prod.mk.inj hrest).1] at hclosed
  cases hclosed

end Watched

end Session

end DumaisLib.WebSocket
