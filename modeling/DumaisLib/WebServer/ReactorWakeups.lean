import DumaisLib.WebServer.Reactor

/-!
# No wake-up is lost

Whatever arrives at a socket, is queued for a client or asks the server to stop
is signalled to the reactor thread, or the thread will look at it before it waits
again.
-/

namespace DumaisLib.WebServer

open DumaisLib.Utils Machine SendPass Wakeups

inductive Duty where
  | accept
  | receive (socket : Int)
  | send (socket : Int)
  | answer
  | stop

/-- There is something to be read. -/
def Connection.Unread (connection : Connection) : Prop :=
  connection.inbound ≠ [] ∨ connection.finished = true

/-- The client has something on offer. -/
def Connection.Offers (connection : Connection) : Prop :=
  connection.client.getTxData.1.2 ≠ 0

namespace Phase

/-- The events that are left. -/
def events : Phase → List EpollEvent
  | .handle events => events
  | .accept events => events
  | .receive _ events => events
  | _ => []

/-- The thread will still come to the asynchronous queue before it waits. -/
def BeforeAnswers : Phase → Prop
  | .handle _ => True
  | .accept _ => True
  | .receive _ _ => True
  | .asyncQueueEvent => True
  | _ => False

/-- The thread will look at the duty before it waits. -/
def Attends (phase : Phase) : Duty → Prop
  | .accept =>
      (∃ event ∈ phase.events, event.source = .listenSocket) ∨ ∃ events, phase = .accept events
  | .receive socket =>
      ⟨.client socket, true⟩ ∈ phase.events ∨ ∃ events, phase = .receive socket events
  | .send socket =>
      phase.BeforeAnswers ∨ ∃ sockets, phase = .send sockets ∧ socket ∈ sockets
  | .answer => phase.BeforeAnswers
  | .stop => phase ≠ .wait

end Phase

namespace Reactor

variable {ρ : Type} {reactor next : Reactor ρ}

/-- What the reactor thread has to do, as long as the server is not stopping. -/
def Work (reactor : Reactor ρ) : Duty → Prop
  | .accept => reactor.stopping = false ∧ 0 < reactor.backlog
  | .receive socket => reactor.stopping = false ∧
      ∃ connection, reactor.clientList.lookup socket = some connection ∧ connection.Unread
  | .send socket => reactor.stopping = false ∧
      ∃ connection, reactor.clientList.lookup socket = some connection ∧ connection.Offers
  | .answer => reactor.stopping = false ∧ reactor.mAsyncResponses.get.1 ≠ none
  | .stop => reactor.stopping = true

/-- What is reported by the next wait, or will be when a thread has written. -/
def Signalled (reactor : Reactor ρ) : Duty → Prop
  | .accept => .listenSocket ∈ reactor.ready
  | .receive socket => .client socket ∈ reactor.ready
  | _ => 0 < reactor.writes ∨ .controlEventFd ∈ reactor.ready

def watch : Watch (Reactor ρ) Duty where
  work := Work
  signalled := Signalled
  attended reactor := reactor.phase.Attends

/-! ## Steps that leave the thread where it is -/

theorem Signalled.mono {duty : Duty} (hsignalled : reactor.Signalled duty)
    (hready : ∀ source ∈ reactor.ready, source ∈ next.ready)
    (hwrites : reactor.writes ≤ next.writes) : next.Signalled duty := by
  cases duty with
  | accept => exact hready _ hsignalled
  | receive socket => exact hready _ hsignalled
  | send socket => exact hsignalled.imp (fun hpos => Nat.lt_of_lt_of_le hpos hwrites) (hready _)
  | answer => exact hsignalled.imp (fun hpos => Nat.lt_of_lt_of_le hpos hwrites) (hready _)
  | stop => exact hsignalled.imp (fun hpos => Nat.lt_of_lt_of_le hpos hwrites) (hready _)

/-- New work comes with its signal. -/
theorem kept_of_signals (hkept : watch.NothingLost reactor)
    (hready : ∀ source ∈ reactor.ready, source ∈ next.ready)
    (hwrites : reactor.writes ≤ next.writes) (hphase : next.phase = reactor.phase)
    (hwork : ∀ duty, next.Work duty →
      reactor.Work duty ∨ next.Signalled duty ∨ next.phase.Attends duty) :
    watch.NothingLost next := by
  refine hkept.next hwork (fun duty _ hsignalled => Or.inl (hsignalled.mono hready hwrites)) ?_
  intro duty _ hattended
  refine Or.inr ?_
  change next.phase.Attends duty
  rw [hphase]
  exact hattended

/-- A thread that goes elsewhere has seen to its duties. -/
theorem kept_of_moves {phase : Phase} (hkept : watch.NothingLost reactor)
    (hattends : ∀ duty, reactor.Work duty → reactor.phase.Attends duty →
      reactor.Signalled duty ∨ phase.Attends duty) :
    watch.NothingLost { reactor with phase := phase } := by
  refine hkept.next (fun duty hwork => Or.inl ?_) (fun duty _ hsignalled => Or.inl ?_) ?_
  · cases duty <;> exact hwork
  · cases duty <;> exact hsignalled
  · intro duty hwork hattended
    have hsame : reactor.Work duty := by
      cases duty <;> exact hwork
    refine (hattends duty hsame hattended).imp_left fun hsignalled => ?_
    cases duty <;> exact hsignalled

/-- A thread that is told to stop outside its wait has nothing else to do. -/
theorem kept_of_stopping (hstopping : next.stopping = true) (hphase : next.phase ≠ .wait) :
    watch.NothingLost next := by
  intro duty hwork
  cases duty with
  | stop => exact Or.inr hphase
  | accept => exact absurd (hstopping.symm.trans hwork.1) Bool.noConfusion
  | receive socket => exact absurd (hstopping.symm.trans hwork.1) Bool.noConfusion
  | send socket => exact absurd (hstopping.symm.trans hwork.1) Bool.noConfusion
  | answer => exact absurd (hstopping.symm.trans hwork.1) Bool.noConfusion

/-! ## What changes the table -/

theorem mem_notify (reactor : Reactor ρ) (source : Source) : source ∈ (reactor.notify source).ready :=
  List.mem_insert_self

theorem mem_notify_of_mem {source other : Source} (hmem : other ∈ reactor.ready) :
    other ∈ (reactor.notify source).ready :=
  List.mem_insert_of_mem hmem

theorem Work.of_notify {duty : Duty} {source : Source} (hwork : (reactor.notify source).Work duty) :
    reactor.Work duty := by
  cases duty <;> exact hwork

/-- Only the duties to the client that is put back may be new. -/
theorem Work.of_update {duty : Duty} {socket : Int} {connection : Connection}
    (hwork : (reactor.update socket connection).Work duty) :
    reactor.Work duty ∨ reactor.stopping = false ∧
      (duty = .receive socket ∧ connection.Unread ∨ duty = .send socket ∧ connection.Offers) := by
  cases duty with
  | accept => exact Or.inl hwork
  | answer => exact Or.inl hwork
  | stop => exact Or.inl hwork
  | receive other =>
      obtain ⟨hgoing, found, hfound, hunread⟩ := hwork
      by_cases hsame : other = socket
      · subst hsame
        obtain rfl := Option.some.inj ((AList.lookup_insert _).symm.trans hfound)
        exact Or.inr ⟨hgoing, Or.inl ⟨rfl, hunread⟩⟩
      · exact Or.inl ⟨hgoing, found, (AList.lookup_insert_ne hsame).symm.trans hfound, hunread⟩
  | send other =>
      obtain ⟨hgoing, found, hfound, hoffers⟩ := hwork
      by_cases hsame : other = socket
      · subst hsame
        obtain rfl := Option.some.inj ((AList.lookup_insert _).symm.trans hfound)
        exact Or.inr ⟨hgoing, Or.inr ⟨rfl, hoffers⟩⟩
      · exact Or.inl ⟨hgoing, found, (AList.lookup_insert_ne hsame).symm.trans hfound, hoffers⟩

/-- A queued buffer is work for its own client only. -/
theorem Work.of_put {duty : Duty} {call : Call} (hwork : (reactor.put call).Work duty) :
    reactor.Work duty ∨ duty = .send call.socket := by
  rw [put] at hwork
  split at hwork
  · exact Or.inl hwork
  · rename_i connection hlookup
    rcases hwork.of_update with hold | ⟨hgoing, ⟨rfl, hunread⟩ | ⟨hsend, -⟩⟩
    · exact Or.inl hold
    · exact Or.inl ⟨hgoing, connection, hlookup, hunread⟩
    · exact Or.inr hsend

/-- A call of the reactor thread is followed by a write. -/
theorem kept_call (hkept : watch.NothingLost reactor) (call : Call) :
    watch.NothingLost ((reactor.put call).notify .controlEventFd) := by
  have hsame : (reactor.put call).ready = reactor.ready ∧
      (reactor.put call).writes = reactor.writes ∧ (reactor.put call).phase = reactor.phase := by
    rw [put]
    split <;> exact ⟨rfl, rfl, rfl⟩
  obtain ⟨hready, hwrites, hphase⟩ := hsame
  refine kept_of_signals hkept ?_ hwrites.ge hphase ?_
  · intro source hsource
    exact mem_notify_of_mem (hready ▸ hsource)
  · intro duty hwork
    rcases hwork.of_notify.of_put with hold | rfl
    · exact Or.inl hold
    · exact Or.inr (Or.inl (Or.inr (mem_notify _ _)))

theorem kept_perform (hkept : watch.NothingLost reactor) (calls : List Call) :
    watch.NothingLost (reactor.perform calls) := by
  induction calls generalizing reactor with
  | nil => exact hkept
  | cons call calls ih => exact ih (kept_call hkept call)

/-- A client that leaves takes its duties along. -/
theorem kept_remove (hkept : watch.NothingLost reactor) {socket : Int} {phase : Phase}
    (hattends : ∀ duty, duty ≠ .receive socket → reactor.phase.Attends duty → phase.Attends duty) :
    watch.NothingLost { reactor.remove socket with phase := phase } := by
  have hgone (found : Connection) :
      ¬ (reactor.clientList.erase socket).lookup socket = some found := by
    rw [AList.lookup_erase]
    exact nofun
  have hother (duty : Duty)
      (hwork : ({ reactor.remove socket with phase := phase } : Reactor ρ).Work duty) :
      reactor.Work duty ∧ duty ≠ .receive socket := by
    cases duty with
    | accept => exact ⟨hwork, Duty.noConfusion⟩
    | answer => exact ⟨hwork, Duty.noConfusion⟩
    | stop => exact ⟨hwork, Duty.noConfusion⟩
    | receive other =>
        obtain ⟨hgoing, found, hfound, hunread⟩ := hwork
        have hne : other ≠ socket := by
          rintro rfl
          exact hgone found hfound
        refine ⟨⟨hgoing, found, (AList.lookup_erase_ne hne).symm.trans hfound, hunread⟩, ?_⟩
        exact fun heq => hne (Duty.receive.inj heq)
    | send other =>
        obtain ⟨hgoing, found, hfound, hoffers⟩ := hwork
        have hne : other ≠ socket := by
          rintro rfl
          exact hgone found hfound
        exact ⟨⟨hgoing, found, (AList.lookup_erase_ne hne).symm.trans hfound, hoffers⟩,
          Duty.noConfusion⟩
  refine hkept.next (fun duty hwork => Or.inl (hother duty hwork).1) ?_ ?_
  · intro duty hwork hsignalled
    have hne := (hother duty hwork).2
    refine Or.inl ?_
    cases duty with
    | accept => exact (List.mem_erase_of_ne Source.noConfusion).mpr hsignalled
    | receive other =>
        refine (List.mem_erase_of_ne fun heq => hne ?_).mpr hsignalled
        rw [Source.client.inj heq]
    | send other =>
        exact hsignalled.imp_right fun hmem => (List.mem_erase_of_ne Source.noConfusion).mpr hmem
    | answer =>
        exact hsignalled.imp_right fun hmem => (List.mem_erase_of_ne Source.noConfusion).mpr hmem
    | stop =>
        exact hsignalled.imp_right fun hmem => (List.mem_erase_of_ne Source.noConfusion).mpr hmem
  · exact fun duty hwork hattended => Or.inr (hattends duty (hother duty hwork).2 hattended)

/-! ## The steps -/

/-- Elsewhere in its round the thread keeps what it attends to. -/
theorem attends_of_events {phase phase' : Phase} {duty : Duty}
    (hattended : phase.Attends duty) (hbefore : phase'.BeforeAnswers)
    (hwait : phase' ≠ .wait) (hevents : phase.events = phase'.events)
    (haccept : duty = .accept → ¬ ∃ events, phase = .accept events)
    (hreceive : ∀ socket, duty = .receive socket → ¬ ∃ events, phase = .receive socket events) :
    phase'.Attends duty := by
  cases duty with
  | accept =>
      rcases hattended with hevent | hhere
      · exact Or.inl (hevents ▸ hevent)
      · exact absurd hhere (haccept rfl)
  | receive socket =>
      rcases hattended with hevent | hhere
      · exact Or.inl (hevents ▸ hevent)
      · exact absurd hhere (hreceive socket rfl)
  | send socket => exact Or.inl hbefore
  | answer => exact hbefore
  | stop => exact hwait

theorem kept_connect (hkept : watch.NothingLost reactor) :
    watch.NothingLost ({ reactor with backlog := reactor.backlog + 1 }.notify .listenSocket) := by
  refine kept_of_signals hkept (fun source => mem_notify_of_mem) le_rfl rfl ?_
  intro duty hwork
  cases duty with
  | accept => exact Or.inr (Or.inl (mem_notify _ _))
  | receive socket => exact Or.inl hwork
  | send socket => exact Or.inl hwork
  | answer => exact Or.inl hwork
  | stop => exact Or.inl hwork

/-- What arrives for a client changes nothing that it offers. -/
theorem kept_arrival (hkept : watch.NothingLost reactor) {socket : Int} {old new : Connection}
    (hlookup : reactor.clientList.lookup socket = some old) (hclient : new.client = old.client) :
    watch.NothingLost ((reactor.update socket new).notify (.client socket)) := by
  refine kept_of_signals hkept (fun source => mem_notify_of_mem) le_rfl rfl ?_
  intro duty hwork
  rcases hwork.of_notify.of_update with hold | ⟨hgoing, ⟨rfl, -⟩ | ⟨rfl, hoffers⟩⟩
  · exact Or.inl hold
  · exact Or.inr (Or.inl (mem_notify _ _))
  · rw [Connection.Offers, hclient] at hoffers
    exact Or.inl ⟨hgoing, old, hlookup, hoffers⟩

theorem kept_sendData (hkept : watch.NothingLost reactor) (call : Call) :
    watch.NothingLost { reactor.put call with writes := reactor.writes + 1 } := by
  have hsame : (reactor.put call).ready = reactor.ready ∧
      (reactor.put call).phase = reactor.phase := by
    rw [put]
    split <;> exact ⟨rfl, rfl⟩
  obtain ⟨hready, hphase⟩ := hsame
  refine kept_of_signals hkept (fun source hsource => hready ▸ hsource) (Nat.le_succ _) hphase ?_
  intro duty hwork
  have hput : (reactor.put call).Work duty := by
    cases duty <;> exact hwork
  rcases hput.of_put with hold | rfl
  · exact Or.inl hold
  · exact Or.inr (Or.inl (Or.inl (Nat.succ_pos _)))

/-- A response that finds no room leaves a ring that looks empty. -/
theorem get_of_refused {T : Type} {size : Nat} [NeZero size] {ring : MPSCRingBuffer T size}
    {item : T} (hrefused : (ring.put item).1 = false) : (ring.put item).2.get.1 = none := by
  simp only [MPSCRingBuffer.put] at hrefused ⊢
  split at hrefused
  · rename_i hfull
    simp only [hfull, if_true, MPSCRingBuffer.get]
  · cases hrefused

theorem kept_queueResponse (hkept : watch.NothingLost reactor) (response : ρ) :
    watch.NothingLost { reactor with
      mAsyncResponses := (reactor.mAsyncResponses.put response).2
      writes := if (reactor.mAsyncResponses.put response).1 then reactor.writes + 1
        else reactor.writes } := by
  have hwrites : reactor.writes ≤ if (reactor.mAsyncResponses.put response).1 then
      reactor.writes + 1 else reactor.writes := by
    split <;> omega
  refine kept_of_signals hkept (fun _ hsource => hsource) hwrites rfl ?_
  intro duty hwork
  cases duty with
  | accept => exact Or.inl hwork
  | receive socket => exact Or.inl hwork
  | send socket => exact Or.inl hwork
  | stop => exact Or.inl hwork
  | answer =>
      cases haccepted : (reactor.mAsyncResponses.put response).1 with
      | true => exact Or.inr (Or.inl (Or.inl (Nat.succ_pos _)))
      | false => exact absurd (get_of_refused haccepted) hwork.2

theorem kept_stop (hkept : watch.NothingLost reactor) :
    watch.NothingLost { reactor with stopping := true, writes := reactor.writes + 1 } := by
  refine kept_of_signals hkept (fun _ hsource => hsource) (Nat.le_succ _) rfl ?_
  intro duty hwork
  cases duty with
  | accept => exact absurd hwork.1 Bool.noConfusion
  | receive socket => exact absurd hwork.1 Bool.noConfusion
  | send socket => exact absurd hwork.1 Bool.noConfusion
  | answer => exact absurd hwork.1 Bool.noConfusion
  | stop => exact Or.inr (Or.inl (Or.inl (Nat.succ_pos _)))

theorem kept_write (hkept : watch.NothingLost reactor) :
    watch.NothingLost
      ({ reactor with writes := reactor.writes - 1 }.notify .controlEventFd) := by
  refine hkept.next (fun duty hwork => Or.inl ?_) (fun duty _ hsignalled => Or.inl ?_)
    fun duty _ hattended => Or.inr hattended
  · have hsame := hwork.of_notify
    cases duty <;> exact hsame
  · cases duty with
    | accept => exact mem_notify_of_mem hsignalled
    | receive socket => exact mem_notify_of_mem hsignalled
    | send socket => exact Or.inr (mem_notify _ _)
    | answer => exact Or.inr (mem_notify _ _)
    | stop => exact Or.inr (mem_notify _ _)

/-- The thread waits again only when it is not to stop. -/
theorem kept_loop (hkept : watch.NothingLost reactor) (hphase : reactor.phase = .loop) :
    watch.NothingLost { reactor with phase := if reactor.stopping then .exited else .wait } := by
  by_cases hstopping : reactor.stopping = true
  · rw [if_pos hstopping]
    exact kept_of_stopping hstopping nofun
  · rw [if_neg hstopping]
    refine kept_of_moves hkept fun duty hwork hattended => ?_
    rw [hphase] at hattended
    cases duty with
    | accept => simp [Phase.Attends, Phase.events] at hattended
    | receive socket => simp [Phase.Attends, Phase.events] at hattended
    | send socket => simp [Phase.Attends, Phase.BeforeAnswers] at hattended
    | answer => exact absurd hattended id
    | stop => exact absurd hwork hstopping

/-- What is ready is reported now, or is ready still. -/
theorem kept_epollWait (hkept : watch.NothingLost reactor) (hphase : reactor.phase = .wait) :
    watch.NothingLost reactor.epollWait := by
  have hsplit (source : Source) (hready : source ∈ reactor.ready) :
      source ∈ reactor.ready.drop (reactor.maxConnections + 2) ∨
        reactor.report source ∈
          (reactor.ready.take (reactor.maxConnections + 2)).map reactor.report := by
    rw [← List.take_append_drop (reactor.maxConnections + 2) reactor.ready] at hready
    exact (List.mem_append.mp hready).symm.imp_right (List.mem_map_of_mem)
  refine hkept.next (fun duty hwork => Or.inl ?_) ?_ ?_
  · cases duty <;> exact hwork
  · intro duty hwork hsignalled
    cases duty with
    | accept =>
        exact (hsplit _ hsignalled).imp_right fun hreported => Or.inl ⟨_, hreported, rfl⟩
    | receive socket =>
        refine (hsplit _ hsignalled).imp_right fun hreported => Or.inl ?_
        obtain ⟨-, connection, hlookup, hunread⟩ := hwork
        have hreport : reactor.report (.client socket) = ⟨.client socket, true⟩ := by
          have hlookup' : reactor.clientList.lookup socket = some connection := hlookup
          simp only [report, hlookup']
          rcases hunread with hbytes | hfinished
          · simp [hbytes]
          · simp [hfinished]
        rw [hreport] at hreported
        exact hreported
    | send socket => exact Or.inr (Or.inl trivial)
    | answer => exact Or.inr trivial
    | stop => exact Or.inr nofun
  · intro duty _ hattended
    change reactor.phase.Attends duty at hattended
    rw [hphase] at hattended
    cases duty with
    | accept => simp [Phase.Attends, Phase.events] at hattended
    | receive socket => simp [Phase.Attends, Phase.events] at hattended
    | send socket => simp [Phase.Attends, Phase.BeforeAnswers] at hattended
    | answer => exact absurd hattended id
    | stop => exact absurd rfl hattended

/-- Without its first event the thread has only seen to what the event is about. -/
theorem attends_tail {phase : Phase} {event : EpollEvent} {events : List EpollEvent} {duty : Duty}
    (hattended : (Phase.handle (event :: events)).Attends duty) (hbefore : phase.BeforeAnswers)
    (hwait : phase ≠ .wait) (hevents : phase.events = events) :
    phase.Attends duty ∨ duty = .accept ∧ event.source = .listenSocket ∨
      ∃ socket, duty = .receive socket ∧ event = ⟨.client socket, true⟩ := by
  cases duty with
  | accept =>
      rcases hattended with ⟨other, hother, hsource⟩ | ⟨_, hhere⟩
      · rcases List.mem_cons.mp hother with rfl | htail
        · exact Or.inr (Or.inl ⟨rfl, hsource⟩)
        · exact Or.inl (Or.inl ⟨other, hevents ▸ htail, hsource⟩)
      · cases hhere
  | receive socket =>
      rcases hattended with hother | ⟨_, hhere⟩
      · rcases List.mem_cons.mp hother with hevent | htail
        · exact Or.inr (Or.inr ⟨socket, rfl, hevent.symm⟩)
        · exact Or.inl (Or.inl (hevents ▸ htail))
      · cases hhere
  | send socket => exact Or.inl (Or.inl hbefore)
  | answer => exact Or.inl hbefore
  | stop => exact Or.inl hwait

/-- The next event is taken up, or the queue is. -/
theorem kept_handle (hkept : watch.NothingLost reactor) {events : List EpollEvent}
    (hphase : reactor.phase = .handle events) : watch.NothingLost (reactor.handle events) := by
  cases events with
  | nil =>
      refine kept_of_moves hkept fun duty _ hattended => Or.inr ?_
      rw [hphase] at hattended
      exact attends_of_events hattended trivial nofun rfl (fun _ => nofun) fun _ _ => nofun
  | cons event events =>
      obtain ⟨source, epollin⟩ := event
      cases source with
      | listenSocket =>
          by_cases hstopping : reactor.stopping = true
          · have hskips : reactor.handle (⟨.listenSocket, epollin⟩ :: events) =
                { reactor with phase := .handle events } := if_pos hstopping
            rw [hskips]
            exact kept_of_stopping hstopping nofun
          · have haccepts : reactor.handle (⟨.listenSocket, epollin⟩ :: events) =
                { reactor with phase := .accept events } := if_neg hstopping
            rw [haccepts]
            refine kept_of_moves hkept fun duty _ hattended => Or.inr ?_
            rw [hphase] at hattended
            rcases @attends_tail (.accept events) _ _ _ hattended trivial nofun rfl with
              hlater | ⟨rfl, -⟩ | ⟨socket, rfl, hevent⟩
            · exact hlater
            · exact Or.inr ⟨events, rfl⟩
            · cases hevent
      | controlEventFd =>
          refine kept_of_moves hkept fun duty _ hattended => Or.inr ?_
          rw [hphase] at hattended
          rcases @attends_tail (.handle events) _ _ _ hattended trivial nofun rfl with
            hlater | ⟨-, hevent⟩ | ⟨socket, -, hevent⟩
          · exact hlater
          · cases hevent
          · cases hevent
      | client socket =>
          by_cases hreads : epollin = true ∧ socket ∈ reactor.clientList
          · have hreceives : reactor.handle (⟨.client socket, epollin⟩ :: events) =
                { reactor with phase := .receive socket events } := if_pos hreads
            rw [hreceives]
            refine kept_of_moves hkept fun duty _ hattended => Or.inr ?_
            rw [hphase] at hattended
            rcases @attends_tail (.receive socket events) _ _ _ hattended trivial nofun rfl with
              hlater | ⟨-, hevent⟩ | ⟨other, rfl, hevent⟩
            · exact hlater
            · cases hevent
            · obtain ⟨hsame, -⟩ := EpollEvent.mk.inj hevent
              obtain rfl := Source.client.inj hsame
              exact Or.inr ⟨events, rfl⟩
          · have hskips : reactor.handle (⟨.client socket, epollin⟩ :: events) =
                { reactor with phase := .handle events } := if_neg hreads
            rw [hskips]
            refine kept_of_moves hkept fun duty hwork hattended => Or.inr ?_
            rw [hphase] at hattended
            rcases @attends_tail (.handle events) _ _ _ hattended trivial nofun rfl with
              hlater | ⟨-, hevent⟩ | ⟨other, rfl, hevent⟩
            · exact hlater
            · cases hevent
            · -- an event of a client that is gone
              obtain ⟨hsame, hin⟩ := EpollEvent.mk.inj hevent
              obtain rfl := Source.client.inj hsame
              obtain ⟨-, connection, hlookup, -⟩ := hwork
              refine absurd ⟨hin, ?_⟩ hreads
              exact AList.lookup_isSome.mp (by rw [hlookup]; rfl)

/-- A new client; there is something to be read when its socket is registered. -/
theorem kept_accept (hkept : watch.NothingLost reactor) {events : List EpollEvent}
    (hphase : reactor.phase = .accept events) (socket : Int) (connection : Connection) :
    watch.NothingLost
      (({ reactor with backlog := reactor.backlog - 1 }.update socket connection).notify
        (.client socket)) := by
  refine kept_of_signals hkept (fun source => mem_notify_of_mem) le_rfl rfl ?_
  intro duty hwork
  have hhere : (Phase.accept events).Attends .accept := Or.inr ⟨events, rfl⟩
  rcases hwork.of_notify.of_update with hold | ⟨-, ⟨rfl, -⟩ | ⟨rfl, -⟩⟩
  · cases duty with
    | accept => exact Or.inr (Or.inr (hphase ▸ hhere))
    | receive other => exact Or.inl hold
    | send other => exact Or.inl hold
    | answer => exact Or.inl hold
    | stop => exact Or.inl hold
  · exact Or.inr (Or.inl (mem_notify _ _))
  · refine Or.inr (Or.inr (Or.inl ?_))
    change reactor.phase.BeforeAnswers
    rw [hphase]
    trivial

theorem kept_acceptStops (hkept : watch.NothingLost reactor) {events : List EpollEvent}
    (hphase : reactor.phase = .accept events) (hnone : reactor.backlog = 0) :
    watch.NothingLost { reactor with phase := .handle events } := by
  refine kept_of_moves hkept fun duty hwork hattended => Or.inr ?_
  rw [hphase] at hattended
  refine attends_of_events hattended trivial nofun rfl ?_ fun _ _ => nofun
  rintro rfl -
  exact absurd hnone hwork.2.ne'

/-- What is read is received, and there may be more. -/
theorem kept_read {after : Text → Text} (hkept : watch.NothingLost reactor) {socket : Int}
    {events : List EpollEvent} (hphase : reactor.phase = .receive socket events) {count : Nat}
    {calls : List Call} (hread : reactor.read after socket count calls = some next) :
    watch.NothingLost next := by
  rw [read] at hread
  split at hread
  · cases hread
  · split at hread
    · split at hread
      · obtain rfl := Option.some.inj hread
        refine kept_perform ?_ calls
        refine kept_of_signals hkept (fun _ hsource => hsource) le_rfl rfl ?_
        intro duty hwork
        rcases hwork.of_update with hold | ⟨-, ⟨rfl, -⟩ | ⟨rfl, -⟩⟩
        · exact Or.inl hold
        · exact Or.inr (Or.inr (Or.inr ⟨events, hphase⟩))
        · refine Or.inr (Or.inr (Or.inl ?_))
          change reactor.phase.BeforeAnswers
          rw [hphase]
          trivial
      · cases hread
    · cases hread

theorem attends_of_receive {socket : Int} {events : List EpollEvent} {duty : Duty}
    (hother : duty ≠ .receive socket) (hattended : (Phase.receive socket events).Attends duty) :
    (Phase.handle events).Attends duty := by
  refine attends_of_events hattended trivial nofun rfl (fun _ => nofun) ?_
  rintro other rfl ⟨events', hhere⟩
  exact hother (congrArg Duty.receive (Phase.receive.inj hhere).1.symm)

/-- The thread turns from a client that has nothing left, or has ended. -/
theorem kept_readStops (hkept : watch.NothingLost reactor) {socket : Int}
    {events : List EpollEvent} (hphase : reactor.phase = .receive socket events)
    (hstops : reactor.readStops socket events = some next) : watch.NothingLost next := by
  rw [readStops] at hstops
  split at hstops
  · cases hstops
  · rename_i connection hlookup
    split at hstops
    · cases hstops
    · rename_i hempty
      split at hstops
      · obtain rfl := Option.some.inj hstops
        refine kept_remove hkept fun duty hother hattended => ?_
        rw [hphase] at hattended
        exact attends_of_receive hother hattended
      · rename_i hopen
        obtain rfl := Option.some.inj hstops
        refine kept_of_moves hkept fun duty hwork hattended => Or.inr ?_
        rw [hphase] at hattended
        refine attends_of_receive ?_ hattended
        rintro rfl
        obtain ⟨-, found, hfound, hunread⟩ := hwork
        obtain rfl := Option.some.inj (hlookup.symm.trans hfound)
        exact hunread.elim hempty hopen

/-- A queued response is sent, or the send pass begins with every client. -/
theorem kept_asyncTurn (calls : ρ → List Call) (hkept : watch.NothingLost reactor)
    (hphase : reactor.phase = .asyncQueueEvent) : watch.NothingLost (reactor.asyncTurn calls) := by
  have hbefore : reactor.phase.BeforeAnswers := by
    rw [hphase]
    trivial
  rw [asyncTurn]
  cases hget : reactor.mAsyncResponses.get.1 with
  | some response =>
      have hring : reactor.mAsyncResponses.get = (some response, reactor.mAsyncResponses.get.2) :=
        Prod.ext hget rfl
      rw [hring]
      refine kept_perform ?_ (calls response)
      refine kept_of_signals hkept (fun _ hsource => hsource) le_rfl rfl ?_
      intro duty hwork
      cases duty with
      | accept => exact Or.inl hwork
      | receive socket => exact Or.inl hwork
      | send socket => exact Or.inl hwork
      | answer => exact Or.inr (Or.inr hbefore)
      | stop => exact Or.inl hwork
  | none =>
      rw [MPSCRingBuffer.get_of_none hget]
      by_cases hstopping : reactor.stopping = true
      · simp only [if_pos hstopping]
        exact kept_of_stopping hstopping nofun
      · simp only [if_neg hstopping]
        refine kept_of_moves hkept fun duty hwork hattended => Or.inr ?_
        rw [hphase] at hattended
        cases duty with
        | accept => simp [Phase.Attends, Phase.events] at hattended
        | receive socket => simp [Phase.Attends, Phase.events] at hattended
        | send socket =>
            obtain ⟨-, connection, hlookup, -⟩ := hwork
            refine Or.inr ⟨_, rfl, (List.mem_insertionSort _).mpr (AList.mem_keys.mp ?_)⟩
            exact AList.lookup_isSome.mp (by rw [hlookup]; rfl)
        | answer => exact absurd hget hwork.2
        | stop => nofun

/-- A client that is sent to is still to be seen to. -/
theorem kept_update_client (hkept : watch.NothingLost reactor) {socket : Int} {sockets : List Int}
    (hphase : reactor.phase = .send (socket :: sockets)) {connection : Connection}
    (hlookup : reactor.clientList.lookup socket = some connection) (client : TcpClient) :
    watch.NothingLost (reactor.update socket { connection with client := client }) := by
  refine kept_of_signals hkept (fun _ hsource => hsource) le_rfl rfl ?_
  intro duty hwork
  rcases hwork.of_update with hold | ⟨hgoing, ⟨rfl, hunread⟩ | ⟨rfl, -⟩⟩
  · exact Or.inl hold
  · exact Or.inl ⟨hgoing, connection, hlookup, hunread⟩
  · exact Or.inr (Or.inr (Or.inr ⟨_, hphase, List.mem_cons_self⟩))

theorem kept_send (hkept : watch.NothingLost reactor) {socket : Int} {sockets : List Int}
    (hphase : reactor.phase = .send (socket :: sockets)) {reply : Reply}
    (hsend : reactor.send socket reply = some next) : watch.NothingLost next := by
  rw [send] at hsend
  split at hsend
  · cases hsend
  · rename_i connection hlookup
    cases reply with
    | sent count =>
        dsimp only at hsend
        split at hsend
        · obtain rfl := Option.some.inj hsend
          exact kept_update_client hkept hphase hlookup _
        · cases hsend
    | closed => cases hsend
    | again =>
        dsimp only at hsend
        split at hsend
        · cases hsend
        · obtain rfl := Option.some.inj hsend
          exact kept_update_client hkept hphase hlookup _
    | error =>
        dsimp only at hsend
        split at hsend
        · cases hsend
        · obtain rfl := Option.some.inj hsend
          refine kept_of_stopping rfl ?_
          change reactor.phase ≠ .wait
          rw [hphase]
          nofun

/-- The thread turns from a client that offers nothing. -/
theorem kept_sent (hkept : watch.NothingLost reactor) {socket : Int} {sockets : List Int}
    (hphase : reactor.phase = .send (socket :: sockets))
    (hsent : reactor.sent socket sockets = some next) : watch.NothingLost next := by
  rw [sent] at hsent
  split at hsent
  · cases hsent
  · rename_i connection hlookup
    dsimp only at hsent
    split at hsent
    · rename_i hdone
      obtain rfl := Option.some.inj hsent
      have hupdated := kept_update_client hkept hphase hlookup connection.client.getTxData.2
      refine kept_of_moves hupdated fun duty hwork hattended => Or.inr ?_
      change reactor.phase.Attends duty at hattended
      rw [hphase] at hattended
      cases duty with
      | accept => simp [Phase.Attends, Phase.events] at hattended
      | receive other => simp [Phase.Attends, Phase.events] at hattended
      | send other =>
          rcases hattended with hbefore | ⟨_, hhere, hmem⟩
          · exact absurd hbefore id
          · obtain rfl := Phase.send.inj hhere
            rcases List.mem_cons.mp hmem with rfl | hlater
            · obtain ⟨-, found, hfound, hoffers⟩ := hwork
              obtain rfl := Option.some.inj ((AList.lookup_insert _).symm.trans hfound)
              rw [Connection.Offers, (TcpServer.getTxData_settles connection.client).1] at hoffers
              exact absurd hdone.1 hoffers
            · exact Or.inr ⟨_, rfl, hlater⟩
      | answer => exact absurd hattended id
      | stop => nofun
    · cases hsent

theorem kept_step {calls : ρ → List Call} {after : Text → Text} {act : Act ρ}
    (hkept : watch.NothingLost reactor) (hstep : reactor.step calls after act = some next) :
    watch.NothingLost next := by
  cases act with
  | connect =>
      obtain rfl := Option.some.inj hstep
      exact kept_connect hkept
  | arrive socket data =>
      obtain ⟨connection, hlookup, rfl⟩ := Option.map_eq_some_iff.mp hstep
      exact kept_arrival hkept hlookup rfl
  | finish socket =>
      obtain ⟨connection, hlookup, rfl⟩ := Option.map_eq_some_iff.mp hstep
      exact kept_arrival hkept hlookup rfl
  | sendData call =>
      obtain rfl := Option.some.inj hstep
      exact kept_sendData hkept call
  | queueResponse response =>
      obtain rfl := Option.some.inj hstep
      exact kept_queueResponse hkept response
  | stop =>
      obtain rfl := Option.some.inj hstep
      exact kept_stop hkept
  | write =>
      rw [step] at hstep
      split at hstep
      · cases hstep
      · obtain rfl := Option.some.inj hstep
        exact kept_write hkept
  | loop =>
      rw [step] at hstep
      split at hstep
      · obtain rfl := Option.some.inj hstep
        exact kept_loop hkept ‹_›
      · cases hstep
  | epollWait =>
      rw [step] at hstep
      split at hstep
      · split at hstep
        · cases hstep
        · obtain rfl := Option.some.inj hstep
          exact kept_epollWait hkept ‹_›
      · cases hstep
  | event =>
      rw [step] at hstep
      split at hstep
      · obtain rfl := Option.some.inj hstep
        exact kept_handle hkept ‹_›
      · cases hstep
  | accept socket fresh inbound finished calls =>
      rw [step] at hstep
      split at hstep
      · split at hstep
        · obtain rfl := Option.some.inj hstep
          exact kept_perform (kept_accept hkept ‹_› socket _) calls
        · cases hstep
      · cases hstep
  | acceptStops error =>
      rw [step] at hstep
      split at hstep
      · split at hstep
        · obtain rfl := Option.some.inj hstep
          exact kept_of_stopping rfl nofun
        · split at hstep
          · obtain rfl := Option.some.inj hstep
            exact kept_acceptStops hkept ‹_› ‹_›
          · cases hstep
      · cases hstep
  | read count calls =>
      rw [step] at hstep
      split at hstep
      · split at hstep
        · obtain rfl := Option.some.inj hstep
          exact kept_of_stopping ‹_› nofun
        · exact kept_read hkept ‹_› hstep
      · cases hstep
  | readStops =>
      rw [step] at hstep
      split at hstep
      · split at hstep
        · obtain rfl := Option.some.inj hstep
          exact kept_of_stopping ‹_› nofun
        · exact kept_readStops hkept ‹_› hstep
      · cases hstep
  | readFails reset =>
      rw [step] at hstep
      split at hstep
      · rename_i socket events hphase
        split at hstep
        · obtain rfl := Option.some.inj hstep
          refine kept_remove hkept fun duty hother hattended => ?_
          rw [hphase] at hattended
          exact attends_of_receive hother hattended
        · obtain rfl := Option.some.inj hstep
          exact kept_of_stopping rfl nofun
      · cases hstep
  | asyncTurn =>
      rw [step] at hstep
      split at hstep
      · obtain rfl := Option.some.inj hstep
        exact kept_asyncTurn calls hkept ‹_›
      · cases hstep
  | send reply =>
      rw [step] at hstep
      split at hstep
      · exact kept_send hkept ‹_› hstep
      · cases hstep
  | sent =>
      rw [step] at hstep
      split at hstep
      · rename_i hphase
        obtain rfl := Option.some.inj hstep
        refine kept_of_moves hkept fun duty hwork hattended => Or.inr ?_
        rw [hphase] at hattended
        cases duty with
        | accept => simp [Phase.Attends, Phase.events] at hattended
        | receive other => simp [Phase.Attends, Phase.events] at hattended
        | send other =>
            rcases hattended with hbefore | ⟨_, hhere, hmem⟩
            · exact absurd hbefore id
            · obtain rfl := Phase.send.inj hhere
              cases hmem
        | answer => exact absurd hattended id
        | stop => nofun
      · exact kept_sent hkept ‹_› hstep
      · cases hstep

theorem kept_start (maxConnections backlog : Nat) (fresh : Fin ASYNC_RESPONSES → ρ) :
    watch.NothingLost (start maxConnections backlog fresh) := by
  intro duty hwork
  cases duty with
  | accept => exact Or.inl List.mem_cons_self
  | receive socket =>
      obtain ⟨-, connection, hlookup, -⟩ := hwork
      cases hlookup
  | send socket =>
      obtain ⟨-, connection, hlookup, -⟩ := hwork
      cases hlookup
  | answer => exact Or.inl (Or.inr (List.mem_cons_of_mem _ List.mem_cons_self))
  | stop => cases hwork

/--
However the threads and the other sides are interleaved, a reactor thread that
waits without a signal to come has accepted, read and sent all there is, has taken
every response out of the queue, and has not been told to stop.  A run ends where
the code faults: where a send returns 0, and where a client that has failed is
erased with the iterator of the pass.
-/
theorem nothing_lost {calls : ρ → List Call} {after : Text → Text}
    {maxConnections backlog : Nat} {fresh : Fin ASYNC_RESPONSES → ρ}
    (hreaches : Reaches (step calls after) (fun _ _ => True) (start maxConnections backlog fresh)
      reactor)
    (hwaits : reactor.phase = .wait) (hready : reactor.ready = []) (hwrites : reactor.writes = 0) :
    reactor.stopping = false ∧ reactor.backlog = 0 ∧
      (∀ socket connection, reactor.clientList.lookup socket = some connection →
        connection.inbound = [] ∧ connection.finished = false ∧
          connection.client.getTxData.1.2 = 0) ∧
      reactor.mAsyncResponses.get.1 = none := by
  have hkept : watch.NothingLost reactor :=
    hreaches.invariant (kept_start maxConnections backlog fresh) fun _ _ _ hkept _ hstep =>
      kept_step hkept hstep
  have hidle (duty : Duty) : ¬ reactor.Work duty := by
    refine hkept.idle ?_ ?_
    · rintro hsignalled
      cases duty <;> simp [watch, Signalled, hready, hwrites] at hsignalled
    · rintro hattended
      cases duty <;> simp [watch, Phase.Attends, Phase.events, Phase.BeforeAnswers, hwaits]
        at hattended
  have hgoing : reactor.stopping = false := Bool.eq_false_iff.mpr (hidle .stop)
  refine ⟨hgoing, ?_, ?_, ?_⟩
  · exact Nat.eq_zero_of_not_pos fun hpos => hidle .accept ⟨hgoing, hpos⟩
  · intro socket connection hlookup
    have hread : ¬ connection.Unread := fun hunread =>
      hidle (.receive socket) ⟨hgoing, connection, hlookup, hunread⟩
    obtain ⟨hinbound, hfinished⟩ := not_or.mp hread
    refine ⟨not_not.mp hinbound, Bool.eq_false_iff.mpr hfinished, ?_⟩
    exact not_not.mp fun hoffers => hidle (.send socket) ⟨hgoing, connection, hlookup, hoffers⟩
  · exact not_not.mp fun hanswer => hidle .answer ⟨hgoing, hanswer⟩

/-- A client connects and sends a part of a request, for which two bytes are sent to it. -/
def exampleActs : List (Act Text) :=
  [.loop, .epollWait, .event, .accept 5 (fun _ => ⟨[], 0, 0, false⟩) "GET /".toList false [],
    .acceptStops false, .event, .event, .asyncTurn, .sent, .sent, .loop, .epollWait, .event,
    .read 5 [⟨5, "hi".toList, true⟩], .readStops, .event, .asyncTurn, .send (.sent 1), .send .again,
    .send (.sent 1), .sent, .sent, .loop, .epollWait, .event, .event, .asyncTurn, .sent, .sent,
    .loop]

/-- The thread waits, and nothing is signalled. -/
def Waits (reactor : Reactor ρ) : Bool :=
  match reactor.phase with
  | .wait => reactor.ready.isEmpty && reactor.writes == 0
  | _ => false

theorem Waits.eq (hwaits : reactor.Waits = true) :
    reactor.phase = .wait ∧ reactor.ready = [] ∧ reactor.writes = 0 := by
  rw [Waits] at hwaits
  split at hwaits
  · obtain ⟨hready, hwrites⟩ := Bool.and_eq_true_iff.mp hwaits
    exact ⟨‹_›, List.isEmpty_iff.mp hready, beq_iff_eq.mp hwrites⟩
  · cases hwaits

theorem exampleActs_wait :
    ((runAll (step (fun _ => []) fun _ => []) (start 1 1 fun _ => []) exampleActs).any
      fun reactor => reactor.Waits && reactor.clientList.keys == [5]) = true := by
  decide +kernel

theorem nothing_lost_example :
    ∃ reactor : Reactor Text, reactor.clientList.keys = [5] ∧
      reactor.stopping = false ∧ reactor.backlog = 0 ∧
        (∀ socket connection, reactor.clientList.lookup socket = some connection →
          connection.inbound = [] ∧ connection.finished = false ∧
            connection.client.getTxData.1.2 = 0) ∧
        reactor.mAsyncResponses.get.1 = none := by
  obtain ⟨reactor, hrun, hends⟩ := (Option.any_eq_true _ _).mp exampleActs_wait
  obtain ⟨hwaits, hkeys⟩ := Bool.and_eq_true_iff.mp hends
  obtain ⟨hphase, hready, hwrites⟩ := Waits.eq hwaits
  exact ⟨reactor, beq_iff_eq.mp hkeys,
    nothing_lost (Reaches.start.runAll (fun _ _ _ => trivial) hrun) hphase hready hwrites⟩

end Reactor

end DumaisLib.WebServer
