import DumaisLib.WebSocket.Accept
import DumaisLib.WebSocket.Answers
import Mathlib.Data.Prod.Lex

/-!
# Whole conversations

Until the request has arrived in full the server has queued nothing.  From then on
the messages that have arrived are answered, in order, and the others are on
their way.
-/

set_option linter.dupNamespace false

namespace DumaisLib.WebSocket

open Machine Rfc6455 DumaisLib.Utils

/-! ## The two phases -/

namespace Conversation

variable {service : Service} {handshake : Handshake service} {conversation next : Conversation}

/-- The request has not arrived in full. -/
structure Asking (handshake : Handshake service) (conversation : Conversation) : Prop where
  protocol : conversation.server.protocol = .http
  parser : conversation.server.httpParser.Sound
  toServer_ne_nil : conversation.toServer ≠ []
  arrived : ∃ part, part ++ conversation.toServer = handshake.bytes ∧
    conversation.server.httpParser.held = Text.ofBytes part
  wsParser : Tracks conversation.server.wsParser []
  log : conversation.server.log = []
  sent : conversation.sent = []
  streams : conversation.Streams []

/-- The frames `told` have been answered, and the frames `coming` are on their way. -/
structure Talking (handshake : Handshake service) (conversation : Conversation)
    (told coming : List ClientFrame) : Prop where
  protocol : conversation.server.protocol = .webSocket
  connected : conversation.server.connectionState = .connected
  sent : conversation.sent = told ++ coming
  deliverable : ∀ frame ∈ conversation.sent, Deliverable frame
  arriving : ∃ fed, Tracks conversation.server.wsParser fed ∧ Collected fed ∧
    feedAll fed conversation.toServer = some ([], coming.map ClientFrame.encode)
  log : conversation.server.log = handshake.opening ++ told.map (.message ∘ messageOfFrame)
  asked : conversation.sent ≠ [] → (behindHeader conversation.received).isSome
  window : conversation.sent.length ≤ conversation.frames.length + WINDOW
  streams : conversation.Streams (handshake.queued told)

def Inv (handshake : Handshake service) (conversation : Conversation) : Prop :=
  conversation.Asking handshake ∨ ∃ told coming, conversation.Talking handshake told coming

theorem frames_mono {bytes more : List Byte} :
    (((behindHeader bytes).map frameReader.complete).getD []).length ≤
      (((behindHeader (bytes ++ more)).map frameReader.complete).getD []).length := by
  cases hbehind : behindHeader bytes with
  | none => exact Nat.zero_le _
  | some rest =>
      rw [behindHeader_append more hbehind]
      exact (frameReader.complete_append rest more).length_le

/-- The client has read a beginning of the queued buffers, and the frames among them. -/
theorem Streams.frames_eq {told : List ClientFrame}
    (hstreams : conversation.Streams (handshake.queued told)) :
    behindHeader conversation.received = none ∧ conversation.frames = [] ∨
      ∃ count ≤ told.length,
        conversation.frames = ((handshake.answers told).take count).map Message.frame ∧
        ((handshake.queued told).take (count + 1)).flatten <+: conversation.received := by
  have hbegins : conversation.received <+: (handshake.queued told).flatten := by
    rw [← hstreams.stream, List.append_assoc]
    exact List.prefix_append _ _
  rcases handshake.read_beginning hbegins with hnone | ⟨count, hcount, hframes, hread⟩
  · exact Or.inl ⟨hnone, by rw [frames, hnone]; rfl⟩
  · exact Or.inr ⟨count, hcount, by rw [frames, hframes]; rfl, hread⟩

/-- The queue has room for the answers to everything that is on its way. -/
theorem Talking.room {told coming : List ClientFrame}
    (htalking : conversation.Talking handshake told coming) :
    conversation.server.sendQueue.waiting.held.length + coming.length < TX_LIST_SIZE := by
  have hsize : TX_LIST_SIZE = WINDOW + 1 := rfl
  have hsent := congrArg List.length htalking.sent
  have hlength := handshake.length_queued told
  rw [List.length_append] at hsent
  rcases htalking.streams.frames_eq with ⟨hnone, -⟩ | ⟨count, hcount, hframes, hread⟩
  · have hnil : conversation.sent = [] := by
      by_contra hne
      have hsome := htalking.asked hne
      rw [hnone] at hsome
      cases hsome
    rw [hnil, List.length_nil] at hsent
    have hheld := htalking.streams.held.length_le
    have hwindow : WINDOW = 999 := rfl
    rw [List.length_map] at hheld
    omega
  · have hheld := htalking.streams.held_length_le (handshake.queued_ne_nil told)
      (show count + 1 ≤ (handshake.queued told).length by omega) hread
    have hwindow := htalking.window
    have hanswers : (handshake.answers told).length = told.length := Service.length_answers _ _ _
    rw [hframes, List.length_map, List.length_take, hanswers] at hwindow
    omega

theorem processData_webSocket {app : Application} {now fuel : Nat} {ws next : WebSocket}
    {chunk : List Byte} (hprotocol : ws.protocol = .webSocket)
    (hconnected : next.connectionState = .connected)
    (hloop : ws.receiveLoop app now fuel chunk = .finished next) :
    ws.processData app now fuel chunk = .finished (true, next) := by
  rw [WebSocket.processData, hprotocol]
  simp only [hloop, hconnected]
  rfl

end Conversation

/-! ## Steps -/

theorem fed_length_le {bytes buf : List Byte} {frames : List ClientFrame}
    (hfeed : feedAll bytes buf = some ([], frames.map ClientFrame.encode)) :
    bytes.length ≤ 2 ^ 17 := by
  refine collected_length_le hfeed (fun encoded hencoded => ?_) (Nat.zero_le _)
  obtain ⟨frame, _, rfl⟩ := List.mem_map.mp hencoded
  have hlt := frame.payload_length_lt
  have hsize := (headerOf frame).headerSize_cases
  rw [headerSize_headerOf] at hsize
  rw [frame.length_encode]
  omega

namespace Conversation

variable {service : Service} {handshake : Handshake service} {conversation next : Conversation}
  {now count : Nat}

theorem step_deliver {server : WebSocket} {app : Application}
    (hguard : 1 ≤ count ∧ count ≤ RECEIVE_SIZE ∧ count ≤ conversation.toServer.length)
    (hprocess : conversation.server.processData app now count
      (conversation.toServer.take count) = .finished (true, server)) :
    conversation.step app (.deliver now count) = some { conversation with
      server := server
      toServer := conversation.toServer.drop count } := by
  rw [step, if_pos hguard, hprocess]

/-- Bytes of the request arrive. -/
theorem Asking.deliver (hasking : conversation.Asking handshake)
    (hguard : 1 ≤ count ∧ count ≤ RECEIVE_SIZE ∧ count ≤ conversation.toServer.length) :
    ∃ next, conversation.step service.application (.deliver now count) = some next ∧
      next.Inv handshake := by
  obtain ⟨part, harrived, hheld⟩ := hasking.arrived
  have hsplit : part ++ (conversation.toServer.take count ++ conversation.toServer.drop count) =
      handshake.bytes := by
    rw [List.take_append_drop, harrived]
  by_cases hrest : conversation.toServer.drop count = []
  · rw [hrest, List.append_nil] at hsplit
    obtain ⟨server, hcheck, hprotocol, hconnected, hlog, hqueue⟩ :=
      handshake.checkHTTPBuffer_last hasking.parser hasking.log hheld hsplit
    have hprocess : conversation.server.processData service.application now count
        (conversation.toServer.take count) = .finished (true, server) := by
      rw [WebSocket.processData, hasking.protocol]
      simp only [hcheck]
    refine ⟨_, step_deliver hguard hprocess, Or.inr ⟨[], [], ?_⟩⟩
    exact {
      protocol := hprotocol
      connected := hconnected
      sent := hasking.sent
      deliverable := by
        intro frame hframe
        rw [show frame ∈ conversation.sent ↔ frame ∈ [] by rw [hasking.sent]] at hframe
        cases hframe
      arriving := by
        refine ⟨[], ?_, collected_nil, ?_⟩
        · have hparser := WebSocket.checkHTTPBuffer_wsParser hcheck
          exact hparser ▸ hasking.wsParser
        · rw [hrest]
          rfl
      log := hlog.trans (List.append_nil _).symm
      asked := fun hne => absurd hasking.sent hne
      window := by
        rw [show conversation.sent.length = 0 by rw [hasking.sent]; rfl]
        exact Nat.zero_le _
      streams := by
        have hroom : conversation.server.sendQueue.waiting.held.length + 1 < TX_LIST_SIZE := by
          have hlength := hasking.streams.held.length_le
          rw [List.length_map, List.length_nil] at hlength
          have hsize : TX_LIST_SIZE = 1000 := rfl
          omega
        refine hasking.streams.putAll (List.forall_mem_singleton.mpr
          ⟨handshake.response_ne_nil, handshake.response_lt⟩) hroom rfl rfl
          (fun _ => hconnected) hqueue }
  · obtain ⟨hcheck, hsound, hheld'⟩ :=
      handshake.checkHTTPBuffer_part hasking.parser hheld hsplit hrest
    have hprocess : conversation.server.processData service.application now count
        (conversation.toServer.take count) = .finished (true, { conversation.server with
          httpParser := .afterwards (Text.ofBytes (part ++ conversation.toServer.take count)) }) := by
      rw [WebSocket.processData, hasking.protocol]
      simp only [hcheck]
    refine ⟨_, step_deliver hguard hprocess, Or.inl ?_⟩
    exact {
      protocol := hasking.protocol
      parser := hsound
      toServer_ne_nil := hrest
      arrived := ⟨part ++ conversation.toServer.take count, by rw [List.append_assoc, hsplit], hheld'⟩
      wsParser := hasking.wsParser
      log := hasking.log
      sent := hasking.sent
      streams := ⟨hasking.streams.sending, hasking.streams.stream, hasking.streams.held⟩ }

/-- Bytes of frames arrive. -/
theorem Talking.deliver {told coming : List ClientFrame}
    (htalking : conversation.Talking handshake told coming)
    (hguard : 1 ≤ count ∧ count ≤ RECEIVE_SIZE ∧ count ≤ conversation.toServer.length) :
    ∃ next, conversation.step service.application (.deliver now count) = some next ∧
      next.Inv handshake := by
  obtain ⟨fed, htracks, hcollected, hfeed⟩ := htalking.arriving
  have hlimit := fed_length_le hfeed
  rw [← List.take_append_drop count conversation.toServer, feedAll_append] at hfeed
  obtain ⟨⟨fed', done⟩, hdone, hrest⟩ := Option.bind_eq_some_iff.mp hfeed
  obtain ⟨⟨last, later⟩, hlater, heq⟩ := Option.map_eq_some_iff.mp hrest
  obtain ⟨rfl, happend⟩ := Prod.mk.inj heq
  obtain ⟨first, second, rfl, rfl, rfl⟩ := List.map_eq_append_iff.mp happend.symm
  have hlength : (conversation.toServer.take count).length = count :=
    List.length_take_of_le hguard.2.2
  have hne : conversation.toServer.take count ≠ [] :=
    List.ne_nil_of_length_pos (by omega)
  have hreceive : RECEIVE_SIZE = 1024 := rfl
  obtain ⟨p, htracks', hcollected', -, hloop⟩ :=
    @WebSocket.receiveLoop_feeds service.application now conversation.server fed _ _ _ _
      htracks hcollected (by omega) hne hdone hlength.le
  have hopen : ¬ Refused fed' := by
    intro hrefused
    rw [feedAll_refused hrefused] at hlater
    obtain ⟨rfl, -⟩ := Prod.mk.inj (Option.some.inj hlater)
    exact absurd hrefused.1 (by decide)
  rw [WebSocket.respond, if_neg hopen] at hloop
  have hfirst : ∀ frame ∈ first, Deliverable frame := fun frame hframe =>
    htalking.deliverable frame (by
      rw [htalking.sent]
      exact List.mem_append_right _ (List.mem_append_left _ hframe))
  have hroom := htalking.room
  rw [List.length_append] at hroom
  obtain ⟨hqueue, hconnected⟩ := act_answers service now htalking.connected
    htalking.streams.sending.2.wellFormed (by omega) hfirst
  obtain ⟨hlog, hprotocol⟩ := WebSocket.act_data
    (show service.application.onMessage = some _ from rfl) now conversation.server hfirst
  have hconnected' : ((conversation.server.act service.application now
      (first.map ClientFrame.encode)).withParser p).connectionState = .connected := hconnected
  refine ⟨_, step_deliver hguard (processData_webSocket htalking.protocol hconnected' hloop),
    Or.inr ⟨told ++ first, second, ?_⟩⟩
  exact {
    protocol := hprotocol.trans htalking.protocol
    connected := hconnected
    sent := htalking.sent.trans (List.append_assoc _ _ _).symm
    deliverable := htalking.deliverable
    arriving := ⟨fed', htracks', hcollected', hlater⟩
    log := by
      refine hlog.trans ?_
      rw [htalking.log, List.map_append, List.append_assoc]
    asked := htalking.asked
    window := htalking.window
    streams := by
      rw [handshake.queued_append, ← htalking.log]
      refine htalking.streams.putAll ?_ ?_ rfl rfl (fun _ => hconnected) ?_
      · intro buffer hbuffer
        obtain ⟨message, -, rfl⟩ := List.mem_map.mp hbuffer
        exact message.encode_bounds
      · rw [List.length_map, Service.length_answers]
        omega
      · rw [List.map_map]
        exact hqueue }

theorem Inv.deliver (hinv : conversation.Inv handshake)
    (hguard : 1 ≤ count ∧ count ≤ RECEIVE_SIZE ∧ count ≤ conversation.toServer.length) :
    ∃ next, conversation.step service.application (.deliver now count) = some next ∧
      next.Inv handshake := by
  rcases hinv with hasking | ⟨told, coming, htalking⟩
  · exact hasking.deliver hguard
  · exact htalking.deliver hguard

end Conversation

namespace Conversation

variable {service : Service} {handshake : Handshake service} {conversation next : Conversation}

theorem step_deliver_keeps {app : Application} {now count : Nat}
    (hstep : conversation.step app (.deliver now count) = some next) :
    next.toServer = conversation.toServer.drop count ∧ next.sent = conversation.sent ∧
      1 ≤ count ∧ count ≤ RECEIVE_SIZE ∧ count ≤ conversation.toServer.length := by
  rw [step] at hstep
  split at hstep
  · rename_i hguard
    split at hstep
    · obtain rfl := Option.some.inj hstep
      exact ⟨rfl, rfl, hguard⟩
    · cases hstep
  · cases hstep

/-- Only the queue and the bytes towards the client may change. -/
theorem Inv.moved (hinv : conversation.Inv handshake)
    (hserver : ∃ current ring, next.server =
      { conversation.server with currentSendBuffer := current, txList := ring })
    (htoServer : next.toServer = conversation.toServer) (hsent : next.sent = conversation.sent)
    (hreceived : conversation.received <+: next.received)
    (hstreams : ∀ queued, conversation.Streams queued → next.Streams queued) :
    next.Inv handshake := by
  obtain ⟨current, ring, hserver⟩ := hserver
  rcases hinv with hasking | ⟨told, coming, htalking⟩
  · refine Or.inl ?_
    exact {
      protocol := by rw [hserver]; exact hasking.protocol
      parser := by rw [hserver]; exact hasking.parser
      toServer_ne_nil := by rw [htoServer]; exact hasking.toServer_ne_nil
      arrived := by rw [htoServer, hserver]; exact hasking.arrived
      wsParser := by rw [hserver]; exact hasking.wsParser
      log := by rw [hserver]; exact hasking.log
      sent := hsent.trans hasking.sent
      streams := hstreams _ hasking.streams }
  · refine Or.inr ⟨told, coming, ?_⟩
    obtain ⟨more, hmore⟩ := hreceived
    exact {
      protocol := by rw [hserver]; exact htalking.protocol
      connected := by rw [hserver]; exact htalking.connected
      sent := hsent.trans htalking.sent
      deliverable := by rw [hsent]; exact htalking.deliverable
      arriving := by rw [htoServer, hserver]; exact htalking.arriving
      log := by rw [hserver]; exact htalking.log
      asked := by
        intro hne
        rw [hsent] at hne
        obtain ⟨rest, hrest⟩ := Option.isSome_iff_exists.mp (htalking.asked hne)
        rw [← hmore, behindHeader_append more hrest]
        rfl
      window := by
        have hmono := @frames_mono conversation.received more
        have hwindow := htalking.window
        rw [hmore] at hmono
        rw [hsent]
        exact hwindow.trans (Nat.add_le_add_right hmono WINDOW)
      streams := hstreams _ htalking.streams }

/-- A client that has read the answer sends another message. -/
theorem Talking.submit {told coming : List ClientFrame}
    (htalking : conversation.Talking handshake told coming) {frame : ClientFrame}
    (hallowed : conversation.Disciplined (.submit frame)) :
    Talking handshake { conversation with
      toServer := conversation.toServer ++ frame.encode
      sent := conversation.sent ++ [frame] } told (coming ++ [frame]) := by
  obtain ⟨hframe, hread, hwindow⟩ := hallowed
  obtain ⟨fed, htracks, hcollected, hfeed⟩ := htalking.arriving
  have hlast := feedAll_encodes (List.forall_mem_singleton.mpr hframe)
  rw [List.flatMap_singleton, List.map_singleton] at hlast
  exact {
    protocol := htalking.protocol
    connected := htalking.connected
    sent := by
      change conversation.sent ++ [frame] = _
      rw [htalking.sent, List.append_assoc]
    deliverable := List.forall_mem_append.mpr
      ⟨htalking.deliverable, List.forall_mem_singleton.mpr hframe⟩
    arriving := by
      refine ⟨fed, htracks, hcollected, ?_⟩
      rw [feedAll_append, hfeed, Option.bind_some, hlast, List.map_append]
      rfl
    log := htalking.log
    asked := fun _ => hread
    window := by
      change (conversation.sent ++ [frame]).length ≤ _
      rw [List.length_append]
      exact hwindow
    streams := ⟨htalking.streams.sending, htalking.streams.stream, htalking.streams.held⟩ }

theorem Asking.behindHeader_received (hasking : conversation.Asking handshake) :
    behindHeader conversation.received = none := by
  have hstream := hasking.streams.stream
  rw [List.append_assoc, List.flatten_nil] at hstream
  rw [(List.append_eq_nil_iff.mp hstream).1]
  rfl

theorem Inv.not_timedOut (hinv : conversation.Inv handshake) (now : Nat) :
    ¬ Session.TimedOut conversation.server now := by
  rintro ⟨hprotocol, hclosing, -⟩
  rcases hinv with hasking | ⟨told, coming, htalking⟩
  · rw [hasking.protocol] at hprotocol
    cases hprotocol
  · rw [htalking.connected] at hclosing
    cases hclosing

theorem Inv.watchdog_eq (hinv : conversation.Inv handshake) (now : Nat) :
    (conversation.server.watchdog now).2 = conversation.server := by
  rw [Session.watchdog_eq, if_neg (hinv.not_timedOut now)]

theorem Inv.step {act : Act} (hinv : conversation.Inv handshake)
    (hallowed : conversation.Disciplined act)
    (hstep : conversation.step service.application act = some next) : next.Inv handshake := by
  cases act with
  | deliver now count =>
      obtain ⟨-, -, hguard⟩ := step_deliver_keeps hstep
      obtain ⟨last, hlast, hkept⟩ := @Inv.deliver _ _ _ now _ hinv hguard
      rw [hstep] at hlast
      exact Option.some.inj hlast ▸ hkept
  | transmit count =>
      have hmoves (queued : List (List Byte)) (hstreams : conversation.Streams queued) :=
        hstreams.transmit hstep
      have hany : ∃ queued, conversation.Streams queued := by
        rcases hinv with hasking | ⟨told, coming, htalking⟩
        · exact ⟨_, hasking.streams⟩
        · exact ⟨_, htalking.streams⟩
      obtain ⟨queued, hstreams⟩ := hany
      obtain ⟨-, htoServer, hreceived, hsent, hserver⟩ := hmoves queued hstreams
      exact hinv.moved hserver htoServer hsent (hreceived ▸ List.prefix_rfl)
        fun queued hstreams => (hmoves queued hstreams).1
  | watchdog now =>
      rw [Conversation.step] at hstep
      simp only [hinv.watchdog_eq now] at hstep
      split at hstep
      · exact Option.some.inj hstep ▸ hinv
      · cases hstep
  | read count =>
      have hmoves (queued : List (List Byte)) (hstreams : conversation.Streams queued) :=
        hstreams.read hstep
      have hany : ∃ queued, conversation.Streams queued := by
        rcases hinv with hasking | ⟨told, coming, htalking⟩
        · exact ⟨_, hasking.streams⟩
        · exact ⟨_, htalking.streams⟩
      obtain ⟨queued, hstreams⟩ := hany
      obtain ⟨-, hserver, htoServer, hsent, hreceived⟩ := hmoves queued hstreams
      exact hinv.moved ⟨_, _, hserver⟩ htoServer hsent hreceived
        fun queued hstreams => (hmoves queued hstreams).1
  | submit frame =>
      obtain rfl := Option.some.inj hstep
      rcases hinv with hasking | ⟨told, coming, htalking⟩
      · have hread := hallowed.2.1
        rw [hasking.behindHeader_received] at hread
        cases hread
      · exact Or.inr ⟨_, _, htalking.submit hallowed⟩

end Conversation

namespace Conversation

variable {service : Service} {handshake : Handshake service} {conversation : Conversation}

theorem inv_start (handshake : Handshake service) (closingTimeStamp : Nat)
    (connectionState : WSState) (fresh : Fin TX_LIST_SIZE → SendBuffer) :
    (start handshake closingTimeStamp connectionState fresh).Inv handshake := by
  have hheld := (MPSCRingBuffer.Represents.create fresh).held_eq
  have hbuffers : (WebSocket.create closingTimeStamp connectionState fresh).sendQueue.buffers = [] :=
    (List.nil_append _).trans hheld
  refine Or.inl ?_
  exact {
    protocol := rfl
    parser := HTTPProtocolParser.sound_create
    toServer_ne_nil := by
      intro hnil
      have hends := handshake.text.ends
      rw [← handshake.text_eq, show handshake.bytes = [] from hnil] at hends
      cases hends
    arrived := ⟨[], rfl, rfl⟩
    wsParser := Tracks.create
    log := rfl
    sent := rfl
    streams := by
      refine ⟨⟨?_, MPSCRingBuffer.wellFormed_create fresh, ?_⟩, ?_, ?_⟩
      · rintro ⟨⟩
      · change ∀ buffer ∈ (WebSocket.create closingTimeStamp connectionState fresh).sendQueue.buffers, _
        rw [hbuffers]
        exact List.forall_mem_nil _
      · change [] ++ [] ++ (WebSocket.create closingTimeStamp connectionState fresh).pending = _
        rw [WebSocket.pending, SendQueue.pending, hbuffers]
        rfl
      · change (MPSCRingBuffer.create fresh).held <:+ _
        rw [hheld]
        exact List.nil_suffix }

theorem Inv.of_reaches {closingTimeStamp : Nat} {connectionState : WSState}
    {fresh : Fin TX_LIST_SIZE → SendBuffer}
    (hreaches : Reaches (Conversation.step service.application) Disciplined
      (start handshake closingTimeStamp connectionState fresh) conversation) :
    conversation.Inv handshake :=
  hreaches.invariant (inv_start handshake closingTimeStamp connectionState fresh)
    fun _ _ _ hinv hallowed hstep => hinv.step hallowed hstep

/-- In every order of steps the client reads the answers to its messages in the order sent. -/
theorem answered_in_order {closingTimeStamp : Nat} {connectionState : WSState}
    {fresh : Fin TX_LIST_SIZE → SendBuffer}
    (hreaches : Reaches (step service.application) Disciplined
      (start handshake closingTimeStamp connectionState fresh) conversation) :
    conversation.frames <+: (handshake.answers conversation.sent).map Message.frame ∧
      conversation.server.log <+:
        handshake.opening ++ conversation.sent.map (.message ∘ messageOfFrame) ∧
      (∀ now count, 1 ≤ count → count ≤ RECEIVE_SIZE → count ≤ conversation.toServer.length →
        (conversation.step service.application (.deliver now count)).isSome) ∧
      ∀ now, (conversation.step service.application (.watchdog now)).isSome := by
  have hinv := Inv.of_reaches hreaches
  refine ⟨?_, ?_, ?_, ?_⟩
  · rcases hinv with hasking | ⟨told, coming, htalking⟩
    · rw [frames, hasking.behindHeader_received]
      exact List.nil_prefix
    · rcases htalking.streams.frames_eq with ⟨-, hframes⟩ | ⟨count, -, hframes, -⟩
      · rw [hframes]
        exact List.nil_prefix
      · rw [hframes, htalking.sent, Handshake.answers, Handshake.answers, Service.answers_append,
          List.map_append]
        exact ((List.take_prefix _ _).map _).trans (List.prefix_append _ _)
  · rcases hinv with hasking | ⟨told, coming, htalking⟩
    · rw [hasking.log]
      exact List.nil_prefix
    · rw [htalking.log, htalking.sent, List.map_append, ← List.append_assoc]
      exact List.prefix_append _ _
  · intro now count hpos hsize hlength
    obtain ⟨next, hnext, -⟩ := @Inv.deliver _ _ _ now _ hinv ⟨hpos, hsize, hlength⟩
    rw [hnext]
    rfl
  · intro now
    have hwatched : (conversation.server.watchdog now).1 = true := by
      have hlong := hinv.not_timedOut now
      rw [WebSocket.watchdog]
      split
      · rfl
      · rename_i hprotocol
        rw [if_neg fun hclosing => hlong ⟨not_not.mp hprotocol, hclosing⟩]
    rw [step]
    simp only [hwatched, if_true, Option.isSome_some]

end Conversation

/-! ## Conversations come to an end -/

namespace Conversation

variable {service : Service} {handshake : Handshake service} {conversation : Conversation}

/-- The client sends nothing more. -/
def Act.Quiet : Act → Prop
  | .submit _ => False
  | _ => True

theorem Act.Quiet.disciplined {act : Act} (hquiet : act.Quiet) (conversation : Conversation) :
    conversation.Disciplined act := by
  cases act with
  | submit frame => exact absurd hquiet id
  | deliver now count => trivial
  | transmit count => trivial
  | watchdog now => trivial
  | read count => trivial

/-- Everything has arrived. -/
def Settled (conversation : Conversation) : Prop :=
  conversation.toServer = [] ∧ conversation.server.pending = [] ∧ conversation.toClient = []

/-- The bytes that are still under way, those to the server first. -/
def outstanding (conversation : Conversation) : ℕ ×ₗ ℕ ×ₗ ℕ :=
  toLex (conversation.toServer.length,
    toLex (conversation.server.pending.length, conversation.toClient.length))

theorem Inv.streams (hinv : conversation.Inv handshake) :
    ∃ queued, conversation.Streams queued := by
  rcases hinv with hasking | ⟨told, coming, htalking⟩
  · exact ⟨_, hasking.streams⟩
  · exact ⟨_, htalking.streams⟩

/-- A byte that waits in the queue can be handed out. -/
theorem Streams.transmit_one {app : Application} {queued : List (List Byte)}
    (hstreams : conversation.Streams queued) (hpending : conversation.server.pending ≠ []) :
    ∃ next, conversation.step app (.transmit 1) = some next ∧
      next.server.pending.length < conversation.server.pending.length := by
  have hsize : conversation.server.getTxData.1.2 ≠ 0 := fun hzero =>
    hpending (WebSocket.pending_of_getTxData_zero hstreams.sending hzero)
  have hsound : conversation.server.Sound :=
    ⟨hstreams.sending.2.wellFormed, fun buffer hmem =>
      (hstreams.sending.2.buffers buffer hmem).1⟩
  have hlength := WebSocket.getTxData_length hsound
  have hstep : conversation.step app (.transmit 1) = some { conversation with
      server := conversation.server.getTxData.2.onDataSent 1
      toClient := conversation.toClient ++ conversation.server.getTxData.1.1.take 1 } := by
    rw [step, if_neg Nat.one_ne_zero, if_pos (Nat.one_le_iff_ne_zero.mpr hsize)]
  refine ⟨_, hstep, ?_⟩
  obtain ⟨hnext, -, -⟩ := hstreams.transmit hstep
  have htaken := congrArg List.length (hnext.stream.trans hstreams.stream.symm)
  simp only [List.length_append, List.length_take] at htaken
  dsimp only
  omega

/-- As long as something is under way, a step brings the conversation nearer to its end. -/
theorem Inv.progress (hinv : conversation.Inv handshake) :
    conversation.Settled ∨ ∃ act next, act.Quiet ∧
      conversation.step service.application act = some next ∧
      (next.Inv handshake ∧ next.sent = conversation.sent) ∧
      next.outstanding < conversation.outstanding := by
  obtain ⟨queued, hstreams⟩ := hinv.streams
  by_cases htoServer : conversation.toServer = []
  · by_cases hpending : conversation.server.pending = []
    · by_cases htoClient : conversation.toClient = []
      · exact Or.inl ⟨htoServer, hpending, htoClient⟩
      · have hpos := List.length_pos_iff.mpr htoClient
        have hstep : conversation.step service.application (.read 1) = some { conversation with
            toClient := conversation.toClient.drop 1
            received := conversation.received ++ conversation.toClient.take 1 } := by
          rw [Conversation.step, if_pos ⟨le_rfl, hpos⟩]
        have hquiet : (Act.read 1).Quiet := trivial
        refine Or.inr ⟨_, _, hquiet, hstep, ⟨hinv.step (hquiet.disciplined _) hstep, rfl⟩, ?_⟩
        refine Prod.Lex.toLex_lt_toLex.mpr (Or.inr ⟨rfl, ?_⟩)
        refine Prod.Lex.toLex_lt_toLex.mpr (Or.inr ⟨rfl, ?_⟩)
        rw [List.length_drop]
        omega
    · obtain ⟨next, hstep, hless⟩ := hstreams.transmit_one hpending
      obtain ⟨-, hsame, -, hsent, -⟩ := hstreams.transmit hstep
      have hquiet : (Act.transmit 1).Quiet := trivial
      refine Or.inr ⟨_, next, hquiet, hstep, ⟨hinv.step (hquiet.disciplined _) hstep, hsent⟩, ?_⟩
      refine Prod.Lex.toLex_lt_toLex.mpr (Or.inr ⟨congrArg List.length hsame, ?_⟩)
      exact Prod.Lex.toLex_lt_toLex.mpr (Or.inl hless)
  · have hpos := List.length_pos_iff.mpr htoServer
    obtain ⟨next, hstep, hkept⟩ := @Inv.deliver _ _ _ 0 1 hinv ⟨le_rfl, by decide, hpos⟩
    obtain ⟨hdrop, hsent, -⟩ := step_deliver_keeps hstep
    refine Or.inr ⟨.deliver 0 1, next, trivial, hstep, ⟨hkept, hsent⟩, ?_⟩
    refine Prod.Lex.toLex_lt_toLex.mpr (Or.inl ?_)
    rw [hdrop, List.length_drop]
    omega

/-- When everything has arrived, every message has been told and its answer read. -/
theorem Inv.settled (hinv : conversation.Inv handshake) (hsettled : conversation.Settled) :
    conversation.frames = (handshake.answers conversation.sent).map Message.frame ∧
      conversation.server.log =
        handshake.opening ++ conversation.sent.map (.message ∘ messageOfFrame) ∧
      conversation.server.connectionState = .connected := by
  obtain ⟨htoServer, hpending, htoClient⟩ := hsettled
  rcases hinv with hasking | ⟨told, coming, htalking⟩
  · exact absurd htoServer hasking.toServer_ne_nil
  · obtain ⟨fed, -, -, hfeed⟩ := htalking.arriving
    rw [htoServer] at hfeed
    have hnone : coming = [] :=
      List.map_eq_nil_iff.mp (Prod.mk.inj (Option.some.inj hfeed)).2.symm
    have hsent := htalking.sent
    rw [hnone, List.append_nil] at hsent
    have hreceived := htalking.streams.stream
    rw [hpending, htoClient, List.append_nil, List.append_nil, handshake.flatten_queued]
      at hreceived
    refine ⟨?_, by rw [hsent]; exact htalking.log, htalking.connected⟩
    rw [frames, hreceived, handshake.behindHeader_response, hsent]
    exact StreamReader.Reader.complete_flatMap fun message _ => message.decodeFrame_serverFrame

/-- Without another message every conversation can come to where each message is answered. -/
theorem conversation_completes {closingTimeStamp : Nat} {connectionState : WSState}
    {fresh : Fin TX_LIST_SIZE → SendBuffer}
    (hreaches : Reaches (step service.application) Disciplined
      (start handshake closingTimeStamp connectionState fresh) conversation) :
    ∃ acts last, (∀ act ∈ acts, act.Quiet) ∧
      runAll (step service.application) conversation acts = some last ∧
      last.sent = conversation.sent ∧
      last.frames = (handshake.answers conversation.sent).map Message.frame ∧
      last.server.log = handshake.opening ++ conversation.sent.map (.message ∘ messageOfFrame) ∧
      last.server.connectionState = .connected := by
  obtain ⟨acts, last, hquiet, hrun, ⟨hlast, hsent⟩, hsettled⟩ :=
    @exists_runAll _ _ _ _ _ (step service.application) Act.Quiet
      (fun state => state.Inv handshake ∧ state.sent = conversation.sent) Settled outstanding
      (fun state ⟨hinv, hsent⟩ => hinv.progress.imp_right
        fun ⟨act, next, hquiet, hnext, ⟨hkept, hsame⟩, hless⟩ =>
          ⟨act, next, hquiet, hnext, ⟨hkept, hsame.trans hsent⟩, hless⟩)
      conversation ⟨Inv.of_reaches hreaches, rfl⟩
  obtain ⟨hframes, hlog, hconnected⟩ := hlast.settled hsettled
  exact ⟨acts, last, hquiet, hrun, hsent, hsent ▸ hframes, hsent ▸ hlog, hconnected⟩

end Conversation

/-! ## The application of the tests -/

/-- The application chooses `protocol1` for `/ws`, and answers every message with the same text. -/
def exampleService : Service where
  choose log := match log.getLast? with
    | some (.webSocketRequest resource protocols) =>
        if (protocols.lookup "protocol1".toList).isSome ∧ resource = "/ws".toList then
          some "protocol1".toList
        else none
    | _ => none
  answer _ := .text "Oh yeah! It works!".toList
  fits _ := by decide
  onNewConnection := true
  onConnectionClosed := true
  digest := standardAccept

def exampleRequest : HTTPProtocolParser.RequestText where
  text := "GET /ws HTTP/1.1\r\nSec-WebSocket-Key: dGhlIHNhbXBsZSBub25jZQ==\r\n".toList ++
    "Sec-WebSocket-Protocol: protocol1\r\n\r\n".toList
  length_lt := by decide
  ends := by decide +kernel

def exampleHandshake : Handshake exampleService where
  bytes := Text.toBytes exampleRequest.text
  text := exampleRequest
  text_eq := by decide +kernel
  key := "dGhlIHNhbXBsZSBub25jZQ==".toList
  chosen := "protocol1".toList
  ready := by decide +kernel
  get := by decide +kernel
  key_eq := by decide +kernel
  chosen_eq := by decide +kernel
  chosen_line := by decide +kernel
  digest_line := by decide +kernel
  response_lt := by decide +kernel

namespace Conversation

def exampleFrame : ClientFrame :=
  ⟨true, 0#3, WS_TEXT, .sixteen, [1#8, 2#8, 3#8, 4#8], [0x68#8, 0x69#8], rfl, by decide⟩

def exampleStart : Conversation :=
  start exampleHandshake 0 .closed fun _ => ⟨[], 0, 0, false⟩

/-- The request arrives in two parts, and the client reads the answer. -/
def exampleActs : List Act :=
  [.deliver 0 40, .watchdog 1, .deliver 1 (exampleHandshake.bytes.length - 40),
    .transmit exampleHandshake.response.length, .read exampleHandshake.response.length]

theorem exampleActs_run :
    (runAll (step exampleService.application) exampleStart exampleActs).bind (fun conversation =>
      (behindHeader conversation.received).map fun rest => (rest, conversation.sent.length)) =
        some ([], 0) := by
  decide +kernel

/-- The client has read the answer and sends a message. -/
theorem exampleReached :
    ∃ conversation : Conversation, conversation.sent = [exampleFrame] ∧
      Reaches (step exampleService.application) Disciplined exampleStart conversation := by
  obtain ⟨conversation, hrun, hread⟩ := Option.bind_eq_some_iff.mp exampleActs_run
  obtain ⟨rest, hbehind, hrest⟩ := Option.map_eq_some_iff.mp hread
  have hsent : conversation.sent = [] := List.eq_nil_of_length_eq_zero (Prod.mk.inj hrest).2
  have hquiet : ∀ act ∈ exampleActs, act.Quiet := by
    simp [exampleActs, Act.Quiet]
  have hreached : Reaches (step exampleService.application) Disciplined exampleStart conversation :=
    Reaches.start.runAll (fun state act hact => (hquiet act hact).disciplined state) hrun
  have hframe : Deliverable exampleFrame := ⟨by decide, by decide, fun _ => by decide⟩
  have hallowed : conversation.Disciplined (.submit exampleFrame) := by
    refine ⟨hframe, by rw [hbehind]; rfl, ?_⟩
    rw [hsent]
    exact Nat.lt_add_left _ (by decide)
  refine ⟨_, ?_, hreached.step hallowed rfl⟩
  rw [hsent, List.nil_append]

theorem answered_in_order_example :
    ∃ conversation : Conversation, conversation.sent = [exampleFrame] ∧
      conversation.frames <+: (exampleHandshake.answers conversation.sent).map Message.frame ∧
      conversation.server.log <+:
        exampleHandshake.opening ++ conversation.sent.map (.message ∘ messageOfFrame) ∧
      (∀ now count, 1 ≤ count → count ≤ RECEIVE_SIZE → count ≤ conversation.toServer.length →
        (conversation.step exampleService.application (.deliver now count)).isSome) ∧
      ∀ now, (conversation.step exampleService.application (.watchdog now)).isSome := by
  obtain ⟨conversation, hsent, hreached⟩ := exampleReached
  exact ⟨conversation, hsent, answered_in_order hreached⟩

theorem conversation_completes_example :
    ∃ (conversation : Conversation) (acts : List Act) (last : Conversation),
      conversation.sent = [exampleFrame] ∧ (∀ act ∈ acts, act.Quiet) ∧
      runAll (step exampleService.application) conversation acts = some last ∧
      last.frames = [⟨true, 0#3, WS_TEXT, none, 0, Text.toBytes "Oh yeah! It works!".toList⟩] := by
  obtain ⟨conversation, hsent, hreached⟩ := exampleReached
  obtain ⟨acts, last, hquiet, hrun, -, hframes, -⟩ := conversation_completes hreached
  refine ⟨conversation, acts, last, hsent, hquiet, hrun, ?_⟩
  rw [hframes, hsent]
  rfl

end Conversation

end DumaisLib.WebSocket
