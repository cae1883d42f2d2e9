import DumaisLib.WebSocket.Conversation
import DumaisLib.WebSocket.Session

/-!
# The parts of a conversation

The client can read a beginning of what the server has queued.  The server
collects the request, answers it, and answers every message; while there is room
in the queue the connection stays open.
-/

set_option linter.dupNamespace false

namespace DumaisLib.WebSocket

open Machine Rfc6455 DumaisLib.Utils

/-! ## What the client has read -/

namespace Handshake

variable {service : Service} (handshake : Handshake service)

theorem flatten_queued (frames : List ClientFrame) :
    (handshake.queued frames).flatten = handshake.response ++
      (handshake.answers frames).flatMap fun message => message.serverFrame.encode := by
  rw [queued, List.flatten_cons, List.flatMap_def]

theorem queued_append (frames later : List ClientFrame) :
    handshake.queued (frames ++ later) = handshake.queued frames ++
      (service.answers (handshake.opening ++ frames.map (.message ∘ messageOfFrame)) later).map
        fun message => message.serverFrame.encode := by
  rw [queued, answers, Service.answers_append, List.map_append]
  rfl

theorem response_ne_nil : handshake.response ≠ [] := by
  rw [response_eq]
  exact List.append_ne_nil_of_right_ne_nil _ (List.cons_ne_nil _ _)

theorem queued_ne_nil (frames : List ClientFrame) :
    ∀ buffer ∈ handshake.queued frames, buffer ≠ [] := by
  refine List.forall_mem_cons.mpr ⟨handshake.response_ne_nil, ?_⟩
  intro buffer hbuffer
  obtain ⟨message, -, rfl⟩ := List.mem_map.mp hbuffer
  exact List.cons_ne_nil _ _

theorem length_queued (frames : List ClientFrame) :
    (handshake.queued frames).length = frames.length + 1 := by
  rw [queued, List.length_cons, List.length_map, answers, Service.length_answers]

/-- A client that has read a beginning of the stream has no header, or some of the answers. -/
theorem read_beginning {frames : List ClientFrame} {received : List Byte}
    (hbegins : received <+: (handshake.queued frames).flatten) :
    behindHeader received = none ∨ ∃ count ≤ frames.length,
      (behindHeader received).map frameReader.complete =
          some (((handshake.answers frames).take count).map Message.frame) ∧
        ((handshake.queued frames).take (count + 1)).flatten <+: received := by
  cases hbehind : behindHeader received with
  | none => exact Or.inl rfl
  | some rest =>
      obtain ⟨more, hmore⟩ := hbegins
      have hwhole := behindHeader_append more hbehind
      rw [hmore, flatten_queued, behindHeader_response] at hwhole
      have hrest := Option.some.inj hwhole
      rw [flatten_queued, hrest, ← List.append_assoc] at hmore
      have hreceived := List.append_cancel_right hmore
      have hreads : ∀ message ∈ handshake.answers frames,
          frameReader.Reads message.serverFrame.encode message.frame :=
        fun message _ => message.decodeFrame_serverFrame
      obtain ⟨count, hcount, hcomplete, hdone⟩ :=
        StreamReader.Reader.complete_beginning hreads ⟨more, hrest.symm⟩
      rw [answers, Service.length_answers] at hcount
      refine Or.inr ⟨count, hcount, congrArg some hcomplete, ?_⟩
      rw [queued, List.take_succ_cons, List.flatten_cons, ← List.map_take, ← List.flatMap_def,
        hreceived]
      exact (List.prefix_append_right_inj _).mpr hdone

end Handshake

/-! ## Messages that are answered -/

section Answers

variable (service : Service) (now : Nat)

theorem effect_notifies (ws : WebSocket) {frame : ClientFrame} (hframe : Deliverable frame) :
    ∃ p, ws.effect service.application now frame.encode =
      (ws.notify service.application.onMessage (.message (messageOfFrame frame))).withParser p := by
  have hdata : WebSocket.IsData (WSHeader.read frame.encode).opcode := by
    rw [read_encode]
    exact hframe.data
  have hsize : ¬ payloadSize frame.encode > WebSocket.MAX_INT := by
    have hlt := frame.payload_length_lt
    rw [payloadSize_encode, WebSocket.MAX_INT]
    omega
  refine ⟨(ws.notify service.application.onMessage
    (.message (messageOfFrame frame))).wsParser.resetMessageBuffer, ?_⟩
  simp only [WebSocket.effect, WebSocket.processWholeWSPacket, hdata, if_true, hsize, if_false,
    Option.getD_some, messageOf_encode]
  rfl

theorem effect_sendQueue (ws : WebSocket) {frame : ClientFrame} (hframe : Deliverable frame) :
    (ws.effect service.application now frame.encode).sendQueue =
      ws.sendQueue.put (.ofBytes
        (service.message (ws.log ++ [.message (messageOfFrame frame)])).serverFrame.encode) := by
  obtain ⟨p, heffect⟩ := effect_notifies service now ws hframe
  have hsent := WebSocket.sendAll_sendQueue
    (ws.called service.application.onMessage (.message (messageOfFrame frame)))
    (ws.replies service.application.onMessage (.message (messageOfFrame frame)))
  rw [← WebSocket.notify_eq_sendAll, WebSocket.called_sendQueue] at hsent
  rw [heffect]
  refine hsent.trans ?_
  simp only [WebSocket.replies, Service.application, List.filterMap_cons, List.filterMap_nil,
    service.frame_answer]
  rfl

theorem effect_connected {ws : WebSocket} (hconnected : ws.connectionState = .connected)
    (hwf : ws.sendQueue.waiting.WellFormed)
    (hroom : ws.sendQueue.waiting.held.length + 1 < TX_LIST_SIZE) {frame : ClientFrame}
    (hframe : Deliverable frame) :
    (ws.effect service.application now frame.encode).connectionState = .connected := by
  obtain ⟨p, heffect⟩ := effect_notifies service now ws hframe
  have hput : ∀ buffer : SendBuffer, (ws.sendQueue.waiting.put buffer).1 = true := by
    intro buffer
    obtain ⟨-, ⟨-, hput, -⟩ | ⟨hfull, -⟩⟩ := SendQueue.put_cases hwf buffer
    · exact hput
    · exact absurd hfull hroom.ne
  rw [heffect]
  change (ws.notify _ _).connectionState = .connected
  rw [WebSocket.notify_eq_sendAll, WebSocket.sendAll_connectionState, WebSocket.called_sendQueue,
    WebSocket.called_connectionState, hconnected]
  refine if_neg ?_
  simp only [WebSocket.replies, Service.application, List.filterMap_cons, List.filterMap_nil,
    service.frame_answer, WebSocket.overflows, hput]
  decide

/-- With room for them the answers are queued, and the connection stays open. -/
theorem act_answers {ws : WebSocket} (hconnected : ws.connectionState = .connected)
    (hwf : ws.sendQueue.waiting.WellFormed) {frames : List ClientFrame}
    (hroom : ws.sendQueue.waiting.held.length + frames.length < TX_LIST_SIZE)
    (hframes : ∀ frame ∈ frames, Deliverable frame) :
    (ws.act service.application now (frames.map ClientFrame.encode)).sendQueue =
        ws.sendQueue.putAll ((service.answers ws.log frames).map fun message =>
          .ofBytes message.serverFrame.encode) ∧
      (ws.act service.application now (frames.map ClientFrame.encode)).connectionState =
        .connected := by
  induction frames generalizing ws with
  | nil => exact ⟨rfl, hconnected⟩
  | cons frame frames ih =>
      obtain ⟨hframe, hlater⟩ := List.forall_mem_cons.mp hframes
      rw [List.length_cons] at hroom
      have hqueue := effect_sendQueue service now ws hframe
      have hlog : (ws.effect service.application now frame.encode).log =
          ws.log ++ [.message (messageOfFrame frame)] :=
        (WebSocket.act_data rfl now ws (List.forall_mem_singleton.mpr hframe)).1
      obtain ⟨-, hheld⟩ := SendQueue.put_buffers hwf (.ofBytes (service.message (ws.log ++
        [.message (messageOfFrame frame)])).serverFrame.encode)
        (show ws.sendQueue.waiting.held.length + 1 < TX_LIST_SIZE by omega)
      have hnext := ih (effect_connected service now hconnected hwf (by omega) hframe)
        (by rw [hqueue]; exact SendQueue.putAll_wellFormed hwf [_])
        (by
          rw [hqueue, hheld, List.length_append, List.length_singleton]
          omega) hlater
      rw [hlog, hqueue] at hnext
      exact hnext

end Answers

/-! ## What is on its way to the client -/

/-- A beginning of the parts that is not longer than some of them has no more parts. -/
theorem length_le_of_flatten {α : Type*} {first second : List (List α)}
    (hparts : ∀ part ∈ second, part ≠ []) {count : Nat}
    (hcount : count ≤ (first ++ second).length)
    (hle : ((first ++ second).take count).flatten.length ≤ first.flatten.length) :
    count ≤ first.length := by
  by_contra hgt
  obtain ⟨more, rfl⟩ := Nat.exists_eq_add_of_lt (Nat.lt_of_not_le hgt)
  cases second with
  | nil =>
      rw [List.append_nil] at hcount
      omega
  | cons part second =>
      have hpos := List.length_pos_iff.mpr (hparts part List.mem_cons_self)
      have hmore : first.length + more + 1 - first.length = more + 1 := by omega
      rw [List.take_append, hmore, List.take_succ_cons,
        List.take_of_length_le (show first.length ≤ first.length + more + 1 by omega),
        List.flatten_append, List.flatten_cons, List.length_append, List.length_append] at hle
      omega

namespace Conversation

/--
What the client has read, what is on its way and what the connection holds are
the queued buffers, of which the last ones wait.
-/
structure Streams (conversation : Conversation) (queued : List (List Byte)) : Prop where
  sending : conversation.server.Sending
  stream : conversation.received ++ conversation.toClient ++ conversation.server.pending =
    queued.flatten
  held : conversation.server.sendQueue.waiting.held <:+ queued.map .ofBytes

variable {app : Application} {conversation next : Conversation} {queued : List (List Byte)}

theorem rest_ofBytes (buffer : List Byte) :
    SendBuffer.cursor.rest (.ofBytes buffer) = buffer :=
  List.drop_zero

theorem flatMap_rest_ofBytes (buffers : List (List Byte)) :
    (buffers.map SendBuffer.ofBytes).flatMap SendBuffer.cursor.rest = buffers.flatten := by
  simp only [List.flatMap_map, rest_ofBytes, List.flatMap_id']

/-- Buffers that the client has read no longer wait. -/
theorem Streams.held_length_le (hstreams : conversation.Streams queued)
    (hparts : ∀ buffer ∈ queued, buffer ≠ []) {count : Nat} (hcount : count ≤ queued.length)
    (hread : (queued.take count).flatten <+: conversation.received) :
    conversation.server.sendQueue.waiting.held.length + count ≤ queued.length := by
  obtain ⟨before, hbefore⟩ := hstreams.held
  obtain ⟨first, second, rfl, -, hsecond⟩ := List.map_eq_append_iff.mp hbefore.symm
  have hstream := hstreams.stream
  have hpending : conversation.server.pending =
      conversation.server.sendQueue.current.toList.flatMap SendBuffer.cursor.rest ++
        second.flatten := by
    rw [WebSocket.pending, SendQueue.pending, SendQueue.buffers, List.flatMap_append, ← hsecond,
      flatMap_rest_ofBytes]
  rw [hpending, List.flatten_append, ← List.append_assoc] at hstream
  have hgone := congrArg List.length (List.append_cancel_right hstream)
  have hle := hread.length_le
  simp only [List.length_append] at hgone
  have hfirst : count ≤ first.length :=
    length_le_of_flatten (fun buffer hmem => hparts buffer (List.mem_append_right _ hmem)) hcount
      (by omega)
  rw [← hsecond, List.length_map, List.length_append]
  omega

/-- Buffers that find room are queued behind the others. -/
theorem Streams.putAll (hstreams : conversation.Streams queued) {buffers : List (List Byte)}
    (hbuffers : ∀ buffer ∈ buffers, buffer ≠ [] ∧ buffer.length < 2 ^ 64)
    (hroom : conversation.server.sendQueue.waiting.held.length + buffers.length < TX_LIST_SIZE)
    (hreceived : next.received = conversation.received)
    (htoClient : next.toClient = conversation.toClient) (hopen : next.server.IsOpen)
    (hqueue : next.server.sendQueue =
      conversation.server.sendQueue.putAll (buffers.map .ofBytes)) :
    next.Streams (queued ++ buffers) := by
  obtain ⟨hsending, hstream, hheld⟩ := hstreams
  obtain ⟨hput, hwaiting⟩ := SendQueue.putAll_buffers hsending.2.wellFormed
    (show _ + (buffers.map SendBuffer.ofBytes).length < TX_LIST_SIZE by rwa [List.length_map])
  refine ⟨⟨hopen, ?_⟩, ?_, ?_⟩
  · rw [hqueue]
    refine SendQueue.putAll_sound hsending.2 fun sendBuffer hmem => ?_
    obtain ⟨buffer, hbuffer, rfl⟩ := List.mem_map.mp hmem
    exact SendBuffer.unsent_ofBytes (hbuffers buffer hbuffer).1 (hbuffers buffer hbuffer).2
  · have hpending : next.server.pending = conversation.server.pending ++ buffers.flatten := by
      rw [WebSocket.pending, hqueue, SendQueue.pending, hput, List.flatMap_append,
        flatMap_rest_ofBytes]
      rfl
    rw [hreceived, htoClient, hpending, ← List.append_assoc, hstream, List.flatten_append]
  · obtain ⟨before, hbefore⟩ := hheld
    rw [hqueue, hwaiting, List.map_append]
    exact ⟨before, by rw [← List.append_assoc, hbefore]⟩

/-- What is handed out goes on its way, and nothing but the queue changes. -/
theorem Streams.transmit (hstreams : conversation.Streams queued) {count : Nat}
    (hstep : conversation.step app (.transmit count) = some next) :
    next.Streams queued ∧ next.toServer = conversation.toServer ∧
      next.received = conversation.received ∧ next.sent = conversation.sent ∧
      ∃ current ring, next.server =
        { conversation.server with currentSendBuffer := current, txList := ring } := by
  obtain ⟨hsending, hstream, hheld⟩ := hstreams
  obtain ⟨hsending', hoffered, hpending⟩ := WebSocket.drains.offer _ hsending
  obtain ⟨-, hqueue, -, -⟩ := WebSocket.getTxData_of_isOpen hsending.1
  have hsound : conversation.server.Sound :=
    ⟨hsending.2.wellFormed, fun buffer hmem => (hsending.2.buffers buffer hmem).1⟩
  have hlength := WebSocket.getTxData_length hsound
  have hsuffix : conversation.server.getTxData.2.sendQueue.waiting.held <:+
      queued.map .ofBytes := by
    rw [hqueue]
    exact (SendQueue.fetch_held_suffix hsending.2.wellFormed).trans hheld
  obtain ⟨current, ring, hframe⟩ := Session.getTxData_frame conversation.server
  rw [step] at hstep
  split at hstep
  · obtain rfl := Option.some.inj hstep
    refine ⟨⟨hsending', ?_, hsuffix⟩, rfl, rfl, rfl, current, ring, hframe⟩
    rw [← hstream]
    exact congrArg (conversation.received ++ conversation.toClient ++ ·) hpending
  · rename_i hpos
    split at hstep
    · rename_i hle
      obtain rfl := Option.some.inj hstep
      have hfits : count ≤ conversation.server.getTxData.1.1.length := hlength ▸ hle
      have hbegins := WebSocket.drains.front_begins _ hsending'
      obtain ⟨hsending'', -, hpending'⟩ := WebSocket.drains.sent _ count hsending'
        (Nat.one_le_iff_ne_zero.mpr hpos) (by rw [← hoffered]; exact hfits)
      have hgiven : conversation.server.getTxData.1.1.take count ++
          (conversation.server.getTxData.2.onDataSent count).pending =
            conversation.server.pending := by
        obtain ⟨behind, hbehind⟩ := hbegins
        rw [← hoffered] at hbehind
        have hrest : (conversation.server.getTxData.2.onDataSent count).pending =
            (conversation.server.getTxData.1.1 ++ behind).drop count :=
          hpending'.trans (congrArg (List.drop count) hbehind.symm)
        rw [hrest, List.drop_append_of_le_length hfits, ← List.append_assoc,
          List.take_append_drop]
        exact hbehind.trans hpending
      refine ⟨⟨hsending'', ?_, ?_⟩, rfl, rfl, rfl, ?_⟩
      · rw [← hstream, ← hgiven, List.append_assoc, List.append_assoc, List.append_assoc]
      · rw [WebSocket.onDataSent_sendQueue]
        exact hsuffix
      · obtain ⟨current', hframe'⟩ :=
          Session.onDataSent_frame conversation.server.getTxData.2 count
        exact ⟨current', ring, by rw [hframe', hframe]⟩
    · cases hstep

theorem Streams.read (hstreams : conversation.Streams queued) {count : Nat}
    (hstep : conversation.step app (.read count) = some next) :
    next.Streams queued ∧ next.server = conversation.server ∧
      next.toServer = conversation.toServer ∧ next.sent = conversation.sent ∧
      conversation.received <+: next.received := by
  obtain ⟨hsending, hstream, hheld⟩ := hstreams
  rw [step] at hstep
  split at hstep
  · obtain rfl := Option.some.inj hstep
    refine ⟨⟨hsending, ?_, hheld⟩, rfl, rfl, rfl, List.prefix_append _ _⟩
    rw [List.append_assoc conversation.received, List.take_append_drop]
    exact hstream
  · cases hstep

end Conversation

/-! ## The handshake -/

namespace Handshake

variable {service : Service} (handshake : Handshake service)

/-- A part of the request that is not all of it is collected. -/
theorem checkHTTPBuffer_part {ws : WebSocket} (hsound : ws.httpParser.Sound)
    {part chunk rest : List Byte} (hheld : ws.httpParser.held = Text.ofBytes part)
    (hsplit : part ++ (chunk ++ rest) = handshake.bytes) (hne : rest ≠ []) :
    ws.checkHTTPBuffer service.application chunk =
        some { ws with httpParser := .afterwards (Text.ofBytes (part ++ chunk)) } ∧
      (HTTPProtocolParser.afterwards (Text.ofBytes (part ++ chunk))).Sound ∧
      (HTTPProtocolParser.afterwards (Text.ofBytes (part ++ chunk))).held =
        Text.ofBytes (part ++ chunk) := by
  have htext : Text.ofBytes (part ++ chunk) ++ Text.ofBytes rest = handshake.text.text := by
    rw [← handshake.text_eq, ← hsplit, ← List.append_assoc]
    exact List.map_append.symm
  have hrest : Text.ofBytes rest ≠ [] := fun hnil => hne (List.map_eq_nil_iff.mp hnil)
  have hanswer := handshake.text.answer_part htext hrest
  have hlt : (Text.ofBytes (part ++ chunk)).length < MAX_HTTP_DATA := by
    have htotal := handshake.text.length_lt
    rw [← htext, List.length_append] at htotal
    omega
  have happend : ws.httpParser.held ++ Text.ofBytes chunk = Text.ofBytes (part ++ chunk) := by
    rw [hheld]
    exact List.map_append.symm
  have hparse := HTTPProtocolParser.parseIncoming_fits hsound (by rw [happend]; exact hlt)
  rw [happend, hanswer] at hparse
  have hkept : HTTPProtocolParser.afterwards (Text.ofBytes (part ++ chunk)) =
      ⟨Text.ofBytes (part ++ chunk), (Text.ofBytes (part ++ chunk)).length⟩ :=
    HTTPProtocolParser.afterwards_of_not_ready (by rw [hanswer]; decide)
  refine ⟨?_, HTTPProtocolParser.sound_afterwards hlt, ?_⟩
  · rw [WebSocket.checkHTTPBuffer, hparse]
    rfl
  · rw [hkept, HTTPProtocolParser.held, List.take_length]

/-- With its last part the request is accepted. -/
theorem checkHTTPBuffer_last {ws : WebSocket} (hsound : ws.httpParser.Sound)
    (hlog : ws.log = []) {part chunk : List Byte}
    (hheld : ws.httpParser.held = Text.ofBytes part) (hsplit : part ++ chunk = handshake.bytes) :
    ∃ next, ws.checkHTTPBuffer service.application chunk = some next ∧
      next.protocol = .webSocket ∧ next.connectionState = .connected ∧
      next.log = handshake.opening ∧
      next.sendQueue = ws.sendQueue.putAll [.ofBytes handshake.response] := by
  have happend : ws.httpParser.held ++ Text.ofBytes chunk = handshake.text.text := by
    rw [hheld, ← handshake.text_eq, ← hsplit]
    exact List.map_append.symm
  have hparse := HTTPProtocolParser.parseIncoming_fits hsound
    (by rw [happend]; exact handshake.text.length_lt)
  rw [happend] at hparse
  have hready := handshake.ready
  have hget := handshake.get
  have hkey := handshake.key_eq
  have hchosen := handshake.chosen_eq
  have hsent (ws : WebSocket) : (ws.sendData handshake.response).sendQueue =
      ws.sendQueue.putAll [.ofBytes handshake.response] := ws.sendData_sendQueue _
  rw [WebSocket.checkHTTPBuffer, hparse]
  simp only [hready, hget, hkey, hchosen, hlog, Service.application, List.nil_append, ne_eq,
    not_true_eq_false, if_false]
  cases hnew : service.onNewConnection with
  | true =>
      refine ⟨_, rfl, ?_, rfl, ?_, hsent _⟩
      · rfl
      · simp [WebSocket.notify, opening, request, hnew]
  | false =>
      refine ⟨_, rfl, rfl, rfl, ?_, hsent _⟩
      simp [WebSocket.notify, opening, request, hnew]

end Handshake

end DumaisLib.WebSocket
