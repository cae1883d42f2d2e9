import DumaisLib.WebSocket.Closing
import DumaisLib.WebSocket.Delivery

/-!
# Close and Ping frames

A control frame is acted on when its last byte arrives, in whatever chunks, if
it has a payload: a Close ends the connection, a Ping is answered by a Pong.
A frame without payload is collected and never acted on.
-/

set_option linter.dupNamespace false

namespace DumaisLib.WebSocket

open DumaisLib.Utils Machine Rfc6455

/-- The payloads of control frames are so short that their length is never damaged. -/
theorem lowBytes_of_short {frame : ClientFrame} (hshort : frame.payload.length ≤ 125) :
    LowBytes frame := by
  intro _
  omega

/-- The Pong that answers a Ping: its payload and masking key, and the other opcode. -/
def pongOf (frame : ClientFrame) : ClientFrame :=
  { frame with opcode := WS_PONG }

theorem pong_encode (frame : ClientFrame) :
    Session.pong frame.encode = (pongOf frame).encode := by
  rw [Session.pong, read_encode]
  rfl

namespace WebSocket

variable {app : Application} {fuel now : Nat} {ws : WebSocket} {frame : ClientFrame}

/-! ## Collecting -/

theorem feedAll_after {part : List Byte} (hpart : feedAll [] part = some (part, []))
    (more : List Byte) : feedAll part more = feedAll [] (part ++ more) := by
  rw [feedAll_append, hpart, Option.bind_some]
  simp

/-- A proper part of a frame is neither refused nor complete. -/
theorem collected_part (hlow : LowBytes frame) {part rest : List Byte}
    (hsplit : part ++ rest = frame.encode) (hne : rest ≠ []) :
    Collected part ∧ ¬ Refused part := by
  have hwaits := lt_stageEnd_of_part hlow hsplit hne
  have hrefused : ¬ Refused part := fun hrefused => absurd hrefused.stageEnd_le (by omega)
  exact ⟨⟨hwaits.trans (stageEnd_lt part), fun hbad => absurd hbad hrefused,
    fun hcomplete => absurd hcomplete.length_eq hwaits.ne⟩, hrefused⟩

/-- All the chunks before the last byte of a frame only reach the parser. -/
theorem processChunks_part (hprotocol : ws.protocol = .webSocket) (hlow : LowBytes frame)
    {part rest : List Byte} {chunks : List (Nat × List Byte)} (tracks : Tracks ws.wsParser part)
    (hsplit : part ++ chunks.flatMap Prod.snd ++ rest = frame.encode) (hne : rest ≠ [])
    (hfuel : ∀ chunk ∈ chunks, chunk.2.length ≤ fuel) :
    ∃ p, processChunks app fuel ws chunks = .finished (ws.withParser p) ∧
      Tracks p (part ++ chunks.flatMap Prod.snd) := by
  induction chunks generalizing ws part with
  | nil => exact ⟨ws.wsParser, rfl, by simpa using tracks⟩
  | cons timed chunks ih =>
      obtain ⟨now, chunk⟩ := timed
      rw [List.flatMap_cons, ← List.append_assoc] at hsplit ⊢
      have hrest : part ++ (chunk ++ (chunks.flatMap Prod.snd ++ rest)) = frame.encode := by
        rw [← hsplit]
        simp
      have hlater : chunks.flatMap Prod.snd ++ rest ≠ [] :=
        List.append_ne_nil_of_right_ne_nil _ hne
      have hpart := feedAll_part hlow hrest (List.append_ne_nil_of_right_ne_nil _ hlater)
      have hnext := feedAll_part hlow (by rw [← hrest, List.append_assoc]) hlater
      have hloop : ∃ p, Tracks p (part ++ chunk) ∧
          receiveLoop app now fuel ws chunk = .finished (ws.withParser p) := by
        by_cases hnil : chunk = []
        · subst hnil
          exact ⟨ws.wsParser, by simpa using tracks, by cases fuel <;> rfl⟩
        · obtain ⟨collected, -⟩ := collected_part hlow hrest
            (List.append_ne_nil_of_right_ne_nil _ hlater)
          obtain ⟨-, hopen⟩ := collected_part hlow (by rw [← hrest, List.append_assoc]) hlater
          have hlength := congrArg List.length hrest
          have hlt := frame.payload_length_lt
          have hheader := frame.length_header
          rw [frame.length_encode, List.length_append, List.length_append] at hlength
          obtain ⟨p, htracks, -, -, hfinished⟩ :=
            @receiveLoop_feeds app now ws part chunk (part ++ chunk) [] fuel tracks collected
              (by cases hform : frame.form <;> rw [hform] at hheader <;> simp only at hheader <;>
                omega)
              hnil (by rw [feedAll_after hpart, hnext]) (hfuel _ List.mem_cons_self)
          rw [respond, if_neg hopen] at hfinished
          exact ⟨p, htracks, hfinished⟩
      obtain ⟨p, htracks, hloop⟩ := hloop
      obtain ⟨q, hchunks, hq⟩ := @ih (ws.withParser p) hprotocol (part ++ chunk) htracks
        hsplit fun other hother => hfuel other (List.mem_cons_of_mem _ hother)
      exact ⟨q, (processChunks_cons hprotocol hloop).trans hchunks, hq⟩

/-! ## Acting -/

theorem effect_close (hopcode : frame.opcode = WS_CLOSE) :
    (ws.effect app now frame.encode).connectionState = .closed := by
  have hread : (WSHeader.read frame.encode).opcode = WS_CLOSE := by
    rw [read_encode]
    exact hopcode
  rw [effect, processWholeWSPacket]
  simp only [hread, show ¬ IsData WS_CLOSE by decide, if_false, if_true]
  rfl

theorem effect_ping (hopcode : frame.opcode = WS_PING) :
    ∃ p, ws.effect app now frame.encode =
      (ws.sendData (pongOf frame).encode).withParser p := by
  have hread : (WSHeader.read frame.encode).opcode = WS_PING := by
    rw [read_encode]
    exact hopcode
  have hlength : frame.encode.length ≤
      payloadSize frame.encode + (WSHeader.read frame.encode).headerSize := by
    rw [payloadSize_encode, read_encode, headerSize_headerOf, frame.length_encode, Nat.add_comm]
  rw [effect, processWholeWSPacket, List.take_of_length_le hlength]
  simp only [hread, show ¬ IsData WS_PING by decide, show WS_PING ≠ WS_CLOSE by decide, if_false,
    if_true, Option.getD_some]
  refine ⟨(ws.processPing frame.encode).wsParser.resetMessageBuffer, ?_⟩
  rw [← pong_encode]
  rfl

/--
The frame has been acted on by the call that brings its last byte, and not
before: a Close ends the connection, and a Ping queues one Pong with its payload
behind what is queued already.
-/
def ActedOn (app : Application) (fuel : Nat) (ws : WebSocket) (frame : ClientFrame)
    (chunks : List (Nat × List Byte)) (now : Nat) (last : List Byte) : Prop :=
  ∃ (p : WSProtocolParser) (alive : Bool) (next : WebSocket),
    processChunks app fuel ws chunks = .finished (ws.withParser p) ∧
      (ws.withParser p).processData app now fuel last = .finished (alive, next) ∧
      (frame.opcode = WS_CLOSE → next.connectionState = .closed ∧ alive = false) ∧
      (frame.opcode = WS_PING → Tracks next.wsParser [] ∧
        ∃ pong : ClientFrame, pong.opcode = WS_PONG ∧ pong.payload = frame.payload ∧
          next.sendQueue.buffers = ws.sendQueue.buffers ++ [.ofBytes pong.encode])

/-- The calls have one result only, so what it is decides. -/
theorem actedOn_iff {chunks : List (Nat × List Byte)} {last : List Byte} {p : WSProtocolParser}
    {alive : Bool} {next : WebSocket}
    (hchunks : processChunks app fuel ws chunks = .finished (ws.withParser p))
    (hprocess : (ws.withParser p).processData app now fuel last = .finished (alive, next)) :
    ActedOn app fuel ws frame chunks now last ↔
      (frame.opcode = WS_CLOSE → next.connectionState = .closed ∧ alive = false) ∧
        (frame.opcode = WS_PING → Tracks next.wsParser [] ∧
          ∃ pong : ClientFrame, pong.opcode = WS_PONG ∧ pong.payload = frame.payload ∧
            next.sendQueue.buffers = ws.sendQueue.buffers ++ [.ofBytes pong.encode]) := by
  constructor
  · rintro ⟨p', alive', next', hchunks', hprocess', hacted⟩
    have hparser : ws.withParser p = ws.withParser p' :=
      Outcome.finished.inj (hchunks.symm.trans hchunks')
    rw [← hparser, hprocess] at hprocess'
    obtain ⟨rfl, rfl⟩ := Prod.mk.inj (Outcome.finished.inj hprocess')
    exact hacted
  · exact fun hacted => ⟨p, alive, next, hchunks, hprocess, hacted⟩

/-- The call that brings the last byte does what settling the whole frame does. -/
theorem processData_last (hprotocol : ws.protocol = .webSocket) (hboundary : Tracks ws.wsParser [])
    (hlow : LowBytes frame) {chunks : List (Nat × List Byte)} {last fed : List Byte}
    {frames : List (List Byte)} (hsplit : chunks.flatMap Prod.snd ++ last = frame.encode)
    (hne : last ≠ []) (hfuel : ∀ chunk ∈ chunks, chunk.2.length ≤ fuel)
    (hlast : last.length ≤ fuel) (hsettle : settle frame.encode = some (fed, frames))
    (hopen : ¬ Refused fed) :
    ∃ p q, processChunks app fuel ws chunks = .finished (ws.withParser p) ∧
      (ws.withParser p).processData app now fuel last =
        .finished (decide ((ws.act app now frames).connectionState ≠ .closed),
          (ws.act app now frames).withParser q) ∧
      Tracks q fed := by
  obtain ⟨p, hchunks, htracks⟩ := @processChunks_part app fuel ws frame hprotocol hlow [] last
    chunks hboundary hsplit hne hfuel
  have hfeed : feedAll (chunks.flatMap Prod.snd) last = some (fed, frames) := by
    rw [feedAll_after (feedAll_part hlow hsplit hne), hsplit, feedAll_encode hlow, hsettle]
  obtain ⟨collected, -⟩ := collected_part hlow hsplit hne
  have hlength := congrArg List.length hsplit
  have hlt := frame.payload_length_lt
  have hsize := (headerOf frame).headerSize_cases
  rw [headerSize_headerOf] at hsize
  rw [frame.length_encode, List.length_append] at hlength
  obtain ⟨q, hq, -, -, hloop⟩ := @receiveLoop_feeds app now (ws.withParser p) _ last fed frames
    fuel htracks collected (by simp only [List.nil_append]; omega) hne hfeed hlast
  refine ⟨p, q, hchunks, ?_, hq⟩
  rw [respond, if_neg hopen, act_withParser] at hloop
  have hprotocol' : (ws.withParser p).protocol = .webSocket := hprotocol
  rw [WebSocket.processData, hprotocol']
  simp only [hloop]
  rfl

section Frames

variable {chunks : List (Nat × List Byte)} {last : List Byte}

/-- Without a payload the frame stays in the parser, and nothing happens. -/
theorem not_actedOn_empty (hprotocol : ws.protocol = .webSocket)
    (hconnected : ws.connectionState = .connected) (hboundary : Tracks ws.wsParser [])
    (hcontrol : frame.opcode = WS_CLOSE ∨ frame.opcode = WS_PING) (hempty : frame.payload = [])
    (hsplit : chunks.flatMap Prod.snd ++ last = frame.encode) (hne : last ≠ [])
    (hfuel : ∀ chunk ∈ chunks, chunk.2.length ≤ fuel) (hlast : last.length ≤ fuel) :
    ¬ ActedOn app fuel ws frame chunks now last := by
  have hlow : LowBytes frame := lowBytes_of_short (by rw [hempty]; exact Nat.zero_le _)
  have hopen : ¬ Refused frame.encode := fun hrefused => by
    have hmask := hrefused.2
    rw [read_encode] at hmask
    exact Bool.noConfusion hmask
  obtain ⟨p, q, hchunks, hprocess, hq⟩ := @processData_last app fuel now ws frame hprotocol
    hboundary hlow chunks last _ _ hsplit hne hfuel hlast (settle_empty hlow hempty) hopen
  rw [actedOn_iff hchunks hprocess]
  rintro ⟨hclose, hping⟩
  rcases hcontrol with hopcode | hopcode
  · have hclosed : ws.connectionState = .closed := (hclose hopcode).1
    exact absurd (hconnected.symm.trans hclosed) (by decide)
  · have hreset : q.dataIndex = 0 := (hping hopcode).1.dataIndex_eq
    have hkept := hq.dataIndex_eq
    have hsize := (headerOf frame).headerSize_cases
    rw [headerSize_headerOf] at hsize
    rw [frame.length_encode] at hkept
    omega

theorem actedOn_close (hopcode : frame.opcode = WS_CLOSE) {p q : WSProtocolParser}
    (hchunks : processChunks app fuel ws chunks = .finished (ws.withParser p))
    (hprocess : (ws.withParser p).processData app now fuel last =
      .finished (decide ((ws.effect app now frame.encode).connectionState ≠ .closed),
        (ws.effect app now frame.encode).withParser q)) :
    ActedOn app fuel ws frame chunks now last := by
  have hclosed := @effect_close app now ws frame hopcode
  rw [hclosed] at hprocess
  refine (actedOn_iff hchunks hprocess).mpr ⟨fun _ => ⟨hclosed, rfl⟩, fun hping => ?_⟩
  rw [hopcode] at hping
  exact absurd hping (by decide)

/-- A Pong is queued unless the queue is full; then all that is queued is dropped. -/
theorem actedOn_ping_iff (hreach : Reachable app ws) (hopcode : frame.opcode = WS_PING)
    {p q : WSProtocolParser} {alive : Bool}
    (hchunks : processChunks app fuel ws chunks = .finished (ws.withParser p))
    (hprocess : (ws.withParser p).processData app now fuel last =
      .finished (alive, (ws.effect app now frame.encode).withParser q)) (hq : Tracks q []) :
    ActedOn app fuel ws frame chunks now last ↔ ws.txList.held.length + 1 < TX_LIST_SIZE := by
  obtain ⟨r, heffect⟩ := @effect_ping app now ws frame hopcode
  rw [heffect, withParser_withParser] at hprocess
  have hqueue : ((ws.sendData (pongOf frame).encode).withParser q).sendQueue =
      ws.sendQueue.put (.ofBytes (pongOf frame).encode) := ws.sendData_sendQueue _
  have hwf : ws.sendQueue.waiting.WellFormed := Session.reachable_wellFormed hreach
  rw [actedOn_iff hchunks hprocess]
  constructor
  · rintro ⟨-, hping⟩
    obtain ⟨-, pong, -, -, hbuffers⟩ := hping hopcode
    rcases (SendQueue.put_cases hwf (.ofBytes (pongOf frame).encode)).2 with
      ⟨hroom, -, -⟩ | ⟨-, -, hdropped⟩
    · exact hroom
    · rw [hqueue, SendQueue.buffers, SendQueue.put, hdropped] at hbuffers
      have hlengths := congrArg List.length hbuffers
      simp only [SendQueue.buffers, List.length_append, List.length_nil,
        List.length_singleton] at hlengths
      omega
  · intro hroom
    have hput := (SendQueue.put_buffers hwf (.ofBytes (pongOf frame).encode) hroom).1
    refine ⟨fun hclose => ?_, fun _ => ⟨hq, pongOf frame, rfl, rfl, hqueue ▸ hput⟩⟩
    rw [hopcode] at hclose
    exact absurd hclose (by decide)

/--
Close and Ping frames with at most 125 bytes of payload, in any chunks: the
frame is acted on exactly when it has a payload, and for a Ping the queue is not
full.
-/
theorem control_frame_actedOn_iff (hreach : Reachable app ws) (hprotocol : ws.protocol = .webSocket)
    (hconnected : ws.connectionState = .connected) (hboundary : Tracks ws.wsParser [])
    (hcontrol : frame.opcode = WS_CLOSE ∨ frame.opcode = WS_PING)
    (hshort : frame.payload.length ≤ 125)
    (hsplit : chunks.flatMap Prod.snd ++ last = frame.encode) (hne : last ≠ [])
    (hfuel : ∀ chunk ∈ chunks, chunk.2.length ≤ fuel) (hlast : last.length ≤ fuel) :
    ActedOn app fuel ws frame chunks now last ↔
      frame.payload ≠ [] ∧
        (frame.opcode = WS_PING → ws.txList.held.length + 1 < TX_LIST_SIZE) := by
  by_cases hempty : frame.payload = []
  · refine iff_of_false (not_actedOn_empty hprotocol hconnected hboundary hcontrol hempty hsplit hne
      hfuel hlast) fun hboth => hboth.1 hempty
  have hlow := lowBytes_of_short hshort
  have hsettle := settle_encode hlow (Or.inr hcontrol) hempty
  obtain ⟨p, q, hchunks, hprocess, hq⟩ := @processData_last app fuel now ws frame hprotocol
    hboundary hlow chunks last _ _ hsplit hne hfuel hlast hsettle
    fun hrefused => absurd hrefused.1 (by decide)
  rw [show ws.act app now [frame.encode] = ws.effect app now frame.encode from rfl] at hprocess
  rcases hcontrol with hopcode | hopcode
  · refine iff_of_true (actedOn_close hopcode hchunks hprocess) ⟨hempty, fun hping => ?_⟩
    rw [hopcode] at hping
    exact absurd hping (by decide)
  · rw [actedOn_ping_iff hreach hopcode hchunks hprocess hq]
    exact ⟨fun hroom => ⟨hempty, fun _ => hroom⟩, fun hboth => hboth.2 hopcode⟩

end Frames

/-- The connection of the shortest request is at a frame boundary. -/
theorem helloSocket_boundary :
    Reachable acceptAll Session.helloSocket ∧ Session.helloSocket.protocol = .webSocket ∧
      Session.helloSocket.connectionState = .connected ∧
      Tracks Session.helloSocket.wsParser [] := by
  have hparser : Session.helloSocket.wsParser = .create := by
    decide +kernel
  refine ⟨Session.Run.reachable_start Session.helloSocket_opened, by decide +kernel,
    by decide +kernel, ?_⟩
  rw [hparser]
  exact Tracks.create

/-- A Ping with the payload "hi", cut within its masking key. -/
theorem control_frame_actedOn_iff_ping :
    ActedOn acceptAll 5 Session.helloSocket
      ⟨true, 0#3, WS_PING, .seven, [1#8, 2#8, 3#8, 4#8], [0x68#8, 0x69#8], rfl, by decide⟩
      [(0, [0x89#8, 0x82#8, 1#8])] 0 [2#8, 3#8, 4#8, 0x69#8, 0x6B#8] := by
  obtain ⟨hreach, hprotocol, hconnected, hboundary⟩ := helloSocket_boundary
  refine (control_frame_actedOn_iff hreach hprotocol hconnected hboundary (Or.inr rfl) (by decide)
    (by decide) (by decide) (by decide) (by decide)).mpr ⟨by decide, fun _ => ?_⟩
  decide +kernel

/-- A Close frame without payload does not end the connection. -/
theorem empty_close_ignored :
    ∃ ws, Reachable acceptAll ws ∧ ws.protocol = .webSocket ∧ ws.connectionState = .connected ∧
      Tracks ws.wsParser [] ∧ ∀ fuel now, 6 ≤ fuel →
        ¬ ActedOn acceptAll fuel ws
          ⟨true, 0#3, WS_CLOSE, .seven, [1#8, 2#8, 3#8, 4#8], [], rfl, by decide⟩
          [] now [0x88#8, 0x80#8, 1#8, 2#8, 3#8, 4#8] := by
  obtain ⟨hreach, hprotocol, hconnected, hboundary⟩ := helloSocket_boundary
  exact ⟨_, hreach, hprotocol, hconnected, hboundary, fun fuel now hfuel =>
    not_actedOn_empty hprotocol hconnected hboundary (Or.inl rfl) rfl (by decide) (by decide)
      (List.forall_mem_nil _) hfuel⟩

end WebSocket

end DumaisLib.WebSocket
