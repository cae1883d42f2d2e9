import DumaisLib.Lib.Rfc6455
import DumaisLib.WebSocket.Progress
import DumaisLib.WebSocket.SendStream

/-!
# Delivery of client data frames

The concatenated data frames of a client, cut into chunks in any way, reach the
application one by one, in order, with the payload unmasked.
-/

set_option linter.dupNamespace false

namespace DumaisLib.WebSocket

open Machine Rfc6455 BigEndian

/-! ## Concatenated input -/

theorem feedAll_append (bytes first second : List Byte) :
    feedAll bytes (first ++ second) =
      (feedAll bytes first).bind fun fed =>
        (feedAll fed.1 second).map fun later => (later.1, fed.2 ++ later.2) := by
  induction first generalizing bytes with
  | nil => simp [feedAll]
  | cons byte first ih =>
      rw [List.cons_append, feedAll, feedAll]
      cases feed bytes byte with
      | none => rfl
      | some fed =>
          simp only [Option.bind_some, ih]
          cases feedAll fed.1 first with
          | none => rfl
          | some last =>
              simp only [Option.bind_some, Option.map_some]
              cases feedAll last.1 second with
              | none => rfl
              | some later => simp

/-- Bytes that are still being collected fit into the next frame, or into what remains. -/
theorem collected_length_le {bytes buf fed : List Byte} {frames : List (List Byte)}
    {limit : Nat} (hfeed : feedAll bytes buf = some (fed, frames))
    (hframes : ∀ frame ∈ frames, frame.length ≤ limit) (hfed : fed.length ≤ limit) :
    bytes.length ≤ limit := by
  induction buf generalizing bytes frames with
  | nil =>
      obtain ⟨rfl, -⟩ := Prod.mk.inj (Option.some.inj hfeed)
      exact hfed
  | cons byte buf ih =>
      obtain ⟨⟨next, done⟩, hnext, hrest⟩ := Option.bind_eq_some_iff.mp hfeed
      obtain ⟨⟨fed', later⟩, hlater, heq⟩ := Option.map_eq_some_iff.mp hrest
      obtain ⟨rfl, rfl⟩ := Prod.mk.inj heq
      have hle := ih hlater fun frame hframe => hframes frame (List.mem_append_right _ hframe)
      unfold feed settle at hnext
      split at hnext
      · obtain ⟨rfl, -⟩ := Prod.mk.inj (Option.some.inj hnext)
        exact hle
      · split at hnext
        · cases hnext
        · split at hnext
          · split at hnext
            · cases hnext
            · have hemitted : bytes ++ [byte] ∈ done := by
                split at hnext
                all_goals
                  obtain ⟨-, rfl⟩ := Prod.mk.inj (Option.some.inj hnext)
                  exact List.mem_singleton_self _
              have hframe := hframes _ (List.mem_append_left later hemitted)
              rw [List.length_append] at hframe
              omega
          · obtain ⟨rfl, -⟩ := Prod.mk.inj (Option.some.inj hnext)
            rw [List.length_append] at hle
            omega

/-! ## One encoded frame -/

/-- A data frame that the receiver can decode: a payload, and no sign extension. -/
structure Deliverable (frame : ClientFrame) : Prop where
  data : WebSocket.IsData frame.opcode
  payload_ne_nil : frame.payload ≠ []
  low_bytes : frame.form = .sixteen →
    frame.payload.length / 256 ≤ 0x7F ∧ frame.payload.length % 256 ≤ 0x7F

/-- The bytes of an extended length are not changed by sign extension. -/
def LowBytes (frame : ClientFrame) : Prop :=
  frame.form = .sixteen →
    frame.payload.length / 256 ≤ 0x7F ∧ frame.payload.length % 256 ≤ 0x7F

/-- The header fields as the receiver declares them. -/
def headerOf (frame : ClientFrame) : WSHeader where
  opcode := frame.opcode
  reserved := frame.rsv
  fin := frame.fin
  payloadSize := frame.lengthBits
  mask := true

theorem read_fixedHeader (frame : ClientFrame) (more : List Byte) :
    WSHeader.read (frame.fixedHeader ++ more) = headerOf frame := by
  rw [read_append (by rw [frame.length_fixedHeader])]
  exact (headerOf frame).ofBytes_toBytes

theorem read_encode (frame : ClientFrame) : WSHeader.read frame.encode = headerOf frame := by
  rw [ClientFrame.encode, ClientFrame.header, List.append_assoc]
  exact read_fixedHeader frame _

theorem lengthBits_seven {frame : ClientFrame} (hform : frame.form = .seven) :
    frame.lengthBits.toNat = frame.payload.length ∧ frame.payload.length < 126 := by
  have hlt := frame.payload_lt
  simp only [hform, LengthForm.limit] at hlt
  refine ⟨?_, hlt⟩
  simp only [ClientFrame.lengthBits, hform, BitVec.toNat_ofNat]
  omega

theorem lengthBits_sixteen {frame : ClientFrame} (hform : frame.form = .sixteen) :
    frame.lengthBits = 126#7 := by
  simp only [ClientFrame.lengthBits, hform]

/-- In the short form the length bits are none of the two escape values. -/
theorem lengthBits_ne {frame : ClientFrame} (hform : frame.form = .seven) {escape : BitVec 7}
    (hescape : 126 ≤ escape.toNat) : frame.lengthBits ≠ escape := by
  obtain ⟨hbits, hlt⟩ := lengthBits_seven hform
  rintro rfl
  omega

theorem headerSize_headerOf (frame : ClientFrame) :
    (headerOf frame).headerSize = frame.header.length := by
  rw [frame.length_header, WSHeader.headerSize]
  cases hform : frame.form with
  | seven =>
      rw [if_neg (show (headerOf frame).payloadSize ≠ 126#7 from lengthBits_ne hform (by decide)),
        if_neg (show (headerOf frame).payloadSize ≠ 127#7 from lengthBits_ne hform (by decide))]
      rfl
  | sixteen =>
      rw [if_pos (show (headerOf frame).payloadSize = 126#7 from lengthBits_sixteen hform)]
      rfl

theorem decodePayloadSize_header {frame : ClientFrame} (hlow : LowBytes frame) :
    (headerOf frame).decodePayloadSize frame.header = frame.payload.length := by
  cases hform : frame.form with
  | seven =>
      obtain ⟨hbits, _⟩ := lengthBits_seven hform
      rw [WSHeader.decodePayloadSize,
        if_neg (show (headerOf frame).payloadSize ≠ 126#7 from lengthBits_ne hform (by decide)),
        if_neg (show (headerOf frame).payloadSize ≠ 127#7 from lengthBits_ne hform (by decide))]
      exact hbits
  | sixteen =>
      have hbits : (headerOf frame).payloadSize = 126#7 := lengthBits_sixteen hform
      obtain ⟨hhigh, hlow⟩ := hlow hform
      have hfield : (headerOf frame).lengthField frame.header =
          [BitVec.ofNat 8 (frame.payload.length / 256),
            BitVec.ofNat 8 (frame.payload.length % 256)] := by
        simp [WSHeader.lengthField, hbits, ClientFrame.header, ClientFrame.fixedHeader,
          ClientFrame.extendedLength, hform]
      have hsafe : (headerOf frame).SignSafe frame.header := by
        rw [WSHeader.SignSafe, if_pos hbits, hfield]
        simp [BitVec.msb_eq_decide]
        omega
      rw [(WSHeader.decodePayloadSize_eq_iff (headerSize_headerOf frame).le).mpr hsafe,
        WSHeader.payloadLength, if_pos (Or.inl hbits), hfield]
      simp [value]
      omega

/-- Each proper part of a frame waits for another byte. -/
theorem lt_stageEnd_of_part {frame : ClientFrame} (hlow : LowBytes frame) {part rest : List Byte}
    (hsplit : part ++ rest = frame.encode) (hne : rest ≠ []) : part.length < stageEnd part := by
  have hlt := frame.payload_length_lt
  have hpos := List.length_pos_iff.mpr hne
  have hlength := congrArg List.length hsplit
  have hsize := (headerOf frame).headerSize_cases
  rw [List.length_append, frame.length_encode] at hlength
  rcases Nat.lt_or_ge part.length 2 with hshort | hlong
  · rw [stageEnd_of_short hshort]
    exact hshort
  · have hread : WSHeader.read part = headerOf frame := by
      rw [← read_encode, ← hsplit, read_append hlong]
    have hmask : (WSHeader.read part).mask = true := by
      rw [hread]
      rfl
    rcases Nat.lt_or_ge part.length (headerOf frame).headerSize with hheader | hpayload
    · rw [stageEnd_of_header hlong hmask (by rwa [hread]), hread]
      exact hheader
    · have hdecode : (headerOf frame).decodePayloadSize part = frame.payload.length := by
        rw [← decodePayloadSize_append hpayload, hsplit, ClientFrame.encode,
          decodePayloadSize_append (headerSize_headerOf frame).le, decodePayloadSize_header hlow]
      rw [stageEnd_of_payload hmask (by rwa [hread]), hread, hdecode, sizeAdd]
      rw [headerSize_headerOf] at hsize ⊢
      omega

theorem payloadSize_encode (frame : ClientFrame) :
    payloadSize frame.encode = frame.payload.length := by
  rw [payloadSize, read_encode, headerSize_headerOf, frame.length_encode, Nat.add_sub_cancel_left]

theorem complete_encode_iff {frame : ClientFrame} (hlow : LowBytes frame) :
    Complete frame.encode ↔ frame.payload ≠ [] := by
  have hlt := frame.payload_length_lt
  have hsize := (headerOf frame).headerSize_cases
  have hdecode : (headerOf frame).decodePayloadSize frame.encode = frame.payload.length := by
    rw [ClientFrame.encode, decodePayloadSize_append (headerSize_headerOf frame).le,
      decodePayloadSize_header hlow]
  simp only [Complete, read_encode, hdecode, frame.length_encode, sizeAdd]
  rw [headerSize_headerOf] at hsize ⊢
  rw [← List.length_pos_iff]
  constructor
  · rintro ⟨_, hheader, _⟩
    omega
  · intro hpos
    exact ⟨rfl, by omega, by omega⟩

/-- No encoded frame is too long for the unmasking loop. -/
theorem not_tooLong_encode (frame : ClientFrame) : ¬ TooLong frame.encode := by
  rintro ⟨_, hgt⟩
  have hlt := frame.payload_length_lt
  rw [payloadSize_encode, WebSocket.MAX_INT] at hgt
  omega

/-- After a part of a frame has been collected, its next byte settles. -/
theorem feedAll_next {frame : ClientFrame} (hlow : LowBytes frame) {part rest : List Byte}
    {byte : Byte} (hsplit : part ++ byte :: rest = frame.encode)
    (hpart : feedAll [] part = some (part, [])) :
    feedAll [] (part ++ [byte]) = settle (part ++ [byte]) := by
  have hwaits := lt_stageEnd_of_part hlow hsplit (List.cons_ne_nil byte rest)
  have hrefused : ¬ Refused part := fun hrefused => absurd hrefused.stageEnd_le (by omega)
  have hstuck : ¬ Stuck part := fun hstuck => absurd hstuck.stageEnd_le (by omega)
  rw [feedAll_append, hpart, Option.bind_some]
  simp only [feedAll, feed, hrefused, hstuck, if_false]
  cases settle (part ++ [byte]) with
  | none => rfl
  | some settled => simp

/-- A proper part of a frame is collected and nothing is put out. -/
theorem feedAll_part {frame : ClientFrame} (hlow : LowBytes frame) {part rest : List Byte}
    (hsplit : part ++ rest = frame.encode) (hne : rest ≠ []) :
    feedAll [] part = some (part, []) := by
  induction part using List.reverseRecOn generalizing rest with
  | nil => rfl
  | append_singleton part byte ih =>
      have hnext : part ++ byte :: rest = frame.encode := by
        rw [← hsplit, List.append_assoc, List.singleton_append]
      have hwaits := lt_stageEnd_of_part hlow hsplit hne
      have hincomplete : ¬ Complete (part ++ [byte]) := fun hcomplete =>
        hwaits.ne hcomplete.length_eq
      rw [feedAll_next hlow hnext (ih hnext (List.cons_ne_nil byte rest)), settle,
        if_neg hincomplete]

/-- The last byte of a frame settles it. -/
theorem feedAll_encode {frame : ClientFrame} (hlow : LowBytes frame) :
    feedAll [] frame.encode = settle frame.encode := by
  have hne : frame.encode ≠ [] := List.cons_ne_nil _ _
  have hsplit := List.dropLast_append_getLast hne
  have hpart := feedAll_part hlow hsplit (List.cons_ne_nil _ [])
  have hlast := feedAll_next hlow hsplit hpart
  rwa [hsplit] at hlast

/-- A frame of a known opcode with a payload is taken off the stream as a whole. -/
theorem settle_encode {frame : ClientFrame} (hlow : LowBytes frame) (hknown : IsKnown frame.opcode)
    (hne : frame.payload ≠ []) : settle frame.encode = some ([], [frame.encode]) := by
  have hopcode : IsKnown (WSHeader.read frame.encode).opcode := by
    rw [read_encode]
    exact hknown
  rw [settle, if_pos ((complete_encode_iff hlow).mpr hne), if_neg (not_tooLong_encode frame),
    if_pos hopcode]

/-- A frame without payload stays where it is. -/
theorem settle_empty {frame : ClientFrame} (hlow : LowBytes frame) (hempty : frame.payload = []) :
    settle frame.encode = some (frame.encode, []) := by
  rw [settle, if_neg fun hcomplete => (complete_encode_iff hlow).mp hcomplete hempty]

/-- A stream of encoded frames is taken off frame by frame. -/
theorem feedAll_encodes {frames : List ClientFrame} (hframes : ∀ frame ∈ frames, Deliverable frame) :
    feedAll [] (frames.flatMap ClientFrame.encode) =
      some ([], frames.map ClientFrame.encode) := by
  induction frames with
  | nil => rfl
  | cons frame frames ih =>
      have hframe := hframes frame List.mem_cons_self
      rw [List.flatMap_cons, feedAll_append, feedAll_encode hframe.low_bytes,
        settle_encode hframe.low_bytes (Or.inl hframe.data) hframe.payload_ne_nil,
        Option.bind_some, ih fun other hother => hframes other (List.mem_cons_of_mem _ hother)]
      rfl

/-- What the application is told of a frame. -/
def messageOfFrame (frame : ClientFrame) : WebSocketMessage where
  buffer := frame.payload
  size := frame.payload.length
  type := frame.opcode
  fin := frame.fin

theorem messageOf_encode (frame : ClientFrame) :
    WebSocket.messageOf frame.encode (WSHeader.read frame.encode).headerSize
      (payloadSize frame.encode) = messageOfFrame frame := by
  have hkey : (frame.encode.drop (frame.header.length - 4)).take 4 = frame.maskKey := by
    have hlength : frame.header.length =
        (frame.fixedHeader ++ frame.extendedLength).length + 4 := by
      rw [ClientFrame.header, ← List.append_assoc, List.length_append, frame.maskKey_length]
    rw [hlength, Nat.add_sub_cancel, ClientFrame.encode, ClientFrame.header, ← List.append_assoc,
      List.append_assoc, List.drop_left, ← frame.maskKey_length, List.take_left]
  have hpayload : (frame.encode.drop frame.header.length).take frame.payload.length =
      applyMask frame.maskKey frame.payload := by
    rw [ClientFrame.encode, List.drop_left, List.take_of_length_le (length_applyMask _ _).le]
  simp only [WebSocket.messageOf, read_encode, headerSize_headerOf, payloadSize_encode, hkey,
    hpayload]
  have hunmask : WebSocket.unmask frame.maskKey (applyMask frame.maskKey frame.payload) =
      frame.payload := applyMask_applyMask _ _
  rw [hunmask]
  rfl

/-! ## Chunks -/

namespace WebSocket

variable {app : Application}

theorem send_log_protocol (ws : WebSocket) (call : Send) :
    (ws.send call).log = ws.log ∧ (ws.send call).protocol = ws.protocol := by
  cases call with
  | text text =>
      simp only [send, sendText]
      split <;> simp
  | binary buffer =>
      simp only [send, sendBinary]
      split <;> simp

theorem foldl_send_log_protocol (ws : WebSocket) (calls : List Send) :
    (calls.foldl send ws).log = ws.log ∧ (calls.foldl send ws).protocol = ws.protocol := by
  induction calls generalizing ws with
  | nil => exact ⟨rfl, rfl⟩
  | cons call calls ih =>
      obtain ⟨hlog, hprotocol⟩ := ih (ws.send call)
      obtain ⟨hlog', hprotocol'⟩ := send_log_protocol ws call
      exact ⟨hlog.trans hlog', hprotocol.trans hprotocol'⟩

/-- A data frame is reported, whatever the application sends in reply. -/
theorem effect_data {reply : List Event → List Send} (hreply : app.onMessage = some reply)
    (now : Nat) (ws : WebSocket) {frame : List Byte}
    (hdata : IsData (WSHeader.read frame).opcode) (hlong : ¬ TooLong frame) :
    (ws.effect app now frame).log =
        ws.log ++ [.message (messageOf frame (WSHeader.read frame).headerSize
          (payloadSize frame))] ∧
      (ws.effect app now frame).protocol = ws.protocol := by
  have hsize : ¬ payloadSize frame > MAX_INT := fun hgt => hlong ⟨hdata, hgt⟩
  simp only [effect, processWholeWSPacket, hdata, if_true, hsize, if_false, Option.getD_some,
    notify, hreply]
  exact foldl_send_log_protocol _ _

/-- Data frames are reported in order. -/
theorem act_data {reply : List Event → List Send} (hreply : app.onMessage = some reply)
    (now : Nat) (ws : WebSocket) {frames : List ClientFrame}
    (hframes : ∀ frame ∈ frames, Deliverable frame) :
    (ws.act app now (frames.map ClientFrame.encode)).log =
        ws.log ++ frames.map (.message ∘ messageOfFrame) ∧
      (ws.act app now (frames.map ClientFrame.encode)).protocol = ws.protocol := by
  induction frames generalizing ws with
  | nil => simp [act]
  | cons frame frames ih =>
      have hframe := hframes frame List.mem_cons_self
      obtain ⟨hlog, hprotocol⟩ := effect_data hreply now ws
        (show IsData (WSHeader.read frame.encode).opcode by
          rw [read_encode]
          exact hframe.data)
        (fun hlong => by
          have hlt := frame.payload_length_lt
          have hgt := hlong.2
          rw [payloadSize_encode, MAX_INT] at hgt
          omega)
      obtain ⟨hlogs, hprotocols⟩ := ih (ws.effect app now frame.encode)
        fun other hother => hframes other (List.mem_cons_of_mem _ hother)
      rw [messageOf_encode] at hlog
      refine ⟨?_, hprotocols.trans hprotocol⟩
      rw [List.map_cons, act, List.foldl_cons]
      rw [act, hlog] at hlogs
      rw [hlogs]
      simp

/-- The chunks in order, each with the clock reading of its call. -/
def processChunks (app : Application) (fuel : Nat) :
    WebSocket → List (Nat × List Byte) → Outcome WebSocket
  | ws, [] => .finished ws
  | ws, (now, chunk) :: chunks =>
      match ws.processData app now fuel chunk with
      | .outOfFuel => .outOfFuel
      | .fault => .fault
      | .finished (_, ws) => processChunks app fuel ws chunks

theorem processChunks_cons {fuel now : Nat} {ws next : WebSocket} {chunk : List Byte}
    {chunks : List (Nat × List Byte)} (hprotocol : ws.protocol = .webSocket)
    (hloop : receiveLoop app now fuel ws chunk = .finished next) :
    processChunks app fuel ws ((now, chunk) :: chunks) = processChunks app fuel next chunks := by
  have hprocess : ws.processData app now fuel chunk =
      .finished (decide (next.connectionState ≠ .closed), next) := by
    rw [WebSocket.processData, hprotocol]
    simp only [hloop]
  rw [processChunks, hprocess]

/-- The run invariant: what has been collected and what is still to come are the
remaining frames. -/
theorem processChunks_feeds {reply : List Event → List Send}
    (hreply : app.onMessage = some reply) {fuel : Nat} {ws : WebSocket} {bytes : List Byte}
    {frames : List ClientFrame} {chunks : List (Nat × List Byte)}
    (hprotocol : ws.protocol = .webSocket) (tracks : Tracks ws.wsParser bytes)
    (collected : Collected bytes) (hframes : ∀ frame ∈ frames, Deliverable frame)
    (hfeed : feedAll bytes (chunks.flatMap Prod.snd) =
      some ([], frames.map ClientFrame.encode))
    (hchunks : ∀ chunk ∈ chunks, chunk.2 ≠ [] ∧ chunk.2.length < 2 ^ 63 ∧
      chunk.2.length ≤ fuel) :
    ∃ next, processChunks app fuel ws chunks = .finished next ∧ Tracks next.wsParser [] ∧
      next.log = ws.log ++ frames.map (.message ∘ messageOfFrame) := by
  induction chunks generalizing ws bytes frames with
  | nil =>
      obtain ⟨rfl, hnone⟩ := Prod.mk.inj (Option.some.inj hfeed)
      obtain rfl := List.map_eq_nil_iff.mp hnone.symm
      exact ⟨ws, rfl, tracks, by simp⟩
  | cons timed chunks ih =>
      obtain ⟨now, chunk⟩ := timed
      obtain ⟨hne, hlength, hfuel⟩ := hchunks _ List.mem_cons_self
      have hlimit : bytes.length ≤ 2 ^ 17 := by
        refine collected_length_le hfeed (fun encoded hencoded => ?_) (Nat.zero_le _)
        obtain ⟨frame, _, rfl⟩ := List.mem_map.mp hencoded
        have hlt := frame.payload_length_lt
        have hsize := (headerOf frame).headerSize_cases
        rw [headerSize_headerOf] at hsize
        rw [frame.length_encode]
        omega
      rw [List.flatMap_cons, feedAll_append] at hfeed
      obtain ⟨⟨fed, done⟩, hdone, hrest⟩ := Option.bind_eq_some_iff.mp hfeed
      obtain ⟨⟨last, later⟩, hlater, heq⟩ := Option.map_eq_some_iff.mp hrest
      obtain ⟨rfl, happend⟩ := Prod.mk.inj heq
      obtain ⟨first, second, rfl, rfl, rfl⟩ := List.map_eq_append_iff.mp happend.symm
      have hsize : bytes.length + chunk.length < 2 ^ 64 := by
        dsimp only at hlength
        omega
      obtain ⟨p, htracks, hcollected, _, hloop⟩ :=
        @receiveLoop_feeds app now ws bytes chunk fed _ fuel tracks collected hsize hne hdone hfuel
      have hopen : ¬ Refused fed := by
        intro hrefused
        rw [feedAll_refused hrefused] at hlater
        obtain ⟨rfl, -⟩ := Prod.mk.inj (Option.some.inj hlater)
        exact absurd hrefused.1 (by decide)
      obtain ⟨hlog, hkept⟩ := act_data hreply now ws fun frame hframe =>
        hframes frame (List.mem_append_left _ hframe)
      rw [respond, if_neg hopen] at hloop
      obtain ⟨next, hfinished, hboundary, hlogs⟩ :=
        @ih ((ws.act app now (first.map ClientFrame.encode)).withParser p) fed second
          (hkept.trans hprotocol) htracks hcollected
          (fun frame hframe => hframes frame (List.mem_append_right _ hframe)) hlater
          fun other hother => hchunks other (List.mem_cons_of_mem _ hother)
      refine ⟨next, (processChunks_cons hprotocol hloop).trans hfinished, hboundary, ?_⟩
      rw [hlogs, List.map_append, ← List.append_assoc, ← hlog]
      rfl

/--
Data frames in any chunks: with the parser at a frame boundary, the application
is told of each frame once, in order, with its opcode, its fin bit and its
payload, and the parser ends at a frame boundary.
-/
theorem frames_delivered_in_order {reply : List Event → List Send}
    (hreply : app.onMessage = some reply) {ws : WebSocket} (hprotocol : ws.protocol = .webSocket)
    (hboundary : Tracks ws.wsParser []) {frames : List ClientFrame}
    (hframes : ∀ frame ∈ frames, Deliverable frame) {chunks : List (Nat × List Byte)}
    (hsplit : chunks.flatMap Prod.snd = frames.flatMap ClientFrame.encode)
    (hchunks : ∀ chunk ∈ chunks, chunk.2 ≠ [] ∧ chunk.2.length < 2 ^ 63) {fuel : Nat}
    (hfuel : ∀ chunk ∈ chunks, chunk.2.length ≤ fuel) :
    ∃ next, processChunks app fuel ws chunks = .finished next ∧ Tracks next.wsParser [] ∧
      next.log = ws.log ++ frames.map (.message ∘ messageOfFrame) := by
  refine processChunks_feeds hreply hprotocol hboundary collected_nil hframes ?_ fun chunk hchunk =>
    ⟨(hchunks chunk hchunk).1, (hchunks chunk hchunk).2, hfuel chunk hchunk⟩
  rw [hsplit]
  exact feedAll_encodes hframes

/-- A text frame in the 16-bit form, cut within its length field. -/
theorem frames_delivered_in_order_hi :
    ∃ next, processChunks acceptAll 8
        { create 0 .connected (fun _ => ⟨[], 0, 0, false⟩) with protocol := .webSocket }
        [(0, [0x81#8, 0xFE#8, 0x00#8]),
          (7, [0x02#8, 1#8, 2#8, 3#8, 4#8, 0x69#8, 0x6B#8])] = .finished next ∧
      Tracks next.wsParser [] ∧
      next.log = [.message ⟨[0x68#8, 0x69#8], 2, WS_TEXT, true⟩] :=
  have hframes : ∀ frame ∈ ([⟨true, 0#3, WS_TEXT, .sixteen, [1#8, 2#8, 3#8, 4#8],
      [0x68#8, 0x69#8], rfl, by decide⟩] : List ClientFrame), Deliverable frame := by
    intro frame hframe
    obtain rfl := List.mem_singleton.mp hframe
    exact ⟨by decide, by decide, fun _ => by decide⟩
  have hreply : acceptAll.onMessage = some fun _ => [] := rfl
  frames_delivered_in_order hreply rfl Tracks.create hframes (by decide) (by decide) (by decide)

end WebSocket

end DumaisLib.WebSocket
