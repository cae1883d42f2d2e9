import DumaisLib.WebSocket.FrameStream

/-!
# The receive loop simulates the byte machine

A chunk that the byte machine accepts is consumed by the loop, stage by stage,
with the effects of its frames in order; on any other chunk the loop faults or
goes round for ever.
-/

set_option linter.dupNamespace false

namespace DumaisLib.WebSocket

open Machine

namespace WebSocket

variable {app : Application} {now : Nat}

/-! ## The parser is only touched by the loop itself -/

def withParser (ws : WebSocket) (wsParser : WSProtocolParser) : WebSocket :=
  { ws with wsParser := wsParser }

@[simp] theorem withParser_self (ws : WebSocket) : ws.withParser ws.wsParser = ws := rfl

@[simp] theorem withParser_withParser (ws : WebSocket) (p q : WSProtocolParser) :
    (ws.withParser p).withParser q = ws.withParser q := rfl

@[simp] theorem withParser_wsParser (ws : WebSocket) (p : WSProtocolParser) :
    (ws.withParser p).wsParser = p := rfl

theorem sendData_withParser (ws : WebSocket) (p : WSProtocolParser) (buffer : List Byte) :
    (ws.withParser p).sendData buffer = (ws.sendData buffer).withParser p := by
  simp only [sendData]
  by_cases hput : (ws.txList.put ⟨buffer, buffer.length, 0, true⟩).1 = false
  · have hput' : ((ws.withParser p).txList.put ⟨buffer, buffer.length, 0, true⟩).1 = false := hput
    rw [if_pos hput, if_pos hput']
    rfl
  · have hput' : ¬ ((ws.withParser p).txList.put ⟨buffer, buffer.length, 0, true⟩).1 = false :=
      hput
    rw [if_neg hput, if_neg hput']
    rfl

theorem closeWebSocket_withParser (ws : WebSocket) (p : WSProtocolParser) :
    (ws.withParser p).closeWebSocket now = (ws.closeWebSocket now).withParser p := by
  simp only [closeWebSocket, sendData_withParser]
  rfl

theorem send_withParser (ws : WebSocket) (p : WSProtocolParser) (call : Send) :
    (ws.withParser p).send call = (ws.send call).withParser p := by
  cases call with
  | text text =>
      simp only [send, sendText]
      split
      · rfl
      · exact sendData_withParser _ _ _
  | binary buffer =>
      simp only [send, sendBinary]
      split
      · rfl
      · exact sendData_withParser _ _ _

theorem foldl_send_withParser (ws : WebSocket) (p : WSProtocolParser) (calls : List Send) :
    calls.foldl send (ws.withParser p) = (calls.foldl send ws).withParser p := by
  induction calls generalizing ws with
  | nil => rfl
  | cons call calls ih => simp only [List.foldl_cons, send_withParser, ih]

theorem notify_withParser (ws : WebSocket) (p : WSProtocolParser)
    (callback : Option (List Event → List Send)) (event : Event) :
    (ws.withParser p).notify callback event = (ws.notify callback event).withParser p := by
  cases callback with
  | none => rfl
  | some reply => exact foldl_send_withParser { ws with log := _ } p _

@[simp] theorem sendData_wsParser (ws : WebSocket) (buffer : List Byte) :
    (ws.sendData buffer).wsParser = ws.wsParser :=
  (congrArg WebSocket.wsParser (sendData_withParser ws ws.wsParser buffer) :)

@[simp] theorem send_wsParser (ws : WebSocket) (call : Send) :
    (ws.send call).wsParser = ws.wsParser :=
  (congrArg WebSocket.wsParser (send_withParser ws ws.wsParser call) :)

@[simp] theorem notify_wsParser (ws : WebSocket) (callback : Option (List Event → List Send))
    (event : Event) : (ws.notify callback event).wsParser = ws.wsParser :=
  (congrArg WebSocket.wsParser (notify_withParser ws ws.wsParser callback event) :)

/-- The parser after a whole frame has been processed. -/
def parserAfter (p : WSProtocolParser) (frame : List Byte) : WSProtocolParser :=
  if IsKnown (WSHeader.read frame).opcode then p.resetMessageBuffer else p

theorem processWholeWSPacket_withParser (ws : WebSocket) (p : WSProtocolParser)
    (frame : List Byte) (headerSize payloadSize : Nat) :
    (ws.withParser p).processWholeWSPacket app now frame headerSize payloadSize =
      (ws.processWholeWSPacket app now frame headerSize payloadSize).map
        (·.withParser (parserAfter p frame)) := by
  simp only [processWholeWSPacket, parserAfter, IsKnown]
  by_cases hdata : IsData (WSHeader.read frame).opcode
  · simp only [hdata, true_or, if_true]
    split
    · rfl
    · simp only [notify_withParser]
      rfl
  · by_cases hclose : (WSHeader.read frame).opcode = WS_CLOSE
    · simp only [hclose, true_or, or_true, if_true]
      by_cases hconnected : ws.connectionState = .connected
      · have hconnected' : (ws.withParser p).connectionState = .connected := hconnected
        simp only [hconnected, hconnected', if_true, closeWebSocket_withParser]
        rfl
      · have hconnected' : (ws.withParser p).connectionState ≠ .connected := hconnected
        simp only [hconnected, hconnected', if_false]
        rfl
    · by_cases hping : (WSHeader.read frame).opcode = WS_PING
      · simp only [hping, or_true, if_true, processPing,
          sendData_withParser]
        rfl
      · simp only [hdata, hclose, hping, or_false, if_false, closeWebSocket_withParser]
        rfl

/-- Only the unmasking loop can fail. -/
theorem processWholeWSPacket_eq_none_iff {ws : WebSocket} {frame : List Byte}
    {headerSize : Nat} :
    ws.processWholeWSPacket app now frame headerSize (payloadSize frame) = none ↔
      TooLong frame := by
  simp only [processWholeWSPacket, TooLong]
  by_cases hdata : IsData (WSHeader.read frame).opcode
  · by_cases hlong : payloadSize frame > MAX_INT
    · simp [hdata, hlong]
    · simp [hdata, hlong]
  · simp only [hdata, if_false, false_and, iff_false]
    split
    · simp
    · split <;> simp

/-! ## Frames and their effects -/

/-- What a complete frame does to the connection. -/
def effect (app : Application) (now : Nat) (ws : WebSocket) (frame : List Byte) : WebSocket :=
  (ws.processWholeWSPacket app now frame (WSHeader.read frame).headerSize
    (payloadSize frame)).getD ws

/-- The effects of several frames, in order. -/
def act (app : Application) (now : Nat) (ws : WebSocket) (frames : List (List Byte)) :
    WebSocket :=
  frames.foldl (effect app now) ws

/-- What a non-empty chunk does that leaves the collected bytes `bytes`. -/
def respond (app : Application) (now : Nat) (ws : WebSocket) (bytes : List Byte)
    (frames : List (List Byte)) : WebSocket :=
  let acted := ws.act app now frames
  if Refused bytes then acted.closeWebSocket now else acted

theorem processWholeWSPacket_eq_effect (ws : WebSocket) {frame : List Byte}
    (hlong : ¬ TooLong frame) :
    ws.processWholeWSPacket app now frame (WSHeader.read frame).headerSize (payloadSize frame) =
      some (ws.effect app now frame) := by
  rw [effect]
  cases hprocess : ws.processWholeWSPacket app now frame (WSHeader.read frame).headerSize
    (payloadSize frame) with
  | none => exact absurd (processWholeWSPacket_eq_none_iff.mp hprocess) hlong
  | some acted => rfl

theorem effect_withParser (app : Application) (now : Nat) (ws : WebSocket)
    (p : WSProtocolParser) (frame : List Byte) :
    ∃ q, (ws.withParser p).effect app now frame = (ws.effect app now frame).withParser q := by
  simp only [effect, processWholeWSPacket_withParser]
  cases ws.processWholeWSPacket app now frame (WSHeader.read frame).headerSize
    (payloadSize frame) with
  | none => exact ⟨p, rfl⟩
  | some acted => exact ⟨parserAfter p frame, rfl⟩

theorem act_withParser (app : Application) (now : Nat) (ws : WebSocket)
    (p q : WSProtocolParser) (frames : List (List Byte)) :
    ((ws.withParser p).act app now frames).withParser q =
      (ws.act app now frames).withParser q := by
  induction frames generalizing ws p with
  | nil => rfl
  | cons frame frames ih =>
      obtain ⟨r, heffect⟩ := effect_withParser app now ws p frame
      simp only [act, List.foldl_cons, heffect] at ih ⊢
      exact ih _ r

theorem respond_withParser (ws : WebSocket) (p q : WSProtocolParser) (bytes : List Byte)
    (frames : List (List Byte)) :
    ((ws.withParser p).respond app now bytes frames).withParser q =
      (ws.respond app now bytes frames).withParser q := by
  have hact := act_withParser app now ws p q frames
  simp only [respond]
  split
  · rw [← closeWebSocket_withParser, hact, closeWebSocket_withParser]
  · exact hact

/-! ## One iteration -/

/-- The bytes that the iteration leaves for the next one. -/
def leftOver (bytes buf : List Byte) : List Byte :=
  buf.drop (stageTake bytes buf).length

theorem stageTake_append_leftOver (bytes buf : List Byte) :
    stageTake bytes buf ++ leftOver bytes buf = buf := by
  have hlength : (stageTake bytes buf).length = min (stageEnd bytes - bytes.length) buf.length :=
    List.length_take
  rw [leftOver, hlength]
  conv_rhs => rw [← List.take_append_drop (min (stageEnd bytes - bytes.length) buf.length) buf]
  rw [stageTake, List.take_eq_take_min]

theorem stageTake_eq_nil {bytes : List Byte} (hle : stageEnd bytes ≤ bytes.length)
    (buf : List Byte) : stageTake bytes buf = [] := by
  rw [stageTake, Nat.sub_eq_zero_of_le hle, List.take_zero]

theorem stageTake_ne_nil {bytes buf : List Byte} (hlt : bytes.length < stageEnd bytes)
    (hne : buf ≠ []) : stageTake bytes buf ≠ [] := by
  have hpos := List.length_pos_iff.mpr hne
  have hlength : (stageTake bytes buf).length = min (stageEnd bytes - bytes.length) buf.length :=
    List.length_take
  exact List.length_pos_iff.mp (by omega)

theorem stageTake_length_le {bytes : List Byte} (hle : bytes.length ≤ stageEnd bytes)
    (buf : List Byte) : bytes.length + (stageTake bytes buf).length ≤ stageEnd bytes := by
  have hlength : (stageTake bytes buf).length ≤ stageEnd bytes - bytes.length :=
    List.length_take_le _ _
  omega

theorem length_stageTake_leftOver (bytes buf : List Byte) :
    (stageTake bytes buf).length + (leftOver bytes buf).length = buf.length := by
  rw [← List.length_append, stageTake_append_leftOver]

/-- What one call reads settles before the left over bytes are fed. -/
theorem feedAll_stageTake {bytes buf : List Byte} (hrefused : ¬ Refused bytes)
    (hstuck : ¬ Stuck bytes) (hne : buf ≠ []) :
    feedAll bytes buf = (settle (bytes ++ stageTake bytes buf)).bind fun settled =>
      (feedAll settled.1 (leftOver bytes buf)).map fun later =>
        (later.1, settled.2 ++ later.2) := by
  have hlt := lt_stageEnd hrefused hstuck
  have hfeed := feedAll_stage (leftOver bytes buf) (stageTake_ne_nil hlt hne) hrefused hstuck
    (stageTake_length_le hlt.le buf)
  rwa [stageTake_append_leftOver] at hfeed

section Iterate

variable {ws : WebSocket} {bytes buf : List Byte}

/-- The iteration that reads up to an unmasked header closes and leaves the loop. -/
theorem iterate_refused (app : Application) (now : Nat) (tracks : Tracks ws.wsParser bytes)
    (hle : bytes.length ≤ stageEnd bytes)
    (hsize : bytes.length + buf.length < 2 ^ 64)
    (hrefused : Refused (bytes ++ stageTake bytes buf)) :
    ∃ p, Tracks p (bytes ++ stageTake bytes buf) ∧
      ws.iterate app now buf = some (.leave ((ws.closeWebSocket now).withParser p)) := by
  obtain ⟨p, hparse, htracks⟩ := parse_tracks tracks hle hsize
  refine ⟨p, htracks, ?_⟩
  rw [stageStatus_eq, if_pos hrefused] at hparse
  simp only [iterate, hparse]
  rw [← closeWebSocket_withParser]
  rfl

/-- Any other iteration settles the collected bytes and goes on with the rest. -/
theorem iterate_settles (app : Application) (now : Nat) (tracks : Tracks ws.wsParser bytes)
    (hle : bytes.length ≤ stageEnd bytes)
    (hsize : bytes.length + buf.length < 2 ^ 64)
    (hrefused : ¬ Refused (bytes ++ stageTake bytes buf)) :
    match settle (bytes ++ stageTake bytes buf) with
    | none => ws.iterate app now buf = none
    | some (settled, frames) => ∃ p, Tracks p settled ∧
        ws.iterate app now buf =
          some (.again ((ws.act app now frames).withParser p) (leftOver bytes buf)) := by
  obtain ⟨p, hparse, htracks⟩ := parse_tracks tracks hle hsize
  rw [stageStatus_eq, if_neg hrefused] at hparse
  have hws : ({ ws with wsParser := p } : WebSocket) = ws.withParser p := rfl
  simp only [iterate, hparse, hws]
  by_cases hcomplete : Complete (bytes ++ stageTake bytes buf)
  · simp only [settle, hcomplete, if_true, processWholeWSPacket_withParser]
    by_cases hlong : TooLong (bytes ++ stageTake bytes buf)
    · simp [hlong, processWholeWSPacket_eq_none_iff.mpr hlong]
    · rw [processWholeWSPacket_eq_effect ws hlong]
      simp only [hlong, if_false, Option.map_some]
      by_cases hknown : IsKnown (WSHeader.read (bytes ++ stageTake bytes buf)).opcode
      · simp only [hknown, if_true]
        refine ⟨p.resetMessageBuffer, htracks.reset, ?_⟩
        rw [parserAfter, if_pos hknown]
        rfl
      · simp only [hknown, if_false]
        refine ⟨p, htracks, ?_⟩
        rw [parserAfter, if_neg hknown]
        rfl
  · simp only [settle, hcomplete, if_false]
    exact ⟨p, htracks, rfl⟩

end Iterate

/-! ## The whole loop -/

/-- Each iteration over the buffer leaves the loop or consumes at least one byte. -/
inductive Progresses (app : Application) (now : Nat) : WebSocket → List Byte → Prop where
  | done (ws : WebSocket) : Progresses app now ws []
  | leave {ws next : WebSocket} {buf : List Byte} :
      buf ≠ [] → ws.iterate app now buf = some (.leave next) → Progresses app now ws buf
  | again {ws next : WebSocket} {buf rest : List Byte} :
      buf ≠ [] → ws.iterate app now buf = some (.again next rest) → rest.length < buf.length →
      Progresses app now next rest → Progresses app now ws buf

theorem receiveLoop_cons (fuel : Nat) (ws : WebSocket) {buf : List Byte} (hne : buf ≠ []) :
    receiveLoop app now (fuel + 1) ws buf =
      match ws.iterate app now buf with
      | none => .fault
      | some (.leave next) => .finished next
      | some (.again next rest) => receiveLoop app now fuel next rest := by
  cases buf with
  | nil => exact absurd rfl hne
  | cons byte buf => rfl

/-- A progressing loop needs at most one iteration for each byte. -/
theorem Progresses.terminates {ws : WebSocket} {buf : List Byte}
    (hprogress : Progresses app now ws buf) {fuel : Nat} (hfuel : buf.length ≤ fuel) :
    ∃ next, receiveLoop app now fuel ws buf = .finished next := by
  induction hprogress generalizing fuel with
  | done ws =>
      exact ⟨ws, by cases fuel <;> rfl⟩
  | leave hne hiterate =>
      have hpos := List.length_pos_iff.mpr hne
      obtain ⟨fuel, rfl⟩ := Nat.exists_eq_add_one.mpr (hpos.trans_le hfuel)
      rw [receiveLoop_cons fuel _ hne, hiterate]
      exact ⟨_, rfl⟩
  | again hne hiterate hlt _ ih =>
      have hpos := List.length_pos_iff.mpr hne
      obtain ⟨fuel, rfl⟩ := Nat.exists_eq_add_one.mpr (hpos.trans_le hfuel)
      rw [receiveLoop_cons fuel _ hne, hiterate]
      exact ih (by omega)

/-- A settled frame leaves bytes that are again collected ones. -/
theorem settle_collected {bytes settled : List Byte} {frames : List (List Byte)}
    (hlt : bytes.length < 2 ^ 64) (hrefused : ¬ Refused bytes)
    (hsettle : settle bytes = some (settled, frames)) :
    Collected settled ∧ ¬ Refused settled ∧ settled.length ≤ bytes.length := by
  have hnil : ¬ Refused [] := fun hrefused => absurd hrefused.1 (by decide)
  unfold settle at hsettle
  split at hsettle
  · split at hsettle
    · exact absurd hsettle (by simp)
    · split at hsettle
      · obtain ⟨rfl, -⟩ := Prod.mk.inj (Option.some.inj hsettle)
        exact ⟨collected_nil, hnil, Nat.zero_le _⟩
      · rename_i hunknown
        obtain ⟨rfl, -⟩ := Prod.mk.inj (Option.some.inj hsettle)
        exact ⟨⟨hlt, fun hrefused' => absurd hrefused' hrefused, fun _ => hunknown⟩, hrefused,
          le_rfl⟩
  · rename_i hincomplete
    obtain ⟨rfl, -⟩ := Prod.mk.inj (Option.some.inj hsettle)
    exact ⟨⟨hlt, fun hrefused' => absurd hrefused' hrefused,
      fun hcomplete => absurd hcomplete hincomplete⟩, hrefused, le_rfl⟩

/-- Collected bytes that do not grow are not taken off the parser. -/
theorem settle_of_collected {bytes : List Byte} (collected : Collected bytes) :
    ∃ frames, settle bytes = some (bytes, frames) := by
  by_cases hcomplete : Complete bytes
  · have hunknown := collected.complete hcomplete
    have hlong : ¬ TooLong bytes := fun hlong => hunknown (Or.inl hlong.1)
    exact ⟨[bytes], by rw [settle, if_pos hcomplete, if_neg hlong, if_neg hunknown]⟩
  · exact ⟨[], by rw [settle, if_neg hcomplete]⟩

theorem settle_refused {bytes : List Byte} (hrefused : Refused bytes) :
    settle bytes = some (bytes, []) := by
  have hincomplete : ¬ Complete bytes := fun hcomplete =>
    absurd (hcomplete.1.symm.trans hrefused.2) (by decide)
  rw [settle, if_neg hincomplete]

/-- A frame is refused as soon as its second byte is there. -/
theorem length_eq_two_of_refused {bytes : List Byte} (hrefused : ¬ Refused bytes)
    (hle : bytes.length ≤ stageEnd bytes) {buf : List Byte}
    (hnext : Refused (bytes ++ stageTake bytes buf)) :
    (bytes ++ stageTake bytes buf).length = 2 := by
  have htake := stageTake_length_le hle buf
  have hlong := hnext.1
  rcases Nat.lt_or_ge bytes.length 2 with hshort | hge
  · rw [stageEnd_of_short hshort] at htake
    rw [List.length_append] at hlong ⊢
    omega
  · have hmask := hnext.2
    rw [read_append hge] at hmask
    exact absurd ⟨hge, hmask⟩ hrefused

theorem collected_of_refused {bytes : List Byte} (hrefused : Refused bytes)
    (htwo : bytes.length = 2) : Collected bytes where
  length_lt := by omega
  refused _ := htwo
  complete hcomplete := absurd (hcomplete.1.symm.trans hrefused.2) (by decide)

/-- A chunk that the byte machine accepts is consumed with the effects of its frames. -/
theorem receiveLoop_feeds {ws : WebSocket} {bytes buf fed : List Byte}
    {frames : List (List Byte)} {fuel : Nat} (tracks : Tracks ws.wsParser bytes)
    (collected : Collected bytes) (hsize : bytes.length + buf.length < 2 ^ 64) (hne : buf ≠ [])
    (hfeed : feedAll bytes buf = some (fed, frames)) (hfuel : buf.length ≤ fuel) :
    ∃ p, Tracks p fed ∧ Collected fed ∧ Progresses app now ws buf ∧
      receiveLoop app now fuel ws buf =
        .finished ((ws.respond app now fed frames).withParser p) := by
  induction fuel generalizing ws bytes buf frames with
  | zero => exact absurd (List.length_pos_iff.mpr hne) (by omega)
  | succ fuel ih =>
      rw [receiveLoop_cons fuel ws hne]
      by_cases hrefused : Refused bytes
      · have htwo := collected.refused hrefused
        have htake := stageTake_eq_nil hrefused.stageEnd_le buf
        rw [feedAll_refused hrefused] at hfeed
        obtain ⟨rfl, rfl⟩ := Prod.mk.inj (Option.some.inj hfeed)
        obtain ⟨p, htracks, hiterate⟩ := iterate_refused app now tracks
          (by rw [stageEnd_of_unmasked hrefused.2, htwo]) hsize
          (by rwa [htake, List.append_nil])
        rw [htake, List.append_nil] at htracks
        refine ⟨p, htracks, collected, .leave hne hiterate, ?_⟩
        rw [hiterate, respond, if_pos hrefused]
        rfl
      · by_cases hstuck : Stuck bytes
        · obtain ⟨byte, buf, rfl⟩ := List.exists_cons_of_ne_nil hne
          exact absurd (hfeed.symm.trans (feedAll_stuck hrefused hstuck byte buf)) (by simp)
        · have hlt := lt_stageEnd hrefused hstuck
          have hlength := length_stageTake_leftOver bytes buf
          have hpos := List.length_pos_iff.mpr (stageTake_ne_nil hlt hne)
          have hstaged : (bytes ++ stageTake bytes buf).length < 2 ^ 64 := by
            rw [List.length_append]
            omega
          rw [feedAll_stageTake hrefused hstuck hne] at hfeed
          obtain ⟨⟨settled, done⟩, hsettle, hfeed⟩ := Option.bind_eq_some_iff.mp hfeed
          obtain ⟨⟨fed', later⟩, hlater, heq⟩ := Option.map_eq_some_iff.mp hfeed
          obtain ⟨rfl, rfl⟩ := Prod.mk.inj heq
          by_cases hnext : Refused (bytes ++ stageTake bytes buf)
          · obtain ⟨p, htracks, hiterate⟩ := iterate_refused app now tracks
              hlt.le hsize hnext
            rw [settle_refused hnext] at hsettle
            obtain ⟨rfl, rfl⟩ := Prod.mk.inj (Option.some.inj hsettle)
            rw [feedAll_refused hnext] at hlater
            obtain ⟨rfl, rfl⟩ := Prod.mk.inj (Option.some.inj hlater)
            have htwo := length_eq_two_of_refused hrefused hlt.le hnext
            have hcollected := collected_of_refused hnext htwo
            refine ⟨p, htracks, hcollected, .leave hne hiterate, ?_⟩
            rw [hiterate, respond, if_pos hnext]
            rfl
          · obtain ⟨hcollected, hopen, hle⟩ := settle_collected hstaged hnext hsettle
            have hiterate := iterate_settles app now tracks hlt.le hsize hnext
            rw [hsettle] at hiterate
            obtain ⟨p, htracks, hiterate⟩ := hiterate
            rw [hiterate]
            rw [List.length_append] at hle
            by_cases hrest : leftOver bytes buf = []
            · rw [hrest] at hlater hiterate ⊢
              obtain ⟨rfl, rfl⟩ := Prod.mk.inj (Option.some.inj hlater)
              refine ⟨p, htracks, hcollected, .again hne hiterate (by simp; omega) (.done _), ?_⟩
              rw [respond, if_neg hopen, List.append_nil]
              cases fuel <;> rfl
            · obtain ⟨q, hq, hcollected', hprogress, hloop⟩ :=
                @ih ((ws.act app now done).withParser p) _ _ _ htracks hcollected (by omega) hrest
                  hlater (by omega)
              refine ⟨q, hq, hcollected', .again hne hiterate (by omega) hprogress, ?_⟩
              simp only [hloop, respond_withParser]
              simp only [respond, act, List.foldl_append]

/-- On a chunk that the byte machine does not accept the loop never returns. -/
theorem receiveLoop_stalls {ws : WebSocket} {bytes buf : List Byte}
    (tracks : Tracks ws.wsParser bytes) (collected : Collected bytes)
    (hsize : bytes.length + buf.length < 2 ^ 64) (hfeed : feedAll bytes buf = none)
    (fuel : Nat) (next : WebSocket) : receiveLoop app now fuel ws buf ≠ .finished next := by
  induction fuel generalizing ws bytes buf with
  | zero =>
      cases buf with
      | nil => exact absurd hfeed (by simp [feedAll])
      | cons byte buf =>
          intro hfinished
          cases hfinished
  | succ fuel ih =>
      have hne : buf ≠ [] := by
        rintro rfl
        exact absurd hfeed (by simp [feedAll])
      rw [receiveLoop_cons fuel ws hne]
      by_cases hrefused : Refused bytes
      · exact absurd (hfeed.symm.trans (feedAll_refused hrefused buf)) (by simp)
      · by_cases hstuck : Stuck bytes
        · rcases Nat.lt_or_eq_of_le hstuck.stageEnd_le with hlt | heq
          · have hparse : ws.wsParser.parseWSMessage buf = none :=
              parse_none_of_overrun tracks hlt (by omega) (by omega)
            simp [iterate, hparse]
          · have htake := stageTake_eq_nil heq.le buf
            have hiterate := iterate_settles app now tracks heq.ge hsize
              (by rwa [htake, List.append_nil])
            obtain ⟨frames, hsettle⟩ := settle_of_collected collected
            rw [leftOver, htake, List.append_nil, hsettle] at hiterate
            obtain ⟨p, htracks, hiterate⟩ := hiterate
            rw [hiterate]
            exact ih htracks collected hsize hfeed
        · have hlt := lt_stageEnd hrefused hstuck
          have hlength := length_stageTake_leftOver bytes buf
          have hstaged : (bytes ++ stageTake bytes buf).length < 2 ^ 64 := by
            rw [List.length_append]
            omega
          have hfeed' := hfeed
          rw [feedAll_stageTake hrefused hstuck hne] at hfeed'
          by_cases hnext : Refused (bytes ++ stageTake bytes buf)
          · simp [settle_refused hnext, feedAll_refused hnext] at hfeed'
          · have hiterate := iterate_settles app now tracks hlt.le hsize hnext
            cases hsettle : settle (bytes ++ stageTake bytes buf) with
            | none =>
                rw [hsettle] at hiterate
                simp [hiterate]
            | some settled =>
                rw [hsettle] at hiterate hfeed'
                obtain ⟨p, htracks, hiterate⟩ := hiterate
                obtain ⟨hcollected, hopen, hle⟩ := settle_collected hstaged hnext hsettle
                rw [List.length_append] at hle
                rw [hiterate]
                exact ih htracks hcollected (by omega) (by simpa using hfeed')

end WebSocket

end DumaisLib.WebSocket
