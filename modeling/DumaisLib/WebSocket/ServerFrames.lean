import DumaisLib.Lib.Rfc6455
import DumaisLib.WebSocket.Closing

/-!
# The frames that a connection queues

Data and Close frames are made by the server itself.  A pong is the client's
ping sent back, with the client's mask bit and masking key.
-/

set_option linter.dupNamespace false

namespace DumaisLib.WebSocket

open DumaisLib.Utils Machine Rfc6455

/-! ## Frames made by the server -/

theorem isServerFrame_close : IsServerFrame WSProtocolParser.generateCloseMessage :=
  ⟨⟨true, 0#3, WS_CLOSE, .seven, [], by decide⟩, rfl⟩

theorem ofNat_shiftRight (length : Nat) :
    BitVec.ofNat 8 (length >>> 8) = BitVec.ofNat 8 (length / 256) := by
  rw [Nat.shiftRight_eq_div_pow]

theorem ofNat_mod (length : Nat) : BitVec.ofNat 8 length = BitVec.ofNat 8 (length % 256) := by
  apply BitVec.eq_of_toNat_eq
  simp

/-- The final frame with the payload and its length in the shortest form. -/
def messageFrame (type : BitVec 4) (buffer : List Byte) (hle : buffer.length ≤ 65535) :
    ServerFrame where
  fin := true
  rsv := 0#3
  opcode := type
  form := .shortest buffer.length
  payload := buffer
  payload_lt := LengthForm.lt_limit_shortest hle

theorem sendData_eq_encode {type : BitVec 4} {buffer : List Byte} (hle : buffer.length ≤ 65535) :
    WSProtocolParser.sendData type buffer = some (messageFrame type buffer hle).encode := by
  rw [WSProtocolParser.sendData, ServerFrame.encode, ServerFrame.lengthBits,
    ServerFrame.extendedLength]
  dsimp only [messageFrame]
  by_cases hshort : buffer.length ≤ 125
  · rw [if_neg (by omega), LengthForm.shortest, if_pos hshort]
    rfl
  · rw [if_pos (by omega), if_neg (by omega), LengthForm.shortest, if_neg hshort,
      ofNat_shiftRight, ofNat_mod buffer.length]
    rfl

theorem sendData_eq_none {type : BitVec 4} {buffer : List Byte} (hlong : 65535 < buffer.length) :
    WSProtocolParser.sendData type buffer = none := by
  rw [WSProtocolParser.sendData]
  dsimp only
  rw [if_pos (by omega), if_pos hlong]

/-- The packet of a sending call is a server frame. -/
theorem isServerFrame_sendData {type : BitVec 4} {buffer packet : List Byte}
    (hpacket : WSProtocolParser.sendData type buffer = some packet) : IsServerFrame packet := by
  rcases Nat.lt_or_ge 65535 buffer.length with hlong | hle
  · rw [sendData_eq_none hlong] at hpacket
    cases hpacket
  · rw [sendData_eq_encode hle] at hpacket
    exact ⟨messageFrame type buffer hle, (Option.some.inj hpacket).symm⟩

theorem isServerFrame_frame {call : Send} {packet : List Byte}
    (hpacket : call.frame? = some packet) : IsServerFrame packet := by
  cases call with
  | text content => exact isServerFrame_sendData hpacket
  | binary buffer => exact isServerFrame_sendData hpacket

namespace Session

variable {app : Application} {session next : Session} {action : Action}

theorem isServerFrame_replies (ws : WebSocket) (callback : Option (List Event → List Send))
    (event : Event) : ∀ buffer ∈ ws.replies callback event, IsServerFrame buffer := by
  intro buffer hbuffer
  cases callback with
  | none => cases hbuffer
  | some reply =>
      obtain ⟨call, -, hframe⟩ := List.mem_filterMap.mp hbuffer
      exact isServerFrame_frame hframe

/-! ## The pong -/

/-- A complete frame is a masked one, with its whole header. -/
theorem mask_of_finishStage {parser : WSProtocolParser} {buffer : List Byte}
    {headerSize payloadSize : Nat}
    (hready : parser.finishStage.2 = .messageReady buffer headerSize payloadSize) :
    (WSHeader.read buffer).mask = true ∧ headerSize = (WSHeader.read buffer).headerSize := by
  rw [WSProtocolParser.finishStage] at hready
  dsimp only at hready
  split at hready
  · by_cases hmask : (WSHeader.read parser.data).mask = false
    · rw [if_pos hmask] at hready
      cases hready
    · rw [if_neg hmask] at hready
      split at hready
      · cases hready
      · generalize (if parser.expectedLength = WSHeader.size then _ else _) = expected at hready
        split at hready
        · obtain ⟨rfl, rfl, -⟩ := WSParsingStatus.messageReady.inj hready
          exact ⟨eq_true_of_ne_false hmask, rfl⟩
        · cases hready
  · cases hready

/-- The bytes of a ping begin with the masked header of one. -/
theorem header_of_ping {buf : List Byte} (hdeed : session.deed = .ping buf) :
    (WSHeader.read buf).mask = true ∧ (WSHeader.read buf).opcode = WS_PING := by
  rw [deed] at hdeed
  split at hdeed
  · cases hdeed
  · rename_i result hparse
    obtain ⟨status, dataRead⟩ := result
    rw [WSProtocolParser.parseWSMessage] at hparse
    dsimp only at hparse
    split at hparse
    · have hstatus := (WSParsingResult.mk.inj (Prod.mk.inj (Option.some.inj hparse)).2).1
      cases status with
      | error => cases hdeed
      | messageIncomplete => cases hdeed
      | messageReady buffer headerSize payloadSize =>
          obtain ⟨hmask, hsize⟩ := mask_of_finishStage hstatus
          simp only [deedOf] at hdeed
          split at hdeed
          · cases hdeed
          · split at hdeed
            · cases hdeed
            · split at hdeed
              · rename_i hping
                have hlong := (WSHeader.read buffer).headerSize_cases
                have htake : buf = buffer.take (payloadSize + headerSize) :=
                  (Deed.ping.inj hdeed).symm
                have hread : WSHeader.read buf = WSHeader.read buffer := by
                  rw [htake, WSHeader.read, List.getD_eq_getElem?_getD,
                    List.getD_eq_getElem?_getD, List.getElem?_take_of_lt (by omega),
                    List.getElem?_take_of_lt (by omega)]
                  rfl
                rw [hread]
                exact ⟨hmask, hping⟩
              · cases hdeed
    · cases hparse

/-- The step reads the last bytes of this ping of the client. -/
def ReadsPing (session : Session) (buf : List Byte) : Action → Prop
  | .turn _ => session.deed = .ping buf
  | _ => False

/-- The step answers a ping. -/
def Pongs (session : Session) (action : Action) : Prop :=
  ∃ buf, session.ReadsPing buf action

/-- Such a step queues the pong alone. -/
theorem ReadsPing.queuedBy_eq {buf : List Byte} (hping : session.ReadsPing buf action)
    (app : Application) : session.deed = .ping buf ∧ session.queuedBy app action = [pong buf] := by
  cases action with
  | turn now =>
      have hdeed : session.deed = .ping buf := hping
      exact ⟨hdeed, by rw [queuedBy, hdeed]; rfl⟩
  | receive buf => exact hping.elim
  | send call => exact hping.elim
  | getTxData => exact hping.elim
  | onDataSent size => exact hping.elim
  | watchdog now => exact hping.elim

/-- Everything else that is queued is a server frame. -/
theorem isServerFrame_queuedBy (hpongs : ¬ session.Pongs action) :
    ∀ buffer ∈ session.queuedBy app action, IsServerFrame buffer := by
  cases action with
  | turn now =>
      rw [queuedBy]
      cases hdeed : session.deed with
      | refuse => exact List.forall_mem_singleton.mpr isServerFrame_close
      | message msg => exact isServerFrame_replies session.ws app.onMessage _
      | closeFrame =>
          simp only [queued]
          split
          · exact List.forall_mem_singleton.mpr isServerFrame_close
          · exact List.forall_mem_nil _
      | ping buf => exact absurd ⟨buf, hdeed⟩ hpongs
      | nothing => exact List.forall_mem_nil _
  | send call =>
      intro buffer hbuffer
      exact isServerFrame_frame (Option.mem_toList.mp hbuffer)
  | receive buf => exact List.forall_mem_nil _
  | getTxData => exact List.forall_mem_nil _
  | onDataSent size => exact List.forall_mem_nil _
  | watchdog now => exact List.forall_mem_nil _

/-- A pong is masked, as the ping was. -/
theorem pong_not_serverFrame (app : Application) (hpongs : session.Pongs action) :
    ∃ buffer ∈ session.queuedBy app action, ¬ IsServerFrame buffer := by
  obtain ⟨buf, hping⟩ := hpongs
  obtain ⟨hdeed, hqueued⟩ := hping.queuedBy_eq app
  obtain ⟨hmask, -⟩ := header_of_ping hdeed
  refine ⟨pong buf, hqueued ▸ List.mem_singleton_self _, fun hframe => ?_⟩
  have hbit := hframe.mask
  have hset : (BitVec.ofBool (WSHeader.read buf).mask ++
      (WSHeader.read buf).payloadSize).getLsbD 7 = false := hbit
  rw [WSHeader.getLsbD_ofBool_append, hmask] at hset
  cases hset

/-! ## What is put into the ring -/

/-- The ring after the buffers have been put, each of them as far as there was room. -/
def putBuffers (buffers : List (List Byte)) (ring : MPSCRingBuffer SendBuffer TX_LIST_SIZE) :
    MPSCRingBuffer SendBuffer TX_LIST_SIZE :=
  buffers.foldl (fun ring buffer => (ring.put (.ofBytes buffer)).2) ring

theorem waiting_putAll (buffers : List (List Byte)) (queue : SendQueue SendBuffer TX_LIST_SIZE) :
    (queue.putAll (buffers.map .ofBytes)).waiting = putBuffers buffers queue.waiting := by
  induction buffers generalizing queue with
  | nil => rfl
  | cons buffer buffers ih => exact ih (queue.put (.ofBytes buffer))

theorem getTxData_txList (ws : WebSocket) :
    ws.getTxData.2.txList = ws.txList ∨ ws.getTxData.2.txList = ws.txList.get.2 := by
  rw [WebSocket.getTxData]
  split
  · exact Or.inl rfl
  · cases hcurrent : ws.currentSendBuffer with
    | some current =>
        rw [if_neg (by simp)]
        simp [hcurrent]
    | none =>
        rw [if_pos rfl]
        generalize ws.txList.get = fetched
        obtain ⟨sendBuffer, txList⟩ := fetched
        cases sendBuffer with
        | none => exact Or.inr rfl
        | some sendBuffer => exact Or.inr rfl

/-- The server asks for data to send, or has sent some. -/
def Takes : Action → Prop
  | .getTxData => True
  | .onDataSent _ => True
  | _ => False

theorem step_takes (hstep : session.step app action = some next) (htakes : Takes action) :
    next.ws.txList = session.ws.txList ∨ next.ws.txList = session.ws.txList.get.2 := by
  cases action with
  | getTxData =>
      obtain rfl := Option.some.inj hstep
      exact getTxData_txList session.ws
  | onDataSent size =>
      obtain rfl := Option.some.inj hstep
      obtain ⟨current, hsent⟩ := onDataSent_frame session.ws size
      dsimp only
      rw [hsent]
      exact Or.inl rfl
  | receive buf => exact htakes.elim
  | turn now => exact htakes.elim
  | send call => exact htakes.elim
  | watchdog now => exact htakes.elim

theorem step_puts (hstep : session.step app action = some next) (hputs : ¬ Takes action) :
    next.ws.txList = putBuffers (session.queuedBy app action) session.ws.txList := by
  have hasked : action ≠ .getTxData := fun heq => hputs (heq ▸ trivial)
  have hsent : ∀ size, action ≠ .onDataSent size := fun size heq => hputs (heq ▸ trivial)
  exact (congrArg SendQueue.waiting (step_sendQueue hstep hasked hsent)).trans (waiting_putAll _ _)

/--
In every step of every run the ring is taken from, or some buffers are put into
it.  When the step reads a ping, this is one buffer, the client's masked ping with
the opcode of a pong; otherwise each is one well-formed server frame.
-/
theorem step_queues_frames (hstep : session.step app action = some next) :
    (Takes action →
      next.ws.txList = session.ws.txList ∨ next.ws.txList = session.ws.txList.get.2) ∧
    (¬ Takes action → ∃ buffers, next.ws.txList = putBuffers buffers session.ws.txList ∧
      (∀ buf, session.ReadsPing buf action →
        (WSHeader.read buf).mask = true ∧ (WSHeader.read buf).opcode = WS_PING ∧
          buffers = [pong buf]) ∧
      (¬ session.Pongs action → ∀ buffer ∈ buffers, IsServerFrame buffer)) := by
  refine ⟨step_takes hstep, fun hputs => ⟨_, step_puts hstep hputs, fun buf hping => ?_,
    isServerFrame_queuedBy⟩⟩
  obtain ⟨hdeed, hqueued⟩ := hping.queuedBy_eq app
  obtain ⟨hmask, hopcode⟩ := header_of_ping hdeed
  exact ⟨hmask, hopcode, hqueued⟩

/-- The third turn after a ping of one byte has arrived puts its echo into the ring. -/
theorem step_queues_frames_echo :
    ∃ session next,
      runAll (step WebSocket.acceptAll) ⟨helloSocket, []⟩
        [.receive [0x89#8, 0x81#8, 1#8, 2#8, 3#8, 4#8, 5#8], .turn 0, .turn 0] = some session ∧
      session.step WebSocket.acceptAll (.turn 0) = some next ∧
      next.ws.txList =
        putBuffers [[0x8A#8, 0x81#8, 1#8, 2#8, 3#8, 4#8, 5#8]] session.ws.txList := by
  have hrun : ((runAll (step WebSocket.acceptAll) ⟨helloSocket, []⟩
      [.receive [0x89#8, 0x81#8, 1#8, 2#8, 3#8, 4#8, 5#8], .turn 0, .turn 0]).any fun session =>
        (session.step WebSocket.acceptAll (.turn 0)).isSome &&
          session.deed = .ping [0x89#8, 0x81#8, 1#8, 2#8, 3#8, 4#8, 5#8]) = true := by
    decide +kernel
  obtain ⟨session, hsession, hturn⟩ := (Option.any_eq_true _ _).mp hrun
  rw [Bool.and_eq_true, decide_eq_true_eq] at hturn
  obtain ⟨hsome, hdeed⟩ := hturn
  obtain ⟨next, hnext⟩ := Option.isSome_iff_exists.mp hsome
  refine ⟨session, next, hsession, hnext, ?_⟩
  obtain ⟨-, hputs⟩ := step_queues_frames hnext
  obtain ⟨buffers, hring, hping, -⟩ := hputs id
  obtain ⟨-, -, rfl⟩ := hping _ hdeed
  exact hring

/-- Every buffer queued so far is a server frame. -/
def OnlyServerFrames (recorded : Session × List (List Byte)) : Prop :=
  ∀ buffer ∈ recorded.2, IsServerFrame buffer

/--
In a run, everything that is queued is one well-formed server frame exactly when
no step answers a ping.
-/
theorem queued_frames_iff (app : Application) (ws : WebSocket) (actions : List Action) :
    Always (record (step app) (queuedBy app)) OnlyServerFrames (⟨ws, []⟩, []) actions ↔
      Admitted (record (step app) (queuedBy app)) (fun recorded action => ¬ recorded.1.Pongs action)
        (⟨ws, []⟩, []) actions := by
  refine always_iff_admitted (fun _ hframes => hframes) ?_ ?_ (List.forall_mem_nil _) actions
  · intro recorded action after hframes hpongs hstep
    obtain ⟨next, -, rfl⟩ := Option.map_eq_some_iff.mp hstep
    exact List.forall_mem_append.mpr ⟨hframes, isServerFrame_queuedBy hpongs⟩
  · intro recorded action after _ hpongs hstep hframes
    obtain ⟨next, -, rfl⟩ := Option.map_eq_some_iff.mp hstep
    obtain ⟨buffer, hbuffer, hmasked⟩ := pong_not_serverFrame app (not_not.mp hpongs)
    exact hmasked (hframes buffer (List.mem_append_right _ hbuffer))

/-- The pong that answers a ping of one byte keeps the client's mask bit. -/
theorem ping_is_echoed_masked :
    Opened WebSocket.acceptAll helloSocket ∧
      ¬ Always (record (step WebSocket.acceptAll) (queuedBy WebSocket.acceptAll)) OnlyServerFrames
        (⟨helloSocket, []⟩, [])
        [.receive [0x89#8, 0x81#8, 1#8, 2#8, 3#8, 4#8, 5#8], .turn 0, .turn 0, .turn 0] := by
  have hlast : (runAll (record (step WebSocket.acceptAll) (queuedBy WebSocket.acceptAll))
      (⟨helloSocket, []⟩, [])
      [.receive [0x89#8, 0x81#8, 1#8, 2#8, 3#8, 4#8, 5#8], .turn 0, .turn 0, .turn 0]).map (·.2) =
      some [[0x8A#8, 0x81#8, 1#8, 2#8, 3#8, 4#8, 5#8]] := by
    decide +kernel
  obtain ⟨recorded, hrecorded, hqueued⟩ := Option.map_eq_some_iff.mp hlast
  refine ⟨helloSocket_opened, fun halways => ?_⟩
  have hframes := halways.last hrecorded
  rw [OnlyServerFrames, hqueued] at hframes
  exact absurd (hframes _ (List.mem_singleton_self _)).mask (by decide)

end Session

end DumaisLib.WebSocket
