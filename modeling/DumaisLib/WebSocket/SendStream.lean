import DumaisLib.Utils.SendQueue
import DumaisLib.WebSocket.WebSocket

/-!
# The bytes that a connection sends

The queue, the buffer being sent and the cursor in it are together a stream of
the bytes passed to `sendData`, as long as the connection is not closing.
-/

set_option linter.dupNamespace false

namespace DumaisLib.WebSocket

open DumaisLib.Utils Transmission

namespace SendBuffer

def fields : Cursor.Fields SendBuffer Byte where
  content := buffer
  size := size
  index := currentIndex
  setIndex sendBuffer index := { sendBuffer with currentIndex := index }
  content_setIndex _ _ := rfl
  size_setIndex _ _ := rfl
  index_setIndex _ _ := rfl

def cursor : Cursor SendBuffer Byte :=
  .ofFields fields

theorem cursor_advance (sendBuffer : SendBuffer) (count : Nat) :
    cursor.advance sendBuffer count =
      if sizeAdd sendBuffer.currentIndex count = sendBuffer.size then none
      else some { sendBuffer with currentIndex := sizeAdd sendBuffer.currentIndex count } := rfl

/-- Something of the buffer is left to be sent. -/
def Unsent (sendBuffer : SendBuffer) : Prop :=
  fields.Sound sendBuffer ∧ cursor.rest sendBuffer ≠ []

theorem cursor_lawful : cursor.Lawful Unsent :=
  (Cursor.ofFields_lawful fields).unsent

/-- The number on offer, which `size_t` arithmetic computes, is not 0. -/
theorem Unsent.sizeSub_ne_zero {sendBuffer : SendBuffer} (hunsent : Unsent sendBuffer) :
    sizeSub sendBuffer.size sendBuffer.currentIndex ≠ 0 := by
  obtain ⟨hsound, hne⟩ := hunsent
  have hlength : (cursor.rest sendBuffer).length = sendBuffer.size - sendBuffer.currentIndex :=
    hsound.length_rest
  have hsub : sizeSub sendBuffer.size sendBuffer.currentIndex =
      sendBuffer.size - sendBuffer.currentIndex := sizeSub_of_le hsound.index_le hsound.size_lt
  rw [hsub, ← hlength]
  exact Nat.ne_of_gt (List.length_pos_iff.mpr hne)

/-- The bytes as `sendData` queues them. -/
def ofBytes (buffer : List Byte) : SendBuffer :=
  ⟨buffer, buffer.length, 0, true⟩

theorem unsent_ofBytes {buffer : List Byte} (hne : buffer ≠ []) (hlt : buffer.length < 2 ^ 64) :
    Unsent (ofBytes buffer) :=
  ⟨⟨rfl, hlt, Nat.zero_le _⟩, hne⟩

end SendBuffer

namespace WebSocket

/-- What of a connection is concerned with sending. -/
def sendQueue (ws : WebSocket) : SendQueue SendBuffer TX_LIST_SIZE where
  current := ws.currentSendBuffer
  waiting := ws.txList

/-- The HTTP protocol or the Connected state. -/
def IsOpen (ws : WebSocket) : Prop :=
  ws.protocol = .webSocket → ws.connectionState = .connected

theorem sendData_eq (ws : WebSocket) (buffer : List Byte) :
    ws.sendData buffer =
      if (ws.txList.put (.ofBytes buffer)).1 = false then
        abortWebSocket { ws with txList := (ws.txList.put (.ofBytes buffer)).2 }
      else { ws with txList := (ws.txList.put (.ofBytes buffer)).2 } := rfl

theorem sendData_sendQueue (ws : WebSocket) (buffer : List Byte) :
    (ws.sendData buffer).sendQueue = ws.sendQueue.put (.ofBytes buffer) := by
  simp only [sendData]
  split <;> rfl

@[simp] theorem sendData_log (ws : WebSocket) (buffer : List Byte) :
    (ws.sendData buffer).log = ws.log := by
  simp only [sendData]
  split <;> rfl

@[simp] theorem sendData_protocol (ws : WebSocket) (buffer : List Byte) :
    (ws.sendData buffer).protocol = ws.protocol := by
  simp only [sendData]
  split <;> rfl

theorem onDataSent_sendQueue (ws : WebSocket) (size : Nat) :
    (ws.onDataSent size).sendQueue =
      (SendQueue.sender SendBuffer.cursor).sent ws.sendQueue size := by
  simp only [onDataSent, SendQueue.sender, sendQueue]
  cases hcurrent : ws.currentSendBuffer with
  | none => simp [hcurrent]
  | some current =>
      simp only [Option.bind_some, SendBuffer.cursor_advance]
      split <;> rfl

theorem onDataSent_isOpen {ws : WebSocket} (hopen : ws.IsOpen) (size : Nat) :
    (ws.onDataSent size).IsOpen := by
  simp only [onDataSent]
  split
  · exact hopen
  · split <;> exact hopen

/-- An open connection offers the rest of the current buffer, or of the next one. -/
theorem getTxData_of_isOpen {ws : WebSocket} (hopen : ws.IsOpen) :
    ws.getTxData.1.1 = ws.sendQueue.fetch.front SendBuffer.cursor ∧
      ws.getTxData.2.sendQueue = ws.sendQueue.fetch ∧ ws.getTxData.2.IsOpen ∧
      ∀ current, ws.sendQueue.fetch.current = some current →
        ws.getTxData.1.2 = sizeSub current.size current.currentIndex := by
  have hgate : ¬ (ws.protocol = .webSocket ∧ ws.connectionState ≠ .connected) := fun hgate =>
    hgate.2 (hopen hgate.1)
  rw [getTxData, if_neg hgate]
  cases hcurrent : ws.currentSendBuffer with
  | some current =>
      simp only [sendQueue, hcurrent, SendQueue.fetch, reduceCtorEq, if_false]
      refine ⟨rfl, trivial, hopen, fun other hother => ?_⟩
      rw [Option.some.inj hother]
  | none =>
      simp only [sendQueue, hcurrent, SendQueue.fetch, if_true]
      generalize ws.txList.get = fetched
      obtain ⟨sendBuffer, txList⟩ := fetched
      cases sendBuffer with
      | none => exact ⟨by simp [SendQueue.front], by simp, hopen, fun _ hnone => by cases hnone⟩
      | some sendBuffer =>
          refine ⟨rfl, rfl, hopen, fun other hother => ?_⟩
          rw [← Option.some.inj hother]

/-! ## Runs -/

/-- What happens to a connection apart from being asked for data. -/
inductive Input where
  | sendData (buffer : List Byte)
  | other (next : WebSocket)

/-- The bytes that the input adds to the stream. -/
def Input.bytes : Input → List Byte
  | .sendData buffer => buffer
  | .other _ => []

def sender : Sender WebSocket Input Byte where
  accept ws input :=
    match input with
    | .sendData buffer => ws.sendData buffer
    | .other next => next
  offer ws := (ws.getTxData.1.1, ws.getTxData.2)
  sent := onDataSent

/--
A buffer has content and is one of at most 999 that wait then; whatever else
happens leaves the queue alone and the connection open.
-/
def Admits (_ : List Input) (ws : WebSocket) : Input → Prop
  | .sendData buffer => buffer ≠ [] ∧ buffer.length < 2 ^ 64 ∧ ws.txList.held.length + 1 ≤ 999
  | .other next => next.IsOpen ∧ next.sendQueue = ws.sendQueue

/-- The connection is open and every buffer in it has something left to be sent. -/
def Sending (ws : WebSocket) : Prop :=
  ws.IsOpen ∧ SendQueue.Sound SendBuffer.Unsent ws.sendQueue

theorem drains : Drains sender Sending (SendQueue.front SendBuffer.cursor ∘ sendQueue)
    (SendQueue.pending SendBuffer.cursor ∘ sendQueue) := by
  refine (SendQueue.drains SendBuffer.cursor_lawful).comap
    (fun (ws : WebSocket) (hsending : ws.Sending) => hsending.2) ?_ ?_ ?_ ?_
  · exact fun ws hsending hsound => ⟨(getTxData_of_isOpen hsending.1).2.2.1, hsound⟩
  · exact fun ws size hsending hsound => ⟨onDataSent_isOpen hsending.1 size, hsound⟩
  · intro ws hsending
    obtain ⟨hoffer, hqueue, -, -⟩ := getTxData_of_isOpen hsending.1
    exact ⟨hoffer, hqueue⟩
  · exact fun ws size _ => onDataSent_sendQueue ws size

theorem sendData_isOpen {ws : WebSocket} (hopen : ws.IsOpen) {buffer : List Byte}
    (hput : (ws.txList.put (.ofBytes buffer)).1 = true) : (ws.sendData buffer).IsOpen := by
  have hstays : ¬ (ws.txList.put (.ofBytes buffer)).1 = false := by simp [hput]
  rw [sendData_eq, if_neg hstays]
  exact hopen

theorem accept_sending {accepted : List Input} {ws : WebSocket} {input : Input}
    (hsending : ws.Sending) (hadmits : Admits accepted ws input) :
    (sender.accept ws input).Sending ∧
      (sender.accept ws input).sendQueue.front SendBuffer.cursor =
        ws.sendQueue.front SendBuffer.cursor ∧
      (sender.accept ws input).sendQueue.pending SendBuffer.cursor =
        ws.sendQueue.pending SendBuffer.cursor ++ input.bytes := by
  obtain ⟨hopen, hsound⟩ := hsending
  cases input with
  | sendData buffer =>
      obtain ⟨hne, hlt, hroom⟩ := hadmits
      have hroom' : ws.sendQueue.waiting.held.length + 1 < TX_LIST_SIZE := Nat.lt_succ_of_le hroom
      obtain ⟨-, ⟨-, hput, -⟩ | ⟨hfull, -⟩⟩ :=
        SendQueue.put_cases hsound.wellFormed (.ofBytes buffer)
      · have hnext := SendQueue.put_sound hsound (SendBuffer.unsent_ofBytes hne hlt)
        obtain ⟨hbuffers, -⟩ := SendQueue.put_buffers hsound.wellFormed (.ofBytes buffer) hroom'
        simp only [sender, sendData_sendQueue]
        refine ⟨⟨sendData_isOpen hopen hput, by rwa [sendData_sendQueue]⟩, rfl, ?_⟩
        rw [SendQueue.pending, hbuffers, List.flatMap_append]
        simp [SendBuffer.cursor, SendBuffer.fields, SendBuffer.ofBytes, Cursor.ofFields,
          SendQueue.pending, Input.bytes]
      · exact absurd hfull hroom'.ne
  | other next =>
      obtain ⟨hnext, hqueue⟩ := hadmits
      simp only [sender, hqueue, Input.bytes, List.append_nil]
      exact ⟨⟨hnext, hqueue ▸ hsound⟩, trivial, trivial⟩

/-- Nothing is on offer only when nothing is pending. -/
theorem pending_of_getTxData_zero {ws : WebSocket} (hsending : ws.Sending)
    (hzero : ws.getTxData.1.2 = 0) : ws.sendQueue.pending SendBuffer.cursor = [] := by
  obtain ⟨hopen, hsound⟩ := hsending
  obtain ⟨-, -, -, hsize⟩ := getTxData_of_isOpen hopen
  obtain ⟨-, hbuffers, hempty⟩ := SendQueue.fetch_buffers hsound.wellFormed
  cases hcurrent : ws.sendQueue.fetch.current with
  | none => rw [SendQueue.pending, hempty hcurrent, List.flatMap_nil]
  | some current =>
      have hmem : current ∈ ws.sendQueue.fetch.buffers :=
        List.mem_append_left _ (Option.mem_toList.mpr hcurrent)
      have hunsent := hsound.fetch.buffers current hmem
      exact absurd ((hsize current hcurrent).symm.trans hzero) hunsent.sizeSub_ne_zero

/--
While a connection is open, what has been handed out is a prefix of the bytes
passed to `sendData`; nothing is on offer only when all of them were handed out.
-/
theorem sent_bytes_are_a_stream {closingTimeStamp : Nat} {connectionState : WSState}
    {fresh : Fin TX_LIST_SIZE → SendBuffer} {run : Run WebSocket Input Byte}
    (hreached : sender.Reached Admits (create closingTimeStamp connectionState fresh) run) :
    run.taken <+: run.accepted.flatMap Input.bytes ∧
      (run.state.getTxData.1.2 = 0 → run.taken = run.accepted.flatMap Input.bytes) := by
  have hheld := (MPSCRingBuffer.Represents.create fresh).held_eq
  have hbuffers : (create closingTimeStamp connectionState fresh).sendQueue.buffers = [] :=
    (List.nil_append _).trans hheld
  have hsending : (create closingTimeStamp connectionState fresh).Sending := by
    refine ⟨?_, MPSCRingBuffer.wellFormed_create fresh, ?_⟩
    · rintro ⟨⟩
    · rw [hbuffers]
      exact List.forall_mem_nil _
  have hpending : (SendQueue.pending SendBuffer.cursor ∘ sendQueue)
      (create closingTimeStamp connectionState fresh) = [] := by
    rw [Function.comp_apply, SendQueue.pending, hbuffers, List.flatMap_nil]
  obtain ⟨hsending, -, hstream⟩ := hreached.stream (fun _ => drains)
    (fun _ _ _ hsending hadmits => accept_sending hsending hadmits) hsending rfl hpending
  rw [← hstream]
  refine ⟨List.prefix_append _ _, fun hzero => ?_⟩
  rw [Function.comp_apply, pending_of_getTxData_zero hsending hzero, List.append_nil]

/-- Two bytes of three are taken, more is sent, and then the rest is. -/
theorem sent_bytes_are_a_stream_partial :
    ∃ run : Run WebSocket Input Byte,
      sender.Reached Admits (create 0 .closed fun _ => ⟨[], 0, 0, false⟩) run ∧
        run.accepted = [.sendData [1#8, 2#8, 3#8], .sendData [4#8]] ∧
        run.taken <+: run.accepted.flatMap Input.bytes ∧
        (run.state.getTxData.1.2 = 0 → run.taken = run.accepted.flatMap Input.bytes) := by
  have hstart : sender.Reached Admits (create 0 .closed fun _ => ⟨[], 0, 0, false⟩) _ :=
    Machine.Reaches.start
  have hreached := hstart
    |>.next (.accept (.sendData [1#8, 2#8, 3#8])) ⟨by decide, by decide, by decide⟩
    |>.next .offer trivial
    |>.next (.sent 2) ⟨by decide, by decide⟩
    |>.next (.accept (.sendData [4#8])) ⟨by decide, by decide, by decide⟩
    |>.next .offer trivial
    |>.next (.sent 1) ⟨by decide, by decide⟩
  exact ⟨_, hreached, rfl, sent_bytes_are_a_stream hreached⟩

end WebSocket

end DumaisLib.WebSocket
