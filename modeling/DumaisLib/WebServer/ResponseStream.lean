import DumaisLib.Utils.SendQueue
import DumaisLib.WebServer.HTTPResponse
import DumaisLib.WebServer.TcpClient

/-!
# The responses that a client is sent

`sendResponse` queues a response chunk by chunk, and after the last chunk a
buffer of no bytes.  That buffer is never given up: a connection carries one
response, and no more of it than the queue has room for.
-/

namespace DumaisLib.WebServer

open DumaisLib.Utils Transmission

def BUFSIZE : Nat := 1024

/-- The loop in `sendResponse`; it ends with the first chunk of no bytes, which is sent too. -/
def sendChunks (response : HTTPResponse) (client : TcpClient) (index : Nat) : TcpClient :=
  let chunk := response.getResponseChunk index BUFSIZE
  let client := client.sendData chunk.1 true
  if chunk.1 = [] then client else sendChunks chunk.2 client (index + chunk.1.length)
termination_by response.prepared.mContent.length - index
decreasing_by
  rename_i hne
  have hpos : 0 < (response.getResponseChunk index BUFSIZE).1.length := List.length_pos_iff.mpr hne
  have hlength := response.length_getResponseChunk index BUFSIZE
  rw [response.prepared_getResponseChunk index BUFSIZE]
  omega

def sendResponse (response : Option HTTPResponse) (client : TcpClient) : TcpClient :=
  match response with
  | none => client
  | some response => sendChunks response client 0

/-! ## What a response puts into the queue -/

namespace HTTPResponse

/-- The header and the content. -/
def message (response : HTTPResponse) : Text :=
  (response.buildHeader response.mContent.length).2.mHeader ++ response.mContent

theorem prepared_mContent {response : HTTPResponse} (hnew : response.mHeaderBuilt = false) :
    response.prepared.mContent = response.message := by
  simp [prepared, getResponseChunk, message, buildHeader, hnew]

theorem message_ne_nil {response : HTTPResponse} (hnew : response.mHeaderBuilt = false) :
    response.message ≠ [] := by
  simp [message, buildHeader, hnew]

end HTTPResponse

/-- Chunks of full size, apart from the last one, in order. -/
structure Chunked (content : Text) (chunks : List Text) : Prop where
  flatten_eq : chunks.flatten = content
  ne_nil : ∀ chunk ∈ chunks, chunk ≠ []
  length_le : ∀ chunk ∈ chunks, chunk.length ≤ BUFSIZE
  count : chunks.length = (content.length + (BUFSIZE - 1)) / BUFSIZE

/-- `sendResponse` queues the chunks of the header and the content, and an empty one. -/
theorem sendChunks_eq (response : HTTPResponse) (client : TcpClient) (index : Nat) :
    ∃ chunks, Chunked (response.prepared.mContent.drop index) chunks ∧
      sendChunks response client index =
        (chunks ++ [[]]).foldl (fun client chunk => client.sendData chunk true) client := by
  induction hleft : response.prepared.mContent.length - index using Nat.strongRecOn
    generalizing response client index with
  | ind left ih =>
      unfold sendChunks
      simp only [HTTPResponse.getResponseChunk_eq]
      have hlength : (Text.substr response.prepared.mContent index BUFSIZE).length =
          min BUFSIZE left := by
        rw [← hleft]
        exact response.length_getResponseChunk index BUFSIZE
      obtain ⟨chunk, hchunk⟩ : ∃ chunk, Text.substr response.prepared.mContent index BUFSIZE = chunk :=
        ⟨_, rfl⟩
      simp only [hchunk] at hlength ⊢
      have hBUFSIZE : BUFSIZE = 1024 := rfl
      by_cases hend : chunk = []
      · rw [if_pos hend, hend]
        have hnone : response.prepared.mContent.drop index = [] := by
          apply List.drop_eq_nil_of_le
          rw [hend, List.length_nil] at hlength
          omega
        refine ⟨[], ⟨hnone.symm, List.forall_mem_nil _, List.forall_mem_nil _, ?_⟩, rfl⟩
        rw [hnone]
        rfl
      · rw [if_neg hend]
        have hpos := List.length_pos_iff.mpr hend
        obtain ⟨chunks, hchunked, heq⟩ := ih
          (response.prepared.mContent.length - (index + chunk.length)) (by omega)
          response.prepared (client.sendData chunk true) (index + chunk.length)
          (by rw [HTTPResponse.prepared_prepared])
        have hrest : response.prepared.mContent.drop (index + chunk.length) =
            (response.prepared.mContent.drop index).drop BUFSIZE := by
          rw [List.drop_drop]
          rcases Nat.le_total BUFSIZE left with hfull | hlast
          · rw [hlength, Nat.min_eq_left hfull]
          · rw [List.drop_eq_nil_of_le (by omega), List.drop_eq_nil_of_le (by omega)]
        rw [HTTPResponse.prepared_prepared, hrest] at hchunked
        refine ⟨chunk :: chunks, ⟨?_, ?_, ?_, ?_⟩, heq⟩
        · rw [List.flatten_cons, hchunked.flatten_eq, ← hchunk]
          exact List.take_append_drop _ _
        · exact List.forall_mem_cons.mpr ⟨hend, hchunked.ne_nil⟩
        · exact List.forall_mem_cons.mpr ⟨by omega, hchunked.length_le⟩
        · rw [List.length_cons, hchunked.count, List.length_drop, List.length_drop, hleft]
          rw [hBUFSIZE] at hlength ⊢
          omega

/-! ## The queue of a client -/

namespace SendBuffer

def fields : Cursor.Fields SendBuffer Char where
  content := buffer
  size := size
  index := currentIndex
  setIndex sendBuffer index := { sendBuffer with currentIndex := index }
  content_setIndex _ _ := rfl
  size_setIndex _ _ := rfl
  index_setIndex _ _ := rfl

def cursor : Cursor SendBuffer Char :=
  .ofFields fields

theorem cursor_advance (sendBuffer : SendBuffer) (count : Nat) :
    cursor.advance sendBuffer count =
      if sizeAdd sendBuffer.currentIndex count = sendBuffer.size then none
      else some { sendBuffer with currentIndex := sizeAdd sendBuffer.currentIndex count } := rfl

/-- A chunk as it is queued. -/
def ofChunk (chunk : Text) : SendBuffer :=
  ⟨chunk, chunk.length, 0, true⟩

theorem sound_ofChunk {chunk : Text} (hle : chunk.length ≤ BUFSIZE) :
    fields.Sound (ofChunk chunk) :=
  ⟨rfl, hle.trans_lt (by decide), Nat.zero_le _⟩

@[simp] theorem rest_ofChunk (chunk : Text) : cursor.rest (ofChunk chunk) = chunk := rfl

/-- The number on offer, as `size_t` arithmetic computes it. -/
theorem size_sub {sendBuffer : SendBuffer} (hsound : fields.Sound sendBuffer) :
    sizeSub sendBuffer.size sendBuffer.currentIndex = (cursor.rest sendBuffer).length :=
  (sizeSub_of_le hsound.index_le hsound.size_lt).trans hsound.length_rest.symm

end SendBuffer

namespace TcpClient

/-- What of a client is concerned with sending. -/
def sendQueue (client : TcpClient) : SendQueue SendBuffer MAX_INTERNAL_TX_COUNT where
  current := client.currentSendBuffer
  waiting := client.txList

theorem onDataSent_sendQueue (client : TcpClient) (size : Nat) :
    (client.onDataSent size).sendQueue =
      (SendQueue.sender SendBuffer.cursor).sent client.sendQueue size := by
  simp only [onDataSent, SendQueue.sender, sendQueue]
  cases hcurrent : client.currentSendBuffer with
  | none => simp [hcurrent]
  | some current =>
      simp only [Option.bind_some, SendBuffer.cursor_advance]
      split <;> rfl

theorem getTxData_eq (client : TcpClient) :
    client.getTxData.1.1 = client.sendQueue.fetch.front SendBuffer.cursor ∧
      client.getTxData.2.sendQueue = client.sendQueue.fetch ∧
      (SendQueue.Sound SendBuffer.fields.Sound client.sendQueue →
        client.getTxData.1.2 = client.getTxData.1.1.length) := by
  have hfront : client.getTxData.1.1 = client.sendQueue.fetch.front SendBuffer.cursor ∧
      client.getTxData.2.sendQueue = client.sendQueue.fetch ∧
      client.getTxData.1.2 = (client.sendQueue.fetch.current.map fun current =>
        sizeSub current.size current.currentIndex).getD 0 := by
    rw [getTxData]
    cases hcurrent : client.currentSendBuffer with
    | some current =>
        simp only [sendQueue, hcurrent, SendQueue.fetch, reduceCtorEq, if_false]
        exact ⟨rfl, trivial, rfl⟩
    | none =>
        simp only [sendQueue, hcurrent, SendQueue.fetch, if_true]
        generalize client.txList.get = fetched
        obtain ⟨sendBuffer, txList⟩ := fetched
        cases sendBuffer with
        | none => exact ⟨by simp [SendQueue.front], by simp, by simp⟩
        | some sendBuffer => exact ⟨rfl, rfl, rfl⟩
  obtain ⟨hbytes, hqueue, hsize⟩ := hfront
  refine ⟨hbytes, hqueue, fun hsound => ?_⟩
  rw [hsize, hbytes, SendQueue.front]
  cases hcurrent : client.sendQueue.fetch.current with
  | none => rfl
  | some current =>
      have hmem : current ∈ client.sendQueue.fetch.buffers :=
        List.mem_append_left _ (Option.mem_toList.mpr hcurrent)
      exact SendBuffer.size_sub (hsound.fetch.buffers current hmem)

theorem foldl_sendData_sendQueue (client : TcpClient) (chunks : List Text) :
    (chunks.foldl (fun client chunk => client.sendData chunk true) client).sendQueue =
      client.sendQueue.putAll (chunks.map SendBuffer.ofChunk) := by
  induction chunks generalizing client with
  | nil => rfl
  | cons chunk chunks ih => exact ih (client.sendData chunk true)

end TcpClient

/-- A response as it is built; no chunk of it has been asked for. -/
def NewResponse : Type :=
  { response : HTTPResponse // response.mHeaderBuilt = false }

namespace NewResponse

def message (response : NewResponse) : Text :=
  response.val.message

theorem message_ne_nil (response : NewResponse) : response.message ≠ [] :=
  HTTPResponse.message_ne_nil response.property

/-- The chunks of a response and the buffer of no bytes behind them. -/
theorem sendResponse_sendQueue (response : NewResponse) (client : TcpClient) :
    ∃ chunks, Chunked response.message chunks ∧
      (sendResponse (some response.val) client).sendQueue =
        client.sendQueue.putAll ((chunks ++ [[]]).map SendBuffer.ofChunk) := by
  obtain ⟨chunks, hchunked, heq⟩ := sendChunks_eq response.val client 0
  rw [List.drop_zero, HTTPResponse.prepared_mContent response.property] at hchunked
  exact ⟨chunks, hchunked, by rw [sendResponse, heq, TcpClient.foldl_sendData_sendQueue]⟩

end NewResponse

/-! ## Runs -/

namespace ResponseStream

/-- What happens on a connection: responses are sent, and their bytes go out in pieces. -/
def sender : Sender TcpClient NewResponse Char where
  accept client response := sendResponse (some response.val) client
  offer client := (client.getTxData.1.1, client.getTxData.2)
  sent := TcpClient.onDataSent

/-- The responses come in the given order. -/
def InOrder (responses accepted : List NewResponse) (_ : TcpClient) (response : NewResponse) :
    Prop :=
  accepted ++ [response] <+: responses

/-- Whenever nothing is on offer, exactly the responses so far have been handed out. -/
def Delivers (responses : List NewResponse) : Prop :=
  ∀ fresh run, sender.Reached (InOrder responses) (.create fresh) run →
    run.state.getTxData.1.2 = 0 → run.taken = run.accepted.flatMap NewResponse.message

/-- The chunks of the response and the buffer behind them fit into an empty queue. -/
def Fits (response : NewResponse) : Prop :=
  response.message.length ≤ BUFSIZE * (MAX_INTERNAL_TX_COUNT - 2)

/-- The queue of the client is in order. -/
def Sound (client : TcpClient) : Prop :=
  SendQueue.Sound SendBuffer.fields.Sound client.sendQueue

abbrev pending (client : TcpClient) : Text :=
  client.sendQueue.pending SendBuffer.cursor

abbrev front (client : TcpClient) : Text :=
  client.sendQueue.front SendBuffer.cursor

theorem sound_drains : Drains sender Sound front pending := by
  refine (SendQueue.drains (Cursor.ofFields_lawful SendBuffer.fields)).comap
    (fun (client : TcpClient) (hsound : Sound client) => hsound) ?_ ?_ ?_ ?_
  · exact fun _ _ hnext => hnext
  · exact fun _ _ _ hnext => hnext
  · exact fun client _ => ⟨client.getTxData_eq.1, client.getTxData_eq.2.1⟩
  · exact fun client size _ => client.onDataSent_sendQueue size

theorem create_sound (fresh : Fin MAX_INTERNAL_TX_COUNT → SendBuffer) :
    Sound (.create fresh) ∧ (TcpClient.create fresh).sendQueue.buffers = [] := by
  have hbuffers : (TcpClient.create fresh).sendQueue.buffers = [] :=
    (List.nil_append _).trans (MPSCRingBuffer.Represents.create fresh).held_eq
  refine ⟨⟨MPSCRingBuffer.wellFormed_create fresh, ?_⟩, hbuffers⟩
  rw [hbuffers]
  exact List.forall_mem_nil _

/-- With one response at most, the queue is empty before and blocked after it. -/
def Holding (accepted : List NewResponse) (client : TcpClient) : Prop :=
  Sound client ∧ (accepted = [] → client.sendQueue.buffers = []) ∧
    (accepted ≠ [] → SendQueue.Blocked SendBuffer.cursor client.sendQueue)

theorem holding_drains (accepted : List NewResponse) :
    Drains sender (Holding accepted) front pending where
  offer client hholding := by
    obtain ⟨hsound, hempty, hblocked⟩ := hholding
    obtain ⟨hnext, hfront, hpending⟩ := sound_drains.offer client hsound
    have hbuffers : (sender.offer client).2.sendQueue.buffers = client.sendQueue.buffers := by
      obtain ⟨-, hfetch, -⟩ := SendQueue.fetch_buffers hsound.wellFormed
      rw [← hfetch]
      exact congrArg SendQueue.buffers client.getTxData_eq.2.1
    refine ⟨⟨hnext, ?_, ?_⟩, hfront, hpending⟩
    · exact fun hnone => hbuffers.trans (hempty hnone)
    · intro hsome
      rw [SendQueue.Blocked, hbuffers]
      exact hblocked hsome
  sent client count hholding hpos hle := by
    obtain ⟨hsound, hempty, hblocked⟩ := hholding
    obtain ⟨hnext, hfront, hpending⟩ := sound_drains.sent client count hsound hpos hle
    refine ⟨⟨hnext, ?_, ?_⟩, hfront, hpending⟩
    · intro hnone
      have hlength := (sound_drains.front_begins client hsound).length_le
      have hzero : (pending client).length = 0 := by
        rw [pending, SendQueue.pending, hempty hnone]
        rfl
      omega
    · intro hsome
      change SendQueue.Blocked SendBuffer.cursor (client.onDataSent count).sendQueue
      rw [TcpClient.onDataSent_sendQueue]
      exact (hblocked hsome).sent (Cursor.ofFields_lawful SendBuffer.fields) hsound hpos hle
  front_begins client hholding := sound_drains.front_begins client hholding.1

/-- A response leaves the queue in order, and the current buffer alone. -/
theorem accept_sound {client : TcpClient} (hsound : Sound client) (response : NewResponse) :
    Sound (sender.accept client response) ∧
      (sender.accept client response).sendQueue.current = client.sendQueue.current := by
  obtain ⟨chunks, hchunked, hqueue⟩ := response.sendResponse_sendQueue client
  have hqueue' : (sender.accept client response).sendQueue = _ := hqueue
  have hchunks : ∀ chunk ∈ chunks ++ [[]], chunk.length ≤ BUFSIZE :=
    List.forall_mem_append.mpr ⟨hchunked.length_le, by simp⟩
  rw [Sound, hqueue', SendQueue.putAll_current]
  exact ⟨SendQueue.putAll_sound hsound (List.forall_mem_map.mpr fun chunk hchunk =>
    SendBuffer.sound_ofChunk (hchunks chunk hchunk)), rfl⟩

/-- A response that fits lines up in the empty queue. -/
theorem accept_holding {response : NewResponse} (hfits : Fits response) {client : TcpClient}
    (hholding : Holding [] client) :
    Holding [response] (sender.accept client response) ∧
      front (sender.accept client response) = front client ∧
      pending (sender.accept client response) = pending client ++ response.message := by
  obtain ⟨hsound, hempty, -⟩ := hholding
  obtain ⟨chunks, hchunked, hqueue⟩ := response.sendResponse_sendQueue client
  obtain ⟨hcurrent, hheld⟩ := List.append_eq_nil_iff.mp (hempty rfl)
  have hqueue' : (sender.accept client response).sendQueue = _ := hqueue
  have hroom : client.sendQueue.waiting.held.length +
      ((chunks ++ [[]]).map SendBuffer.ofChunk).length < MAX_INTERNAL_TX_COUNT := by
    have hcount := hchunked.count
    have hlength : response.message.length ≤ 1024 * (4000 - 2) := hfits
    rw [hheld, List.length_map, List.length_append, hcount]
    change 0 + ((response.message.length + (1024 - 1)) / 1024 + 1) < 4000
    omega
  obtain ⟨hbuffers, -⟩ := SendQueue.putAll_buffers hsound.wellFormed hroom
  rw [hempty rfl, List.nil_append] at hbuffers
  obtain ⟨hsound', hcurrent'⟩ := accept_sound hsound response
  refine ⟨⟨hsound', ?_, ?_⟩, ?_, ?_⟩
  · exact fun hnone => absurd hnone (List.cons_ne_nil _ _)
  · intro _
    rw [hqueue']
    refine ⟨chunks.map SendBuffer.ofChunk, SendBuffer.ofChunk [], ?_, rfl, ?_⟩
    · rw [hbuffers, List.map_append]
      rfl
    · exact List.forall_mem_map.mpr hchunked.ne_nil
  · rw [front, SendQueue.front, hcurrent']
    rfl
  · rw [pending, hqueue', SendQueue.pending, hbuffers, pending, SendQueue.pending, hempty rfl]
    rw [List.flatMap_map]
    simp [List.flatMap, hchunked.flatten_eq]

/-- With one response at most that fits, nothing is lost. -/
theorem stream_of_fits {responses : List NewResponse} (hone : responses.length ≤ 1)
    (hfits : ∀ response ∈ responses, Fits response)
    {fresh : Fin MAX_INTERNAL_TX_COUNT → SendBuffer} {run : Run TcpClient NewResponse Char}
    (hreached : sender.Reached (InOrder responses) (.create fresh) run) :
    Holding run.accepted run.state ∧ run.offered = front run.state ∧
      run.taken ++ pending run.state = run.accepted.flatMap NewResponse.message := by
  obtain ⟨hsound, hbuffers⟩ := create_sound fresh
  refine hreached.stream holding_drains ?_ ⟨hsound, fun _ => hbuffers, fun hne => absurd rfl hne⟩
    rfl ?_
  · intro accepted client response hholding hadmits
    have hlength := hadmits.length_le
    rw [List.length_append, List.length_singleton] at hlength
    obtain rfl := List.eq_nil_of_length_eq_zero (show accepted.length = 0 by omega)
    have hmem : response ∈ responses := hadmits.subset (List.mem_singleton_self response)
    exact accept_holding (hfits response hmem) hholding
  · rw [pending, SendQueue.pending, hbuffers, List.flatMap_nil]

theorem getTxData_zero_iff {client : TcpClient} (hsound : Sound client) :
    client.getTxData.1.2 = 0 ↔ client.sendQueue.fetch.front SendBuffer.cursor = [] := by
  obtain ⟨hbytes, -, hsize⟩ := client.getTxData_eq
  rw [hsize hsound, hbytes, List.length_eq_zero_iff]

/-- A response that does not fit leaves less than all of it in the queue. -/
theorem pending_of_overflow {response : NewResponse} (hlong : ¬ Fits response)
    (fresh : Fin MAX_INTERNAL_TX_COUNT → SendBuffer) :
    Sound (sender.accept (.create fresh) response) ∧
      (pending (sender.accept (.create fresh) response)).length < response.message.length := by
  obtain ⟨hsound, hbuffers⟩ := create_sound fresh
  obtain ⟨chunks, hchunked, hqueue⟩ := response.sendResponse_sendQueue (.create fresh)
  have hqueue' : (sender.accept (.create fresh) response).sendQueue = _ := hqueue
  have hcount : 3999 ≤ chunks.length := by
    have hlength : ¬ response.message.length ≤ 1024 * (4000 - 2) := hlong
    rw [hchunked.count]
    change 3999 ≤ (response.message.length + (1024 - 1)) / 1024
    omega
  refine ⟨(accept_sound hsound response).1, ?_⟩
  · obtain ⟨last, later, hsplit⟩ := List.exists_cons_of_ne_nil
      (List.append_ne_nil_of_right_ne_nil (chunks.drop 3999) (List.cons_ne_nil ([] : Text) []))
    have hall : chunks ++ [[]] = chunks.take 3999 ++ last :: later := by
      rw [← hsplit, ← List.append_assoc, List.take_append_drop]
    have hmessage : response.message.length =
        (chunks.take 3999).flatten.length + (last.length + later.flatten.length) := by
      rw [← List.length_append, ← List.length_append, ← List.flatten_cons, ← List.flatten_append,
        ← hall, List.flatten_append, hchunked.flatten_eq]
      simp
    have hfirst : 0 < (chunks.take 3999).flatten.length := by
      obtain ⟨chunk, rest, htake⟩ := List.exists_cons_of_ne_nil
        (List.ne_nil_of_length_pos (show 0 < (chunks.take 3999).length by
          rw [List.length_take]; omega))
      have hmem : chunk ∈ chunks.take 3999 := htake ▸ List.mem_cons_self
      have hpos := List.length_pos_iff.mpr (hchunked.ne_nil chunk (List.mem_of_mem_take hmem))
      rw [htake, List.flatten_cons, List.length_append]
      omega
    have hsize : ((chunks.take 3999).map SendBuffer.ofChunk).length + 1 =
        MAX_INTERNAL_TX_COUNT := by
      rw [List.length_map, List.length_take, Nat.min_eq_left hcount]
      rfl
    have hlater : (later.map SendBuffer.ofChunk).flatMap SendBuffer.cursor.rest =
        later.flatten := by
      rw [List.flatMap_map]
      simp [List.flatMap]
    have hle := SendQueue.length_pending_overflow_le hsound.wellFormed hbuffers SendBuffer.cursor
      hsize (SendBuffer.ofChunk last) (later.map SendBuffer.ofChunk)
    rw [pending, hqueue', hall, List.map_append, List.map_cons]
    rw [hlater] at hle
    omega

/-- After a response that fits, an environment that takes everything blocks the next one. -/
theorem second_response_stalls {first second : NewResponse} {rest : List NewResponse}
    (hfits : Fits first) (hdelivers : Delivers (first :: second :: rest)) : False := by
  let fresh : Fin MAX_INTERNAL_TX_COUNT → SendBuffer := fun _ => ⟨[], 0, 0, false⟩
  obtain ⟨hsound, hbuffers⟩ := create_sound fresh
  have hempty : Holding [] (.create fresh) :=
    ⟨hsound, fun _ => hbuffers, fun hne => absurd rfl hne⟩
  obtain ⟨hholding, -, hpending⟩ := accept_holding hfits hempty
  have hstart : sender.Reached (InOrder (first :: second :: rest)) (.create fresh) _ :=
    Machine.Reaches.start
  have hsent := hstart.next (.accept first) ⟨second :: rest, rfl⟩
  obtain ⟨last, hlast, haccepted, ⟨hsound', -, hblocked⟩, hidle, htaken⟩ :=
    (holding_drains [first]).exhausts hsent hholding
  have haccepted' : last.accepted = [first] := haccepted
  have hnone : last.state.sendQueue.fetch.front SendBuffer.cursor = [] :=
    last.state.getTxData_eq.1.symm.trans hidle
  obtain ⟨hdone, buffer, hcurrent, hrest⟩ :=
    (hblocked (List.cons_ne_nil _ _)).idle hsound'.wellFormed hnone
  have hfirst : last.taken = first.message := by
    have hzero : pending last.state = [] := hdone
    have hnothing : pending (TcpClient.create fresh) = [] := by
      rw [pending, SendQueue.pending, hbuffers, List.flatMap_nil]
    rw [hzero, List.append_nil] at htaken
    refine htaken.trans ?_
    exact hpending.trans (by rw [hnothing, List.nil_append])
  -- The buffer of no bytes is the current one when the second response is sent.
  have hoffered := hlast.next .offer trivial
  have hboth := hoffered.next (.accept second)
    (show (last.accepted ++ [second]) <+: _ from haccepted' ▸ ⟨rest, rfl⟩)
  obtain ⟨hsound'', hstuck⟩ := accept_sound (sound_drains.offer _ hsound').1 second
  have hcurrent' : (sender.accept (sender.offer last.state).2 second).sendQueue.current =
      some buffer := by
    rw [hstuck, ← hcurrent]
    exact congrArg SendQueue.current last.state.getTxData_eq.2.1
  have hzero : (sender.accept (sender.offer last.state).2 second).getTxData.1.2 = 0 := by
    rw [getTxData_zero_iff hsound'', SendQueue.fetch, hcurrent', SendQueue.front, hcurrent']
    exact hrest
  have hall : last.taken = (last.accepted ++ [second]).flatMap NewResponse.message :=
    hdelivers fresh _ hboth hzero
  rw [hfirst, haccepted', List.flatMap_append, List.flatMap_singleton,
    List.flatMap_singleton] at hall
  exact second.message_ne_nil (List.self_eq_append_right.mp hall)

/-- What does not fit is not delivered. -/
theorem long_response_is_lost {response : NewResponse} {rest : List NewResponse}
    (hlong : ¬ Fits response) (hdelivers : Delivers (response :: rest)) : False := by
  let fresh : Fin MAX_INTERNAL_TX_COUNT → SendBuffer := fun _ => ⟨[], 0, 0, false⟩
  obtain ⟨hsound, hlost⟩ := pending_of_overflow hlong fresh
  have hstart : sender.Reached (InOrder (response :: rest)) (.create fresh) _ :=
    Machine.Reaches.start
  have hsent := hstart.next (.accept response) ⟨rest, rfl⟩
  obtain ⟨last, hlast, haccepted, hsound', hidle, htaken⟩ := sound_drains.exhausts hsent hsound
  have hzero : last.state.getTxData.1.2 = 0 := by
    rw [getTxData_zero_iff hsound']
    exact last.state.getTxData_eq.1.symm.trans hidle
  have hall := hdelivers fresh last hlast hzero
  have haccepted' : last.accepted = [response] := haccepted
  rw [haccepted', List.flatMap_singleton] at hall
  have hlength := congrArg List.length htaken
  rw [List.length_append, hall] at hlength
  have hpending : ([] ++ pending (sender.accept (.create fresh) response)).length <
      response.message.length := hlost
  exact absurd hlength (Nat.ne_of_gt (hpending.trans_le (Nat.le_add_right _ _)))

/--
Every list of responses and every pattern of partial writes: nothing is lost,
duplicated or left in the queue exactly when at most one response is sent, and
it fits into the queue.
-/
theorem responses_delivered_iff (responses : List NewResponse) :
    Delivers responses ↔
      responses.length ≤ 1 ∧ ∀ response ∈ responses, Fits response := by
  constructor
  · intro hdelivers
    cases responses with
    | nil => exact ⟨Nat.zero_le _, List.forall_mem_nil _⟩
    | cons first rest =>
        by_cases hfits : Fits first
        · cases rest with
          | nil => exact ⟨le_rfl, List.forall_mem_singleton.mpr hfits⟩
          | cons second rest => exact (second_response_stalls hfits hdelivers).elim
        · exact (long_response_is_lost hfits hdelivers).elim
  · rintro ⟨hone, hfits⟩ fresh run hreached hzero
    obtain ⟨⟨hsound, hempty, hblocked⟩, -, hstream⟩ := stream_of_fits hone hfits hreached
    have hidle := (getTxData_zero_iff hsound).mp hzero
    have hdone : pending run.state = [] := by
      by_cases hnone : run.accepted = []
      · rw [pending, SendQueue.pending, hempty hnone, List.flatMap_nil]
      · exact ((hblocked hnone).idle hsound.wellFormed hidle).1
    rw [← hstream, hdone, List.append_nil]

/-- A short response. -/
def helloResponse : NewResponse :=
  ⟨.buildBufferedResponse .OK "hello".toList "text/plain".toList [], rfl⟩

/-- The second of two short responses is never handed out. -/
theorem second_hello_stalls : ¬ Delivers [helloResponse, helloResponse] :=
  second_response_stalls (show helloResponse.message.length ≤ _ by decide +kernel)

end ResponseStream

end DumaisLib.WebServer
