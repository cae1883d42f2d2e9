import DumaisLib.WebServer.TcpClient

/-!
# What framing does with the bytes it receives

As long as the content lengths that the framing reads fit an `int`, each call
takes at least one and at most all of the bytes it is given, and the delivered
messages with the held bytes are exactly the bytes received.
-/

namespace DumaisLib.WebServer

open Machine Regex

namespace HTTPFramingStrategy

/-! ## The content length of a growing message -/

/-- The value that the capturing pieces take from what follows the name. -/
def lengthValue (tail : Text) : Text :=
  ((tail.drop contentLengthName.length).dropWhile (· = ' ')).takeWhile Text.dot

theorem contentLengthText_eq (message : Text) :
    contentLengthText message = (firstFit contentLengthName message).map lengthValue := by
  have hvalue (items : Text) : matchHere [.many Text.dot true] items =
      some ⟨[items.takeWhile Text.dot], items.dropWhile Text.dot⟩ := by
    rw [matchHere_many (show matchHere [] _ = some ⟨[], _⟩ from rfl)]
    rfl
  have hmatch (items : Text) :
      matchHere [.many (· = ' ') false, .many Text.dot true] items =
        some ⟨[(items.dropWhile (· = ' ')).takeWhile Text.dot],
          (items.dropWhile (· = ' ')).dropWhile Text.dot⟩ := by
    rw [matchHere_many (hvalue _)]
    rfl
  rw [contentLengthText, contentLengthPattern,
    search_ones fun items => by rw [hmatch]; rfl]
  cases firstFit contentLengthName message with
  | none => rfl
  | some tail => rw [Option.bind_some, hmatch]; rfl

/-- A captured value only grows with the message. -/
theorem contentLengthText_append {message text : Text} (more : Text)
    (hcaptured : contentLengthText message = some text) :
    ∃ rest, contentLengthText (message ++ more) = some (text ++ rest) := by
  rw [contentLengthText_eq] at hcaptured ⊢
  obtain ⟨tail, hfirst, rfl⟩ := Option.map_eq_some_iff.mp hcaptured
  have hlength := length_le_of_fits (firstFit_suffix hfirst).2
  rw [firstFit_append more hfirst, Option.map_some]
  unfold lengthValue
  rw [List.drop_append_of_le_length hlength]
  rcases dropWhile_append_prefix (fun char => decide (char = ' '))
    (tail.drop contentLengthName.length) more with hnil | hdrop
  · exact ⟨_, by rw [hnil]; rfl⟩
  · obtain ⟨rest, hrest⟩ := takeWhile_append_prefix Text.dot
      ((tail.drop contentLengthName.length).dropWhile (· = ' ')) more
    exact ⟨rest, by rw [hdrop, hrest]⟩

/-- A captured length is a number that an `int` can hold, and not negative. -/
def InRange (message : Text) : Prop :=
  ∀ text, contentLengthText message = some text →
    0 ≤ Text.number text ∧ Text.number text < 2 ^ 31

theorem atoi_of_inRange {text : Text} (hpos : 0 ≤ Text.number text)
    (hlt : Text.number text < 2 ^ 31) : Text.atoi text = Text.number text := by
  unfold Text.atoi
  rw [min_eq_left (by omega), max_eq_right (by omega)]
  exact Int.bmod_eq_of_le (by omega) (by omega)

theorem contentLength_of_inRange {message : Text} (hrange : InRange message) :
    (contentLengthText message = none ∧ contentLength message = 0) ∨
      ∃ text, contentLengthText message = some text ∧
        (contentLength message : Int) = Text.number text := by
  unfold contentLength
  cases hcaptured : contentLengthText message with
  | none => exact Or.inl ⟨rfl, rfl⟩
  | some text =>
      obtain ⟨hpos, hlt⟩ := hrange text hcaptured
      refine Or.inr ⟨text, rfl, ?_⟩
      simp only [atoi_of_inRange hpos hlt]
      omega

theorem contentLength_mono {message more : Text} (hrange : InRange message)
    (hrange' : InRange (message ++ more)) :
    contentLength message ≤ contentLength (message ++ more) := by
  rcases contentLength_of_inRange hrange with ⟨_, hzero⟩ | ⟨text, hcaptured, hvalue⟩
  · rw [hzero]
    exact Nat.zero_le _
  · obtain ⟨rest, hcaptured'⟩ := contentLengthText_append more hcaptured
    have hpos := (hrange text hcaptured).1
    have hpos' := (hrange' _ hcaptured').1
    have hmono := Text.number_mono hpos hpos'
    rcases contentLength_of_inRange hrange' with ⟨hnone, _⟩ | ⟨text', hsome, hvalue'⟩
    · cases hnone.symm.trans hcaptured'
    · obtain rfl := Option.some.inj (hsome.symm.trans hcaptured')
      omega

/-! ## The end of the header in a growing message -/

/-- A header end that shows only after more bytes ends after the old ones. -/
theorem find_new {held buffer : Text} {eoh : Nat}
    (hnone : Search.find END_OF_HEADER (Text.cstr held) 0 = none)
    (hsome : Search.find END_OF_HEADER (Text.cstr (held ++ buffer)) 0 = some eoh) :
    held.length < eoh + 4 := by
  by_contra hle
  rw [Text.cstr_append] at hsome
  split at hsome
  · cases hnone.symm.trans hsome
  · rename_i hnul
    have hfits : eoh + END_OF_HEADER.length ≤ held.length := by
      change eoh + 4 ≤ held.length
      omega
    rw [Text.cstr_of_not_mem hnul, Search.find_of_append hsome hfits] at hnone
    cases hnone

theorem toInt_of_lt {size : Nat} (hlt : size < 2 ^ 31) : toInt size = size := by
  unfold toInt
  exact Int.bmod_eq_of_le (by omega) (by omega)

/-- What holds of a message under construction between two calls. -/
structure Waiting (info : FullMessageInfo) : Prop where
  incomplete : info.complete = false
  size_eq : info.size = info.held.length
  missing : ∀ eoh, Search.find END_OF_HEADER (Text.cstr info.held) 0 = some eoh →
    InRange (Text.cstr info.held) ∧
      info.held.length < eoh + 4 + contentLength (Text.cstr info.held)

theorem waiting_empty : Waiting .empty :=
  ⟨rfl, rfl, fun eoh hfound => nomatch (show none = some eoh from hfound)⟩

/-- The message that a call builds extends the one of the call before. -/
theorem lt_messageEnd {info : FullMessageInfo} (waiting : Waiting info) {buffer : Text} {eoh : Nat}
    (hrange : InRange (Text.cstr (info.held ++ buffer)))
    (hfound : Search.find END_OF_HEADER (Text.cstr (info.held ++ buffer)) 0 = some eoh) :
    info.held.length < eoh + 4 + contentLength (Text.cstr (info.held ++ buffer)) := by
  cases hold : Search.find END_OF_HEADER (Text.cstr info.held) 0 with
  | none =>
      have hlt := find_new hold hfound
      omega
  | some eoh' =>
      obtain ⟨hrange', hlt⟩ := waiting.missing eoh' hold
      obtain ⟨more, hmore⟩ := Text.cstr_prefix info.held buffer
      have hsame : Search.find END_OF_HEADER (Text.cstr info.held ++ more) 0 = some eoh' :=
        Search.find_append hold
      rw [hmore, hfound] at hsame
      obtain rfl := Option.some.inj hsame
      rw [← hmore] at hrange ⊢
      have hmono := contentLength_mono hrange' hrange
      omega

/-- The message under construction after a call that took all of its bytes. -/
def extended (info : FullMessageInfo) (buffer : Text) : FullMessageInfo :=
  { info with size := info.size + buffer.length, buffer := some (info.held ++ buffer) }

theorem held_extended {info : FullMessageInfo} (hsize : info.size = info.held.length)
    (buffer : Text) : (extended info buffer).held = info.held ++ buffer := by
  change (info.held ++ buffer).take (info.size + buffer.length) = info.held ++ buffer
  rw [hsize, ← List.length_append, List.take_length]

/-- A call that takes all bytes leaves a message that is still waiting. -/
theorem waiting_extended {info : FullMessageInfo} (waiting : Waiting info) {buffer : Text}
    (hmissing : ∀ eoh,
      Search.find END_OF_HEADER (Text.cstr (info.held ++ buffer)) 0 = some eoh →
      InRange (Text.cstr (info.held ++ buffer)) ∧ (info.held ++ buffer).length <
        eoh + 4 + contentLength (Text.cstr (info.held ++ buffer))) :
    Waiting (extended info buffer) := by
  have hheld := held_extended waiting.size_eq buffer
  refine ⟨waiting.incomplete, ?_, ?_⟩
  · rw [hheld, List.length_append, ← waiting.size_eq]
    rfl
  · rw [hheld]
    exact hmissing

/-! ## The cases of a call -/

section Calls

variable {info : FullMessageInfo} {buffer : Text} {eoh : Nat}

theorem processData_header
    (hnone : Search.find END_OF_HEADER (Text.cstr (info.held ++ buffer)) 0 = none)
    (hle : info.size + buffer.length ≤ MAX_HEADER) (hlength : buffer.length < 2 ^ 31) :
    processData [] buffer info = (↑buffer.length, extended info buffer) := by
  simp only [processData, List.append_nil, hnone]
  rw [if_neg (Nat.not_lt.mpr hle), toInt_of_lt hlength]
  rfl

theorem processData_tooLong
    (hnone : Search.find END_OF_HEADER (Text.cstr (info.held ++ buffer)) 0 = none)
    (hlt : MAX_HEADER < info.size + buffer.length) : (processData [] buffer info).1 = -2 := by
  simp only [processData, List.append_nil, hnone]
  rw [if_pos hlt]

variable (hfound : Search.find END_OF_HEADER (Text.cstr (info.held ++ buffer)) 0 = some eoh)

include hfound

theorem processData_chunked
    (hchunked : (search chunkedPattern (Text.cstr (info.held ++ buffer))).isSome) :
    (processData [] buffer info).1 = -3 := by
  simp only [processData, List.append_nil, hfound]
  rw [if_pos hchunked]

variable (hplain : search chunkedPattern (Text.cstr (info.held ++ buffer)) = none)

include hplain

theorem processData_body (hlt : info.size + buffer.length <
      eoh + 4 + contentLength (Text.cstr (info.held ++ buffer)))
    (hlength : buffer.length < 2 ^ 31) :
    processData [] buffer info = (↑buffer.length, extended info buffer) := by
  simp only [processData, List.append_nil, hfound, hplain]
  rw [if_neg (by simp), if_pos hlt, toInt_of_lt hlength]
  rfl

/-- The message ends in the buffer. -/
theorem processData_message (hsize : info.size = info.held.length)
    (hstart : info.size ≤ eoh + 4 + contentLength (Text.cstr (info.held ++ buffer)))
    (hend : eoh + 4 + contentLength (Text.cstr (info.held ++ buffer)) ≤
      info.size + buffer.length) (hlength : buffer.length < 2 ^ 31) :
    let total := eoh + 4 + contentLength (Text.cstr (info.held ++ buffer))
    let result := processData [] buffer info
    result.1 = (total - info.size : Nat) ∧ result.2.complete = true ∧
      result.2.held = info.held ++ buffer.take (total - info.size) := by
  simp only [processData, List.append_nil, hfound, hplain]
  rw [if_neg (by simp), if_neg (Nat.not_lt.mpr hend)]
  generalize contentLength (Text.cstr (info.held ++ buffer)) = length at hstart hend
  have hdelta : (eoh + 4 + length + 2 ^ 64 - info.size) % 2 ^ 32 =
      eoh + 4 + length - info.size := by
    omega
  refine ⟨by rw [hdelta, toInt_of_lt (by omega)], rfl, ?_⟩
  have htaken : (if eoh + 4 + length - info.size < buffer.length then
      info.size + (eoh + 4 + length - info.size) else info.size + buffer.length) =
      info.held.length + (eoh + 4 + length - info.size) := by
    split <;> omega
  simp only [FullMessageInfo.held, hdelta, htaken, Option.getD_some]
  exact List.take_length_add_append _

end Calls

/-- One call: an error, all bytes taken, or a message that ends in the buffer. -/
theorem processData_cases (info : FullMessageInfo) {buffer : Text} (hlength : buffer.length < 2 ^ 31) :
    (processData [] buffer info).1 < 0 ∨
      (processData [] buffer info = (↑buffer.length, extended info buffer) ∧
        ∀ eoh, Search.find END_OF_HEADER (Text.cstr (info.held ++ buffer)) 0 = some eoh →
          info.size + buffer.length < eoh + 4 + contentLength (Text.cstr (info.held ++ buffer))) ∨
      ∃ eoh, Search.find END_OF_HEADER (Text.cstr (info.held ++ buffer)) 0 = some eoh ∧
        search chunkedPattern (Text.cstr (info.held ++ buffer)) = none ∧
        eoh + 4 + contentLength (Text.cstr (info.held ++ buffer)) ≤ info.size + buffer.length := by
  cases hfound : Search.find END_OF_HEADER (Text.cstr (info.held ++ buffer)) 0 with
  | none =>
      rcases Nat.lt_or_ge MAX_HEADER (info.size + buffer.length) with hlong | hle
      · rw [processData_tooLong hfound hlong]
        exact Or.inl (by decide)
      · exact Or.inr (Or.inl ⟨processData_header hfound hle hlength, fun eoh hsome => by cases hsome⟩)
  | some eoh =>
      cases hplain : search chunkedPattern (Text.cstr (info.held ++ buffer)) with
      | some hit =>
          rw [processData_chunked hfound (Option.isSome_of_eq_some hplain)]
          exact Or.inl (by decide)
      | none =>
          rcases Nat.lt_or_ge (info.size + buffer.length)
            (eoh + 4 + contentLength (Text.cstr (info.held ++ buffer))) with hlt | hge
          · refine Or.inr (Or.inl ⟨processData_body hfound hplain hlt hlength, fun eoh' hsome => ?_⟩)
            obtain rfl := Option.some.inj hsome
            exact hlt
          · exact Or.inr (Or.inr ⟨eoh, rfl, rfl, hge⟩)

/-- While the message is waiting, what is taken of the buffer belongs to it. -/
theorem processData_spec {info : FullMessageInfo} (waiting : Waiting info) {buffer : Text}
    (hlength : buffer.length < 2 ^ 31)
    (hrange : ∀ eoh, Search.find END_OF_HEADER (Text.cstr (info.held ++ buffer)) 0 = some eoh →
      InRange (Text.cstr (info.held ++ buffer))) :
    let result := processData [] buffer info
    result.1 < 0 ∨
      (result = (↑buffer.length, extended info buffer) ∧ Waiting (extended info buffer)) ∨
      ∃ taken : Nat, 1 ≤ taken ∧ taken ≤ buffer.length ∧ result.1 = taken ∧
        result.2.complete = true ∧ result.2.held = info.held ++ buffer.take taken := by
  have hsize := waiting.size_eq
  rcases processData_cases info hlength with herror | ⟨htaken, hmissing⟩ | ⟨eoh, hfound, hplain, hge⟩
  · exact Or.inl herror
  · refine Or.inr (Or.inl ⟨htaken, waiting_extended waiting fun eoh hfound =>
      ⟨hrange eoh hfound, ?_⟩⟩)
    have hlt := hmissing eoh hfound
    rw [List.length_append]
    omega
  · have hend := lt_messageEnd waiting (hrange eoh hfound) hfound
    exact Or.inr (Or.inr ⟨_, by omega, by omega,
      processData_message hfound hplain hsize (by omega) hge hlength⟩)

/-- Whatever is announced, a call keeps the bytes that are held. -/
theorem processData_keeps {info : FullMessageInfo} (hsize : info.size = info.held.length)
    {buffer : Text} (hlength : buffer.length < 2 ^ 31) :
    let result := processData [] buffer info
    result.1 < 0 ∨ result = (↑buffer.length, extended info buffer) ∨
      result.2.complete = true ∧ info.held.length ≤ result.2.held.length := by
  rcases processData_cases info hlength with herror | ⟨htaken, -⟩ | ⟨eoh, hfound, hplain, hge⟩
  · exact Or.inl herror
  · exact Or.inr (Or.inl htaken)
  · refine Or.inr (Or.inr ?_)
    simp only [processData, List.append_nil, hfound, hplain]
    rw [if_neg (by simp), if_neg (Nat.not_lt.mpr hge)]
    refine ⟨rfl, ?_⟩
    change info.held.length ≤ (List.take _ (info.held ++ buffer)).length
    rw [List.length_take, List.length_append, ← hsize]
    dsimp only
    split <;> omega

end HTTPFramingStrategy

namespace TcpClient

open HTTPFramingStrategy

/-! ## The loop over a chunk -/

/-- The byte behind the received data is NUL. -/
def nulAfter : Text → Text := fun _ => []

def TcpClientEvent.message? : TcpClientEvent → Option Text
  | .clientMessage message => some message
  | .framingError _ => none

/-- The messages passed to the observer. -/
def delivered (client : TcpClient) : List Text :=
  client.log.filterMap TcpClientEvent.message?

/-- Between two turns: what has been received is delivered, held, or still to be read. -/
structure Conserved (received : Text) (state : Receiving) : Prop where
  open_ : state.client.mFailed = false
  waiting : Waiting state.client.currentMessage
  bytes_eq : (delivered state.client).flatten ++
    (state.client.currentMessage.held ++ state.data) = received

/-- A length that the next call looks up, which needs the end of the header, is in range. -/
def NextInRange (state : Receiving) : Prop :=
  state.data ≠ [] → ∀ eoh,
    Search.find END_OF_HEADER
      (Text.cstr (state.client.currentMessage.held ++ state.data)) 0 = some eoh →
    InRange (Text.cstr (state.client.currentMessage.held ++ state.data))

section Turns

variable {after : Text → Text} {state : Receiving}

theorem receiveTurn_error (hne : state.data ≠ [])
    (herror : (processData (after state.data) state.data state.client.currentMessage).1 < 0) :
    ∃ client, receiveTurn after state = some (.stop (false, client)) ∧
      client.log = state.client.log ++ [.framingError
        (processData (after state.data) state.data state.client.currentMessage).1] := by
  simp only [receiveTurn, hne, if_false, herror, if_true]
  exact ⟨_, rfl, rfl⟩

theorem receiveTurn_wait (hne : state.data ≠ []) {info : FullMessageInfo}
    (hresult : processData (after state.data) state.data state.client.currentMessage =
      (↑state.data.length, info)) (hincomplete : info.complete = false) :
    receiveTurn after state =
      some (.again { client := { state.client with currentMessage := info }, data := [] }) := by
  simp only [receiveTurn, hne, if_false, hresult, hincomplete]
  rw [if_neg (by omega), if_neg (by omega), if_neg (by decide), Int.toNat_natCast,
    List.drop_length]

theorem receiveTurn_message (hne : state.data ≠ []) {taken : Nat}
    (htaken : taken ≤ state.data.length)
    (hret : (processData (after state.data) state.data state.client.currentMessage).1 = taken)
    (hcomplete :
      (processData (after state.data) state.data state.client.currentMessage).2.complete = true) :
    receiveTurn after state =
      some (.again
        { client :=
            { state.client with
              currentMessage := .empty
              log := state.client.log ++ [.clientMessage
                (processData (after state.data) state.data state.client.currentMessage).2.held] }
          data := state.data.drop taken }) := by
  simp only [receiveTurn, hne, if_false, hret, hcomplete, if_true]
  rw [if_neg (by omega), if_neg (by omega), Int.toNat_natCast]

end Turns

theorem receiveTurn_spec {received : Text} {state : Receiving} (conserved : Conserved received state)
    (hne : state.data ≠ []) (hlength : state.data.length < 2 ^ 31) (hrange : NextInRange state) :
    (∃ client, receiveTurn nulAfter state = some (.stop (false, client))) ∨
      ∃ next, receiveTurn nulAfter state = some (.again next) ∧ Conserved received next ∧
        next.data.length < state.data.length := by
  have hpos := List.length_pos_iff.mpr hne
  have hbytes := conserved.bytes_eq
  rcases processData_spec conserved.waiting hlength (hrange hne) with
    herror | ⟨hall, hwaiting⟩ | ⟨taken, hlow, hhigh, hret, hcomplete, hheld⟩
  · obtain ⟨client, hturn, _⟩ := @receiveTurn_error nulAfter state hne herror
    exact Or.inl ⟨client, hturn⟩
  · have hheld := held_extended conserved.waiting.size_eq state.data
    refine Or.inr ⟨_, receiveTurn_wait hne hall hwaiting.incomplete,
      ⟨conserved.open_, hwaiting, ?_⟩, hpos⟩
    rw [← hbytes, hheld, List.append_nil]
    rfl
  · refine Or.inr ⟨_, receiveTurn_message hne hhigh hret hcomplete,
      ⟨conserved.open_, waiting_empty, ?_⟩, ?_⟩
    · rw [← hbytes]
      simp only [delivered, List.filterMap_append, nulAfter, hheld]
      simp [TcpClientEvent.message?, FullMessageInfo.empty, FullMessageInfo.held]
    · simp only [List.length_drop]
      omega

/-- Every state of the loop conserves the bytes. -/
theorem conserved_of_visited {received : Text} {start state : Receiving}
    (conserved : Conserved received start) (hlength : start.data.length < 2 ^ 31)
    (hrange : ∀ state, Visited (receiveTurn nulAfter) start state → NextInRange state)
    (hvisited : Visited (receiveTurn nulAfter) start state) :
    Conserved received state ∧ state.data.length ≤ start.data.length := by
  induction hvisited with
  | start => exact ⟨conserved, le_rfl⟩
  | @again state next hbefore hturn ih =>
      obtain ⟨hconserved, hle⟩ := ih
      by_cases hne : state.data = []
      · simp only [receiveTurn, hne, if_true] at hturn
        cases hturn
      · rcases receiveTurn_spec hconserved hne (by omega) (hrange _ hbefore) with
          ⟨client, hstop⟩ | ⟨next', hagain, hnext, hlt⟩
        · cases hturn.symm.trans hstop
        · obtain rfl : next = next' := by simpa [hturn] using hagain
          exact ⟨hnext, by omega⟩

/-! ## Runs -/

/-- The announced lengths that the calls for this chunk read are in range. -/
def RangesHold (client : TcpClient) (chunk : Text) : Prop :=
  ∀ state, Visited (receiveTurn nulAfter) { client := client, data := chunk } state →
    NextInRange state

/-- A chunk that a single call uses up is in range when that call is. -/
theorem rangesHold_of_last {client : TcpClient} {chunk : Text} {next : Receiving}
    (hturn : receiveTurn nulAfter { client := client, data := chunk } = some (.again next))
    (hlast : next.data = []) (hrange : NextInRange { client := client, data := chunk }) :
    RangesHold client chunk := by
  intro state hvisited
  suffices hcases : state = { client := client, data := chunk } ∨ state.data = [] by
    rcases hcases with rfl | hdone
    · exact hrange
    · exact fun hne => absurd hdone hne
  induction hvisited with
  | start => exact Or.inl rfl
  | @again state after _ hagain ih =>
      rcases ih with rfl | hdone
      · obtain rfl : next = after := by simpa [hturn] using hagain
        exact Or.inr hlast
      · simp only [receiveTurn, hdone, if_true] at hagain
        cases hagain

/-- The clients after chunks without a framing error, with the bytes received. -/
inductive Received : Text → TcpClient → Prop where
  | create (fresh : Fin MAX_INTERNAL_TX_COUNT → SendBuffer) : Received [] (create fresh)
  | onReceive {received chunk : Text} {client next : TcpClient} {fuel : Nat} :
      Received received client → chunk ≠ [] → chunk.length ≤ 1024 → RangesHold client chunk →
      client.onReceive nulAfter fuel chunk = .finished (true, next) →
      Received (received ++ chunk) next

theorem Received.conserved {received : Text} {client : TcpClient}
    (hreceived : Received received client) :
    Conserved received { client := client, data := [] } := by
  induction hreceived with
  | create fresh => exact ⟨rfl, waiting_empty, rfl⟩
  | @onReceive received chunk client next fuel _ _ hlength hranges hloop ih =>
      rw [TcpClient.onReceive, if_neg (by rw [ih.open_]; decide)] at hloop
      obtain ⟨last, hvisited, hstop⟩ := loop_stops hloop
      have hstart : Conserved (received ++ chunk) { client := client, data := chunk } :=
        ⟨ih.open_, ih.waiting, by rw [← ih.bytes_eq]; simp⟩
      obtain ⟨hlast, hle⟩ := conserved_of_visited hstart (by dsimp only; omega) hranges hvisited
      by_cases hne : last.data = []
      · simp only [receiveTurn, hne, if_true, Option.some.injEq, Turn.stop.injEq, Prod.mk.injEq,
          true_and] at hstop
        subst hstop
        have hbytes := hlast.bytes_eq
        rw [hne] at hbytes
        exact ⟨hlast.open_, hlast.waiting, hbytes⟩
      · rcases receiveTurn_spec hlast hne (by dsimp only at hle; omega) (hranges _ hvisited) with
          ⟨failed, hfailed⟩ | ⟨_, hagain, _⟩
        · simpa using hstop.symm.trans hfailed
        · cases hstop.symm.trans hagain

/--
After any chunks without a framing error, and throughout the processing of one
more chunk: the size is the number of held bytes; the delivered messages, the
held bytes and the rest of the chunk are the bytes received; each call reports
an error or takes at least one and at most all of its bytes; and the loop ends.
-/
theorem received_bytes_conserved {received : Text} {client : TcpClient}
    (hreceived : Received received client) {chunk : Text} (hlength : chunk.length ≤ 1024)
    (hranges : RangesHold client chunk) :
    (∀ state, Visited (receiveTurn nulAfter) { client := client, data := chunk } state →
      state.client.currentMessage.size = state.client.currentMessage.held.length ∧
      (delivered state.client).flatten ++ (state.client.currentMessage.held ++ state.data) =
        received ++ chunk ∧
      (state.data ≠ [] →
        let ret := (processData (nulAfter state.data) state.data
          state.client.currentMessage).1
        ret < 0 ∨ 1 ≤ ret ∧ ret ≤ state.data.length)) ∧
    ∀ fuel > chunk.length, ∃ result, client.onReceive nulAfter fuel chunk = .finished result := by
  have hbefore := hreceived.conserved
  have hstart : Conserved (received ++ chunk) { client := client, data := chunk } :=
    ⟨hbefore.open_, hbefore.waiting, by rw [← hbefore.bytes_eq]; simp⟩
  have hvisits (state : Receiving)
      (hvisited : Visited (receiveTurn nulAfter) { client := client, data := chunk } state) :=
    conserved_of_visited hstart (by dsimp only; omega) hranges hvisited
  refine ⟨fun state hvisited => ?_, fun fuel hfuel => ?_⟩
  · obtain ⟨hconserved, hle⟩ := hvisits state hvisited
    refine ⟨hconserved.waiting.size_eq, hconserved.bytes_eq, fun hdata => ?_⟩
    have hpos := List.length_pos_iff.mpr hdata
    dsimp only at hle
    rcases processData_spec hconserved.waiting (by omega) (hranges _ hvisited hdata) with
      herror | ⟨hall, _⟩ | ⟨taken, hlow, hhigh, hret, _⟩
    · exact Or.inl herror
    · apply Or.inr
      simp only [nulAfter, hall]
      omega
    · apply Or.inr
      simp only [nulAfter, hret]
      omega
  · rw [TcpClient.onReceive, if_neg (by rw [hbefore.open_]; decide)]
    refine loop_finishes (fun state => state.data.length) (fun state hvisited => ?_) hfuel
    obtain ⟨hconserved, hle⟩ := hvisits state hvisited
    by_cases hdata : state.data = []
    · exact Or.inl ⟨(true, state.client), by simp only [receiveTurn, hdata, if_true]⟩
    · dsimp only at hle
      rcases receiveTurn_spec hconserved hdata (by omega) (hranges _ hvisited) with
        ⟨failed, hstop⟩ | ⟨next, hagain, _, hlt⟩
      · exact Or.inl ⟨_, hstop⟩
      · exact Or.inr ⟨next, hagain, hlt⟩

/-- A whole request with a body of two bytes, to a new client. -/
def exampleRequest : Text := "POST / HTTP/1.1\r\nContent-Length: 2\r\n\r\nhi".toList

theorem exampleRequest_ranges (fresh : Fin MAX_INTERNAL_TX_COUNT → SendBuffer) :
    RangesHold (create fresh) exampleRequest := by
  have hcaptured : contentLengthText exampleRequest = some "2".toList := by decide +kernel
  have hresult : processData [] exampleRequest .empty =
      (40, ⟨true, 40, 0, some exampleRequest⟩) := by decide +kernel
  have hcall : processData (nulAfter exampleRequest) exampleRequest
      (create fresh).currentMessage = (40, ⟨true, 40, 0, some exampleRequest⟩) := hresult
  have hlength : exampleRequest.length = 40 := by decide
  have hdone : exampleRequest.drop 40 = [] :=
    List.drop_of_length_le hlength.le
  have hne : exampleRequest ≠ [] := List.ne_nil_of_length_eq_add_one hlength
  refine rangesHold_of_last
    (receiveTurn_message hne hlength.ge (by rw [hcall]; rfl) (by rw [hcall])) hdone
    fun _ _ _ text htext => ?_
  obtain rfl := Option.some.inj (hcaptured.symm.trans htext)
  decide

theorem received_bytes_conserved_post :
    ∃ result, (create fun _ => ⟨[], 0, 0, false⟩).onReceive nulAfter 41 exampleRequest =
      .finished result :=
  (received_bytes_conserved (.create _) (by decide) (exampleRequest_ranges _)).2 41
    (by decide)

end TcpClient

end DumaisLib.WebServer
