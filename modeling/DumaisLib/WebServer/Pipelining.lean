import DumaisLib.WebServer.RequestStream

/-!
# Pipelined requests

A stream of requests arrives in chunks.  Each request is delivered as such
exactly when the bytes that have arrived with its last one announce the length
of its body and mention no chunked encoding; otherwise the first request for
which they do not is never delivered as it was sent.
-/

namespace DumaisLib.WebServer

open Machine Regex HTTPFramingStrategy TcpClient

/-- The chunks passed to the client one after the other. -/
def receiveAll (after : Text → Text) (fuel : Nat) : TcpClient → List Text → Outcome TcpClient
  | client, [] => .finished client
  | client, chunk :: chunks =>
      match client.onReceive after fuel chunk with
      | .outOfFuel => .outOfFuel
      | .fault => .fault
      | .finished (_, client) => receiveAll after fuel client chunks

namespace Request

def stream (requests : List Request) : Text :=
  (requests.map bytes).flatten

/-- One message for each request. -/
def messages (requests : List Request) : List TcpClientEvent :=
  requests.map fun request => .clientMessage request.bytes

/-- What has arrived with the request frames it as it was sent. -/
def Framed (request : Request) (window : Text) : Prop :=
  search chunkedPattern window = none ∧ contentLength window = request.body.length

/-- Each of the requests, the first of which begins at `start`, is framed as sent. -/
def AllFramed (chunks : List Text) : Nat → List Request → Prop
  | _, [] => True
  | start, request :: requests =>
      request.Framed (Chunks.window chunks start (start + request.bytes.length)) ∧
        AllFramed chunks (start + request.bytes.length) requests

theorem four_le_bytes (request : Request) : 4 ≤ request.bytes.length :=
  request.four_le_header.trans request.header_le_bytes

theorem allFramed_merge {first second : Text} {chunks : List Text} {start : Nat}
    {requests : List Request}
    (hlt : ∀ request ∈ requests.head?, first.length < start + request.bytes.length) :
    AllFramed (first :: second :: chunks) start requests ↔
      AllFramed ((first ++ second) :: chunks) start requests := by
  induction requests generalizing start with
  | nil => exact Iff.rfl
  | cons request requests ih =>
      have hfirst : first.length < start + request.bytes.length := hlt request rfl
      unfold AllFramed
      rw [Chunks.window_merge hfirst, ih fun next _ => by omega]

theorem allFramed_drop {first : Text} {chunks : List Text} {count : Nat}
    (hcount : count ≤ first.length) (start : Nat) (requests : List Request) :
    AllFramed (first :: chunks) (count + start) requests ↔
      AllFramed (first.drop count :: chunks) start requests := by
  induction requests generalizing start with
  | nil => exact Iff.rfl
  | cons request requests ih =>
      unfold AllFramed
      rw [Nat.add_assoc, Chunks.window_drop hcount, ih]

/-- A framed request that has arrived leaves the requests behind it to be framed. -/
theorem allFramed_first {request : Request} {requests : List Request} {arrived : Text}
    {chunks : List Text} (hle : request.bytes.length ≤ arrived.length)
    (hframed : request.Framed arrived) :
    AllFramed (arrived :: chunks) 0 (request :: requests) ↔
      AllFramed (arrived.drop request.bytes.length :: chunks) 0 requests := by
  rw [AllFramed, Nat.zero_add, Chunks.window_first hle, ← allFramed_drop hle, Nat.add_zero]
  exact and_iff_right hframed

/-! ## What a call does to the request under construction -/

/-- The held bytes are a beginning of the request. -/
structure Begun (request : Request) (info : FullMessageInfo) : Prop where
  incomplete : info.complete = false
  size_eq : info.size = info.held.length
  begins : info.held <+: request.bytes
  lt_bytes : info.held.length < request.bytes.length
  lt_end : request.header.length ≤ info.held.length →
    info.held.length < request.header.length + contentLength request.header

/-- The held bytes go past the request, or will. -/
structure Overdue (request : Request) (info : FullMessageInfo) : Prop where
  incomplete : info.complete = false
  size_eq : info.size = info.held.length
  past : request.bytes.length < info.held.length ∨
    info.held = request.bytes ∧ (firstFit contentLengthName request.header).isSome ∧
      request.body.length < contentLength request.header

/-- A request that can no longer be delivered after the events of the log. -/
def Missed (log : List TcpClientEvent) (request : Request) (client : TcpClient) : Prop :=
  (∃ event more, client.log = log ++ event :: more ∧ event ≠ .clientMessage request.bytes) ∨
    client.log = log ∧ request.Overdue client.currentMessage

theorem begun_empty (request : Request) : request.Begun .empty where
  incomplete := rfl
  size_eq := rfl
  begins := List.nil_prefix
  lt_bytes := lt_of_lt_of_le (by decide) request.four_le_bytes
  lt_end hle := absurd hle (Nat.not_le.mpr (lt_of_lt_of_le (by decide) request.four_le_header))

/-! ## One call for a request under construction -/

section Turn

variable {request : Request} {state : Receiving} {more : Text}

theorem Begun.of_extended {info : FullMessageInfo} (begun : request.Begun info) {buffer : Text}
    (hbegins : info.held ++ buffer <+: request.bytes ++ more)
    (hlt : (info.held ++ buffer).length < request.bytes.length)
    (hend : request.header.length ≤ (info.held ++ buffer).length →
      (info.held ++ buffer).length < request.header.length + contentLength request.header) :
    request.Begun (extended info buffer) := by
  have hheld := held_extended begun.size_eq buffer
  refine ⟨begun.incomplete, ?_, ?_, ?_, ?_⟩
  · rw [hheld, List.length_append, ← begun.size_eq]
    rfl
  · rw [hheld]
    exact List.prefix_of_prefix_length_le hbegins (List.prefix_append _ _) hlt.le
  · rwa [hheld]
  · rwa [hheld]

/-- A request that goes on after its header announces a length in the header. -/
theorem fit_of_lt {length : Nat} (hheader : request.header.length ≤ length)
    (hlt : length < request.bytes.length) :
    (firstFit contentLengthName request.header).isSome := by
  by_contra hnone
  have hbody := request.body_eq_nil (Option.not_isSome_iff_eq_none.mp hnone)
  rw [bytes, hbody, List.append_nil] at hlt
  omega

/-- A request that is shorter than announced announces its length in the header. -/
theorem fit_of_bytes_lt
    (hlt : request.bytes.length < request.header.length + contentLength request.bytes) :
    (firstFit contentLengthName request.header).isSome := by
  by_contra hnone
  have hnofit := Option.not_isSome_iff_eq_none.mp hnone
  rw [bytes, request.body_eq_nil hnofit, List.append_nil,
    request.contentLength_none hnofit] at hlt
  omega

/-- The bytes up to the end that the framing sees are delivered. -/
theorem receiveTurn_delivers
    (hsize : state.client.currentMessage.size = state.client.currentMessage.held.length)
    (hne : state.data ≠ []) (hlength : state.data.length < 2 ^ 31) {body : Text}
    (hbody : Text.cstr (state.client.currentMessage.held ++ state.data) = request.header ++ body)
    (hplain : search chunkedPattern (request.header ++ body) = none) {total : Nat}
    (htotal : request.header.length + contentLength (request.header ++ body) = total)
    (hstart : state.client.currentMessage.held.length ≤ total)
    (hend : total ≤ (state.client.currentMessage.held ++ state.data).length) :
    receiveTurn nulAfter state = some (.again
      { client :=
          { state.client with
            currentMessage := .empty
            log := state.client.log ++
              [.clientMessage ((state.client.currentMessage.held ++ state.data).take total)] }
        data := state.data.drop (total - state.client.currentMessage.held.length) }) := by
  have hfour := request.four_le_header
  rw [List.length_append] at hend
  have heoh : request.header.length - 4 + 4 + contentLength (request.header ++ body) = total := by
    omega
  have hresult := @processData_message state.client.currentMessage state.data
    (request.header.length - 4) (by rw [hbody]; exact request.find_header body)
    (by rw [hbody]; exact hplain) hsize (by rw [hbody]; omega) (by rw [hbody]; omega) hlength
  rw [hbody, heoh, hsize] at hresult
  obtain ⟨hret, hcomplete, hheld⟩ := hresult
  rw [@receiveTurn_message nulAfter state hne _ (by omega) hret hcomplete]
  have htake : (state.client.currentMessage.held ++ state.data).take total =
      state.client.currentMessage.held ++
        state.data.take (total - state.client.currentMessage.held.length) := by
    rw [List.take_append, List.take_of_length_le hstart]
  rw [htake, nulAfter, hheld]

/-- A first event that is not the request's message misses it. -/
theorem missed_of_event {log : List TcpClientEvent} {client : TcpClient} {event : TcpClientEvent}
    (hlog : client.log = log ++ [event]) (hne : event ≠ .clientMessage request.bytes) :
    request.Missed log client :=
  Or.inl ⟨event, [], hlog, hne⟩

theorem missed_of_length {log : List TcpClientEvent} {client : TcpClient} {message : Text}
    (hlog : client.log = log ++ [.clientMessage message])
    (hne : message.length ≠ request.bytes.length) : request.Missed log client := by
  refine missed_of_event hlog fun heq => hne ?_
  rw [TcpClientEvent.clientMessage.inj heq]

/-- What a turn that does not fault leaves behind. -/
def Leaves (turn : Option (Turn Receiving (Bool × TcpClient))) (client : TcpClient) : Prop :=
  turn = some (.stop (false, client)) ∨ ∃ data, turn = some (.again ⟨client, data⟩)

/-- A turn waits for more of the request, delivers it as sent, or misses it. -/
inductive Handled (request : Request) (state : Receiving) (arrived : Text) : Prop where
  | waits {info : FullMessageInfo} :
      arrived.length < request.bytes.length →
      receiveTurn nulAfter state =
        some (.again ⟨{ state.client with currentMessage := info }, []⟩) →
      request.Begun info → info.held = arrived → Handled request state arrived
  | delivers :
      request.bytes.length ≤ arrived.length → request.Framed arrived →
      receiveTurn nulAfter state = some (.again
        ⟨{ state.client with
            currentMessage := .empty
            log := state.client.log ++ [.clientMessage request.bytes] },
          state.data.drop (request.bytes.length - state.client.currentMessage.held.length)⟩) →
      Handled request state arrived
  | misses {client : TcpClient} :
      (∀ window, arrived <+: window → (request.bytes.length ≤ arrived.length → window = arrived) →
        ¬ request.Framed window) →
      Leaves (receiveTurn nulAfter state) client →
      request.Missed state.client.log client → Handled request state arrived

/-! ### The header has arrived, and no chunked encoding -/

section Plain

variable {body : Text} (begun : request.Begun state.client.currentMessage)
  (hne : state.data ≠ []) (hlength : state.data.length < 2 ^ 31)
  (harrived : state.client.currentMessage.held ++ state.data = request.header ++ body)
  (hcstr : Text.cstr (request.header ++ body) = request.header ++ body)
  (hplain : search chunkedPattern (request.header ++ body) = none)

include begun hne hlength harrived hcstr hplain

theorem turn_extends (hlt : (request.header ++ body).length <
      request.header.length + contentLength (request.header ++ body)) :
    receiveTurn nulAfter state = some (.again
      ⟨{ state.client with currentMessage := extended state.client.currentMessage state.data },
        []⟩) := by
  have hsize := begun.size_eq
  have hfour := request.four_le_header
  refine receiveTurn_wait hne (processData_body
    (by rw [harrived, hcstr]; exact request.find_header body)
    (by rw [harrived, hcstr]; exact hplain) ?_ hlength) begun.incomplete
  rw [harrived, hcstr, hsize, ← List.length_append, harrived]
  omega

theorem turn_delivers (hge : request.header.length + contentLength (request.header ++ body) ≤
      (request.header ++ body).length) :
    receiveTurn nulAfter state = some (.again
      { client :=
          { state.client with
            currentMessage := .empty
            log := state.client.log ++
              [.clientMessage ((request.header ++ body).take
                (request.header.length + contentLength (request.header ++ body)))] }
        data := state.data.drop (request.header.length +
          contentLength (request.header ++ body) - state.client.currentMessage.held.length) }) := by
  have hstart : state.client.currentMessage.held.length ≤
      request.header.length + contentLength (request.header ++ body) := by
    rcases Nat.lt_or_ge state.client.currentMessage.held.length request.header.length with
      hlt | hheader
    · omega
    · have hlt := begun.lt_end hheader
      rw [request.contentLength_fixed (fit_of_lt hheader begun.lt_bytes)]
      exact hlt.le
  have hdeliver := @receiveTurn_delivers request state begun.size_eq hne hlength body
    (by rw [harrived, hcstr]) hplain _ rfl hstart
  rw [harrived] at hdeliver
  exact hdeliver hge

/-- Less than the request has arrived. -/
theorem handled_of_part (hbegins : request.header ++ body <+: request.bytes ++ more)
    (hpart : (request.header ++ body).length < request.bytes.length) :
    Handled request state (request.header ++ body) := by
  have hfit : (firstFit contentLengthName request.header).isSome :=
    fit_of_lt (by rw [List.length_append]; omega) hpart
  have hfixed := request.contentLength_fixed hfit body
  rcases Nat.lt_or_ge (request.header ++ body).length
    (request.header.length + contentLength (request.header ++ body)) with hlt | hge
  · refine .waits hpart (turn_extends begun hne hlength harrived hcstr hplain hlt)
      (begun.of_extended (harrived ▸ hbegins) (harrived ▸ hpart) fun _ => ?_) ?_
    · rwa [harrived, ← hfixed]
    · rw [held_extended begun.size_eq, harrived]
  · refine .misses (fun window hwindow _ hframed => ?_)
      (Or.inr ⟨_, turn_delivers begun hne hlength harrived hcstr hplain hge⟩)
      (missed_of_length rfl ?_)
    · have hbytes : request.bytes.length = request.header.length + request.body.length :=
        List.length_append
      obtain ⟨rest, rfl⟩ := hwindow
      have hsame := hframed.2
      rw [List.append_assoc, request.contentLength_fixed hfit, ← hfixed] at hsame
      omega
    · rw [List.length_take]
      omega

/-- The whole request has arrived. -/
theorem handled_of_whole (hbegins : request.header ++ body <+: request.bytes ++ more)
    (hwhole : request.bytes.length ≤ (request.header ++ body).length) :
    Handled request state (request.header ++ body) := by
  have hbytes : request.bytes.length = request.header.length + request.body.length :=
    List.length_append
  rcases Nat.lt_or_ge (request.header ++ body).length
    (request.header.length + contentLength (request.header ++ body)) with hlt | hge
  · have hturn := turn_extends begun hne hlength harrived hcstr hplain hlt
    have hheld := held_extended begun.size_eq state.data
    rw [harrived] at hheld
    refine .misses (fun window _ hwindow hframed => ?_) (Or.inr ⟨_, hturn⟩)
      (Or.inr ⟨rfl, begun.incomplete, ?_, ?_⟩)
    · rw [hwindow hwhole] at hframed
      have hsame := hframed.2
      omega
    · rw [hheld, ← harrived, List.length_append, ← begun.size_eq]
      rfl
    · rw [hheld]
      rcases Nat.lt_or_ge request.bytes.length (request.header ++ body).length with hlonger | hle
      · exact Or.inl hlonger
      · have hequal : request.header ++ body = request.bytes :=
          (List.prefix_of_prefix_length_le hbegins (List.prefix_append _ _) hle).eq_of_length
            (by omega)
        have hfit := fit_of_bytes_lt (hequal ▸ hlt)
        rw [request.contentLength_fixed hfit] at hlt
        exact Or.inr ⟨hequal, hfit, by omega⟩
  · have hturn := turn_delivers begun hne hlength harrived hcstr hplain hge
    by_cases hbody : contentLength (request.header ++ body) = request.body.length
    · have htotal : request.header.length + contentLength (request.header ++ body) =
          request.bytes.length := by
        omega
      have hmessage : (request.header ++ body).take request.bytes.length = request.bytes := by
        obtain ⟨rest, hrest⟩ :=
          List.prefix_of_prefix_length_le (List.prefix_append _ _) hbegins hwhole
        rw [← hrest, List.take_left]
      rw [htotal, hmessage] at hturn
      exact .delivers hwhole ⟨hplain, hbody⟩ hturn
    · refine .misses (fun window _ hwindow hframed => ?_) (Or.inr ⟨_, hturn⟩)
        (missed_of_length rfl ?_)
      · rw [hwindow hwhole] at hframed
        exact hbody hframed.2
      · rw [List.length_take]
        omega

end Plain

theorem handled (begun : request.Begun state.client.currentMessage)
    (hne : state.data ≠ []) (hlength : state.data.length < 2 ^ 31)
    (hbegins : state.client.currentMessage.held ++ state.data <+: request.bytes ++ more)
    (hnul : '\x00' ∉ state.client.currentMessage.held ++ state.data) :
    Handled request state (state.client.currentMessage.held ++ state.data) := by
  have hcstr : Text.cstr (state.client.currentMessage.held ++ state.data) =
      state.client.currentMessage.held ++ state.data :=
    Text.cstr_of_not_mem hnul
  have hsize := begun.size_eq
  generalize harrived : state.client.currentMessage.held ++ state.data = arrived at *
  rcases Nat.lt_or_ge arrived.length request.header.length with hpart | hheader
  · have hlt := hpart.trans_le request.header_le_bytes
    have hbefore : arrived <+: request.header := by
      rw [bytes, List.append_assoc] at hbegins
      exact List.prefix_of_prefix_length_le hbegins (List.prefix_append _ _) hpart.le
    refine .waits hlt (receiveTurn_wait hne (processData_header ?_ ?_ hlength) begun.incomplete)
      (begun.of_extended (harrived ▸ hbegins) (harrived ▸ hlt) fun hle => ?_) ?_
    · rw [harrived, hcstr]
      exact request.find_part hbefore hpart
    · rw [hsize, ← List.length_append, harrived]
      exact hpart.le.trans request.header_le
    · rw [harrived] at hle
      omega
    · rw [held_extended hsize, harrived]
  · have hboth : request.header <+: request.bytes ++ more := by
      rw [bytes, List.append_assoc]
      exact List.prefix_append _ _
    obtain ⟨body, rfl⟩ := List.prefix_of_prefix_length_le hboth hbegins hheader
    cases hplain : search chunkedPattern (request.header ++ body) with
    | none =>
        rcases Nat.lt_or_ge (request.header ++ body).length request.bytes.length with hlt | hwhole
        · exact handled_of_part begun hne hlength harrived hcstr hplain hbegins hlt
        · exact handled_of_whole begun hne hlength harrived hcstr hplain hbegins hwhole
    | some hit =>
        have hsome := Option.isSome_of_eq_some hplain
        have herror : (processData (nulAfter state.data) state.data
            state.client.currentMessage).1 = -3 :=
          processData_chunked (by rw [harrived, hcstr]; exact request.find_header body)
            (by rw [harrived, hcstr]; exact hsome)
        obtain ⟨client, hturn, hlog⟩ := receiveTurn_error hne (by rw [herror]; decide)
        refine .misses (fun window hwindow _ hframed => ?_) (Or.inl hturn)
          (missed_of_event hlog (by rintro ⟨⟩))
        obtain ⟨rest, rfl⟩ := hwindow
        have hlonger := search_append_isSome rest hsome
        rw [hframed.1] at hlonger
        exact absurd hlonger (by decide)

/-! ## A request that has been missed -/

/-- The client that a turn leaves behind. -/
def clientOf : Turn Receiving (Bool × TcpClient) → TcpClient
  | .stop (_, client) => client
  | .again next => next.client

theorem Overdue.extended {info : FullMessageInfo} (hincomplete : info.complete = false)
    (hsize : info.size = info.held.length) (hle : request.bytes.length ≤ info.held.length)
    {buffer : Text} (hne : buffer ≠ []) : request.Overdue (extended info buffer) := by
  have hheld := held_extended hsize buffer
  have hpos := List.length_pos_iff.mpr hne
  refine ⟨hincomplete, ?_, Or.inl ?_⟩
  · rw [hheld, List.length_append, ← hsize]
    rfl
  · rw [hheld, List.length_append]
    omega

/-- Whatever a longer message leads to, it is not the request. -/
theorem missed_of_past (hincomplete : state.client.currentMessage.complete = false)
    (hsize : state.client.currentMessage.size = state.client.currentMessage.held.length)
    (hpast : request.bytes.length < state.client.currentMessage.held.length)
    (hne : state.data ≠ []) (hlength : state.data.length < 2 ^ 31)
    {turn : Turn Receiving (Bool × TcpClient)} (hturn : receiveTurn nulAfter state = some turn) :
    request.Missed state.client.log (clientOf turn) := by
  rcases processData_keeps hsize hlength with herror | hall | ⟨hcomplete, hkept⟩
  · obtain ⟨client, hstop, hlog⟩ := @receiveTurn_error nulAfter state hne herror
    obtain rfl := Option.some.inj (hturn.symm.trans hstop)
    exact missed_of_event hlog (by rintro ⟨⟩)
  · have hwait := @receiveTurn_wait nulAfter state hne _ hall hincomplete
    obtain rfl := Option.some.inj (hturn.symm.trans hwait)
    exact Or.inr ⟨rfl, .extended hincomplete hsize hpast.le hne⟩
  · simp only [receiveTurn, hne, if_false, nulAfter, hcomplete, if_true] at hturn
    split at hturn
    · obtain rfl := Option.some.inj hturn
      exact missed_of_event rfl (by rintro ⟨⟩)
    · split at hturn
      · cases hturn
      · obtain rfl := Option.some.inj hturn
        exact missed_of_length rfl (by omega)

/-- The request is held in whole, and its header announces more. -/
theorem missed_of_ended (hincomplete : state.client.currentMessage.complete = false)
    (hsize : state.client.currentMessage.size = state.client.currentMessage.held.length)
    (hheld : state.client.currentMessage.held = request.bytes)
    (hfit : (firstFit contentLengthName request.header).isSome)
    (hmore : request.body.length < contentLength request.header)
    (hne : state.data ≠ []) (hlength : state.data.length < 2 ^ 31)
    {turn : Turn Receiving (Bool × TcpClient)} (hturn : receiveTurn nulAfter state = some turn) :
    request.Missed state.client.log (clientOf turn) := by
  have hbytes : request.bytes.length = request.header.length + request.body.length :=
    List.length_append
  have hbody : Text.cstr (state.client.currentMessage.held ++ state.data) =
      request.header ++ (request.body ++ Text.cstr state.data) := by
    rw [hheld, Text.cstr_append, if_neg (show '\x00' ∉ request.bytes from request.nul_free), bytes,
      List.append_assoc]
  have hfixed := request.contentLength_fixed hfit (request.body ++ Text.cstr state.data)
  have hfound := request.find_header (request.body ++ Text.cstr state.data)
  have hfour := request.four_le_header
  cases hplain : search chunkedPattern (request.header ++ (request.body ++ Text.cstr state.data))
  with
  | some hit =>
      have herror : (processData (nulAfter state.data) state.data
          state.client.currentMessage).1 = -3 :=
        processData_chunked (by rw [hbody]; exact hfound)
          (by rw [hbody]; exact Option.isSome_of_eq_some hplain)
      obtain ⟨client, hstop, hlog⟩ := receiveTurn_error hne (by rw [herror]; decide)
      obtain rfl := Option.some.inj (hturn.symm.trans hstop)
      exact missed_of_event hlog (by rintro ⟨⟩)
  | none =>
      rcases Nat.lt_or_ge (state.client.currentMessage.held ++ state.data).length
        (request.header.length + contentLength request.header) with hlt | hge
      · have hall := processData_body (by rw [hbody]; exact hfound)
          (by rw [hbody]; exact hplain)
          (show state.client.currentMessage.size + state.data.length < _ by
            rw [hbody, hfixed, hsize, ← List.length_append]
            omega) hlength
        have hwait := @receiveTurn_wait nulAfter state hne _ hall hincomplete
        obtain rfl := Option.some.inj (hturn.symm.trans hwait)
        exact Or.inr ⟨rfl, .extended hincomplete hsize (by rw [hheld]) hne⟩
      · have hdeliver := receiveTurn_delivers hsize hne hlength hbody hplain (by rw [hfixed])
          (by rw [hheld]; omega) hge
        obtain rfl := Option.some.inj (hturn.symm.trans hdeliver)
        apply missed_of_length rfl
        rw [List.length_take]
        omega

/-- The first event of a call that goes past the request is not its message. -/
theorem Overdue.turn (overdue : request.Overdue state.client.currentMessage)
    (hlength : state.data.length < 2 ^ 31) {turn : Turn Receiving (Bool × TcpClient)}
    (hturn : receiveTurn nulAfter state = some turn) :
    request.Missed state.client.log (clientOf turn) := by
  by_cases hne : state.data = []
  · simp only [receiveTurn, hne, if_true, Option.some.injEq] at hturn
    subst hturn
    exact Or.inr ⟨rfl, overdue⟩
  · rcases overdue.past with hpast | ⟨hheld, hfit, hmore⟩
    · exact missed_of_past overdue.incomplete overdue.size_eq hpast hne hlength hturn
    · exact missed_of_ended overdue.incomplete overdue.size_eq hheld hfit hmore hne hlength hturn

/-- A turn only adds to the log. -/
theorem log_turn {turn : Turn Receiving (Bool × TcpClient)}
    (hturn : receiveTurn nulAfter state = some turn) :
    state.client.log <+: (clientOf turn).log := by
  unfold receiveTurn at hturn
  split at hturn
  · obtain rfl := Option.some.inj hturn
    exact List.prefix_refl _
  · dsimp only at hturn
    split at hturn
    · obtain rfl := Option.some.inj hturn
      exact List.prefix_append _ _
    · split at hturn
      · cases hturn
      · split at hturn <;> obtain rfl := Option.some.inj hturn
        · exact List.prefix_append _ _
        · exact List.prefix_refl _

end Turn

/-! ## Runs -/

/-- What is delivered and what is still to come make up the expected log. -/
structure Expecting (target : List TcpClientEvent) (requests : List Request) (rest : Text)
    (state : Receiving) : Prop where
  open_ : state.client.mFailed = false
  log_eq : state.client.log ++ messages requests = target
  bytes_eq : state.client.currentMessage.held ++ (state.data ++ rest) = stream requests
  begun : ∀ request ∈ requests.head?, request.Begun state.client.currentMessage

/-- A request of the expected log has been missed. -/
def Doomed (target : List TcpClientEvent) (client : TcpClient) : Prop :=
  ∃ done request later, target = done ++ .clientMessage request.bytes :: later ∧
    Missed done request client

theorem Doomed.log_ne {target : List TcpClientEvent} {client : TcpClient}
    (doomed : Doomed target client) : client.log ≠ target := by
  obtain ⟨done, request, later, rfl, ⟨event, more, hlog, hne⟩ | ⟨hlog, _⟩⟩ := doomed
  · rw [hlog]
    intro heq
    exact hne (List.cons.inj (List.append_cancel_left heq)).1
  · rw [hlog]
    simp

theorem Doomed.turn {target : List TcpClientEvent} {state : Receiving}
    (doomed : Doomed target state.client) (hlength : state.data.length < 2 ^ 31)
    {turn : Turn Receiving (Bool × TcpClient)} (hturn : receiveTurn nulAfter state = some turn) :
    Doomed target (clientOf turn) := by
  obtain ⟨done, request, later, htarget, ⟨event, more, hlog, hne⟩ | ⟨hlog, hoverdue⟩⟩ := doomed
  · obtain ⟨added, hadded⟩ := log_turn hturn
    refine ⟨done, request, later, htarget, Or.inl ⟨event, more ++ added, ?_, hne⟩⟩
    rw [← hadded, hlog, List.append_assoc, List.cons_append]
  · have hmissed := hoverdue.turn hlength hturn
    rw [hlog] at hmissed
    exact ⟨done, request, later, htarget, hmissed⟩

theorem data_length_turn {state next : Receiving}
    (hturn : receiveTurn nulAfter state = some (.again next)) :
    next.data.length ≤ state.data.length := by
  unfold receiveTurn at hturn
  split at hturn
  · cases hturn
  · dsimp only at hturn
    split at hturn
    · cases hturn
    · split at hturn
      · cases hturn
      · split at hturn <;> (obtain rfl := Turn.again.inj (Option.some.inj hturn); simp)

theorem Doomed.loop {target : List TcpClientEvent} {state : Receiving}
    (doomed : Doomed target state.client) (hlength : state.data.length < 2 ^ 31) {fuel : Nat}
    {result : Bool} {client : TcpClient}
    (hloop : loop (receiveTurn nulAfter) fuel state = .finished (result, client)) :
    Doomed target client := by
  have hvisits (last : Receiving) (hvisited : Visited (receiveTurn nulAfter) state last) :
      Doomed target last.client ∧ last.data.length ≤ state.data.length := by
    induction hvisited with
    | start => exact ⟨doomed, le_rfl⟩
    | again _ hagain ih =>
        have hle := data_length_turn hagain
        exact ⟨ih.1.turn (by omega) hagain, by omega⟩
  obtain ⟨last, hvisited, hstop⟩ := loop_stops hloop
  obtain ⟨hdoomed, hle⟩ := hvisits last hvisited
  exact hdoomed.turn (by omega) hstop

theorem nul_free_stream (requests : List Request) : '\x00' ∉ stream requests := by
  intro hmem
  obtain ⟨bytes, hbytes, hnul⟩ := List.mem_flatten.mp hmem
  obtain ⟨request, _, rfl⟩ := List.mem_map.mp hbytes
  exact request.nul_free hnul

/-- More of the first request has arrived. -/
theorem Expecting.waits {target : List TcpClientEvent} {request : Request}
    {requests : List Request} {rest data : Text} {client : TcpClient} {info : FullMessageInfo}
    (expecting : Expecting target (request :: requests) rest ⟨client, data⟩)
    (hbegun : request.Begun info) (hheld : info.held = client.currentMessage.held ++ data) :
    Expecting target (request :: requests) rest
      ⟨{ client with currentMessage := info }, []⟩ := by
  refine ⟨expecting.open_, expecting.log_eq, ?_, ?_⟩
  · have hbytes := expecting.bytes_eq
    rwa [← List.append_assoc, ← hheld] at hbytes
  · rintro _ ⟨⟩
    exact hbegun

/-- The first request is delivered, and the bytes behind it begin the next one. -/
theorem Expecting.delivers {target : List TcpClientEvent} {request : Request}
    {requests : List Request} {rest data : Text} {client : TcpClient}
    (expecting : Expecting target (request :: requests) rest ⟨client, data⟩)
    (hle : request.bytes.length ≤ (client.currentMessage.held ++ data).length) :
    Expecting target requests rest
      ⟨{ client with
          currentMessage := .empty
          log := client.log ++ [.clientMessage request.bytes] },
        (client.currentMessage.held ++ data).drop request.bytes.length⟩ := by
  refine ⟨expecting.open_, ?_, ?_, fun next _ => next.begun_empty⟩
  · have hlog := expecting.log_eq
    rw [← hlog, List.append_assoc]
    rfl
  · have hbytes := expecting.bytes_eq
    have hstream : stream (request :: requests) = request.bytes ++ stream requests := rfl
    dsimp only at hbytes
    rw [← List.append_assoc, hstream] at hbytes
    have hrest := congrArg (List.drop request.bytes.length) hbytes
    rwa [List.drop_left, List.drop_append_of_le_length hle] at hrest

/-- One chunk: all that it completes is delivered as sent, or a request is missed. -/
theorem loop_cases {target : List TcpClientEvent} {requests : List Request} {chunks : List Text}
    {state : Receiving} (expecting : Expecting target requests chunks.flatten state)
    (hlength : state.data.length < 2 ^ 31) {fuel : Nat} (hfuel : state.data.length < fuel) :
    let arrived := state.client.currentMessage.held ++ state.data
    (∃ later client, loop (receiveTurn nulAfter) fuel state = .finished (true, client) ∧
      Expecting target later chunks.flatten ⟨client, []⟩ ∧
      (AllFramed (arrived :: chunks) 0 requests ↔
        AllFramed (client.currentMessage.held :: chunks) 0 later)) ∨
    (¬ AllFramed (arrived :: chunks) 0 requests ∧ ∀ result client,
      loop (receiveTurn nulAfter) fuel state = .finished (result, client) →
        Doomed target client) := by
  induction fuel generalizing state requests with
  | zero => exact absurd hfuel (Nat.not_lt_zero _)
  | succ fuel ih =>
      obtain ⟨client, data⟩ := state
      dsimp only at hlength hfuel ⊢
      rw [loop]
      by_cases hne : data = []
      · subst hne
        exact Or.inl ⟨requests, client, by simp [receiveTurn], expecting, by rw [List.append_nil]⟩
      have hpos := List.length_pos_iff.mpr hne
      have hbytes := expecting.bytes_eq
      dsimp only at hbytes
      cases requests with
      | nil =>
          have hnil := (List.append_eq_nil_iff.mp hbytes).2
          exact absurd (List.append_eq_nil_iff.mp hnil).1 hne
      | cons request requests =>
          have begun := expecting.begun request rfl
          have hstream : stream (request :: requests) = request.bytes ++ stream requests := rfl
          rw [← List.append_assoc] at hbytes
          have hbegins : client.currentMessage.held ++ data <+:
              request.bytes ++ stream requests :=
            ⟨chunks.flatten, hbytes⟩
          have hnul : '\x00' ∉ client.currentMessage.held ++ data := fun hmem =>
            nul_free_stream (request :: requests) (hbegins.subset hmem)
          cases @handled request ⟨client, data⟩ _ begun hne hlength hbegins hnul with
          | @waits info hlt hturn hbegun hheld =>
              have hrest := ih (expecting.waits hbegun hheld)
                (by dsimp only [List.length_nil]; omega) (by dsimp only [List.length_nil]; omega)
              simp only [hheld, List.append_nil] at hrest
              rw [hturn]
              exact hrest
          | delivers hle hframed hturn =>
              have hdrop : (client.currentMessage.held ++ data).drop request.bytes.length =
                  data.drop (request.bytes.length - client.currentMessage.held.length) := by
                rw [List.drop_append, List.drop_of_length_le begun.lt_bytes.le, List.nil_append]
              have hnext := expecting.delivers hle
              rw [hdrop] at hnext
              have hrest := ih hnext (by dsimp only; rw [List.length_drop]; omega) (by
                have hlt := begun.lt_bytes
                dsimp only at hlt ⊢
                rw [List.length_drop]
                omega)
              rw [hturn, allFramed_first hle hframed, hdrop]
              exact hrest
          | @misses failed hwindows hleaves hmissed =>
              refine Or.inr ⟨fun hall => ?_, fun result last hloop => ?_⟩
              · rw [AllFramed, Nat.zero_add] at hall
                exact hwindows _ (Chunks.prefix_window _ _ _) Chunks.window_first hall.1
              · have hdoomed : Doomed target failed :=
                  ⟨client.log, request, messages requests, expecting.log_eq.symm, hmissed⟩
                rcases hleaves with hstop | ⟨rest, hagain⟩
                · rw [hstop] at hloop
                  obtain ⟨_, rfl⟩ := Prod.mk.inj (Outcome.finished.inj hloop)
                  exact hdoomed
                · rw [hagain] at hloop
                  have hle := data_length_turn hagain
                  exact @Doomed.loop _ ⟨failed, rest⟩ hdoomed (by dsimp only at hle ⊢; omega)
                    _ _ _ hloop

theorem Doomed.receiveAll {target : List TcpClientEvent} {client last : TcpClient}
    (doomed : Doomed target client) {fuel : Nat} {chunks : List Text}
    (hlength : ∀ chunk ∈ chunks, chunk.length < 2 ^ 31)
    (hlast : receiveAll nulAfter fuel client chunks = .finished last) : Doomed target last := by
  induction chunks generalizing client with
  | nil =>
      obtain rfl := Outcome.finished.inj hlast
      exact doomed
  | cons chunk chunks ih =>
      have hrest : ∀ chunk ∈ chunks, chunk.length < 2 ^ 31 := fun next hnext =>
        hlength next (List.mem_cons_of_mem _ hnext)
      rw [WebServer.receiveAll] at hlast
      cases hresult : client.onReceive nulAfter fuel chunk with
      | outOfFuel => simp [hresult] at hlast
      | fault => simp [hresult] at hlast
      | finished result =>
          rw [hresult] at hlast
          refine ih ?_ hrest hlast
          unfold onReceive at hresult
          split at hresult
          · obtain rfl := Outcome.finished.inj hresult
            exact doomed
          · exact doomed.loop (hlength chunk List.mem_cons_self) hresult

/-- All the chunks: every request is delivered as sent, or one is missed. -/
theorem receiveAll_cases {target : List TcpClientEvent} {requests : List Request}
    {chunks : List Text} {client : TcpClient}
    (expecting : Expecting target requests chunks.flatten ⟨client, []⟩)
    (hlength : ∀ chunk ∈ chunks, chunk.length < 2 ^ 31) {fuel : Nat}
    (hfuel : ∀ chunk ∈ chunks, chunk.length < fuel) :
    (AllFramed (client.currentMessage.held :: chunks) 0 requests ∧
      ∃ last, receiveAll nulAfter fuel client chunks = .finished last ∧ last.log = target) ∨
    (¬ AllFramed (client.currentMessage.held :: chunks) 0 requests ∧
      ∀ last, receiveAll nulAfter fuel client chunks = .finished last → Doomed target last) := by
  induction chunks generalizing client requests with
  | nil =>
      have hbytes := expecting.bytes_eq
      simp only [List.flatten_nil, List.append_nil] at hbytes
      cases requests with
      | nil =>
          have hlog := expecting.log_eq
          exact Or.inl ⟨trivial, client, rfl, by simpa [messages] using hlog⟩
      | cons request requests =>
          have hlt := (expecting.begun request rfl).lt_bytes
          have hstream : stream (request :: requests) = request.bytes ++ stream requests := rfl
          dsimp only at hlt
          rw [hbytes, hstream, List.length_append] at hlt
          omega
  | cons chunk chunks ih =>
      have hfirst := hlength chunk List.mem_cons_self
      have hnext : Expecting target requests chunks.flatten ⟨client, chunk⟩ :=
        ⟨expecting.open_, expecting.log_eq, expecting.bytes_eq, expecting.begun⟩
      have hmerge : AllFramed (client.currentMessage.held :: chunk :: chunks) 0 requests ↔
          AllFramed ((client.currentMessage.held ++ chunk) :: chunks) 0 requests := by
        apply allFramed_merge
        intro request hrequest
        rw [Nat.zero_add]
        exact (expecting.begun request hrequest).lt_bytes
      have hopen : ¬ client.mFailed = true := by rw [expecting.open_]; decide
      rw [hmerge, receiveAll, onReceive, if_neg hopen]
      rcases loop_cases hnext hfirst (hfuel chunk List.mem_cons_self) with
        ⟨later, after, hloop, hlater, hsame⟩ | ⟨hnot, hdoomed⟩
      · rw [hsame, hloop]
        exact ih hlater (fun next hmem => hlength next (List.mem_cons_of_mem _ hmem))
          fun next hmem => hfuel next (List.mem_cons_of_mem _ hmem)
      · refine Or.inr ⟨hnot, fun last hlast => ?_⟩
        split at hlast
        · cases hlast
        · cases hlast
        · rename_i result failed hloop
          exact (hdoomed _ _ hloop).receiveAll
            (fun next hmem => hlength next (List.mem_cons_of_mem _ hmem)) hlast

/--
A new client is passed a stream of requests in chunks.  Its observer gets one
message for each request, in order and with the request's bytes, and nothing
else, exactly when every request is framed as it was sent by what has arrived
when its last byte has.
-/
theorem requests_delivered_iff {requests : List Request} {chunks : List Text}
    (hstream : chunks.flatten = stream requests)
    (hlength : ∀ chunk ∈ chunks, chunk.length < 2 ^ 31) {fuel : Nat}
    (hfuel : ∀ chunk ∈ chunks, chunk.length < fuel)
    (fresh : Fin MAX_INTERNAL_TX_COUNT → SendBuffer) :
    (∃ last, receiveAll nulAfter fuel (create fresh) chunks = .finished last ∧
      last.log = messages requests) ↔ AllFramed chunks 0 requests := by
  have expecting : Expecting (messages requests) requests chunks.flatten ⟨create fresh, []⟩ :=
    ⟨rfl, rfl, hstream, fun request _ => request.begun_empty⟩
  have hstart : AllFramed ([] :: chunks) 0 requests ↔ AllFramed chunks 0 requests := by
    cases chunks with
    | nil =>
        cases requests with
        | nil => exact Iff.rfl
        | cons request requests =>
            have hnil := (List.append_eq_nil_iff.mp hstream.symm).1
            have hlong := request.four_le_bytes
            rw [hnil] at hlong
            exact absurd hlong (by decide)
    | cons chunk chunks =>
        apply allFramed_merge
        intro request _
        have hlong := request.four_le_bytes
        rw [List.length_nil]
        omega
  rcases receiveAll_cases expecting hlength hfuel with ⟨hall, hdelivered⟩ | ⟨hnot, hdoomed⟩
  · exact ⟨fun _ => hstart.mp hall, fun _ => hdelivered⟩
  · constructor
    · rintro ⟨last, hlast, hlog⟩
      exact absurd hlog (hdoomed last hlast).log_ne
    · intro hall
      exact absurd (hstart.mpr hall) hnot

/-- A request without body. -/
def exampleGet : Request where
  header := "GET / HTTP/1.1\r\n\r\n".toList
  body := []
  header_end := by decide +kernel
  header_le := by decide
  nul_free := by decide
  not_encoded _ hfield := absurd (firstFit_isSome_of_hasField hfield) (by decide +kernel)
  announced := Or.inr
    ⟨rfl, fun _ hfield => absurd (firstFit_isSome_of_hasField hfield) (by decide +kernel)⟩

/-- A request with a body of two bytes. -/
def examplePost : Request where
  header := "POST / HTTP/1.1\r\nContent-Length: 2\r\n\r\n".toList
  body := "hi".toList
  header_end := by decide +kernel
  header_le := by decide
  nul_free := by decide +kernel
  not_encoded _ hfield := absurd (firstFit_isSome_of_hasField hfield) (by decide +kernel)
  announced := Or.inl ⟨[' '], ['2'], ⟨"POST / HTTP/1.1".toList, "Content-Length".toList,
    "\r\n".toList, by decide +kernel, rfl, List.all_eq_true.mp (by decide)⟩,
    fun _ hchar => List.mem_singleton.mp hchar, by decide, List.all_eq_true.mp (by decide),
    by decide⟩

theorem requests_delivered_iff_apart :
    ∃ last, receiveAll nulAfter 64 (create fun _ => ⟨[], 0, 0, false⟩)
        [exampleGet.bytes, examplePost.bytes] = .finished last ∧
      last.log = messages [exampleGet, examplePost] :=
  (@requests_delivered_iff [exampleGet, examplePost] [exampleGet.bytes, examplePost.bytes] rfl
    (by decide) 64 (by decide) _).mpr
    ⟨⟨by decide +kernel, by decide +kernel⟩, ⟨by decide +kernel, by decide +kernel⟩, trivial⟩

/-- In one chunk, the second request's length is taken for the first one's. -/
theorem pipelined_body_misframed :
    ∃ last, receiveAll nulAfter 64 (create fun _ => ⟨[], 0, 0, false⟩)
        [exampleGet.bytes ++ examplePost.bytes] = .finished last ∧
      last.log ≠ messages [exampleGet, examplePost] := by
  have hlog : ((receiveAll nulAfter 64 (create fun _ => ⟨[], 0, 0, false⟩)
      [exampleGet.bytes ++ examplePost.bytes]).result?.map TcpClient.log) =
      some [.clientMessage "GET / HTTP/1.1\r\n\r\nPO".toList,
        .clientMessage "ST / HTTP/1.1\r\nContent-Length: 2\r\n\r\nhi".toList] := by
    decide +kernel
  obtain ⟨last, hlast, hevents⟩ := Outcome.exists_of_map hlog
  exact ⟨last, hlast, by rw [hevents]; decide +kernel⟩

end Request

end DumaisLib.WebServer
