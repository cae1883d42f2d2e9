import DumaisLib.WebServer.Exchange
import Mathlib.Data.Prod.Lex

/-!
# What the peers receive

Every peer receives a beginning of the response to its own request, whatever
happens on the other connections, and can always receive the rest of it.
-/

namespace DumaisLib.WebServer

open DumaisLib.Utils Machine StreamReader WebServer

namespace HTTPResponse

theorem length_headerLine_le (name value after : Text) :
    (headerLine name value after).length ≤ name.length + value.length + after.length + 2 := by
  rw [headerLine]
  split
  · exact Nat.zero_le _
  · simp only [List.length_append]
    exact le_of_eq rfl

/-- A cookie adds one line to a response. -/
theorem length_message_setCookie {response : HTTPResponse} (hnew : response.mHeaderBuilt = false)
    (cookie : Text) :
    (response.setCookie cookie).message.length ≤ response.message.length + cookie.length + 14 := by
  have hline := length_headerLine_le "Set-Cookie: ".toList cookie []
  have hsize : "Set-Cookie: ".toList.length = 12 := rfl
  rw [message, message, setCookie, buildHeader, buildHeader]
  dsimp only
  rw [hnew, if_neg Bool.false_ne_true, if_neg Bool.false_ne_true]
  simp only [List.length_append, List.length_nil] at hline ⊢
  omega

theorem length_responseCodesString_le (code : HTTPResponseCode) :
    (responseCodesString code).length ≤ 40 := by
  cases code <;> decide

/-- How long a new response is, apart from its fields. -/
theorem length_message_le {response : HTTPResponse} (hnew : response.mHeaderBuilt = false) :
    response.message.length ≤ response.mAuthHeader.length + response.mContentType.length +
      response.mCookie.length + (toString response.mContent.length).toList.length +
        response.mContent.length + 300 := by
  have hcode := length_responseCodesString_le response.mResponseCode
  have hname : (if response.mAuthenticationHack then "X-WWW-Authenticate: "
      else "WWW-Authenticate: ").toList.length ≤ 20 := by
    split <;> decide
  have hauth := length_headerLine_le (if response.mAuthenticationHack then "X-WWW-Authenticate: "
    else "WWW-Authenticate: ").toList response.mAuthHeader []
  have htype := length_headerLine_le "Content-Type: ".toList response.mContentType
    "; charset=UTF-8".toList
  have hcookie := length_headerLine_le "Set-Cookie: ".toList response.mCookie []
  have htypeName : "Content-Type: ".toList.length = 14 := rfl
  have hcharset : "; charset=UTF-8".toList.length = 15 := rfl
  have hcookieName : "Set-Cookie: ".toList.length = 12 := rfl
  have hnone : ([] : Text).length = 0 := rfl
  rw [message, buildHeader, hnew, if_neg Bool.false_ne_true]
  dsimp only
  generalize headerLine _ response.mAuthHeader _ = authLine at hauth ⊢
  generalize headerLine _ response.mContentType _ = typeLine at htype ⊢
  generalize headerLine _ response.mCookie _ = cookieLine at hcookie ⊢
  have hversion : "HTTP/1.1 ".toList.length = 9 := rfl
  have hend : "\r\n".toList.length = 2 := rfl
  have hlength : "Content-Length: ".toList.length = 16 := rfl
  have hclose : "Connection: Close\r\n".toList.length = 19 := rfl
  have horigin : "Access-Control-Allow-Origin: *\r\n".toList.length = 32 := rfl
  generalize "HTTP/1.1 ".toList = version at hversion ⊢
  generalize "\r\n".toList = lineEnd at hend ⊢
  generalize "Content-Length: ".toList = lengthName at hlength ⊢
  generalize "Connection: Close\r\n".toList = close at hclose ⊢
  generalize "Access-Control-Allow-Origin: *\r\n".toList = origin at horigin ⊢
  simp only [List.length_append]
  omega

end HTTPResponse

namespace Exchange

/-! ## The answer to a message -/

/-- A response that the queue of a new client holds, and that its peer can read. -/
structure Deliverable (response : HTTPResponse) : Prop where
  isNew : response.mHeaderBuilt = false
  unbroken : response.Unbroken
  fits : response.message.length ≤ BUFSIZE * (MAX_INTERNAL_TX_COUNT - 2)

theorem lineFeed_not_mem {nonce : Text} (hnonce : Challenging.IsNonce nonce) : '\n' ∉ nonce :=
  fun hmem => absurd (hnonce.2 _ hmem) (by decide)

variable {computemd5 : Text → Text} {given : Surroundings → Prop} {call : MessageCall}
  {server : WebServer}

theorem Serving.cookie (serving : Serving server) (call : MessageCall) :
    '\n' ∉ call.cookie server ∧ (call.cookie server).length ≤ 28 := by
  unfold MessageCall.cookie
  split
  · rename_i hnames
    obtain ⟨hnonce, hlength⟩ :=
      serving.isNonce _ (Login.mem_of_mem_clearExpiredSessions hnames.2)
    refine ⟨fun hmem => (List.mem_append.mp hmem).elim (by decide) (lineFeed_not_mem hnonce), ?_⟩
    rw [List.length_append, hlength]
    decide
  · exact ⟨List.not_mem_nil, Nat.zero_le _⟩

theorem Presentable.withCookie {response : HTTPResponse} (presentable : Presentable response)
    {cookie : Text} (hplain : '\n' ∉ cookie) (hlength : cookie.length ≤ 28) :
    Deliverable (WebServer.withCookie cookie response) := by
  have hfits := presentable.fits
  unfold WebServer.withCookie
  split
  · have hmessage := HTTPResponse.length_message_setCookie presentable.isNew cookie
    exact ⟨presentable.isNew, ⟨presentable.unbroken.auth, presentable.unbroken.type,
      Search.unbroken_of_not_mem hplain⟩, by omega⟩
  · exact ⟨presentable.isNew, presentable.unbroken, by omega⟩

theorem deliverable_challenge {nonce : Text} (hnonce : Challenging.IsNonce nonce)
    (hlength : nonce.length = 20) (hack : Bool) : Deliverable (challengeResponse hack nonce) := by
  have htype : '\n' ∉ "application/json".toList := by decide
  refine ⟨rfl, ⟨Search.unbroken_of_not_mem fun hmem => ?_, Search.unbroken_of_not_mem htype,
    Search.unbroken_nil⟩, ?_⟩
  · rcases List.mem_append.mp hmem with hfront | hquote
    · rcases List.mem_append.mp hfront with hname | hmem
      · exact absurd hname (by decide)
      · exact lineFeed_not_mem hnonce hmem
    · exact absurd hquote (by decide)
  · have hmessage := HTTPResponse.length_message_le
      (show (challengeResponse hack nonce).mHeaderBuilt = false from rfl)
    have hheader : (challengeResponse hack nonce).mAuthHeader.length = 50 := by
      change ("Digest realm=\"dumais\",nonce=\"".toList ++ nonce ++ ['"']).length = 50
      rw [List.length_append, List.length_append, hlength]
      rfl
    have htypeLength : (challengeResponse hack nonce).mContentType.length = 16 := rfl
    have hcookie : (challengeResponse hack nonce).mCookie.length = 0 := rfl
    have hcontent : (challengeResponse hack nonce).mContent.length = 35 := rfl
    have hdigits : (toString 35).toList.length = 2 := by decide
    have hlimit : BUFSIZE * (MAX_INTERNAL_TX_COUNT - 2) = 4093952 := by decide
    rw [hheader, htypeLength, hcookie, hcontent, hdigits] at hmessage
    omega

theorem Serving.challengeNonce (serving : Serving server) (call : MessageCall) :
    Challenging.IsNonce (call.challengeNonce server) ∧ (call.challengeNonce server).length = 20 := by
  unfold MessageCall.challengeNonce
  split
  · rename_i hnames
    exact serving.isNonce _ (Login.mem_of_mem_clearExpiredSessions hnames.2)
  · exact ⟨Challenging.isNonce_generateNonce _, by simp [generateNonce]⟩

/-- Every message gets one answer, and the server goes on serving. -/
theorem Serving.run (computemd5 : Text → Text) (serving : Serving server)
    (answering : Answering call.outside) :
    Serving (call.run computemd5 server).2 ∧ ∃ response, Deliverable response ∧
      (call.run computemd5 server).1.filterMap Effect.answer? = [response] ∧
      .sendResponse response call.client ∈ (call.run computemd5 server).1 := by
  have hlive (nonce : Text) (hmem : nonce ∈ call.liveSessions server) :
      Challenging.IsNonce nonce ∧ nonce.length = 20 :=
    serving.isNonce nonce (Login.mem_of_mem_clearExpiredSessions hmem)
  cases hauthorized : call.isAuthorized computemd5 server with
  | true =>
      obtain ⟨response, hanswer, hpresentable⟩ := answering call.request
      obtain ⟨hplain, hlength⟩ := serving.cookie call
      have hhanded := MessageCall.run_handed hauthorized serving.listens
      rw [serving.sync, if_neg Bool.false_ne_true, Option.mem_def.mp hanswer] at hhanded
      rw [MessageCall.run_authorized hauthorized, hhanded]
      refine ⟨⟨serving.listens, serving.sync, hlive⟩, _,
        hpresentable.withCookie hplain hlength, rfl, ?_⟩
      exact List.mem_cons_of_mem _ (List.mem_singleton_self _)
  | false =>
      obtain ⟨mNonce, hrun⟩ := MessageCall.run_unauthorized hauthorized
      obtain ⟨hnonce, hlength⟩ := serving.challengeNonce call
      rw [MessageCall.run_refused hauthorized, hrun]
      refine ⟨⟨serving.listens, serving.sync, fun nonce hmem => ?_⟩, _,
        deliverable_challenge hnonce hlength _, rfl, List.mem_singleton_self _⟩
      rcases (AList.mem_insert _).mp hmem with rfl | hold
      · exact ⟨hnonce, hlength⟩
      · exact hlive nonce hold

/-! ## A connection -/

/-- The request is still arriving. -/
structure Waiting (request : Request) (connection : Connection) : Prop where
  open_ : connection.client.mFailed = false
  begun : request.Begun connection.client.currentMessage
  bytes_eq : connection.client.currentMessage.held ++ connection.arriving = request.bytes
  holding : ResponseStream.Holding [] connection.client
  answers_eq : connection.answers = []
  received_eq : connection.received = []

/-- The request has been answered, and what the peer has not received of it is queued. -/
structure Answered (isAnswer : HTTPResponse → Prop) (response : NewResponse)
    (connection : Connection) : Prop where
  deliverable : Deliverable response.val
  answers : isAnswer response.val
  arriving_eq : connection.arriving = []
  answers_eq : connection.answers = [response.val]
  holding : ResponseStream.Holding [response] connection.client
  stream : connection.received ++ ResponseStream.pending connection.client = response.message

/-- A connection waits, or has been answered. -/
def Served (isAnswer : HTTPResponse → Prop) (request : Request) (connection : Connection) : Prop :=
  Waiting request connection ∨ ∃ response, Answered isAnswer response connection

theorem Served.mono {isAnswer isAnswer' : HTTPResponse → Prop}
    (himplies : ∀ response, isAnswer response → isAnswer' response) {request : Request}
    {connection : Connection} (served : Served isAnswer request connection) :
    Served isAnswer' request connection := by
  rcases served with waiting | ⟨response, answered⟩
  · exact Or.inl waiting
  · exact Or.inr ⟨response, { answered with answers := himplies _ answered.answers }⟩

/-- Every connection waits for its request or has been answered. -/
structure Inv (computemd5 : Text → Text) (given : Surroundings → Prop) (requests : Nat → Request)
    (begun exchange : Exchange) : Prop where
  serving : Serving exchange.server
  reached : Reaches (step computemd5) (Allowed given) begun exchange
  connections : ∀ i, Served (Answers computemd5 given begun exchange (requests i) i) (requests i)
    (exchange.connections i)

/-! ### Receiving -/

section Receiving

variable {request : Request} {client : TcpClient} {chunk rest : Text}
  (hopen : client.mFailed = false) (begun : request.Begun client.currentMessage)
  (hbytes : client.currentMessage.held ++ (chunk ++ rest) = request.bytes)
  (hchunk : chunk ≠ []) (hlength : chunk.length ≤ READ_SIZE)
  (hframed : request.Framed request.bytes) {fuel : Nat} (hfuel : 2 ≤ fuel)

include hopen begun hbytes hchunk hlength hframed hfuel

/-- A chunk of the request is held, or completes the request. -/
theorem onReceive_cases :
    (∃ info, client.onReceive TcpClient.nulAfter fuel chunk =
        .finished (true, { client with currentMessage := info }) ∧
      request.Begun info ∧ info.held = client.currentMessage.held ++ chunk) ∨
    rest = [] ∧ client.onReceive TcpClient.nulAfter fuel chunk =
      .finished (true, { client with
        currentMessage := .empty
        log := client.log ++ [.clientMessage request.bytes] }) := by
  obtain ⟨fuel, rfl⟩ := Nat.exists_eq_add_of_le' hfuel
  have hread : READ_SIZE = 1024 := rfl
  have hbegins : client.currentMessage.held ++ chunk <+: request.bytes ++ [] :=
    ⟨rest, by rw [List.append_assoc, hbytes, List.append_nil]⟩
  have hnul : '\x00' ∉ client.currentMessage.held ++ chunk := by
    intro hmem
    have hmem' := hbegins.subset hmem
    rw [List.append_nil] at hmem'
    exact request.nul_free hmem'
  have hclosed : ¬ client.mFailed = true := by
    rw [hopen]
    exact Bool.false_ne_true
  have hshort : chunk.length < 2 ^ 31 := by omega
  rw [TcpClient.onReceive, if_neg hclosed, loop]
  have hstop (client : TcpClient) :
      TcpClient.receiveTurn TcpClient.nulAfter ⟨client, []⟩ = some (.stop (true, client)) := by
    simp [TcpClient.receiveTurn]
  cases @Request.handled request ⟨client, chunk⟩ [] begun hchunk hshort hbegins hnul with
  | @waits info hlt hturn hbegun hheld =>
      rw [hturn]
      refine Or.inl ⟨info, ?_, hbegun, hheld⟩
      dsimp only
      rw [loop, hstop]
  | delivers hle _ hturn =>
      have hall := congrArg List.length hbytes
      simp only [List.length_append] at hall hle
      have hrest : rest = [] := List.eq_nil_of_length_eq_zero (by omega)
      have hdrop : chunk.drop (request.bytes.length - client.currentMessage.held.length) = [] :=
        List.drop_eq_nil_of_le (by omega)
      dsimp only at hturn
      rw [hdrop] at hturn
      rw [hturn]
      refine Or.inr ⟨hrest, ?_⟩
      dsimp only
      rw [loop, hstop]
  | misses hwindow =>
      rw [List.append_nil] at hbegins
      exact absurd hframed (hwindow _ hbegins fun hle =>
        (hbegins.eq_of_length (Nat.le_antisymm hbegins.length_le hle)).symm)

end Receiving

variable {requests : Nat → Request} {begun exchange next : Exchange}

/-- An answer stays one in the steps that follow. -/
theorem Answers.step {request : Request} {i : Nat} {response : HTTPResponse}
    (answers : Answers computemd5 given begun exchange request i response) {event : Event}
    (hallowed : Allowed given exchange event) (hnext : step computemd5 exchange event = some next) :
    Answers computemd5 given begun next request i response := by
  obtain ⟨before, after, count, outside, hbefore, hgiven, hafter, hreaches, hsent⟩ := answers
  exact ⟨before, after, count, outside, hbefore, hgiven, hafter,
    hreaches.step hallowed hnext, hsent⟩

/-- A step on one connection leaves what the others have been answered. -/
theorem Inv.setConnection (inv : Inv computemd5 given requests begun exchange) {server : WebServer}
    {i : Nat} {connection : Connection} {event : Event} (hallowed : Allowed given exchange event)
    (hnext : Exchange.step computemd5 exchange event =
      some (setConnection { exchange with server := server } i connection))
    (serving : Serving server)
    (hserved : Served (Answers computemd5 given begun
      (Exchange.setConnection { exchange with server := server } i connection) (requests i) i)
      (requests i) connection) :
    Inv computemd5 given requests begun
      (Exchange.setConnection { exchange with server := server } i connection) := by
  refine ⟨serving, inv.reached.step hallowed hnext, fun j => ?_⟩
  by_cases hsame : j = i
  · subst hsame
    rw [connections_setConnection]
    exact hserved
  · rw [connections_setConnection_of_ne hsame]
    exact (inv.connections j).mono fun _ answers => answers.step hallowed hnext

theorem Waiting.arriving_ne_nil {request : Request} {connection : Connection}
    (waiting : Waiting request connection) : connection.arriving ≠ [] := by
  intro hnil
  have hbytes := waiting.bytes_eq
  have hlt := waiting.begun.lt_bytes
  rw [hnil, List.append_nil] at hbytes
  rw [hbytes] at hlt
  exact absurd hlt (Nat.lt_irrefl _)

/-- The response to a whole request is queued. -/
theorem Waiting.answer {request : Request} {connection : Connection}
    (waiting : Waiting request connection) {client : TcpClient}
    (hqueue : client.sendQueue = connection.client.sendQueue) {response : HTTPResponse}
    (deliverable : Deliverable response) {isAnswer : HTTPResponse → Prop}
    (answers : isAnswer response) :
    Served isAnswer request
      ({ connection with arriving := [], client := client }.answer [response]) := by
  let accepted : NewResponse := ⟨response, deliverable.isNew⟩
  have hholding : ResponseStream.Holding [] client := by
    obtain ⟨hsound, hempty, hblocked⟩ := waiting.holding
    rw [ResponseStream.Holding, ResponseStream.Sound, hqueue]
    exact ⟨hsound, hempty, hblocked⟩
  obtain ⟨hnext, -, hpending⟩ :=
    ResponseStream.accept_holding (show ResponseStream.Fits accepted from deliverable.fits) hholding
  have hnothing : ResponseStream.pending client = [] := by
    rw [ResponseStream.pending, SendQueue.pending, hholding.2.1 rfl, List.flatMap_nil]
  refine Or.inr ⟨accepted, deliverable, answers, rfl, ?_, hnext, ?_⟩
  · exact congrArg (· ++ [response]) waiting.answers_eq
  · change connection.received ++ ResponseStream.pending
      (ResponseStream.sender.accept client accepted) = accepted.message
    rw [hpending, hnothing, waiting.received_eq]
    rfl

/-- What a read does, by what the client makes of the chunk. -/
theorem step_receive (computemd5 : Text → Text) (outside : Surroundings) {i count : Nat}
    (hpos : 1 ≤ count) (hle : count ≤ READ_SIZE)
    (hchunk : (exchange.connections i).arriving.take count ≠ [])
    {accepted : Bool} {client : TcpClient} {events : List TcpClientEvent}
    (hreceive : (exchange.connections i).client.onReceive TcpClient.nulAfter (count + 1)
      ((exchange.connections i).arriving.take count) = .finished (accepted, client))
    (hlog : client.log = (exchange.connections i).client.log ++ events) :
    step computemd5 exchange (.receive i count outside) =
      some (setConnection
        { exchange with
          server := (react computemd5 outside (pointer i) events exchange.server).2 } i
        ({ exchange.connections i with
            arriving := (exchange.connections i).arriving.drop count
            client := client }.answer
          ((react computemd5 outside (pointer i) events exchange.server).1.filterMap
            Effect.answer?))) := by
  have henabled : ¬ (count < 1 ∨ READ_SIZE < count ∨
      (exchange.connections i).arriving.take count = []) := by
    rintro (hzero | hlarge | hnil)
    · omega
    · omega
    · exact hchunk hnil
  have hreported : client.log.drop (exchange.connections i).client.log.length = events := by
    rw [hlog, List.drop_left]
  rw [step]
  dsimp only
  rw [if_neg henabled, hreceive]
  dsimp only [Outcome.result?, Option.map_some]
  rw [hreported]

/-- A chunk of a request that is awaited can always be received. -/
theorem Inv.receive (inv : Inv computemd5 given requests begun exchange) {i count : Nat}
    (hframed : (requests i).Framed (requests i).bytes)
    (waiting : Waiting (requests i) (exchange.connections i)) (hpos : 1 ≤ count)
    (hle : count ≤ READ_SIZE) {outside : Surroundings} (hgiven : given outside)
    (answering : Answering outside) :
    ∃ next, step computemd5 exchange (.receive i count outside) = some next ∧
      Inv computemd5 given requests begun next ∧
      (next.connections i).arriving = (exchange.connections i).arriving.drop count ∧
      ∀ j ≠ i, next.connections j = exchange.connections j := by
  have hchunk : (exchange.connections i).arriving.take count ≠ [] := by
    rw [Ne, List.take_eq_nil_iff, not_or]
    exact ⟨Nat.ne_of_gt hpos, waiting.arriving_ne_nil⟩
  have hbytes : (exchange.connections i).client.currentMessage.held ++
      ((exchange.connections i).arriving.take count ++
        (exchange.connections i).arriving.drop count) = (requests i).bytes := by
    rw [List.take_append_drop]
    exact waiting.bytes_eq
  have hshort : ((exchange.connections i).arriving.take count).length ≤ READ_SIZE :=
    (List.length_take_le _ _).trans hle
  have hallowed : Allowed given exchange (.receive i count outside) := hgiven
  rcases onReceive_cases waiting.open_ waiting.begun hbytes hchunk hshort hframed
    (show 2 ≤ count + 1 by omega) with ⟨info, hreceive, hbegun, hheld⟩ | ⟨hrest, hreceive⟩
  · have hnext := step_receive computemd5 outside hpos hle hchunk hreceive (List.append_nil _).symm
    refine ⟨_, hnext, inv.setConnection hallowed hnext inv.serving (Or.inl ?_), ?_, ?_⟩
    · refine ⟨waiting.open_, hbegun, ?_, waiting.holding, ?_, waiting.received_eq⟩
      · change info.held ++ (exchange.connections i).arriving.drop count = _
        rw [hheld, List.append_assoc]
        exact hbytes
      · exact (List.append_nil _).trans waiting.answers_eq
    · rw [connections_setConnection]
      rfl
    · exact fun j hne => connections_setConnection_of_ne hne _ _
  · let call : MessageCall := ⟨pointer i, (requests i).bytes, outside⟩
    obtain ⟨hserving, response, hdeliverable, hanswer, hsent⟩ :=
      @Serving.run call exchange.server computemd5 inv.serving answering
    have hreact : react computemd5 outside (pointer i) [.clientMessage (requests i).bytes]
        exchange.server = ((call.run computemd5 exchange.server).1 ++ [],
          (call.run computemd5 exchange.server).2) := rfl
    have hnext := step_receive computemd5 outside hpos hle hchunk hreceive rfl
    rw [hreact, List.append_nil, hanswer, hrest] at hnext
    have hqueue : { (exchange.connections i).client with
        currentMessage := .empty
        log := (exchange.connections i).client.log ++
          [.clientMessage (requests i).bytes] : TcpClient }.sendQueue =
            (exchange.connections i).client.sendQueue := rfl
    refine ⟨_, hnext, inv.setConnection hallowed hnext hserving
      (waiting.answer hqueue hdeliverable
        ⟨exchange, _, count, outside, inv.reached, hgiven, hnext, .start, hsent⟩), ?_, ?_⟩
    · rw [connections_setConnection, hrest]
      rfl
    · exact fun j hne => connections_setConnection_of_ne hne _ _

/-! ### Sending -/

/-- Offering changes the queue alone. -/
theorem getTxData_frame (client : TcpClient) :
    client.getTxData.2.mFailed = client.mFailed ∧
      client.getTxData.2.currentMessage = client.currentMessage := by
  cases hcurrent : client.currentSendBuffer with
  | some current => simp [TcpClient.getTxData, hcurrent]
  | none =>
      simp only [TcpClient.getTxData, hcurrent, if_true]
      generalize client.txList.get = fetched
      obtain ⟨sendBuffer, txList⟩ := fetched
      cases sendBuffer <;> simp

theorem Waiting.send {request : Request} {connection next : Connection} {count : Nat}
    (waiting : Waiting request connection) (hnext : connection.send count = some next) :
    Waiting request next := by
  obtain ⟨hholding, hfront, hpending⟩ :=
    (ResponseStream.holding_drains []).offer connection.client waiting.holding
  have hnothing : ResponseStream.pending connection.client = [] := by
    rw [ResponseStream.pending, SendQueue.pending, waiting.holding.2.1 rfl, List.flatMap_nil]
  have hoffer : connection.client.getTxData.1.1 = [] := by
    have hbegins := (ResponseStream.holding_drains []).front_begins _ hholding
    rw [hpending, hnothing, ← hfront] at hbegins
    exact List.prefix_nil.mp hbegins
  have hsize := connection.client.getTxData_eq.2.2 waiting.holding.1
  rw [hoffer, List.length_nil] at hsize
  rw [Connection.send] at hnext
  rw [hsize, hoffer] at hnext
  split at hnext
  · cases hnext
  · obtain rfl : count = 0 := by omega
    obtain rfl := Option.some.inj hnext
    obtain ⟨hfailed, hmessage⟩ := getTxData_frame connection.client
    rw [if_pos rfl]
    constructor
    · exact hfailed.trans waiting.open_
    · exact hmessage ▸ waiting.begun
    · exact hmessage ▸ waiting.bytes_eq
    · exact hholding
    · exact waiting.answers_eq
    · exact (List.append_nil _).trans waiting.received_eq

/-- What the socket takes goes from the queue to the peer. -/
theorem Answered.send {isAnswer : HTTPResponse → Prop} {response : NewResponse}
    {connection next : Connection} {count : Nat} (answered : Answered isAnswer response connection)
    (hnext : connection.send count = some next) :
    Answered isAnswer response next ∧
      ResponseStream.pending next.client = (ResponseStream.pending connection.client).drop count := by
  have hdrains := ResponseStream.holding_drains [response]
  obtain ⟨hholding, hfront, hpending⟩ := hdrains.offer connection.client answered.holding
  have hsize := connection.client.getTxData_eq.2.2 answered.holding.1
  have hstream := answered.stream
  rw [Connection.send] at hnext
  split at hnext
  · cases hnext
  · rename_i hle
    rw [hsize, not_lt] at hle
    obtain rfl := Option.some.inj hnext
    by_cases hzero : count = 0
    · subst hzero
      rw [if_pos rfl]
      refine ⟨⟨answered.deliverable, answered.answers, answered.arriving_eq, answered.answers_eq,
        hholding, ?_⟩, hpending⟩
      dsimp only
      rw [List.take_zero, List.append_nil]
      exact (congrArg (connection.received ++ ·) hpending).trans hstream
    · rw [if_neg hzero]
      have hle' : count ≤ (ResponseStream.front connection.client.getTxData.2).length :=
        hle.trans_eq (congrArg List.length hfront)
      obtain ⟨hholding', -, hpending'⟩ :=
        hdrains.sent _ count hholding (Nat.pos_of_ne_zero hzero) hle'
      have hdrop : ResponseStream.pending (connection.client.getTxData.2.onDataSent count) =
          (ResponseStream.pending connection.client).drop count :=
        hpending'.trans (congrArg (List.drop count) hpending)
      have htake : connection.client.getTxData.1.1.take count =
          (ResponseStream.pending connection.client).take count := by
        obtain ⟨behind, hbehind⟩ := hdrains.front_begins _ hholding
        have hsplit : connection.client.getTxData.1.1 ++ behind =
            ResponseStream.pending connection.client :=
          (congrArg (· ++ behind) hfront).trans (hbehind.trans hpending)
        rw [← hsplit, List.take_append_of_le_length hle]
      refine ⟨⟨answered.deliverable, answered.answers, answered.arriving_eq, answered.answers_eq,
        hholding', ?_⟩, hdrop⟩
      dsimp only
      rw [hdrop, htake, List.append_assoc, List.take_append_drop]
      exact hstream

/-- As long as something is queued, some of it can be sent. -/
theorem Answered.send_some {isAnswer : HTTPResponse → Prop} {response : NewResponse}
    {connection : Connection} (answered : Answered isAnswer response connection)
    (hleft : ResponseStream.pending connection.client ≠ []) :
    ∃ count next, 1 ≤ count ∧ connection.send count = some next := by
  obtain ⟨hsound, -, hblocked⟩ := answered.holding
  have hsize := connection.client.getTxData_eq.2.2 hsound
  have hoffer : connection.client.getTxData.1.1 ≠ [] := by
    intro hnone
    rw [connection.client.getTxData_eq.1] at hnone
    exact hleft ((hblocked (List.cons_ne_nil _ _)).idle hsound.wellFormed hnone).1
  refine ⟨connection.client.getTxData.1.2, _, ?_, if_neg (Nat.lt_irrefl _)⟩
  rw [hsize]
  exact List.length_pos_iff.mpr hoffer

/-! ## Reading a response -/

theorem reads_response {response : HTTPResponse} (deliverable : Deliverable response) :
    HTTPResponse.responseReader.Reads response.message response.reading :=
  HTTPResponse.reads_message deliverable.isNew deliverable.unbroken

theorem complete_response {response : HTTPResponse} (deliverable : Deliverable response) :
    HTTPResponse.responseReader.complete response.message = [response.reading] := by
  have hread := reads_response deliverable []
  have hnil : HTTPResponse.responseReader.complete [] = [] := by decide +kernel
  rw [List.append_nil] at hread
  rw [HTTPResponse.responseReader.complete_of_some hread, hnil]

/-- Of a part of the response nothing is read. -/
theorem complete_part {response : HTTPResponse} (deliverable : Deliverable response)
    {received : Text} (hpart : received <+: response.message) (hne : received ≠ response.message) :
    HTTPResponse.responseReader.complete received = [] := by
  rw [← List.append_nil response.message] at hpart
  rcases (reads_response deliverable).read_beginning hpart with
    hnone | ⟨behind, hsplit, hbehind, -⟩
  · exact HTTPResponse.responseReader.complete_of_none hnone
  · rw [List.prefix_nil.mp hbehind, List.append_nil] at hsplit
    exact absurd hsplit hne

/-! ## Runs -/

theorem receive_enabled {i count : Nat} {outside : Surroundings}
    (hnext : step computemd5 exchange (.receive i count outside) = some next) :
    1 ≤ count ∧ count ≤ READ_SIZE ∧ (exchange.connections i).arriving ≠ [] := by
  unfold step at hnext
  dsimp only at hnext
  split at hnext
  · cases hnext
  · rename_i henabled
    obtain ⟨hpos, hle, hchunk⟩ := not_or.mp henabled |>.imp_right not_or.mp
    refine ⟨not_lt.mp hpos, not_lt.mp hle, fun hnil => hchunk ?_⟩
    rw [hnil, List.take_nil]

theorem Inv.send (inv : Inv computemd5 given requests begun exchange) {i count : Nat}
    (hnext : step computemd5 exchange (.send i count) = some next) :
    Inv computemd5 given requests begun next := by
  obtain ⟨connection, hsend, rfl⟩ := Option.map_eq_some_iff.mp hnext
  have hallowed : Allowed given exchange (.send i count) := trivial
  refine inv.setConnection hallowed hnext inv.serving ?_
  rcases inv.connections i with waiting | ⟨response, answered⟩
  · exact Or.inl (waiting.send hsend)
  · exact Served.mono (fun _ answers => answers.step hallowed hnext)
      (Or.inr ⟨response, (answered.send hsend).1⟩)

theorem Inv.step (inv : Inv computemd5 given requests begun exchange)
    (hframed : ∀ i, (requests i).Framed (requests i).bytes)
    (hanswering : ∀ outside, given outside → Answering outside) {event : Event}
    (hallowed : Allowed given exchange event) (hnext : step computemd5 exchange event = some next) :
    Inv computemd5 given requests begun next := by
  cases event with
  | receive i count outside =>
      obtain ⟨hpos, hle, hne⟩ := receive_enabled hnext
      rcases inv.connections i with waiting | ⟨response, answered⟩
      · obtain ⟨next', hnext', inv', -⟩ := inv.receive (hframed i) waiting hpos hle hallowed
          (hanswering outside hallowed)
        obtain rfl := Option.some.inj (hnext.symm.trans hnext')
        exact inv'
      · exact absurd answered.arriving_eq hne
  | send i count => exact inv.send hnext

theorem start_inv {server : WebServer} (serving : Serving server)
    (fresh : Fin MAX_INTERNAL_TX_COUNT → SendBuffer) (requests : Nat → Request) :
    Inv computemd5 given requests (start server fresh requests) (start server fresh requests) := by
  obtain ⟨hsound, hbuffers⟩ := ResponseStream.create_sound fresh
  refine ⟨serving, .start, fun i => Or.inl ?_⟩
  constructor
  · rfl
  · exact (requests i).begun_empty
  · rfl
  · exact ⟨hsound, fun _ => hbuffers, fun hne => absurd rfl hne⟩
  · rfl
  · rfl

theorem Inv.of_reaches {server : WebServer} (serving : Serving server)
    {fresh : Fin MAX_INTERNAL_TX_COUNT → SendBuffer}
    (hframed : ∀ i, (requests i).Framed (requests i).bytes)
    (hanswering : ∀ outside, given outside → Answering outside)
    (hreaches : Reaches (Exchange.step computemd5) (Allowed given) (start server fresh requests)
      exchange) :
    Inv computemd5 given requests (start server fresh requests) exchange :=
  hreaches.invariant (start_inv serving fresh requests) fun _ _ _ inv hallowed hnext =>
    inv.step hframed hanswering hallowed hnext

/-- What a peer has received in the run, of answers of the kind. -/
def Receives (isAnswer : HTTPResponse → Prop) (connection : Connection) : Prop :=
  (connection.answers = [] ∧ connection.received = []) ∨
    ∃ response, connection.answers = [response] ∧ isAnswer response ∧
      connection.arriving = [] ∧ connection.received <+: response.message ∧
      HTTPResponse.responseReader.complete connection.received =
        if connection.received = response.message then [response.reading] else []

theorem Served.receives {isAnswer : HTTPResponse → Prop} {request : Request}
    {connection : Connection} (served : Served isAnswer request connection) :
    Receives isAnswer connection := by
  rcases served with waiting | ⟨response, answered⟩
  · exact Or.inl ⟨waiting.answers_eq, waiting.received_eq⟩
  · have hpart : connection.received <+: response.val.message := ⟨_, answered.stream⟩
    refine Or.inr ⟨response.val, answered.answers_eq, answered.answers, answered.arriving_eq,
      hpart, ?_⟩
    split
    · rename_i hwhole
      rw [hwhole, complete_response answered.deliverable]
    · rename_i hne
      exact complete_part answered.deliverable hpart hne

/--
In every run every peer has received a beginning of one answer, which the server
has given in the run to the peer's own request, and nothing before the request
has arrived; it reads the content of the answer once it has received all of it.
-/
theorem peers_receive_answers (computemd5 : Text → Text) {server : WebServer}
    (serving : Serving server) (fresh : Fin MAX_INTERNAL_TX_COUNT → SendBuffer)
    {requests : Nat → Request} (hframed : ∀ i, (requests i).Framed (requests i).bytes)
    {given : Surroundings → Prop} (hanswering : ∀ outside, given outside → Answering outside)
    {exchange : Exchange}
    (hreaches : Reaches (step computemd5) (Allowed given) (start server fresh requests) exchange) (i : Nat) :
    Receives (Answers computemd5 given (start server fresh requests) exchange (requests i) i)
      (exchange.connections i) :=
  ((Inv.of_reaches serving hframed hanswering hreaches).connections i).receives

/-- A listener that says hello to every request. -/
def exampleOutside : Surroundings where
  time := 100
  passedOver _ := false
  rand _ := 0
  laterTime := 100
  answer _ := some (HTTPResponse.buildBufferedResponse .OK "hello".toList "text/plain".toList [])

theorem exampleOutside_answering (outside : Surroundings) (hgiven : outside = exampleOutside) :
    Answering outside := by
  subst hgiven
  exact fun _ => ⟨_, rfl, rfl, ⟨Search.unbroken_nil, Search.unbroken_of_not_mem (by decide),
    Search.unbroken_nil⟩, by decide +kernel⟩

theorem exampleServer_serving : Serving Issuing.exampleServer where
  listens := rfl
  sync := rfl
  isNonce nonce hmem := absurd hmem (AList.notMem_empty nonce)

/-- Two requests, one of them with a body. -/
def exampleRequests (i : Nat) : Request :=
  if i = 0 then Request.exampleGet else Request.examplePost

theorem exampleRequests_framed (i : Nat) :
    (exampleRequests i).Framed (exampleRequests i).bytes := by
  unfold exampleRequests
  split
  · exact ⟨by decide +kernel, by decide +kernel⟩
  · exact ⟨by decide +kernel, by decide +kernel⟩

def exampleStart : Exchange :=
  start Issuing.exampleServer (fun _ => ⟨[], 0, 0, false⟩) exampleRequests

def exampleEvents : List Event :=
  [.receive 0 3 exampleOutside, .receive 1 1024 exampleOutside, .send 1 40,
    .receive 0 1024 exampleOutside, .send 0 20, .send 1 0]

/-- Two requests and their answers, of which some has gone out. -/
theorem peers_receive_answers_hello :
    ∃ exchange, runAll (step id) exampleStart exampleEvents = some exchange ∧
      (exchange.connections 1).received.length = 40 ∧
      Receives (Answers id (· = exampleOutside) exampleStart exchange (exampleRequests 1) 1)
        (exchange.connections 1) := by
  have hrun : ((runAll (step id) exampleStart exampleEvents).any fun exchange =>
      (exchange.connections 1).received.length = 40) = true := by
    decide +kernel
  obtain ⟨exchange, hlast, hlength⟩ := (Option.any_eq_true _ _).mp hrun
  have hreaches : Reaches (step id) (Allowed (· = exampleOutside)) exampleStart exchange := by
    refine Reaches.start.runAll (fun _ event hevent => ?_) hlast
    simp only [exampleEvents, List.mem_cons, List.not_mem_nil, or_false] at hevent
    rcases hevent with rfl | rfl | rfl | rfl | rfl | rfl
    · rfl
    · rfl
    · trivial
    · rfl
    · trivial
    · trivial
  refine ⟨exchange, hlast, of_decide_eq_true hlength, ?_⟩
  exact peers_receive_answers id exampleServer_serving _ exampleRequests_framed
    exampleOutside_answering hreaches 1

/-! ## Completion -/

/-- The event is one of the connection, with the given surroundings. -/
def Event.Concerns (i : Nat) (outside : Surroundings) : Event → Prop
  | .receive j _ given => j = i ∧ given = outside
  | .send j _ => j = i

/-- What has still to arrive, and what has still to be sent. -/
def left (i : Nat) (exchange : Exchange) : Nat ×ₗ Nat :=
  toLex ((exchange.connections i).arriving.length,
    (ResponseStream.pending (exchange.connections i).client).length)

/-- The invariant, with the other connections as they were at some moment of the run. -/
structure Going (computemd5 : Text → Text) (given : Surroundings → Prop) (requests : Nat → Request)
    (i : Nat) (begun midway exchange : Exchange) : Prop where
  inv : Inv computemd5 given requests begun exchange
  others : ∀ j ≠ i, exchange.connections j = midway.connections j

/-- The peer has read an answer of the kind, and nothing else. -/
def Done (isAnswer : HTTPResponse → Prop) (connection : Connection) : Prop :=
  ∃ response, connection.answers = [response] ∧ isAnswer response ∧
    HTTPResponse.responseReader.complete connection.received = [response.reading]

theorem Going.progress {midway : Exchange} {i : Nat}
    (going : Going computemd5 given requests i begun midway exchange)
    (hframed : ∀ i, (requests i).Framed (requests i).bytes) {outside : Surroundings}
    (hgiven : given outside) (answering : Answering outside) :
    Done (Answers computemd5 given begun exchange (requests i) i) (exchange.connections i) ∨
      ∃ event next, Event.Concerns i outside event ∧ step computemd5 exchange event = some next ∧
        Going computemd5 given requests i begun midway next ∧ left i next < left i exchange := by
  rcases going.inv.connections i with waiting | ⟨response, answered⟩
  · obtain ⟨next, hnext, hinv, harriving, hothers⟩ :=
      going.inv.receive (hframed i) waiting (le_refl 1) (by decide) hgiven answering
    refine Or.inr ⟨.receive i 1 outside, next, ⟨rfl, rfl⟩, hnext, ⟨hinv, fun j hne =>
      (hothers j hne).trans (going.others j hne)⟩, ?_⟩
    refine Prod.Lex.toLex_lt_toLex.mpr (Or.inl ?_)
    have hpos := List.length_pos_iff.mpr waiting.arriving_ne_nil
    rw [harriving, List.length_drop]
    omega
  · by_cases hdone : ResponseStream.pending (exchange.connections i).client = []
    · have hall := answered.stream
      rw [hdone, List.append_nil] at hall
      refine Or.inl ⟨response.val, answered.answers_eq, answered.answers, ?_⟩
      rw [hall]
      exact complete_response answered.deliverable
    · obtain ⟨count, connection, hpos, hsend⟩ := answered.send_some hdone
      obtain ⟨answered', hpending⟩ := answered.send hsend
      have hnext : step computemd5 exchange (.send i count) =
          some (exchange.setConnection i connection) := by
        rw [step, hsend]
        rfl
      refine Or.inr ⟨.send i count, _, rfl, hnext, ⟨going.inv.send hnext, fun j hne => ?_⟩, ?_⟩
      · exact (connections_setConnection_of_ne hne _ _).trans (going.others j hne)
      · refine Prod.Lex.toLex_lt_toLex.mpr (Or.inr ?_)
        rw [connections_setConnection, answered'.arriving_eq, answered.arriving_eq, hpending,
          List.length_drop]
        have hleft := List.length_pos_iff.mpr hdone
        exact ⟨rfl, by omega⟩

/--
From every state of every run, the request of a connection can go on to arrive
and its answer to go out, without anything on the other connections, until the
peer has read exactly one answer.
-/
theorem exchange_completes (computemd5 : Text → Text) {server : WebServer}
    (serving : Serving server) (fresh : Fin MAX_INTERNAL_TX_COUNT → SendBuffer)
    {requests : Nat → Request} (hframed : ∀ i, (requests i).Framed (requests i).bytes)
    {given : Surroundings → Prop} (hanswering : ∀ outside, given outside → Answering outside)
    {exchange : Exchange}
    (hreaches : Reaches (step computemd5) (Allowed given) (start server fresh requests) exchange) (i : Nat)
    {outside : Surroundings} (hgiven : given outside) :
    ∃ events last, (∀ event ∈ events, Event.Concerns i outside event) ∧
      runAll (step computemd5) exchange events = some last ∧
      (∀ j ≠ i, last.connections j = exchange.connections j) ∧
      Done (Answers computemd5 given (start server fresh requests) last (requests i) i)
        (last.connections i) := by
  have inv := Inv.of_reaches serving hframed hanswering hreaches
  obtain ⟨events, last, hevents, hrun, hgoing, hdone⟩ :=
    exists_runAll (left i) (fun state going =>
      Going.progress going hframed hgiven (hanswering outside hgiven))
      (show Going computemd5 given requests i (start server fresh requests) exchange exchange from
        ⟨inv, fun _ _ => rfl⟩)
  exact ⟨events, last, hevents, hrun, hgoing.others, hdone⟩

/-- From the start the second peer can be answered alone. -/
theorem exchange_completes_hello :
    ∃ events last, (∀ event ∈ events, Event.Concerns 1 exampleOutside event) ∧
      runAll (step id) exampleStart events = some last ∧
      (∀ j ≠ 1, last.connections j = exampleStart.connections j) ∧
      Done (Answers id (· = exampleOutside) exampleStart last (exampleRequests 1) 1)
        (last.connections 1) :=
  exchange_completes id exampleServer_serving _ exampleRequests_framed
    exampleOutside_answering .start 1 rfl

end Exchange

end DumaisLib.WebServer
