import DumaisLib.Lib.Machine
import DumaisLib.WebServer.WebServer

/-!
# Who reaches the listener

A request is let in by a correct digest or by a session cookie.  The table in
which the cookie is looked up already holds the nonces of the challenges, so a
client that has merely been challenged can come back with its nonce as a cookie.
-/

namespace DumaisLib.WebServer

open Machine WebServer

/-- A call of `onClientMessage`. -/
structure MessageCall where
  client : TcpClientPointer
  buffer : Text
  outside : Surroundings

namespace MessageCall

def request (call : MessageCall) : HTTPRequest :=
  .ofMessage call.buffer

def auth (call : MessageCall) : HTTPAuth :=
  call.request.getAuthorization

/-- The value of the session cookie, empty when there is none. -/
def sessionCookie (call : MessageCall) : Text :=
  call.request.getCookie "session".toList

/-- The sessions against which the request is checked. -/
def liveSessions (call : MessageCall) (server : WebServer) : Sessions :=
  clearExpiredSessions call.outside.time call.outside.passedOver server.mSessions

/-- The request carries the digest of a user's password for the nonce of a session. -/
def correctDigest (computemd5 : Text → Text) (call : MessageCall) (server : WebServer) : Bool :=
  call.auth.nonce ∈ call.liveSessions server &&
    match server.mPasswords.lookup call.auth.username with
    | none => false
    | some password => expectedResponse computemd5 password call.auth = call.auth.response

/-- What the call does. -/
def run (computemd5 : Text → Text) (call : MessageCall) (server : WebServer) :
    List Effect × WebServer :=
  server.onClientMessage computemd5 call.outside call.client call.buffer

/-- The outcome of the check of the request. -/
def isAuthorized (computemd5 : Text → Text) (call : MessageCall) (server : WebServer) : Bool :=
  validateAuthentication computemd5 { server with mSessions := call.liveSessions server }
    call.request call.auth

/-- The request names a live session in its authorization. -/
def NamesSession (call : MessageCall) (server : WebServer) : Prop :=
  call.auth.nonce ≠ [] ∧ call.auth.nonce ∈ call.liveSessions server

instance (call : MessageCall) (server : WebServer) : Decidable (call.NamesSession server) :=
  inferInstanceAs (Decidable (_ ∧ _))

/-- The nonce with which a request that is refused is challenged. -/
def challengeNonce (call : MessageCall) (server : WebServer) : Text :=
  if call.NamesSession server then call.auth.nonce else generateNonce call.outside.rand

/-- The expiry of the session of a challenge. -/
def expires (call : MessageCall) (server : WebServer) : Nat :=
  ((call.outside.laterTime + server.mSessionExpires) % 2 ^ 32).toNat

variable {computemd5 : Text → Text} {call : MessageCall} {server : WebServer}

theorem run_authorized (hauthorized : call.isAuthorized computemd5 server = true) :
    (call.run computemd5 server).2 = { server with mSessions := call.liveSessions server } := by
  unfold run onClientMessage
  dsimp only
  split
  · split
    · split <;> rfl
    · rfl
  · rename_i hrefused
    exact absurd hauthorized hrefused

theorem run_unauthorized (hrefused : call.isAuthorized computemd5 server = false) :
    ∃ mNonce, (call.run computemd5 server).2 =
      { server with
        mSessions := (call.liveSessions server).insert (call.challengeNonce server)
          ⟨call.expires server, mNonce⟩ } := by
  have hcheck : ¬ call.isAuthorized computemd5 server = true := by
    rw [hrefused]
    exact Bool.false_ne_true
  have hrun : (call.run computemd5 server).2 =
      (challenge call.outside call.client call.request call.auth
        { server with mSessions := call.liveSessions server }).2 := by
    exact congrArg Prod.snd (if_neg hcheck)
  rw [hrun, challengeNonce, challenge]
  dsimp only
  by_cases hnil : call.auth.nonce ≠ []
  · rw [if_pos hnil]
    cases hfound : (call.liveSessions server).lookup call.auth.nonce with
    | none =>
        have hnew : ¬ call.NamesSession server := fun hnames =>
          AList.lookup_eq_none.mp hfound hnames.2
        rw [if_neg hnew]
        exact ⟨_, rfl⟩
    | some session =>
        have hnames : call.NamesSession server :=
          ⟨hnil, AList.lookup_isSome.mp (by rw [hfound]; rfl)⟩
        rw [if_pos hnames]
        exact ⟨_, rfl⟩
  · have hnew : ¬ call.NamesSession server := fun hnames => hnil hnames.1
    rw [if_neg hnil, if_neg hnew]
    exact ⟨_, rfl⟩

end MessageCall

/-- The effect hands a request to the listener. -/
def Effect.isRequest : Effect → Bool
  | .processHTTPRequest _ => true
  | .processHTTPRequestAsync _ _ => true
  | .sendResponse _ _ => false

/-- The server, and the nonces and clients of the correct digests presented so far. -/
structure Login where
  server : WebServer
  digests : List (Text × TcpClientPointer)

namespace Login

/-- One more message. -/
def step (computemd5 : Text → Text) (login : Login) (call : MessageCall) :
    List Effect × Login :=
  let (effects, server) := call.run computemd5 login.server
  let digests :=
    if call.correctDigest computemd5 login.server then
      (call.auth.nonce, call.client) :: login.digests
    else login.digests
  (effects, ⟨server, digests⟩)

/-- The session cookie names a nonce for which a correct digest was presented. -/
def CookieConfirmed (login : Login) (call : MessageCall) : Prop :=
  call.sessionCookie ≠ [] ∧ call.sessionCookie ∈ login.digests.map Prod.fst

/-- The client, which is one connection (a `TcpClient`), has presented a correct digest before. -/
def ClientConfirmed (login : Login) (call : MessageCall) : Prop :=
  call.client ∈ login.digests.map Prod.snd

/--
If the request is handed to the listener, then it carries a correct digest or a
cookie for which one was presented, and its client has presented one.
-/
def Justified (computemd5 : Text → Text) (login : Login) (call : MessageCall) : Prop :=
  (call.run computemd5 login.server).1.any Effect.isRequest = true →
    (call.correctDigest computemd5 login.server = true ∨ login.CookieConfirmed call) ∧
      (call.correctDigest computemd5 login.server = true ∨ login.ClientConfirmed call)

/--
With a listener set and without a correct digest, the request brings as its
session cookie the nonce of a live session that was never confirmed, or not by
this client.
-/
def Unconfirmed (computemd5 : Text → Text) (login : Login) (call : MessageCall) : Prop :=
  login.server.hasListener = true ∧
    call.sessionCookie ∈ call.liveSessions login.server ∧
    call.correctDigest computemd5 login.server = false ∧
    ¬ (login.CookieConfirmed call ∧ login.ClientConfirmed call)

instance (login : Login) (call : MessageCall) : Decidable (login.CookieConfirmed call) :=
  inferInstanceAs (Decidable (_ ∧ _))

instance (login : Login) (call : MessageCall) : Decidable (login.ClientConfirmed call) :=
  inferInstanceAs (Decidable (_ ∈ _))

instance (computemd5 : Text → Text) (login : Login) (call : MessageCall) :
    Decidable (login.Justified computemd5 call) :=
  inferInstanceAs (Decidable (_ → _))

instance (computemd5 : Text → Text) (login : Login) (call : MessageCall) :
    Decidable (login.Unconfirmed computemd5 call) :=
  inferInstanceAs (Decidable (_ ∧ _))

/-- Authentication is on, and no session has the empty nonce. -/
structure Protected (login : Login) : Prop where
  needsAuth : login.server.mNeedsAuth = true
  empty_not_mem : [] ∉ login.server.mSessions

/-! ## One message -/

theorem generateNonce_ne_nil (rand : Nat → Nat) : generateNonce rand ≠ [] := by
  intro hnil
  have hlength := congrArg List.length hnil
  simp [generateNonce] at hlength

theorem challengeNonce_ne_nil (call : MessageCall) (server : WebServer) :
    call.challengeNonce server ≠ [] := by
  unfold MessageCall.challengeNonce
  split
  · rename_i hnames
    exact hnames.1
  · exact generateNonce_ne_nil _

theorem mem_of_mem_clearExpiredSessions {time : Int} {passedOver : Text → Bool}
    {sessions : Sessions} {nonce : Text}
    (hmem : nonce ∈ clearExpiredSessions time passedOver sessions) : nonce ∈ sessions := by
  obtain ⟨entry, hentry, rfl⟩ := List.mem_map.mp (AList.mem_keys.mp hmem)
  exact AList.mem_keys.mpr (List.mem_map_of_mem (List.mem_of_mem_filter hentry))

variable (computemd5 : Text → Text) {login : Login} (call : MessageCall)

theorem validateAuthentication_eq (protects : Protected login) :
    validateAuthentication computemd5
        { login.server with mSessions := call.liveSessions login.server } call.request call.auth =
      (decide (call.sessionCookie ∈ call.liveSessions login.server) ||
        call.correctDigest computemd5 login.server) := by
  have hempty : [] ∉ call.liveSessions login.server := fun hmem =>
    protects.empty_not_mem (mem_of_mem_clearExpiredSessions hmem)
  have hneeds : ¬ (¬ login.server.mNeedsAuth = true) := not_not.mpr protects.needsAuth
  unfold validateAuthentication MessageCall.correctDigest
  rw [if_neg hneeds]
  by_cases hcookie : call.sessionCookie ∈ call.liveSessions login.server
  · rw [decide_eq_true hcookie, Bool.true_or]
    exact if_pos hcookie
  · rw [decide_eq_false hcookie, Bool.false_or]
    by_cases hnonce : call.auth.nonce ∈ call.liveSessions login.server
    · have hne : call.auth.nonce ≠ [] := fun hnil => hempty (hnil ▸ hnonce)
      rw [decide_eq_true hnonce, Bool.true_and]
      refine (if_neg hcookie).trans ((if_neg hne).trans (if_neg (not_not.mpr hnonce)))
    · rw [decide_eq_false hnonce, Bool.false_and]
      apply (if_neg hcookie).trans
      by_cases hnil : call.auth.nonce = []
      · exact if_pos hnil
      · exact (if_neg hnil).trans (if_pos hnonce)

/-- The listener gets the requests that pass the authentication. -/
theorem any_isRequest_run :
    (call.run computemd5 login.server).1.any Effect.isRequest =
      (validateAuthentication computemd5
        { login.server with mSessions := call.liveSessions login.server } call.request call.auth &&
        login.server.hasListener) := by
  unfold MessageCall.run onClientMessage
  dsimp only
  change (ite (validateAuthentication computemd5
    { login.server with mSessions := call.liveSessions login.server } call.request call.auth = true)
      _ _ : List Effect × WebServer).1.any Effect.isRequest = _
  split
  · rename_i hvalid
    rw [hvalid, Bool.true_and]
    split
    · rename_i hlistener
      rw [hlistener]
      split <;> rfl
    · rename_i hlistener
      rw [Bool.not_eq_true _ |>.mp hlistener]
      rfl
  · rename_i hvalid
    rw [Bool.not_eq_true _ |>.mp hvalid]
    rfl

theorem justified_iff (protects : Protected login) :
    login.Justified computemd5 call ↔ ¬ login.Unconfirmed computemd5 call := by
  unfold Justified Unconfirmed
  rw [any_isRequest_run, validateAuthentication_eq computemd5 call protects]
  cases login.server.hasListener <;> cases call.correctDigest computemd5 login.server <;>
    simp

/-- Challenges insert nonces that are not empty, and nothing else changes the table. -/
theorem Protected.step (protects : Protected login) :
    Protected (login.step computemd5 call).2 := by
  have hempty : [] ∉ call.liveSessions login.server := fun hmem =>
    protects.empty_not_mem (mem_of_mem_clearExpiredSessions hmem)
  suffices hserver : (call.run computemd5 login.server).2.mNeedsAuth = true ∧
      [] ∉ (call.run computemd5 login.server).2.mSessions from ⟨hserver.1, hserver.2⟩
  cases hauthorized : call.isAuthorized computemd5 login.server with
  | true =>
      rw [MessageCall.run_authorized hauthorized]
      exact ⟨protects.needsAuth, hempty⟩
  | false =>
      obtain ⟨mNonce, hrun⟩ := MessageCall.run_unauthorized hauthorized
      rw [hrun]
      refine ⟨protects.needsAuth, fun hmem => ?_⟩
      rcases (AList.mem_insert _).mp hmem with hnil | hold
      · exact challengeNonce_ne_nil call login.server hnil.symm
      · exact hempty hold

/-! ## Runs -/

/--
In every run, every request that is handed to the listener is justified exactly
when no request brings the nonce of an unconfirmed session as its cookie.
-/
theorem all_justified_iff (protects : Protected login) (calls : List MessageCall) :
    Guarded (step computemd5) (Justified computemd5) login calls ↔
      Guarded (step computemd5) (fun login call => ¬ login.Unconfirmed computemd5 call)
        login calls := by
  have hstep (login : Login) (call : MessageCall) (protects : Protected login) :
      Protected (login.step computemd5 call).2 :=
    protects.step computemd5 call
  have hiff (login : Login) (call : MessageCall) (protects : Protected login) :
      login.Justified computemd5 call ↔ ¬ login.Unconfirmed computemd5 call :=
    justified_iff computemd5 call protects
  exact guarded_congr hstep hiff protects calls

/-! ## Two exchanges -/

/-- A new server with a listener, the user `bob` and sessions of thirty seconds. -/
def exampleLogin : Login where
  server := ((WebServer.create (fun _ => ⟨⟨0, 0⟩, none⟩) false).setListener).requireAuth
    ["bob:secret".toList] 30
  digests := []

theorem exampleLogin_protected : exampleLogin.Protected where
  needsAuth := rfl
  empty_not_mem := by decide

def exampleOutside : Surroundings where
  time := 100
  passedOver _ := false
  rand _ := 0
  laterTime := 100
  answer _ := none

/-- A request without any authorization, which is challenged. -/
def exampleContact : MessageCall where
  client := ⟨1, 0⟩
  buffer := "GET / HTTP/1.1\r\n\r\n".toList
  outside := exampleOutside

/-- A request with the correct digest for that challenge, the hash being the identity. -/
def exampleDigest : MessageCall where
  client := ⟨1, 0⟩
  buffer := ("GET / HTTP/1.1\r\nAuthorization: Digest username=\"bob\", " ++
    "nonce=\"00000000000000000000\", uri=\"/\", " ++
    "response=\"bob:dumais:secret:00000000000000000000:GET:/\"\r\n\r\n").toList
  outside := exampleOutside

/-- A request with the nonce of that challenge as its session cookie. -/
def exampleReplay : MessageCall where
  client := ⟨2, 1⟩
  buffer := "GET / HTTP/1.1\r\nCookie: session=00000000000000000000\r\n\r\n".toList
  outside := exampleOutside

theorem all_justified_iff_digest :
    Guarded (step id) (Justified id) exampleLogin [exampleContact, exampleDigest] :=
  (all_justified_iff id exampleLogin_protected _).mpr
    ⟨by decide +kernel, by decide +kernel, trivial⟩

/-- The nonce of a challenge lets in a client that never presented a digest. -/
theorem challenge_nonce_admits :
    ¬ Guarded (step id) (Justified id) exampleLogin [exampleContact, exampleReplay] := by
  rintro ⟨_, hreplay, _⟩
  exact absurd hreplay (by decide +kernel)

end Login

end DumaisLib.WebServer
