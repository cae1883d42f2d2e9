import DumaisLib.WebServer.AuthFields
import DumaisLib.WebServer.SessionExpiry

/-!
# Challenges and the requests that they let in

A nonce lets requests in from the challenge that carries it until the session
has lasted its time, whatever the other clients do.  The server forgets no
session before that and keeps none for longer.
-/

namespace DumaisLib.WebServer

open WebServer

/-- The nonce that a client reads in the header of a challenge. -/
def Effect.challengeNonce? : Effect → Option Text
  | .sendResponse response _ =>
      (HTTPRequest.getAuthFields response.mAuthHeader).lookup "nonce".toList
  | _ => none

/-- The challenges among the effects of a request, if it is not handed to the listener. -/
def challenges (effects : List Effect) : List Text :=
  if effects.any Effect.isRequest then [] else effects.filterMap Effect.challengeNonce?

/-- The answer that asks for authorization, with the nonce. -/
def challengeResponse (hack : Bool) (nonce : Text) : HTTPResponse :=
  { HTTPResponse.buildBufferedResponse .Unauthorized unauthorizedContent "application/json".toList
      ("Digest realm=\"dumais\",nonce=\"".toList ++ nonce ++ ['"']) with
    mAuthenticationHack := hack }

/-- A refused request is answered with its nonce. -/
theorem MessageCall.run_refused {computemd5 : Text → Text} {call : MessageCall} {server : WebServer}
    (hrefused : call.isAuthorized computemd5 server = false) :
    (call.run computemd5 server).1 =
      [.sendResponse (challengeResponse call.request.wantsAuthenticationHack
        (call.challengeNonce server)) call.client] := by
  have hcheck : ¬ call.isAuthorized computemd5 server = true := by
    rw [hrefused]
    exact Bool.false_ne_true
  have hrun : (call.run computemd5 server).1 =
      (challenge call.outside call.client call.request call.auth
        { server with mSessions := call.liveSessions server }).1 :=
    congrArg Prod.fst (if_neg hcheck)
  rw [hrun, challengeNonce, challenge]
  dsimp only
  by_cases hnil : call.auth.nonce ≠ []
  · rw [if_pos hnil]
    cases hfound : (call.liveSessions server).lookup call.auth.nonce with
    | none =>
        have hnew : ¬ call.NamesSession server := fun hnames =>
          AList.lookup_eq_none.mp hfound hnames.2
        rw [if_neg hnew]
        cases call.request.wantsAuthenticationHack <;> rfl
    | some session =>
        have hnames : call.NamesSession server :=
          ⟨hnil, AList.lookup_isSome.mp (by rw [hfound]; rfl)⟩
        rw [if_pos hnames]
        cases call.request.wantsAuthenticationHack <;> rfl
  · have hnew : ¬ call.NamesSession server := fun hnames => hnil hnames.1
    rw [if_neg hnil, if_neg hnew]
    cases call.request.wantsAuthenticationHack <;> rfl

/-- The cookie for the answer to the request. -/
def MessageCall.cookie (call : MessageCall) (server : WebServer) : Text :=
  if call.auth.nonce ≠ [] ∧ call.auth.nonce ∈ call.liveSessions server then
    "session=".toList ++ call.auth.nonce
  else []

/-- A request that is let through goes to the listener, and its answer gets the cookie. -/
theorem MessageCall.run_handed {computemd5 : Text → Text} {call : MessageCall} {server : WebServer}
    (hauthorized : call.isAuthorized computemd5 server = true)
    (hlistens : server.hasListener = true) :
    (call.run computemd5 server).1 =
      if server.mAsync then
        [.processHTTPRequestAsync call.request ⟨call.client, call.cookie server⟩]
      else
        .processHTTPRequest call.request ::
          (call.outside.answer call.request).toList.map fun response =>
            .sendResponse (withCookie (call.cookie server) response) call.client := by
  refine (congrArg Prod.fst (if_pos hauthorized)).trans ?_
  refine (congrArg Prod.fst (if_pos hlistens)).trans ?_
  refine (apply_ite Prod.fst _ _ _).trans ?_
  rw [MessageCall.request]
  cases call.outside.answer (HTTPRequest.ofMessage call.buffer) <;> rfl

/-- The server, and the nonces that it has sent in challenges, the last one first, each with its time. -/
structure Challenging where
  server : WebServer
  challenged : List (Text × Int)

namespace Challenging

/-- One more message. -/
def step (computemd5 : Text → Text) (challenging : Challenging) (call : MessageCall) :
    List Effect × Challenging :=
  let (effects, server) := call.run computemd5 challenging.server
  let challenged := (challenges effects).map fun nonce => (nonce, call.outside.laterTime)
  (effects, ⟨server, challenged ++ challenging.challenged⟩)

/-- The session of the last challenge with the nonce has not expired; its expiry has 32 bits. -/
def Current (sessionExpiry : Nat) (challenging : Challenging) (time : Int) (nonce : Text) : Prop :=
  ∃ issue ∈ challenging.challenged.lookup nonce, time ≤ (issue + sessionExpiry) % 2 ^ 32

/-- The request has the nonce of a current session in its cookie, or a correct digest for it. -/
def Admissible (computemd5 : Text → Text) (passwords : TextMap) (sessionExpiry : Nat)
    (challenging : Challenging) (call : MessageCall) : Prop :=
  challenging.Current sessionExpiry call.outside.time call.sessionCookie ∨
    challenging.Current sessionExpiry call.outside.time call.auth.nonce ∧
      ∃ password ∈ passwords.lookup call.auth.username,
        expectedResponse computemd5 password call.auth = call.auth.response

/-- A nonce is made of letters and digits. -/
def IsNonce (nonce : Text) : Prop :=
  nonce ≠ [] ∧ ∀ char ∈ nonce, HTTPRequest.isSpaceOrAlphanumeric char = true

/-- The effects are an answer that asks for authorization, with a nonce. -/
def IsChallenge (client : TcpClientPointer) (effects : List Effect) : Prop :=
  ∃ response nonce, effects = [.sendResponse response client] ∧
    response.mResponseCode = .Unauthorized ∧ challenges effects = [nonce]

/-- A request is handed to the listener if it is admissible, and challenged otherwise. -/
def Decides (computemd5 : Text → Text) (passwords : TextMap) (sessionExpiry : Nat)
    (challenging : Challenging) (call : MessageCall) : Prop :=
  let effects := (call.run computemd5 challenging.server).1
  (challenging.Admissible computemd5 passwords sessionExpiry call →
      effects.any Effect.isRequest = true) ∧
    (¬ challenging.Admissible computemd5 passwords sessionExpiry call →
      IsChallenge call.client effects)

/--
The sessions are those of the last challenges, and the ones that were swept had
expired by `now`.
-/
structure Remembers (passwords : TextMap) (sessionExpiry : Nat) (now : Int)
    (challenging : Challenging) : Prop where
  needsAuth : challenging.server.mNeedsAuth = true
  listens : challenging.server.hasListener = true
  mPasswords_eq : challenging.server.mPasswords = passwords
  mSessionExpires_eq : challenging.server.mSessionExpires = sessionExpiry
  isNonce : ∀ nonce ∈ challenging.server.mSessions, IsNonce nonce
  expires_eq : ∀ nonce, ∀ session ∈ challenging.server.mSessions.lookup nonce,
    ∃ issue ∈ challenging.challenged.lookup nonce,
      (session.mExpires : Int) = (issue + sessionExpiry) % 2 ^ 32
  mem_of_current : ∀ nonce, challenging.Current sessionExpiry now nonce →
    nonce ∈ challenging.server.mSessions

/-! ## The sweep -/

theorem Current.mono {sessionExpiry : Nat} {challenging : Challenging} {time later : Int}
    {nonce : Text} (hle : time ≤ later)
    (hcurrent : challenging.Current sessionExpiry later nonce) :
    challenging.Current sessionExpiry time nonce := by
  obtain ⟨issue, hissue, htime⟩ := hcurrent
  exact ⟨issue, hissue, hle.trans htime⟩

theorem mem_clearExpiredSessions {time : Int} {passedOver : Text → Bool} {sessions : Sessions}
    {nonce : Text} {session : WebSession} (hfound : session ∈ sessions.lookup nonce)
    (hlive : time ≤ (session.mExpires : Int)) :
    nonce ∈ clearExpiredSessions time passedOver sessions := by
  have hkept : (⟨nonce, session⟩ : Sigma fun _ : Text => WebSession) ∈
      (clearExpiredSessions time passedOver sessions).entries := by
    refine List.mem_filter.mpr ⟨AList.mem_lookup_iff.mp hfound, ?_⟩
    rw [decide_eq_true (not_lt.mpr hlive), Bool.true_or]
  exact AList.mem_keys.mpr (List.mem_keys_of_mem hkept)

variable {computemd5 : Text → Text} {passwords : TextMap} {sessionExpiry : Nat} {now : Int}
  {challenging : Challenging} {call : MessageCall}

/-- The sessions that are left when a request comes are the current ones. -/
theorem Remembers.mem_liveSessions_iff (remembers : Remembers passwords sessionExpiry now challenging)
    (htime : now ≤ call.outside.time) (hexact : ∀ nonce, call.outside.passedOver nonce = false)
    (nonce : Text) :
    nonce ∈ call.liveSessions challenging.server ↔
      challenging.Current sessionExpiry call.outside.time nonce := by
  constructor
  · intro hlive
    obtain ⟨session, hsession⟩ := Option.isSome_iff_exists.mp (AList.lookup_isSome.mpr hlive)
    obtain ⟨hold, hexpiry⟩ := Issuing.lookup_clearExpiredSessions hsession
    obtain ⟨issue, hissue, hexpires⟩ := remembers.expires_eq nonce session hold
    exact ⟨issue, hissue, hexpires ▸ hexpiry (hexact nonce)⟩
  · intro hcurrent
    have hmem := remembers.mem_of_current nonce (hcurrent.mono htime)
    obtain ⟨session, hsession⟩ := Option.isSome_iff_exists.mp (AList.lookup_isSome.mpr hmem)
    obtain ⟨issue, hissue, hexpires⟩ := remembers.expires_eq nonce session hsession
    obtain ⟨same, hsame, hexpiry⟩ := hcurrent
    obtain rfl : issue = same := Option.mem_unique hissue hsame
    exact mem_clearExpiredSessions hsession (hexpires ▸ hexpiry)

/-- The check of a request that the server makes. -/
theorem Remembers.isAuthorized_iff (computemd5 : Text → Text)
    (remembers : Remembers passwords sessionExpiry now challenging)
    (htime : now ≤ call.outside.time) (hexact : ∀ nonce, call.outside.passedOver nonce = false) :
    call.isAuthorized computemd5 challenging.server = true ↔
      challenging.Admissible computemd5 passwords sessionExpiry call := by
  have protects : Login.Protected ⟨challenging.server, []⟩ :=
    ⟨remembers.needsAuth, fun hmem => (remembers.isNonce [] hmem).1 rfl⟩
  have hcheck := Login.validateAuthentication_eq computemd5 call protects
  rw [MessageCall.isAuthorized, hcheck, Bool.or_eq_true, decide_eq_true_eq,
    remembers.mem_liveSessions_iff htime hexact, MessageCall.correctDigest, Bool.and_eq_true,
    decide_eq_true_eq, remembers.mem_liveSessions_iff htime hexact, remembers.mPasswords_eq]
  refine or_congr_right (and_congr_right fun _ => ?_)
  cases hpassword : passwords.lookup call.auth.username with
  | none => exact iff_of_false Bool.false_ne_true nofun
  | some password =>
      refine decide_eq_true_iff.trans ⟨fun hdigest => ⟨password, rfl, hdigest⟩, ?_⟩
      rintro ⟨other, hother, hdigest⟩
      obtain rfl := Option.some.inj hother
      exact hdigest

theorem Remembers.any_isRequest (remembers : Remembers passwords sessionExpiry now challenging) :
    (call.run computemd5 challenging.server).1.any Effect.isRequest =
      call.isAuthorized computemd5 challenging.server := by
  have hany := @Login.any_isRequest_run computemd5 ⟨challenging.server, []⟩ call
  rw [remembers.listens, Bool.and_true] at hany
  exact hany

/-! ## The challenge -/

/-- The header of a challenge is read back by the pattern for the header of a request. -/
theorem nonce_of_challenge {nonce : Text} (hnonce : IsNonce nonce) :
    (HTTPRequest.getAuthFields ("Digest realm=\"dumais\",nonce=\"".toList ++ nonce ++ ['"'])).lookup
      "nonce".toList = some nonce := by
  have hline : "Digest realm=\"dumais\",nonce=\"".toList ++ nonce ++ ['"'] =
      authLine (.quoted false "Digest realm".toList "dumais".toList)
        [.quoted false "nonce".toList nonce] := by
    simp [authLine, laterFields, AuthItem.text, AuthItem.lead]
  have hkeyed : AuthItem.Keyed "nonce".toList := by decide
  have hplain : '"' ∉ nonce := fun hquote => absurd (hnonce.2 _ hquote) (by decide)
  have hwf : ∀ item ∈ [AuthItem.quoted false "Digest realm".toList "dumais".toList,
      .quoted false "nonce".toList nonce], item.WellFormed :=
    List.forall_mem_cons.mpr ⟨by decide, List.forall_mem_singleton.mpr ⟨hkeyed, hplain⟩⟩
  rw [hline, HTTPRequest.getAuthFields_authLine hwf]
  exact AList.lookup_insert _

theorem isNonce_generateNonce (rand : Nat → Nat) : IsNonce (generateNonce rand) := by
  have halphanum : ∀ char ∈ alphanum, HTTPRequest.isSpaceOrAlphanumeric char = true :=
    List.all_eq_true.mp (by decide)
  have hlength : alphanum.length = 62 := by decide
  refine ⟨Login.generateNonce_ne_nil rand, fun char hchar => ?_⟩
  obtain ⟨i, -, rfl⟩ := List.mem_map.mp hchar
  have hlt : rand i % 62 < alphanum.length := hlength ▸ Nat.mod_lt _ (by decide)
  rw [List.getD_eq_getElem _ _ hlt]
  exact halphanum _ (List.getElem_mem hlt)

theorem Remembers.isNonce_challengeNonce
    (remembers : Remembers passwords sessionExpiry now challenging) :
    IsNonce (call.challengeNonce challenging.server) := by
  unfold MessageCall.challengeNonce
  split
  · rename_i hnames
    exact remembers.isNonce _ (Login.mem_of_mem_clearExpiredSessions hnames.2)
  · exact isNonce_generateNonce _

theorem Remembers.challenges_refused (remembers : Remembers passwords sessionExpiry now challenging)
    (hrefused : call.isAuthorized computemd5 challenging.server = false) :
    challenges (call.run computemd5 challenging.server).1 =
      [call.challengeNonce challenging.server] := by
  have hnonce : IsNonce (call.challengeNonce challenging.server) := remembers.isNonce_challengeNonce
  rw [challenges, remembers.any_isRequest, hrefused, if_neg Bool.false_ne_true,
    MessageCall.run_refused hrefused]
  exact List.filterMap_cons_some (nonce_of_challenge hnonce)

theorem Remembers.decides (remembers : Remembers passwords sessionExpiry now challenging)
    (htime : now ≤ call.outside.time) (hexact : ∀ nonce, call.outside.passedOver nonce = false) :
    challenging.Decides computemd5 passwords sessionExpiry call := by
  have hiff := remembers.isAuthorized_iff computemd5 htime hexact
  constructor
  · intro hadmissible
    rw [remembers.any_isRequest]
    exact hiff.mpr hadmissible
  · intro hrefused
    have hfalse : call.isAuthorized computemd5 challenging.server = false :=
      Bool.eq_false_iff.mpr fun htrue => hrefused (hiff.mp htrue)
    exact ⟨_, _, MessageCall.run_refused hfalse, rfl, remembers.challenges_refused hfalse⟩

/-! ## One message -/

theorem step_admitted (remembers : Remembers passwords sessionExpiry now challenging)
    (hauthorized : call.isAuthorized computemd5 challenging.server = true) :
    (challenging.step computemd5 call).2 =
      ⟨{ challenging.server with mSessions := call.liveSessions challenging.server },
        challenging.challenged⟩ := by
  have hchallenges : challenges (call.run computemd5 challenging.server).1 = [] := by
    rw [challenges, remembers.any_isRequest, hauthorized, if_pos rfl]
  have hserver := MessageCall.run_authorized hauthorized
  unfold step
  dsimp only
  rw [hchallenges, hserver]
  rfl

theorem step_refused (remembers : Remembers passwords sessionExpiry now challenging)
    (hrefused : call.isAuthorized computemd5 challenging.server = false) :
    ∃ mNonce, (challenging.step computemd5 call).2 =
      ⟨{ challenging.server with
          mSessions := (call.liveSessions challenging.server).insert
            (call.challengeNonce challenging.server) ⟨call.expires challenging.server, mNonce⟩ },
        (call.challengeNonce challenging.server, call.outside.laterTime) ::
          challenging.challenged⟩ := by
  obtain ⟨mNonce, hserver⟩ := MessageCall.run_unauthorized hrefused
  refine ⟨mNonce, ?_⟩
  unfold step
  dsimp only
  rw [remembers.challenges_refused hrefused, hserver]
  rfl

theorem Remembers.step (computemd5 : Text → Text)
    (remembers : Remembers passwords sessionExpiry now challenging)
    (htime : now ≤ call.outside.time) (hlater : call.outside.time ≤ call.outside.laterTime)
    (hexact : ∀ nonce, call.outside.passedOver nonce = false) :
    Remembers passwords sessionExpiry call.outside.laterTime
      (challenging.step computemd5 call).2 := by
  have hlive := remembers.mem_liveSessions_iff htime hexact
  have hnonce (nonce : Text) (hmem : nonce ∈ call.liveSessions challenging.server) :
      IsNonce nonce :=
    remembers.isNonce nonce (Login.mem_of_mem_clearExpiredSessions hmem)
  have hexpires (nonce : Text) (session : WebSession)
      (hsession : session ∈ (call.liveSessions challenging.server).lookup nonce) :
      ∃ issue ∈ challenging.challenged.lookup nonce,
        (session.mExpires : Int) = (issue + sessionExpiry) % 2 ^ 32 :=
    remembers.expires_eq nonce session (Issuing.lookup_clearExpiredSessions hsession).1
  cases hauthorized : call.isAuthorized computemd5 challenging.server with
  | true =>
      rw [step_admitted remembers hauthorized]
      constructor
      · exact remembers.needsAuth
      · exact remembers.listens
      · exact remembers.mPasswords_eq
      · exact remembers.mSessionExpires_eq
      · exact hnonce
      · exact hexpires
      · exact fun nonce hcurrent => (hlive nonce).mpr (hcurrent.mono hlater)
  | false =>
      obtain ⟨mNonce, hstep⟩ := step_refused remembers hauthorized
      rw [hstep]
      constructor
      · exact remembers.needsAuth
      · exact remembers.listens
      · exact remembers.mPasswords_eq
      · exact remembers.mSessionExpires_eq
      · intro nonce hmem
        rcases (AList.mem_insert _).mp hmem with rfl | hold
        · exact remembers.isNonce_challengeNonce
        · exact hnonce nonce hold
      · intro nonce session hsession
        by_cases hsame : nonce = call.challengeNonce challenging.server
        · subst hsame
          rw [AList.lookup_insert] at hsession
          obtain rfl := Option.some.inj hsession
          refine ⟨call.outside.laterTime, List.lookup_cons_self, ?_⟩
          dsimp only
          rw [MessageCall.expires, remembers.mSessionExpires_eq]
          exact Int.toNat_of_nonneg (Int.emod_nonneg _ (by decide))
        · rw [AList.lookup_insert_ne hsame] at hsession
          rw [List.lookup_cons, beq_eq_false_iff_ne.mpr hsame]
          exact hexpires nonce session hsession
      · intro nonce hcurrent
        refine (AList.mem_insert _).mpr ?_
        by_cases hsame : nonce = call.challengeNonce challenging.server
        · exact Or.inl hsame
        · obtain ⟨issue, hissue, hexpiry⟩ := hcurrent
          rw [List.lookup_cons, beq_eq_false_iff_ne.mpr hsame] at hissue
          exact Or.inr ((hlive nonce).mpr ⟨issue, hissue, hlater.trans hexpiry⟩)

/-! ## Runs -/

theorem remembers_start {server : WebServer} (hsessions : server.mSessions = ∅)
    (hlistens : server.hasListener = true) (lines : List Text) (sessionExpiry : Nat) :
    Remembers (lines.foldl readPassword server.mPasswords) sessionExpiry 0
      ⟨server.requireAuth lines sessionExpiry, []⟩ := by
  have hnone : (server.requireAuth lines sessionExpiry).mSessions = ∅ := hsessions
  constructor
  · rfl
  · exact hlistens
  · rfl
  · rfl
  · intro nonce hmem
    rw [hnone] at hmem
    exact absurd hmem (AList.notMem_empty nonce)
  · intro nonce session hsession
    rw [hnone] at hsession
    cases hsession
  · rintro nonce ⟨issue, hissue, -⟩
    cases hissue

theorem Remembers.guarded {calls : List MessageCall}
    (remembers : Remembers passwords sessionExpiry now challenging)
    (hclock : MessageCall.Clocked now calls)
    (hexact : ∀ call ∈ calls, ∀ nonce, call.outside.passedOver nonce = false) :
    Machine.Guarded (Challenging.step computemd5) (Decides computemd5 passwords sessionExpiry)
      challenging calls := by
  induction calls generalizing now challenging with
  | nil => trivial
  | cons call calls ih =>
      obtain ⟨htime, hlater, hrest⟩ := hclock
      obtain ⟨hcall, hcalls⟩ := List.forall_mem_cons.mp hexact
      exact ⟨remembers.decides htime hcall, ih (remembers.step computemd5 htime hlater hcall) hrest hcalls⟩

/--
In every run the listener gets exactly the requests with the nonce of a session
that was challenged at most its time ago, in the cookie or with a correct
digest.  Every other request is challenged.
-/
theorem requests_decided (computemd5 : Text → Text) {server : WebServer}
    (hsessions : server.mSessions = ∅) (hlistens : server.hasListener = true) (lines : List Text)
    (sessionExpiry : Nat) {calls : List MessageCall} (hclock : MessageCall.Clocked 0 calls)
    (hexact : ∀ call ∈ calls, ∀ nonce, call.outside.passedOver nonce = false) :
    Machine.Guarded (step computemd5)
      (Decides computemd5 (lines.foldl readPassword server.mPasswords) sessionExpiry)
      ⟨server.requireAuth lines sessionExpiry, []⟩ calls :=
  (remembers_start hsessions hlistens lines sessionExpiry).guarded hclock hexact

/-- A session whose time runs from a second challenge on. -/
theorem requests_decided_renewal :
    Machine.Guarded (step id) (Decides id (["bob:secret".toList].foldl readPassword ∅) 30)
      ⟨Issuing.exampleServer.requireAuth ["bob:secret".toList] 30, []⟩ Issuing.exampleRenewal :=
  @requests_decided id _ rfl rfl ["bob:secret".toList] 30 Issuing.exampleRenewal
    ⟨by decide, by decide, by decide, by decide, by decide, by decide, trivial⟩
    (by simp [Issuing.exampleRenewal, Issuing.exampleCall])

/-! ## Logging in -/

/-- The state that the calls lead to. -/
def after (computemd5 : Text → Text) (challenging : Challenging) (calls : List MessageCall) :
    Challenging :=
  calls.foldl (fun challenging call => (challenging.step computemd5 call).2) challenging

/-- The nonce was sent at `issue` or later, and not after `now`. -/
def Noted (nonce : Text) (issue now : Int) (challenging : Challenging) : Prop :=
  ∃ last ∈ challenging.challenged.lookup nonce, issue ≤ last ∧ last ≤ now

theorem Noted.step {nonce : Text} {issue : Int} (hnoted : Noted nonce issue now challenging)
    (remembers : Remembers passwords sessionExpiry now challenging)
    (htime : now ≤ call.outside.time) (hlater : call.outside.time ≤ call.outside.laterTime) :
    Noted nonce issue call.outside.laterTime (challenging.step computemd5 call).2 := by
  obtain ⟨last, hlast, hissue, hnow⟩ := hnoted
  have hle : last ≤ call.outside.laterTime := hnow.trans (htime.trans hlater)
  cases hauthorized : call.isAuthorized computemd5 challenging.server with
  | true =>
      rw [step_admitted remembers hauthorized]
      exact ⟨last, hlast, hissue, hle⟩
  | false =>
      obtain ⟨mNonce, hstep⟩ := step_refused remembers hauthorized
      rw [hstep]
      by_cases hsame : nonce = call.challengeNonce challenging.server
      · subst hsame
        exact ⟨_, List.lookup_cons_self, hissue.trans hle, le_refl _⟩
      · refine ⟨last, ?_, hissue, hle⟩
        rw [List.lookup_cons, beq_eq_false_iff_ne.mpr hsame]
        exact hlast

/-- After a run the invariant holds at its last reading of the clock. -/
theorem Remembers.after (computemd5 : Text → Text) {calls rest : List MessageCall}
    (remembers : Remembers passwords sessionExpiry now challenging)
    (hclock : MessageCall.Clocked now (calls ++ rest))
    (hexact : ∀ call ∈ calls, ∀ nonce, call.outside.passedOver nonce = false) :
    ∃ later, now ≤ later ∧ MessageCall.Clocked later rest ∧
      Remembers passwords sessionExpiry later (challenging.after computemd5 calls) ∧
      ∀ nonce issue, Noted nonce issue now challenging →
        Noted nonce issue later (challenging.after computemd5 calls) := by
  induction calls generalizing now challenging with
  | nil => exact ⟨now, le_refl _, hclock, remembers, fun _ _ hnoted => hnoted⟩
  | cons call calls ih =>
      obtain ⟨htime, hlater, hrest⟩ := hclock
      obtain ⟨hcall, hcalls⟩ := List.forall_mem_cons.mp hexact
      obtain ⟨later, hle, hclock, hremembers, hnoted⟩ :=
        ih (remembers.step computemd5 htime hlater hcall) hrest hcalls
      refine ⟨later, htime.trans (hlater.trans hle), hclock, hremembers, ?_⟩
      exact fun nonce issue hold => hnoted nonce issue (hold.step remembers htime hlater)

/-- The request is handed to the listener, and every answer to it gets the cookie. -/
structure HandedWith (cookie : Text) (effects : List Effect) : Prop where
  handed : effects.any Effect.isRequest = true
  async_cookie : ∀ request callBack, .processHTTPRequestAsync request callBack ∈ effects →
    callBack.cookie = cookie
  sync_cookie : ∀ response client, .sendResponse response client ∈ effects →
    response.mCookie = cookie

theorem handedWith_run {nonce : Text}
    (remembers : Remembers passwords sessionExpiry now challenging)
    (hauthorized : call.isAuthorized computemd5 challenging.server = true)
    (hnonce : call.auth.nonce = nonce) (hlive : nonce ∈ call.liveSessions challenging.server)
    (hne : nonce ≠ []) :
    HandedWith ("session=".toList ++ nonce) (call.run computemd5 challenging.server).1 := by
  have hne' : ("session=".toList ++ nonce) ≠ [] := List.append_ne_nil_of_right_ne_nil _ hne
  have hcookie : call.cookie challenging.server = "session=".toList ++ nonce := by
    rw [MessageCall.cookie, hnonce, if_pos ⟨hne, hlive⟩]
  have hrun := MessageCall.run_handed hauthorized remembers.listens
  rw [hcookie] at hrun
  refine ⟨?_, ?_, ?_⟩
  · rw [remembers.any_isRequest, hauthorized]
  · intro request callBack hmem
    rw [hrun] at hmem
    split at hmem
    · obtain ⟨-, rfl⟩ := Effect.processHTTPRequestAsync.inj (List.mem_singleton.mp hmem)
      rfl
    · simp at hmem
  · intro response client hmem
    rw [hrun] at hmem
    split at hmem
    · cases List.mem_singleton.mp hmem
    · rcases List.mem_cons.mp hmem with hrequest | hanswer
      · cases hrequest
      · obtain ⟨answer, -, hsent⟩ := List.mem_map.mp hanswer
        obtain ⟨rfl, -⟩ := Effect.sendResponse.inj hsent
        rw [withCookie, if_pos hne']
        rfl

/-- The request has a line with the digest of a user's password for the nonce. -/
def BringsDigest (computemd5 : Text → Text) (passwords : TextMap) (nonce : Text)
    (call : MessageCall) : Prop :=
  ∃ (request : HTTPRequest.HeaderRequest "authorization".toList) (item : AuthItem)
      (items : List AuthItem) (password : Text),
    call.buffer = request.bytes ∧ request.value = authLine item items ∧
      (∀ other ∈ item :: items, other.WellFormed) ∧
      (HTTPRequest.authOf (item :: items)).nonce = nonce ∧
      passwords.lookup (HTTPRequest.authOf (item :: items)).username = some password ∧
      expectedResponse computemd5 password (HTTPRequest.authOf (item :: items)) =
        (HTTPRequest.authOf (item :: items)).response

/-- The request has a line with the cookie, among others that do not have its name. -/
def BringsCookie (value : Text) (call : MessageCall) : Prop :=
  ∃ (request : HTTPRequest.HeaderRequest "cookie".toList) (front back : Text),
    call.buffer = request.bytes ∧
      request.value = front ++ ("session=".toList ++ value ++ back) ∧
      HTTPRequest.NotCookie "session".toList front ∧
      ∀ char ∈ back.head?, HTTPRequest.isCookieChar char = false

theorem BringsDigest.admissible {nonce : Text}
    (hbrings : BringsDigest computemd5 passwords nonce call)
    (hcurrent : challenging.Current sessionExpiry call.outside.time nonce) :
    challenging.Admissible computemd5 passwords sessionExpiry call ∧ call.auth.nonce = nonce := by
  obtain ⟨request, item, items, password, hbuffer, hvalue, hwf, hnonce, hpassword, hdigest⟩ := hbrings
  have hauth : call.auth = HTTPRequest.authOf (item :: items) := by
    rw [MessageCall.auth, MessageCall.request, hbuffer]
    exact HTTPRequest.getAuthorization_bytes request hwf hvalue
  rw [Admissible, hauth, hnonce]
  exact ⟨Or.inr ⟨hcurrent, password, hpassword, hdigest⟩, rfl⟩

theorem BringsCookie.admissible {nonce : Text} (hbrings : BringsCookie nonce call)
    (hnonce : IsNonce nonce)
    (hcurrent : challenging.Current sessionExpiry call.outside.time nonce) :
    challenging.Admissible computemd5 passwords sessionExpiry call := by
  obtain ⟨request, front, back, hbuffer, hvalue, hfront, hback⟩ := hbrings
  have hheader := HTTPRequest.getHeader_bytes (by decide) request
  have hsplit : "session=".toList ++ nonce ++ back =
      "session".toList ++ ['='] ++ (nonce ++ back) := by
    simp
  rw [hvalue, hsplit, ← hbuffer] at hheader
  have hcookie : call.sessionCookie = nonce := by
    refine HTTPRequest.getCookie_eq hheader (by decide) hfront (fun char hchar => ?_) hback
    rw [HTTPRequest.isCookieChar, hnonce.2 char hchar, Bool.true_or]
  exact Or.inl (hcookie ▸ hcurrent)

theorem Noted.current {nonce : Text} {issue time : Int}
    (hnoted : Noted nonce issue now challenging) (hissue : 0 ≤ issue)
    (hbound : now + sessionExpiry < 2 ^ 32) (htime : time ≤ issue + sessionExpiry) :
    challenging.Current sessionExpiry time nonce := by
  obtain ⟨last, hlast, hle, hnow⟩ := hnoted
  refine ⟨last, hlast, ?_⟩
  rw [Int.emod_eq_of_lt (by omega) (by omega)]
  omega

theorem Remembers.noted_of_challenges {nonce : Text}
    (remembers : Remembers passwords sessionExpiry now challenging)
    (hchallenges : challenges (call.run computemd5 challenging.server).1 = [nonce]) :
    IsNonce nonce ∧ Noted nonce call.outside.laterTime call.outside.laterTime
      (challenging.step computemd5 call).2 := by
  cases hauthorized : call.isAuthorized computemd5 challenging.server with
  | true =>
      rw [challenges, remembers.any_isRequest, hauthorized, if_pos rfl] at hchallenges
      cases hchallenges
  | false =>
      rw [remembers.challenges_refused hauthorized] at hchallenges
      obtain rfl := (List.cons.inj hchallenges).1
      obtain ⟨mNonce, hstep⟩ := step_refused remembers hauthorized
      rw [hstep]
      exact ⟨remembers.isNonce_challengeNonce, _, List.lookup_cons_self, le_refl _, le_refl _⟩

theorem after_split (before : List MessageCall) (call : MessageCall) (calls : List MessageCall) :
    challenging.after computemd5 (before ++ call :: calls) =
      ((challenging.after computemd5 before).step computemd5 call).2.after computemd5 calls :=
  List.foldl_append

/-- The server as it begins, which has challenged no one. -/
def start (server : WebServer) (lines : List Text) (sessionExpiry : Nat) : Challenging :=
  ⟨server.requireAuth lines sessionExpiry, []⟩

/--
A client that is challenged and knows a password gets in with the nonce, and
comes back with the cookie of the answer.  No other request, before or in
between, takes this from it until the time of the session is over.
-/
theorem login_lasts (computemd5 : Text → Text) {server : WebServer}
    (hsessions : server.mSessions = ∅) (hlistens : server.hasListener = true) (lines : List Text)
    (sessionExpiry : Nat) {before between later : List MessageCall}
    {contact login visit : MessageCall}
    (hclock : MessageCall.Clocked 0 (before ++ contact :: (between ++ login :: (later ++ [visit]))))
    (hexact : ∀ call ∈ before ++ contact :: (between ++ login :: (later ++ [visit])),
      ∀ other, call.outside.passedOver other = false)
    {nonce : Text}
    (hcontact : challenges (contact.run computemd5
      ((start server lines sessionExpiry).after computemd5 before).server).1 = [nonce])
    (hintime : visit.outside.time ≤ contact.outside.laterTime + sessionExpiry)
    (hbound : visit.outside.time + sessionExpiry < 2 ^ 32)
    (hlogin : BringsDigest computemd5 (lines.foldl readPassword server.mPasswords) nonce login)
    (hvisit : BringsCookie nonce visit) :
    HandedWith ("session=".toList ++ nonce) (login.run computemd5
        ((start server lines sessionExpiry).after computemd5 (before ++ contact :: between)).server).1 ∧
      (visit.run computemd5 ((start server lines sessionExpiry).after computemd5
        (before ++ contact :: (between ++ login :: later))).server).1.any Effect.isRequest = true := by
  simp only [List.mem_append, List.mem_cons, or_imp, forall_and, forall_eq] at hexact
  obtain ⟨hexact₁, hexactContact, hexact₂, hexactLogin, hexact₃, hexactVisit, -⟩ := hexact
  obtain ⟨time₁, hzero, ⟨htime, hlater, hclock⟩, remembers, -⟩ :=
    (remembers_start hsessions hlistens lines sessionExpiry).after computemd5 hclock hexact₁
  obtain ⟨hnonce, hnoted⟩ := remembers.noted_of_challenges hcontact
  have hissue : 0 ≤ contact.outside.laterTime := hzero.trans (htime.trans hlater)
  -- up to the login
  obtain ⟨time₂, htime₂, ⟨hloginTime, hloginLater, hclock⟩, remembers, hkept⟩ :=
    (remembers.step computemd5 htime hlater hexactContact).after computemd5 hclock hexact₂
  have hnoted := hkept nonce _ hnoted
  -- up to the visit
  obtain ⟨time₃, htime₃, ⟨hvisitTime, -⟩, remembers', hkept'⟩ :=
    (remembers.step computemd5 hloginTime hloginLater hexactLogin).after computemd5 hclock hexact₃
  have hnoted' := hkept' nonce _ (hnoted.step remembers hloginTime hloginLater)
  have hcurrent : Current sessionExpiry _ login.outside.time nonce :=
    hnoted.current hissue (by omega) (by omega)
  have hcurrent' : Current sessionExpiry _ visit.outside.time nonce :=
    hnoted'.current hissue (by omega) (by omega)
  rw [after_split, after_split, after_split, start]
  constructor
  · obtain ⟨hadmissible, hsame⟩ := hlogin.admissible hcurrent
    refine handedWith_run remembers ?_ hsame ?_ hnonce.1
    · exact (remembers.isAuthorized_iff computemd5 hloginTime hexactLogin).mpr hadmissible
    · exact (remembers.mem_liveSessions_iff hloginTime hexactLogin nonce).mpr hcurrent
  · rw [remembers'.any_isRequest]
    exact (remembers'.isAuthorized_iff computemd5 hvisitTime hexactVisit).mpr
      (hvisit.admissible hnonce hcurrent')

def exampleNonce : Text := "00000000000000000000".toList

/-- A request of `bob` with a digest for the nonce, the hash being the identity. -/
def exampleLoginRequest : HTTPRequest.HeaderRequest "authorization".toList where
  before := ["GET / HTTP/1.1".toList, "Host: here".toList]
  name := "Authorization".toList
  value := authLine (.quoted false "Digest username".toList "bob".toList)
    [.quoted true "realm".toList "dumais".toList, .quoted true "nonce".toList exampleNonce,
      .quoted true "uri".toList "/".toList,
      .quoted true "response".toList "bob:dumais:secret:00000000000000000000:GET:/".toList]
  after := []
  body := []
  name_eq := by decide
  isLine := by decide +kernel
  first := by decide

/-- A request with the cookie behind another one. -/
def exampleVisitRequest : HTTPRequest.HeaderRequest "cookie".toList where
  before := ["GET /again HTTP/1.1".toList]
  name := "Cookie".toList
  value := "theme=dark; session=00000000000000000000; lang=en".toList
  after := ["Host: here".toList]
  body := []
  name_eq := by decide
  isLine := by decide
  first := by decide

/-- A call at the time, with the bytes and the random numbers. -/
def exampleCallAt (time : Int) (rand : Nat → Nat) (buffer : Text) : MessageCall where
  client := ⟨1, 0⟩
  buffer := buffer
  outside :=
    { time := time
      passedOver := fun _ => false
      rand := rand
      laterTime := time
      answer := fun _ => none }

/-- A client is challenged, then another one; the first one logs in and comes back. -/
theorem login_lasts_bob :
    let contact := exampleCallAt 100 (fun _ => 0) "GET / HTTP/1.1\r\n\r\n".toList
    let stranger := exampleCallAt 105 (fun i => i) "GET / HTTP/1.1\r\n\r\n".toList
    let login := exampleCallAt 110 (fun _ => 0) exampleLoginRequest.bytes
    let visit := exampleCallAt 130 (fun _ => 0) exampleVisitRequest.bytes
    let begun := start Issuing.exampleServer ["bob:secret".toList] 30
    HandedWith ("session=".toList ++ exampleNonce)
        (login.run id (begun.after id ([] ++ contact :: [stranger])).server).1 ∧
      (visit.run id (begun.after id ([] ++ contact :: ([stranger] ++ login :: []))).server).1.any
        Effect.isRequest = true := by
  have hdigest : BringsDigest id (["bob:secret".toList].foldl readPassword ∅) exampleNonce
      (exampleCallAt 110 (fun _ => 0) exampleLoginRequest.bytes) := by
    refine ⟨exampleLoginRequest, _, _, "secret".toList, rfl, rfl, ?_⟩
    decide +kernel
  have hcookie : BringsCookie exampleNonce
      (exampleCallAt 130 (fun _ => 0) exampleVisitRequest.bytes) := by
    refine ⟨exampleVisitRequest, "theme=dark; ".toList, "; lang=en".toList, rfl, ?_, ?_, ?_⟩
    · decide +kernel
    · exact Or.inr ⟨"theme=dark;".toList, by decide, by decide⟩
    · intro char hchar
      obtain rfl : ';' = char := Option.some.inj hchar
      decide
  refine login_lasts id rfl rfl ["bob:secret".toList] 30 ?_ ?_ ?_ (by decide) (by decide) hdigest
    hcookie
  · exact ⟨by decide, by decide, by decide, by decide, by decide, by decide, by decide, by decide,
      trivial⟩
  · simp [exampleCallAt]
  · decide +kernel

end Challenging

end DumaisLib.WebServer
