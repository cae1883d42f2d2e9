import DumaisLib.WebServer.Authentication

/-!
# How long a session lasts

A session expires a fixed time after its nonce was made.  A request that is
refused while it names a live session moves the expiry, and the session lasts.
-/

namespace DumaisLib.WebServer

open Machine WebServer

namespace MessageCall

/-- The nonce that the call makes and sends in a challenge. -/
def issued? (computemd5 : Text → Text) (call : MessageCall) (server : WebServer) : Option Text :=
  if call.isAuthorized computemd5 server then none
  else if call.NamesSession server then none
  else some (generateNonce call.outside.rand)

/-- The request is let through, with the nonce of a live session in its cookie or its digest. -/
def AdmittedBy (computemd5 : Text → Text) (nonce : Text) (call : MessageCall) (server : WebServer) :
    Prop :=
  call.isAuthorized computemd5 server = true ∧
    (call.sessionCookie = nonce ∧ nonce ∈ call.liveSessions server ∨
      call.correctDigest computemd5 server = true ∧ call.auth.nonce = nonce)

theorem AdmittedBy.mem_liveSessions {computemd5 : Text → Text} {nonce : Text} {call : MessageCall}
    {server : WebServer} (hadmitted : call.AdmittedBy computemd5 nonce server) :
    nonce ∈ call.liveSessions server := by
  rcases hadmitted.2 with ⟨-, hlive⟩ | ⟨hdigest, rfl⟩
  · exact hlive
  · exact of_decide_eq_true (Bool.and_eq_true_iff.mp hdigest).1

/-- The request is refused, and names the live session with this nonce. -/
def Renews (computemd5 : Text → Text) (nonce : Text) (call : MessageCall) (server : WebServer) :
    Prop :=
  call.isAuthorized computemd5 server = false ∧ call.NamesSession server ∧ call.auth.nonce = nonce

instance (computemd5 : Text → Text) (nonce : Text) (call : MessageCall) (server : WebServer) :
    Decidable (call.AdmittedBy computemd5 nonce server) :=
  inferInstanceAs (Decidable (_ ∧ _))

instance (computemd5 : Text → Text) (nonce : Text) (call : MessageCall) (server : WebServer) :
    Decidable (call.Renews computemd5 nonce server) :=
  inferInstanceAs (Decidable (_ ∧ _))

/-- The clock, which is read twice in a call, never goes back. -/
def Clocked : Int → List MessageCall → Prop
  | _, [] => True
  | now, call :: calls =>
      now ≤ call.outside.time ∧ call.outside.time ≤ call.outside.laterTime ∧
        Clocked call.outside.laterTime calls

end MessageCall

/-- The server, and the nonces that it has issued, the last one first, each with its time. -/
structure Issuing where
  server : WebServer
  issued : List (Text × Int)

namespace Issuing

/-- One more message. -/
def step (computemd5 : Text → Text) (issuing : Issuing) (call : MessageCall) :
    List Effect × Issuing :=
  let (effects, server) := call.run computemd5 issuing.server
  let issued :=
    (call.issued? computemd5 issuing.server).toList.map fun nonce =>
      (nonce, call.outside.laterTime)
  (effects, ⟨server, issued ++ issuing.issued⟩)

/-- A request that the nonce lets through comes within the time since the nonce was issued. -/
def InTime (computemd5 : Text → Text) (sessionExpiry : Nat) (nonce : Text) (issuing : Issuing)
    (call : MessageCall) : Prop :=
  call.AdmittedBy computemd5 nonce issuing.server →
    ∃ issue ∈ issuing.issued.lookup nonce, call.outside.time ≤ issue + sessionExpiry

instance (computemd5 : Text → Text) (sessionExpiry : Nat) (nonce : Text) (issuing : Issuing)
    (call : MessageCall) : Decidable (issuing.InTime computemd5 sessionExpiry nonce call) :=
  inferInstanceAs (Decidable (_ → _))

/-- The session with the nonce expires within the time since the nonce was issued. -/
structure Aging (sessionExpiry : Nat) (nonce : Text) (issuing : Issuing) : Prop where
  mSessionExpires_eq : issuing.server.mSessionExpires = sessionExpiry
  expires_le : ∀ session ∈ issuing.server.mSessions.lookup nonce,
    ∃ issue ∈ issuing.issued.lookup nonce, (session.mExpires : Int) ≤ issue + sessionExpiry

/-! ## One message -/

theorem lookup_clearExpiredSessions {time : Int} {passedOver : Text → Bool} {sessions : Sessions}
    {nonce : Text} {session : WebSession}
    (hfound : session ∈ (clearExpiredSessions time passedOver sessions).lookup nonce) :
    session ∈ sessions.lookup nonce ∧
      (passedOver nonce = false → time ≤ (session.mExpires : Int)) := by
  obtain ⟨hentry, hkept⟩ := List.mem_filter.mp (AList.mem_lookup_iff.mp hfound)
  refine ⟨AList.mem_lookup_iff.mpr hentry, fun hpassed => ?_⟩
  rw [hpassed, Bool.or_false] at hkept
  exact not_lt.mp (of_decide_eq_true hkept)

variable {computemd5 : Text → Text} {sessionExpiry : Nat} {nonce : Text} {issuing : Issuing}
  {call : MessageCall}

theorem Aging.inTime (aging : Aging sessionExpiry nonce issuing)
    (hexact : call.outside.passedOver nonce = false) :
    issuing.InTime computemd5 sessionExpiry nonce call := by
  intro hadmitted
  have hlive := hadmitted.mem_liveSessions
  obtain ⟨session, hsession⟩ := Option.isSome_iff_exists.mp (AList.lookup_isSome.mpr hlive)
  obtain ⟨hold, htime⟩ := lookup_clearExpiredSessions hsession
  obtain ⟨issue, hissue, hexpires⟩ := aging.expires_le session hold
  exact ⟨issue, hissue, (htime hexact).trans hexpires⟩

theorem step_server :
    (issuing.step computemd5 call).2.server = (call.run computemd5 issuing.server).2 :=
  rfl

/-- Only the nonce of the challenge is issued. -/
theorem lookup_issued_of_ne (hne : nonce ≠ call.challengeNonce issuing.server) :
    (issuing.step computemd5 call).2.issued.lookup nonce = issuing.issued.lookup nonce := by
  have hissued : (issuing.step computemd5 call).2.issued =
      ((call.issued? computemd5 issuing.server).toList.map fun nonce =>
        (nonce, call.outside.laterTime)) ++ issuing.issued := rfl
  rw [hissued]
  unfold MessageCall.issued?
  split
  · rfl
  · split
    · rfl
    · rename_i hnames
      rw [MessageCall.challengeNonce, if_neg hnames] at hne
      refine List.lookup_cons.trans ?_
      rw [beq_eq_false_iff_ne.mpr hne]
      rfl

theorem lookup_issued_self (hauthorized : call.isAuthorized computemd5 issuing.server = false)
    (hnames : ¬ call.NamesSession issuing.server) :
    (issuing.step computemd5 call).2.issued.lookup (call.challengeNonce issuing.server) =
      some call.outside.laterTime := by
  have hissued : call.issued? computemd5 issuing.server =
      some (call.challengeNonce issuing.server) := by
    rw [MessageCall.issued?, MessageCall.challengeNonce, hauthorized, if_neg Bool.false_ne_true,
      if_neg hnames, if_neg hnames]
  have hstep : (issuing.step computemd5 call).2.issued =
      (call.challengeNonce issuing.server, call.outside.laterTime) :: issuing.issued := by
    unfold Issuing.step
    rw [hissued]
    rfl
  rw [hstep, List.lookup_cons_self]

/-- The expiry is a time from the call on, reduced to 32 bits. -/
theorem expires_le_later (htime : 0 ≤ call.outside.laterTime) (server : WebServer) :
    (call.expires server : Int) ≤ call.outside.laterTime + server.mSessionExpires := by
  unfold MessageCall.expires
  omega

/-- A session is made for a nonce that has just been issued, or is left as it was. -/
theorem Aging.step (aging : Aging sessionExpiry nonce issuing)
    (htime : 0 ≤ call.outside.laterTime)
    (hkept : ¬ call.Renews computemd5 nonce issuing.server) :
    Aging sessionExpiry nonce (issuing.step computemd5 call).2 := by
  have hold (session : WebSession)
      (hsession : session ∈ (call.liveSessions issuing.server).lookup nonce) :
      ∃ issue ∈ issuing.issued.lookup nonce, (session.mExpires : Int) ≤ issue + sessionExpiry :=
    aging.expires_le session (lookup_clearExpiredSessions hsession).1
  cases hauthorized : call.isAuthorized computemd5 issuing.server with
  | true =>
      have hissued : (issuing.step computemd5 call).2.issued = issuing.issued := by
        unfold Issuing.step MessageCall.issued?
        rw [if_pos hauthorized]
        rfl
      constructor
      · rw [step_server, MessageCall.run_authorized hauthorized]
        exact aging.mSessionExpires_eq
      · rw [step_server, MessageCall.run_authorized hauthorized, hissued]
        exact hold
  | false =>
      obtain ⟨mNonce, hrun⟩ := MessageCall.run_unauthorized hauthorized
      constructor
      · rw [step_server, hrun]
        exact aging.mSessionExpires_eq
      · rw [step_server, hrun]
        intro session hsession
        by_cases hsame : nonce = call.challengeNonce issuing.server
        · have hnames : ¬ call.NamesSession issuing.server := by
            intro hnames
            rw [MessageCall.challengeNonce, if_pos hnames] at hsame
            exact hkept ⟨hauthorized, hnames, hsame.symm⟩
          rw [hsame, AList.lookup_insert] at hsession
          obtain rfl := Option.some.inj hsession
          rw [hsame, lookup_issued_self hauthorized hnames, ← aging.mSessionExpires_eq]
          exact ⟨_, rfl, expires_le_later htime issuing.server⟩
        · rw [AList.lookup_insert_ne hsame] at hsession
          rw [lookup_issued_of_ne hsame]
          exact hold session hsession

/-! ## Runs -/

theorem time_nonneg {now : Int} {calls : List MessageCall} (hnow : 0 ≤ now)
    (hclock : MessageCall.Clocked now calls) : ∀ call ∈ calls, 0 ≤ call.outside.laterTime := by
  induction calls generalizing now with
  | nil => simp
  | cons call calls ih =>
      obtain ⟨htime, hlater, hrest⟩ := hclock
      have hfirst : 0 ≤ call.outside.laterTime := hnow.trans (htime.trans hlater)
      exact List.forall_mem_cons.mpr ⟨hfirst, ih hfirst hrest⟩

/--
In every run in which no refused request names the session of a nonce while it
is live, the nonce lets requests through only within the time since it was issued.
-/
theorem admitted_in_time (computemd5 : Text → Text) {server : WebServer}
    (hsessions : server.mSessions = ∅) (lines : List Text) (sessionExpiry : Nat) (nonce : Text)
    {calls : List MessageCall} (hclock : MessageCall.Clocked 0 calls)
    (hexact : ∀ call ∈ calls, ∀ other, call.outside.passedOver other = false)
    (hkept : Guarded (step computemd5)
      (fun issuing call => ¬ call.Renews computemd5 nonce issuing.server)
      ⟨server.requireAuth lines sessionExpiry, []⟩ calls) :
    Guarded (step computemd5) (InTime computemd5 sessionExpiry nonce)
      ⟨server.requireAuth lines sessionExpiry, []⟩ calls := by
  have hstart : Aging sessionExpiry nonce ⟨server.requireAuth lines sessionExpiry, []⟩ := by
    constructor
    · rfl
    · intro session hsession
      change session ∈ server.mSessions.lookup nonce at hsession
      rw [hsessions] at hsession
      cases hsession
  have htime := time_nonneg (le_refl 0) hclock
  apply Guarded.imp ?_ ?_ hstart hkept
  · intro issuing call hcall aging hkept
    exact aging.step (htime call hcall) hkept
  · intro issuing call hcall aging _
    exact aging.inTime (hexact call hcall nonce)

/-! ## A session that is used, and one that lasts -/

def exampleServer : WebServer :=
  (WebServer.create (fun _ => ⟨⟨0, 0⟩, none⟩) false).setListener

def exampleCall (time : Int) (buffer : String) : MessageCall where
  client := ⟨1, 0⟩
  buffer := buffer.toList
  outside :=
    { time := time
      passedOver := fun _ => false
      rand := fun _ => 0
      laterTime := time
      answer := fun _ => none }

/-- A challenge, and after thirty seconds a request with its nonce as the cookie. -/
def examplePunctual : List MessageCall :=
  [exampleCall 100 "GET / HTTP/1.1\r\n\r\n",
    exampleCall 130 "GET / HTTP/1.1\r\nCookie: session=00000000000000000000\r\n\r\n"]

theorem admitted_in_time_punctual :
    Guarded (step id) (InTime id 30 "00000000000000000000".toList)
      ⟨exampleServer.requireAuth ["bob:secret".toList] 30, []⟩ examplePunctual :=
  admitted_in_time id rfl _ 30 _ ⟨by decide, by decide, by decide, by decide, trivial⟩
    (by simp [examplePunctual, exampleCall])
    ⟨by decide +kernel, by decide +kernel, trivial⟩

/-- In between a request is refused that names the nonce. -/
def exampleRenewal : List MessageCall :=
  [exampleCall 100 "GET / HTTP/1.1\r\n\r\n",
    exampleCall 120 ("GET / HTTP/1.1\r\nAuthorization: Digest username=\"bob\", " ++
      "nonce=\"00000000000000000000\", uri=\"/\", response=\"\"\r\n\r\n"),
    exampleCall 140 "GET / HTTP/1.1\r\nCookie: session=00000000000000000000\r\n\r\n"]

/-- Forty seconds after it was issued the nonce still lets a request through. -/
theorem refused_request_renews :
    MessageCall.Clocked 0 exampleRenewal ∧
      (∀ call ∈ exampleRenewal, ∀ other, call.outside.passedOver other = false) ∧
      ¬ Guarded (step id) (InTime id 30 "00000000000000000000".toList)
        ⟨exampleServer.requireAuth ["bob:secret".toList] 30, []⟩ exampleRenewal := by
  refine ⟨⟨by decide, by decide, by decide, by decide, by decide, by decide, trivial⟩,
    by simp [exampleRenewal, exampleCall], ?_⟩
  rintro ⟨_, _, hlate, _⟩
  exact absurd hlate (by decide +kernel)

end Issuing

end DumaisLib.WebServer
