import DumaisLib.WebServer.Authentication

/-!
# Digests that are used for another request

A digest is checked for the method `GET` and for the URI that comes with it, not
for the method and the URL of the request line.
-/

namespace DumaisLib.WebServer

open WebServer

/-- What a client answers to a challenge: `MD5(MD5(user:dumais:password):nonce:MD5(method:URL))`. -/
def standardDigest (computemd5 : Text → Text) (username password nonce method url : Text) : Text :=
  computemd5 (computemd5 (username ++ ":dumais:".toList ++ password) ++ [':'] ++ nonce ++ [':'] ++
    computemd5 (method ++ ':' :: url))

/--
A request without a live session cookie, with the nonce of a session and a user
that has a password, and with a request line.
-/
structure Presented (server : WebServer) (request : HTTPRequest) (auth : HTTPAuth)
    (password method url : Text) : Prop where
  needsAuth : server.mNeedsAuth = true
  cookie_not_mem : request.getCookie "session".toList ∉ server.mSessions
  nonce_mem : auth.nonce ∈ server.mSessions
  lookup_password : server.mPasswords.lookup auth.username = some password
  method_eq : request.getMethod = some method
  url_eq : request.getURL = some url

/-- The request is accepted when its response field is the given one. -/
def Accepts (computemd5 : Text → Text) (server : WebServer) (request : HTTPRequest)
    (auth : HTTPAuth) (response : Text) : Prop :=
  validateAuthentication computemd5 server request { auth with response := response } = true

/--
The one response that is accepted is the digest for the method and the URL of
the request, and none that was captured from a request with others.  In a method
no colon stands, which would move the boundary between the method and the URL.
-/
def BoundToRequest (computemd5 : Text → Text) (server : WebServer) (request : HTTPRequest)
    (auth : HTTPAuth) (password method url : Text) : Prop :=
  (∀ response, Accepts computemd5 server request auth response ↔
    response = standardDigest computemd5 auth.username password auth.nonce method url) ∧
  ∀ (captured : HTTPRequest) (otherMethod otherUrl : Text),
    captured.getMethod = some otherMethod → captured.getURL = some otherUrl →
    ':' ∉ method → ':' ∉ otherMethod → ¬ (otherMethod = method ∧ otherUrl = url) →
    ¬ Accepts computemd5 server request auth
      (standardDigest computemd5 auth.username password auth.nonce otherMethod otherUrl)

variable {computemd5 : Text → Text} {server : WebServer} {request : HTTPRequest} {auth : HTTPAuth}
  {password method url : Text}

/-! ## What is accepted -/

/-- The code asks for the digest of a `GET` request for the URI in the header. -/
theorem expectedResponse_eq (auth : HTTPAuth) :
    expectedResponse computemd5 password auth =
      standardDigest computemd5 auth.username password auth.nonce "GET".toList auth.uri :=
  rfl

theorem standardDigest_inj (hinjective : Function.Injective computemd5)
    {username nonce otherMethod otherUrl : Text} :
    standardDigest computemd5 username password nonce method url =
        standardDigest computemd5 username password nonce otherMethod otherUrl ↔
      method ++ ':' :: url = otherMethod ++ ':' :: otherUrl := by
  unfold standardDigest
  rw [hinjective.eq_iff, List.append_cancel_left_eq, hinjective.eq_iff]

/-- Only the session, the user and the URI of the header decide what is accepted. -/
theorem Presented.accepts_iff (presented : Presented server request auth password method url)
    (response : Text) :
    Accepts computemd5 server request auth response ↔
      auth.nonce ≠ [] ∧
        response = standardDigest computemd5 auth.username password auth.nonce "GET".toList
          auth.uri := by
  have hneeds : ¬ (¬ server.mNeedsAuth = true) := not_not.mpr presented.needsAuth
  have hnonce : ¬ (auth.nonce ∉ server.mSessions) := not_not.mpr presented.nonce_mem
  unfold Accepts validateAuthentication
  dsimp only
  rw [if_neg hneeds, if_neg presented.cookie_not_mem, if_neg hnonce, presented.lookup_password]
  dsimp only
  rw [expectedResponse_eq]
  by_cases hnil : auth.nonce = []
  · simp [hnil]
  · rw [if_neg hnil]
    constructor
    · intro haccepted
      exact ⟨hnil, (of_decide_eq_true haccepted).symm⟩
    · rintro ⟨-, hresponse⟩
      exact decide_eq_true hresponse.symm

/-- The digests are bound to the request exactly when it is the one that the header describes. -/
theorem boundToRequest_iff (hinjective : Function.Injective computemd5)
    (presented : Presented server request auth password method url) :
    BoundToRequest computemd5 server request auth password method url ↔
      auth.nonce ≠ [] ∧ "GET".toList ++ ':' :: auth.uri = method ++ ':' :: url := by
  constructor
  · rintro ⟨honly, -⟩
    have haccepted := (presented.accepts_iff _).mp ((honly _).mpr rfl)
    exact ⟨haccepted.1, ((standardDigest_inj hinjective).mp haccepted.2).symm⟩
  · rintro ⟨hnil, hsame⟩
    have hdigest : standardDigest computemd5 auth.username password auth.nonce "GET".toList
        auth.uri = standardDigest computemd5 auth.username password auth.nonce method url :=
      (standardDigest_inj hinjective).mpr hsame
    refine ⟨fun response => ?_, ?_⟩
    · rw [presented.accepts_iff, hdigest]
      exact and_iff_right hnil
    · intro captured otherMethod otherUrl _ _ hcolon hother hdiffer haccepted
      have hequal := ((presented.accepts_iff _).mp haccepted).2
      rw [hdigest, standardDigest_inj hinjective] at hequal
      obtain ⟨hmethod, hurl⟩ := Search.split_inj hother hcolon hequal
      exact hdiffer ⟨hmethod, hurl⟩

/-! ## A captured digest -/

/-- The server of the examples after it has challenged a client. -/
def exampleServer : WebServer :=
  (Login.exampleContact.run id Login.exampleLogin.server).2

/-- The digest for `GET /`, with another request line in front. -/
def examplePost : HTTPRequest :=
  .ofMessage ("POST /b HTTP/1.1\r\nAuthorization: Digest username=\"bob\", " ++
    "nonce=\"00000000000000000000\", uri=\"/\", " ++
    "response=\"bob:dumais:secret:00000000000000000000:GET:/\"\r\n\r\n").toList

/-- What stands in its header. -/
def exampleAuth : HTTPAuth where
  username := "bob".toList
  nonce := "00000000000000000000".toList
  response := "bob:dumais:secret:00000000000000000000:GET:/".toList
  uri := "/".toList

theorem examplePost_getAuthorization : examplePost.getAuthorization = exampleAuth := by
  decide +kernel

theorem examplePost_presented :
    Presented exampleServer examplePost examplePost.getAuthorization "secret".toList "POST".toList
      "/b".toList := by
  rw [examplePost_getAuthorization]
  constructor
  · rfl
  · decide +kernel
  · decide +kernel
  · decide
  · decide +kernel
  · decide +kernel

theorem boundToRequest_iff_post :
    ¬ BoundToRequest id exampleServer examplePost examplePost.getAuthorization "secret".toList
      "POST".toList "/b".toList := by
  rw [boundToRequest_iff Function.injective_id examplePost_presented, examplePost_getAuthorization]
  decide

/-- The digest for `GET /` is accepted with a `POST` request for `/b`. -/
theorem captured_digest_accepted :
    Presented exampleServer examplePost examplePost.getAuthorization "secret".toList "POST".toList
        "/b".toList ∧
      ¬ BoundToRequest id exampleServer examplePost examplePost.getAuthorization "secret".toList
        "POST".toList "/b".toList := by
  refine ⟨examplePost_presented, fun hbound => ?_⟩
  have haccepted : Accepts id exampleServer examplePost examplePost.getAuthorization
      exampleAuth.response := by
    rw [examplePost_presented.accepts_iff, examplePost_getAuthorization]
    decide
  have hdigest := (hbound.1 _).mp haccepted
  rw [examplePost_getAuthorization] at hdigest
  exact absurd hdigest (by decide)

end DumaisLib.WebServer
