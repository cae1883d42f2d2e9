import DumaisLib.Utils.MPSCRingBuffer
import DumaisLib.WebServer.HTTPRequest
import DumaisLib.WebServer.HTTPResponse

/-!
# The web server

The engine that authenticates requests, hands them to the listener and sends
its answers; in asynchronous mode the answers come back through a ring buffer.
-/

set_option linter.dupNamespace false

namespace DumaisLib.WebServer

open DumaisLib.Utils

/--
A `TcpClient*`.  Pointers are compared by their address; `connection` is the
number of the object that the pointer was obtained from, which no code can see.
-/
structure TcpClientPointer where
  address : Nat
  connection : Nat
  deriving DecidableEq

/-- `mExpires` is below `2 ^ 32`. -/
structure WebSession where
  mExpires : Nat
  mNonce : Text
  deriving DecidableEq

/-- The map from nonces to sessions. -/
abbrev Sessions := AList fun _ : Text => WebSession

/-- A null response stands for none. -/
structure AsyncResponse where
  client : TcpClientPointer
  resp : Option HTTPResponse
  deriving DecidableEq

def ASYNC_RESPONSES : Nat := 200

instance : NeZero ASYNC_RESPONSES := ⟨by decide⟩

structure WebServer where
  clients : AList fun _ : Nat => TcpClientPointer
  mAsyncResponses : MPSCRingBuffer AsyncResponse ASYNC_RESPONSES
  hasListener : Bool
  mPasswords : TextMap
  mSessions : Sessions
  mSessionExpires : Nat
  mNeedsAuth : Bool
  mAsync : Bool

/-- What an asynchronous request leaves with the listener. -/
structure HTTPRequestCallBack where
  client : TcpClientPointer
  cookie : Text
  deriving DecidableEq

/-- What the server does to its listener and its clients. -/
inductive Effect where
  | processHTTPRequest (request : HTTPRequest)
  | processHTTPRequestAsync (request : HTTPRequest) (callBack : HTTPRequestCallBack)
  | sendResponse (response : HTTPResponse) (client : TcpClientPointer)
  deriving DecidableEq

/-- The client that an effect concerns. -/
def Effect.client? : Effect → Option TcpClientPointer
  | .processHTTPRequest _ => none
  | .processHTTPRequestAsync _ callBack => some callBack.client
  | .sendResponse _ client => some client

/--
What a call gets from outside: two clock readings, random numbers, the answer
of a synchronous listener, and which of the expired sessions are passed over
when the loop that erases them goes on from an erased iterator.
-/
structure Surroundings where
  time : Int
  passedOver : Text → Bool
  rand : Nat → Nat
  laterTime : Int
  answer : HTTPRequest → Option HTTPResponse

namespace WebServer

/-- The constructor; `fresh` is what the new ring happens to contain. -/
def create (fresh : Fin ASYNC_RESPONSES → AsyncResponse) (async : Bool) : WebServer where
  clients := ∅
  mAsyncResponses := .create fresh
  hasListener := false
  mPasswords := ∅
  mSessions := ∅
  mSessionExpires := 0
  mNeedsAuth := false
  mAsync := async

def setListener (server : WebServer) : WebServer :=
  { server with hasListener := true }

/-- The user name and the password of a line of the password file. -/
def readPassword (passwords : TextMap) (line : Text) : TextMap :=
  match Search.find [':'] line 0 with
  | some delimiter => passwords.insert (line.take delimiter) (line.drop (delimiter + 1))
  | none => passwords

/-- `lines` are the lines of the password file. -/
def requireAuth (server : WebServer) (lines : List Text) (sessionExpiry : Nat) : WebServer :=
  { server with
    mNeedsAuth := true
    mSessionExpires := sessionExpiry
    mPasswords := lines.foldl readPassword server.mPasswords }

/-! ## Authentication -/

def alphanum : Text :=
  "0123456789ABCDEFGHIJKLMNOPQRSTUVWXYZabcdefghijklmnopqrstuvwxyz".toList

def generateNonce (rand : Nat → Nat) : Text :=
  (List.range 20).map fun i => alphanum.getD (rand i % 62) '0'

def clearExpiredSessions (time : Int) (passedOver : Text → Bool) (sessions : Sessions) :
    Sessions where
  entries := sessions.entries.filter fun session =>
    ¬ (session.2.mExpires : Int) < time || passedOver session.1
  nodupKeys := sessions.nodupKeys.sublist List.filter_sublist

/-- The response that the digest of the user's password asks for. -/
def expectedResponse (computemd5 : Text → Text) (password : Text) (auth : HTTPAuth) : Text :=
  let a1 := auth.username ++ ":dumais:".toList ++ password
  let ha1 := computemd5 a1
  let a2 := "GET:".toList ++ auth.uri
  let ha2 := computemd5 a2
  let a3 := ha1 ++ [':'] ++ auth.nonce ++ [':'] ++ ha2
  computemd5 a3

def validateAuthentication (computemd5 : Text → Text) (server : WebServer)
    (request : HTTPRequest) (auth : HTTPAuth) : Bool :=
  if ¬ server.mNeedsAuth then true
  else
    let sessionCookie := request.getCookie "session".toList
    if sessionCookie ∈ server.mSessions then true
    else if auth.nonce = [] then false
    else if auth.nonce ∉ server.mSessions then false
    else
      match server.mPasswords.lookup auth.username with
      | none => false
      | some password => expectedResponse computemd5 password auth = auth.response

/-! ## Messages -/

/-- `{"status" : "Authorization needed"}` -/
def unauthorizedContent : Text := "\x7b\"status\" : \"Authorization needed\"\x7d".toList

/-- The challenge to a request that is not authorized, and the session for its nonce. -/
def challenge (outside : Surroundings) (client : TcpClientPointer) (request : HTTPRequest)
    (auth : HTTPAuth) (server : WebServer) : List Effect × WebServer :=
  let found := if auth.nonce ≠ [] then server.mSessions.lookup auth.nonce else none
  let (nonce, session) :=
    match found with
    | some session => (auth.nonce, session)
    | none =>
        let nonce := generateNonce outside.rand
        (nonce, ⟨0, nonce⟩)
  let expires := ((outside.laterTime + server.mSessionExpires) % 2 ^ 32).toNat
  let authHeader := "Digest realm=\"dumais\",nonce=\"".toList ++ nonce ++ ['"']
  let response := HTTPResponse.buildBufferedResponse .Unauthorized unauthorizedContent
    "application/json".toList authHeader
  let response :=
    if request.wantsAuthenticationHack then response.useAuthenticationHack else response
  ([.sendResponse response client],
    { server with mSessions := server.mSessions.insert nonce { session with mExpires := expires } })

/-- The response with the cookie, if there is one. -/
def withCookie (cookie : Text) (response : HTTPResponse) : HTTPResponse :=
  if cookie ≠ [] then response.setCookie cookie else response

def onClientMessage (computemd5 : Text → Text) (outside : Surroundings)
    (client : TcpClientPointer) (buffer : Text) (server : WebServer) :
    List Effect × WebServer :=
  let server :=
    { server with
      mSessions := clearExpiredSessions outside.time outside.passedOver server.mSessions }
  let request := HTTPRequest.ofMessage buffer
  let auth := request.getAuthorization
  if validateAuthentication computemd5 server request auth then
    if server.hasListener then
      let cookie :=
        if auth.nonce ≠ [] ∧ auth.nonce ∈ server.mSessions then
          "session=".toList ++ auth.nonce
        else []
      if server.mAsync then
        ([.processHTTPRequestAsync request ⟨client, cookie⟩], server)
      else
        (.processHTTPRequest request ::
          match outside.answer request with
          | none => []
          | some response => [.sendResponse (withCookie cookie response) client],
          server)
    else
      ([.sendResponse (.buildBufferedResponse .ServiceUnavailable [] [] []) client], server)
  else
    challenge outside client request auth server

def onFramingError (client : TcpClientPointer) (error : Int) : List Effect :=
  let code : HTTPResponseCode :=
    if error = -3 then .NotImplemented
    else if error = -2 then .RequestEntityTooLarge
    else .ServiceUnavailable
  [.sendResponse (.buildBufferedResponse code [] [] []) client]

/-! ## Connections and asynchronous answers -/

def onClientConnected (client : TcpClientPointer) (server : WebServer) : WebServer :=
  { server with clients := server.clients.insert client.address client }

def onClientDisconnected (client : TcpClientPointer) (server : WebServer) : WebServer :=
  { server with clients := server.clients.erase client.address }

/-- The listener answers an asynchronous request. -/
def callBack (request : HTTPRequestCallBack) (resp : Option HTTPResponse) (server : WebServer) :
    Bool × WebServer :=
  let answer : AsyncResponse := ⟨request.client, resp.map (withCookie request.cookie)⟩
  let (accepted, ring) := server.mAsyncResponses.put answer
  (accepted, { server with mAsyncResponses := ring })

/-- One turn of the loop in `processAsyncQueue`; no turn is left when the queue is empty. -/
def asyncQueueTurn (server : WebServer) : Option (List Effect) × WebServer :=
  let (answer, ring) := server.mAsyncResponses.get
  let server := { server with mAsyncResponses := ring }
  match answer with
  | none => (none, server)
  | some answer =>
      if answer.client.address ∈ server.clients then
        (some (answer.resp.toList.map fun response => .sendResponse response answer.client),
          server)
      else (some [], server)

/-! ## What a message leaves alone -/

/-- Every effect on a client is one on the client whose message it is. -/
theorem onClientMessage_frame (computemd5 : Text → Text) (outside : Surroundings)
    (client : TcpClientPointer) (buffer : Text) (server : WebServer) :
    let result := server.onClientMessage computemd5 outside client buffer
    result.2.clients = server.clients ∧ result.2.mAsyncResponses = server.mAsyncResponses ∧
      ∀ effect ∈ result.1, ∀ other, effect.client? = some other → other = client := by
  have hsend (response : HTTPResponse) (effect : Effect)
      (heffect : effect ∈ [Effect.sendResponse response client]) (other : TcpClientPointer)
      (hother : effect.client? = some other) : other = client := by
    obtain rfl := List.mem_singleton.mp heffect
    exact (Option.some.inj hother).symm
  unfold onClientMessage
  dsimp only
  split
  · split
    · split
      · refine ⟨rfl, rfl, fun effect heffect other hother => ?_⟩
        obtain rfl := List.mem_singleton.mp heffect
        exact (Option.some.inj hother).symm
      · refine ⟨rfl, rfl, fun effect heffect other hother => ?_⟩
        rcases List.mem_cons.mp heffect with rfl | hanswer
        · cases hother
        · split at hanswer
          · cases hanswer
          · exact hsend _ effect hanswer other hother
    · exact ⟨rfl, rfl, hsend _⟩
  · exact ⟨rfl, rfl, hsend _⟩

end WebServer

end DumaisLib.WebServer
