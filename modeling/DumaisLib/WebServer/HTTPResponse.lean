import DumaisLib.Lib.Text

/-!
# HTTP responses

A response is built in memory; its header is put in front of the content when
the first chunk of it is asked for.
-/

namespace DumaisLib.WebServer

inductive HTTPResponseCode where
  | Continue
  | SwitchingProtocols
  | Processing
  | OK
  | Created
  | Accepted
  | NonAuthoritativeInformation
  | NoContent
  | ResetContent
  | PartialContent
  | MultiStatus
  | AlreadyReported
  | IMUsed
  | MultipleChoices
  | MovedPermanently
  | Found
  | SeeOther
  | NotModified
  | UseProxy
  | Reserved
  | TemporaryRedirect
  | PermanentRedirect
  | BadRequest
  | Unauthorized
  | PaymentRequired
  | Forbidden
  | NotFound
  | MethodNotAllowed
  | NotAcceptable
  | ProxyAuthenticationRequired
  | RequestTimeout
  | Conflict
  | Gone
  | LengthRequired
  | PreconditionFailed
  | RequestEntityTooLarge
  | RequestURITooLong
  | UnsupportedMediaType
  | RequestedRangeNotSatisfiable
  | ExpectationFailed
  | UnprocessableEntity
  | Locked
  | FailedDependency
  | UpgradeRequired
  | PreconditionRequired
  | TooManyRequests
  | RequestHeaderFieldsTooLarge
  | InternalServerError
  | NotImplemented
  | BadGateway
  | ServiceUnavailable
  | GatewayTimeout
  | HTTPVersionNotSupported
  | VariantAlsoNegotiates
  | InsufficientStorage
  | LoopDetected
  | NotExtended
  | NetworkAuthenticationRequired
  deriving DecidableEq

/-- The status text of each code. -/
def responseCodesString : HTTPResponseCode → Text
  | .Continue => "100 Continue".toList
  | .SwitchingProtocols => "101 SwitchingProtocols".toList
  | .Processing => "102 Processing".toList
  | .OK => "200 OK".toList
  | .Created => "201 Created".toList
  | .Accepted => "202 Accepted".toList
  | .NonAuthoritativeInformation => "203 NonAuthoritativeInformation".toList
  | .NoContent => "204 NoContent".toList
  | .ResetContent => "205 ResetContent".toList
  | .PartialContent => "206 PartialContent".toList
  | .MultiStatus => "207 Multi-Status".toList
  | .AlreadyReported => "208 AlreadyReported".toList
  | .IMUsed => "226 IMUsed".toList
  | .MultipleChoices => "300 MultipleChoices".toList
  | .MovedPermanently => "301 MovedPermanently".toList
  | .Found => "302 Found".toList
  | .SeeOther => "303 SeeOther".toList
  | .NotModified => "304 NotModified".toList
  | .UseProxy => "305 UseProxy".toList
  | .Reserved => "306 Reserved".toList
  | .TemporaryRedirect => "307 TemporaryRedirect".toList
  | .PermanentRedirect => "308 PermanentRedirect".toList
  | .BadRequest => "400 BadRequest".toList
  | .Unauthorized => "401 Unauthorized".toList
  | .PaymentRequired => "402 PaymentRequired".toList
  | .Forbidden => "403 Forbidden".toList
  | .NotFound => "404 NotFound".toList
  | .MethodNotAllowed => "405 MethodNotAllowed".toList
  | .NotAcceptable => "406 NotAcceptable".toList
  | .ProxyAuthenticationRequired => "407 ProxyAuthenticationRequired".toList
  | .RequestTimeout => "408 RequestTimeout".toList
  | .Conflict => "409 Conflict".toList
  | .Gone => "410 Gone".toList
  | .LengthRequired => "411 LengthRequired".toList
  | .PreconditionFailed => "412 PreconditionFailed".toList
  | .RequestEntityTooLarge => "413 RequestEntityTooLarge".toList
  | .RequestURITooLong => "414 Request-URITooLong".toList
  | .UnsupportedMediaType => "415 UnsupportedMediaType".toList
  | .RequestedRangeNotSatisfiable => "416 RequestedRangeNotSatisfiable".toList
  | .ExpectationFailed => "417 ExpectationFailed".toList
  | .UnprocessableEntity => "422 UnprocessableEntity".toList
  | .Locked => "423 Locked".toList
  | .FailedDependency => "424 FailedDependency".toList
  | .UpgradeRequired => "426 UpgradeRequired".toList
  | .PreconditionRequired => "428 PreconditionRequired".toList
  | .TooManyRequests => "429 TooManyRequests".toList
  | .RequestHeaderFieldsTooLarge => "431 RequestHeaderFieldsTooLarge".toList
  | .InternalServerError => "500 InternalServerError".toList
  | .NotImplemented => "501 NotImplemented".toList
  | .BadGateway => "502 BadGateway".toList
  | .ServiceUnavailable => "503 ServiceUnavailable".toList
  | .GatewayTimeout => "504 GatewayTimeout".toList
  | .HTTPVersionNotSupported => "505 HTTPVersionNotSupported".toList
  | .VariantAlsoNegotiates => "506 VariantAlsoNegotiates(Experimental)".toList
  | .InsufficientStorage => "507 InsufficientStorage".toList
  | .LoopDetected => "508 LoopDetected".toList
  | .NotExtended => "510 NotExtended".toList
  | .NetworkAuthenticationRequired => "511 NetworkAuthenticationRequired".toList

/-- A buffered response. -/
structure HTTPResponse where
  mResponseCode : HTTPResponseCode
  mContentType : Text
  mAuthHeader : Text
  mHeader : Text
  mCookie : Text
  mAuthenticationHack : Bool
  mHeaderBuilt : Bool
  mContent : Text
  deriving DecidableEq

namespace HTTPResponse

def buildBufferedResponse (code : HTTPResponseCode) (content contentType authHeader : Text) :
    HTTPResponse where
  mResponseCode := code
  mContentType := contentType
  mAuthHeader := authHeader
  mHeader := []
  mCookie := []
  mAuthenticationHack := false
  mHeaderBuilt := false
  mContent := content

def useAuthenticationHack (response : HTTPResponse) : HTTPResponse :=
  { response with mAuthenticationHack := true }

def setCookie (cookie : Text) (response : HTTPResponse) : HTTPResponse :=
  { response with mCookie := cookie }

/-- `"name: value\r\n"`, unless the value is empty. -/
def headerLine (name value after : Text) : Text :=
  if value = [] then [] else name ++ value ++ after ++ "\r\n".toList

def buildHeader (response : HTTPResponse) (contentSize : Nat) : Bool × HTTPResponse :=
  if response.mHeaderBuilt then
    (false, response)
  else
    let authenticate :=
      if response.mAuthenticationHack then "X-WWW-Authenticate: " else "WWW-Authenticate: "
    let header :=
      "HTTP/1.1 ".toList ++ responseCodesString response.mResponseCode ++ "\r\n".toList ++
        "Content-Length: ".toList ++ (toString contentSize).toList ++ "\r\n".toList ++
        headerLine authenticate.toList response.mAuthHeader [] ++
        headerLine "Content-Type: ".toList response.mContentType "; charset=UTF-8".toList ++
        headerLine "Set-Cookie: ".toList response.mCookie [] ++
        "Connection: Close\r\n".toList ++ "Access-Control-Allow-Origin: *\r\n".toList ++
        "\r\n".toList
    (true, { response with mHeader := header, mHeaderBuilt := true })

/-- The bytes from `startIndex` on, at most `max` of them. -/
def getResponseChunk (response : HTTPResponse) (startIndex max : Nat) : Text × HTTPResponse :=
  let (built, response) := response.buildHeader response.mContent.length
  let response :=
    if built then { response with mContent := response.mHeader ++ response.mContent }
    else response
  (Text.substr response.mContent startIndex max, response)

/-- The response once its header is in front of its content. -/
def prepared (response : HTTPResponse) : HTTPResponse :=
  (response.getResponseChunk 0 0).2

theorem getResponseChunk_eq (response : HTTPResponse) (startIndex max : Nat) :
    response.getResponseChunk startIndex max =
      (Text.substr response.prepared.mContent startIndex max, response.prepared) := rfl

theorem prepared_prepared (response : HTTPResponse) :
    response.prepared.prepared = response.prepared := by
  cases hbuilt : response.mHeaderBuilt <;> simp [prepared, getResponseChunk, buildHeader, hbuilt]

theorem prepared_getResponseChunk (response : HTTPResponse) (startIndex max : Nat) :
    (response.getResponseChunk startIndex max).2.prepared = response.prepared :=
  response.prepared_prepared

theorem length_getResponseChunk (response : HTTPResponse) (startIndex max : Nat) :
    (response.getResponseChunk startIndex max).1.length =
      min max (response.prepared.mContent.length - startIndex) := by
  rw [getResponseChunk_eq, Text.substr, List.length_take, List.length_drop]

end HTTPResponse

end DumaisLib.WebServer
