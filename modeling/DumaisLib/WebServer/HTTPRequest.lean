import DumaisLib.WebServer.HTTPFramingStrategy

/-!
# A received HTTP request

The request keeps the bytes of its message and reads its fields from the header
by regular expressions, each time it is asked for one.
-/

namespace DumaisLib.WebServer

open Regex

structure HTTPAuth where
  username : Text
  nonce : Text
  response : Text
  uri : Text
  deriving DecidableEq

structure HTTPRequest where
  mHeader : Text
  mBuffer : Text
  deriving DecidableEq

namespace HTTPRequest

/-- The position of the final line feed of the first empty line, or the size. -/
def headerSize (buffer : Text) : Nat :=
  match Search.find HTTPFramingStrategy.END_OF_HEADER buffer 0 with
  | some start => start + 3
  | none => max 3 buffer.length

/-- The constructor. -/
def ofMessage (buffer : Text) : HTTPRequest where
  mHeader := buffer.take (headerSize buffer)
  mBuffer := buffer

/-- `header + ": (.*)"`, ignoring case. -/
def headerPattern (header : Text) : List (Piece Char) :=
  (Text.noCase (header ++ ": ".toList)).map .one ++ [.many Text.dot true]

def getHeader (request : HTTPRequest) (header : Text) : Text :=
  match search (headerPattern header) request.mHeader with
  | some hit => hit.captures.headD []
  | none => []

def getData (request : HTTPRequest) : Text :=
  request.mBuffer.drop (request.mHeader.length + 1)

/-- `^(.*) (.*) (.*)`, matched at the beginning. -/
def requestLinePattern : List (Piece Char) :=
  [.many Text.dot true, .one (· = ' '), .many Text.dot true, .one (· = ' '), .many Text.dot true]

/-- Without a match the function returns nothing, which is undefined. -/
def getURL (request : HTTPRequest) : Option Text :=
  (matchHere requestLinePattern request.mHeader).map fun hit => (hit.captures.drop 1).headD []

def getMethod (request : HTTPRequest) : Option Text :=
  (matchHere requestLinePattern request.mHeader).map fun hit => hit.captures.headD []

def isSpaceOrAlphanumeric (char : Char) : Bool :=
  char.isAlphanum || char = ' '

/-- `name + "=([a-zA-Z0-9\\. ]*);?"` -/
def cookiePattern (name : Text) : List (Piece Char) :=
  (name ++ ['=']).map (fun letter => .one (· = letter)) ++
    [.many (fun char => isSpaceOrAlphanumeric char || char = '.') true, .optional (· = ';')]

def getCookie (request : HTTPRequest) (name : Text) : Text :=
  let cookieLine := request.getHeader "cookie".toList
  if cookieLine = [] then []
  else
    match search (cookiePattern name) cookieLine with
    | some hit => hit.captures.headD []
    | none => []

/-- `" ?([a-zA-Z0-9 ]*)=\"([^\"]*)\""` -/
def authFieldPattern : List (Piece Char) :=
  [.optional (· = ' '), .many isSpaceOrAlphanumeric true, .one (· = '='), .one (· = '"'),
    .many (· ≠ '"') true, .one (· = '"')]

/-- The keys and values of the successive matches, of which there are at most `fuel`. -/
def authMatches : Nat → Text → List (Text × Text)
  | 0, _ => []
  | fuel + 1, st =>
      match search authFieldPattern st with
      | none => []
      | some hit =>
          (hit.captures.headD [], (hit.captures.drop 1).headD []) :: authMatches fuel hit.rest

/-- A match takes at least three characters, so `st` has fewer matches than characters. -/
def getAuthFields (st : Text) : TextMap :=
  (authMatches st.length st).foldl (fun ret field => ret.insert (Text.toLower field.1) field.2) ∅

def getAuthorization (request : HTTPRequest) : HTTPAuth :=
  let fields := getAuthFields (request.getHeader "authorization".toList)
  let field (name : String) : Text := (fields.lookup name.toList).getD []
  { username := field "digest username"
    nonce := field "nonce"
    response := field "response"
    uri := field "uri" }

def wantsAuthenticationHack (request : HTTPRequest) : Bool :=
  request.getHeader "x-needauthenticationhack".toList ≠ []

end HTTPRequest

end DumaisLib.WebServer
