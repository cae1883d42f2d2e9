import DumaisLib.Lib.Text
import DumaisLib.WebSocket.WSProtocolParser

/-!
# The HTTP request that opens a WebSocket connection

`parseIncoming` collects at most `MAX_HTTP_DATA` bytes, waits for the blank line
and then splits the request into its parts.
-/

namespace DumaisLib.WebSocket

def MAX_HTTP_DATA : Nat := 1024

def MAGIC : Text := "258EAFA5-E914-47DA-95CA-C5AB0DC85B11".toList

inductive HTTPRequest.Status where
  | incomplete
  | ready
  | error
  deriving DecidableEq

structure HTTPRequest where
  status : HTTPRequest.Status
  type : Text
  resource : Text
  headers : TextMap
  protocols : TextMap

namespace HTTPRequest

/-- A request of which nothing but the status is known. -/
def ofStatus (status : Status) : HTTPRequest where
  status := status
  type := []
  resource := []
  headers := ∅
  protocols := ∅

end HTTPRequest

/-- `data` lists the first `dataIndex` bytes of the fixed array. -/
structure HTTPProtocolParser where
  data : Text
  dataIndex : Nat

namespace HTTPProtocolParser

def create : HTTPProtocolParser where
  data := []
  dataIndex := 0

/-- What the loop over the header lines carries along. -/
structure HeaderLoop where
  isHeader : Bool
  header : Text
  value : Text
  headers : TextMap

namespace HeaderLoop

def start : HeaderLoop where
  isHeader := true
  header := []
  value := []
  headers := ∅

/-- One character of the header lines. -/
def next (loop : HeaderLoop) (char : Char) : HeaderLoop :=
  if char = '\n' then
    if loop.header ≠ [] ∧ loop.value ≠ [] then
      { isHeader := true
        header := []
        value := []
        headers := loop.headers.insert (Text.toLower loop.header) loop.value }
    else
      { loop with isHeader := true }
  else if char = '\r' then
    loop
  else if loop.isHeader then
    if char = ':' then { loop with isHeader := false }
    else { loop with header := loop.header ++ [char] }
  else if loop.value = [] ∧ char = ' ' then
    loop
  else
    { loop with value := loop.value ++ [char] }

end HeaderLoop

/-- The tokens between the separators, up to the first NUL, without white space. -/
def tokenize (separator : Char) (subject : Text) : TextMap :=
  let tokens := (Text.cstr subject).splitOnP (· = separator)
  tokens.foldl (fun list token =>
    let str := token.filter fun char => !Text.isSpace char
    list.insert str str) ∅

/-- The parts of the collected text `str`, of which the header ends at `endOfHeader`. -/
def parseRequest (str : Text) (endOfHeader : Nat) : HTTPRequest :=
  match Search.find " ".toList str 0 with
  | none => .ofStatus .error
  | some space1 =>
      let type := Text.substr str 0 space1
      match Search.find " ".toList str (space1 + 1) with
      | none => { HTTPRequest.ofStatus .error with type := type }
      | some space2 =>
          let resource := Text.substr str (space1 + 1) (space2 - space1 - 1)
          match Search.find "\n".toList str 0 with
          | none => { HTTPRequest.ofStatus .error with type := type, resource := resource }
          | some eol =>
              let lines := Text.substr str (eol + 1) (endOfHeader - (eol + 1))
              let headers := (lines.foldl HeaderLoop.next .start).headers
              { status := .ready
                type := type
                resource := resource
                headers := headers
                protocols :=
                  match headers.lookup "sec-websocket-protocol".toList with
                  | none => ∅
                  | some protocols => tokenize ',' protocols }

/-- `none` when the copy would leave the fixed array. -/
def parseIncoming (parser : HTTPProtocolParser) (buffer : Text) :
    Option (HTTPProtocolParser × HTTPRequest) :=
  let tmp := sizeAdd parser.dataIndex buffer.length
  if tmp ≥ MAX_HTTP_DATA then
    some (parser, .ofStatus .error)
  else if parser.dataIndex + buffer.length > MAX_HTTP_DATA then
    none
  else
    let collected : HTTPProtocolParser :=
      { data := parser.data.take parser.dataIndex ++ buffer, dataIndex := tmp }
    if tmp < 4 then
      some (collected, .ofStatus .incomplete)
    else
      match Search.find "\r\n\r\n".toList collected.data 0 with
      | none => some (collected, .ofStatus .incomplete)
      | some endOfHeader =>
          let req := parseRequest collected.data (endOfHeader + 4)
          match req.status with
          | .ready => some ({ collected with dataIndex := 0 }, req)
          | _ => some (collected, req)

def reject (code : Nat) (response : Text) : Text :=
  "HTTP/1.1 ".toList ++ (toString code).toList ++ " ".toList ++ response ++
    ("\r\nContent-type: text/html\r\nAccess-Control-Allow-Origin: *\r\n" ++
      "Content-length: 0\r\n\r\n").toList

/-- `digest` stands for the SHA-1 digest in base64. -/
def switchProtocol (digest : Text → Text) (key protocol : Text) : Text :=
  let accept := digest (key ++ MAGIC)
  "HTTP/1.1 101 Switching Protocols\r\n".toList ++
    "Upgrade: websocket\r\n".toList ++
    "Connection: Upgrade\r\n".toList ++
    "Access-Control-Allow-Origin: *\r\n".toList ++
    "Sec-WebSocket-Accept: ".toList ++ accept ++ "\r\n".toList ++
    "Sec-WebSocket-Protocol: ".toList ++ protocol ++ "\r\n".toList ++
    "\r\n".toList

end HTTPProtocolParser

end DumaisLib.WebSocket
