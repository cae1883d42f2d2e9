import DumaisLib.Lib.Regex
import DumaisLib.Lib.Text

/-!
# The framing of HTTP requests

`processData` appends a chunk to the message under construction, looks for the
end of the header and for a content length in the whole of it, and says how many
bytes of the chunk belong to the message.
-/

namespace DumaisLib.WebServer

open Regex

/-- `buffer` is null, or the allocated bytes, of which `size` are the message's. -/
structure FullMessageInfo where
  complete : Bool
  size : Nat
  currentIndex : Nat
  buffer : Option Text
  deriving DecidableEq

namespace FullMessageInfo

def empty : FullMessageInfo where
  complete := false
  size := 0
  currentIndex := 0
  buffer := none

/-- The bytes of the message so far. -/
def held (info : FullMessageInfo) : Text :=
  (info.buffer.getD []).take info.size

end FullMessageInfo

namespace HTTPFramingStrategy

/-- `"\r\n\r\n"` -/
def END_OF_HEADER : Text := "\r\n\r\n".toList

/-- The buffer size beyond which a request without end of header is rejected. -/
def MAX_HEADER : Nat := 2048

/-- `"transfer-encoding: *chunked"`, ignoring case. -/
def chunkedPattern : List (Piece Char) :=
  (Text.noCase "transfer-encoding:".toList).map .one ++ .many (· = ' ') false ::
    (Text.noCase "chunked".toList).map .one

/-- The letters of `"Content-Length:"`, ignoring case. -/
def contentLengthName : List (Char → Bool) :=
  Text.noCase "Content-Length:".toList

/-- `"Content-Length: *(.*)"`, ignoring case. -/
def contentLengthPattern : List (Piece Char) :=
  contentLengthName.map .one ++ [.many (· = ' ') false, .many Text.dot true]

/-- What the pattern captures in the message. -/
def contentLengthText (message : Text) : Option Text :=
  (search contentLengthPattern message).map fun hit => hit.captures.headD []

/-- The `unsigned int` that the captured text is read as. -/
def contentLength (message : Text) : Nat :=
  match contentLengthText message with
  | none => 0
  | some text => (Text.atoi text % 2 ^ 32).toNat

/-- The return type `int`. -/
def toInt (size : Nat) : Int := (size : Int).bmod (2 ^ 32)

/--
`after` is the memory behind the buffer up to the next NUL, which the
construction of `message` reads as well.
-/
def processData (after buffer : Text) (info : FullMessageInfo) : Int × FullMessageInfo :=
  let size := buffer.length
  let received := info.held ++ buffer
  let message := Text.cstr (received ++ after)
  match Search.find END_OF_HEADER message 0 with
  | none =>
      if info.size + size > MAX_HEADER then
        (-2, { info with size := info.size + size, buffer := none })
      else
        (toInt size, { info with size := info.size + size, buffer := some received })
  | some eoh =>
      if (search chunkedPattern message).isSome then
        (-3, { info with buffer := some received })
      else
        let contentLength := contentLength message
        if info.size + size < eoh + 4 + contentLength then
          (toInt size, { info with size := info.size + size, buffer := some received })
        else
          let delta := (eoh + 4 + contentLength + 2 ^ 64 - info.size) % 2 ^ 32
          (toInt delta,
            { info with
              complete := true
              size := if delta < size then info.size + delta else info.size + size
              buffer := some received })

end HTTPFramingStrategy

end DumaisLib.WebServer
