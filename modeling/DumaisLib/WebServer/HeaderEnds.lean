import DumaisLib.WebServer.FramingInvariant
import DumaisLib.WebServer.HTTPRequest
import DumaisLib.WebServer.OverReads

/-!
# The end of the header, found twice

The framing searches a string for the end of the header; the request compares
four bytes at a time.  For every message that the framing completes both find
the same place.
-/

namespace DumaisLib.WebServer

open Machine Search HTTPFramingStrategy

namespace HTTPRequest

/-! ## The constructor, byte by byte -/

/-- The four bytes from the position on, when the buffer has them. -/
def readWord (mBuffer : Text) (position : Nat) : Option Text :=
  if position + 4 ≤ mBuffer.length then some ((mBuffer.drop position).take 4) else none

/-- `0x0A0D0A0D`, the lowest byte first. -/
def WORD : Text := ['\x0d', '\x0a', '\x0d', '\x0a']

/-- The loop of the constructor, for the `left` positions up to the size. -/
def scan (mBuffer : Text) : Nat → Nat → Option Nat
  | 0, pos => some pos
  | left + 1, pos =>
      (readWord mBuffer (pos - 3)).bind fun word =>
        if word = WORD then some pos else scan mBuffer left (pos + 1)

/-- The constructor; `none` when it reads behind the buffer. -/
def construct (buffer : Text) : Option HTTPRequest :=
  (scan buffer (buffer.length - 3) 3).bind fun pos =>
    if pos ≤ buffer.length then some ⟨buffer.take pos, buffer⟩ else none

/-- `getData`; `none` when the number of bytes to copy is negative. -/
def readData (request : HTTPRequest) : Option Text :=
  let pos := request.mHeader.length + 1
  if pos ≤ request.mBuffer.length then some (request.mBuffer.drop pos) else none

theorem readWord_of_fits {mBuffer : Text} {position : Nat} (hfits : position + 4 ≤ mBuffer.length) :
    readWord mBuffer position = some ((mBuffer.drop position).take 4) :=
  if_pos hfits

theorem take_eq_word_iff {mBuffer : Text} {position : Nat} (hle : position ≤ mBuffer.length) :
    (mBuffer.drop position).take 4 = WORD ↔ OccursAt END_OF_HEADER mBuffer position := by
  unfold OccursAt
  rw [and_iff_right hle, List.prefix_iff_eq_take]
  exact eq_comm

/-- The loop stops at the last byte of the first empty line, or at the size. -/
theorem scan_eq {mBuffer : Text} {left pos : Nat} (hpos : 3 ≤ pos)
    (hleft : pos + left = mBuffer.length)
    (hbefore : ∀ earlier, earlier + 3 < pos → ¬ OccursAt END_OF_HEADER mBuffer earlier) :
    scan mBuffer left pos = some (headerSize mBuffer) := by
  induction left generalizing pos with
  | zero =>
      have hnone : find END_OF_HEADER mBuffer 0 = none := by
        cases hfound : find END_OF_HEADER mBuffer 0 with
        | none => rfl
        | some start =>
            obtain ⟨-, hoccurs, -⟩ := find_eq_some_iff.mp hfound
            have hend : start + 4 ≤ mBuffer.length := find_end_le hfound
            exact absurd hoccurs (hbefore start (by omega))
      have hsize : headerSize mBuffer = max 3 mBuffer.length := by rw [headerSize, hnone]
      rw [scan, hsize]
      exact congrArg some (by omega)
  | succ left ih =>
      have hfits : pos - 3 + 4 ≤ mBuffer.length := by omega
      rw [scan, readWord_of_fits hfits, Option.bind_some]
      by_cases hword : (mBuffer.drop (pos - 3)).take 4 = WORD
      · have hoccurs := (take_eq_word_iff (by omega)).mp hword
        have hfound : find END_OF_HEADER mBuffer 0 = some (pos - 3) :=
          find_eq_some_iff.mpr ⟨Nat.zero_le _, hoccurs,
            fun earlier _ hlt => hbefore earlier (by omega)⟩
        have hsize : headerSize mBuffer = pos - 3 + 3 := by rw [headerSize, hfound]
        rw [if_pos hword, hsize]
        exact congrArg some (by omega)
      · rw [if_neg hword]
        refine ih (by omega) (by omega) fun earlier hlt hoccurs => ?_
        rcases Nat.lt_succ_iff_lt_or_eq.mp hlt with hold | hnew
        · exact hbefore earlier hold hoccurs
        · obtain rfl : earlier = pos - 3 := by omega
          exact hword ((take_eq_word_iff (by omega)).mpr hoccurs)

/-- On a buffer of at least three bytes the constructor reads nothing behind it. -/
theorem construct_eq {buffer : Text} (hlength : 3 ≤ buffer.length) :
    construct buffer = some (ofMessage buffer) := by
  have hscan : scan buffer (buffer.length - 3) 3 = some (headerSize buffer) :=
    scan_eq le_rfl (by omega) fun earlier hlt => absurd hlt (by omega)
  have hsize : headerSize buffer ≤ buffer.length := by
    unfold headerSize
    split
    · rename_i start hfound
      have hend : start + 4 ≤ buffer.length := find_end_le hfound
      omega
    · omega
  rw [construct, hscan, Option.bind_some, if_pos hsize]
  rfl

/-- Behind a header that ends with an empty line stands the data. -/
theorem construct_of_find {buffer : Text} {eoh : Nat}
    (hfound : find END_OF_HEADER buffer 0 = some eoh) :
    ∃ request, construct buffer = some request ∧ request.mHeader = buffer.take (eoh + 3) ∧
      request.readData = some (buffer.drop (eoh + 4)) := by
  have hend : eoh + 4 ≤ buffer.length := find_end_le hfound
  have hsize : headerSize buffer = eoh + 3 := by rw [headerSize, hfound]
  have hheader : (ofMessage buffer).mHeader = buffer.take (eoh + 3) := by
    rw [← hsize]
    rfl
  have hpos : (ofMessage buffer).mHeader.length + 1 = eoh + 4 := by
    rw [hheader, List.length_take, min_eq_left (by omega)]
  refine ⟨ofMessage buffer, construct_eq (by omega), hheader, ?_⟩
  rw [readData, hpos]
  exact if_pos hend

end HTTPRequest

namespace HTTPFramingStrategy.Call

/-- The byte behind the received data is NUL, and announced lengths fit an `int`. -/
structure Allowed (info : FullMessageInfo) (call : Call) : Prop where
  nul_behind : call.after = []
  length_lt : call.buffer.length < 2 ^ 31
  in_range : InRange (Text.cstr (info.held ++ call.buffer))

/-- A call that completes a message has found the end of its header and all of its body. -/
theorem processData_complete {info : FullMessageInfo} {buffer : Text}
    (hincomplete : info.complete = false)
    (hcomplete : (processData [] buffer info).2.complete = true) :
    ∃ eoh, find END_OF_HEADER (Text.cstr (info.held ++ buffer)) 0 = some eoh ∧
      Regex.search chunkedPattern (Text.cstr (info.held ++ buffer)) = none ∧
      eoh + 4 + contentLength (Text.cstr (info.held ++ buffer)) ≤ info.size + buffer.length := by
  have hnot (h : info.complete = true) : False := by
    rw [hincomplete] at h
    cases h
  simp only [processData, List.append_nil] at hcomplete
  split at hcomplete
  · split at hcomplete
    · exact (hnot hcomplete).elim
    · exact (hnot hcomplete).elim
  · rename_i eoh hfound
    split at hcomplete
    · exact (hnot hcomplete).elim
    · rename_i hplain
      split at hcomplete
      · exact (hnot hcomplete).elim
      · rename_i hge
        exact ⟨eoh, hfound, by simpa using hplain, Nat.not_lt.mp hge⟩

/-- Between two calls a message is waiting. -/
theorem waiting_receive {info next : FullMessageInfo} {call : Call} (waiting : Waiting info)
    (allowed : Allowed info call) (hreceive : receive info call = some next) : Waiting next := by
  unfold receive at hreceive
  rw [allowed.nul_behind] at hreceive
  rcases processData_spec waiting allowed.length_lt fun _ _ => allowed.in_range with
    herror | ⟨hall, hwaiting⟩ | ⟨taken, -, -, hret, hcomplete, -⟩
  · rw [if_pos herror] at hreceive
    cases hreceive
  · have hincomplete : ¬ (extended info call.buffer).complete = true := by
      rw [hwaiting.incomplete]
      decide
    rw [hall, if_neg (by omega), if_neg hincomplete] at hreceive
    obtain rfl := Option.some.inj hreceive
    exact hwaiting
  · dsimp only at hreceive
    rw [if_neg (by omega), if_pos hcomplete] at hreceive
    obtain rfl := Option.some.inj hreceive
    exact waiting_empty

/--
For every message that is completed, whatever calls came before, the request
built from it has the header up to the last byte of the empty line at which the
framing found the header's end, its data are the bytes of the announced length
behind that line, and nothing behind the message is read.
-/
theorem header_ends_agree {info : FullMessageInfo} {call : Call}
    (hreaches : Reaches receive Allowed .empty info) (allowed : Allowed info call)
    (hcomplete : (processData call.after call.buffer info).2.complete = true) :
    let received := Text.cstr (info.held ++ call.buffer)
    let message := (processData call.after call.buffer info).2.held
    ∃ eoh data request, find END_OF_HEADER received 0 = some eoh ∧
      find END_OF_HEADER message 0 = some eoh ∧ HTTPRequest.construct message = some request ∧
      request.mHeader = message.take (eoh + 3) ∧ request.readData = some data ∧
      message = message.take (eoh + 4) ++ data ∧ data.length = contentLength received := by
  have waiting : Waiting info :=
    hreaches.invariant waiting_empty fun _ _ _ waiting hallowed hstep =>
      waiting_receive waiting hallowed hstep
  rw [allowed.nul_behind] at hcomplete ⊢
  obtain ⟨eoh, hfound, hplain, hge⟩ := processData_complete waiting.incomplete hcomplete
  have hlt := lt_messageEnd waiting allowed.in_range hfound
  have hsize := waiting.size_eq
  obtain ⟨-, -, hheld⟩ := processData_message hfound hplain hsize (by omega) hge allowed.length_lt
  dsimp only at hheld ⊢
  generalize contentLength (Text.cstr (info.held ++ call.buffer)) = length at *
  rw [hheld]
  have htotal : (info.held ++ call.buffer.take (eoh + 4 + length - info.size)).length =
      eoh + 4 + length := by
    rw [List.length_append, List.length_take, min_eq_left (by omega)]
    omega
  have hsplit : info.held ++ call.buffer.take (eoh + 4 + length - info.size) ++
      call.buffer.drop (eoh + 4 + length - info.size) = info.held ++ call.buffer := by
    rw [List.append_assoc, List.take_append_drop]
  generalize info.held ++ call.buffer.take (eoh + 4 + length - info.size) = message at *
  have hmessage : find END_OF_HEADER message 0 = some eoh := by
    obtain ⟨behind, hbehind⟩ := List.takeWhile_prefix (· ≠ '\x00') (l := info.held ++ call.buffer)
    have hwhole : find END_OF_HEADER (info.held ++ call.buffer) 0 = some eoh := by
      rw [← hbehind]
      exact find_append hfound
    rw [← hsplit] at hwhole
    exact find_of_append hwhole (by change eoh + 4 ≤ message.length; omega)
  obtain ⟨request, hrequest, hheader, hdata⟩ := HTTPRequest.construct_of_find hmessage
  refine ⟨eoh, message.drop (eoh + 4), request, hfound, hmessage, hrequest, hheader, hdata,
    (List.take_append_drop _ _).symm, ?_⟩
  rw [List.length_drop]
  omega

/-- The first part of a request whose body is the empty line that ends a header. -/
def exampleStart : Call := ⟨"POST / HTTP/1.1\r\nContent-Length: 4\r\n\r".toList, []⟩

def exampleRest : Call := ⟨"\n\r\n\r\nGET".toList, []⟩

/-- The message when the first part has arrived. -/
def exampleHeld : FullMessageInfo := ⟨false, 37, 0, some exampleStart.buffer⟩

theorem inRange_of_captured {message text : Text} (hcaptured : contentLengthText message = some text)
    (hrange : 0 ≤ Text.number text ∧ Text.number text < 2 ^ 31) : InRange message := by
  intro other hother
  obtain rfl := Option.some.inj (hcaptured.symm.trans hother)
  exact hrange

theorem exampleStart_reaches : Reaches receive Allowed .empty exampleHeld := by
  have hcaptured : contentLengthText (Text.cstr (FullMessageInfo.empty.held ++ exampleStart.buffer)) =
      some "4".toList := by decide +kernel
  have hallowed : Allowed .empty exampleStart :=
    ⟨rfl, by decide, inRange_of_captured hcaptured (by decide)⟩
  exact .step .start hallowed (by decide +kernel)

theorem header_ends_agree_cut :
    ∃ eoh data request, find END_OF_HEADER
        (Text.cstr (exampleHeld.held ++ exampleRest.buffer)) 0 = some eoh ∧
      find END_OF_HEADER (processData [] exampleRest.buffer exampleHeld).2.held 0 = some eoh ∧
      HTTPRequest.construct (processData [] exampleRest.buffer exampleHeld).2.held = some request ∧
      request.mHeader = (processData [] exampleRest.buffer exampleHeld).2.held.take (eoh + 3) ∧
      request.readData = some data ∧
      (processData [] exampleRest.buffer exampleHeld).2.held =
        (processData [] exampleRest.buffer exampleHeld).2.held.take (eoh + 4) ++ data ∧
      data.length = contentLength (Text.cstr (exampleHeld.held ++ exampleRest.buffer)) := by
  have hcaptured : contentLengthText (Text.cstr (exampleHeld.held ++ exampleRest.buffer)) =
      some "4".toList := by decide +kernel
  exact header_ends_agree exampleStart_reaches
    ⟨rfl, by decide, inRange_of_captured hcaptured (by decide)⟩ (by decide +kernel)

end HTTPFramingStrategy.Call

end DumaisLib.WebServer
