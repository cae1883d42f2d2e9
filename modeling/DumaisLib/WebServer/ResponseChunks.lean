import DumaisLib.Lib.HeaderBlock
import DumaisLib.WebServer.ResponseStream

/-!
# Reading a response chunk by chunk

The header is put in front of the content by the first call, so what the calls
return one after the other is the header and the content, whatever the limits are.
-/

namespace DumaisLib.WebServer

open Machine

namespace HTTPResponse

/-! ## The lines of the header -/

/-- `"name: value"`, unless the value is empty. -/
def optionalLine (name value after : Text) : List Text :=
  if value = [] then [] else [name ++ value ++ after]

/-- The lines of the header for a content of the size. -/
def headerLines (response : HTTPResponse) (contentSize : Nat) : List Text :=
  ["HTTP/1.1 ".toList ++ responseCodesString response.mResponseCode,
    "Content-Length: ".toList ++ (toString contentSize).toList] ++
  (optionalLine (if response.mAuthenticationHack then "X-WWW-Authenticate: "
      else "WWW-Authenticate: ").toList response.mAuthHeader [] ++
    (optionalLine "Content-Type: ".toList response.mContentType "; charset=UTF-8".toList ++
      (optionalLine "Set-Cookie: ".toList response.mCookie [] ++
        ["Connection: Close".toList, "Access-Control-Allow-Origin: *".toList])))

/-- The lines with their ends, and the empty line behind them. -/
def headerBlock (lines : List Text) : Text :=
  lines.flatMap (· ++ "\r\n".toList) ++ "\r\n".toList

theorem flatMap_optionalLine (name value after : Text) :
    (optionalLine name value after).flatMap (· ++ "\r\n".toList) = headerLine name value after := by
  rw [optionalLine, headerLine]
  split
  · rfl
  · exact List.append_nil _

theorem message_eq {response : HTTPResponse} (hnew : response.mHeaderBuilt = false) :
    response.message =
      headerBlock (response.headerLines response.mContent.length) ++ response.mContent := by
  rw [message, headerBlock, headerLines]
  simp only [List.flatMap_append, flatMap_optionalLine]
  simp [buildHeader, hnew]

/-- The line says that the content has the size. -/
def announces (contentSize : Nat) (line : Text) : Prop :=
  ∃ number, line = "Content-Length: ".toList ++ number ∧
    (∀ char ∈ number, char.isDigit = true) ∧ Text.digits number = contentSize

theorem digits_toString (n : Nat) :
    (∀ char ∈ (toString n).toList, char.isDigit = true) ∧ Text.digits (toString n).toList = n := by
  have hdigits : ∀ char ∈ (toString n).toList, char.isDigit = true := by
    intro char hchar
    rw [Nat.toString_eq_repr, Nat.toList_repr] at hchar
    exact Nat.isDigit_of_mem_toDigits (by decide) (by decide) hchar
  refine ⟨hdigits, ?_⟩
  rw [Text.digits, List.takeWhile_eq_self_iff.mpr hdigits, Nat.toString_eq_repr, Nat.toList_repr]
  exact Nat.ofDigitChars_ten_toDigits

/-- Exactly one line gives a size, and it is that of the content. -/
theorem headerLines_length (response : HTTPResponse) (contentSize : Nat) :
    ∃ line, announces contentSize line ∧
      (response.headerLines contentSize).filter ("Content-Length: ".toList.isPrefixOf ·) =
        [line] := by
  obtain ⟨hdigits, hvalue⟩ := digits_toString contentSize
  refine ⟨_, ⟨(toString contentSize).toList, rfl, hdigits, hvalue⟩, ?_⟩
  have hoptional {name : Text} (value after : Text)
      (hname : ∀ rest, "Content-Length: ".toList.isPrefixOf (name ++ rest) = false) :
      (optionalLine name value after).filter ("Content-Length: ".toList.isPrefixOf ·) = [] := by
    rw [optionalLine]
    split
    · rfl
    · rw [List.filter_singleton, List.append_assoc, hname]
      rfl
  have hauthenticate (rest : Text) : "Content-Length: ".toList.isPrefixOf
      ((if response.mAuthenticationHack then "X-WWW-Authenticate: "
        else "WWW-Authenticate: ").toList ++ rest) = false := by
    split
    · rfl
    · rfl
  rw [headerLines, List.filter_append, List.filter_append, List.filter_append, List.filter_append,
    hoptional _ _ hauthenticate, hoptional _ _ fun _ => rfl, hoptional _ _ fun _ => rfl]
  rfl

theorem responseCodesString_plain (code : HTTPResponseCode) :
    '\n' ∉ responseCodesString code := by
  have hcontains : (responseCodesString code).contains '\n' = false := by
    cases code <;> rfl
  intro hmem
  rw [List.contains_iff_mem.mpr hmem] at hcontains
  cases hcontains

/-- No field that is printed into the header has a line end in it. -/
structure Unbroken (response : HTTPResponse) : Prop where
  auth : Search.Unbroken '\r' '\n' response.mAuthHeader
  type : Search.Unbroken '\r' '\n' response.mContentType
  cookie : Search.Unbroken '\r' '\n' response.mCookie

theorem optionalLine_unbroken {name value after : Text} (hname : '\r' ∉ name)
    (hafter : '\n' ∉ after) :
    (∀ line ∈ optionalLine name value after, Search.Unbroken '\r' '\n' line) ↔
      Search.Unbroken '\r' '\n' value := by
  rw [optionalLine]
  split
  · rename_i hempty
    rw [hempty]
    exact iff_of_true (fun _ hmem => absurd hmem List.not_mem_nil) Search.unbroken_nil
  · rw [List.forall_mem_singleton, Search.unbroken_append_right hafter,
      Search.unbroken_append_left hname]

/-- The lines are lines for a receiver exactly when the fields have no line ends. -/
theorem headerLines_unbroken (response : HTTPResponse) (contentSize : Nat) :
    (∀ line ∈ response.headerLines contentSize, Search.Unbroken '\r' '\n' line) ↔
      response.Unbroken := by
  have hauthenticate : '\r' ∉ (if response.mAuthenticationHack then "X-WWW-Authenticate: "
      else "WWW-Authenticate: ").toList := by
    split
    · simp
    · simp
  have hcode := responseCodesString_plain response.mResponseCode
  have hsize : '\n' ∉ (toString contentSize).toList :=
    fun hmem => absurd ((digits_toString contentSize).1 _ hmem) (by decide)
  have hplain {line : Text} (hline : '\n' ∉ line) : Search.Unbroken '\r' '\n' line :=
    Search.unbroken_of_not_mem hline
  rw [headerLines]
  simp only [List.forall_mem_append, List.forall_mem_cons,
    optionalLine_unbroken hauthenticate List.not_mem_nil,
    optionalLine_unbroken (show '\r' ∉ "Content-Type: ".toList by simp)
      (show '\n' ∉ "; charset=UTF-8".toList by simp),
    optionalLine_unbroken (show '\r' ∉ "Set-Cookie: ".toList by simp) List.not_mem_nil]
  constructor
  · rintro ⟨-, hauth, htype, hcookie, -⟩
    exact ⟨hauth, htype, hcookie⟩
  · rintro ⟨hauth, htype, hcookie⟩
    refine ⟨⟨hplain ?_, hplain ?_, fun _ hmem => absurd hmem List.not_mem_nil⟩, hauth, htype,
      hcookie, hplain (by simp), hplain (by simp), fun _ hmem => absurd hmem List.not_mem_nil⟩
    · simp [hcode]
    · exact fun hmem => (List.mem_append.mp hmem).elim (by simp) hsize

theorem headerLines_ne_nil (response : HTTPResponse) (contentSize : Nat) :
    ∀ line ∈ response.headerLines contentSize, line ≠ [] := by
  have hoptional {name value after : Text} (hname : name ≠ []) :
      ∀ line ∈ optionalLine name value after, line ≠ [] := by
    intro line hline
    rw [optionalLine] at hline
    split at hline
    · cases hline
    · rw [List.mem_singleton.mp hline]
      simp [hname]
  have hauthenticate : (if response.mAuthenticationHack then "X-WWW-Authenticate: "
      else "WWW-Authenticate: ").toList ≠ [] := by
    split
    · simp
    · simp
  rw [headerLines]
  refine List.forall_mem_append.mpr ⟨by simp, List.forall_mem_append.mpr
    ⟨hoptional hauthenticate, List.forall_mem_append.mpr
      ⟨hoptional (by simp), List.forall_mem_append.mpr ⟨hoptional (by simp), by simp⟩⟩⟩⟩

/-! ## The receiver -/

/-- The size in the first line that gives one. -/
def contentSize? (lines : List Text) : Option Nat :=
  (lines.filter ("Content-Length: ".toList.isPrefixOf ·)).head?.map fun line =>
    Text.digits (line.drop "Content-Length: ".length)

/-- A receiver reads the header up to the empty line, and the content that it announces. -/
def responseReader : StreamReader.Reader Char (HeaderBlock.Message Char) :=
  HeaderBlock.messageReader '\r' '\n' contentSize?

/-- What a receiver is to read of the response. -/
def reading (response : HTTPResponse) : HeaderBlock.Message Char where
  lines := response.headerLines response.mContent.length
  content := response.mContent

theorem contentSize?_headerLines (response : HTTPResponse) (contentSize : Nat) :
    contentSize? (response.headerLines contentSize) = some contentSize := by
  obtain ⟨line, ⟨number, rfl, -, hnumber⟩, hfilter⟩ := response.headerLines_length contentSize
  rw [contentSize?, hfilter, List.head?_cons, Option.map_some, ← hnumber]
  congr 1

theorem reads_message {response : HTTPResponse} (hnew : response.mHeaderBuilt = false)
    (unbroken : response.Unbroken) :
    responseReader.Reads response.message response.reading := by
  have hlines := (response.headerLines_unbroken response.mContent.length).mpr unbroken
  have hmessage : response.message =
      Search.withEnds '\r' '\n' (response.headerLines response.mContent.length) ++ ['\r', '\n'] ++
        response.mContent := message_eq hnew
  rw [hmessage]
  exact HeaderBlock.reads_message (by decide)
    (fun line hmem => ⟨response.headerLines_ne_nil _ line hmem, hlines line hmem⟩)
    (List.cons_ne_nil _ _) (response.contentSize?_headerLines _)

/-- A field with a line end gives a receiver other lines. -/
theorem read_message_iff {response : HTTPResponse} (hnew : response.mHeaderBuilt = false) :
    responseReader.read response.message = some (response.reading, []) ↔ response.Unbroken := by
  constructor
  · intro hread
    exact (response.headerLines_unbroken _).mp (HeaderBlock.unbroken_of_read_message hread)
  · intro unbroken
    have hread := reads_message hnew unbroken []
    rwa [List.append_nil] at hread

end HTTPResponse

/-! ## Reading with any limits -/

/-- How far a response is read: the calls made, the chunks they returned and the next index. -/
structure Reading where
  response : HTTPResponse
  index : Nat
  calls : Nat
  chunks : List Text

def Reading.begin (response : HTTPResponse) : Reading :=
  ⟨response, 0, 0, []⟩

/-- One call, with the limit that is its turn; reading ends with the first chunk of no bytes. -/
def readTurn (limits : Nat → Nat) (reading : Reading) : Option (Turn Reading (List Text)) :=
  let chunk := reading.response.getResponseChunk reading.index (limits reading.calls)
  some (if chunk.1.length = 0 then .stop reading.chunks
    else .again ⟨chunk.2, reading.index + chunk.1.length, reading.calls + 1,
      reading.chunks ++ [chunk.1]⟩)

/-- The chunks are the message up to the index. -/
structure Reading.Sound (message : Text) (reading : Reading) : Prop where
  prepared : reading.response.prepared.mContent = message
  flatten : reading.chunks.flatten = message.take reading.index

theorem readTurn_again {limits : Nat → Nat} {message : Text} {reading : Reading}
    (hsound : reading.Sound message) (hlimit : 1 ≤ limits reading.calls)
    (hleft : reading.index < message.length) :
    ∃ next, readTurn limits reading = some (.again next) ∧ next.Sound message ∧
      reading.index < next.index := by
  have hlength := reading.response.length_getResponseChunk reading.index (limits reading.calls)
  rw [hsound.prepared] at hlength
  have hpos : 0 < (reading.response.getResponseChunk reading.index
      (limits reading.calls)).1.length := by
    omega
  refine ⟨_, by rw [readTurn, if_neg (Nat.ne_of_gt hpos)], ⟨?_, ?_⟩, Nat.lt_add_of_pos_right hpos⟩
  · change (reading.response.getResponseChunk reading.index
      (limits reading.calls)).2.prepared.mContent = message
    rw [HTTPResponse.prepared_getResponseChunk]
    exact hsound.prepared
  · have hchunk : (reading.response.getResponseChunk reading.index (limits reading.calls)).1 =
        (message.drop reading.index).take (limits reading.calls) := by
      rw [HTTPResponse.getResponseChunk_eq, hsound.prepared]
      rfl
    change (reading.chunks ++ [_]).flatten = message.take (reading.index + _)
    rw [List.flatten_concat, hsound.flatten, List.take_add, hlength, hchunk]
    congr 1
    exact List.take_eq_take_min.trans (by rw [List.length_drop])

theorem readTurn_stop {limits : Nat → Nat} {message : Text} {reading : Reading}
    (hsound : reading.Sound message) (hend : message.length ≤ reading.index) :
    readTurn limits reading = some (.stop reading.chunks) ∧ reading.chunks.flatten = message := by
  have hlength := reading.response.length_getResponseChunk reading.index (limits reading.calls)
  rw [hsound.prepared] at hlength
  constructor
  · rw [readTurn, if_pos (by omega)]
  · rw [hsound.flatten, List.take_of_length_le hend]

theorem loop_readTurn {limits : Nat → Nat} (hlimits : ∀ call, 1 ≤ limits call) {message : Text}
    {reading : Reading} (hsound : reading.Sound message) {fuel : Nat}
    (hfuel : message.length - reading.index < fuel) :
    ∃ chunks, loop (readTurn limits) fuel reading = .finished chunks ∧ chunks.flatten = message := by
  induction fuel generalizing reading with
  | zero => exact absurd hfuel (Nat.not_lt_zero _)
  | succ fuel ih =>
      rw [loop]
      rcases Nat.lt_or_ge reading.index message.length with hleft | hend
      · obtain ⟨next, hturn, hnext, hlt⟩ := readTurn_again hsound (hlimits reading.calls) hleft
        rw [hturn]
        exact ih hnext (by omega)
      · obtain ⟨hturn, hflatten⟩ := readTurn_stop hsound hend
        exact ⟨reading.chunks, by rw [hturn], hflatten⟩

/--
Reading a new response with any limits ends after at most one call more than
there are bytes.  The chunks are the lines of its header with one empty line,
and the content, and one of the lines gives the size of the content.  A receiver
reads just this exactly when the fields of the response have no line ends.
-/
theorem response_read_whole_iff {response : HTTPResponse} (hnew : response.mHeaderBuilt = false)
    {limits : Nat → Nat} (hlimits : ∀ call, 1 ≤ limits call) :
    ∃ chunks,
      loop (readTurn limits) (response.message.length + 1) (.begin response) =
        .finished chunks ∧
      chunks.flatten =
        HTTPResponse.headerBlock (response.headerLines response.mContent.length) ++
          response.mContent ∧
      (∃ line, HTTPResponse.announces response.mContent.length line ∧
        (response.headerLines response.mContent.length).filter
          ("Content-Length: ".toList.isPrefixOf ·) = [line]) ∧
      (HTTPResponse.responseReader.read chunks.flatten = some (response.reading, []) ↔
        response.Unbroken) := by
  have hsound : (Reading.begin response).Sound response.message :=
    ⟨HTTPResponse.prepared_mContent hnew, rfl⟩
  obtain ⟨chunks, hloop, hflatten⟩ := loop_readTurn hlimits hsound (Nat.lt_succ_self _)
  refine ⟨chunks, hloop, ?_, response.headerLines_length _, ?_⟩
  · rw [hflatten, HTTPResponse.message_eq hnew]
  · rw [hflatten]
    exact HTTPResponse.read_message_iff hnew

/-- A page read with limits that grow from one byte on. -/
theorem response_read_whole_iff_page :
    ∃ chunks,
      loop (readTurn (· + 1)) ((HTTPResponse.buildBufferedResponse .OK "hello".toList
        "text/html".toList []).message.length + 1)
        (.begin (HTTPResponse.buildBufferedResponse .OK "hello".toList "text/html".toList [])) =
        .finished chunks ∧
      HTTPResponse.responseReader.read chunks.flatten =
        some ((HTTPResponse.buildBufferedResponse .OK "hello".toList "text/html".toList []).reading,
          []) := by
  obtain ⟨chunks, hloop, -, -, hread⟩ := @response_read_whole_iff
    (HTTPResponse.buildBufferedResponse .OK "hello".toList "text/html".toList []) rfl (· + 1)
    (fun call => Nat.le_add_left 1 call)
  exact ⟨chunks, hloop, hread.mpr ⟨Search.unbroken_nil,
    Search.unbroken_of_not_mem (by simp [HTTPResponse.buildBufferedResponse]),
    Search.unbroken_nil⟩⟩

/-- An empty line in a cookie ends the header for a receiver, and its content begins there. -/
theorem empty_line_in_cookie :
    ∃ chunks message rest,
      loop (readTurn fun _ => 1024) 2 (.begin ((HTTPResponse.buildBufferedResponse .OK
        "hello".toList "text/html".toList []).setCookie "a\r\n\r\nb".toList)) =
        .finished chunks ∧
      HTTPResponse.responseReader.read chunks.flatten = some (message, rest) ∧
      message.content = "b\r\nCo".toList ∧ rest ≠ [] := by
  have hlines : ∀ line ∈ ["HTTP/1.1 200 OK".toList, "Content-Length: 5".toList,
      "Content-Type: text/html; charset=UTF-8".toList, "Set-Cookie: a".toList],
      line ≠ [] ∧ Search.Unbroken '\r' '\n' line := by
    simp [Search.unbroken_of_not_mem]
  have hsize : HTTPResponse.contentSize? ["HTTP/1.1 200 OK".toList, "Content-Length: 5".toList,
      "Content-Type: text/html; charset=UTF-8".toList, "Set-Cookie: a".toList] =
      some "b\r\nCo".toList.length := by
    decide +kernel
  have hread := HeaderBlock.reads_message (by decide) hlines (List.cons_ne_nil _ _) hsize
    "nnection: Close\r\nAccess-Control-Allow-Origin: *\r\n\r\nhello".toList
  exact ⟨[((HTTPResponse.buildBufferedResponse .OK "hello".toList "text/html".toList []).setCookie
    "a\r\n\r\nb".toList).message], _, _, by decide +kernel, hread, rfl, by simp⟩

end DumaisLib.WebServer
