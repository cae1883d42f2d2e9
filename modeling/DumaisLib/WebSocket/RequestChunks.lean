import DumaisLib.Lib.Machine
import DumaisLib.WebSocket.HTTPProtocolParser

/-!
# Requests that arrive in pieces

The parser keeps the bytes it is given until they form a request.  How a request
is cut makes no difference to its result; a chunk that does not fit is dropped,
which tears the request when bytes are held already.
-/

namespace DumaisLib.WebSocket

open Machine

namespace HTTPProtocolParser

/-- The bytes that the parser keeps in its array. -/
def held (parser : HTTPProtocolParser) : Text :=
  parser.data.take parser.dataIndex

/-- The index counts the bytes that are held, and one more fits. -/
structure Sound (parser : HTTPProtocolParser) : Prop where
  index_eq : parser.dataIndex = parser.held.length
  index_lt : parser.dataIndex < MAX_HTTP_DATA

theorem sound_create : Sound create :=
  ⟨rfl, by decide⟩

/-! ## One call -/

/-- What a call answers that finds the text in the array. -/
def answer (text : Text) : HTTPRequest :=
  match Search.find "\r\n\r\n".toList text 0 with
  | none => .ofStatus .incomplete
  | some endOfHeader => parseRequest text (endOfHeader + 4)

/-- The parser after that call. -/
def afterwards (text : Text) : HTTPProtocolParser where
  data := text
  dataIndex := if (answer text).status = .ready then 0 else text.length

theorem afterwards_of_not_ready {text : Text} (hstatus : (answer text).status ≠ .ready) :
    afterwards text = ⟨text, text.length⟩ := by
  rw [afterwards, if_neg hstatus]

theorem sound_afterwards {text : Text} (hlt : text.length < MAX_HTTP_DATA) :
    Sound (afterwards text) := by
  have hindex : (afterwards text).dataIndex ≤ text.length := by
    unfold afterwards
    dsimp only
    split
    · exact Nat.zero_le _
    · exact le_rfl
  refine ⟨?_, hindex.trans_lt hlt⟩
  rw [held, List.length_take]
  exact (min_eq_left hindex).symm

theorem find_of_short {text : Text} (hlt : text.length < 4) :
    Search.find "\r\n\r\n".toList text 0 = none := by
  cases hfound : Search.find "\r\n\r\n".toList text 0 with
  | none => rfl
  | some position =>
      have hend : position + 4 ≤ text.length := Search.find_end_le hfound
      omega

/-- A chunk that fits is parsed behind the bytes that are held. -/
theorem parseIncoming_fits {parser : HTTPProtocolParser} (sound : Sound parser) {chunk : Text}
    (hlt : (parser.held ++ chunk).length < MAX_HTTP_DATA) :
    parser.parseIncoming chunk =
      some (afterwards (parser.held ++ chunk), answer (parser.held ++ chunk)) := by
  have hmax : MAX_HTTP_DATA = 1024 := rfl
  have hlength : (parser.held ++ chunk).length = parser.dataIndex + chunk.length := by
    rw [List.length_append, sound.index_eq]
  have htmp : sizeAdd parser.dataIndex chunk.length = parser.dataIndex + chunk.length :=
    sizeAdd_of_lt (by omega)
  have hheld : parser.data.take parser.dataIndex = parser.held := rfl
  simp only [parseIncoming, htmp, hheld, ← hlength]
  rw [if_neg (by omega), if_neg (by omega)]
  generalize parser.held ++ chunk = text
  unfold afterwards answer
  split
  · rename_i hshort
    rw [find_of_short hshort]
    rfl
  · cases Search.find "\r\n\r\n".toList text 0 with
    | none => rfl
    | some endOfHeader =>
        dsimp only
        cases hstatus : (parseRequest text (endOfHeader + 4)).status with
        | ready => simp
        | incomplete => simp
        | error => simp

/-- A chunk that does not fit leaves the parser as it is. -/
theorem parseIncoming_refused {parser : HTTPProtocolParser} (sound : Sound parser) {chunk : Text}
    (hlength : chunk.length < 2 ^ 63) (hge : MAX_HTTP_DATA ≤ parser.dataIndex + chunk.length) :
    parser.parseIncoming chunk = some (parser, .ofStatus .error) := by
  have hmax : MAX_HTTP_DATA = 1024 := rfl
  have hlt := sound.index_lt
  have htmp : sizeAdd parser.dataIndex chunk.length = parser.dataIndex + chunk.length :=
    sizeAdd_of_lt (by omega)
  simp only [parseIncoming, htmp]
  exact if_pos hge

/-- A chunk fits and is parsed, or it does not and is refused. -/
theorem parseIncoming_cases {parser : HTTPProtocolParser} (sound : Sound parser) {chunk : Text}
    (hlength : chunk.length < 2 ^ 63) :
    ((parser.held ++ chunk).length < MAX_HTTP_DATA ∧
      parser.parseIncoming chunk =
        some (afterwards (parser.held ++ chunk), answer (parser.held ++ chunk))) ∨
    (MAX_HTTP_DATA ≤ parser.dataIndex + chunk.length ∧
      parser.parseIncoming chunk = some (parser, .ofStatus .error)) := by
  rcases Nat.lt_or_ge (parser.held ++ chunk).length MAX_HTTP_DATA with hlt | hge
  · exact Or.inl ⟨hlt, parseIncoming_fits sound hlt⟩
  · rw [List.length_append, ← sound.index_eq] at hge
    exact Or.inr ⟨hge, parseIncoming_refused sound hlength hge⟩

/-! ## Requests in pieces -/

/-- The answers to the chunks, and the parser after them. -/
def parseAll : HTTPProtocolParser → List Text → Option (List HTTPRequest × HTTPProtocolParser)
  | parser, [] => some ([], parser)
  | parser, chunk :: chunks =>
      (parser.parseIncoming chunk).bind fun result =>
        (parseAll result.1 chunks).map fun rest => (result.2 :: rest.1, rest.2)

/-- A request that fits into the array and ends with its first empty line. -/
structure RequestText where
  text : Text
  length_lt : text.length < MAX_HTTP_DATA
  ends : Search.find "\r\n\r\n".toList text 0 = some (text.length - 4)

/-- A beginning of the request is not complete. -/
theorem RequestText.answer_part (request : RequestText) {part rest : Text}
    (hsplit : part ++ rest = request.text) (hne : rest ≠ []) :
    answer part = .ofStatus .incomplete := by
  unfold answer
  cases hfound : Search.find "\r\n\r\n".toList part 0 with
  | none => rfl
  | some position =>
      have hsame : Search.find "\r\n\r\n".toList (part ++ rest) 0 = some position :=
        Search.find_append hfound
      rw [hsplit, request.ends, ← hsplit, List.length_append] at hsame
      have hend : position + 4 ≤ part.length := Search.find_end_le hfound
      have hpos := List.length_pos_iff.mpr hne
      have hposition := Option.some.inj hsame
      omega

/-- The chunks that follow what is held are answered when the last of them arrives. -/
theorem parseAll_request (request : RequestText) {parser : HTTPProtocolParser}
    (sound : Sound parser) {chunk : Text} {chunks : List Text}
    (hne : ∀ later ∈ chunks, later ≠ [])
    (hsplit : parser.held ++ (chunk ++ chunks.flatten) = request.text) :
    parser.parseAll (chunk :: chunks) =
      some (List.replicate chunks.length (.ofStatus .incomplete) ++ [answer request.text],
        afterwards request.text) := by
  induction chunks generalizing parser chunk with
  | nil =>
      rw [List.flatten_nil, List.append_nil] at hsplit
      have hfits : (parser.held ++ chunk).length < MAX_HTTP_DATA := hsplit ▸ request.length_lt
      rw [parseAll, parseIncoming_fits sound hfits, hsplit]
      rfl
  | cons later chunks ih =>
      rw [← List.append_assoc] at hsplit
      have hrest : (later :: chunks).flatten ≠ [] := by
        simp [hne later List.mem_cons_self]
      have hlt : (parser.held ++ chunk).length < MAX_HTTP_DATA := by
        refine lt_of_le_of_lt ?_ request.length_lt
        rw [← hsplit, @List.length_append _ (parser.held ++ chunk)]
        exact Nat.le_add_right _ _
      have hincomplete := request.answer_part hsplit hrest
      have hwaiting : afterwards (parser.held ++ chunk) =
          ⟨parser.held ++ chunk, (parser.held ++ chunk).length⟩ :=
        afterwards_of_not_ready (by rw [hincomplete]; decide)
      have hheld : (afterwards (parser.held ++ chunk)).held = parser.held ++ chunk := by
        rw [hwaiting, held, List.take_length]
      have hlast := ih (sound_afterwards hlt)
        (fun other hother => hne other (List.mem_cons_of_mem _ hother))
        (by rw [hheld]; exact hsplit)
      rw [parseAll, parseIncoming_fits sound hlt, Option.bind_some, hlast, hincomplete]
      rfl

/-- What two parsers have in common that no call tells apart. -/
structure Alike (parser other : HTTPProtocolParser) : Prop where
  index_eq : parser.dataIndex = other.dataIndex
  held_eq : parser.held = other.held

/-- A call answers two such parsers alike. -/
theorem parseIncoming_alike {parser other : HTTPProtocolParser} (alike : Alike parser other)
    (chunk : Text) :
    Option.Rel (fun result result' => Alike result.1 result'.1 ∧ result.2 = result'.2)
      (parser.parseIncoming chunk) (other.parseIncoming chunk) := by
  have hheld : parser.data.take other.dataIndex = other.data.take other.dataIndex := by
    have heq := alike.held_eq
    rwa [held, held, alike.index_eq] at heq
  unfold parseIncoming
  rw [alike.index_eq, hheld]
  dsimp only
  split
  · exact .some ⟨alike, rfl⟩
  · generalize (if other.dataIndex + chunk.length > MAX_HTTP_DATA then none else _ :
      Option (HTTPProtocolParser × HTTPRequest)) = outcome
    cases outcome with
    | none => exact .none
    | some result => exact .some ⟨⟨rfl, rfl⟩, rfl⟩

theorem parseAll_alike {parser other : HTTPProtocolParser} (alike : Alike parser other)
    (chunks : List Text) :
    (parser.parseAll chunks).map Prod.fst = (other.parseAll chunks).map Prod.fst := by
  induction chunks generalizing parser other with
  | nil => rfl
  | cons chunk chunks ih =>
      have hcons (next : HTTPProtocolParser) (req : HTTPRequest) :
          ((next.parseAll chunks).map fun rest => (req :: rest.1, rest.2)).map Prod.fst =
            ((next.parseAll chunks).map Prod.fst).map (req :: ·) := by
        cases next.parseAll chunks <;> rfl
      have hcall := parseIncoming_alike alike chunk
      rw [parseAll, parseAll]
      revert hcall
      generalize parser.parseIncoming chunk = outcome
      generalize other.parseIncoming chunk = outcome'
      rintro (⟨hnext, heq⟩ | _)
      · rw [Option.bind_some, Option.bind_some, hcons, hcons, ih hnext, heq]
      · rfl

/-- A parser that has answered a whole request is like a new one. -/
theorem alike_of_ready {parser next : HTTPProtocolParser} {chunk : Text} {req : HTTPRequest}
    (hparse : parser.parseIncoming chunk = some (next, req)) (hready : req.status = .ready) :
    Alike next create := by
  suffices hindex : next.dataIndex = 0 by
    refine ⟨hindex, ?_⟩
    rw [held, hindex, List.take_zero]
    rfl
  unfold parseIncoming at hparse
  dsimp only at hparse
  split at hparse
  · obtain ⟨-, rfl⟩ := Prod.mk.inj (Option.some.inj hparse)
    cases hready
  · split at hparse
    · cases hparse
    · split at hparse
      · obtain ⟨-, rfl⟩ := Prod.mk.inj (Option.some.inj hparse)
        cases hready
      · split at hparse
        · obtain ⟨-, rfl⟩ := Prod.mk.inj (Option.some.inj hparse)
          cases hready
        · split at hparse
          · obtain ⟨rfl, -⟩ := Prod.mk.inj (Option.some.inj hparse)
            rfl
          · rename_i hstatus
            obtain ⟨-, rfl⟩ := Prod.mk.inj (Option.some.inj hparse)
            exact absurd hready hstatus

/--
However a request is cut, every chunk but the last is answered as incomplete, and
the last one as a single call answers the whole request; and after a request that
is ready the parser answers as a new one does.
-/
theorem parseAll_cut :
    (∀ (request : RequestText) (chunks : List Text), (∀ chunk ∈ chunks, chunk ≠ []) →
      chunks.flatten = request.text →
      ∃ last req, create.parseIncoming request.text = some (last, req) ∧
        create.parseAll chunks =
          some (List.replicate (chunks.length - 1) (.ofStatus .incomplete) ++ [req], last)) ∧
    ∀ (parser next : HTTPProtocolParser) (chunk : Text) (req : HTTPRequest),
      parser.parseIncoming chunk = some (next, req) → req.status = .ready →
      ∀ chunks, (next.parseAll chunks).map Prod.fst = (create.parseAll chunks).map Prod.fst := by
  refine ⟨fun request chunks hne hsplit => ?_, fun parser next chunk req hparse hready => ?_⟩
  · have hwhole : create.parseIncoming request.text =
        some (afterwards request.text, answer request.text) :=
      parseIncoming_fits sound_create request.length_lt
    refine ⟨_, _, hwhole, ?_⟩
    cases chunks with
    | nil =>
        have hends := request.ends
        rw [← hsplit] at hends
        cases hends
    | cons chunk chunks =>
        exact parseAll_request request sound_create
          (fun later hlater => hne later (List.mem_cons_of_mem _ hlater)) hsplit
  · exact parseAll_alike (alike_of_ready hparse hready)

/-- A request with one header line. -/
def exampleText : RequestText where
  text := "GET /chat HTTP/1.1\r\nHost: a\r\n\r\n".toList
  length_lt := by decide
  ends := by decide +kernel

theorem parseAll_cut_in_end :
    (∃ last req, create.parseIncoming exampleText.text = some (last, req) ∧
      create.parseAll ["GET /chat HTTP/1.1\r\nHost: a\r\n\r".toList, ['\n']] =
        some ([.ofStatus .incomplete, req], last)) ∧
    ∀ chunks, ((afterwards exampleText.text).parseAll chunks).map Prod.fst =
      (create.parseAll chunks).map Prod.fst :=
  ⟨parseAll_cut.1 exampleText _ (by decide) rfl,
    parseAll_cut.2 create _ exampleText.text _
      (parseIncoming_fits sound_create exampleText.length_lt) (by decide +kernel)⟩

/-! ## Chunks that are refused -/

/-- The bytes of one call; no object in memory has `2 ^ 63` of them. -/
structure Chunk where
  bytes : Text
  length_lt : bytes.length < 2 ^ 63

/-- The parser, and all the bytes that it has been given. -/
structure Stream where
  parser : HTTPProtocolParser
  received : Text

namespace Stream

def start : Stream where
  parser := create
  received := []

/-- One call, whatever it answers. -/
def step (stream : Stream) (chunk : Chunk) : Option Stream :=
  (stream.parser.parseIncoming chunk.bytes).map fun result =>
    ⟨result.1, stream.received ++ chunk.bytes⟩

/-- The call returns, and the index stays in the array. -/
def Bounded (stream : Stream) (chunk : Chunk) : Prop :=
  ∃ result, stream.parser.parseIncoming chunk.bytes = some result ∧
    result.1.dataIndex < MAX_HTTP_DATA

/-- A request that is ready is the parse of bytes that were received one after the other. -/
def Contiguous (stream : Stream) (chunk : Chunk) : Prop :=
  ∀ result, stream.parser.parseIncoming chunk.bytes = some result → result.2.status = .ready →
    ∃ run, run <:+: stream.received ++ chunk.bytes ∧
      (create.parseIncoming run).map Prod.snd = some result.2

/-- The chunk fits, or nothing is held. -/
def Untorn (stream : Stream) (chunk : Chunk) : Prop :=
  stream.parser.dataIndex = 0 ∨ stream.parser.dataIndex + chunk.bytes.length < MAX_HTTP_DATA

/-- What is held is what was received last. -/
structure Recent (stream : Stream) : Prop where
  sound : stream.parser.Sound
  held_suffix : stream.parser.held <:+ stream.received

theorem recent_start : Recent start :=
  ⟨sound_create, List.suffix_refl []⟩

theorem sound_step {stream next : Stream} {chunk : Chunk} (sound : stream.parser.Sound)
    (hstep : stream.step chunk = some next) : next.parser.Sound := by
  rcases parseIncoming_cases sound chunk.length_lt with ⟨hlt, hcall⟩ | ⟨-, hcall⟩
  · rw [step, hcall] at hstep
    obtain rfl := Option.some.inj hstep
    exact sound_afterwards hlt
  · rw [step, hcall] at hstep
    obtain rfl := Option.some.inj hstep
    exact sound

theorem bounded_of_sound {stream : Stream} (sound : stream.parser.Sound) (chunk : Chunk) :
    stream.Bounded chunk := by
  rcases parseIncoming_cases sound chunk.length_lt with ⟨hlt, hcall⟩ | ⟨-, hcall⟩
  · exact ⟨_, hcall, (sound_afterwards hlt).index_lt⟩
  · exact ⟨_, hcall, sound.index_lt⟩

theorem held_afterwards_suffix (text : Text) : (afterwards text).held <:+ text := by
  unfold afterwards held
  dsimp only
  split
  · rw [List.take_zero]
    exact List.nil_suffix
  · rw [List.take_length]

theorem recent_step {stream next : Stream} {chunk : Chunk} (recent : stream.Recent)
    (huntorn : stream.Untorn chunk) (hstep : stream.step chunk = some next) : next.Recent := by
  refine ⟨sound_step recent.sound hstep, ?_⟩
  rcases parseIncoming_cases recent.sound chunk.length_lt with ⟨-, hcall⟩ | ⟨hge, hcall⟩
  · rw [step, hcall] at hstep
    obtain rfl := Option.some.inj hstep
    have hsuffix : stream.parser.held ++ chunk.bytes <:+ stream.received ++ chunk.bytes := by
      obtain ⟨before, hbefore⟩ := recent.held_suffix
      exact ⟨before, by rw [← List.append_assoc, hbefore]⟩
    exact (held_afterwards_suffix _).trans hsuffix
  · rw [step, hcall] at hstep
    obtain rfl := Option.some.inj hstep
    have hzero : stream.parser.dataIndex = 0 := huntorn.resolve_right (Nat.not_lt.mpr hge)
    have hnil : stream.parser.held = [] := by rw [held, hzero, List.take_zero]
    change stream.parser.held <:+ _
    rw [hnil]
    exact List.nil_suffix

theorem contiguous_of_recent {stream : Stream} (recent : stream.Recent) (chunk : Chunk) :
    stream.Contiguous chunk := by
  intro result hresult hready
  rcases parseIncoming_cases recent.sound chunk.length_lt with ⟨hlt, hcall⟩ | ⟨-, hcall⟩
  · rw [hcall] at hresult
    obtain rfl := Option.some.inj hresult
    obtain ⟨before, hbefore⟩ := recent.held_suffix
    refine ⟨stream.parser.held ++ chunk.bytes, ⟨before, [], ?_⟩, ?_⟩
    · rw [List.append_nil, ← List.append_assoc, hbefore]
    · have hfits : (create.held ++ (stream.parser.held ++ chunk.bytes)).length < MAX_HTTP_DATA := hlt
      rw [parseIncoming_fits sound_create hfits]
      rfl
  · rw [hcall] at hresult
    obtain rfl := Option.some.inj hresult
    cases hready

/--
In every run the index stays in the array.  In every run in which no chunk is
refused while bytes are held, a request that is ready is the parse of bytes that
were received one after the other.
-/
theorem ready_contiguous (chunks : List Chunk) :
    Throughout step Bounded start chunks ∧
      (Throughout step Untorn start chunks → Throughout step Contiguous start chunks) := by
  constructor
  · have hkept (stream : Stream) (chunk : Chunk) (next : Stream) (sound : stream.parser.Sound)
        (hstep : stream.step chunk = some next) : next.parser.Sound :=
      sound_step sound hstep
    exact throughout_of_kept hkept (fun stream chunk sound => bounded_of_sound sound chunk)
      sound_create chunks
  · intro huntorn
    refine huntorn.imp (fun stream chunk next recent hallowed hstep => ?_)
      (fun stream chunk recent _ => ?_) recent_start
    · exact recent_step recent hallowed hstep
    · exact contiguous_of_recent recent chunk

/-- A request cut in two. -/
def exampleHead : Chunk := ⟨"GET / HTTP/1.1".toList, by decide⟩

def exampleEnd : Chunk := ⟨"\r\n\r\n".toList, by decide⟩

theorem ready_contiguous_cut : Throughout step Contiguous start [exampleHead, exampleEnd] :=
  (ready_contiguous [exampleHead, exampleEnd]).2
    ⟨Or.inl rfl, fun _ hhead => by
      obtain rfl := Option.some.inj hhead
      exact ⟨Or.inr (by decide +kernel), fun _ _ => trivial⟩⟩

/-- A chunk that fits into no array. -/
def exampleFlood : Chunk := ⟨List.replicate 1024 'x', by rw [List.length_replicate]; decide⟩

theorem exampleFlood_length : exampleFlood.bytes.length = MAX_HTTP_DATA :=
  List.length_replicate

theorem mem_of_find {char : Char} {text : Text} {start position : Nat}
    (hfound : Search.find [char] text start = some position) : char ∈ text :=
  List.mem_of_mem_drop (Search.find_eq_some_iff.mp hfound).2.1.mem

/-- A text that is parsed as a request has a space and an end of line. -/
theorem mem_of_ready {text : Text} (hready : (answer text).status = .ready) :
    ' ' ∈ text ∧ '\n' ∈ text := by
  unfold answer at hready
  split at hready
  · cases hready
  · unfold parseRequest at hready
    split at hready
    · cases hready
    · rename_i space1 hspace1
      split at hready
      · cases hready
      · dsimp only at hready
        split at hready
        · cases hready
        · rename_i eol heol
          exact ⟨mem_of_find hspace1, mem_of_find heol⟩

/-- No piece with a space and an end of line fits into the array: it covers the refused chunk. -/
theorem length_ge_of_mem {run : Text}
    (hrun : run <:+: exampleHead.bytes ++ exampleFlood.bytes ++ exampleEnd.bytes)
    (hspace : ' ' ∈ run) (hline : '\n' ∈ run) : MAX_HTTP_DATA ≤ run.length := by
  obtain ⟨before, behind, hsplit⟩ := hrun
  have hflood := exampleFlood_length
  have hbefore : before.length ≤ exampleHead.bytes.length := by
    have hsplit' := hsplit
    rw [List.append_assoc, List.append_assoc] at hsplit'
    rcases List.append_eq_append_iff.mp hsplit' with ⟨between, hhead, -⟩ | ⟨between, -, hrest⟩
    · rw [hhead, List.length_append]
      exact Nat.le_add_right _ _
    · have hmem : ' ' ∈ exampleFlood.bytes ++ exampleEnd.bytes := by
        rw [hrest]
        exact List.mem_append_right _ (List.mem_append_left _ hspace)
      rcases List.mem_append.mp hmem with hmem | hmem
      · exact absurd (List.eq_of_mem_replicate hmem) (by decide)
      · exact absurd hmem (by decide)
  rcases List.append_eq_append_iff.mp hsplit with ⟨between, hhead, -⟩ | ⟨between, hcovers, -⟩
  · have hmem : '\n' ∈ exampleHead.bytes ++ exampleFlood.bytes := by
      rw [hhead]
      exact List.mem_append_left _ (List.mem_append_right _ hline)
    rcases List.mem_append.mp hmem with hmem | hmem
    · exact absurd hmem (by decide)
    · exact absurd (List.eq_of_mem_replicate hmem) (by decide)
  · have hlength := congrArg List.length hcovers
    simp only [List.length_append] at hlength
    omega

/-- With the chunk in the middle refused, the first and the last one make a request. -/
theorem refused_chunk_missing :
    ¬ Throughout step Contiguous start [exampleHead, exampleFlood, exampleEnd] := by
  intro hall
  let waiting : HTTPProtocolParser := ⟨exampleHead.bytes, exampleHead.bytes.length⟩
  have hsound : Sound waiting := ⟨rfl, by decide⟩
  have hhead : start.step exampleHead = some ⟨waiting, exampleHead.bytes⟩ := by
    rw [step, start, parseIncoming_fits sound_create (by decide)]
    change some (Stream.mk (afterwards exampleHead.bytes) _) = _
    rw [afterwards_of_not_ready (by decide +kernel)]
    rfl
  have hflood : step ⟨waiting, exampleHead.bytes⟩ exampleFlood =
      some ⟨waiting, exampleHead.bytes ++ exampleFlood.bytes⟩ := by
    rw [step, parseIncoming_refused hsound exampleFlood.length_lt (by
      rw [exampleFlood_length]
      decide)]
    rfl
  have hlast := ((hall.2 _ hhead).2 _ hflood).1
  have hready : (answer (waiting.held ++ exampleEnd.bytes)).status = .ready := by decide +kernel
  obtain ⟨run, hrun, hparse⟩ := hlast _ (parseIncoming_fits hsound (by decide)) hready
  obtain ⟨result, hresult, hreq⟩ := Option.map_eq_some_iff.mp hparse
  have hstatus := (congrArg HTTPRequest.status hreq).trans hready
  have hlength : run.length < 2 ^ 63 := by
    have hle := hrun.length_le
    simp only [List.length_append, exampleFlood_length] at hle
    exact lt_of_le_of_lt hle (by decide)
  rcases parseIncoming_cases sound_create hlength with ⟨hlt, hcall⟩ | ⟨-, hcall⟩
  · obtain rfl := Option.some.inj (hcall.symm.trans hresult)
    obtain ⟨hspace, hline⟩ := mem_of_ready hstatus
    exact absurd (length_ge_of_mem hrun hspace hline) (Nat.not_le.mpr hlt)
  · obtain rfl := Option.some.inj (hcall.symm.trans hresult)
    cases hstatus

end Stream

end HTTPProtocolParser

end DumaisLib.WebSocket
