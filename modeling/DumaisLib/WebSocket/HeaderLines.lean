import DumaisLib.WebSocket.RequestChunks

/-!
# The header lines of a request

A line without a value leaves its name in the loop over the characters, and the
next line with a value is stored under both names joined.
-/

namespace DumaisLib.WebSocket.HTTPProtocolParser

/-- A header line; the value may be empty. -/
structure Field where
  name : Text
  value : Text
  name_ne_nil : name ≠ []
  name_plain : ∀ char ∈ name, char ≠ ':' ∧ char ≠ ' ' ∧ char ≠ '\r' ∧ char ≠ '\n'
  value_plain : ∀ char ∈ value, char ≠ '\r' ∧ char ≠ '\n'
  value_start : value.head? ≠ some ' '

namespace Field

/-- `Name: value` -/
def line (field : Field) : Text :=
  field.name ++ (": ".toList ++ field.value)

/-- The name under which the header is to be found. -/
def key (field : Field) : Text :=
  Text.toLower field.name

theorem newline_not_mem_line (field : Field) : '\n' ∉ field.line := by
  intro hmem
  rcases List.mem_append.mp hmem with hname | hrest
  · exact (field.name_plain _ hname).2.2.2 rfl
  · rcases List.mem_append.mp hrest with hcolon | hvalue
    · exact absurd hcolon (by decide)
    · exact (field.value_plain _ hvalue).2 rfl

end Field

/-- The header lines and the empty line behind them. -/
def headerLines (fields : List Field) : Text :=
  fields.flatMap (fun field => field.line ++ "\r\n".toList) ++ "\r\n".toList

theorem headerLines_cons (field : Field) (fields : List Field) :
    headerLines (field :: fields) = field.line ++ ("\r\n".toList ++ headerLines fields) := by
  simp [headerLines]

theorem two_le_length_headerLines (fields : List Field) : 2 ≤ (headerLines fields).length := by
  rw [headerLines, List.length_append]
  exact Nat.le_add_left _ _

/-! ## The end of the request -/

/-- Where the text does not begin with an empty line, the search goes on with the next character. -/
theorem findFirst_step {char : Char} {text : Text}
    (hstep : ¬ "\r\n\r\n".toList.isPrefixOf (char :: text) = true) :
    Search.findFirst "\r\n\r\n".toList (char :: text) =
      (Search.findFirst "\r\n\r\n".toList text).map (· + 1) := by
  rw [Search.findFirst, if_neg hstep]

/-- Nothing that begins within a line is an empty line. -/
theorem findFirst_line {line rest : Text} (hline : '\n' ∉ line) :
    Search.findFirst "\r\n\r\n".toList (line ++ ("\r\n".toList ++ rest)) =
      (Search.findFirst "\r\n\r\n".toList ("\r\n".toList ++ rest)).map (· + line.length) := by
  induction line with
  | nil => exact Option.map_id'.symm
  | cons char line ih =>
      obtain ⟨hchar, hrest⟩ := not_or.mp (List.mem_cons.not.mp hline)
      rw [List.cons_append, findFirst_step, ih hrest, Option.map_map]
      · rfl
      · cases line with
        | nil => simp [List.isPrefixOf]
        | cons other line =>
            have hother : '\n' ≠ other := fun heq => hrest (heq ▸ List.mem_cons_self)
            simp [List.isPrefixOf, hother]

/-- An end of line before another line is no empty line. -/
theorem findFirst_end_of_line {rest : Text} (hrest : rest.head? ≠ some '\r') :
    Search.findFirst "\r\n\r\n".toList ("\r\n".toList ++ rest) =
      (Search.findFirst "\r\n\r\n".toList rest).map (· + 2) := by
  change Search.findFirst _ ('\r' :: '\n' :: rest) = _
  rw [findFirst_step, findFirst_step, Option.map_map]
  · rfl
  · simp [List.isPrefixOf]
  · cases rest with
    | nil => simp [List.isPrefixOf]
    | cons char rest =>
        have hchar : '\r' ≠ char := fun heq => hrest (heq ▸ rfl)
        simp [List.isPrefixOf, hchar]

/-- The first empty line is the one behind the header lines. -/
theorem findFirst_headerLines {line : Text} (hline : '\n' ∉ line) (fields : List Field) :
    Search.findFirst "\r\n\r\n".toList (line ++ ("\r\n".toList ++ headerLines fields)) =
      some (line.length + (headerLines fields).length - 2) := by
  induction fields generalizing line with
  | nil =>
      have hfirst : Search.findFirst "\r\n\r\n".toList ("\r\n".toList ++ headerLines []) =
          some 0 := rfl
      rw [findFirst_line hline, hfirst, Option.map_some, Nat.zero_add]
      rfl
  | cons field fields ih =>
      have hstart : (headerLines (field :: fields)).head? ≠ some '\r' := by
        rw [headerLines_cons, Field.line, List.append_assoc,
          List.head?_append_of_ne_nil _ field.name_ne_nil]
        exact fun hhead => (field.name_plain _ (List.mem_of_head? hhead)).2.2.1 rfl
      rw [findFirst_line hline, findFirst_end_of_line hstart, headerLines_cons,
        ih field.newline_not_mem_line]
      have htwo := two_le_length_headerLines fields
      have hcrlf : "\r\n".toList.length = 2 := rfl
      simp only [Option.map_some, List.length_append, hcrlf]
      congr 1
      omega

/-! ## The loop over the header lines -/

/-- The loop at the beginning of a line, with the names that are left over. -/
def lineStart (carry : Text) (headers : TextMap) : HeaderLoop where
  isHeader := true
  header := carry
  value := []
  headers := headers

theorem foldl_name {name : Text} (hplain : ∀ char ∈ name, char ≠ ':' ∧ char ≠ ' ' ∧
    char ≠ '\r' ∧ char ≠ '\n') (carry : Text) (headers : TextMap) :
    name.foldl HeaderLoop.next (lineStart carry headers) = lineStart (carry ++ name) headers := by
  induction name generalizing carry with
  | nil => rw [List.append_nil]; rfl
  | cons char name ih =>
      obtain ⟨⟨hcolon, -, hreturn, hline⟩, hrest⟩ := List.forall_mem_cons.mp hplain
      have hnext : (lineStart carry headers).next char = lineStart (carry ++ [char]) headers := by
        simp [HeaderLoop.next, lineStart, hcolon, hreturn, hline]
      rw [List.foldl_cons, hnext, ih hrest, List.append_assoc]
      rfl

theorem foldl_value {value : Text} (hplain : ∀ char ∈ value, char ≠ '\r' ∧ char ≠ '\n')
    {loop : HeaderLoop} (hloop : loop.isHeader = false)
    (hstart : loop.value ≠ [] ∨ value.head? ≠ some ' ') :
    value.foldl HeaderLoop.next loop = { loop with value := loop.value ++ value } := by
  induction value generalizing loop with
  | nil => rw [List.append_nil]; rfl
  | cons char value ih =>
      obtain ⟨⟨hreturn, hline⟩, hrest⟩ := List.forall_mem_cons.mp hplain
      have hkept : ¬ (loop.value = [] ∧ char = ' ') := by
        rintro ⟨hnil, rfl⟩
        exact hstart.elim (absurd hnil) (absurd rfl)
      have hnext : loop.next char = { loop with value := loop.value ++ [char] } := by
        simp only [HeaderLoop.next, hreturn, hline, hloop, if_false, Bool.false_eq_true, if_neg hkept]
      rw [List.foldl_cons, hnext, ih hrest (by exact hloop) (Or.inl (by simp))]
      simp

/-- A line with a value is stored; a line without one leaves its name. -/
theorem foldl_line (field : Field) (carry : Text) (headers : TextMap) :
    (field.line ++ "\r\n".toList).foldl HeaderLoop.next (lineStart carry headers) =
      if field.value = [] then lineStart (carry ++ field.name) headers
      else lineStart []
        (headers.insert (Text.toLower (carry ++ field.name)) field.value) := by
  have hcolon : ": ".toList.foldl HeaderLoop.next (lineStart (carry ++ field.name) headers) =
      ⟨false, carry ++ field.name, [], headers⟩ := rfl
  have hvalue := foldl_value field.value_plain
    (show (HeaderLoop.mk false (carry ++ field.name) [] headers).isHeader = false from rfl)
    (Or.inr field.value_start)
  rw [List.foldl_append, Field.line, List.foldl_append, List.foldl_append,
    foldl_name field.name_plain, hcolon, hvalue]
  change HeaderLoop.next (HeaderLoop.next _ '\r') '\n' = _
  by_cases hnil : field.value = []
  · simp [HeaderLoop.next, lineStart, hnil]
  · simp [HeaderLoop.next, lineStart, hnil, field.name_ne_nil]

/-- The headers with a value, each with the names left over from the lines before it. -/
def stored : Text → List Field → List (Text × Field)
  | _, [] => []
  | carry, field :: fields =>
      if field.value = [] then stored (carry ++ field.name) fields
      else (carry, field) :: stored [] fields

/-- The key and the value of a stored header. -/
def entry (carried : Text × Field) : Text × Text :=
  (Text.toLower (carried.1 ++ carried.2.name), carried.2.value)

theorem foldl_headerLines (fields : List Field) (carry : Text) (headers : TextMap) :
    ((headerLines fields).foldl HeaderLoop.next (lineStart carry headers)).headers =
      TextMap.addAll ((stored carry fields).map entry) headers := by
  induction fields generalizing carry headers with
  | nil => simp [headerLines, HeaderLoop.next, lineStart, stored, TextMap.addAll]
  | cons field fields ih =>
      rw [headerLines_cons, ← List.append_assoc, List.foldl_append, foldl_line, stored]
      by_cases hnil : field.value = []
      · rw [if_pos hnil, if_pos hnil, ih]
      · rw [if_neg hnil, if_neg hnil, ih]
        rfl

/-! ## What is stored -/

theorem stored_sublist (carry : Text) (fields : List Field) :
    ((stored carry fields).map Prod.snd).Sublist fields := by
  induction fields generalizing carry with
  | nil => exact List.Sublist.slnil
  | cons field fields ih =>
      rw [stored]
      split
      · exact (ih _).cons field
      · exact (ih _).cons_cons field

theorem value_ne_nil_of_mem_stored {carry : Text} {fields : List Field} {carried : Text × Field}
    (hmem : carried ∈ stored carry fields) : carried.2.value ≠ [] := by
  induction fields generalizing carry with
  | nil => cases hmem
  | cons field fields ih =>
      rw [stored] at hmem
      split at hmem
      · exact ih hmem
      · rename_i hvalue
        rcases List.mem_cons.mp hmem with rfl | hrest
        · exact hvalue
        · exact ih hrest

/-- Every header with a value is stored under some name. -/
theorem exists_mem_stored {carry : Text} {fields : List Field} {field : Field}
    (hmem : field ∈ fields) (hvalue : field.value ≠ []) :
    ∃ left, (left, field) ∈ stored carry fields := by
  induction fields generalizing carry with
  | nil => cases hmem
  | cons first fields ih =>
      rw [stored]
      rcases List.mem_cons.mp hmem with rfl | hrest
      · rw [if_neg hvalue]
        exact ⟨carry, List.mem_cons_self⟩
      · split
        · exact ih hrest
        · obtain ⟨left, hleft⟩ := @ih [] hrest
          exact ⟨left, List.mem_cons_of_mem _ hleft⟩

/-- No name is left over exactly when no header without a value comes before one with a value. -/
theorem stored_plain_iff (carry : Text) (fields : List Field) :
    (∀ carried ∈ stored carry fields, carried.1 = []) ↔
      fields.Pairwise (fun earlier later => earlier.value = [] → later.value = []) ∧
        (carry ≠ [] → ∀ field ∈ fields, field.value = []) := by
  induction fields generalizing carry with
  | nil => simp [stored]
  | cons field fields ih =>
      rw [stored, List.pairwise_cons]
      by_cases hvalue : field.value = []
      · have hleft : carry ++ field.name ≠ [] := by simp [field.name_ne_nil]
        rw [if_pos hvalue, ih]
        simp only [hleft, hvalue, List.forall_mem_cons, true_and, true_implies, ne_eq,
          not_false_eq_true]
        tauto
      · rw [if_neg hvalue, List.forall_mem_cons, ih]
        simp only [hvalue, List.forall_mem_cons, false_and, false_implies, ne_eq,
          not_true_eq_false, imp_false, not_not, implies_true, and_true, true_and]
        tauto

/-! ## Requests -/

/-- `GET resource HTTP/1.1`, the header lines and an empty line. -/
def requestText (resource : Text) (fields : List Field) : Text :=
  "GET ".toList ++ (resource ++ (" HTTP/1.1\r\n".toList ++ headerLines fields))

/-- A `GET` request that fits into the array; no two of its headers have the same name. -/
structure GetRequest where
  resource : Text
  fields : List Field
  resource_plain : ∀ char ∈ resource, char ≠ ' ' ∧ char ≠ '\n'
  keys_distinct : (fields.map Field.key).Nodup
  length_lt : (requestText resource fields).length < MAX_HTTP_DATA

namespace GetRequest

def text (request : GetRequest) : Text :=
  requestText request.resource request.fields

/-- The headers that the parser stores. -/
def parsedHeaders (request : GetRequest) : TextMap :=
  TextMap.addAll ((stored [] request.fields).map entry) ∅

/--
A new parser answers that the request is ready, with its resource, and its
headers that have a value are those of the request.
-/
def Parsed (request : GetRequest) : Prop :=
  ∃ parser req, create.parseIncoming request.text = some (parser, req) ∧ req.status = .ready ∧
    req.resource = request.resource ∧
    ∀ name value, value ≠ [] →
      (req.headers.lookup name = some value ↔
        ∃ field ∈ request.fields, field.key = name ∧ field.value = value)

theorem answer_text (request : GetRequest) :
    (answer request.text).status = .ready ∧ (answer request.text).resource = request.resource ∧
      (answer request.text).headers = request.parsedHeaders := by
  let requestLine := "GET ".toList ++ request.resource ++ " HTTP/1.1".toList
  have hplain : '\n' ∉ requestLine := by
    simp only [requestLine, List.mem_append, not_or]
    exact ⟨⟨by decide, fun hmem => (request.resource_plain _ hmem).2 rfl⟩, by decide⟩
  have htext : request.text = requestLine ++ ("\r\n".toList ++ headerLines request.fields) := by
    simp [text, requestText, requestLine]
  have htwo := two_le_length_headerLines request.fields
  have hend : Search.find "\r\n\r\n".toList request.text 0 = some (request.text.length - 4) := by
    rw [Search.find, if_pos (Nat.zero_le _), List.drop_zero, htext,
      findFirst_headerLines hplain request.fields]
    simp only [Option.map_some, List.length_append, Option.some.injEq]
    change 0 + _ = requestLine.length + (2 + _) - 4
    omega
  have hspace1 : Search.find " ".toList request.text 0 = some 3 :=
    @Search.find_item _ _ ' ' "GET".toList _ 0 (by decide) (by decide)
  have hspace2 : Search.find " ".toList request.text 4 = some (4 + request.resource.length) := by
    have hfound := @Search.find_item _ _ ' ' ("GET ".toList ++ request.resource)
      ("HTTP/1.1\r\n".toList ++ headerLines request.fields) 4 (by simp)
      fun hmem => (request.resource_plain ' ' hmem).1 rfl
    rw [List.append_assoc, List.length_append] at hfound
    exact hfound
  have heol : Search.find "\n".toList request.text 0 = some (requestLine.length + 1) := by
    have hfound := @Search.find_item _ _ '\n' (requestLine ++ ['\r']) (headerLines request.fields) 0
      (Nat.zero_le _) (by simpa using hplain)
    rw [List.length_append, List.append_assoc] at hfound
    rw [htext]
    exact hfound
  have hlines : Text.substr request.text (requestLine.length + 1 + 1)
      (request.text.length - 4 + 4 - (requestLine.length + 1 + 1)) = headerLines request.fields := by
    have hbehind : request.text.drop (requestLine.length + 2) = headerLines request.fields := by
      rw [htext, List.drop_length_add_append]
      rfl
    have hcount : (headerLines request.fields).length ≤
        request.text.length - 4 + 4 - (requestLine.length + 1 + 1) := by
      rw [← hbehind, List.length_drop]
      omega
    rw [Text.substr, hbehind, List.take_of_length_le hcount]
  have hresource : Text.substr request.text (3 + 1) (4 + request.resource.length - 3 - 1) =
      request.resource := by
    have hbehind : request.text.drop 4 =
        request.resource ++ (" HTTP/1.1\r\n".toList ++ headerLines request.fields) := rfl
    have hcount : 4 + request.resource.length - 3 - 1 = request.resource.length := by omega
    rw [Text.substr, hbehind, hcount, List.take_left]
  simp only [answer, hend, parseRequest, hspace1, hspace2, heol, hlines, hresource]
  exact ⟨trivial, trivial, foldl_headerLines request.fields [] ∅⟩

theorem parsed_iff_lookup (request : GetRequest) :
    request.Parsed ↔ ∀ name value, value ≠ [] →
      (request.parsedHeaders.lookup name = some value ↔
        ∃ field ∈ request.fields, field.key = name ∧ field.value = value) := by
  obtain ⟨hready, hresource, hheaders⟩ := request.answer_text
  have hparse : create.parseIncoming request.text =
      some (afterwards request.text, answer request.text) :=
    parseIncoming_fits sound_create request.length_lt
  unfold Parsed
  rw [hparse, ← hheaders]
  constructor
  · rintro ⟨parser, req, heq, -, -, hall⟩
    obtain ⟨-, rfl⟩ := Prod.mk.inj (Option.some.inj heq)
    exact hall
  · exact fun hall => ⟨_, _, rfl, hready, hresource, hall⟩

theorem stored_keys_distinct (request : GetRequest) :
    ((stored [] request.fields).map fun carried => carried.2.key).Nodup := by
  have hsublist := ((stored_sublist [] request.fields).map Field.key)
  rw [List.map_map] at hsublist
  exact request.keys_distinct.sublist hsublist

/-- When all headers are found, none is stored under more than its own name. -/
theorem carried_eq_nil (request : GetRequest)
    (hfound : ∀ field ∈ request.fields, field.value ≠ [] →
      request.parsedHeaders.lookup field.key = some field.value)
    {carried : Text × Field} (hmem : carried ∈ stored [] request.fields) : carried.1 = [] := by
  have hdistinct := request.stored_keys_distinct
  -- The header under whose joined names this one is found has a shorter name.
  induction hlength : carried.2.name.length using Nat.strong_induction_on generalizing carried with
  | _ length ih =>
      have hmember : carried.2 ∈ request.fields :=
        (stored_sublist [] request.fields).subset (List.mem_map_of_mem hmem)
      have hlookup := hfound _ hmember (value_ne_nil_of_mem_stored hmem)
      obtain ⟨other, hother, heq⟩ := List.mem_map.mp (TextMap.lookup_addAll_mem hlookup)
      have hkey : Text.toLower (other.1 ++ other.2.name) = carried.2.key := (Prod.mk.inj heq).1
      have hlengths := congrArg List.length hkey
      simp only [Text.toLower, Field.key, List.length_map, List.length_append] at hlengths
      by_cases hnil : other.1 = []
      · rw [hnil, List.nil_append] at hkey
        have hsame : other = carried := List.inj_on_of_nodup_map hdistinct hother hmem hkey
        rw [← hsame, hnil]
      · have hpos := List.length_pos_iff.mpr hnil
        exact absurd (ih _ (by omega) hother rfl) hnil

/--
The request is parsed as it should be exactly when no header without a value
comes before one that has a value.
-/
theorem parsed_iff (request : GetRequest) :
    request.Parsed ↔
      request.fields.Pairwise fun earlier later => earlier.value = [] → later.value = [] := by
  have hplain := stored_plain_iff [] request.fields
  rw [and_iff_left (fun hne => absurd rfl hne)] at hplain
  rw [parsed_iff_lookup, ← hplain]
  constructor
  · intro hall carried hmem
    exact request.carried_eq_nil (fun field hfield hvalue =>
      (hall _ _ hvalue).mpr ⟨field, hfield, rfl, rfl⟩) hmem
  · intro hnil name value hvalue
    have hentries : (stored [] request.fields).map entry =
        (stored [] request.fields).map fun carried => (carried.2.key, carried.2.value) := by
      refine List.map_congr_left fun carried hmem => ?_
      rw [entry, hnil carried hmem]
      rfl
    have hdistinct : (((stored [] request.fields).map fun carried =>
        (carried.2.key, carried.2.value)).map Prod.fst).Nodup := by
      rw [List.map_map]
      exact request.stored_keys_distinct
    rw [parsedHeaders, hentries, TextMap.lookup_addAll_iff hdistinct, List.mem_map]
    constructor
    · rintro ⟨carried, hmem, heq⟩
      obtain ⟨hname, hsame⟩ := Prod.mk.inj heq
      exact ⟨carried.2, (stored_sublist [] request.fields).subset (List.mem_map_of_mem hmem),
        hname, hsame⟩
    · rintro ⟨field, hfield, rfl, rfl⟩
      obtain ⟨left, hmem⟩ := exists_mem_stored hfield hvalue
      exact ⟨(left, field), hmem, rfl⟩

/-- An empty origin before the key of a handshake. -/
def exampleRequest : GetRequest where
  resource := "/chat".toList
  fields :=
    [⟨"Origin".toList, [], by decide, by simp, by simp, by decide⟩,
      ⟨"Sec-WebSocket-Key".toList, "x3JJHMbDL1EzLkh9GBhXDw==".toList, by decide, by simp,
        by simp, by decide⟩]
  resource_plain := by simp
  keys_distinct := by decide +kernel
  length_lt := by decide +kernel

/-- The key is stored as `originsec-websocket-key`. -/
theorem empty_value_hides_key : ¬ exampleRequest.Parsed := by
  intro hparsed
  have hkey := (exampleRequest.parsed_iff_lookup.mp hparsed "sec-websocket-key".toList
    "x3JJHMbDL1EzLkh9GBhXDw==".toList (by decide)).mpr
    ⟨_, List.mem_cons_of_mem _ List.mem_cons_self, by decide +kernel, rfl⟩
  exact absurd hkey (by decide +kernel)

end GetRequest

end DumaisLib.WebSocket.HTTPProtocolParser
