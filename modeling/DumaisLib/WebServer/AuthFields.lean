import DumaisLib.WebServer.HTTPRequest
import DumaisLib.WebServer.RequestStream

/-!
# The fields of an authorization line

A line of fields with quoted values is read back as it was written.  Fields with
unquoted values are passed over.  A cookie is read up to the end of its value.
-/

namespace DumaisLib.WebServer

open Regex

/-- A field of an authorization line; `spaced` ones have a space in front of them. -/
inductive AuthItem where
  | quoted (spaced : Bool) (key value : Text)
  | unquoted (spaced : Bool) (key value : Text)

namespace AuthItem

def lead (spaced : Bool) : Text :=
  if spaced then [' '] else []

def text : AuthItem → Text
  | quoted spaced key value => lead spaced ++ (key ++ ('=' :: '"' :: (value ++ ['"'])))
  | unquoted spaced key value => lead spaced ++ (key ++ ('=' :: value))

/-- The key as it is stored, with the value. -/
def field? : AuthItem → Option (Text × Text)
  | quoted _ key value => some (key, value)
  | unquoted _ _ _ => none

/-- The key has letters, digits and spaces, and does not begin with a space. -/
def Keyed (key : Text) : Prop :=
  (∀ char ∈ key, HTTPRequest.isSpaceOrAlphanumeric char = true) ∧ key.head? ≠ some ' '

def WellFormed : AuthItem → Prop
  | quoted _ key value => Keyed key ∧ '"' ∉ value
  | unquoted _ key value => Keyed key ∧ '"' ∉ value ∧ '=' ∉ value

instance (key : Text) : Decidable (Keyed key) :=
  decidable_of_iff (key.all HTTPRequest.isSpaceOrAlphanumeric = true ∧ key.head? ≠ some ' ')
    (and_congr_left fun _ => List.all_eq_true)

instance : DecidablePred WellFormed
  | quoted _ _ _ => inferInstanceAs (Decidable (_ ∧ _))
  | unquoted _ _ _ => inferInstanceAs (Decidable (_ ∧ _ ∧ _))

end AuthItem

/-- What follows the first field. -/
def laterFields (items : List AuthItem) : Text :=
  items.flatMap fun item => ',' :: item.text

/-- The fields with commas between them. -/
def authLine (item : AuthItem) (items : List AuthItem) : Text :=
  item.text ++ laterFields items

namespace HTTPRequest

/-- The part of the pattern behind the key. -/
def valuePattern : List (Piece Char) :=
  [.one (· = '='), .one (· = '"'), .many (· ≠ '"') true, .one (· = '"')]

/-- The key is the longest run of its characters, without the space in front of it. -/
theorem matchHere_authField (items : Text) :
    matchHere authFieldPattern items =
      (matchHere valuePattern (items.dropWhile isSpaceOrAlphanumeric)).map fun hit =>
        ⟨(dropOptional (· = ' ') items).takeWhile isSpaceOrAlphanumeric :: hit.captures,
          hit.rest⟩ := by
  have hsubset : ∀ char : Char, decide (char = ' ') = true → isSpaceOrAlphanumeric char = true := by
    intro char hspace
    rw [of_decide_eq_true hspace]
    decide
  have hdisjoint : ∀ char : Char, isSpaceOrAlphanumeric char = true →
      decide (char = '=') = false := by
    intro char hkey
    refine decide_eq_false fun hequals => ?_
    rw [hequals] at hkey
    exact absurd hkey (by decide)
  rw [authFieldPattern, matchHere_optional_many_one hsubset hdisjoint,
    matchHere_many_one hdisjoint, dropWhile_dropOptional hsubset]
  rfl

/-- A value in quotes is read up to its end. -/
theorem matchHere_value {value : Text} (hvalue : '"' ∉ value) (rest : Text) :
    matchHere valuePattern ('=' :: '"' :: (value ++ '"' :: rest)) = some ⟨[value], rest⟩ := by
  have hpass : ∀ char ∈ value, decide (char ≠ '"') = true := fun char hchar =>
    decide_eq_true fun hquote => hvalue (hquote ▸ hchar)
  have htake : (value ++ '"' :: rest).takeWhile (fun char => decide (char ≠ '"')) = value := by
    rw [List.takeWhile_append_of_pos hpass, List.takeWhile_cons_of_neg (by decide),
      List.append_nil]
  have hdrop : (value ++ '"' :: rest).dropWhile (fun char => decide (char ≠ '"')) =
      '"' :: rest := by
    rw [List.dropWhile_append_of_pos hpass, List.dropWhile_cons_of_neg (by decide)]
  have hquote : matchHere [.one (· = '"')] ((value ++ '"' :: rest).dropWhile
      fun char => decide (char ≠ '"')) = some ⟨[], rest⟩ := by
    rw [hdrop]
    rfl
  have hmany := @matchHere_many Char (fun char => decide (char ≠ '"')) true _ _ _ hquote
  rw [htake] at hmany
  exact hmany

theorem matchHere_value_none {items : Text} (hhead : items.head? ≠ some '=') :
    matchHere valuePattern items = none := by
  cases items with
  | nil => rfl
  | cons char items =>
      have hne : ¬ decide (char = '=') = true := fun hequals =>
        hhead (congrArg some (of_decide_eq_true hequals))
      exact if_neg hne

theorem matchHere_unquoted_none {items : Text} (hhead : items.head? ≠ some '"') :
    matchHere valuePattern ('=' :: items) = none := by
  cases items with
  | nil => rfl
  | cons char items =>
      have hne : ¬ decide (char = '"') = true := fun hquote =>
        hhead (congrArg some (of_decide_eq_true hquote))
      exact if_neg hne

/-- A field with a quoted value is matched as a whole. -/
theorem matchHere_quoted {spaced : Bool} {key value : Text}
    (hwf : (AuthItem.quoted spaced key value).WellFormed) (rest : Text) :
    matchHere authFieldPattern ((AuthItem.quoted spaced key value).text ++ rest) =
      some ⟨[key, value], rest⟩ := by
  obtain ⟨⟨hkey, hhead⟩, hvalue⟩ := hwf
  have hsplit : (AuthItem.quoted spaced key value).text ++ rest =
      AuthItem.lead spaced ++ (key ++ '=' :: '"' :: (value ++ '"' :: rest)) := by
    simp [AuthItem.text]
  have hlead : ∀ char ∈ AuthItem.lead spaced, isSpaceOrAlphanumeric char = true := by
    cases spaced with
    | true => exact List.forall_mem_singleton.mpr (by decide)
    | false => exact List.forall_mem_nil _
  have hdrop : (AuthItem.lead spaced ++ (key ++ '=' :: '"' :: (value ++ '"' :: rest))).dropWhile
      isSpaceOrAlphanumeric = '=' :: '"' :: (value ++ '"' :: rest) := by
    rw [List.dropWhile_append_of_pos hlead, List.dropWhile_append_of_pos hkey,
      List.dropWhile_cons_of_neg (by decide)]
  have hoptional : dropOptional (· = ' ')
      (AuthItem.lead spaced ++ (key ++ '=' :: '"' :: (value ++ '"' :: rest))) =
        key ++ '=' :: '"' :: (value ++ '"' :: rest) := by
    cases spaced with
    | true => rfl
    | false =>
        cases key with
        | nil => rfl
        | cons char key =>
            have hne : ¬ char = ' ' := fun hspace => hhead (congrArg some hspace)
            simp [AuthItem.lead, dropOptional, hne]
  rw [hsplit, matchHere_authField, hdrop, hoptional, matchHere_value hvalue, Option.map_some,
    List.takeWhile_append_of_pos hkey, List.takeWhile_cons_of_neg (by decide), List.append_nil]

/-- Behind a field there is a comma, or nothing. -/
theorem head_laterFields (items : List AuthItem) :
    (laterFields items).head? = none ∨ (laterFields items).head? = some ',' := by
  cases items with
  | nil => exact Or.inl rfl
  | cons item items => exact Or.inr rfl

/-- Behind the run at the start of a text without the sign there is no such sign. -/
theorem head_dropWhile_ne {tail : Text} (hequals : '=' ∉ tail) (items : List AuthItem) :
    ((tail ++ laterFields items).dropWhile isSpaceOrAlphanumeric).head? ≠ some '=' := by
  rcases dropWhile_append_prefix isSpaceOrAlphanumeric tail (laterFields items) with hnil | hdrop
  · rw [List.dropWhile_append_of_pos (List.dropWhile_eq_nil_iff.mp hnil)]
    cases items with
    | nil => exact nofun
    | cons item items =>
        rw [laterFields, List.flatMap_cons, List.cons_append,
          List.dropWhile_cons_of_neg (by decide)]
        exact fun heq => absurd (Option.some.inj heq) (by decide)
  · rw [hdrop]
    cases hrest : tail.dropWhile isSpaceOrAlphanumeric with
    | nil =>
        rcases head_laterFields items with hnone | hsome
        · rw [List.nil_append, hnone]
          exact nofun
        · rw [List.nil_append, hsome]
          exact fun heq => absurd (Option.some.inj heq) (by decide)
    | cons char rest =>
        have hmem : char ∈ tail := (List.dropWhile_suffix _).mem (hrest ▸ List.mem_cons_self)
        exact fun heq => hequals (Option.some.inj heq ▸ hmem)

/-- Nothing is matched in a field whose value is not quoted. -/
theorem search_unquoted {spaced : Bool} {key value : Text}
    (hwf : (AuthItem.unquoted spaced key value).WellFormed) (items : List AuthItem) :
    search authFieldPattern ((AuthItem.unquoted spaced key value).text ++ laterFields items) =
      search authFieldPattern (laterFields items) := by
  obtain ⟨⟨hkey, -⟩, hquote, hequals⟩ := hwf
  have hlead : ∀ char ∈ AuthItem.lead spaced, isSpaceOrAlphanumeric char = true := by
    cases spaced with
    | true => exact List.forall_mem_singleton.mpr (by decide)
    | false => exact List.forall_mem_nil _
  have hhead (other : Char) (hvalue : other ∉ value) (hcomma : other ≠ ',') :
      (value ++ laterFields items).head? ≠ some other := by
    cases value with
    | nil =>
        rcases head_laterFields items with hnone | hsome
        · rw [List.nil_append, hnone]
          exact nofun
        · rw [List.nil_append, hsome]
          exact fun heq => hcomma (Option.some.inj heq).symm
    | cons char value =>
        exact fun heq => hvalue (List.mem_of_mem_head? heq)
  have hwithin (run : Text) (hrun : ∀ char ∈ run, isSpaceOrAlphanumeric char = true) :
      matchHere authFieldPattern (run ++ '=' :: value ++ laterFields items) = none := by
    rw [matchHere_authField, List.append_assoc, List.dropWhile_append_of_pos hrun,
      List.cons_append, List.dropWhile_cons_of_neg (by decide),
      matchHere_unquoted_none (hhead '"' hquote (by decide)), Option.map_none]
  have htext : (AuthItem.unquoted spaced key value).text =
      AuthItem.lead spaced ++ key ++ '=' :: value := (List.append_assoc _ _ _).symm
  rw [htext]
  refine search_append fun tail hne hsuffix => ?_
  obtain ⟨front, hfront⟩ := hsuffix
  rcases List.append_eq_append_iff.mp hfront with ⟨run, hrun, rfl⟩ | ⟨behind, -, hbehind⟩
  · refine hwithin run fun char hchar => ?_
    have hmem : char ∈ AuthItem.lead spaced ++ key := hrun ▸ List.mem_append_right _ hchar
    exact (List.mem_append.mp hmem).elim (hlead char) (hkey char)
  · cases behind with
    | nil =>
        obtain rfl : '=' :: value = tail := hbehind
        exact hwithin [] (List.forall_mem_nil _)
    | cons equals behind =>
        -- the match would begin within the value
        obtain ⟨-, hvalue⟩ := List.cons.inj hbehind
        rw [matchHere_authField, matchHere_value_none, Option.map_none]
        exact head_dropWhile_ne (fun hmem => hequals (hvalue ▸ List.mem_append_right _ hmem)) items

theorem search_laterFields (item : AuthItem) (items : List AuthItem) :
    search authFieldPattern (laterFields (item :: items)) =
      search authFieldPattern (authLine item items) := by
  have hsplit : laterFields (item :: items) = [','] ++ authLine item items := rfl
  rw [hsplit]
  refine search_append fun tail hne hsuffix => ?_
  rcases List.suffix_cons_iff.mp hsuffix with rfl | hnil
  · rw [matchHere_authField, List.singleton_append, List.dropWhile_cons_of_neg (by decide),
      matchHere_value_none, Option.map_none]
    exact fun heq => absurd (Option.some.inj heq) (by decide)
  · exact absurd (List.suffix_nil.mp hnil) hne

theorem authMatches_congr {first second : Text}
    (hsame : search authFieldPattern first = search authFieldPattern second) (fuel : Nat) :
    authMatches fuel first = authMatches fuel second := by
  cases fuel with
  | zero => rfl
  | succ fuel => rw [authMatches, authMatches, hsame]

theorem search_nil : search authFieldPattern [] = none :=
  rfl

/-- The matches are the fields with quoted values. -/
theorem authMatches_laterFields {items : List AuthItem}
    (hwf : ∀ item ∈ items, item.WellFormed) {fuel : Nat} (hfuel : items.length ≤ fuel) :
    authMatches fuel (laterFields items) = items.filterMap AuthItem.field? := by
  induction items generalizing fuel with
  | nil =>
      cases fuel with
      | zero => rfl
      | succ fuel =>
          rw [authMatches, show laterFields [] = [] from rfl, search_nil]
          rfl
  | cons item items ih =>
      obtain ⟨hitem, hitems⟩ := List.forall_mem_cons.mp hwf
      rw [List.length_cons] at hfuel
      rw [authMatches_congr (search_laterFields item items), authLine]
      cases item with
      | quoted spaced key value =>
          obtain ⟨fuel, rfl⟩ := Nat.exists_eq_add_of_lt hfuel
          have hmatch := search_of_match (matchHere_quoted hitem (laterFields items))
          rw [authMatches, hmatch]
          exact congrArg ((key, value) :: ·) (ih hitems (Nat.le_add_right _ _))
      | unquoted spaced key value =>
          rw [authMatches_congr (search_unquoted hitem items), ih hitems (by omega)]
          rfl

theorem authMatches_authLine {item : AuthItem} {items : List AuthItem}
    (hwf : ∀ other ∈ item :: items, other.WellFormed) {fuel : Nat}
    (hfuel : items.length + 1 ≤ fuel) :
    authMatches fuel (authLine item items) = (item :: items).filterMap AuthItem.field? := by
  rw [← authMatches_congr (search_laterFields item items)]
  exact authMatches_laterFields hwf hfuel

theorem length_le_laterFields (items : List AuthItem) :
    items.length ≤ (laterFields items).length := by
  induction items with
  | nil => exact le_rfl
  | cons item items ih =>
      rw [laterFields, List.flatMap_cons, List.length_append, List.length_cons, List.length_cons]
      rw [laterFields] at ih
      omega

/--
A line of fields is read as the fields with quoted values, under their keys in
lower case.
-/
theorem getAuthFields_authLine {item : AuthItem} {items : List AuthItem}
    (hwf : ∀ other ∈ item :: items, other.WellFormed) :
    getAuthFields (authLine item items) =
      TextMap.addAll (((item :: items).filterMap AuthItem.field?).map
        fun field => (Text.toLower field.1, field.2)) ∅ := by
  have hitem : 1 ≤ item.text.length := by
    cases item <;> simp [AuthItem.text] <;> omega
  have hfuel : items.length + 1 ≤ (authLine item items).length := by
    have hlater := length_le_laterFields items
    rw [authLine, List.length_append]
    omega
  rw [getAuthFields, authMatches_authLine hwf hfuel, TextMap.addAll, List.foldl_map]

/-! ## Header lines -/

/-- A request of lines, with what follows its empty line. -/
def ofLines (lines : List Text) (body : Text) : Text :=
  Search.withEnds '\r' '\n' lines ++ ['\r', '\n'] ++ body

/-- A line has something in it, and no end of line. -/
def IsLine (line : Text) : Prop :=
  line ≠ [] ∧ ∀ char ∈ line, Text.dot char = true

instance : DecidablePred IsLine := fun line =>
  decidable_of_iff (line ≠ [] ∧ line.all Text.dot = true) (and_congr_right fun _ => List.all_eq_true)

theorem IsLine.not_mem {line : Text} (hline : IsLine line) {char : Char}
    (hends : Text.dot char = false) : char ∉ line := fun hmem =>
  Bool.noConfusion (hends.symm.trans (hline.2 char hmem))

/-- The header ends with the first carriage return of the empty line. -/
theorem mHeader_ofLines {lines : List Text} (hlines : ∀ line ∈ lines, IsLine line)
    (hsome : lines ≠ []) (body : Text) :
    (ofMessage (ofLines lines body)).mHeader = Search.withEnds '\r' '\n' lines ++ ['\r'] := by
  have hfind : Search.find HTTPFramingStrategy.END_OF_HEADER (ofLines lines body) 0 =
      some ((Search.withEnds '\r' '\n' lines).length - 2) :=
    Search.find_empty_line (by decide)
      (fun line hmem => ⟨(hlines line hmem).1,
        Search.unbroken_of_not_mem ((hlines line hmem).not_mem (by decide))⟩) hsome body
  have hlong : 2 ≤ (Search.withEnds '\r' '\n' lines).length := by
    cases lines with
    | nil => exact absurd rfl hsome
    | cons line lines =>
        simp only [Search.withEnds, List.flatMap_cons, List.length_append, List.length_cons]
        omega
  have hsize : headerSize (ofLines lines body) =
      (Search.withEnds '\r' '\n' lines ++ ['\r']).length := by
    rw [headerSize, hfind, List.length_append, List.length_singleton]
    dsimp only
    omega
  have hsplit : ofLines lines body =
      (Search.withEnds '\r' '\n' lines ++ ['\r']) ++ ('\n' :: body) := by
    simp [ofLines]
  rw [ofMessage, hsize]
  dsimp only
  rw [hsplit, List.take_left]

/-- Lines without the name are passed over. -/
theorem firstFit_lines {tests : List (Char → Bool)} (htests : tests ≠ [])
    (hends : ∀ test ∈ tests, test '\r' = false ∧ test '\n' = false) {before : List Text}
    (hbefore : ∀ line ∈ before, firstFit tests line = none) (rest : Text) :
    firstFit tests (Search.withEnds '\r' '\n' before ++ rest) = firstFit tests rest := by
  have hnil : firstFit tests [] = none := by
    cases tests with
    | nil => exact absurd rfl htests
    | cons test tests => rfl
  induction before with
  | nil => rfl
  | cons line before ih =>
      obtain ⟨hline, hlater⟩ := List.forall_mem_cons.mp hbefore
      have hsplit : Search.withEnds '\r' '\n' (line :: before) ++ rest =
          line ++ '\r' :: ([] ++ '\n' :: (Search.withEnds '\r' '\n' before ++ rest)) := by
        simp [Search.withEnds]
      rw [hsplit, firstFit_behind htests (fun test htest => (hends test htest).1) hline,
        firstFit_behind htests (fun test htest => (hends test htest).2) hnil]
      exact ih hlater

/-- The tests for a header's name and what stands behind it. -/
def nameTests (header : Text) : List (Char → Bool) :=
  Text.noCase (header ++ ": ".toList)

/--
A request that has a line with the header.  The name is in any letter case, and
stands nowhere in the lines before.
-/
structure HeaderRequest (header : Text) where
  before : List Text
  name : Text
  value : Text
  after : List Text
  body : Text
  name_eq : Text.toLower name = Text.toLower header
  isLine : ∀ line ∈ before ++ (name ++ ": ".toList ++ value) :: after, IsLine line
  first : ∀ line ∈ before, firstFit (nameTests header) line = none

def HeaderRequest.bytes {header : Text} (request : HeaderRequest header) : Text :=
  ofLines (request.before ++ (request.name ++ ": ".toList ++ request.value) :: request.after)
    request.body

/-- The header is read as what stands behind its name. -/
theorem getHeader_bytes {header : Text} (hheader : IsLine header)
    (request : HeaderRequest header) :
    (ofMessage request.bytes).getHeader header = request.value := by
  obtain ⟨before, name, value, after, body, hname, hlines, hbefore⟩ := request
  have hcolon : ": ".toList = [':', ' '] := rfl
  have hsome : before ++ (name ++ ": ".toList ++ value) :: after ≠ [] :=
    List.append_ne_nil_of_right_ne_nil _ (List.cons_ne_nil _ _)
  have htests : nameTests header ≠ [] := by
    rw [nameTests, hcolon]
    exact fun hnil => absurd (List.map_eq_nil_iff.mp hnil)
      (List.append_ne_nil_of_right_ne_nil _ (List.cons_ne_nil _ _))
  have hends (stop : Char) (hstop : Text.dot stop = false) :
      ∀ test ∈ nameTests header, test stop = false := by
    intro test htest
    obtain ⟨char, hchar, rfl⟩ := List.mem_map.mp htest
    have hdot : Text.dot char = true := by
      rcases List.mem_append.mp hchar with hletter | hletter
      · exact hheader.2 char hletter
      · rw [hcolon] at hletter
        rcases List.mem_cons.mp hletter with rfl | hspace
        · rfl
        · obtain rfl := List.mem_singleton.mp hspace
          rfl
    refine decide_eq_false fun hsame => ?_
    rw [← Text.dot_toLower, ← hsame, Text.dot_toLower, hstop] at hdot
    cases hdot
  have hvalue : ∀ char ∈ value, Text.dot char = true := fun char hchar =>
    (hlines _ (List.mem_append_right _ List.mem_cons_self)).2 char (List.mem_append_right _ hchar)
  have hlower : Text.toLower (name ++ ": ".toList) = Text.toLower (header ++ ": ".toList) := by
    rw [Text.toLower, Text.toLower, List.map_append, List.map_append]
    exact congrArg (· ++ _) hname
  have hlength : (nameTests header).length = (name ++ ": ".toList).length := by
    have hmap := congrArg List.length hlower
    rw [Text.toLower, Text.toLower, List.length_map, List.length_map] at hmap
    rw [nameTests, Text.noCase, List.length_map, hmap]
  let rest := '\r' :: '\n' :: (Search.withEnds '\r' '\n' after ++ ['\r'])
  have hsplit : Search.withEnds '\r' '\n' (before ++ (name ++ ": ".toList ++ value) :: after) ++
      ['\r'] = Search.withEnds '\r' '\n' before ++ (name ++ ": ".toList ++ (value ++ rest)) := by
    simp [Search.withEnds, rest]
  have hfirst : firstFit (nameTests header) (name ++ ": ".toList ++ (value ++ rest)) =
      some (name ++ ": ".toList ++ (value ++ rest)) := by
    have hfits := Request.fits_noCase hlower (value ++ rest)
    cases hline : name ++ ": ".toList ++ (value ++ rest) with
    | nil => exact absurd hline (by simp)
    | cons char line =>
        rw [hline] at hfits
        rw [firstFit, nameTests, if_pos hfits]
  have htotal (items : Text) : (matchHere [.many Text.dot true] items).isSome := by
    have hrest : matchHere [] (items.dropWhile Text.dot) = some ⟨[], items.dropWhile Text.dot⟩ :=
      rfl
    rw [@matchHere_many Char Text.dot true [] _ _ hrest]
    rfl
  have hend : matchHere [] ((value ++ rest).dropWhile Text.dot) = some ⟨[], rest⟩ := by
    rw [List.dropWhile_append_of_pos hvalue, List.dropWhile_cons_of_neg (by decide)]
    rfl
  have hmany := @matchHere_many Char Text.dot true [] _ _ hend
  rw [List.takeWhile_append_of_pos hvalue, List.takeWhile_cons_of_neg (by decide),
    List.append_nil] at hmany
  have hsearch : search (headerPattern header)
      (ofMessage (ofLines (before ++ (name ++ ": ".toList ++ value) :: after) body)).mHeader =
        some ⟨[value], rest⟩ := by
    rw [mHeader_ofLines hlines hsome, hsplit]
    refine (search_ones htotal _).trans ?_
    change (firstFit (nameTests header) _).bind _ = _
    rw [firstFit_lines htests
      (fun test htest => ⟨hends _ (by decide) test htest, hends _ (by decide) test htest⟩) hbefore,
      hfirst, Option.bind_some]
    change matchHere _ (List.drop (nameTests header).length _) = _
    rw [hlength, List.drop_left, hmany]
    rfl
  rw [getHeader, HeaderRequest.bytes]
  dsimp only
  rw [hsearch]
  rfl

/-! ## The authorization of a request -/

/-- The value of the last field under the key, whatever its case, or nothing. -/
def lastValue (items : List AuthItem) (key : Text) : Text :=
  (((items.filterMap AuthItem.field?).map fun field =>
    (Text.toLower field.1, field.2)).reverse.lookup key).getD []

/-- What the fields say; the scheme belongs to the key of the user name. -/
def authOf (items : List AuthItem) : HTTPAuth where
  username := lastValue items "digest username".toList
  nonce := lastValue items "nonce".toList
  response := lastValue items "response".toList
  uri := lastValue items "uri".toList

theorem getAuthorization_eq {request : HTTPRequest} {item : AuthItem} {items : List AuthItem}
    (hwf : ∀ other ∈ item :: items, other.WellFormed)
    (hheader : request.getHeader "authorization".toList = authLine item items) :
    request.getAuthorization = authOf (item :: items) := by
  have hfield (key : Text) :
      ((getAuthFields (request.getHeader "authorization".toList)).lookup key).getD [] =
        lastValue (item :: items) key := by
    rw [hheader, getAuthFields_authLine hwf, TextMap.lookup_addAll, AList.lookup_empty,
      Option.or_none, lastValue]
  rw [getAuthorization]
  dsimp only
  rw [hfield, hfield, hfield, hfield, authOf]

/--
The authorization of a request is read from the first line in which the name of
the header stands, field by field.
-/
theorem getAuthorization_bytes (request : HeaderRequest "authorization".toList)
    {item : AuthItem} {items : List AuthItem} (hwf : ∀ other ∈ item :: items, other.WellFormed)
    (hvalue : request.value = authLine item items) :
    (ofMessage request.bytes).getAuthorization = authOf (item :: items) := by
  have hheader : IsLine "authorization".toList := by decide
  exact getAuthorization_eq hwf ((getHeader_bytes hheader request).trans hvalue)

def exampleItems : List AuthItem :=
  [.quoted true "nonce".toList "4a=b".toList, .unquoted true "qop".toList "auth".toList,
    .quoted false "Response".toList "6629".toList, .quoted true "nonce".toList "7c".toList]

/-- A request of the user `bob` that has a body and names two nonces. -/
def exampleRequest : HeaderRequest "authorization".toList where
  before := ["GET / HTTP/1.1".toList]
  name := "AUTHORIZATION".toList
  value := authLine (.quoted false "Digest username".toList "bob".toList) exampleItems
  after := ["Host: here".toList]
  body := "data".toList
  name_eq := by decide
  isLine := by decide
  first := by decide

theorem getAuthorization_bytes_bob :
    (ofMessage exampleRequest.bytes).getAuthorization =
      ⟨"bob".toList, "7c".toList, "6629".toList, []⟩ :=
  (getAuthorization_bytes exampleRequest (by decide) rfl).trans (by decide)

/-! ## Cookies -/

def cookieTests (name : Text) : List (Char → Bool) :=
  (name ++ ['=']).map fun letter char => decide (char = letter)

/-- The characters of the value of a cookie. -/
def isCookieChar (char : Char) : Bool :=
  isSpaceOrAlphanumeric char || char = '.'

/-- What stands in front of the cookie, if anything, ends with a space and has not its name. -/
def NotCookie (name front : Text) : Prop :=
  front = [] ∨ ∃ others, front = others ++ [' '] ∧ firstFit (cookieTests name) others = none

/-- A cookie is read from the first place in which its name stands. -/
theorem getCookie_eq {request : HTTPRequest} {name value front back : Text}
    (hheader : request.getHeader "cookie".toList = front ++ (name ++ ['='] ++ (value ++ back)))
    (hname : ' ' ∉ name) (hfront : NotCookie name front)
    (hvalue : ∀ char ∈ value, isCookieChar char = true)
    (hback : ∀ char ∈ back.head?, isCookieChar char = false) :
    request.getCookie name = value := by
  have hnil : request.getHeader "cookie".toList ≠ [] := by
    rw [hheader]
    simp
  have htests : cookieTests name ≠ [] := by simp [cookieTests]
  have hspace : ∀ test ∈ cookieTests name, test ' ' = false := by
    intro test htest
    obtain ⟨letter, hletter, rfl⟩ := List.mem_map.mp htest
    refine decide_eq_false fun hsame => ?_
    rcases List.mem_append.mp (hsame ▸ hletter) with hmem | hmem
    · exact hname hmem
    · exact absurd (List.mem_singleton.mp hmem) (by decide)
  have hfirst : firstFit (cookieTests name) (front ++ (name ++ ['='] ++ (value ++ back))) =
      some (name ++ ['='] ++ (value ++ back)) := by
    have hhere : firstFit (cookieTests name) (name ++ ['='] ++ (value ++ back)) =
        some (name ++ ['='] ++ (value ++ back)) := by
      have hfits := fits_self (name ++ ['=']) (value ++ back)
      cases hline : name ++ ['='] ++ (value ++ back) with
      | nil => exact absurd hline (by simp)
      | cons char line =>
          rw [hline] at hfits
          exact if_pos hfits
    rcases hfront with rfl | ⟨others, rfl, hothers⟩
    · exact hhere
    · rw [List.append_assoc, List.singleton_append, firstFit_behind htests hspace hothers, hhere]
  have hrest (items : Text) : ∃ rest, matchHere [.optional (· = ';')] items = some ⟨[], rest⟩ :=
    ⟨_, longestFirst_eq_some rfl⟩
  have htotal (items : Text) :
      (matchHere [.many isCookieChar true, .optional (· = ';')] items).isSome := by
    obtain ⟨rest, hmatch⟩ := hrest (items.dropWhile isCookieChar)
    rw [@matchHere_many Char isCookieChar true _ _ _ hmatch]
    rfl
  have htake : (value ++ back).takeWhile isCookieChar = value := by
    rw [List.takeWhile_append_of_pos hvalue]
    cases back with
    | nil => exact List.append_nil _
    | cons char back =>
        have hne : ¬ isCookieChar char = true := by
          rw [hback char rfl]
          exact Bool.false_ne_true
        rw [List.takeWhile_cons_of_neg hne, List.append_nil]
  have hlength : (cookieTests name).length = (name ++ ['=']).length := List.length_map _
  obtain ⟨rest, hmatch⟩ := hrest ((value ++ back).dropWhile isCookieChar)
  have hmany := @matchHere_many Char isCookieChar true _ _ _ hmatch
  rw [htake] at hmany
  have hpattern : cookiePattern name =
      (cookieTests name).map .one ++ [.many isCookieChar true, .optional (· = ';')] := by
    rw [cookieTests, List.map_map]
    rfl
  rw [getCookie, if_neg hnil, hheader, hpattern, search_ones htotal, hfirst, Option.bind_some, hlength,
    List.drop_left, hmany]
  rfl

end HTTPRequest

end DumaisLib.WebServer
