import DumaisLib.JSON.DistinctKeys
import DumaisLib.JSON.ReadTrees

/-!
# What printed strings mean

The reader replaces five of the escapes and takes the others as they are written;
the printer then escapes their backslashes.  A string that is read and printed
means the same exactly when it has no other escapes than the five.
-/

namespace DumaisLib.JSON

open Machine DumaisLib.JSON.Parser Rfc8259

/-! ## Letters -/

/-- The escapes that the reader replaces. -/
def isReplaced : Escape → Bool
  | .quote => true
  | .backslash => true
  | .slash => false
  | .backspace => false
  | .formFeed => false
  | .lineFeed => true
  | .carriageReturn => true
  | .tab => true

/-- Plain characters and the escapes that the reader replaces. -/
def isKnown : Letter → Bool
  | .plain _ _ => true
  | .short escape => isReplaced escape
  | .unicode _ _ _ _ => false

def digitLetter (digit : HexDigit) : Letter :=
  .plain digit.val (isPlain_digit digit)

/-- The letters that are printed for a letter that was read. -/
def reprinted : Letter → List Letter
  | .plain char isPlain => [.plain char isPlain]
  | .short .slash => [.short .backslash, .plain '/' (by decide)]
  | .short .backspace => [.short .backslash, .plain 'b' (by decide)]
  | .short .formFeed => [.short .backslash, .plain 'f' (by decide)]
  | .short .quote => [.short .quote]
  | .short .backslash => [.short .backslash]
  | .short .lineFeed => [.short .lineFeed]
  | .short .carriageReturn => [.short .carriageReturn]
  | .short .tab => [.short .tab]
  | .unicode first second third fourth =>
      [.short .backslash, .plain 'u' (by decide), digitLetter first, digitLetter second,
        digitLetter third, digitLetter fourth]

theorem reprinted_known {letter : Letter} (hknown : isKnown letter = true) :
    reprinted letter = [letter] := by
  cases letter with
  | plain char isPlain => rfl
  | short escape => cases escape <;> first | rfl | cases hknown
  | unicode first second third fourth => cases hknown

theorem unEscapeString_cons {char : Char} (hne : char ≠ '\\') (st : Text) :
    Value.unEscapeString (char :: st) = char :: Value.unEscapeString st := by
  cases st with
  | nil => rfl
  | cons char2 st => rw [Value.unEscapeString, if_neg hne]

theorem escapeChar_plain {char : Char} (hplain : IsPlain char) : Value.escapeChar char = [char] := by
  obtain ⟨hlow, hquote, hslash⟩ := hplain
  have hcontrol (control : Char) (hless : control.toNat < 32) : char ≠ control := by
    rintro rfl
    omega
  rw [Value.escapeChar, if_neg hquote, if_neg (hcontrol _ (by decide)),
    if_neg (hcontrol _ (by decide)), if_neg (hcontrol _ (by decide)), if_neg hslash]

/-- A plain character is read and printed as it is. -/
theorem printed_plain {char : Char} (hplain : IsPlain char) (st : Text) :
    Value.escapeString (Value.unEscapeString (char :: st)) =
      char :: Value.escapeString (Value.unEscapeString st) := by
  rw [unEscapeString_cons hplain.2.2, escapeString_cons, escapeChar_plain hplain,
    List.singleton_append]

/-- A backslash that no known letter follows is kept and then escaped. -/
theorem printed_backslash {char : Char} (hunknown : Value.unEscapeChar char = none) (st : Text) :
    Value.escapeString (Value.unEscapeString ('\\' :: char :: st)) =
      '\\' :: '\\' :: Value.escapeString (Value.unEscapeString (char :: st)) := by
  rw [Value.unEscapeString, if_pos rfl, hunknown]
  rfl

theorem printed_letter (letter : Letter) (st : Text) :
    Value.escapeString (Value.unEscapeString (letter.text ++ st)) =
      body (reprinted letter) ++ Value.escapeString (Value.unEscapeString st) := by
  cases letter with
  | plain char isPlain => exact printed_plain isPlain st
  | short escape =>
      cases escape with
      | quote => rfl
      | backslash => rfl
      | slash => exact (printed_backslash rfl st).trans (by rw [printed_plain (by decide)]; rfl)
      | backspace => exact (printed_backslash rfl st).trans (by rw [printed_plain (by decide)]; rfl)
      | formFeed => exact (printed_backslash rfl st).trans (by rw [printed_plain (by decide)]; rfl)
      | lineFeed => rfl
      | carriageReturn => rfl
      | tab => rfl
  | unicode first second third fourth =>
      rw [Letter.text, List.cons_append, List.cons_append, printed_backslash rfl,
        printed_plain (by decide)]
      simp only [List.cons_append, List.nil_append, printed_plain (isPlain_digit _)]
      rfl

/-- What is printed for a string that was read. -/
theorem printed_body (letters : List Letter) :
    Value.escapeString (Value.unEscapeString (body letters)) = body (letters.flatMap reprinted) := by
  induction letters with
  | nil => rfl
  | cons letter letters ih =>
      rw [body_cons, printed_letter, ih, List.flatMap_cons, body, body, body, List.flatMap_append]

/-! ## Meanings -/

/-- A letter that is not known becomes two or more. -/
theorem units_reprinted (letter : Letter) :
    letter.units.length ≤ (meaning (reprinted letter)).length ∧
      ((meaning (reprinted letter)).length ≤ letter.units.length → isKnown letter = true) := by
  cases hknown : isKnown letter with
  | true =>
      rw [reprinted_known hknown, meaning, List.flatMap_singleton]
      exact ⟨le_refl _, fun _ => rfl⟩
  | false =>
      have hmore : letter.units.length < (meaning (reprinted letter)).length := by
        cases letter with
        | plain char isPlain => cases hknown
        | short escape => cases escape <;> first | decide | cases hknown
        | unicode first second third fourth =>
            simp only [meaning, reprinted, Letter.units, List.flatMap_cons, List.length_append,
              List.length_singleton]
            have hletter : (charUnits 'u').length = 1 := by decide
            omega
      exact ⟨hmore.le, fun hle => absurd hle (Nat.not_le_of_lt hmore)⟩

theorem meaning_reprinted_iff (letters : List Letter) :
    meaning (letters.flatMap reprinted) = meaning letters ↔
      ∀ letter ∈ letters, isKnown letter = true := by
  constructor
  · intro hmeaning
    have hlength := congrArg List.length hmeaning
    rw [meaning, meaning, List.flatMap_assoc, List.length_flatMap, List.length_flatMap] at hlength
    exact (sums_tight fun letter _ => units_reprinted letter).2 hlength.le
  · intro hknown
    have hsame : letters.flatMap reprinted = letters := by
      rw [List.flatMap_congr fun letter hmem => reprinted_known (hknown letter hmem),
        List.flatMap_singleton']
    rw [hsame]

/-! ## Places in a document -/

/-- No object has a member with an empty name. -/
inductive Named : Json → Prop where
  | object {members : List (List Letter × Json)} : (∀ member ∈ members, member.1 ≠ []) →
      (∀ member ∈ members, Named member.2) → Named (.object members)
  | array {elements : List Json} : (∀ element ∈ elements, Named element) → Named (.array elements)
  | string {letters} : Named (.string letters)
  | number {text isNumber} : Named (.number text isNumber)
  | bool {value} : Named (.bool value)
  | null : Named .null

/-- The member or element of a document that a lookup is about. -/
def childWritten : Json → Index → Option Json
  | .object members, .key key =>
      (members.map fun member => (body member.1, member.2)).lookup key
  | .array elements, .index i => elements[i]?
  | _, _ => none

/-- The value of a document that a chain of lookups is about. -/
def writtenBelow (path : Path) (json : Json) : Option Json :=
  path.foldlM childWritten json

/-- The values in front of it, in the same object or array. -/
def valuesBefore : Json → Index → List Json
  | .object members, .key key =>
      (members.takeWhile fun member => body member.1 ≠ key).map Prod.snd
  | .array elements, .index i => elements.take i
  | _, _ => []

/-- No value in front of the one at the path, on any level, is left before its end. -/
def Reached : Path → Json → Prop
  | [], _ => True
  | index :: path, json =>
      (∀ value ∈ valuesBefore json index, readWhole value = true) ∧
        ∀ child, childWritten json index = some child → Reached path child

theorem writtenBelow_cons (index : Index) (path : Path) (json : Json) :
    writtenBelow (index :: path) json = (childWritten json index).bind (writtenBelow path) :=
  List.foldlM_cons

theorem some_made (json : Json) (node : Node) :
    some (made json) = some node ↔ ∃ child, some json = some child ∧ node = made child := by
  constructor
  · exact fun hnode => ⟨json, rfl, (Option.some.inj hnode).symm⟩
  · rintro ⟨child, hchild, rfl⟩
    rw [Option.some.inj hchild]

theorem lookup_madeMembers {members : List (List Letter × Json)}
    (hnames : ∀ member ∈ members, member.1 ≠ []) (key : Text) (node : Node) :
    (madeMembers members).lookup key = some node ↔
      (∀ value ∈ valuesBefore (.object members) (.key key), readWhole value = true) ∧
        ∃ child, childWritten (.object members) (.key key) = some child ∧ node = made child := by
  induction members with
  | nil => simp [madeMembers, childWritten]
  | cons member members ih =>
      obtain ⟨name, value⟩ := member
      obtain ⟨hname, hrest⟩ := List.forall_mem_cons.mp hnames
      rw [madeMembers, if_neg (by rwa [List.isEmpty_iff])]
      by_cases hkey : body name = key
      · subst hkey
        rw [List.lookup_cons_self, some_made]
        simp [childWritten, valuesBefore]
      · have hne : (key == body name) = false := beq_eq_false_iff_ne.mpr (Ne.symm hkey)
        have hbefore : valuesBefore (.object ((name, value) :: members)) (.key key) =
            value :: valuesBefore (.object members) (.key key) := by
          simp [valuesBefore, hkey]
        have hchild : childWritten (.object ((name, value) :: members)) (.key key) =
            childWritten (.object members) (.key key) := by
          simp [childWritten, List.lookup_cons, hne]
        rw [List.lookup_cons, hne, hbefore, hchild, List.forall_mem_cons]
        cases hwhole : readWhole value with
        | true =>
            dsimp only
            rw [if_pos rfl, ih hrest]
            simp
        | false => simp

theorem getElem_madeElements (elements : List Json) (i : Nat) (node : Node) :
    (madeElements elements)[i]? = some node ↔
      (∀ value ∈ elements.take i, readWhole value = true) ∧
        ∃ child, elements[i]? = some child ∧ node = made child := by
  induction elements generalizing i with
  | nil => simp [madeElements]
  | cons element elements ih =>
      cases i with
      | zero =>
          rw [madeElements, List.getElem?_cons_zero, some_made]
          simp
      | succ i =>
          rw [madeElements, List.getElem?_cons_succ, List.take_succ_cons, List.forall_mem_cons,
            List.getElem?_cons_succ]
          cases hwhole : readWhole element with
          | true =>
              rw [if_pos rfl, ih]
              simp
          | false => simp

/-- A child is found in the tree when it is reached. -/
theorem child_made {json : Json} (hnamed : Named json) (index : Index) (node : Node) :
    (made json).child? index = some node ↔
      (∀ value ∈ valuesBefore json index, readWhole value = true) ∧
        ∃ child, childWritten json index = some child ∧ node = made child := by
  cases hnamed with
  | object hnames _ =>
      cases index with
      | key key => exact lookup_madeMembers hnames key node
      | index i => simp [made, Node.child?, childWritten]
  | array _ =>
      cases index with
      | key key => simp [made, Node.child?, childWritten]
      | index i => exact getElem_madeElements _ i node
  | string => simp [made, Node.child?, childWritten]
  | number => simp [made, madeNaked, Node.child?, childWritten]
  | bool => simp [made, madeNaked, Node.child?, childWritten]
  | null => simp [made, madeNaked, Node.child?, childWritten]

theorem Named.child {json child : Json} (hnamed : Named json) {index : Index}
    (hchild : childWritten json index = some child) : Named child := by
  cases hnamed with
  | object _ hvalues =>
      cases index with
      | key key =>
          obtain ⟨member, hmember, heq⟩ := List.mem_map.mp (member_of_lookup hchild)
          exact (Prod.mk.inj heq).2 ▸ hvalues member hmember
      | index i => cases hchild
  | array hvalues =>
      cases index with
      | key key => cases hchild
      | index i => exact hvalues child (List.mem_of_getElem? hchild)
  | string => cases hchild
  | number => cases hchild
  | bool => cases hchild
  | null => cases hchild

/-- A value is found in the tree when it is reached. -/
theorem below_made {json : Json} (hnamed : Named json) (path : Path) (node : Node) :
    (made json).below? path = some node ↔
      Reached path json ∧ ∃ found, writtenBelow path json = some found ∧ node = made found := by
  induction path generalizing json with
  | nil =>
      have hself : (made json).below? [] = some (made json) := rfl
      have hwritten : writtenBelow [] json = some json := rfl
      rw [hself, hwritten, some_made]
      simp [Reached]
  | cons index path ih =>
      rw [below_cons, writtenBelow_cons, Option.bind_eq_some_iff]
      constructor
      · rintro ⟨child, hchild, hnode⟩
        obtain ⟨hbefore, value, hvalue, rfl⟩ := (child_made hnamed index child).mp hchild
        obtain ⟨hreached, found, hfound, rfl⟩ := (ih (hnamed.child hvalue)).mp hnode
        refine ⟨⟨hbefore, fun other hother => ?_⟩, found, by rwa [hvalue], rfl⟩
        obtain rfl := Option.some.inj (hvalue.symm.trans hother)
        exact hreached
      · rintro ⟨⟨hbefore, hreached⟩, found, hfound, rfl⟩
        obtain ⟨value, hvalue, hfound⟩ := Option.bind_eq_some_iff.mp hfound
        exact ⟨made value, (child_made hnamed index _).mpr ⟨hbefore, value, hvalue, rfl⟩,
          (ih (hnamed.child hvalue)).mpr ⟨hreached value hvalue, found, hfound, rfl⟩⟩

/-! ## Parts of the printed text -/

/-- The node at the path is printed as `printed`, a part of the text of the document. -/
def WritesAt (formatted : Bool) (mRoot : Node) (path : Path) (printed : Text) : Prop :=
  ∃ found level before after, mRoot.below? path = some found ∧ found.stringify level = printed ∧
    stringify formatted mRoot = before ++ (printed ++ after)

theorem stringify_member (level : Int) {key : Text} {child : Node} {mMembers : List (Text × Node)}
    (hmember : (key, child) ∈ mMembers) :
    ∃ before after, stringifyMembers level mMembers =
      before ++ (child.stringify (below level) ++ after) := by
  induction mMembers with
  | nil => cases hmember
  | cons member mMembers ih =>
      obtain ⟨name, node⟩ := member
      rw [stringifyMembers]
      rcases List.mem_cons.mp hmember with heq | hlater
      · obtain ⟨rfl, rfl⟩ := Prod.mk.inj heq
        refine ⟨tabs level ++ '"' :: (key ++ "\" : ".toList), (if mMembers.isEmpty then [] else [',']) ++
          (lineEnd level ++ stringifyMembers level mMembers), ?_⟩
        simp only [List.append_assoc, List.cons_append]
      · obtain ⟨before, after, hsplit⟩ := ih hlater
        rw [hsplit]
        refine ⟨tabs level ++ '"' :: (name ++ ("\" : ".toList ++ (node.stringify (below level) ++
          ((if mMembers.isEmpty then [] else [',']) ++ (lineEnd level ++ before))))), after, ?_⟩
        simp only [List.append_assoc, List.cons_append]

theorem stringify_element (level : Int) {child : Node} {mMembers : List Node}
    (hchild : child ∈ mMembers) :
    ∃ before after, stringifyElements level mMembers =
      before ++ (child.stringify (below level) ++ after) := by
  induction mMembers with
  | nil => cases hchild
  | cons node mMembers ih =>
      rw [stringifyElements]
      rcases List.mem_cons.mp hchild with rfl | hlater
      · exact ⟨tabs level, _, rfl⟩
      · obtain ⟨before, after, hsplit⟩ := ih hlater
        rw [hsplit]
        refine ⟨tabs level ++ (node.stringify (below level) ++
          ((if mMembers.isEmpty then [] else [',']) ++ (lineEnd level ++ before))), after, ?_⟩
        simp only [List.append_assoc]

theorem stringify_child (level : Int) {node child : Node} {index : Index}
    (hchild : node.child? index = some child) :
    ∃ before after, node.stringify level = before ++ (child.stringify (below level) ++ after) := by
  cases node with
  | Object mMembers =>
      cases index with
      | key key =>
          obtain ⟨before, after, hsplit⟩ := stringify_member level (member_of_lookup hchild)
          rw [Node.stringify, hsplit]
          refine ⟨'\x7b' :: (lineEnd level ++ before), after ++ (tabs (level - 1) ++ ['\x7d']), ?_⟩
          simp only [List.append_assoc, List.cons_append]
      | index i => cases hchild
  | List mMembers =>
      cases index with
      | key key => cases hchild
      | index i =>
          obtain ⟨before, after, hsplit⟩ := stringify_element level (List.mem_of_getElem? hchild)
          rw [Node.stringify, hsplit]
          refine ⟨'[' :: (lineEnd level ++ before), after ++ (tabs (level - 1) ++ [']']), ?_⟩
          simp only [List.append_assoc, List.cons_append]
  | Value mValue mSubType => cases hchild

/-- The text of a node contains that of every node below it. -/
theorem stringify_below (level : Int) {node found : Node} {path : Path}
    (hfound : node.below? path = some found) :
    ∃ level' before after, node.stringify level = before ++ (found.stringify level' ++ after) := by
  induction path generalizing node level with
  | nil =>
      obtain rfl := Option.some.inj hfound
      exact ⟨level, [], [], (List.append_nil _).symm⟩
  | cons index path ih =>
      rw [below_cons] at hfound
      obtain ⟨child, hchild, hrest⟩ := Option.bind_eq_some_iff.mp hfound
      obtain ⟨before, after, houter⟩ := stringify_child level hchild
      obtain ⟨level', before', after', hinner⟩ := ih (below level) hrest
      refine ⟨level', before ++ before', after' ++ after, ?_⟩
      rw [houter, hinner]
      simp only [List.append_assoc]

/-! ## Strings of a document -/

/--
After parsing, the value at the path is printed, in whatever order the members
are, as a literal that means the same as the literal that was read.
-/
def KeepsMeaning (formatted : Bool) (text : Text) (path : Path) (letters : List Letter) : Prop :=
  ∃ mRoot letters', parse text = .finished mRoot ∧
    (∀ printed, Reordered mRoot printed → WritesAt formatted printed path (literal letters')) ∧
    meaning letters' = meaning letters

/-- The parser gets to the value at the path. -/
structure IsRead (json : Json) (path : Path) : Prop where
  root : ∃ members, json = .object members
  fits : Fits json
  reached : Reached path json

theorem stringify_made_string (level : Int) (letters : List Letter) :
    (made (.string letters)).stringify level = literal (letters.flatMap reprinted) := by
  have hprinted := printed_body letters
  rw [made, Value.textOf, if_neg (by decide), Node.stringify, Value.stringify, hprinted, literal]

/-- What is no object is read as an empty object. -/
theorem parse_not_object {json : Json} {text : Text} (hwritten : json.WrittenAs text)
    (hroot : ¬ ∃ members, json = .object members) : parse text = .finished (.Object []) := by
  have hhead : ∃ char more, json.text = char :: more ∧ char ≠ '\x7b' := by
    cases json with
    | object members => exact absurd ⟨members, rfl⟩ hroot
    | array elements => exact ⟨_, _, text_array elements, by decide⟩
    | string letters => exact ⟨_, _, text_string letters, by decide⟩
    | number text isNumber =>
        obtain ⟨char, more, htext, hchar⟩ := isNumber.head
        refine ⟨char, more, (text_number text isNumber).trans htext, ?_⟩
        rintro rfl
        rcases hchar with hdigit | hminus
        · cases hdigit
        · cases hminus
    | bool value => cases value <;> exact ⟨_, _, rfl, by decide⟩
    | null => exact ⟨_, _, rfl, by decide⟩
  obtain ⟨char, more, htext, hne⟩ := hhead
  rw [parse, removeSpaces_writtenAs hwritten, htext]
  exact if_pos hne

theorem below_empty {path : Path} {found : Node} (hfound : (Node.Object []).below? path = some found) :
    found = .Object [] := by
  cases path with
  | nil => exact (Option.some.inj hfound).symm
  | cons index path =>
      rw [below_cons] at hfound
      obtain ⟨child, hchild, -⟩ := Option.bind_eq_some_iff.mp hfound
      cases index <;> cases hchild

theorem known_of_keepsMeaning {formatted : Bool} {json : Json} {text : Text}
    (hwritten : json.WrittenAs text) (hdistinct : DistinctNames json) (hnamed : Named json)
    {path : Path} {letters : List Letter} (hstring : writtenBelow path json = some (.string letters))
    (hkeeps : KeepsMeaning formatted text path letters) :
    IsRead json path ∧ ∀ letter ∈ letters, isKnown letter = true := by
  obtain ⟨mRoot, letters', hparse, hwrites, hmeaning⟩ := hkeeps
  obtain ⟨found, level, before, after, hfound, hprinted, -⟩ := hwrites mRoot (.refl mRoot)
  by_cases hroot : ∃ members, json = .object members
  · obtain ⟨members, rfl⟩ := hroot
    obtain ⟨rfl, hfits⟩ := (parse_object hwritten hdistinct).mp hparse
    obtain ⟨hreached, value, hvalue, rfl⟩ := (below_made hnamed path found).mp hfound
    obtain rfl := Option.some.inj (hstring.symm.trans hvalue)
    rw [stringify_made_string] at hprinted
    have hsame : literal (letters.flatMap reprinted) ++ [] = literal letters' ++ [] := by
      rw [hprinted]
    rw [← (literal_inj hsame).1] at hmeaning
    exact ⟨⟨⟨members, rfl⟩, hfits, hreached⟩, (meaning_reprinted_iff letters).mp hmeaning⟩
  · rw [parse_not_object hwritten hroot] at hparse
    obtain rfl := Outcome.finished.inj hparse
    rw [below_empty hfound] at hprinted
    exact absurd (List.cons.inj hprinted).1 (by decide)

theorem keepsMeaning_of_known (formatted : Bool) {json : Json} {text : Text}
    (hwritten : json.WrittenAs text) (hdistinct : DistinctNames json) (hnamed : Named json)
    {path : Path} {letters : List Letter} (hstring : writtenBelow path json = some (.string letters))
    (hread : IsRead json path) (hknown : ∀ letter ∈ letters, isKnown letter = true) :
    KeepsMeaning formatted text path letters := by
  obtain ⟨⟨members, rfl⟩, hfits, hreached⟩ := hread
  have hfound : (made (.object members)).below? path = some (made (.string letters)) :=
    (below_made hnamed path _).mpr ⟨hreached, _, hstring, rfl⟩
  have hparse := (parse_object hwritten hdistinct).mpr ⟨rfl, hfits⟩
  refine ⟨_, letters.flatMap reprinted, hparse, fun printed hreordered => ?_,
    (meaning_reprinted_iff letters).mpr hknown⟩
  obtain ⟨found, hfound', hsame⟩ := hreordered.below_path (parse_distinctKeys hparse) hfound
  obtain rfl : found = made (.string letters) := by
    rw [made] at hsame ⊢
    cases hsame
    rfl
  obtain ⟨level, before, after, hsplit⟩ := stringify_below (if formatted then 1 else -1) hfound'
  have hprinted := stringify_made_string level letters
  refine ⟨_, level, before, after, hfound', hprinted, ?_⟩
  rw [← hprinted]
  exact hsplit

/--
A string of a valid document is read, and what is then printed for it, in whatever
order the members are, means the same, exactly when the parser gets to it and its
escapes are all among those of the quote, the backslash, the line feed, the carriage
return and the tab.
-/
theorem string_keepsMeaning_iff (formatted : Bool) {json : Json} {text : Text}
    (hwritten : json.WrittenAs text) (hdistinct : DistinctNames json) (hnamed : Named json)
    {path : Path} {letters : List Letter} (hstring : writtenBelow path json = some (.string letters)) :
    KeepsMeaning formatted text path letters ↔
      IsRead json path ∧ ∀ letter ∈ letters, isKnown letter = true :=
  ⟨known_of_keepsMeaning hwritten hdistinct hnamed hstring, fun hcondition =>
    keepsMeaning_of_known formatted hwritten hdistinct hnamed hstring hcondition.1 hcondition.2⟩

/-- A document with one member, whose name is `a` and whose value is the string. -/
def stringDocument (letters : List Letter) : Json :=
  .object [([.plain 'a' (by decide)], .string letters)]

theorem distinctNames_stringDocument (letters : List Letter) :
    DistinctNames (stringDocument letters) := by
  refine .object (List.nodup_singleton _) fun member hmem => ?_
  rw [List.mem_singleton.mp hmem]
  exact .string

theorem named_stringDocument (letters : List Letter) : Named (stringDocument letters) := by
  refine .object (fun member hmem => ?_) fun member hmem => ?_
  · rw [List.mem_singleton.mp hmem]
    exact List.cons_ne_nil _ _
  · rw [List.mem_singleton.mp hmem]
    exact .string

theorem writtenAs_stringDocument (letters : List Letter) :
    (stringDocument letters).WrittenAs (stringDocument letters).text :=
  .cons blank_nil (.cons blank_nil (.cons blank_nil (.cons blank_nil (.cons blank_nil
    (.nil blank_nil)))))

theorem string_keepsMeaning_iff_feed :
    KeepsMeaning false "\x7b\"a\":\"\\n\"\x7d".toList [.key ['a']] [.short .lineFeed] ↔
      IsRead (stringDocument [.short .lineFeed]) [.key ['a']] ∧
        ∀ letter ∈ [Letter.short .lineFeed], isKnown letter = true := by
  have hwritten : (stringDocument [.short .lineFeed]).WrittenAs
      "\x7b\"a\":\"\\n\"\x7d".toList := writtenAs_stringDocument _
  have hstring : writtenBelow [.key ['a']] (stringDocument [.short .lineFeed]) =
      some (.string [.short .lineFeed]) := rfl
  exact string_keepsMeaning_iff false hwritten (distinctNames_stringDocument _)
    (named_stringDocument _) hstring

/-- An escaped slash is printed as a backslash and a slash. -/
theorem slash_not_keepsMeaning :
    (stringDocument [.short .slash]).WrittenAs "\x7b\"a\":\"\\/\"\x7d".toList ∧
      DistinctNames (stringDocument [.short .slash]) ∧ Named (stringDocument [.short .slash]) ∧
      writtenBelow [.key ['a']] (stringDocument [.short .slash]) = some (.string [.short .slash]) ∧
      (∃ mRoot, parse "\x7b\"a\":\"\\/\"\x7d".toList = .finished mRoot ∧
        stringify false mRoot = "\x7b\"a\" : \"\\\\/\"\x7d".toList) ∧
      ¬ KeepsMeaning false "\x7b\"a\":\"\\/\"\x7d".toList [.key ['a']] [.short .slash] := by
  have hwritten : (stringDocument [.short .slash]).WrittenAs "\x7b\"a\":\"\\/\"\x7d".toList :=
    writtenAs_stringDocument _
  have hdistinct := distinctNames_stringDocument [.short .slash]
  have hfits : Fits (stringDocument [.short .slash]) := .inr ⟨trivial, trivial, fun _ => trivial⟩
  have hparse := (parse_object hwritten hdistinct).mpr ⟨rfl, hfits⟩
  have hprinted : stringify false (.Object [(['a'], .Value ['\\', '/'] .String)]) =
      "\x7b\"a\" : \"\\\\/\"\x7d".toList := by rfl
  refine ⟨hwritten, hdistinct, named_stringDocument _, rfl, ⟨_, hparse, hprinted⟩, fun hkeeps => ?_⟩
  have hknown := known_of_keepsMeaning hwritten hdistinct (named_stringDocument _) rfl hkeeps
  exact absurd (hknown.2 _ List.mem_cons_self) (by decide)

end DumaisLib.JSON
