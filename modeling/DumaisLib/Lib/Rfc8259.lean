import DumaisLib.Lib.Text

/-!
# JSON texts

The grammar of RFC 8259.  A document is a tree that keeps names, strings and
numbers as they are written; its text is the sequence of its tokens with white
space around them.
-/

namespace Rfc8259

/-! ## Strings -/

/-- Characters that stand for themselves in a string. -/
def IsPlain (char : Char) : Prop :=
  32 ≤ char.toNat ∧ char ≠ '"' ∧ char ≠ '\\'

instance (char : Char) : Decidable (IsPlain char) :=
  inferInstanceAs (Decidable (32 ≤ char.toNat ∧ char ≠ '"' ∧ char ≠ '\\'))

/-- The escapes of one letter. -/
inductive Escape where
  | quote
  | backslash
  | slash
  | backspace
  | formFeed
  | lineFeed
  | carriageReturn
  | tab
  deriving DecidableEq

/-- The letter behind the backslash. -/
def Escape.letter : Escape → Char
  | .quote => '"'
  | .backslash => '\\'
  | .slash => '/'
  | .backspace => 'b'
  | .formFeed => 'f'
  | .lineFeed => 'n'
  | .carriageReturn => 'r'
  | .tab => 't'

/-- The character that is meant. -/
def Escape.unit : Escape → Nat
  | .quote => 0x22
  | .backslash => 0x5C
  | .slash => 0x2F
  | .backspace => 0x08
  | .formFeed => 0x0C
  | .lineFeed => 0x0A
  | .carriageReturn => 0x0D
  | .tab => 0x09

/-- The value of a hexadecimal digit. -/
def hexValue (char : Char) : Option Nat :=
  if '0' ≤ char ∧ char ≤ '9' then some (char.toNat - 48)
  else if 'a' ≤ char ∧ char ≤ 'f' then some (char.toNat - 87)
  else if 'A' ≤ char ∧ char ≤ 'F' then some (char.toNat - 55)
  else none

abbrev HexDigit := { char : Char // (hexValue char).isSome }

theorem isPlain_digit (digit : HexDigit) : IsPlain digit.val := by
  have hne (char : Char) (hnone : hexValue char = none) : digit.val ≠ char := by
    intro heq
    have hsome := digit.property
    rw [heq, hnone] at hsome
    cases hsome
  refine ⟨?_, hne _ (by decide), hne _ (by decide)⟩
  have hsome := digit.property
  unfold hexValue at hsome
  split at hsome
  · rename_i hchar
    exact le_trans (by decide) hchar.1
  · split at hsome
    · rename_i hchar
      exact le_trans (by decide) hchar.1
    · split at hsome
      · rename_i hchar
        exact le_trans (by decide) hchar.1
      · cases hsome

def HexDigit.value (digit : HexDigit) : Nat :=
  (hexValue digit.val).get digit.property

/-- A character of a string, as it is written. -/
inductive Letter where
  | plain (char : Char) (isPlain : IsPlain char)
  | short (escape : Escape)
  | unicode (first second third fourth : HexDigit)

def Letter.text : Letter → Text
  | .plain char _ => [char]
  | .short escape => ['\\', escape.letter]
  | .unicode first second third fourth =>
      ['\\', 'u', first.val, second.val, third.val, fourth.val]

/-- The code units of a character in UTF-16. -/
def charUnits (char : Char) : List Nat :=
  if char.toNat < 0x10000 then [char.toNat]
  else [0xD800 + (char.toNat - 0x10000) / 0x400, 0xDC00 + (char.toNat - 0x10000) % 0x400]

/-- The code units that a character as written stands for. -/
def Letter.units : Letter → List Nat
  | .plain char _ => charUnits char
  | .short escape => [escape.unit]
  | .unicode first second third fourth =>
      [((first.value * 16 + second.value) * 16 + third.value) * 16 + fourth.value]

/-- What is written between the quotes. -/
def body (letters : List Letter) : Text :=
  letters.flatMap Letter.text

/-- A string with its quotes. -/
def literal (letters : List Letter) : Text :=
  '"' :: (body letters ++ ['"'])

/-- The string that is meant, by its code units. -/
def meaning (letters : List Letter) : List Nat :=
  letters.flatMap Letter.units

/-- The code units of a text. -/
def units (text : Text) : List Nat :=
  text.flatMap charUnits

/-! ## Numbers -/

def IsDigits (text : Text) : Prop :=
  text ≠ [] ∧ ∀ char ∈ text, char.isDigit = true

/-- `0`, or digits that do not begin with it. -/
def IsInt (text : Text) : Prop :=
  text = ['0'] ∨ (IsDigits text ∧ text.head? ≠ some '0')

def IsFrac (text : Text) : Prop :=
  text = [] ∨ ∃ digits, IsDigits digits ∧ text = '.' :: digits

/-- The sign of an exponent. -/
def IsSign (text : Text) : Prop :=
  text = [] ∨ text = ['+'] ∨ text = ['-']

def IsExp (text : Text) : Prop :=
  text = [] ∨ ∃ letter sign digits, (letter = 'e' ∨ letter = 'E') ∧ IsSign sign ∧
    IsDigits digits ∧ text = letter :: (sign ++ digits)

def IsNumber (text : Text) : Prop :=
  ∃ minus int frac exp, (minus = [] ∨ minus = ['-']) ∧ IsInt int ∧ IsFrac frac ∧ IsExp exp ∧
    text = minus ++ (int ++ (frac ++ exp))

/-! ## Documents -/

/-- A JSON value as it is written, but for its white space. -/
inductive Json where
  | object (members : List (List Letter × Json))
  | array (elements : List Json)
  | string (letters : List Letter)
  | number (text : Text) (isNumber : IsNumber text)
  | bool (value : Bool)
  | null

/-- Induction over documents, with a hypothesis for every child. -/
@[elab_as_elim]
theorem Json.children_induction {motive : Json → Prop}
    (object : ∀ members, (∀ member ∈ members, motive member.2) → motive (.object members))
    (array : ∀ elements, (∀ element ∈ elements, motive element) → motive (.array elements))
    (string : ∀ letters, motive (.string letters))
    (number : ∀ text isNumber, motive (.number text isNumber))
    (bool : ∀ value, motive (.bool value)) (null : motive .null) : ∀ json, motive json
  | .object members => object members fun member _ =>
      Json.children_induction object array string number bool null member.2
  | .array elements => array elements fun element _ =>
      Json.children_induction object array string number bool null element
  | .string letters => string letters
  | .number text isNumber => number text isNumber
  | .bool value => bool value
  | .null => null
termination_by json => sizeOf json
decreasing_by
  · rename_i hmember
    have hlt := List.sizeOf_lt_of_mem hmember
    obtain ⟨name, value⟩ := member
    simp at hlt ⊢
    omega
  · rename_i helement
    have hlt := List.sizeOf_lt_of_mem helement
    simp
    omega

/-- The comma in front of further items. -/
def comma {α : Type*} (items : List α) : List Text :=
  if items.isEmpty then [] else [[',']]

mutual

def Json.tokens : Json → List Text
  | .object members => ['\x7b'] :: (memberTokens members ++ [['\x7d']])
  | .array elements => ['['] :: (elementTokens elements ++ [[']']])
  | .string letters => [literal letters]
  | .number text _ => [text]
  | .bool value => [if value then "true".toList else "false".toList]
  | .null => ["null".toList]

def memberTokens : List (List Letter × Json) → List Text
  | [] => []
  | (name, value) :: members =>
      literal name :: [':'] :: (value.tokens ++ (comma members ++ memberTokens members))

def elementTokens : List Json → List Text
  | [] => []
  | element :: elements => element.tokens ++ (comma elements ++ elementTokens elements)

end

def isBlank (char : Char) : Bool :=
  char = ' ' || char = '\t' || char = '\n' || char = '\r'

def Blank (text : Text) : Prop :=
  ∀ char ∈ text, isBlank char = true

/-- The tokens with white space before, between and behind them. -/
inductive Spaced : List Text → Text → Prop where
  | nil {blank} : Blank blank → Spaced [] blank
  | cons {blank token tokens text} : Blank blank → Spaced tokens text →
      Spaced (token :: tokens) (blank ++ (token ++ text))

/-- The document is what a reader makes of the text. -/
def Json.WrittenAs (json : Json) (text : Text) : Prop :=
  Spaced json.tokens text

/-- The text without white space. -/
def Json.text (json : Json) : Text :=
  json.tokens.flatten

/-! ## White space -/

theorem blank_nil : Blank [] :=
  fun _ hmem => absurd hmem List.not_mem_nil

theorem Blank.append {text text' : Text} (hfirst : Blank text) (hsecond : Blank text') :
    Blank (text ++ text') := by
  intro char hmem
  rcases List.mem_append.mp hmem with hmem | hmem
  · exact hfirst char hmem
  · exact hsecond char hmem

theorem Spaced.blank {blank : Text} {tokens : List Text} {text : Text} (hblank : Blank blank)
    (hspaced : Spaced tokens text) : Spaced tokens (blank ++ text) := by
  cases hspaced with
  | nil hend => exact .nil (hblank.append hend)
  | cons hbefore hrest =>
      rw [← List.append_assoc]
      exact .cons (hblank.append hbefore) hrest

theorem Spaced.append {tokens tokens' : List Text} {text text' : Text}
    (hfirst : Spaced tokens text) (hsecond : Spaced tokens' text') :
    Spaced (tokens ++ tokens') (text ++ text') := by
  induction hfirst with
  | nil hblank => exact hsecond.blank hblank
  | cons hblank hrest ih =>
      rw [List.append_assoc, List.append_assoc]
      exact .cons hblank ih

theorem spaced_token (token : Text) : Spaced [token] token := by
  have hspaced : Spaced [token] ([] ++ (token ++ [])) := .cons blank_nil (.nil blank_nil)
  simpa using hspaced

/-- The characters that are no white space. -/
def inked (text : Text) : Nat :=
  text.countP fun char => !isBlank char

@[simp] theorem inked_append (text text' : Text) : inked (text ++ text') = inked text + inked text' :=
  List.countP_append

theorem inked_blank {text : Text} (hblank : Blank text) : inked text = 0 :=
  List.countP_eq_zero.mpr fun char hmem => by simp [hblank char hmem]

theorem Spaced.inked {tokens : List Text} {text : Text} (hspaced : Spaced tokens text) :
    Rfc8259.inked text = Rfc8259.inked tokens.flatten := by
  induction hspaced with
  | nil hblank => exact inked_blank hblank
  | cons hblank hrest ih =>
      rw [inked_append, inked_append, inked_blank hblank, ih, List.flatten_cons, inked_append,
        Nat.zero_add]

/-! ## Texts -/

/-- The texts with commas between them. -/
def joined : List Text → Text
  | [] => []
  | text :: texts => text ++ ((if texts.isEmpty then [] else [',']) ++ joined texts)

def memberText (member : List Letter × Json) : Text :=
  literal member.1 ++ ':' :: member.2.text

theorem flatten_comma {α β : Type*} (items : List α) (mapped : α → β) :
    (comma items).flatten = if (items.map mapped).isEmpty then [] else [','] := by
  cases items with
  | nil => rfl
  | cons item items => rfl

theorem flatten_memberTokens (members : List (List Letter × Json)) :
    (memberTokens members).flatten = joined (members.map memberText) := by
  induction members with
  | nil => rfl
  | cons member members ih =>
      simp only [memberTokens, List.map_cons, joined, List.flatten_cons, List.flatten_append, ih,
        flatten_comma members memberText, memberText, Json.text, List.append_assoc,
        List.cons_append, List.nil_append]

theorem flatten_elementTokens (elements : List Json) :
    (elementTokens elements).flatten = joined (elements.map Json.text) := by
  induction elements with
  | nil => rfl
  | cons element elements ih =>
      simp only [elementTokens, List.map_cons, joined, List.flatten_append, ih,
        flatten_comma elements Json.text, Json.text]

theorem text_object (members : List (List Letter × Json)) :
    (Json.object members).text = '{' :: (joined (members.map memberText) ++ ['}']) := by
  simp only [Json.text, Json.tokens, List.flatten_cons, List.flatten_append,
    flatten_memberTokens, List.flatten_nil, List.singleton_append, List.append_nil]

theorem text_array (elements : List Json) :
    (Json.array elements).text = '[' :: (joined (elements.map Json.text) ++ [']']) := by
  simp only [Json.text, Json.tokens, List.flatten_cons, List.flatten_append,
    flatten_elementTokens, List.flatten_nil, List.singleton_append, List.append_nil]

theorem text_string (letters : List Letter) : (Json.string letters).text = literal letters :=
  List.flatten_singleton

theorem text_number (text : Text) (isNumber : IsNumber text) :
    (Json.number text isNumber).text = text :=
  List.flatten_singleton

theorem text_bool (value : Bool) :
    (Json.bool value).text = if value then "true".toList else "false".toList :=
  List.flatten_singleton

theorem text_null : Json.null.text = "null".toList :=
  rfl

/-! ## Every text is the text of one document -/

/-- A value ends where the text does, or in front of a comma or a closing character. -/
def Ends (rest : Text) : Prop :=
  rest = [] ∨ ∃ char more, rest = char :: more ∧ (char = ',' ∨ char = '}' ∨ char = ']')

theorem Letter.text_inj {letter letter' : Letter} {rest rest' : Text}
    (htext : letter.text ++ rest = letter'.text ++ rest') : letter = letter' ∧ rest = rest' := by
  cases letter with
  | plain char isPlain =>
      cases letter' with
      | plain char' isPlain' =>
          obtain ⟨rfl, hrest⟩ := List.cons.inj htext
          exact ⟨rfl, hrest⟩
      | short escape' => exact absurd (List.cons.inj htext).1 isPlain.2.2
      | unicode => exact absurd (List.cons.inj htext).1 isPlain.2.2
  | short escape =>
      cases letter' with
      | plain char' isPlain' => exact absurd (List.cons.inj htext).1.symm isPlain'.2.2
      | short escape' =>
          obtain ⟨hletter, hrest⟩ := List.cons.inj (List.cons.inj htext).2
          have hescape : escape = escape' := by
            cases escape <;> cases escape' <;> first | rfl | exact absurd hletter (by decide)
          exact ⟨congrArg _ hescape, hrest⟩
      | unicode =>
          have hletter := (List.cons.inj (List.cons.inj htext).2).1
          cases escape <;> exact absurd hletter (by decide)
  | unicode first second third fourth =>
      cases letter' with
      | plain char' isPlain' => exact absurd (List.cons.inj htext).1.symm isPlain'.2.2
      | short escape' =>
          have hletter := (List.cons.inj (List.cons.inj htext).2).1
          cases escape' <;> exact absurd hletter (by decide)
      | unicode first' second' third' fourth' =>
          simp only [Letter.text, List.cons_append, List.nil_append, List.cons.injEq,
            true_and] at htext
          obtain ⟨hfirst, hsecond, hthird, hfourth, hrest⟩ := htext
          rw [Subtype.ext hfirst, Subtype.ext hsecond, Subtype.ext hthird, Subtype.ext hfourth]
          exact ⟨rfl, hrest⟩

/-- No character of a string begins with a quote. -/
theorem Letter.text_ne_quote (letter : Letter) {rest rest' : Text} :
    letter.text ++ rest ≠ '"' :: rest' := by
  intro htext
  cases letter with
  | plain char isPlain => exact isPlain.2.1 (List.cons.inj htext).1
  | short escape => exact absurd (List.cons.inj htext).1 (by decide)
  | unicode => exact absurd (List.cons.inj htext).1 (by decide)

theorem body_cons (letter : Letter) (letters : List Letter) :
    body (letter :: letters) = letter.text ++ body letters :=
  List.flatMap_cons

theorem literal_inj {letters letters' : List Letter} {rest rest' : Text}
    (htext : literal letters ++ rest = literal letters' ++ rest') :
    letters = letters' ∧ rest = rest' := by
  have hbody : body letters ++ '"' :: rest = body letters' ++ '"' :: rest' := by
    simpa [literal] using htext
  clear htext
  induction letters generalizing letters' with
  | nil =>
      cases letters' with
      | nil => exact ⟨rfl, (List.cons.inj hbody).2⟩
      | cons letter' letters' =>
          rw [body_cons, List.append_assoc] at hbody
          exact absurd hbody.symm letter'.text_ne_quote
  | cons letter letters ih =>
      cases letters' with
      | nil =>
          rw [body_cons, List.append_assoc] at hbody
          exact absurd hbody letter.text_ne_quote
      | cons letter' letters' =>
          rw [body_cons, body_cons, List.append_assoc, List.append_assoc] at hbody
          obtain ⟨rfl, hmore⟩ := Letter.text_inj hbody
          obtain ⟨rfl, hrest⟩ := ih hmore
          exact ⟨rfl, hrest⟩

/-- A list in commas is determined when each of its items is. -/
theorem joined_inj {α : Type*} {code : α → Text} {closing : Char} {items items' : List α}
    {rest rest' : Text} (hclosing : closing = '}' ∨ closing = ']')
    (hcode : ∀ item ∈ items, ∀ item' rest rest', Ends rest → Ends rest' →
      code item ++ rest = code item' ++ rest' → item = item' ∧ rest = rest')
    (hstart : ∀ item rest rest', code item ++ rest ≠ closing :: rest')
    (htext : joined (items.map code) ++ closing :: rest =
      joined (items'.map code) ++ closing :: rest') : items = items' ∧ rest = rest' := by
  have hends (items : List α) (rest : Text) : Ends ((if (items.map code).isEmpty then [] else [',']) ++
      joined (items.map code) ++ closing :: rest) := by
    cases items with
    | nil => exact .inr ⟨closing, rest, rfl, .inr hclosing⟩
    | cons item items => exact .inr ⟨',', _, rfl, .inl rfl⟩
  have hcomma : closing ≠ ',' := by
    rcases hclosing with rfl | rfl
    · decide
    · decide
  induction items generalizing items' with
  | nil =>
      cases items' with
      | nil => exact ⟨rfl, (List.cons.inj htext).2⟩
      | cons item' items' =>
          simp only [List.map_cons, joined, List.append_assoc] at htext
          exact absurd htext.symm (hstart item' _ _)
  | cons item items ih =>
      cases items' with
      | nil =>
          simp only [List.map_cons, joined, List.append_assoc] at htext
          exact absurd htext (hstart item _ _)
      | cons item' items' =>
          simp only [List.map_cons, joined, List.append_assoc] at htext
          obtain ⟨rfl, hmore⟩ := hcode item List.mem_cons_self item' _ _
            (by simpa only [List.append_assoc] using hends items rest)
            (by simpa only [List.append_assoc] using hends items' rest') htext
          cases items with
          | nil =>
              cases items' with
              | nil => exact ⟨rfl, (List.cons.inj hmore).2⟩
              | cons next' items' => exact absurd (List.cons.inj hmore).1 hcomma
          | cons next items =>
              cases items' with
              | nil => exact absurd (List.cons.inj hmore).1.symm hcomma
              | cons next' items' =>
                  obtain ⟨heq, hrest⟩ := ih
                    (fun later hlater => hcode later (List.mem_cons_of_mem _ hlater))
                    (List.cons.inj hmore).2
                  rw [heq]
                  exact ⟨rfl, hrest⟩

/-- A number has digits, signs, dots and exponent letters only. -/
def isNumberChar (char : Char) : Bool :=
  char.isDigit || char = '-' || char = '+' || char = '.' || char = 'e' || char = 'E'

theorem IsDigits.chars {text : Text} (hdigits : IsDigits text) :
    ∀ char ∈ text, isNumberChar char = true := by
  intro char hmem
  simp [isNumberChar, hdigits.2 char hmem]

theorem IsNumber.chars {text : Text} (hnumber : IsNumber text) :
    ∀ char ∈ text, isNumberChar char = true := by
  obtain ⟨minus, int, frac, exp, hminus, hint, hfrac, hexp, rfl⟩ := hnumber
  intro char hmem
  simp only [List.mem_append] at hmem
  rcases hmem with hmem | hmem | hmem | hmem
  · rcases hminus with rfl | rfl
    · cases hmem
    · obtain rfl := List.mem_singleton.mp hmem
      rfl
  · rcases hint with rfl | ⟨hdigits, _⟩
    · obtain rfl := List.mem_singleton.mp hmem
      rfl
    · exact hdigits.chars char hmem
  · rcases hfrac with rfl | ⟨digits, hdigits, rfl⟩
    · cases hmem
    · rcases List.mem_cons.mp hmem with rfl | hmem
      · rfl
      · exact hdigits.chars char hmem
  · rcases hexp with rfl | ⟨letter, sign, digits, hletter, hsign, hdigits, rfl⟩
    · cases hmem
    · rcases List.mem_cons.mp hmem with rfl | hmem
      · rcases hletter with rfl | rfl <;> rfl
      · rcases List.mem_append.mp hmem with hmem | hmem
        · rcases hsign with rfl | rfl | rfl
          · cases hmem
          · obtain rfl := List.mem_singleton.mp hmem
            rfl
          · obtain rfl := List.mem_singleton.mp hmem
            rfl
        · exact hdigits.chars char hmem

/-- A number begins with a digit or a minus. -/
theorem IsNumber.head {text : Text} (hnumber : IsNumber text) :
    ∃ char more, text = char :: more ∧ (char.isDigit = true ∨ char = '-') := by
  obtain ⟨minus, int, frac, exp, hminus, hint, hfrac, hexp, rfl⟩ := hnumber
  rcases hminus with rfl | rfl
  · rcases hint with rfl | ⟨⟨hne, hdigits⟩, _⟩
    · exact ⟨'0', _, rfl, .inl rfl⟩
    · obtain ⟨char, more, rfl⟩ := List.exists_cons_of_ne_nil hne
      exact ⟨char, _, rfl, .inl (hdigits char List.mem_cons_self)⟩
  · exact ⟨'-', _, rfl, .inr rfl⟩

theorem Ends.not_numberChar {rest : Text} (hends : Ends rest) :
    ∀ char more, rest = char :: more → isNumberChar char = false := by
  rintro char more rfl
  rcases hends with hnil | ⟨other, later, heq, hchar⟩
  · cases hnil
  · obtain ⟨rfl, _⟩ := List.cons.inj heq
    rcases hchar with rfl | rfl | rfl <;> rfl

/-- A token whose characters all pass a test that what follows it fails. -/
theorem token_inj {test : Char → Bool} {text text' rest rest' : Text}
    (hall : ∀ char ∈ text, test char = true) (hall' : ∀ char ∈ text', test char = true)
    (hrest : ∀ char more, rest = char :: more → test char = false)
    (hrest' : ∀ char more, rest' = char :: more → test char = false)
    (htext : text ++ rest = text' ++ rest') : text = text' ∧ rest = rest' := by
  induction text generalizing text' with
  | nil =>
      cases text' with
      | nil => exact ⟨rfl, htext⟩
      | cons char' text' =>
          have hfails := hrest char' _ htext
          rw [hall' char' List.mem_cons_self] at hfails
          cases hfails
  | cons char text ih =>
      cases text' with
      | nil =>
          have hfails := hrest' char _ htext.symm
          rw [hall char List.mem_cons_self] at hfails
          cases hfails
      | cons char' text' =>
          obtain ⟨rfl, hmore⟩ := List.cons.inj htext
          obtain ⟨rfl, heq⟩ := ih (fun later hlater => hall later (List.mem_cons_of_mem _ hlater))
            (fun later hlater => hall' later (List.mem_cons_of_mem _ hlater)) hmore
          exact ⟨rfl, heq⟩

/-- The kinds of values, told apart by the first characters of their texts. -/
inductive Kind where
  | object
  | array
  | string
  | word (char : Char)
  | number
  deriving DecidableEq

def Json.kind : Json → Kind
  | .object _ => .object
  | .array _ => .array
  | .string _ => .string
  | .number _ _ => .number
  | .bool value => .word (if value then 't' else 'f')
  | .null => .word 'n'

def kindOf (char : Char) : Kind :=
  if char = '{' then .object
  else if char = '[' then .array
  else if char = '"' then .string
  else if char = 't' ∨ char = 'f' ∨ char = 'n' then .word char
  else .number

theorem kindOf_number {char : Char} (hchar : char.isDigit = true ∨ char = '-') :
    kindOf char = .number := by
  have hne (other : Char) (hother : other.isDigit = false ∧ other ≠ '-') : char ≠ other := by
    rintro rfl
    rcases hchar with hdigit | hminus
    · rw [hother.1] at hdigit
      cases hdigit
    · exact hother.2 hminus
  simp [kindOf, hne '{' (by decide), hne '[' (by decide), hne '"' (by decide),
    hne 't' (by decide), hne 'f' (by decide), hne 'n' (by decide)]

theorem Json.text_head (json : Json) :
    ∃ char more, json.text = char :: more ∧ kindOf char = json.kind := by
  cases json with
  | object members => exact ⟨_, _, text_object members, rfl⟩
  | array elements => exact ⟨_, _, text_array elements, rfl⟩
  | string letters => exact ⟨_, _, text_string letters, rfl⟩
  | number text isNumber =>
      obtain ⟨char, more, heq, hchar⟩ := isNumber.head
      exact ⟨char, more, (text_number text isNumber).trans heq, kindOf_number hchar⟩
  | bool value =>
      rw [text_bool]
      cases value
      · exact ⟨'f', _, rfl, rfl⟩
      · exact ⟨'t', _, rfl, rfl⟩
  | null => exact ⟨'n', _, text_null, rfl⟩

theorem Json.kind_eq {json json' : Json} {rest rest' : Text}
    (htext : json.text ++ rest = json'.text ++ rest') : json.kind = json'.kind := by
  obtain ⟨char, more, heq, hkind⟩ := json.text_head
  obtain ⟨char', more', heq', hkind'⟩ := json'.text_head
  rw [heq, heq'] at htext
  rw [← hkind, ← hkind', (List.cons.inj htext).1]

/-- No value begins with a closing character. -/
theorem Json.text_ne_closing (json : Json) {closing : Char}
    (hclosing : closing = '}' ∨ closing = ']') (rest rest' : Text) :
    json.text ++ rest ≠ closing :: rest' := by
  intro htext
  cases json with
  | number text isNumber =>
      obtain ⟨char, more, heq, hchar⟩ := isNumber.head
      rw [text_number, heq] at htext
      obtain ⟨rfl, _⟩ := List.cons.inj htext
      rcases hclosing with rfl | rfl <;> exact absurd hchar (by decide)
  | object members =>
      rw [text_object] at htext
      rcases hclosing with rfl | rfl <;> exact absurd (List.cons.inj htext).1 (by decide)
  | array elements =>
      rw [text_array] at htext
      rcases hclosing with rfl | rfl <;> exact absurd (List.cons.inj htext).1 (by decide)
  | string letters =>
      rw [text_string] at htext
      rcases hclosing with rfl | rfl <;> exact absurd (List.cons.inj htext).1 (by decide)
  | bool value =>
      rw [text_bool] at htext
      cases value <;> rcases hclosing with rfl | rfl <;>
        exact absurd (List.cons.inj htext).1 (by decide)
  | null => rcases hclosing with rfl | rfl <;> exact absurd (List.cons.inj htext).1 (by decide)

/-- The text of a member tells its name, and its value if the value's text does. -/
theorem memberText_inj {member member' : List Letter × Json} {rest rest' : Text}
    (hvalues : member.2.text ++ rest = member'.2.text ++ rest' →
      member.2 = member'.2 ∧ rest = rest')
    (hmember : memberText member ++ rest = memberText member' ++ rest') :
    member = member' ∧ rest = rest' := by
  obtain ⟨name, value⟩ := member
  obtain ⟨name', value'⟩ := member'
  simp only [memberText, List.append_assoc, List.cons_append] at hmember
  obtain ⟨rfl, hvalue⟩ := literal_inj hmember
  obtain ⟨heq, hrest⟩ := hvalues (List.cons.inj hvalue).2
  exact ⟨congrArg (Prod.mk name) heq, hrest⟩

/-- A text without white space is the text of one document, whatever follows it. -/
theorem Json.text_inj {json json' : Json} {rest rest' : Text} (hends : Ends rest)
    (hends' : Ends rest') (htext : json.text ++ rest = json'.text ++ rest') :
    json = json' ∧ rest = rest' := by
  induction json using Json.children_induction generalizing json' rest rest' with
  | object members ih =>
      have hkind := kind_eq htext
      cases json' with
      | object members' =>
          rw [text_object, text_object, List.cons_append, List.cons_append] at htext
          have hjoined := (List.cons.inj htext).2
          simp only [List.append_assoc, List.singleton_append] at hjoined
          have hcode (member : List Letter × Json) (hmem : member ∈ members)
              (member' : List Letter × Json) (rest rest' : Text) (hends : Ends rest)
              (hends' : Ends rest')
              (hmember : memberText member ++ rest = memberText member' ++ rest') :
              member = member' ∧ rest = rest' :=
            memberText_inj (fun hvalue => ih member hmem hends hends' hvalue) hmember
          have hstart (member : List Letter × Json) (rest rest' : Text) :
              memberText member ++ rest ≠ '\x7d' :: rest' :=
            fun hmember => absurd (List.cons.inj hmember).1 (by decide)
          obtain ⟨rfl, hrest⟩ := joined_inj (.inl rfl) hcode hstart hjoined
          exact ⟨rfl, hrest⟩
      | array elements => cases hkind
      | string letters => cases hkind
      | number text isNumber => cases hkind
      | bool value => cases hkind
      | null => cases hkind
  | array elements ih =>
      have hkind := kind_eq htext
      cases json' with
      | array elements' =>
          rw [text_array, text_array, List.cons_append, List.cons_append] at htext
          have hjoined := (List.cons.inj htext).2
          simp only [List.append_assoc, List.singleton_append] at hjoined
          obtain ⟨rfl, hrest⟩ := joined_inj (.inr rfl)
            (fun element hmem element' rest rest' hends hends' => ih element hmem hends hends')
            (fun element => element.text_ne_closing (.inr rfl)) hjoined
          exact ⟨rfl, hrest⟩
      | object members => cases hkind
      | string letters => cases hkind
      | number text isNumber => cases hkind
      | bool value => cases hkind
      | null => cases hkind
  | string letters =>
      have hkind := kind_eq htext
      cases json' with
      | string letters' =>
          rw [text_string, text_string] at htext
          obtain ⟨rfl, hrest⟩ := literal_inj htext
          exact ⟨rfl, hrest⟩
      | object members => cases hkind
      | array elements => cases hkind
      | number text isNumber => cases hkind
      | bool value => cases hkind
      | null => cases hkind
  | number text isNumber =>
      have hkind := kind_eq htext
      cases json' with
      | number text' isNumber' =>
          rw [text_number, text_number] at htext
          obtain ⟨rfl, hrest⟩ := token_inj isNumber.chars isNumber'.chars hends.not_numberChar
            hends'.not_numberChar htext
          exact ⟨rfl, hrest⟩
      | object members => cases hkind
      | array elements => cases hkind
      | string letters => cases hkind
      | bool value => cases hkind
      | null => cases hkind
  | bool value =>
      have hkind := kind_eq htext
      cases json' with
      | bool value' =>
          have hvalue : value = value' := by
            cases value <;> cases value' <;> first | rfl | exact absurd hkind (by decide)
          rw [hvalue] at htext ⊢
          exact ⟨rfl, List.append_cancel_left htext⟩
      | object members => cases hkind
      | array elements => cases hkind
      | string letters => cases hkind
      | number text isNumber => cases hkind
      | null => cases value <;> exact absurd hkind (by decide)
  | null =>
      have hkind := kind_eq htext
      cases json' with
      | null => exact ⟨rfl, List.append_cancel_left htext⟩
      | object members => cases hkind
      | array elements => cases hkind
      | string letters => cases hkind
      | number text isNumber => cases hkind
      | bool value => cases value <;> exact absurd hkind (by decide)

/-! ## What it takes to write a string -/

/-- The characters other than white space that a code unit takes at least. -/
def cost (unit : Nat) : Nat :=
  if unit < 32 ∨ unit = 0x22 ∨ unit = 0x5C then 2
  else if unit = 32 ∨ (0xDC00 ≤ unit ∧ unit < 0xE000) then 0
  else 1

def costOf (units : List Nat) : Nat :=
  (units.map cost).sum

theorem costOf_append (first second : List Nat) :
    costOf (first ++ second) = costOf first + costOf second := by
  rw [costOf, costOf, costOf, List.map_append, List.sum_append]

theorem cost_le_two (unit : Nat) : cost unit ≤ 2 := by
  unfold cost
  split
  · omega
  · split <;> omega

theorem costOf_singleton (unit : Nat) : costOf [unit] = cost unit := by
  simp [costOf]

/-- A character takes itself, unless it is a blank, or has to be escaped. -/
theorem costOf_charUnits (char : Char) :
    costOf (charUnits char) =
      if char.toNat < 32 ∨ char = '"' ∨ char = '\\' then 2 else if char = ' ' then 0 else 1 := by
  have hchar (other : Char) : char = other ↔ char.toNat = other.toNat :=
    ⟨congrArg Char.toNat, Char.toNat_inj.mp⟩
  have hquote : '"'.toNat = 34 := rfl
  have hslash : '\\'.toNat = 92 := rfl
  have hspace : ' '.toNat = 32 := rfl
  have hvalid : char.toNat < 0xD800 ∨ 0xDFFF < char.toNat ∧ char.toNat < 0x110000 := char.valid
  rw [charUnits]
  simp only [hchar, hquote, hslash, hspace]
  generalize char.toNat = code at hvalid
  by_cases hlow : code < 32 ∨ code = 34 ∨ code = 92
  · have hcost : cost code = 2 := if_pos hlow
    rw [if_pos hlow, if_pos (by omega), costOf_singleton, hcost]
  · rw [if_neg hlow]
    by_cases hspace : code = 32
    · rw [hspace]
      rfl
    · rw [if_neg hspace]
      split
      · have hcost : cost code = 1 := by
          rw [cost, if_neg hlow, if_neg (by omega)]
        rw [costOf_singleton, hcost]
      · rename_i hhigh
        have hhighest : (code - 0x10000) / 0x400 < 0x400 := by omega
        have hlowest : (code - 0x10000) % 0x400 < 0x400 := Nat.mod_lt _ (by decide)
        generalize (code - 0x10000) / 0x400 = high at hhighest
        generalize (code - 0x10000) % 0x400 = low at hlowest
        have hcost : cost (0xD800 + high) = 1 := by
          rw [cost, if_neg (by omega), if_neg (by omega)]
        have hcost' : cost (0xDC00 + low) = 0 := by
          rw [cost, if_neg (by omega), if_pos (by omega)]
        rw [costOf, List.map_cons, List.map_singleton, hcost, hcost']
        rfl

/-- No letter is written with less than its code units take. -/
theorem Letter.cost_le (letter : Letter) : costOf letter.units ≤ inked letter.text := by
  cases letter with
  | plain char isPlain =>
      have hink : char ≠ ' ' → inked [char] = 1 := by
        intro hne
        have hctrl (other : Char) (hother : other.toNat < 32) : char ≠ other := by
          rintro rfl
          exact absurd isPlain.1 (by omega)
        simp [inked, isBlank, hne, hctrl '\t' (by decide), hctrl '\n' (by decide),
          hctrl '\r' (by decide)]
      rw [Letter.units, Letter.text, costOf_charUnits, if_neg ?_]
      · split
        · exact Nat.zero_le _
        · rename_i hne
          rw [hink hne]
      · rintro (hlow | hquote | hslash)
        · exact absurd isPlain.1 (by omega)
        · exact isPlain.2.1 hquote
        · exact isPlain.2.2 hslash
  | short escape =>
      have hink : inked (Letter.short escape).text = 2 := by
        cases escape <;> rfl
      rw [hink, Letter.units, costOf_singleton]
      exact cost_le_two _
  | unicode first second third fourth =>
      have hink : inked ['\\', 'u'] ≤ inked (Letter.unicode first second third fourth).text :=
        List.Sublist.countP_le (List.Sublist.cons_cons _ (List.Sublist.cons_cons _ (List.nil_sublist _)))
      rw [Letter.units, costOf_singleton]
      exact (cost_le_two _).trans hink

theorem cost_le_body (letters : List Letter) : costOf (meaning letters) ≤ inked (body letters) := by
  induction letters with
  | nil => exact Nat.le_refl _
  | cons letter letters ih =>
      rw [body_cons, inked_append, meaning, List.flatMap_cons, costOf_append]
      exact Nat.add_le_add letter.cost_le ih

theorem inked_literal (letters : List Letter) :
    inked (literal letters) = inked (body letters) + 2 := by
  rw [literal, ← List.singleton_append, inked_append, inked_append]
  have hquote : inked ['"'] = 1 := rfl
  omega

theorem inked_joined (texts : List Text) :
    inked (joined texts) = (texts.map inked).sum + (texts.length - 1) := by
  induction texts with
  | nil => rfl
  | cons text texts ih =>
      rw [joined, inked_append, inked_append, ih, List.map_cons, List.sum_cons]
      cases texts with
      | nil =>
          have hnone : inked (if ([] : List Text).isEmpty then [] else [',']) = 0 := rfl
          simp only [hnone, List.map_nil, List.sum_nil, List.length_nil, List.length_singleton]
          omega
      | cons next texts =>
          have hcomma : inked (if (next :: texts).isEmpty then [] else [',']) = 1 := rfl
          simp only [List.length_cons] at *
          omega

end Rfc8259
