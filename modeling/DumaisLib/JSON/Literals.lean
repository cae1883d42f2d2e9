import DumaisLib.JSON.CutTexts
import DumaisLib.JSON.Tree
import DumaisLib.Lib.Quoting

/-!
# Literals in the texts that are scanned

A reader that goes over a text character by character knows where it is inside
of a literal.  The scans for closing characters and the removal of white space
act on what the reader sees outside.
-/

namespace DumaisLib.JSON

open Quoting DumaisLib.JSON.Parser

/-- The printed literal of a string ends at its own closing quote, and is read back. -/
theorem printed_literal_read_back {s : Text} (hnul : '\x00' ∉ s) (r : Text) :
    Value.unEscapeString (Value.escapeString s) = s ∧
      findClosingQuote ('"' :: (Value.escapeString s ++ '"' :: r)) =
        some ((Value.escapeString s).length + 2) := by
  have hfind := findClosingQuote_quoted (quotable_escapeString hnul) r
  rw [quoted, List.cons_append, List.append_assoc, List.singleton_append] at hfind
  exact ⟨unEscapeString_escapeString s, hfind⟩

/-- `a"\` followed by `"\` -/
theorem printed_literal_read_back_quotes :
    Value.unEscapeString (Value.escapeString ['a', '"', '\\']) = ['a', '"', '\\'] ∧
      findClosingQuote ('"' :: (Value.escapeString ['a', '"', '\\'] ++ '"' :: ['"', '\\'])) =
        some ((Value.escapeString ['a', '"', '\\']).length + 2) :=
  printed_literal_read_back (by simp) ['"', '\\']

/-! ## What the reader sees of a literal -/

/-- The place of the reader in the body of a literal. -/
def within (nextEscape : Bool) : Reader :=
  if nextEscape then .escaped else .inside

/-- The reader goes on in the literal. -/
theorem within_step {continues : Bool → Text → Prop} {nextEscape : Bool} {char : Char}
    {text : Text} (hrest : if nextEscape then continues false text
      else if char = '\\' then continues true text else char ≠ '"' ∧ continues false text) :
    ∃ next, continues next text ∧ (within nextEscape).next '"' '\\' char = within next := by
  cases nextEscape with
  | true => exact ⟨false, hrest, rfl⟩
  | false =>
      rw [if_neg Bool.false_ne_true] at hrest
      split at hrest
      · rename_i hslash
        exact ⟨true, hrest, if_pos hslash⟩
      · rename_i hslash
        refine ⟨false, hrest.2, ?_⟩
        change Reader.inside.next '"' '\\' char = .inside
        rw [Reader.next, if_neg hslash, if_neg hrest.1]

theorem within_ne_outside (nextEscape : Bool) : within nextEscape ≠ .outside := by
  cases nextEscape with
  | true => exact Reader.noConfusion
  | false => exact Reader.noConfusion

theorem after_quotable {nextEscape : Bool} {body : Text} (hbody : Quotable nextEscape body) :
    (within nextEscape).after '"' '\\' body = .inside ∧
      unquoted '"' '\\' (within nextEscape) body = [] := by
  induction body generalizing nextEscape with
  | nil =>
      have hclosed : nextEscape = false := hbody
      rw [hclosed]
      exact ⟨rfl, rfl⟩
  | cons char body ih =>
      obtain ⟨next, hnext, hreader⟩ := @within_step Quotable nextEscape char body hbody.2
      have hskips : ¬ (within nextEscape).Skips '"' '\\' char :=
        fun hskips => within_ne_outside nextEscape hskips.1
      rw [after_cons, unquoted, if_neg hskips, hreader]
      exact ih hnext

/-- The reader comes out of a literal and has seen nothing of it outside. -/
theorem after_quoted {body : Text} (hbody : Quotable false body) :
    Reader.outside.after '"' '\\' (quoted body) = .outside ∧
      unquoted '"' '\\' .outside (quoted body) = [] := by
  have hread : Reader.inside.after '"' '\\' body = .inside ∧ unquoted '"' '\\' .inside body = [] :=
    after_quotable hbody
  constructor
  · rw [quoted, after_cons]
    change Reader.inside.after '"' '\\' (body ++ ['"']) = _
    rw [after_append, hread.1]
    rfl
  · rw [quoted]
    change unquoted '"' '\\' .inside (body ++ ['"']) = _
    rw [unquoted_append, hread.2, hread.1]
    rfl

/-- The reader stays in a literal that is not closed. -/
theorem after_unclosed {nextEscape : Bool} {body : Text} (hbody : Unclosed nextEscape body) :
    (within nextEscape).after '"' '\\' body ≠ .outside := by
  induction body generalizing nextEscape with
  | nil => exact within_ne_outside nextEscape
  | cons char body ih =>
      obtain ⟨next, hnext, hreader⟩ := @within_step Unclosed nextEscape char body hbody.2
      rw [after_cons, hreader]
      exact ih hnext

theorem after_char {char : Char} (hquote : char ≠ '"') :
    Reader.outside.after '"' '\\' [char] = .outside ∧
      unquoted '"' '\\' .outside [char] = [char] := by
  have hskips : Reader.outside.Skips '"' '\\' char := skips_iff.mpr ⟨rfl, hquote⟩
  refine ⟨hskips.2, ?_⟩
  rw [unquoted, if_pos hskips]
  rfl

/-! ## Closing characters -/

/-- Nowhere are more than `2 ^ 31 - 1` pairs open at once. -/
def Shallow (opening closing : Char) (text : Text) : Prop :=
  ∀ count, (unquoted '"' '\\' .outside (text.take count)).count opening <
    (unquoted '"' '\\' .outside (text.take count)).count closing + 2 ^ 31

/-- The reader is outside, and `level` more pairs were opened than closed. -/
structure Opened (opening closing : Char) (level : Nat) (text : Text) : Prop where
  outside : Reader.outside.after '"' '\\' text = .outside
  counts : (unquoted '"' '\\' .outside text).count opening =
    (unquoted '"' '\\' .outside text).count closing + level
  unbalanced : ∀ count, 0 < count → count ≤ text.length →
    (unquoted '"' '\\' .outside (text.take count)).count closing <
      (unquoted '"' '\\' .outside (text.take count)).count opening

section Closing

variable {opening closing : Char} {level : Nat} {text : Text}

theorem Opened.take_append (hopened : Opened opening closing level text) (piece : Text)
    (count : Nat) :
    unquoted '"' '\\' .outside ((text ++ piece).take (text.length + count)) =
      unquoted '"' '\\' .outside text ++ unquoted '"' '\\' .outside (piece.take count) := by
  rw [List.take_length_add_append, unquoted_append, hopened.outside]

/-- A piece whose beginnings leave pairs open can follow. -/
theorem Opened.append (hopened : Opened opening closing level text) {piece : Text} {higher : Nat}
    (houtside : Reader.outside.after '"' '\\' piece = .outside)
    (hcounts : level + (unquoted '"' '\\' .outside piece).count opening =
      (unquoted '"' '\\' .outside piece).count closing + higher)
    (hopen : ∀ count, 0 < count → count ≤ piece.length →
      (unquoted '"' '\\' .outside (piece.take count)).count closing <
        level + (unquoted '"' '\\' .outside (piece.take count)).count opening) :
    Opened opening closing higher (text ++ piece) := by
  have hbefore := hopened.counts
  refine ⟨?_, ?_, ?_⟩
  · rw [after_append, hopened.outside, houtside]
  · rw [unquoted_append, hopened.outside, List.count_append, List.count_append]
    omega
  · intro count hpos hle
    rcases Nat.le_total count text.length with hshort | hlong
    · rw [List.take_append_of_le_length hshort]
      exact hopened.unbalanced count hpos hshort
    · obtain ⟨more, rfl⟩ := Nat.exists_eq_add_of_le hlong
      rw [hopened.take_append, List.count_append, List.count_append]
      rw [List.length_append] at hle
      cases more with
      | zero =>
          have hlast := hopened.unbalanced text.length (by omega) le_rfl
          rw [List.take_length] at hlast
          rw [List.take_zero, unquoted, List.count_nil, List.count_nil]
          omega
      | succ more =>
          have hpiece := hopen (more + 1) (Nat.succ_pos _) (by omega)
          omega

theorem Opened.append_char (hopened : Opened opening closing level text) {char : Char}
    (hquote : char ≠ '"') {higher : Nat}
    (hcounts : level + [char].count opening = [char].count closing + higher) (hpos : 0 < higher) :
    Opened opening closing higher (text ++ [char]) := by
  obtain ⟨houtside, hunquoted⟩ := after_char hquote
  refine hopened.append houtside (by rw [hunquoted]; exact hcounts) ?_
  intro count hcount hle
  obtain rfl : count = 1 := by
    rw [List.length_singleton] at hle
    omega
  rw [List.take_succ_cons, List.take_nil, hunquoted]
  omega

/-- The scan is inside as long as pairs are open for the reader. -/
theorem Inside.opened (hbrackets : Brackets opening closing)
    (hinside : Inside opening closing level text) : Opened opening closing level text := by
  have hstart : Opened opening closing 0 [] :=
    ⟨rfl, rfl, fun count hpos hle => absurd hle (Nat.not_le_of_lt hpos)⟩
  have hone : [opening].count opening = 1 := by simp
  have hnone : [opening].count closing = 0 := by simp [hbrackets.closing_ne_opening.symm]
  induction hinside with
  | start =>
      exact hstart.append_char hbrackets.opening_ne_quote (by rw [hone, hnone]) Nat.one_pos
  | @literal level text body hbefore hbody ih =>
      obtain ⟨houtside, hunquoted⟩ := after_quoted hbody
      refine ih.append houtside (by rw [hunquoted]; exact Nat.add_comm _ _) ?_
      intro count _ _
      have hbegins := @unquoted_take Char _ '"' '\\' .outside (quoted body) count
      rw [hunquoted, List.prefix_nil] at hbegins
      rw [hbegins]
      exact hbefore.bounds.1
  | opening hbefore _ ih =>
      exact ih.append_char hbrackets.opening_ne_quote (by rw [hone, hnone]; omega) (Nat.succ_pos _)
  | closing hbefore ih =>
      have hcloses : [closing].count closing = 1 := by simp
      have hopens : [closing].count opening = 0 := by simp [hbrackets.closing_ne_opening]
      exact ih.append_char hbrackets.closing_ne_quote (by rw [hopens, hcloses]; omega)
        (Nat.succ_pos _)
  | @char level text char hbefore hplain ih =>
      obtain ⟨_, hquote, hopening, hclosing⟩ := hplain
      have hopens : [char].count opening = 0 := by simp [hopening]
      have hcloses : [char].count closing = 0 := by simp [hclosing]
      exact ih.append_char hquote (by rw [hopens, hcloses]; omega) hbefore.bounds.1

theorem Opened.not_balanced (hopened : Opened opening closing level text) {count : Nat}
    (hpos : 0 < count) (hle : count ≤ text.length) :
    ¬ Balances '"' '\\' opening closing (text.take count) :=
  fun hbalanced => absurd hbalanced.symm (Nat.ne_of_lt (hopened.unbalanced count hpos hle))

/-- What the scan finds the end of is the first beginning that is balanced. -/
theorem Enclosed.balancedAt (hbrackets : Brackets opening closing)
    (henclosed : Enclosed opening closing text) (more : Text) :
    BalancedAt '"' '\\' opening closing (text ++ more) text.length := by
  obtain ⟨before, rfl, hinside⟩ := henclosed
  have hopened := hinside.opened hbrackets
  have hbalanced : Balances '"' '\\' opening closing (before ++ [closing]) := by
    obtain ⟨_, hunquoted⟩ := after_char hbrackets.closing_ne_quote
    have hcounts := hopened.counts
    have hopens : [closing].count opening = 0 := by simp [hbrackets.closing_ne_opening]
    have hcloses : [closing].count closing = 1 := by simp
    rw [Balances, unquoted_append, hopened.outside, hunquoted, List.count_append,
      List.count_append]
    omega
  refine ⟨?_, ?_, ?_, ?_⟩
  · simp
  · simp
  · rw [List.take_left]
    exact hbalanced
  · intro shorter hpos hlt
    have hle : shorter ≤ before.length := by
      rw [List.length_append, List.length_singleton] at hlt
      omega
    rw [List.append_assoc, List.take_append_of_le_length hle]
    exact hopened.not_balanced hpos hle

theorem CutOff.not_terminated (hbrackets : Brackets opening closing)
    (hcut : CutOff opening closing text) : ¬ Terminated '"' '\\' text := by
  obtain ⟨level, before, body, rfl, hinside, hunclosed⟩ := hcut
  have hinsideBody : Reader.inside.after '"' '\\' body ≠ .outside := after_unclosed hunclosed
  intro hterminated
  rw [Terminated, after_append, (hinside.opened hbrackets).outside, after_cons] at hterminated
  exact hinsideBody hterminated

theorem TooDeep.not_shallow (hbrackets : Brackets opening closing)
    (hdeep : TooDeep opening closing text) : ¬ Shallow opening closing text := by
  obtain ⟨before, rest, rfl, hinside⟩ := hdeep
  have hopened := hinside.opened hbrackets
  have hcounts := hopened.counts
  obtain ⟨_, hunquoted⟩ := after_char hbrackets.opening_ne_quote
  intro hshallow
  have hnext := hshallow (before.length + 1)
  have hopens : [opening].count opening = 1 := by simp
  have hcloses : [opening].count closing = 0 := by simp [hbrackets.closing_ne_opening.symm]
  rw [hopened.take_append, List.take_succ_cons, List.take_zero, hunquoted, List.count_append,
    List.count_append, hopens, hcloses] at hnext
  omega

/--
The scan for a closing character finds the end of the shortest beginning that is
balanced, and finds none when no beginning is.
-/
theorem findClosing_cases (hbrackets : Brackets opening closing) {rest : Text}
    (hnul : '\x00' ∉ rest) (hterminated : Terminated '"' '\\' (opening :: rest))
    (hshallow : Shallow opening closing (opening :: rest)) :
    (∃ size, findClosing opening closing (opening :: rest) = .found size ∧
      BalancedAt '"' '\\' opening closing (opening :: rest) size) ∨
    (findClosing opening closing (opening :: rest) = .npos ∧
      ∀ count, 0 < count → count ≤ (opening :: rest).length →
        ¬ Balances '"' '\\' opening closing ((opening :: rest).take count)) := by
  have hcases := @scan_cases opening closing 1 [opening] .start rest hnul
  rw [List.singleton_append] at hcases
  rcases hcases with ⟨piece, more, hsplit, henclosed⟩ | ⟨level, hinside⟩ | hcut | hdeep
  · rw [hsplit]
    exact .inl ⟨piece.length, henclosed.findClosing hbrackets more,
      henclosed.balancedAt hbrackets more⟩
  · refine .inr ⟨hinside.findClosing_end hbrackets, fun count hpos hle => ?_⟩
    exact (hinside.opened hbrackets).not_balanced hpos hle
  · exact absurd hterminated (hcut.not_terminated hbrackets)
  · exact absurd hshallow (hdeep.not_shallow hbrackets)

/-- Both ways at once, for any text that begins with the opening character. -/
theorem findClosing_iff (hbrackets : Brackets opening closing) (hhead : text.head? = some opening)
    (hnul : '\x00' ∉ text) (hterminated : Terminated '"' '\\' text)
    (hshallow : Shallow opening closing text) :
    (∀ size, findClosing opening closing text = .found size ↔
      BalancedAt '"' '\\' opening closing text size) ∧
    (findClosing opening closing text = .npos ↔
      ∀ count, 0 < count → count ≤ text.length →
        ¬ Balances '"' '\\' opening closing (text.take count)) := by
  obtain ⟨rest, rfl⟩ := List.head?_eq_some_iff.mp hhead
  have hrest : '\x00' ∉ rest := fun hmem => hnul (List.mem_cons_of_mem _ hmem)
  rcases findClosing_cases hbrackets hrest hterminated hshallow with
    ⟨size, hfound, hsize⟩ | ⟨hnone, hunbalanced⟩
  · rw [hfound]
    constructor
    · intro size'
      constructor
      · rintro ⟨⟩
        exact hsize
      · intro hsize'
        rw [hsize.unique hsize']
    · constructor
      · rintro ⟨⟩
      · intro hunbalanced
        exact absurd hsize.balanced (hunbalanced size hsize.pos hsize.le)
  · rw [hnone]
    constructor
    · intro size
      constructor
      · rintro ⟨⟩
      · intro hsize
        exact absurd hsize.balanced (hunbalanced size hsize.pos hsize.le)
    · exact iff_of_true rfl hunbalanced

/-- A text of fewer than `2 ^ 31` characters is never too deep. -/
theorem shallow_of_length (hlength : text.length < 2 ^ 31) : Shallow opening closing text := by
  intro count
  have hcount := List.count_le_length (a := opening)
    (l := unquoted '"' '\\' .outside (text.take count))
  have hsublist := (@unquoted_sublist Char _ '"' '\\' .outside (text.take count)).length_le
  have htake := List.length_take_le' count text
  omega

end Closing

/-- Braces and brackets close at the shortest beginning that is balanced. -/
theorem closing_found_at_first_balance {text : Text} (hnul : '\x00' ∉ text)
    (hterminated : Terminated '"' '\\' text) :
    (text.head? = some '\x7b' → Shallow '\x7b' '\x7d' text →
      (∀ size, findClosingCurly text = .found size ↔
        BalancedAt '"' '\\' '\x7b' '\x7d' text size) ∧
      (findClosingCurly text = .npos ↔
        ∀ count, 0 < count → count ≤ text.length →
          ¬ Balances '"' '\\' '\x7b' '\x7d' (text.take count))) ∧
    (text.head? = some '[' → Shallow '[' ']' text →
      (∀ size, findClosingBracket text = .found size ↔
        BalancedAt '"' '\\' '[' ']' text size) ∧
      (findClosingBracket text = .npos ↔
        ∀ count, 0 < count → count ≤ text.length →
          ¬ Balances '"' '\\' '[' ']' (text.take count))) := by
  constructor
  · intro hhead hshallow
    exact findClosing_iff curly_brackets hhead hnul hterminated hshallow
  · intro hhead hshallow
    exact findClosing_iff square_brackets hhead hnul hterminated hshallow

/-- A brace in a literal does not close, and nothing closes the bracket. -/
theorem closing_found_at_first_balance_literal :
    BalancedAt '"' '\\' '\x7b' '\x7d' "\x7b\"\\\"\x7d\"\x7d,".toList 7 ∧
      ∀ count, 0 < count → count ≤ "[\"]\"".toList.length →
        ¬ Balances '"' '\\' '[' ']' ("[\"]\"".toList.take count) := by
  have hcurly := (@closing_found_at_first_balance "\x7b\"\\\"\x7d\"\x7d,".toList (by simp)
    rfl).1 rfl (shallow_of_length (by decide))
  have hsquare := (@closing_found_at_first_balance "[\"]\"".toList (by simp)
    rfl).2 rfl (shallow_of_length (by decide))
  exact ⟨(hcurly.1 7).mp rfl, hsquare.2.mp rfl⟩

/-! ## White space -/

theorem isSpace_ne_quote {char : Char} (hspace : isSpace char = true) : char ≠ '"' := by
  rintro rfl
  exact absurd hspace (by decide)

/-- The text that is kept is the one without the white space outside of its literals. -/
theorem Compacted.eq_stripped {text kept : Text} (hcompacted : Compacted text kept)
    (hnul : '\x00' ∉ text) (hterminated : Terminated '"' '\\' text) :
    kept = stripped '"' '\\' isSpace .outside text := by
  induction hcompacted with
  | nil => rfl
  | @space char text kept hspace _ ih =>
      have hskips : Reader.outside.Skips '"' '\\' char :=
        skips_iff.mpr ⟨rfl, isSpace_ne_quote hspace⟩
      rw [Terminated, after_cons, hskips.2] at hterminated
      rw [stripped, if_pos ⟨hskips, hspace⟩, hskips.2]
      exact ih (fun hmem => hnul (List.mem_cons_of_mem _ hmem)) hterminated
  | @char char text kept hquote hspace _ ih =>
      have hskips : Reader.outside.Skips '"' '\\' char := skips_iff.mpr ⟨rfl, hquote⟩
      have hkeeps : ¬ (Reader.outside.Skips '"' '\\' char ∧ isSpace char = true) := by
        rw [hspace]
        exact fun hdrop => Bool.noConfusion hdrop.2
      rw [Terminated, after_cons, hskips.2] at hterminated
      rw [stripped, if_neg hkeeps, hskips.2,
        ← ih (fun hmem => hnul (List.mem_cons_of_mem _ hmem)) hterminated]
  | @literal body literal text kept hliteral _ ih =>
      cases hliteral with
      | closed hbody =>
          obtain ⟨houtside, hunquoted⟩ := after_quoted hbody
          rw [Terminated, after_append, houtside] at hterminated
          rw [stripped_append, houtside, stripped_of_unquoted_nil hunquoted,
            ← ih (fun hmem => hnul (List.mem_append_right _ hmem)) hterminated]
      | cut =>
          exact absurd (by simp) hnul
  | @unclosed body hunclosed =>
      have hinside : Reader.inside.after '"' '\\' body ≠ .outside := after_unclosed hunclosed
      exact absurd hterminated hinside

/-- What `removeSpaces` leaves of a text whose literals all end. -/
theorem removeSpaces_eq_stripped {text : Text} (hnul : '\x00' ∉ text)
    (hterminated : Terminated '"' '\\' text) :
    removeSpaces text = stripped '"' '\\' isSpace .outside text :=
  (compacted_removeSpaces text).eq_stripped hnul hterminated

theorem removeSpaces_removeSpaces {text : Text} (hnul : '\x00' ∉ text)
    (hterminated : Terminated '"' '\\' text) :
    removeSpaces (removeSpaces text) = removeSpaces text := by
  have hstripped : '\x00' ∉ stripped '"' '\\' isSpace .outside text :=
    fun hmem => hnul ((stripped_sublist _ _).subset hmem)
  rw [removeSpaces_eq_stripped hnul hterminated,
    removeSpaces_eq_stripped hstripped hterminated.stripped, stripped_stripped]

/-- Texts with the same rest are parsed alike. -/
theorem parse_congr {text text' : Text} (hsame : removeSpaces text = removeSpaces text') :
    parse text = parse text' := by
  rw [parse, parse, hsame]

/--
White space outside of literals is what `removeSpaces` drops, all of it at once,
and what no tree depends on.
-/
theorem white_space_outside_literals_dropped {text : Text} (hnul : '\x00' ∉ text)
    (hterminated : Terminated '"' '\\' text) :
    removeSpaces text = stripped '"' '\\' isSpace .outside text ∧
      removeSpaces (removeSpaces text) = removeSpaces text ∧
      ∀ text', '\x00' ∉ text' → Terminated '"' '\\' text' →
        SameButBlanks '"' '\\' isSpace text text' → parse text = parse text' := by
  refine ⟨removeSpaces_eq_stripped hnul hterminated, removeSpaces_removeSpaces hnul hterminated, ?_⟩
  intro text' hnul' hterminated' hsame
  apply parse_congr
  rw [removeSpaces_eq_stripped hnul hterminated, removeSpaces_eq_stripped hnul' hterminated',
    sameButBlanks_iff.mp hsame]

/-- A space in a literal is kept, and one behind it is dropped. -/
theorem white_space_outside_literals_dropped_literal :
    removeSpaces "\x7b\"a b\" : 1\x7d".toList = "\x7b\"a b\":1\x7d".toList ∧
      parse "\x7b\"a b\" : 1\x7d".toList = parse "\x7b\"a b\":1\x7d".toList := by
  have hdropped := @white_space_outside_literals_dropped "\x7b\"a b\" : 1\x7d".toList (by simp) rfl
  exact ⟨hdropped.1, hdropped.2.2 _ (by simp) rfl (sameButBlanks_iff.mpr (by decide))⟩

end DumaisLib.JSON
