import DumaisLib.JSON.Value

/-!
# Scanning printed texts

What stands between quotes is found again by the scan for the closing quote, and
what stands between braces or brackets by the scan for the closing one.
-/

namespace DumaisLib.JSON

open DumaisLib.JSON.Parser

/-! ## Literals -/

/-- The text has no NUL and no quote but behind an escape, and leaves no escape open. -/
def Quotable (nextEscape : Bool) : Text → Prop
  | [] => nextEscape = false
  | char :: text =>
      char ≠ '\x00' ∧
        if nextEscape then Quotable false text
        else if char = '\\' then Quotable true text
        else char ≠ '"' ∧ Quotable false text

theorem quotable_cons {char : Char} {text : Text} (hnul : char ≠ '\x00') (hquote : char ≠ '"')
    (hslash : char ≠ '\\') (hquotable : Quotable false text) : Quotable false (char :: text) := by
  rw [Quotable, if_neg (by decide), if_neg hslash]
  exact ⟨hnul, hquote, hquotable⟩

/-- The text between quotes. -/
def quoted (text : Text) : Text :=
  '"' :: (text ++ ['"'])

theorem length_quoted (text : Text) : (quoted text).length = text.length + 2 := by
  simp [quoted]

/-- What goes on behind a character in a literal, for the escape flag that it leaves. -/
theorem literal_step {continues : Bool → Text → Prop} {nextEscape : Bool} {char : Char}
    {text : Text} (hnul : char ≠ '\x00')
    (hrest : if nextEscape then continues false text
      else if char = '\\' then continues true text else char ≠ '"' ∧ continues false text) :
    ∃ next, continues next text ∧
      ∀ more, closingQuoteFrom nextEscape (char :: more) = closingQuoteFrom next more + 1 := by
  cases nextEscape with
  | true =>
      refine ⟨false, hrest, fun more => ?_⟩
      rw [closingQuoteFrom, if_neg hnul, if_pos rfl]
  | false =>
      rw [if_neg Bool.false_ne_true] at hrest
      split at hrest
      · rename_i hslash
        refine ⟨true, hrest, fun more => ?_⟩
        rw [closingQuoteFrom, if_neg hnul, if_neg Bool.false_ne_true, if_pos hslash]
      · rename_i hslash
        refine ⟨false, hrest.2, fun more => ?_⟩
        rw [closingQuoteFrom, if_neg hnul, if_neg Bool.false_ne_true, if_neg hslash,
          if_neg hrest.1]

theorem nul_not_mem_of_quotable {nextEscape : Bool} {text : Text}
    (hquotable : Quotable nextEscape text) : '\x00' ∉ text := by
  induction text generalizing nextEscape with
  | nil => exact List.not_mem_nil
  | cons char text ih =>
      obtain ⟨hchar, hrest⟩ := hquotable
      obtain ⟨next, hnext, _⟩ := @literal_step Quotable nextEscape char text hchar hrest
      exact List.not_mem_cons_of_ne_of_not_mem hchar.symm (ih hnext)

theorem closingQuoteFrom_append {nextEscape : Bool} {text : Text}
    (hquotable : Quotable nextEscape text) (rest : Text) :
    closingQuoteFrom nextEscape (text ++ '"' :: rest) = text.length := by
  induction text generalizing nextEscape with
  | nil =>
      have hescape : nextEscape = false := hquotable
      rw [hescape]
      rfl
  | cons char text ih =>
      obtain ⟨hchar, hrest⟩ := hquotable
      obtain ⟨next, hnext, hcount⟩ := @literal_step Quotable nextEscape char text hchar hrest
      rw [List.cons_append, hcount, ih hnext, List.length_cons]

theorem findClosingQuote_quoted {text : Text} (hquotable : Quotable false text) (rest : Text) :
    findClosingQuote (quoted text ++ rest) = some (text.length + 2) := by
  rw [quoted, List.cons_append, List.append_assoc, List.singleton_append, findClosingQuote,
    closingQuoteFrom_append hquotable, if_neg (by decide)]
  congr 1
  omega

theorem parseString_counted {body rest : Text}
    (hfind : findClosingQuote ('"' :: (body ++ rest)) = some (body.length + 2)) :
    parseString ('"' :: (body ++ rest)) = body := by
  rw [parseString, hfind]
  dsimp only
  split
  · rename_i hshort
    exact (List.eq_nil_of_length_eq_zero (by omega)).symm
  · rw [Nat.add_sub_cancel, Text.substr, List.drop_one, List.tail_cons, List.take_left]

theorem parseString_quoted {text : Text} (hquotable : Quotable false text) (rest : Text) :
    parseString (quoted text ++ rest) = text := by
  have hfind := findClosingQuote_quoted hquotable rest
  rw [quoted, List.cons_append, List.append_assoc] at hfind ⊢
  exact parseString_counted hfind

/-! ## Escaped texts -/

/-- A character is escaped by a letter that stands for it, or stands for itself. -/
theorem escapeChar_cases (char : Char) :
    (∃ letter, Value.escapeChar char = ['\\', letter] ∧ letter ≠ '\x00' ∧
      Value.unEscapeChar letter = some char) ∨
    (Value.escapeChar char = [char] ∧ char ≠ '"' ∧ char ≠ '\\') := by
  unfold Value.escapeChar
  split
  · subst_vars
    exact Or.inl ⟨'"', rfl, by decide, rfl⟩
  · split
    · subst_vars
      exact Or.inl ⟨'n', rfl, by decide, rfl⟩
    · split
      · subst_vars
        exact Or.inl ⟨'r', rfl, by decide, rfl⟩
      · split
        · subst_vars
          exact Or.inl ⟨'t', rfl, by decide, rfl⟩
        · split
          · subst_vars
            exact Or.inl ⟨'\\', rfl, by decide, rfl⟩
          · exact Or.inr ⟨rfl, ‹_›, ‹_›⟩

theorem escapeString_cons (char : Char) (st : Text) :
    Value.escapeString (char :: st) = Value.escapeChar char ++ Value.escapeString st :=
  rfl

theorem quotable_escapeString {st : Text} (hnul : '\x00' ∉ st) :
    Quotable false (Value.escapeString st) := by
  induction st with
  | nil => rfl
  | cons char st ih =>
      obtain ⟨hchar, hrest⟩ := not_or.mp (List.mem_cons.not.mp hnul)
      have hquotable := ih hrest
      rw [escapeString_cons]
      rcases escapeChar_cases char with ⟨letter, hescape, hletter, _⟩ | ⟨hescape, hquote, hslash⟩
      · rw [hescape]
        exact ⟨by decide, hletter, hquotable⟩
      · rw [hescape, List.singleton_append]
        exact quotable_cons (Ne.symm hchar) hquote hslash hquotable

theorem unEscapeString_escapeChar (char : Char) (st : Text) :
    Value.unEscapeString (Value.escapeChar char ++ st) = char :: Value.unEscapeString st := by
  rcases escapeChar_cases char with ⟨letter, hescape, _, hletter⟩ | ⟨hescape, _, hslash⟩
  · rw [hescape, List.cons_append, List.singleton_append, Value.unEscapeString, if_pos rfl,
      hletter]
  · rw [hescape]
    cases st with
    | nil => rfl
    | cons next st => rw [List.singleton_append, Value.unEscapeString, if_neg hslash]

/-- Printing and reading a string give it back. -/
theorem unEscapeString_escapeString (st : Text) :
    Value.unEscapeString (Value.escapeString st) = st := by
  induction st with
  | nil => rfl
  | cons char st ih =>
      rw [escapeString_cons, unEscapeString_escapeChar, ih]

/-- A text without backslash has nothing to unescape. -/
theorem unEscapeString_of_not_mem {st : Text} (hplain : '\\' ∉ st) :
    Value.unEscapeString st = st := by
  induction st with
  | nil => rfl
  | cons char st ih =>
      obtain ⟨hchar, hrest⟩ := not_or.mp (List.mem_cons.not.mp hplain)
      cases st with
      | nil => rfl
      | cons next st =>
          rw [Value.unEscapeString, if_neg (Ne.symm hchar), ih hrest]

/-! ## White space -/

/-- Removing the white space of `text`, whatever follows it, leaves `kept`. -/
def Strips (text kept : Text) : Prop :=
  ∀ rest, removeSpacesFrom 0 (text ++ rest) = (removeSpacesFrom 0 rest).map (kept ++ ·)

theorem strips_nil : Strips [] [] := by
  intro rest
  simp

theorem Strips.append {text text' kept kept' : Text} (hfirst : Strips text kept)
    (hsecond : Strips text' kept') : Strips (text ++ text') (kept ++ kept') := by
  intro rest
  rw [List.append_assoc, hfirst, hsecond, Option.map_map]
  congr 1
  funext later
  exact (List.append_assoc kept kept' later).symm

theorem strips_spaces {text : Text} (hspaces : ∀ char ∈ text, isSpace char = true) :
    Strips text [] := by
  induction text with
  | nil => exact strips_nil
  | cons char text ih =>
      intro rest
      have hspace := hspaces char List.mem_cons_self
      have hquote : char ≠ '"' := by
        rintro rfl
        exact absurd hspace (by decide)
      rw [List.cons_append, removeSpacesFrom, if_neg hquote, if_pos hspace]
      exact ih (fun later hlater => hspaces later (List.mem_cons_of_mem _ hlater)) rest

theorem strips_plain {text : Text}
    (hplain : ∀ char ∈ text, char ≠ '"' ∧ isSpace char = false) : Strips text text := by
  induction text with
  | nil => exact strips_nil
  | cons char text ih =>
      intro rest
      obtain ⟨hquote, hspace⟩ := hplain char List.mem_cons_self
      rw [List.cons_append, removeSpacesFrom, if_neg hquote, if_neg (by rw [hspace]; decide),
        ih (fun later hlater => hplain later (List.mem_cons_of_mem _ hlater)) rest, Option.map_map]
      rfl

/-- The characters of a literal are copied. -/
theorem removeSpacesFrom_copy (text rest : Text) :
    removeSpacesFrom text.length (text ++ rest) = (removeSpacesFrom 0 rest).map (text ++ ·) := by
  induction text with
  | nil => exact strips_nil rest
  | cons char text ih =>
      rw [List.length_cons, List.cons_append, removeSpacesFrom, ih, Option.map_map]
      rfl

theorem removeSpacesFrom_counted {body rest : Text} {last : Char}
    (hfind : findClosingQuote ('"' :: (body ++ [last]) ++ rest) = some (body.length + 2)) :
    removeSpacesFrom 0 ('"' :: (body ++ [last]) ++ rest) =
      (removeSpacesFrom 0 rest).map ('"' :: (body ++ [last]) ++ ·) := by
  have hcopy := removeSpacesFrom_copy (body ++ [last]) rest
  rw [List.length_append, List.length_singleton] at hcopy
  rw [List.cons_append] at hfind ⊢
  rw [removeSpacesFrom, if_pos rfl, hfind]
  change (removeSpacesFrom (body.length + 2 - 1) _).map _ = _
  rw [Nat.add_sub_assoc (by decide), hcopy, Option.map_map]
  rfl

theorem strips_quoted {text : Text} (hquotable : Quotable false text) :
    Strips (quoted text) (quoted text) :=
  fun rest => removeSpacesFrom_counted (findClosingQuote_quoted hquotable rest)

/-! ## Braces and brackets -/

/-- Two different characters that do not end or quote a text. -/
structure Brackets (opening closing : Char) : Prop where
  opening_ne_nul : opening ≠ '\x00'
  opening_ne_quote : opening ≠ '"'
  closing_ne_nul : closing ≠ '\x00'
  closing_ne_quote : closing ≠ '"'
  closing_ne_opening : closing ≠ opening

theorem curly_brackets : Brackets '\x7b' '\x7d' :=
  ⟨by decide, by decide, by decide, by decide, by decide⟩

theorem square_brackets : Brackets '[' ']' :=
  ⟨by decide, by decide, by decide, by decide, by decide⟩

/-- A scan that is inside goes over the text and comes out at the same level. -/
def Passes (opening closing : Char) (height : Nat) (text : Text) : Prop :=
  ∀ level position rest, 0 < level → level + height < 2 ^ 31 →
    closingFrom opening closing 0 level position (text ++ rest) =
      closingFrom opening closing 0 level (position + text.length) rest

section Passes

variable {opening closing : Char} {height : Nat}

theorem passes_nil : Passes opening closing height [] :=
  fun _ _ _ _ _ => rfl

theorem Passes.mono {text : Text} {higher : Nat} (hpasses : Passes opening closing height text)
    (hle : height ≤ higher) : Passes opening closing higher text :=
  fun level position rest hpos hlt => hpasses level position rest hpos (by omega)

theorem Passes.append {text text' : Text} (hfirst : Passes opening closing height text)
    (hsecond : Passes opening closing height text') :
    Passes opening closing height (text ++ text') := by
  intro level position rest hpos hlt
  rw [List.append_assoc, hfirst level _ _ hpos hlt, hsecond level _ _ hpos hlt,
    List.length_append, Nat.add_assoc]

theorem passes_plain {text : Text} (hplain : ∀ char ∈ text,
      char ≠ '\x00' ∧ char ≠ '"' ∧ char ≠ opening ∧ char ≠ closing) :
    Passes opening closing height text := by
  induction text with
  | nil => exact passes_nil
  | cons char text ih =>
      intro level position rest hpos hlt
      obtain ⟨hnul, hquote, hopening, hclosing⟩ := hplain char List.mem_cons_self
      have hrest := ih (fun later hlater => hplain later (List.mem_cons_of_mem _ hlater))
      rw [List.cons_append, closingFrom, if_neg hnul, if_neg hquote, if_neg hopening,
        if_neg hclosing, hrest level _ _ hpos hlt, List.length_cons, Nat.add_assoc,
        Nat.add_comm 1]

theorem passes_char {char : Char}
    (hplain : char ≠ '\x00' ∧ char ≠ '"' ∧ char ≠ opening ∧ char ≠ closing) :
    Passes opening closing height [char] := by
  apply passes_plain
  intro other hother
  obtain rfl := List.mem_singleton.mp hother
  exact hplain

theorem closingFrom_skip (text rest : Text) (level position : Nat) :
    closingFrom opening closing text.length level position (text ++ rest) =
      closingFrom opening closing 0 level (position + text.length) rest := by
  induction text generalizing position with
  | nil => rfl
  | cons char text ih =>
      rw [List.length_cons, List.cons_append, closingFrom, ih, Nat.add_assoc, Nat.add_comm 1]

theorem passes_quoted {text : Text} (hquotable : Quotable false text) :
    Passes opening closing height (quoted text) := by
  intro level position rest hpos hlt
  have hfind := findClosingQuote_quoted hquotable rest
  have hskip := @closingFrom_skip opening closing (text ++ ['"']) rest level (position + 1)
  rw [List.length_append, List.length_singleton] at hskip
  rw [length_quoted, quoted, List.cons_append] at *
  rw [closingFrom, if_neg (by decide), if_pos rfl, hfind]
  change closingFrom opening closing (text.length + 2 - 1) level (position + 1) _ = _
  rw [Nat.add_sub_assoc (by decide), hskip]
  congr 1
  omega

theorem passes_enclosed (hbrackets : Brackets opening closing) {text : Text}
    (hpasses : Passes opening closing height text) :
    Passes opening closing (height + 1) (opening :: (text ++ [closing])) := by
  intro level position rest hpos hlt
  rw [List.cons_append, List.append_assoc, List.singleton_append, closingFrom,
    if_neg hbrackets.opening_ne_nul, if_neg hbrackets.opening_ne_quote, if_pos rfl,
    if_pos (by omega), hpasses (level + 1) _ _ (by omega) (by omega), closingFrom,
    if_neg hbrackets.closing_ne_nul, if_neg hbrackets.closing_ne_quote,
    if_neg hbrackets.closing_ne_opening, if_pos rfl, if_neg (by omega), Nat.add_sub_cancel]
  simp only [List.length_cons, List.length_append, List.length_nil]
  congr 1
  omega

/-- The closing character of the text itself is found. -/
theorem findClosing_enclosed (hbrackets : Brackets opening closing) {text : Text}
    (hpasses : Passes opening closing height text) (hlt : height + 1 < 2 ^ 31) (rest : Text) :
    findClosing opening closing (opening :: (text ++ [closing]) ++ rest) =
      .found (text.length + 2) := by
  rw [List.cons_append, List.append_assoc, List.singleton_append, findClosing,
    if_neg (not_not.mpr rfl), hpasses 1 _ _ (by decide) (by omega), closingFrom,
    if_neg hbrackets.closing_ne_nul, if_neg hbrackets.closing_ne_quote,
    if_neg hbrackets.closing_ne_opening, if_pos rfl, if_pos rfl]
  congr 1
  omega

end Passes

end DumaisLib.JSON
