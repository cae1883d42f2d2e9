import DumaisLib.JSON.Levels

/-!
# Texts that are cut off

A literal that is not closed ends at a NUL, and its size counts the NUL.  A scan
for a closing character that comes to such a literal at the end of its text goes
on behind the NUL.
-/

namespace DumaisLib.JSON

open DumaisLib.JSON.Parser

/-! ## Literals -/

/-- The text has no NUL and no quote but behind an escape. -/
def Unclosed (nextEscape : Bool) : Text → Prop
  | [] => True
  | char :: text =>
      char ≠ '\x00' ∧
        if nextEscape then Unclosed false text
        else if char = '\\' then Unclosed true text
        else char ≠ '"' ∧ Unclosed false text

theorem unclosed_iff {nextEscape : Bool} {text : Text} :
    Unclosed nextEscape text ↔ '\x00' ∉ text ∧ closingQuoteFrom nextEscape text = text.length := by
  induction text generalizing nextEscape with
  | nil => exact iff_of_true trivial ⟨List.not_mem_nil, rfl⟩
  | cons char text ih =>
      by_cases hnul : char = '\x00'
      · exact iff_of_false (fun hunclosed => hunclosed.1 hnul)
          fun hcount => hcount.1 (hnul ▸ List.mem_cons_self)
      · have hne : ¬ '\x00' = char := fun heq => hnul heq.symm
        rw [Unclosed, closingQuoteFrom, if_neg hnul, List.mem_cons, List.length_cons]
        cases nextEscape with
        | true => simp [ih, hnul, hne]
        | false =>
            by_cases hslash : char = '\\'
            · simp [ih, hslash]
            · by_cases hquote : char = '"'
              · simp [hquote]
              · simp [ih, hnul, hne, hslash, hquote]

theorem closingQuoteFrom_nul {nextEscape : Bool} {text : Text}
    (hunclosed : Unclosed nextEscape text) (rest : Text) :
    closingQuoteFrom nextEscape (text ++ '\x00' :: rest) = text.length := by
  induction text generalizing nextEscape with
  | nil => rfl
  | cons char text ih =>
      obtain ⟨hchar, hrest⟩ := hunclosed
      obtain ⟨next, hnext, hcount⟩ := @literal_step Unclosed nextEscape char text hchar hrest
      rw [List.cons_append, hcount, ih hnext, List.length_cons]

/-- How a literal ends: with a quote, at a NUL, or not in the text. -/
theorem literal_cases (nextEscape : Bool) (text : Text) :
    (∃ body rest, text = body ++ '"' :: rest ∧ Quotable nextEscape body) ∨
      (∃ body rest, text = body ++ '\x00' :: rest ∧ Unclosed nextEscape body) ∨
        Unclosed nextEscape text := by
  induction text generalizing nextEscape with
  | nil => exact .inr (.inr trivial)
  | cons char text ih =>
      by_cases hnul : char = '\x00'
      · exact .inr (.inl ⟨[], text, by rw [hnul]; rfl, trivial⟩)
      · by_cases hquote : nextEscape = false ∧ char = '"'
        · obtain ⟨rfl, rfl⟩ := hquote
          exact .inl ⟨[], text, rfl, rfl⟩
        · have hone (next : Bool) (hnext : next = (!nextEscape && char = '\\')) :
              (∀ body, Quotable next body → Quotable nextEscape (char :: body)) ∧
                ∀ body, Unclosed next body → Unclosed nextEscape (char :: body) := by
            cases nextEscape with
            | true =>
                obtain rfl : next = false := by simpa using hnext
                exact ⟨fun _ h => ⟨hnul, h⟩, fun _ h => ⟨hnul, h⟩⟩
            | false =>
                have hchar : char ≠ '"' := fun heq => hquote ⟨rfl, heq⟩
                by_cases hslash : char = '\\'
                · obtain rfl : next = true := by simpa [hslash] using hnext
                  exact ⟨fun _ h => ⟨hnul, by simpa [hslash] using h⟩,
                    fun _ h => ⟨hnul, by simpa [hslash] using h⟩⟩
                · obtain rfl : next = false := by simpa [hslash] using hnext
                  exact ⟨fun _ h => ⟨hnul, by simpa [hslash] using ⟨hchar, h⟩⟩,
                    fun _ h => ⟨hnul, by simpa [hslash] using ⟨hchar, h⟩⟩⟩
          obtain ⟨hquotable, hunclosed⟩ := hone _ rfl
          rcases ih (!nextEscape && char = '\\') with
            ⟨body, rest, rfl, hbody⟩ | ⟨body, rest, rfl, hbody⟩ | hopen
          · exact .inl ⟨char :: body, rest, rfl, hquotable body hbody⟩
          · exact .inr (.inl ⟨char :: body, rest, rfl, hunclosed body hbody⟩)
          · exact .inr (.inr (hunclosed text hopen))

/-- A literal with its end, which is a quote or a NUL. -/
inductive Literal (body : Text) : Text → Prop where
  | closed : Quotable false body → Literal body (quoted body)
  | cut : Unclosed false body → Literal body ('"' :: (body ++ ['\x00']))

theorem Literal.length {body text : Text} (hliteral : Literal body text) :
    text.length = body.length + 2 := by
  cases hliteral with
  | closed => exact length_quoted body
  | cut => simp

theorem Literal.findClosingQuote {body text : Text} (hliteral : Literal body text) (rest : Text) :
    findClosingQuote (text ++ rest) = some (body.length + 2) := by
  cases hliteral with
  | closed hquotable => exact findClosingQuote_quoted hquotable rest
  | cut hunclosed =>
      rw [List.cons_append, List.append_assoc, List.singleton_append, Parser.findClosingQuote,
        if_neg (by decide), closingQuoteFrom_nul hunclosed]
      congr 1
      omega

/-- A literal begins with its quote and goes on with its body. -/
theorem Literal.split {body text : Text} (hliteral : Literal body text) :
    ∃ last, text = '"' :: (body ++ [last]) := by
  cases hliteral with
  | closed => exact ⟨'"', rfl⟩
  | cut => exact ⟨'\x00', rfl⟩

theorem Literal.parseString {body text : Text} (hliteral : Literal body text) (rest : Text) :
    parseString (text ++ rest) = body := by
  have hfind := hliteral.findClosingQuote rest
  obtain ⟨last, rfl⟩ := hliteral.split
  rw [List.cons_append, List.append_assoc] at hfind ⊢
  exact parseString_counted hfind

/-! ## Texts whose literals all end -/

/-- The text is made of literals, with their ends, and other characters. -/
inductive Lexed : Text → Prop where
  | nil : Lexed []
  | char {char text} : char ≠ '"' → Lexed text → Lexed (char :: text)
  | literal {body text rest} : Literal body text → Lexed rest → Lexed (text ++ rest)

theorem Lexed.of_char {char : Char} {text : Text} (hne : char ≠ '"')
    (hlexed : Lexed (char :: text)) : Lexed text := by
  generalize hwhole : char :: text = whole at hlexed
  cases hlexed with
  | nil => cases hwhole
  | char _ hrest =>
      obtain ⟨_, rfl⟩ := List.cons.inj hwhole
      exact hrest
  | literal hliteral =>
      obtain ⟨last, rfl⟩ := hliteral.split
      exact absurd (List.cons.inj hwhole).1 hne

theorem Lexed.literal_of_quote {text : Text} (hlexed : Lexed ('"' :: text)) :
    ∃ body literal rest, '"' :: text = literal ++ rest ∧ Literal body literal ∧ Lexed rest := by
  generalize hwhole : '"' :: text = whole at hlexed
  cases hlexed with
  | nil => cases hwhole
  | char hne => exact absurd (List.cons.inj hwhole).1.symm hne
  | @literal body literal rest hliteral hrest => exact ⟨body, literal, rest, rfl, hliteral, hrest⟩

/-- Where a literal ends does not depend on what follows it. -/
theorem Lexed.of_literal {body text rest : Text} (hliteral : Literal body text)
    (hlexed : Lexed (text ++ rest)) : Lexed rest := by
  obtain ⟨last, htext⟩ := hliteral.split
  have hquote : Lexed ('"' :: (body ++ [last] ++ rest)) := by
    rw [htext] at hlexed
    exact hlexed
  obtain ⟨body', text', rest', hwhole, hliteral', hrest'⟩ := hquote.literal_of_quote
  have hsame : text ++ rest = text' ++ rest' := by
    rw [← hwhole, htext]
    rfl
  have hfind := hliteral.findClosingQuote rest
  rw [hsame, hliteral'.findClosingQuote rest'] at hfind
  have hlength : text.length = text'.length := by
    rw [hliteral.length, hliteral'.length, Option.some.inj hfind]
  rw [(List.append_inj hsame hlength).2]
  exact hrest'

theorem lexed_char_iff {char : Char} {text : Text} (hne : char ≠ '"') :
    Lexed (char :: text) ↔ Lexed text :=
  ⟨.of_char hne, .char hne⟩

theorem lexed_literal_iff {body text rest : Text} (hliteral : Literal body text) :
    Lexed (text ++ rest) ↔ Lexed rest :=
  ⟨.of_literal hliteral, .literal hliteral⟩

theorem Lexed.of_unquoted {text rest : Text} (hunquoted : '"' ∉ text)
    (hlexed : Lexed (text ++ rest)) : Lexed rest := by
  induction text with
  | nil => exact hlexed
  | cons char text ih =>
      obtain ⟨hchar, htext⟩ := not_or.mp (List.mem_cons.not.mp hunquoted)
      exact ih htext (hlexed.of_char (Ne.symm hchar))

/-- A literal at the end of the text is copied with the NUL behind it. -/
theorem removeSpacesFrom_end (text : Text) :
    removeSpacesFrom (text.length + 1) text = some (text ++ ['\x00']) := by
  induction text with
  | nil => rfl
  | cons char text ih =>
      rw [List.length_cons, removeSpacesFrom, ih]
      rfl

/-- `kept` is the text without the white space outside of its literals. -/
inductive Compacted : Text → Text → Prop where
  | nil : Compacted [] []
  | space {char text kept} : isSpace char = true → Compacted text kept →
      Compacted (char :: text) kept
  | char {char text kept} : char ≠ '"' → isSpace char = false → Compacted text kept →
      Compacted (char :: text) (char :: kept)
  | literal {body literal text kept} : Literal body literal → Compacted text kept →
      Compacted (literal ++ text) (literal ++ kept)
  | unclosed {body} : Unclosed false body → Compacted ('"' :: body) ('"' :: (body ++ ['\x00']))

theorem Compacted.lexed {text kept : Text} (hcompacted : Compacted text kept) : Lexed kept := by
  induction hcompacted with
  | nil => exact .nil
  | space _ _ ih => exact ih
  | char hquote _ _ ih => exact .char hquote ih
  | literal hliteral _ ih => exact .literal hliteral ih
  | unclosed hunclosed =>
      have hlexed := Lexed.literal (.cut hunclosed) .nil
      rwa [List.append_nil] at hlexed

theorem removeSpacesFrom_literal {body literal : Text} (hliteral : Literal body literal)
    (rest : Text) :
    removeSpacesFrom 0 (literal ++ rest) = (removeSpacesFrom 0 rest).map (literal ++ ·) := by
  have hfind := hliteral.findClosingQuote rest
  obtain ⟨last, rfl⟩ := hliteral.split
  exact removeSpacesFrom_counted hfind

theorem Compacted.removeSpaces {text kept : Text} (hcompacted : Compacted text kept) :
    removeSpaces text = kept := by
  have hfrom : removeSpacesFrom 0 text = some kept := by
    induction hcompacted with
    | nil => rfl
    | @space char text kept hspace _ ih =>
        have hquote : char ≠ '"' := by
          rintro rfl
          exact absurd hspace (by decide)
        rw [removeSpacesFrom, if_neg hquote, if_pos hspace, ih]
    | char hquote hspace _ ih =>
        rw [removeSpacesFrom, if_neg hquote, if_neg (by rw [hspace]; decide), ih]
        rfl
    | literal hliteral _ ih =>
        rw [removeSpacesFrom_literal hliteral, ih]
        rfl
    | @unclosed body hunclosed =>
        have hend := removeSpacesFrom_end body
        rw [removeSpacesFrom, if_pos rfl, Parser.findClosingQuote, if_neg (by decide),
          (unclosed_iff.mp hunclosed).2]
        change (removeSpacesFrom (1 + body.length + 1 - 1) body).map _ = _
        rw [Nat.add_sub_cancel, Nat.add_comm 1, hend]
        rfl
  rw [Parser.removeSpaces, hfrom]
  rfl

theorem exists_compacted (text : Text) : ∃ kept, Compacted text kept := by
  generalize hsize : text.length = size
  induction size using Nat.strongRecOn generalizing text with
  | ind size ih =>
      subst hsize
      cases text with
      | nil => exact ⟨[], .nil⟩
      | cons char text =>
          have hnext {literal body : Text} (hliteral : Literal body literal) (rest : Text)
              (hsplit : char :: text = literal ++ rest) : ∃ kept, Compacted (char :: text) kept := by
            have hlength := congrArg List.length hsplit
            rw [List.length_append, hliteral.length] at hlength
            obtain ⟨kept, hkept⟩ := ih rest.length (by omega) rest rfl
            rw [hsplit]
            exact ⟨literal ++ kept, .literal hliteral hkept⟩
          by_cases hquote : char = '"'
          · subst hquote
            rcases literal_cases false text with
              ⟨body, rest, rfl, hbody⟩ | ⟨body, rest, rfl, hbody⟩ | hopen
            · exact hnext (.closed hbody) rest (by simp [quoted])
            · exact hnext (.cut hbody) rest (by simp)
            · exact ⟨_, .unclosed hopen⟩
          · obtain ⟨kept, hkept⟩ := ih text.length (Nat.lt_succ_self _) text rfl
            cases hspace : isSpace char with
            | true => exact ⟨kept, .space hspace hkept⟩
            | false => exact ⟨char :: kept, .char hquote hspace hkept⟩

theorem compacted_removeSpaces (text : Text) : Compacted text (removeSpaces text) := by
  obtain ⟨kept, hkept⟩ := exists_compacted text
  rw [hkept.removeSpaces]
  exact hkept

/-! ## Scans that go too far -/

/-- The text has gone from an opening character to where `level` pairs are open. -/
inductive Inside (opening closing : Char) : Nat → Text → Prop where
  | start : Inside opening closing 1 [opening]
  | literal {level text body} : Inside opening closing level text → Quotable false body →
      Inside opening closing level (text ++ quoted body)
  | opening {level text} : Inside opening closing level text → level + 1 < 2 ^ 31 →
      Inside opening closing (level + 1) (text ++ [opening])
  | closing {level text} : Inside opening closing (level + 2) text →
      Inside opening closing (level + 1) (text ++ [closing])
  | char {level text char} : Inside opening closing level text →
      char ≠ '\x00' ∧ char ≠ '"' ∧ char ≠ opening ∧ char ≠ closing →
      Inside opening closing level (text ++ [char])

/-- The text is a pair and what stands between its characters. -/
def Enclosed (opening closing : Char) (text : Text) : Prop :=
  ∃ before, text = before ++ [closing] ∧ Inside opening closing 1 before

/-- A literal inside the pair is cut off by the end of the text. -/
def CutOff (opening closing : Char) (text : Text) : Prop :=
  ∃ level before body, text = before ++ '"' :: body ∧ Inside opening closing level before ∧
    Unclosed false body

/-- As many pairs are open as an `int` can count, and one more begins. -/
def TooDeep (opening closing : Char) (text : Text) : Prop :=
  ∃ before rest, text = before ++ opening :: rest ∧ Inside opening closing (2 ^ 31 - 1) before

section Inside

variable {opening closing : Char} {level : Nat} {text : Text}

theorem Inside.bounds (hinside : Inside opening closing level text) :
    0 < level ∧ level < 2 ^ 31 := by
  induction hinside with
  | start => exact ⟨by decide, by decide⟩
  | literal _ _ ih => exact ih
  | opening _ hfits _ => exact ⟨Nat.succ_pos _, hfits⟩
  | closing _ ih => omega
  | char _ _ ih => exact ih

theorem Inside.head (hinside : Inside opening closing level text) :
    ∃ rest, text = opening :: rest := by
  induction hinside with
  | start => exact ⟨[], rfl⟩
  | literal _ _ ih =>
      obtain ⟨rest, rfl⟩ := ih
      exact ⟨_, rfl⟩
  | opening _ _ ih =>
      obtain ⟨rest, rfl⟩ := ih
      exact ⟨_, rfl⟩
  | closing _ ih =>
      obtain ⟨rest, rfl⟩ := ih
      exact ⟨_, rfl⟩
  | char _ _ ih =>
      obtain ⟨rest, rfl⟩ := ih
      exact ⟨_, rfl⟩

theorem Inside.nul_not_mem (hbrackets : Brackets opening closing)
    (hinside : Inside opening closing level text) : '\x00' ∉ text := by
  have happend {before after : Text} (hbefore : '\x00' ∉ before) (hafter : '\x00' ∉ after) :
      '\x00' ∉ before ++ after :=
    fun hmem => (List.mem_append.mp hmem).elim hbefore hafter
  have hsingle {char : Char} (hne : char ≠ '\x00') : '\x00' ∉ [char] :=
    fun hmem => hne (List.mem_singleton.mp hmem).symm
  induction hinside with
  | start => exact hsingle hbrackets.opening_ne_nul
  | literal _ hbody ih =>
      refine happend ih ?_
      have hnul := nul_not_mem_of_quotable hbody
      simp [quoted, hnul]
  | opening _ _ ih => exact happend ih (hsingle hbrackets.opening_ne_nul)
  | closing _ ih => exact happend ih (hsingle hbrackets.closing_ne_nul)
  | char _ hplain ih => exact happend ih (hsingle hplain.1)

theorem Inside.lexed_append (hbrackets : Brackets opening closing)
    (hinside : Inside opening closing level text) (rest : Text) :
    Lexed (text ++ rest) ↔ Lexed rest := by
  induction hinside generalizing rest with
  | start => exact lexed_char_iff hbrackets.opening_ne_quote
  | literal _ hbody ih =>
      rw [List.append_assoc, ih]
      exact lexed_literal_iff (.closed hbody)
  | opening _ _ ih =>
      rw [List.append_assoc, ih]
      exact lexed_char_iff hbrackets.opening_ne_quote
  | closing _ ih =>
      rw [List.append_assoc, ih]
      exact lexed_char_iff hbrackets.closing_ne_quote
  | char _ hplain ih =>
      rw [List.append_assoc, ih]
      exact lexed_char_iff hplain.2.1

/-- The scan has come to where the text inside ends. -/
theorem Inside.findClosing (hbrackets : Brackets opening closing)
    (hinside : Inside opening closing level text) (rest : Text) :
    findClosing opening closing (text ++ rest) =
      closingFrom opening closing 0 level text.length rest := by
  induction hinside generalizing rest with
  | start => rw [List.singleton_append, Parser.findClosing, if_neg (not_not.mpr rfl)]; rfl
  | @literal level text body hbefore hbody ih =>
      obtain ⟨hpos, hlt⟩ := hbefore.bounds
      have hpasses : Passes opening closing 0 (quoted body) := passes_quoted hbody
      rw [List.append_assoc, ih, hpasses level text.length rest hpos hlt, List.length_append]
  | opening hbefore hfits ih =>
      rw [List.append_assoc, ih, List.singleton_append, closingFrom,
        if_neg hbrackets.opening_ne_nul, if_neg hbrackets.opening_ne_quote, if_pos rfl,
        if_pos hfits, List.length_append, List.length_singleton]
  | closing hbefore ih =>
      rw [List.append_assoc, ih, List.singleton_append, closingFrom,
        if_neg hbrackets.closing_ne_nul, if_neg hbrackets.closing_ne_quote,
        if_neg hbrackets.closing_ne_opening, if_pos rfl, if_neg (by omega), List.length_append,
        List.length_singleton]
      rfl
  | @char level text char hbefore hplain ih =>
      obtain ⟨hpos, hlt⟩ := hbefore.bounds
      have hpasses : Passes opening closing 0 [char] := passes_char hplain
      rw [List.append_assoc, ih, hpasses level text.length rest hpos hlt, List.length_append]

theorem Inside.findClosing_end (hbrackets : Brackets opening closing)
    (hinside : Inside opening closing level text) : Parser.findClosing opening closing text = .npos := by
  have hfind := hinside.findClosing hbrackets []
  rwa [List.append_nil] at hfind

theorem Enclosed.findClosing (hbrackets : Brackets opening closing)
    (henclosed : Enclosed opening closing text) (rest : Text) :
    Parser.findClosing opening closing (text ++ rest) = .found text.length := by
  obtain ⟨before, rfl, hinside⟩ := henclosed
  rw [List.append_assoc, hinside.findClosing hbrackets, List.singleton_append, closingFrom,
    if_neg hbrackets.closing_ne_nul, if_neg hbrackets.closing_ne_quote,
    if_neg hbrackets.closing_ne_opening, if_pos rfl, if_pos rfl, List.length_append,
    List.length_singleton]

/-- A scan that skips more than the text goes on behind its end. -/
theorem closingFrom_behind (text : Text) (level position : Nat) :
    closingFrom opening closing (text.length + 1) level position text = .fault := by
  induction text generalizing position with
  | nil => rfl
  | cons char text ih => exact ih (position + 1)

theorem CutOff.findClosing (hbrackets : Brackets opening closing)
    (hcut : CutOff opening closing text) : Parser.findClosing opening closing text = .fault := by
  obtain ⟨level, before, body, rfl, hinside, hunclosed⟩ := hcut
  have hquote : findClosingQuote ('"' :: body) = some (body.length + 1 + 1) := by
    rw [findClosingQuote, if_neg (not_not.mpr rfl), (unclosed_iff.mp hunclosed).2, Nat.add_comm 1]
  rw [hinside.findClosing hbrackets, closingFrom, if_neg (by decide), if_pos rfl, hquote]
  exact closingFrom_behind body level _

theorem TooDeep.findClosing (hbrackets : Brackets opening closing)
    (hdeep : TooDeep opening closing text) : Parser.findClosing opening closing text = .fault := by
  obtain ⟨before, rest, rfl, hinside⟩ := hdeep
  rw [hinside.findClosing hbrackets, closingFrom, if_neg hbrackets.opening_ne_nul,
    if_neg hbrackets.opening_ne_quote, if_pos rfl, if_neg (by decide)]

/-- What a scan finds in a text without NUL, or where it fails. -/
theorem scan_cases {before : Text} (hinside : Inside opening closing level before)
    {rest : Text} (hnul : '\x00' ∉ rest) :
    (∃ piece more, before ++ rest = piece ++ more ∧ Enclosed opening closing piece) ∨
      (∃ level, Inside opening closing level (before ++ rest)) ∨
        CutOff opening closing (before ++ rest) ∨ TooDeep opening closing (before ++ rest) := by
  generalize hsize : rest.length = size
  induction size using Nat.strongRecOn generalizing level before rest with
  | ind size ih =>
      subst hsize
      cases rest with
      | nil => exact .inr (.inl ⟨level, by rwa [List.append_nil]⟩)
      | cons char rest =>
          obtain ⟨hchar, hrest⟩ := not_or.mp (List.mem_cons.not.mp hnul)
          have hlast : before ++ char :: rest = before ++ [char] ++ rest := by
            rw [List.append_assoc, List.singleton_append]
          have hnext {level : Nat} (hinside : Inside opening closing level (before ++ [char])) :=
            ih rest.length (Nat.lt_succ_self _) hinside hrest rfl
          by_cases hquote : char = '"'
          · subst hquote
            rcases literal_cases false rest with
              ⟨body, more, rfl, hbody⟩ | ⟨body, more, rfl, _⟩ | hopen
            · have hsplit : before ++ '"' :: (body ++ '"' :: more) =
                  before ++ quoted body ++ more := by
                simp [quoted]
              have hmore : '\x00' ∉ more := fun hmem =>
                hrest (List.mem_append_right _ (List.mem_cons_of_mem _ hmem))
              rw [hsplit]
              exact ih more.length (by simp; omega) (.literal hinside hbody) hmore rfl
            · exact absurd (List.mem_append_right _ List.mem_cons_self) hrest
            · exact .inr (.inr (.inl ⟨level, before, rest, rfl, hinside, hopen⟩))
          · rw [hlast]
            by_cases hopening : char = opening
            · subst hopening
              by_cases hfits : level + 1 < 2 ^ 31
              · exact hnext (.opening hinside hfits)
              · obtain rfl : level = 2 ^ 31 - 1 := by
                  have hbounds := hinside.bounds
                  omega
                exact .inr (.inr (.inr ⟨before, rest, hlast.symm, hinside⟩))
            · by_cases hclosing : char = closing
              · subst hclosing
                obtain ⟨hpos, _⟩ := hinside.bounds
                obtain ⟨below, rfl⟩ := Nat.exists_eq_add_of_le' hpos
                cases below with
                | zero => exact .inl ⟨before ++ [char], rest, rfl, before, rfl, hinside⟩
                | succ below => exact hnext (.closing hinside)
              · exact hnext (.char hinside ⟨Ne.symm hchar, hquote, hopening, hclosing⟩)

end Inside

end DumaisLib.JSON
