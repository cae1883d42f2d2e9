import DumaisLib.JSON.Scanning
import DumaisLib.Lib.Rfc8259

/-!
# Documents without white space

Removing the white space of a valid text leaves the text of its document; so a
text is the text of one document only.
-/

namespace DumaisLib.JSON

open DumaisLib.JSON.Parser Rfc8259

/-! ## Strings -/

theorem quotable_plain {char : Char} (isPlain : IsPlain char) {text : Text}
    (hquotable : Quotable false text) : Quotable false (char :: text) := by
  refine quotable_cons ?_ isPlain.2.1 isPlain.2.2 hquotable
  rintro rfl
  exact absurd isPlain.1 (by decide)

theorem quotable_letter (letter : Letter) {text : Text} (hquotable : Quotable false text) :
    Quotable false (letter.text ++ text) := by
  cases letter with
  | plain char isPlain => exact quotable_plain isPlain hquotable
  | short escape =>
      refine ⟨by decide, ?_⟩
      rw [if_neg (by decide), if_pos rfl]
      refine ⟨?_, hquotable⟩
      cases escape <;> decide
  | unicode first second third fourth =>
      have hdigit (digit : HexDigit) {text : Text} (hquotable : Quotable false text) :
          Quotable false (digit.val :: text) :=
        quotable_plain (isPlain_digit digit) hquotable
      refine ⟨by decide, ?_⟩
      rw [if_neg (by decide), if_pos rfl]
      exact ⟨by decide, hdigit first (hdigit second (hdigit third (hdigit fourth hquotable)))⟩

theorem quotable_body (letters : List Letter) : Quotable false (body letters) := by
  induction letters with
  | nil => rfl
  | cons letter letters ih =>
      rw [body_cons]
      exact quotable_letter letter ih

/-! ## Tokens -/

/-- The tokens that are always the same. -/
def fixedTokens : List Text :=
  [['\x7b'], ['\x7d'], ['['], [']'], [':'], [','], "true".toList, "false".toList, "null".toList]

section Tokens

variable {holds : Text → Prop} (hquoted : ∀ text, Quotable false text → holds (quoted text))
  (hnumber : ∀ text, IsNumber text → holds text) (hfixed : ∀ token ∈ fixedTokens, holds token)

include hfixed in
theorem comma_of_pieces {α : Type} (items : List α) : ∀ token ∈ comma items, holds token := by
  intro token hmem
  cases items with
  | nil => cases hmem
  | cons item items =>
      obtain rfl := List.mem_singleton.mp hmem
      exact hfixed _ (by decide)

include hquoted hfixed in
theorem memberTokens_of_pieces {members : List (List Letter × Json)}
    (hvalues : ∀ member ∈ members, ∀ token ∈ member.2.tokens, holds token) :
    ∀ token ∈ memberTokens members, holds token := by
  induction members with
  | nil => exact fun _ hmem => absurd hmem List.not_mem_nil
  | cons member members ih =>
      obtain ⟨name, value⟩ := member
      intro token hmem
      simp only [memberTokens, List.mem_cons, List.mem_append] at hmem
      rcases hmem with rfl | rfl | hmem | hmem | hmem
      · exact hquoted _ (quotable_body name)
      · exact hfixed _ (by decide)
      · exact hvalues _ List.mem_cons_self token hmem
      · exact comma_of_pieces hfixed members token hmem
      · exact ih (fun later hlater => hvalues later (List.mem_cons_of_mem _ hlater)) token hmem

include hfixed in
theorem elementTokens_of_pieces {elements : List Json}
    (helements : ∀ element ∈ elements, ∀ token ∈ element.tokens, holds token) :
    ∀ token ∈ elementTokens elements, holds token := by
  induction elements with
  | nil => exact fun _ hmem => absurd hmem List.not_mem_nil
  | cons element elements ih =>
      intro token hmem
      simp only [elementTokens, List.mem_append] at hmem
      rcases hmem with hmem | hmem | hmem
      · exact helements _ List.mem_cons_self token hmem
      · exact comma_of_pieces hfixed elements token hmem
      · exact ih (fun later hlater => helements later (List.mem_cons_of_mem _ hlater)) token hmem

include hquoted hnumber hfixed in
/-- What holds of strings, numbers and the fixed tokens holds of the tokens of every document. -/
theorem tokens_of_pieces (json : Json) : ∀ token ∈ json.tokens, holds token := by
  induction json using Json.children_induction with
  | object members ih =>
      intro token hmem
      simp only [Json.tokens, List.mem_cons, List.mem_append, List.not_mem_nil, or_false] at hmem
      rcases hmem with rfl | hmem | rfl
      · exact hfixed _ (by decide)
      · exact memberTokens_of_pieces hquoted hfixed ih token hmem
      · exact hfixed _ (by decide)
  | array elements ih =>
      intro token hmem
      simp only [Json.tokens, List.mem_cons, List.mem_append, List.not_mem_nil, or_false] at hmem
      rcases hmem with rfl | hmem | rfl
      · exact hfixed _ (by decide)
      · exact elementTokens_of_pieces hfixed ih token hmem
      · exact hfixed _ (by decide)
  | string letters =>
      intro token hmem
      obtain rfl := List.mem_singleton.mp hmem
      exact hquoted _ (quotable_body letters)
  | number text isNumber =>
      intro token hmem
      obtain rfl := List.mem_singleton.mp hmem
      exact hnumber _ isNumber
  | bool value =>
      intro token hmem
      obtain rfl := List.mem_singleton.mp hmem
      cases value
      · exact hfixed _ (by decide)
      · exact hfixed _ (by decide)
  | null =>
      intro token hmem
      obtain rfl := List.mem_singleton.mp hmem
      exact hfixed _ (by decide)

end Tokens

theorem numberChar_ne {text : Text} (hnumber : IsNumber text) {char other : Char}
    (hmem : char ∈ text) (hother : isNumberChar other = false) : char ≠ other := by
  rintro rfl
  rw [hnumber.chars char hmem] at hother
  cases hother

theorem strips_number (text : Text) (hnumber : IsNumber text) : Strips text text := by
  apply strips_plain
  intro char hmem
  refine ⟨numberChar_ne hnumber hmem rfl, ?_⟩
  simp [isSpace, numberChar_ne hnumber hmem (by rfl : isNumberChar '\t' = false),
    numberChar_ne hnumber hmem (by rfl : isNumberChar ' ' = false),
    numberChar_ne hnumber hmem (by rfl : isNumberChar '\r' = false),
    numberChar_ne hnumber hmem (by rfl : isNumberChar '\n' = false)]

theorem strips_fixed : ∀ token ∈ fixedTokens, Strips token token := by
  intro token hmem
  apply strips_plain
  have hplain : fixedTokens.all (fun token =>
      token.all fun char => char != '"' && !isSpace char) = true := by rfl
  intro char hchar
  have hok := List.all_eq_true.mp (List.all_eq_true.mp hplain token hmem) char hchar
  simpa using hok

theorem nul_not_mem_text (json : Json) : '\x00' ∉ json.text := by
  have hfixed : ∀ token ∈ fixedTokens, '\x00' ∉ token := by decide
  have htokens := @tokens_of_pieces (fun token => '\x00' ∉ token)
    (fun text hquotable => by simp [quoted, nul_not_mem_of_quotable hquotable])
    (fun text hnumber hmem => numberChar_ne hnumber hmem rfl rfl) hfixed json
  intro hmem
  obtain ⟨token, htoken, hnul⟩ := List.mem_flatten.mp hmem
  exact htokens token htoken hnul

/-! ## Texts -/

theorem strips_blank {blank : Text} (hblank : Blank blank) : Strips blank [] := by
  apply strips_spaces
  intro char hmem
  have hchar := hblank char hmem
  simp only [isBlank, Bool.or_eq_true, decide_eq_true_eq] at hchar
  rcases hchar with ((rfl | rfl) | rfl) | rfl <;> rfl

theorem strips_spaced {tokens : List Text} {text : Text} (hspaced : Spaced tokens text)
    (htokens : ∀ token ∈ tokens, Strips token token) : Strips text tokens.flatten := by
  induction hspaced with
  | nil hblank => exact strips_blank hblank
  | cons hblank _ ih =>
      have htoken := htokens _ List.mem_cons_self
      exact (strips_blank hblank).append
        (htoken.append (ih fun later hlater => htokens later (List.mem_cons_of_mem _ hlater)))

/-- What the parser gets to see of a valid text. -/
theorem removeSpaces_writtenAs {json : Json} {text : Text} (hwritten : json.WrittenAs text) :
    removeSpaces text = json.text := by
  have hstrips := strips_spaced hwritten
    (tokens_of_pieces (fun text => strips_quoted) strips_number strips_fixed json) []
  rw [List.append_nil] at hstrips
  rw [removeSpaces, hstrips, Json.text]
  simp [removeSpacesFrom]

/-- A text is the text of at most one document. -/
theorem writtenAs_unique {json json' : Json} {text : Text} (hwritten : json.WrittenAs text)
    (hwritten' : json'.WrittenAs text) : json = json' := by
  have htext : json.text ++ [] = json'.text ++ [] := by
    rw [← removeSpaces_writtenAs hwritten, removeSpaces_writtenAs hwritten']
  exact (Json.text_inj (.inl rfl) (.inl rfl) htext).1

end DumaisLib.JSON
