import DumaisLib.Lib.Chunks
import DumaisLib.WebServer.FramingInvariant

/-!
# Streams of requests

A client sends header blocks, each followed by the body that its own content
length announces.  The framing reads the content length from all that has
arrived, which may say something else.
-/

namespace DumaisLib.WebServer

open Regex HTTPFramingStrategy

/-- A line of the header block: its name, in any case, and what follows the colon. -/
def HasField (header name value : Text) : Prop :=
  ∃ before written after,
    header = before ++ ("\r\n".toList ++ (written ++ ':' :: (value ++ ("\r\n".toList ++ after)))) ∧
      Text.toLower written = Text.toLower name ∧ ∀ char ∈ value, Text.dot char

/-- A header block up to its first empty line, and the body that it announces. -/
structure Request where
  header : Text
  body : Text
  header_end : Search.find END_OF_HEADER header 0 = some (header.length - 4)
  header_le : header.length ≤ 2048
  nul_free : '\x00' ∉ header ++ body
  not_encoded : ∀ value, ¬ HasField header "Transfer-Encoding".toList value
  announced :
    (∃ spaces digits, HasField header "Content-Length".toList (spaces ++ digits) ∧
      (∀ char ∈ spaces, char = ' ') ∧ digits ≠ [] ∧ (∀ char ∈ digits, char.isDigit) ∧
      Text.digits digits = body.length) ∨
    (body = [] ∧ ∀ value, ¬ HasField header "Content-Length".toList value)

namespace Request

/-- The bytes of the request. -/
def bytes (request : Request) : Text :=
  request.header ++ request.body

variable (request : Request)

theorem four_le_header : 4 ≤ request.header.length := by
  have hend : request.header.length - 4 + 4 ≤ request.header.length :=
    Search.find_end_le request.header_end
  omega

theorem header_le_bytes : request.header.length ≤ request.bytes.length := by
  rw [bytes, List.length_append]
  exact Nat.le_add_right _ _

theorem find_header (more : Text) :
    Search.find END_OF_HEADER (request.header ++ more) 0 = some (request.header.length - 4) :=
  Search.find_append request.header_end

/-- A part of the header does not contain its end. -/
theorem find_part {part : Text} (hbegins : part <+: request.header)
    (hlt : part.length < request.header.length) : Search.find END_OF_HEADER part 0 = none := by
  cases hfound : Search.find END_OF_HEADER part 0 with
  | none => rfl
  | some eoh =>
      obtain ⟨more, hmore⟩ := hbegins
      have hsame : Search.find END_OF_HEADER (part ++ more) 0 = some eoh :=
        Search.find_append hfound
      rw [hmore, request.header_end] at hsame
      have hend : eoh + 4 ≤ part.length := Search.find_end_le hfound
      have heoh := Option.some.inj hsame
      omega

/-! ## The content length of the header -/

/-- A field of the header is found under its name. -/
theorem fits_noCase {name written : Text} (hname : Text.toLower written = Text.toLower name)
    (rest : Text) : fits (Text.noCase name) (written ++ rest) = true := by
  induction name generalizing written with
  | nil => rfl
  | cons char name ih =>
      cases written with
      | nil => cases hname
      | cons first written =>
          obtain ⟨hfirst, hrest⟩ := List.cons.inj hname
          simp only [Text.noCase, List.map_cons, List.cons_append, fits, Bool.and_eq_true,
            decide_eq_true_eq]
          exact ⟨hfirst, ih hrest⟩

theorem firstFit_isSome_of_hasField {header name value : Text}
    (hfield : HasField header name value) :
    (firstFit (Text.noCase (name ++ [':'])) header).isSome := by
  obtain ⟨before, written, after, rfl, hname, _⟩ := hfield
  have hcolon : Text.toLower (written ++ [':']) = Text.toLower (name ++ [':']) := by
    rw [Text.toLower, Text.toLower, List.map_append, List.map_append]
    exact congrArg (· ++ _) hname
  have hfits := fits_noCase hcolon (value ++ ("\r\n".toList ++ after))
  rw [List.append_assoc, List.singleton_append] at hfits
  rw [← List.append_assoc]
  exact firstFit_isSome _ hfits

/-- A header without any content length belongs to a request without body. -/
theorem body_eq_nil (hnone : firstFit contentLengthName request.header = none) :
    request.body = [] := by
  rcases request.announced with ⟨_, _, hfield, _⟩ | ⟨hbody, _⟩
  · have hsome : (firstFit contentLengthName request.header).isSome :=
      firstFit_isSome_of_hasField hfield
    rw [hnone] at hsome
    exact absurd hsome (by decide)
  · exact hbody

/-- A value that ends before the text does is the same in every longer text. -/
theorem lengthValue_append {tail : Text} (hfits : fits contentLengthName tail = true)
    (hline : '\n' ∈ tail) (more : Text) : lengthValue (tail ++ more) = lengthValue tail := by
  have hletters (char : Char → Bool) (hchar : char ∈ contentLengthName) : char '\n' = false := by
    revert char
    decide
  have hname : '\n' ∉ tail.take contentLengthName.length := by
    intro hmem
    obtain ⟨test, htest, hpass⟩ := exists_test_of_fits hfits hmem
    exact absurd hpass (by rw [hletters test htest]; decide)
  have hvalue : '\n' ∈ tail.drop contentLengthName.length := by
    rw [← List.take_append_drop contentLengthName.length tail] at hline
    exact (List.mem_append.mp hline).resolve_left hname
  have hspaces : '\n' ∈ (tail.drop contentLengthName.length).dropWhile (· = ' ') := by
    rw [← @List.takeWhile_append_dropWhile _ (fun char => decide (char = ' '))
      (tail.drop contentLengthName.length)] at hvalue
    apply (List.mem_append.mp hvalue).resolve_left
    intro hmem
    exact absurd (List.mem_takeWhile_imp hmem) (by decide)
  unfold lengthValue
  rw [List.drop_append_of_le_length (length_le_of_fits hfits)]
  generalize tail.drop contentLengthName.length = value at hspaces
  rcases dropWhile_append_prefix (fun char => decide (char = ' ')) value more with hnil | hdrop
  · rw [hnil] at hspaces
    cases hspaces
  · rw [hdrop]
    have hstop : ¬ (value.dropWhile (· = ' ')).takeWhile Text.dot = value.dropWhile (· = ' ') :=
      fun hall => absurd (List.takeWhile_eq_self_iff.mp hall _ hspaces) (by decide)
    rw [List.takeWhile_append, if_neg fun hlength =>
      hstop ((List.takeWhile_prefix _).eq_of_length hlength)]

theorem newline_mem {tail : Text} (hsuffix : tail <:+ request.header) (hne : tail ≠ []) :
    '\n' ∈ tail := by
  obtain ⟨before, hbefore⟩ := hsuffix
  obtain ⟨_, ⟨_, hbegins⟩, _⟩ := Search.find_eq_some_iff.mp request.header_end
  have hlength := request.four_le_header
  have hend : request.header.drop (request.header.length - 4) = END_OF_HEADER :=
    (hbegins.eq_of_length (by rw [List.length_drop]; change 4 = _; omega)).symm
  have hlast : request.header.getLast? = some '\n' := by
    rw [← List.take_append_drop (request.header.length - 4) request.header, hend]
    simp [END_OF_HEADER]
  rw [← hbefore, List.getLast?_append_of_ne_nil _ hne] at hlast
  exact List.mem_of_getLast? hlast

/-- Where the header has a content length, what follows the header does not matter. -/
theorem contentLength_fixed (hsome : (firstFit contentLengthName request.header).isSome)
    (more : Text) : contentLength (request.header ++ more) = contentLength request.header := by
  obtain ⟨tail, hfirst⟩ := Option.isSome_iff_exists.mp hsome
  obtain ⟨hsuffix, hfits⟩ := firstFit_suffix hfirst
  have hne : tail ≠ [] := fun hnil => absurd hfits (by rw [hnil]; decide)
  unfold contentLength
  rw [contentLengthText_eq, contentLengthText_eq, firstFit_append more hfirst, hfirst,
    Option.map_some, Option.map_some, lengthValue_append hfits (request.newline_mem hsuffix hne)]

theorem contentLength_none (hnone : firstFit contentLengthName request.header = none) :
    contentLength request.header = 0 := by
  unfold contentLength
  rw [contentLengthText_eq, hnone, Option.map_none]

end Request

end DumaisLib.WebServer
