import DumaisLib.JSON.Overruns
import DumaisLib.JSON.Paths
import Mathlib.Data.List.TakeDrop

/-!
# The names in a tree

The names that the parser takes have no NUL, and those from a text without NUL
can stand between quotes.  A text has no NUL when it is printed from names and
values without.
-/

namespace DumaisLib.JSON

open Machine DumaisLib.JSON.Parser

/-- What holds of every name, at every level. -/
abbrev Node.NamesAre (holds : Text → Prop) : Node → Prop :=
  Node.Everywhere holds fun _ _ => True

/-- A NUL stands at the end only. -/
def NulLast (text : Text) : Prop :=
  '\x00' ∉ text.dropLast

theorem nulLast_of_not_mem {text : Text} (hnul : '\x00' ∉ text) : NulLast text :=
  fun hmem => hnul (List.dropLast_subset _ hmem)

theorem NulLast.take {text : Text} (hlast : NulLast text) (count : Nat) :
    NulLast (text.take count) := by
  rw [NulLast, List.dropLast_take_eq_take_dropLast]
  exact fun hmem => hlast (List.mem_of_mem_take hmem)

theorem NulLast.drop {text : Text} (hlast : NulLast text) (count : Nat) :
    NulLast (text.drop count) := by
  rw [NulLast, List.dropLast_drop_eq_drop_dropLast]
  exact fun hmem => hlast (List.mem_of_mem_drop hmem)

theorem nulLast_nil : NulLast [] :=
  List.not_mem_nil

/-- A name without NUL, which can stand between quotes when the text is clean. -/
def IsName (clean : Prop) (key : Text) : Prop :=
  '\x00' ∉ key ∧ (clean → Quotable false key)

theorem NulLast.parseString {str : Text} (hlast : NulLast str) : NulLast (parseString str) := by
  rw [Parser.parseString]
  split
  · exact nulLast_nil
  · split
    · exact nulLast_nil
    · exact (hlast.drop 1).take _

theorem NulLast.getValue {str : Text} {p : JSONProperty} (hlast : NulLast str)
    (hvalue : getValue str = some p) : NulLast p.value := by
  have henclosed (type : JSONType) (scan : Scan) (hscan : enclosed str type scan = some p) :
      NulLast p.value := by
    cases scan with
    | fault => cases hscan
    | npos =>
        obtain rfl := Option.some.inj hscan
        exact nulLast_nil
    | found size =>
        obtain rfl := Option.some.inj hscan
        exact hlast.take size
  cases str with
  | nil =>
      obtain rfl := Option.some.inj hvalue
      exact nulLast_nil
  | cons char str =>
      simp only [Parser.getValue] at hvalue
      split at hvalue
      · exact henclosed _ _ hvalue
      · split at hvalue
        · exact henclosed _ _ hvalue
        · split at hvalue
          · obtain rfl := Option.some.inj hvalue
            exact hlast.parseString
          · split at hvalue
            · split at hvalue
              · obtain rfl := Option.some.inj hvalue
                exact (by decide : '\x00' ∉ "\x7billegal\x7d".toList.dropLast)
              · obtain rfl := Option.some.inj hvalue
                rw [parseNakedValue, List.takeWhile_eq_take_findIdx_not]
                exact hlast.take _
            · obtain rfl := Option.some.inj hvalue
              exact nulLast_nil

/-- A pair that is found is a name, a colon behind it and a value. -/
theorem getPair_parts {str : Text} {p : Pair} (hpair : getPair str = some p)
    (hvalid : p.val.type ≠ .JSON_Invalid) :
    p.key = parseString str ∧ charAt str ((parseString str).length + 2) = some ':' ∧
      getValue (Text.cstr (str.drop ((parseString str).length + 3))) = some p.val := by
  rw [getPair] at hpair
  split at hpair
  · obtain rfl := Option.some.inj hpair
    exact absurd rfl hvalid
  · cases hchar : charAt str ((parseString str).length + 2) with
    | none => simp [hchar] at hpair
    | some char =>
        simp only [hchar] at hpair
        split at hpair
        · obtain rfl := Option.some.inj hpair
          exact absurd rfl hvalid
        · rename_i hcolon
          cases hvalue : getValue (Text.cstr (str.drop ((parseString str).length + 3))) with
          | none => simp [hvalue] at hpair
          | some val =>
              simp only [hvalue] at hpair
              obtain rfl := Option.some.inj hpair
              exact ⟨rfl, congrArg some (not_not.mp hcolon), rfl⟩

/-- A literal that ends at the end of its text is not followed by a colon. -/
theorem parseString_isName {buf : Text}
    (hcolon : charAt ('"' :: buf) ((parseString ('"' :: buf)).length + 2) = some ':') :
    IsName (NulLast ('"' :: buf)) (parseString ('"' :: buf)) := by
  rcases literal_cases false buf with ⟨body, rest, rfl, hbody⟩ | ⟨body, rest, rfl, hbody⟩ | hopen
  · have hparsed : parseString ('"' :: (body ++ '"' :: rest)) = body := by
      have hquoted := parseString_quoted hbody rest
      rwa [quoted, List.cons_append, List.append_assoc] at hquoted
    rw [hparsed]
    exact ⟨nul_not_mem_of_quotable hbody, fun _ => hbody⟩
  · have hparsed : parseString ('"' :: (body ++ '\x00' :: rest)) = body := by
      have hcut := (Literal.cut hbody).parseString rest
      rwa [List.cons_append, List.append_assoc] at hcut
    rw [hparsed] at hcolon ⊢
    refine ⟨(unclosed_iff.mp hbody).1, fun hlast => ?_⟩
    cases rest with
    | cons char rest =>
        refine (hlast ?_).elim
        rw [List.dropLast_cons_of_ne_nil (by simp), List.dropLast_append_cons]
        simp
    | nil =>
        have hend : body.length + 2 = ('"' :: (body ++ ['\x00'])).length := by simp
        rw [charAt, if_neg (by omega), if_pos hend] at hcolon
        cases hcolon
  · have hfind : findClosingQuote ('"' :: (buf ++ [])) = some (buf.length + 2) := by
      rw [List.append_nil, findClosingQuote, if_neg (not_not.mpr rfl), (unclosed_iff.mp hopen).2]
      congr 1
      omega
    have hparsed := parseString_counted hfind
    rw [List.append_nil] at hparsed
    have hbehind : ¬ buf.length + 2 < ('"' :: buf).length ∧ buf.length + 2 ≠ ('"' :: buf).length := by
      rw [List.length_cons]
      omega
    rw [hparsed, charAt, if_neg hbehind.1, if_neg hbehind.2] at hcolon
    cases hcolon

/-- The name and the value of a pair that is found. -/
theorem getPair_isName {str : Text} {p : Pair} (hpair : getPair str = some p)
    (hvalid : p.val.type ≠ .JSON_Invalid) : IsName (NulLast str) p.key ∧ NulLast p.val.value := by
  obtain ⟨hkey, hcolon, hvalue⟩ := getPair_parts hpair hvalid
  refine ⟨?_, (nulLast_of_not_mem (nul_not_mem_cstr _)).getValue hvalue⟩
  rw [hkey]
  cases str with
  | nil => exact ⟨List.not_mem_nil, fun _ => rfl⟩
  | cons quote buf =>
      by_cases hquote : quote = '"'
      · subst hquote
        exact parseString_isName hcolon
      · have hnone : parseString (quote :: buf) = [] := by
          rw [parseString, findClosingQuote, if_pos hquote]
        rw [hnone]
        exact ⟨List.not_mem_nil, fun _ => rfl⟩

/-! ## Parsed trees -/

/-- What calls with this fuel make of texts. -/
structure NamesMade (clean : Prop) (fuel : Nat) : Prop where
  newNode : ∀ p node, (clean → NulLast p.value) → newNode fuel p = .finished node →
    node.NamesAre (IsName clean)
  parseObject : ∀ str node, (clean → NulLast str) → parseObject fuel str = .finished node →
    node.NamesAre (IsName clean)
  parseList : ∀ str node, (clean → NulLast str) → parseList fuel str = .finished node →
    node.NamesAre (IsName clean)
  parseMembers : ∀ done tmp node, (Node.Object done).NamesAre (IsName clean) →
    (clean → NulLast tmp) → parseMembers fuel done tmp = .finished node →
    node.NamesAre (IsName clean)
  parseElements : ∀ done tmp node, (Node.List done).NamesAre (IsName clean) →
    (clean → NulLast tmp) → parseElements fuel done tmp = .finished node →
    node.NamesAre (IsName clean)

theorem behind_next {clean : Prop} {tmp tmp' : Text} {size : Nat} (hlast : clean → NulLast tmp)
    (hbehind : behind tmp size = some (.next tmp')) : clean → NulLast tmp' := by
  intro hclean
  obtain ⟨char, -, hnext⟩ := Option.map_eq_some_iff.mp hbehind
  split at hnext
  · obtain rfl := Behind.next.inj hnext
    exact (hlast hclean).drop _
  · cases hnext

theorem NamesMade.next {clean : Prop} {fuel : Nat} (hmade : NamesMade clean fuel) :
    NamesMade clean (fuel + 1) where
  newNode p node hlast hfinished := by
    rw [JSON.newNode] at hfinished
    split at hfinished
    · exact hmade.parseObject _ _ hlast hfinished
    · exact hmade.parseList _ _ hlast hfinished
    · obtain rfl := Outcome.finished.inj hfinished
      exact .value trivial
  parseObject str node hlast hfinished := by
    have hempty : (Node.Object []).NamesAre (IsName clean) :=
      .object (List.forall_mem_nil _) (List.forall_mem_nil _)
    cases str with
    | nil =>
        obtain rfl := Outcome.finished.inj hfinished
        exact hempty
    | cons char str =>
        rw [JSON.parseObject] at hfinished
        split at hfinished
        · obtain rfl := Outcome.finished.inj hfinished
          exact hempty
        · exact hmade.parseMembers _ _ _ hempty (fun hclean => (hlast hclean).drop 1) hfinished
  parseList str node hlast hfinished := by
    have hempty : (Node.List []).NamesAre (IsName clean) := .list (List.forall_mem_nil _)
    cases str with
    | nil =>
        obtain rfl := Outcome.finished.inj hfinished
        exact hempty
    | cons char str =>
        rw [JSON.parseList] at hfinished
        split at hfinished
        · obtain rfl := Outcome.finished.inj hfinished
          exact hempty
        · exact hmade.parseElements _ _ _ hempty (fun hclean => (hlast hclean).drop 1) hfinished
  parseMembers done tmp node hdone hlast hfinished := by
    rw [JSON.parseMembers] at hfinished
    split at hfinished
    · obtain rfl := Outcome.finished.inj hfinished
      exact hdone
    · split at hfinished
      · cases hfinished
      · rename_i p hpair
        split at hfinished
        · obtain rfl := Outcome.finished.inj hfinished
          exact hdone
        · rename_i hvalid
          obtain ⟨hname, hvalue⟩ := getPair_isName hpair hvalid
          split at hfinished
          · cases hfinished
          · cases hfinished
          · rename_i child hchild
            have hadded := everywhere_assign hdone
              (⟨hname.1, fun hclean => hname.2 (hlast hclean)⟩ : IsName clean p.key)
              (hmade.newNode _ _ (fun _ => hvalue) hchild)
            split at hfinished
            · cases hfinished
            · obtain rfl := Outcome.finished.inj hfinished
              exact hadded
            · rename_i hbehind
              exact hmade.parseMembers _ _ _ hadded (behind_next hlast hbehind) hfinished
  parseElements done tmp node hdone hlast hfinished := by
    rw [JSON.parseElements] at hfinished
    split at hfinished
    · obtain rfl := Outcome.finished.inj hfinished
      exact hdone
    · split at hfinished
      · cases hfinished
      · rename_i p hvalue
        split at hfinished
        · obtain rfl := Outcome.finished.inj hfinished
          exact hdone
        · split at hfinished
          · cases hfinished
          · cases hfinished
          · rename_i child hchild
            have hnode := hmade.newNode _ _
              (fun hclean => (hlast hclean).getValue hvalue) hchild
            have hadded := everywhere_append hdone hnode
            split at hfinished
            · cases hfinished
            · obtain rfl := Outcome.finished.inj hfinished
              exact hadded
            · rename_i hbehind
              exact hmade.parseElements _ _ _ hadded (behind_next hlast hbehind) hfinished

theorem namesMade (clean : Prop) (fuel : Nat) : NamesMade clean fuel := by
  induction fuel with
  | zero =>
      constructor
      · intro p node _ hfinished
        cases hfinished
      · intro str node _ hfinished
        cases hfinished
      · intro str node _ hfinished
        cases hfinished
      · intro done tmp node _ _ hfinished
        cases hfinished
      · intro done tmp node _ _ hfinished
        cases hfinished
  | succ fuel ih => exact ih.next

theorem nulLast_removeSpacesFrom {str kept : Text} {copy : Nat} (hnul : '\x00' ∉ str)
    (hkept : removeSpacesFrom copy str = some kept) : NulLast kept := by
  induction str generalizing copy kept with
  | nil =>
      cases copy <;> obtain rfl := Option.some.inj hkept <;> exact List.not_mem_nil
  | cons char str ih =>
      obtain ⟨hchar, hrest⟩ := not_or.mp (List.mem_cons.not.mp hnul)
      have hcons (copy : Nat) (hmap : (removeSpacesFrom copy str).map (char :: ·) = some kept) :
          NulLast kept := by
        obtain ⟨later, hlater, rfl⟩ := Option.map_eq_some_iff.mp hmap
        have hlast := ih hrest hlater
        cases later with
        | nil => exact List.not_mem_nil
        | cons next later =>
            rw [NulLast, List.dropLast_cons_cons]
            exact List.not_mem_cons_of_ne_of_not_mem hchar hlast
      cases copy with
      | succ copy => exact hcons copy hkept
      | zero =>
          rw [removeSpacesFrom] at hkept
          split at hkept
          · split at hkept
            · cases hkept
            · exact hcons _ hkept
          · split at hkept
            · exact ih hrest hkept
            · exact hcons 0 hkept

/-- The names that the parser takes. -/
theorem parse_names {json : Text} {node : Node} (hparse : parse json = .finished node) :
    node.NamesAre (IsName ('\x00' ∉ json)) := by
  refine (namesMade _ _).parseObject _ _ (fun hnul => ?_) hparse
  rw [removeSpaces]
  cases hkept : removeSpacesFrom 0 json with
  | none => exact nulLast_nil
  | some kept => exact nulLast_removeSpacesFrom hnul hkept

end DumaisLib.JSON
