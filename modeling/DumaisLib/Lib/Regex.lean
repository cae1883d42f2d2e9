import Mathlib.Data.List.Infix
import Mathlib.Data.List.TakeWhile

/-!
# Patterns of single items, matched by backtracking

A pattern is a sequence of pieces, each a test on single items that is used
once, optionally or repeatedly.  Repetition is greedy and gives items back one
by one when the rest of the pattern fails, as in ECMAScript regular expressions;
a repeated piece may be captured.
-/

namespace Regex

variable {α : Type*}

inductive Piece (α : Type*) where
  | one (test : α → Bool)
  | optional (test : α → Bool)
  | many (test : α → Bool) (captured : Bool)

/-- The captured runs in order, and the items after the match. -/
structure Hit (α : Type*) where
  captures : List (List α)
  rest : List α

/-- The first success among `count`, `count - 1`, …, `0`. -/
def longestFirst {β : Type*} (attempt : Nat → Option β) : Nat → Option β
  | 0 => attempt 0
  | count + 1 => (attempt (count + 1)).orElse fun _ => longestFirst attempt count

/-- The first match of the pattern at the start of the items. -/
def matchHere : List (Piece α) → List α → Option (Hit α)
  | [], items => some ⟨[], items⟩
  | .one test :: pieces, items =>
      match items with
      | [] => none
      | item :: items => if test item then matchHere pieces items else none
  | .optional test :: pieces, items =>
      longestFirst (fun count => matchHere pieces (items.drop count))
        ((items.take 1).takeWhile test).length
  | .many test captured :: pieces, items =>
      longestFirst
        (fun count => (matchHere pieces (items.drop count)).map fun hit =>
          if captured then ⟨items.take count :: hit.captures, hit.rest⟩ else hit)
        (items.takeWhile test).length

/-- The match at the leftmost possible position. -/
def search (pieces : List (Piece α)) : List α → Option (Hit α)
  | [] => matchHere pieces []
  | item :: items =>
      match matchHere pieces (item :: items) with
      | some hit => some hit
      | none => search pieces items

/-! ## Fixed beginnings -/

/-- The first items pass the tests one by one. -/
def fits : List (α → Bool) → List α → Bool
  | [], _ => true
  | _ :: _, [] => false
  | test :: tests, item :: items => test item && fits tests items

/-- The first suffix whose beginning passes the tests. -/
def firstFit (tests : List (α → Bool)) : List α → Option (List α)
  | [] => if fits tests [] then some [] else none
  | item :: items =>
      if fits tests (item :: items) then some (item :: items) else firstFit tests items

theorem length_le_of_fits {tests : List (α → Bool)} {items : List α}
    (hfits : fits tests items = true) : tests.length ≤ items.length := by
  induction tests generalizing items with
  | nil => exact Nat.zero_le _
  | cons test tests ih =>
      cases items with
      | nil => exact absurd hfits (by simp [fits])
      | cons item items =>
          have hrest := ih (Bool.and_eq_true_iff.mp hfits).2
          simpa using hrest

theorem fits_append {tests : List (α → Bool)} {items : List α} (more : List α)
    (hlength : tests.length ≤ items.length) : fits tests (items ++ more) = fits tests items := by
  induction tests generalizing items with
  | nil => rfl
  | cons test tests ih =>
      cases items with
      | nil => exact absurd hlength (by simp)
      | cons item items =>
          simp only [List.cons_append, fits]
          rw [ih (by simpa using hlength)]

theorem firstFit_suffix {tests : List (α → Bool)} {items tail : List α}
    (hfirst : firstFit tests items = some tail) :
    tail <:+ items ∧ fits tests tail = true := by
  induction items with
  | nil =>
      unfold firstFit at hfirst
      split at hfirst
      · obtain rfl := Option.some.inj hfirst
        exact ⟨List.suffix_refl _, by assumption⟩
      · cases hfirst
  | cons item items ih =>
      unfold firstFit at hfirst
      split at hfirst
      · obtain rfl := Option.some.inj hfirst
        exact ⟨List.suffix_refl _, by assumption⟩
      · obtain ⟨hsuffix, hfits⟩ := ih hfirst
        exact ⟨hsuffix.trans (List.suffix_cons _ _), hfits⟩

/-- What is found stays found when the list grows at its end. -/
theorem firstFit_append {tests : List (α → Bool)} {items tail : List α} (more : List α)
    (hfirst : firstFit tests items = some tail) :
    firstFit tests (items ++ more) = some (tail ++ more) := by
  induction items with
  | nil =>
      obtain ⟨hsuffix, hfits⟩ := firstFit_suffix hfirst
      obtain rfl := List.suffix_nil.mp hsuffix
      have htests : tests = [] := List.eq_nil_of_length_eq_zero
        (Nat.le_zero.mp (length_le_of_fits hfits))
      subst htests
      cases more <;> rfl
  | cons item items ih =>
      have hlength : tests.length ≤ (item :: items).length := by
        obtain ⟨hsuffix, hfits⟩ := firstFit_suffix hfirst
        exact (length_le_of_fits hfits).trans hsuffix.length_le
      have hsame := fits_append more hlength
      unfold firstFit at hfirst
      rw [List.cons_append] at hsame ⊢
      unfold firstFit
      rw [hsame]
      split at hfirst
      · rename_i hfits
        obtain rfl := Option.some.inj hfirst
        rw [if_pos hfits, List.cons_append]
      · rename_i hfits
        rw [if_neg hfits]
        exact ih hfirst

/-- Where the beginning fits, a first suffix that fits is found. -/
theorem firstFit_isSome {tests : List (α → Bool)} {items : List α} (before : List α)
    (hfits : fits tests items = true) : (firstFit tests (before ++ items)).isSome := by
  induction before with
  | nil => cases items <;> simp [firstFit, hfits]
  | cons item before ih =>
      rw [List.cons_append, firstFit]
      split
      · rfl
      · exact ih

/-- Each of the items that the tests cover passes one of them. -/
theorem exists_test_of_fits {tests : List (α → Bool)} {items : List α} {item : α}
    (hfits : fits tests items = true) (hitem : item ∈ items.take tests.length) :
    ∃ test ∈ tests, test item = true := by
  induction tests generalizing items with
  | nil => simp at hitem
  | cons test tests ih =>
      cases items with
      | nil => simp at hitem
      | cons first items =>
          obtain ⟨hfirst, hrest⟩ := Bool.and_eq_true_iff.mp hfits
          rcases List.mem_cons.mp hitem with rfl | hlater
          · exact ⟨test, List.mem_cons_self, hfirst⟩
          · obtain ⟨later, hmem, htest⟩ := ih hrest hlater
            exact ⟨later, List.mem_cons_of_mem _ hmem, htest⟩

/-- What an item that passes no test stands behind is not looked at again. -/
theorem firstFit_behind {tests : List (α → Bool)} {before items : List α} {stop : α}
    (htests : tests ≠ []) (hstop : ∀ test ∈ tests, test stop = false)
    (hnone : firstFit tests before = none) :
    firstFit tests (before ++ stop :: items) = firstFit tests items := by
  induction before with
  | nil =>
      have hfits : ¬ fits tests (stop :: items) = true := by
        cases tests with
        | nil => exact absurd rfl htests
        | cons test tests => simp [fits, hstop test List.mem_cons_self]
      exact if_neg hfits
  | cons item before ih =>
      rw [firstFit] at hnone
      split at hnone
      · cases hnone
      · rename_i hbefore
        have hfits : ¬ fits tests (item :: before ++ stop :: items) = true := by
          intro hfits
          rcases Nat.le_total tests.length (item :: before).length with hshort | hlong
          · exact hbefore (fits_append (stop :: items) hshort ▸ hfits)
          · rcases Nat.lt_or_eq_of_le hlong with hlt | heq
            · have hmem : stop ∈ (item :: before ++ stop :: items).take tests.length := by
                rw [List.take_append, List.take_of_length_le hlong]
                refine List.mem_append_right _ ?_
                obtain ⟨more, hmore⟩ := Nat.exists_eq_add_of_lt hlt
                rw [hmore, Nat.add_assoc, Nat.add_sub_cancel_left, List.take_succ_cons]
                exact List.mem_cons_self
              obtain ⟨test, htest, haccepts⟩ := exists_test_of_fits hfits hmem
              exact Bool.noConfusion ((hstop test htest).symm.trans haccepts)
            · exact hbefore (fits_append (stop :: items) heq.ge ▸ hfits)
        rw [List.cons_append] at hfits ⊢
        rw [firstFit, if_neg hfits]
        exact ih hnone

theorem fits_self [DecidableEq α] (letters more : List α) :
    fits (letters.map fun letter item => decide (item = letter)) (letters ++ more) = true := by
  induction letters with
  | nil => rfl
  | cons letter letters ih =>
      rw [List.map_cons, List.cons_append, fits, ih, Bool.and_true]
      exact decide_eq_true rfl

theorem matchHere_ones (tests : List (α → Bool)) (pieces : List (Piece α)) (items : List α) :
    matchHere (tests.map .one ++ pieces) items =
      if fits tests items then matchHere pieces (items.drop tests.length) else none := by
  induction tests generalizing items with
  | nil => simp [fits]
  | cons test tests ih =>
      cases items with
      | nil => simp [matchHere, fits]
      | cons item items =>
          simp only [List.map_cons, List.cons_append, matchHere, fits, ih, List.length_cons,
            List.drop_succ_cons, Bool.and_eq_true]
          by_cases htest : test item = true
          · simp [htest]
          · simp [htest]

/-- A pattern with a fixed beginning and a rest that always matches. -/
theorem search_ones {tests : List (α → Bool)} {pieces : List (Piece α)}
    (htotal : ∀ items, (matchHere pieces items).isSome) (items : List α) :
    search (tests.map .one ++ pieces) items =
      (firstFit tests items).bind fun tail => matchHere pieces (tail.drop tests.length) := by
  induction items with
  | nil =>
      unfold search firstFit
      rw [matchHere_ones]
      split <;> rfl
  | cons item items ih =>
      unfold search firstFit
      rw [matchHere_ones]
      by_cases hfits : fits tests (item :: items) = true
      · obtain ⟨hit, hhit⟩ := Option.isSome_iff_exists.mp
          (htotal ((item :: items).drop tests.length))
        simp only [hfits, if_true, hhit, Option.bind_some]
      · simp only [hfits]
        exact ih

/-! ## Repetition -/

theorem longestFirst_eq_some {β : Type*} {attempt : Nat → Option β} {count : Nat} {result : β}
    (hattempt : attempt count = some result) : longestFirst attempt count = some result := by
  cases count with
  | zero => exact hattempt
  | succ count => simp [longestFirst, hattempt]

theorem drop_length_takeWhile (test : α → Bool) (items : List α) :
    items.drop (items.takeWhile test).length = items.dropWhile test := by
  calc items.drop (items.takeWhile test).length
      = (items.takeWhile test ++ items.dropWhile test).drop (items.takeWhile test).length := by
        rw [List.takeWhile_append_dropWhile]
    _ = items.dropWhile test := List.drop_left

/-- Where the rest of the pattern matches after the longest run, nothing is given back. -/
theorem matchHere_many {test : α → Bool} {captured : Bool} {pieces : List (Piece α)}
    {items : List α} {hit : Hit α} (hrest : matchHere pieces (items.dropWhile test) = some hit) :
    matchHere (.many test captured :: pieces) items =
      some (if captured then ⟨items.takeWhile test :: hit.captures, hit.rest⟩ else hit) := by
  have htake : items.take (items.takeWhile test).length = items.takeWhile test :=
    (List.prefix_iff_eq_take.mp (List.takeWhile_prefix test)).symm
  rw [matchHere]
  apply longestFirst_eq_some
  rw [drop_length_takeWhile, hrest, htake]
  rfl

theorem dropWhile_append_prefix (test : α → Bool) (items more : List α) :
    items.dropWhile test = [] ∨
      (items ++ more).dropWhile test = items.dropWhile test ++ more := by
  induction items with
  | nil => exact Or.inl rfl
  | cons item items ih =>
      simp only [List.cons_append, List.dropWhile_cons]
      by_cases htest : test item = true
      · simpa [htest] using ih
      · exact Or.inr (by simp [htest])

theorem takeWhile_append_prefix (test : α → Bool) (items more : List α) :
    items.takeWhile test <+: (items ++ more).takeWhile test := by
  induction items with
  | nil => exact List.nil_prefix
  | cons item items ih =>
      simp only [List.cons_append, List.takeWhile_cons]
      by_cases htest : test item = true
      · simpa [htest, List.cons_prefix_cons] using ih
      · simp [htest]

/-- What is found at a count is the result when nothing is found at a higher one. -/
theorem longestFirst_eq_of_most {β : Type*} {attempt : Nat → Option β} {count most : Nat} {result : β}
    (hattempt : attempt count = some result) (hle : count ≤ most)
    (hmore : ∀ more, count < more → more ≤ most → attempt more = none) :
    longestFirst attempt most = some result := by
  induction most with
  | zero =>
      rw [Nat.le_zero.mp hle] at hattempt
      exact longestFirst_eq_some hattempt
  | succ most ih =>
      rcases Nat.le_succ_iff.mp hle with hless | rfl
      · rw [longestFirst, hmore (most + 1) (Nat.lt_succ_of_le hless) le_rfl]
        exact ih hless fun more hlt hmost => hmore more hlt (Nat.le_succ_of_le hmost)
      · exact longestFirst_eq_some hattempt

theorem longestFirst_eq_none {β : Type*} {attempt : Nat → Option β} {most : Nat}
    (hattempt : ∀ count ≤ most, attempt count = none) : longestFirst attempt most = none := by
  induction most with
  | zero => exact hattempt 0 le_rfl
  | succ most ih =>
      rw [longestFirst, hattempt (most + 1) le_rfl]
      exact ih fun count hle => hattempt count (Nat.le_succ_of_le hle)

/-! ## Where a match begins -/

/-- The items from the leftmost match on, with the match. -/
def searchAt (pieces : List (Piece α)) : List α → Option (List α × Hit α)
  | [] => (matchHere pieces []).map fun hit => ([], hit)
  | item :: items =>
      match matchHere pieces (item :: items) with
      | some hit => some (item :: items, hit)
      | none => searchAt pieces items

theorem searchAt_of_match {pieces : List (Piece α)} {items : List α} {hit : Hit α}
    (hmatch : matchHere pieces items = some hit) : searchAt pieces items = some (items, hit) := by
  cases items with
  | nil => rw [searchAt, hmatch, Option.map_some]
  | cons item items => rw [searchAt, hmatch]

/-- No match begins in the first items. -/
theorem searchAt_append {pieces : List (Piece α)} {before items : List α}
    (hnone : ∀ tail, tail ≠ [] → tail <:+ before → matchHere pieces (tail ++ items) = none) :
    searchAt pieces (before ++ items) = searchAt pieces items := by
  induction before with
  | nil => rfl
  | cons item before ih =>
      have hfirst := hnone (item :: before) (List.cons_ne_nil _ _) (List.suffix_refl _)
      rw [List.cons_append] at hfirst ⊢
      rw [searchAt, hfirst]
      exact ih fun tail hne hsuffix => hnone tail hne (hsuffix.trans (List.suffix_cons _ _))

/-! ## Matches in a growing list -/

theorem longestFirst_isSome_iff {β : Type*} {attempt : Nat → Option β} {count : Nat} :
    (longestFirst attempt count).isSome ↔ ∃ fewer ≤ count, (attempt fewer).isSome := by
  induction count with
  | zero => simp [longestFirst]
  | succ count ih =>
      have hor : (longestFirst attempt (count + 1)).isSome ↔
          (attempt (count + 1)).isSome ∨ (longestFirst attempt count).isSome := by
        rw [longestFirst]
        cases attempt (count + 1) <;> simp
      rw [hor, ih]
      constructor
      · rintro (hmost | ⟨fewer, hle, hfewer⟩)
        · exact ⟨count + 1, le_rfl, hmost⟩
        · exact ⟨fewer, by omega, hfewer⟩
      · rintro ⟨fewer, hle, hfewer⟩
        rcases Nat.le_succ_iff.mp hle with hless | rfl
        · exact Or.inr ⟨fewer, hless, hfewer⟩
        · exact Or.inl hfewer

/-- The pattern still matches at the start when the list grows at its end. -/
theorem matchHere_append_isSome {pieces : List (Piece α)} {items : List α} (more : List α)
    (hmatch : (matchHere pieces items).isSome) : (matchHere pieces (items ++ more)).isSome := by
  induction pieces generalizing items with
  | nil => rfl
  | cons piece pieces ih =>
      cases piece with
      | one test =>
          cases items with
          | nil => simp [matchHere] at hmatch
          | cons item items =>
              simp only [matchHere, List.cons_append] at hmatch ⊢
              split at hmatch
              · rename_i htest
                rw [if_pos htest]
                exact ih hmatch
              · exact absurd hmatch (by simp)
      | optional test =>
          simp only [matchHere, longestFirst_isSome_iff] at hmatch ⊢
          obtain ⟨count, hcount, hrest⟩ := hmatch
          have hlonger : ((items.take 1).takeWhile test).length ≤
              (((items ++ more).take 1).takeWhile test).length := by
            cases items <;> simp
          have hle : count ≤ items.length := by
            refine hcount.trans ((List.takeWhile_prefix test).length_le.trans ?_)
            exact List.length_take_le' _ _
          refine ⟨count, hcount.trans hlonger, ?_⟩
          rw [List.drop_append_of_le_length hle]
          exact ih hrest
      | many test captured =>
          simp only [matchHere, longestFirst_isSome_iff, Option.isSome_map] at hmatch ⊢
          obtain ⟨count, hcount, hrest⟩ := hmatch
          have htaken := takeWhile_append_prefix test items more
          have hlonger := htaken.length_le
          have hle := hcount.trans (List.takeWhile_prefix test).length_le
          refine ⟨count, hcount.trans hlonger, ?_⟩
          rw [List.drop_append_of_le_length hle]
          exact ih hrest

/-- A list that contains a match still contains one when it grows at its end. -/
theorem search_append_isSome {pieces : List (Piece α)} {items : List α} (more : List α)
    (hfound : (search pieces items).isSome) : (search pieces (items ++ more)).isSome := by
  induction items with
  | nil =>
      have hmatch := matchHere_append_isSome more hfound
      cases more with
      | nil => exact hfound
      | cons item more =>
          rw [List.nil_append] at hmatch ⊢
          rw [search]
          cases hhit : matchHere pieces (item :: more) with
          | none => simp [hhit] at hmatch
          | some hit => rfl
  | cons item items ih =>
      rw [search] at hfound
      rw [List.cons_append, search]
      cases hhit : matchHere pieces (item :: items) with
      | none =>
          rw [hhit] at hfound
          cases matchHere pieces (item :: (items ++ more)) with
          | none => exact ih hfound
          | some longer => rfl
      | some hit =>
          have hmatch := matchHere_append_isSome more (Option.isSome_of_eq_some hhit)
          rw [List.cons_append] at hmatch
          cases hlonger : matchHere pieces (item :: (items ++ more)) with
          | none => simp [hlonger] at hmatch
          | some longer => rfl

/-! ## Repetition up to an item -/

/-- Within a run there is nothing that the run does not take. -/
theorem matchHere_one_within {test stop : α → Bool} {pieces : List (Piece α)} {items : List α}
    (hdisjoint : ∀ item, test item = true → stop item = false) {count : Nat}
    (hcount : count < (items.takeWhile test).length) :
    matchHere (.one stop :: pieces) (items.drop count) = none := by
  have hlt : count < items.length := hcount.trans_le (List.takeWhile_prefix test).length_le
  have hitem : test items[count] = true := by
    have hmem : (items.takeWhile test)[count] ∈ items.takeWhile test := List.getElem_mem hcount
    have htest := List.mem_takeWhile_imp hmem
    rwa [(List.takeWhile_prefix test).getElem hcount] at htest
  rw [List.drop_eq_getElem_cons hlt, matchHere, if_neg]
  rw [hdisjoint _ hitem]
  exact Bool.false_ne_true

/-- A run that the next item ends is matched in one way only. -/
theorem matchHere_many_one {test stop : α → Bool} {captured : Bool} {pieces : List (Piece α)}
    (hdisjoint : ∀ item, test item = true → stop item = false) (items : List α) :
    matchHere (.many test captured :: .one stop :: pieces) items =
      (matchHere (.one stop :: pieces) (items.dropWhile test)).map fun hit =>
        if captured then ⟨items.takeWhile test :: hit.captures, hit.rest⟩ else hit := by
  cases hrest : matchHere (.one stop :: pieces) (items.dropWhile test) with
  | some hit => exact matchHere_many hrest
  | none =>
      rw [Option.map_none, matchHere]
      refine longestFirst_eq_none fun count hcount => ?_
      rcases Nat.lt_or_eq_of_le hcount with hless | rfl
      · rw [matchHere_one_within hdisjoint hless, Option.map_none]
      · rw [drop_length_takeWhile, hrest, Option.map_none]

/-- The items without the first one, where it passes the test. -/
def dropOptional (test : α → Bool) (items : List α) : List α :=
  items.drop ((items.take 1).takeWhile test).length

theorem dropWhile_dropOptional {test optional : α → Bool}
    (hsubset : ∀ item, optional item = true → test item = true) (items : List α) :
    (dropOptional optional items).dropWhile test = items.dropWhile test := by
  cases items with
  | nil => rfl
  | cons item items =>
      by_cases hitem : optional item = true
      · simp [dropOptional, hitem, hsubset item hitem]
      · simp [dropOptional, hitem]

/-- An optional item that the run behind it would take as well is taken first. -/
theorem matchHere_optional_many_one {optional test stop : α → Bool} {captured : Bool}
    {pieces : List (Piece α)} (hsubset : ∀ item, optional item = true → test item = true)
    (hdisjoint : ∀ item, test item = true → stop item = false) (items : List α) :
    matchHere (.optional optional :: .many test captured :: .one stop :: pieces) items =
      matchHere (.many test captured :: .one stop :: pieces) (dropOptional optional items) := by
  have hsame := dropWhile_dropOptional hsubset items
  rw [matchHere]
  cases hhere : matchHere (.many test captured :: .one stop :: pieces)
      (dropOptional optional items) with
  | some hit => exact longestFirst_eq_some hhere
  | none =>
      refine longestFirst_eq_none fun count hcount => ?_
      rcases Nat.lt_or_eq_of_le hcount with hless | rfl
      · have hone : ((items.take 1).takeWhile optional).length ≤ 1 :=
          (List.takeWhile_prefix optional).length_le.trans (List.length_take_le 1 items)
        obtain rfl : count = 0 := by omega
        rw [matchHere_many_one hdisjoint, Option.map_eq_none_iff, hsame] at hhere
        rw [List.drop_zero, matchHere_many_one hdisjoint, hhere, Option.map_none]
      · exact hhere

theorem search_of_match {pieces : List (Piece α)} {items : List α} {hit : Hit α}
    (hmatch : matchHere pieces items = some hit) : search pieces items = some hit := by
  cases items with
  | nil => exact hmatch
  | cons item items => rw [search, hmatch]

/-- No match begins in the first items. -/
theorem search_append {pieces : List (Piece α)} {before items : List α}
    (hnone : ∀ tail, tail ≠ [] → tail <:+ before → matchHere pieces (tail ++ items) = none) :
    search pieces (before ++ items) = search pieces items := by
  induction before with
  | nil => rfl
  | cons item before ih =>
      have hfirst := hnone (item :: before) (List.cons_ne_nil _ _) (List.suffix_refl _)
      rw [List.cons_append] at hfirst ⊢
      rw [search, hfirst]
      exact ih fun tail hne hsuffix => hnone tail hne (hsuffix.trans (List.suffix_cons _ _))

end Regex
