import Mathlib.Data.List.Infix
import Mathlib.Logic.Relation

/-!
# Quoted parts of a list

A list is read from its start: a quote begins a literal and the next quote ends
it, but an item behind an escape belongs to the literal whatever it is.  What
stands outside of the literals can be counted, and blanks there can be dropped.
-/

namespace Quoting

/-- Where the reader is: outside of the literals, in one, or behind an escape in one. -/
inductive Reader where
  | outside
  | inside
  | escaped
  deriving DecidableEq

variable {α : Type*} [DecidableEq α] {quote escape : α}

/-- The reader behind one more item. -/
def Reader.next (quote escape : α) (reader : Reader) (item : α) : Reader :=
  match reader with
  | .outside => if item = quote then .inside else .outside
  | .inside => if item = escape then .escaped else if item = quote then .outside else .inside
  | .escaped => .inside

/-- The reader behind the items. -/
def Reader.after (quote escape : α) (reader : Reader) (items : List α) : Reader :=
  items.foldl (Reader.next quote escape) reader

/-- Every literal of the list comes to its end. -/
def Terminated (quote escape : α) (items : List α) : Prop :=
  Reader.outside.after quote escape items = .outside

/-- The item at the reader belongs to no literal, as its text or as its quote. -/
def Reader.Skips (quote escape : α) (reader : Reader) (item : α) : Prop :=
  reader = .outside ∧ reader.next quote escape item = .outside

instance (reader : Reader) (item : α) : Decidable (reader.Skips quote escape item) :=
  inferInstanceAs (Decidable (_ ∧ _))

/-- The items outside of the literals. -/
def unquoted (quote escape : α) (reader : Reader) : List α → List α
  | [] => []
  | item :: items =>
      if reader.Skips quote escape item then
        item :: unquoted quote escape (reader.next quote escape item) items
      else unquoted quote escape (reader.next quote escape item) items

/-- The list without the blanks outside of its literals. -/
def stripped (quote escape : α) (blank : α → Bool) (reader : Reader) : List α → List α
  | [] => []
  | item :: items =>
      if reader.Skips quote escape item ∧ blank item then
        stripped quote escape blank (reader.next quote escape item) items
      else item :: stripped quote escape blank (reader.next quote escape item) items

/-! ## Reading one part after the other -/

@[simp]
theorem after_nil (reader : Reader) : reader.after quote escape [] = reader :=
  rfl

@[simp]
theorem after_cons (reader : Reader) (item : α) (items : List α) :
    reader.after quote escape (item :: items) =
      (reader.next quote escape item).after quote escape items :=
  rfl

theorem after_append (reader : Reader) (items more : List α) :
    reader.after quote escape (items ++ more) =
      (reader.after quote escape items).after quote escape more :=
  List.foldl_append

theorem skips_iff {reader : Reader} {item : α} :
    reader.Skips quote escape item ↔ reader = .outside ∧ item ≠ quote := by
  constructor
  · rintro ⟨rfl, hnext⟩
    refine ⟨rfl, fun hquote => ?_⟩
    rw [Reader.next, if_pos hquote] at hnext
    cases hnext
  · rintro ⟨rfl, hquote⟩
    exact ⟨rfl, if_neg hquote⟩

theorem unquoted_append (reader : Reader) (items more : List α) :
    unquoted quote escape reader (items ++ more) =
      unquoted quote escape reader items ++
        unquoted quote escape (reader.after quote escape items) more := by
  induction items generalizing reader with
  | nil => rfl
  | cons item items ih =>
      rw [List.cons_append, unquoted, unquoted, ih, after_cons]
      split
      · rfl
      · rfl

theorem stripped_append (blank : α → Bool) (reader : Reader) (items more : List α) :
    stripped quote escape blank reader (items ++ more) =
      stripped quote escape blank reader items ++
        stripped quote escape blank (reader.after quote escape items) more := by
  induction items generalizing reader with
  | nil => rfl
  | cons item items ih =>
      rw [List.cons_append, stripped, stripped, ih, after_cons]
      split
      · rfl
      · rfl

/-- A part of a list has no more outside of its literals than the list. -/
theorem unquoted_take (reader : Reader) (items : List α) (count : Nat) :
    unquoted quote escape reader (items.take count) <+: unquoted quote escape reader items := by
  have hsplit := @unquoted_append α _ quote escape reader (items.take count) (items.drop count)
  rw [List.take_append_drop] at hsplit
  exact ⟨_, hsplit.symm⟩

theorem unquoted_sublist (reader : Reader) (items : List α) :
    (unquoted quote escape reader items).Sublist items := by
  induction items generalizing reader with
  | nil => exact List.Sublist.slnil
  | cons item items ih =>
      rw [unquoted]
      split
      · exact (ih _).cons_cons item
      · exact (ih _).cons item

/-! ## Balance -/

/-- As many pairs are opened as closed outside of the literals. -/
def Balances (quote escape opening closing : α) (items : List α) : Prop :=
  (unquoted quote escape .outside items).count opening =
    (unquoted quote escape .outside items).count closing

/-- The shortest non-empty beginning that is balanced has the length. -/
structure BalancedAt (quote escape opening closing : α) (items : List α) (size : Nat) : Prop where
  pos : 0 < size
  le : size ≤ items.length
  balanced : Balances quote escape opening closing (items.take size)
  first : ∀ shorter, 0 < shorter → shorter < size →
    ¬ Balances quote escape opening closing (items.take shorter)

theorem BalancedAt.unique {opening closing : α} {items : List α} {size size' : Nat}
    (hsize : BalancedAt quote escape opening closing items size)
    (hsize' : BalancedAt quote escape opening closing items size') : size = size' := by
  rcases Nat.lt_trichotomy size size' with hlt | heq | hgt
  · exact absurd hsize.balanced (hsize'.first size hsize.pos hlt)
  · exact heq
  · exact absurd hsize'.balanced (hsize.first size' hsize'.pos hgt)

/-! ## Blanks -/

section Blanks

variable {blank : α → Bool}

/-- The blanks that are dropped do not move the reader. -/
theorem after_stripped (reader : Reader) (items : List α) :
    reader.after quote escape (stripped quote escape blank reader items) =
      reader.after quote escape items := by
  induction items generalizing reader with
  | nil => rfl
  | cons item items ih =>
      rw [stripped, after_cons]
      split
      · rename_i hdrop
        obtain ⟨⟨rfl, hnext⟩, -⟩ := hdrop
        rw [hnext]
        exact ih .outside
      · rw [after_cons, ih]

theorem Terminated.stripped {items : List α} (hterminated : Terminated quote escape items) :
    Terminated quote escape (stripped quote escape blank .outside items) := by
  rw [Terminated, after_stripped]
  exact hterminated

theorem stripped_stripped (reader : Reader) (items : List α) :
    stripped quote escape blank reader (stripped quote escape blank reader items) =
      stripped quote escape blank reader items := by
  induction items generalizing reader with
  | nil => rfl
  | cons item items ih =>
      by_cases hdrop : reader.Skips quote escape item ∧ blank item = true
      · obtain ⟨⟨rfl, hnext⟩, hblank⟩ := hdrop
        have hitem : stripped quote escape blank .outside (item :: items) =
            stripped quote escape blank .outside items := by
          rw [stripped, if_pos ⟨⟨rfl, hnext⟩, hblank⟩, hnext]
        rw [hitem, ih]
      · have hitem (rest : List α) : stripped quote escape blank reader (item :: rest) =
            item :: stripped quote escape blank (reader.next quote escape item) rest := by
          rw [stripped, if_neg hdrop]
        rw [hitem, hitem, ih]

theorem stripped_sublist (reader : Reader) (items : List α) :
    (stripped quote escape blank reader items).Sublist items := by
  induction items generalizing reader with
  | nil => exact List.Sublist.slnil
  | cons item items ih =>
      rw [stripped]
      split
      · exact (ih _).cons item
      · exact (ih _).cons_cons item

/-- Where nothing stands outside of literals, nothing is dropped. -/
theorem stripped_of_unquoted_nil {reader : Reader} {items : List α}
    (hunquoted : unquoted quote escape reader items = []) :
    stripped quote escape blank reader items = items := by
  induction items generalizing reader with
  | nil => rfl
  | cons item items ih =>
      rw [unquoted] at hunquoted
      split at hunquoted
      · cases hunquoted
      · rename_i hskips
        rw [stripped, if_neg fun hdrop => hskips hdrop.1, ih hunquoted]

/-- The second list has one blank more, outside of the literals. -/
inductive OneMore (quote escape : α) (blank : α → Bool) : List α → List α → Prop where
  | insert {before after : List α} {item : α} :
      Reader.outside.after quote escape before = .outside → item ≠ quote → blank item = true →
      OneMore quote escape blank (before ++ after) (before ++ item :: after)

/-- The lists differ in nothing but blanks outside of their literals. -/
def SameButBlanks (quote escape : α) (blank : α → Bool) : List α → List α → Prop :=
  Relation.EqvGen (OneMore quote escape blank)

theorem OneMore.stripped_eq {items items' : List α} (hmore : OneMore quote escape blank items items') :
    stripped quote escape blank .outside items = stripped quote escape blank .outside items' := by
  cases hmore with
  | @insert before after item houtside hquote hblank =>
      have hskips : Reader.outside.Skips quote escape item := skips_iff.mpr ⟨rfl, hquote⟩
      rw [stripped_append, stripped_append, houtside, stripped, if_pos ⟨hskips, hblank⟩, hskips.2]

/-- Dropping the blanks one by one leaves the stripped list. -/
theorem sameButBlanks_stripped (before items : List α) :
    SameButBlanks quote escape blank
      (before ++ stripped quote escape blank (Reader.outside.after quote escape before) items)
      (before ++ items) := by
  induction items generalizing before with
  | nil => exact .refl _
  | cons item items ih =>
      rw [stripped]
      split
      · rename_i hdrop
        obtain ⟨⟨houtside, hnext⟩, hblank⟩ := hdrop
        have hquote := (skips_iff.mp ⟨houtside, hnext⟩).2
        rw [hnext, ← houtside]
        exact .trans _ _ _ (ih before) (.rel _ _ (.insert houtside hquote hblank))
      · have hrest := ih (before ++ [item])
        rw [after_append, after_cons, after_nil, List.append_assoc, List.append_assoc] at hrest
        exact hrest

theorem sameButBlanks_iff {items items' : List α} :
    SameButBlanks quote escape blank items items' ↔
      stripped quote escape blank .outside items = stripped quote escape blank .outside items' := by
  constructor
  · intro hsame
    induction hsame with
    | rel _ _ hmore => exact hmore.stripped_eq
    | refl _ => rfl
    | symm _ _ _ ih => exact ih.symm
    | trans _ _ _ _ _ ih ih' => exact ih.trans ih'
  · intro hstripped
    have hfirst := @sameButBlanks_stripped α _ quote escape blank [] items
    have hsecond := @sameButBlanks_stripped α _ quote escape blank [] items'
    rw [after_nil, List.nil_append, List.nil_append] at hfirst hsecond
    rw [hstripped] at hfirst
    exact .trans _ _ _ (.symm _ _ hfirst) hsecond

end Blanks

end Quoting
