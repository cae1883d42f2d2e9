import Mathlib.Data.List.Basic
import Mathlib.Data.List.Infix

/-!
# Reading items off a stream

A reader takes one item at a time off the front of what has arrived.  More that
arrives behind an item does not change how it is read, so a receiver of a
beginning of a stream has read a beginning of its items.
-/

namespace StreamReader

variable {α β ι : Type*}

/-- Every item takes something off the front, and stays as it is read when more arrives. -/
structure Reader (α β : Type*) where
  read : List α → Option (β × List α)
  shrinks : ∀ {bytes rest : List α} {item : β}, read bytes = some (item, rest) →
    rest.length < bytes.length
  stable : ∀ {bytes rest : List α} {item : β} (more : List α), read bytes = some (item, rest) →
    read (bytes ++ more) = some (item, rest ++ more)

namespace Reader

variable (reader : Reader α β)

/-- The items that have arrived in full. -/
def complete (bytes : List α) : List β :=
  match _hread : reader.read bytes with
  | none => []
  | some (item, rest) => item :: complete rest
termination_by bytes.length
decreasing_by exact reader.shrinks ‹_›

theorem complete_of_none {bytes : List α} (hread : reader.read bytes = none) :
    reader.complete bytes = [] := by
  rw [complete]
  split
  · rfl
  · rename_i hsome
    rw [hread] at hsome
    cases hsome

theorem complete_of_some {bytes rest : List α} {item : β}
    (hread : reader.read bytes = some (item, rest)) :
    reader.complete bytes = item :: reader.complete rest := by
  rw [complete]
  split
  · rename_i hnone
    rw [hread] at hnone
    cases hnone
  · rename_i item' rest' hsome
    obtain ⟨rfl, rfl⟩ := Prod.mk.inj (Option.some.inj (hread.symm.trans hsome))
    rfl

/-- More that arrives is read behind what has been read before. -/
theorem complete_append (bytes more : List α) :
    reader.complete bytes <+: reader.complete (bytes ++ more) := by
  induction hlength : bytes.length using Nat.strongRecOn generalizing bytes with
  | ind length ih =>
      cases hread : reader.read bytes with
      | none =>
          rw [reader.complete_of_none hread]
          exact List.nil_prefix
      | some found =>
          obtain ⟨item, rest⟩ := found
          rw [reader.complete_of_some hread, reader.complete_of_some (reader.stable more hread)]
          have hlt := reader.shrinks hread
          exact (List.prefix_cons_inj item).mpr (ih _ (hlength ▸ hlt) rest rfl)

/-- What holds of every item that is read holds of all that have arrived. -/
theorem forall_mem_complete {P : β → Prop}
    (hread : ∀ {bytes rest : List α} {item : β}, reader.read bytes = some (item, rest) → P item)
    (bytes : List α) : ∀ item ∈ reader.complete bytes, P item := by
  induction hlength : bytes.length using Nat.strongRecOn generalizing bytes with
  | ind length ih =>
      cases hfirst : reader.read bytes with
      | none =>
          rw [reader.complete_of_none hfirst]
          exact fun _ hnil => absurd hnil List.not_mem_nil
      | some found =>
          obtain ⟨item, rest⟩ := found
          rw [reader.complete_of_some hfirst]
          have hlt := reader.shrinks hfirst
          exact List.forall_mem_cons.mpr ⟨hread hfirst, ih _ (hlength ▸ hlt) rest rfl⟩

/-- The text is read as the value, whatever stands behind it. -/
def Reads (text : List α) (value : β) : Prop :=
  ∀ rest, reader.read (text ++ rest) = some (value, rest)

variable {reader}

theorem complete_flatMap {encode : ι → List α} {value : ι → β} {items : List ι}
    (hreads : ∀ item ∈ items, reader.Reads (encode item) (value item)) :
    reader.complete (items.flatMap encode) = items.map value := by
  induction items with
  | nil =>
      cases hread : reader.read [] with
      | none => exact reader.complete_of_none hread
      | some found => exact absurd (reader.shrinks hread) (Nat.not_lt_zero _)
  | cons item items ih =>
      obtain ⟨hitem, hitems⟩ := List.forall_mem_cons.mp hreads
      rw [List.flatMap_cons, reader.complete_of_some (hitem _), ih hitems, List.map_cons]

/-- What is read at the start of a part of the stream stands there in full. -/
theorem Reads.read_beginning {text part rest : List α} {value : β} (hreads : reader.Reads text value)
    (hpart : part <+: text ++ rest) :
    reader.read part = none ∨
      ∃ behind, part = text ++ behind ∧ behind <+: rest ∧ reader.read part = some (value, behind) := by
  cases hread : reader.read part with
  | none => exact Or.inl rfl
  | some found =>
      obtain ⟨item, behind⟩ := found
      obtain ⟨more, hmore⟩ := hpart
      have hwhole := reader.stable more hread
      rw [hmore, hreads rest] at hwhole
      obtain ⟨rfl, rfl⟩ := Prod.mk.inj (Option.some.inj hwhole)
      rw [← List.append_assoc] at hmore
      exact Or.inr ⟨behind, List.append_cancel_right hmore, List.prefix_append _ _, rfl⟩

/-- Of a beginning of the stream the receiver has read a beginning of the items. -/
theorem complete_beginning {encode : ι → List α} {value : ι → β} {items : List ι}
    (hreads : ∀ item ∈ items, reader.Reads (encode item) (value item)) {part : List α}
    (hpart : part <+: items.flatMap encode) :
    ∃ count ≤ items.length, reader.complete part = (items.take count).map value ∧
      (items.take count).flatMap encode <+: part := by
  induction items generalizing part with
  | nil =>
      rw [List.flatMap_nil, List.prefix_nil] at hpart
      subst hpart
      exact ⟨0, le_rfl, complete_flatMap hreads, List.prefix_rfl⟩
  | cons item items ih =>
      obtain ⟨hitem, hitems⟩ := List.forall_mem_cons.mp hreads
      rw [List.flatMap_cons] at hpart
      rcases hitem.read_beginning hpart with hnone | ⟨behind, rfl, hbehind, hread⟩
      · exact ⟨0, Nat.zero_le _, reader.complete_of_none hnone, List.nil_prefix⟩
      · obtain ⟨count, hcount, hcomplete, hdone⟩ := ih hitems hbehind
        refine ⟨count + 1, Nat.succ_le_succ hcount, ?_, ?_⟩
        · rw [reader.complete_of_some hread, hcomplete, List.take_succ_cons, List.map_cons]
        · rw [List.take_succ_cons, List.flatMap_cons]
          exact (List.prefix_append_right_inj _).mpr hdone

end Reader

end StreamReader
