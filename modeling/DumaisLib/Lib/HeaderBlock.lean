import DumaisLib.Lib.Search
import DumaisLib.Lib.StreamReader

/-!
# Messages with a header block

A message is a block of lines, an empty line, and a content of which the lines
give the size.  A receiver reads it once all of it has arrived.
-/

namespace HeaderBlock

open Search StreamReader

variable {α : Type*} [DecidableEq α]

/-- A line is what stands in front of the first line end. -/
def lineReader (cr lf : α) : Reader α (List α) where
  read bytes := (find [cr, lf] bytes 0).map fun position =>
    (bytes.take position, bytes.drop (position + 2))
  shrinks := by
    intro bytes rest line hread
    obtain ⟨position, hfound, hline⟩ := Option.map_eq_some_iff.mp hread
    obtain ⟨-, rfl⟩ := Prod.mk.inj hline
    have hend : position + 2 ≤ bytes.length := find_end_le hfound
    rw [List.length_drop]
    omega
  stable := by
    intro bytes rest line more hread
    obtain ⟨position, hfound, hline⟩ := Option.map_eq_some_iff.mp hread
    obtain ⟨rfl, rfl⟩ := Prod.mk.inj hline
    have hend : position + 2 ≤ bytes.length := find_end_le hfound
    rw [find_append hfound, Option.map_some, List.take_append_of_le_length (by omega),
      List.drop_append_of_le_length hend]

structure Message (α : Type*) where
  lines : List (List α)
  content : List α

/-- The whole of the message has to be there. -/
def messageReader (cr lf : α) (size? : List (List α) → Option Nat) : Reader α (Message α) where
  read bytes := (find [cr, lf, cr, lf] bytes 0).bind fun position =>
    (size? ((lineReader cr lf).complete (bytes.take (position + 2)))).bind fun size =>
      if position + 4 + size ≤ bytes.length then
        some (⟨(lineReader cr lf).complete (bytes.take (position + 2)),
          (bytes.drop (position + 4)).take size⟩, bytes.drop (position + 4 + size))
      else none
  shrinks := by
    intro bytes rest message hread
    obtain ⟨position, -, hread⟩ := Option.bind_eq_some_iff.mp hread
    obtain ⟨size, -, hread⟩ := Option.bind_eq_some_iff.mp hread
    obtain ⟨hle, hread⟩ := Option.ite_none_right_eq_some.mp hread
    obtain ⟨-, rfl⟩ := Prod.mk.inj (Option.some.inj hread)
    rw [List.length_drop]
    omega
  stable := by
    intro bytes rest message more hread
    obtain ⟨position, hfound, hread⟩ := Option.bind_eq_some_iff.mp hread
    obtain ⟨size, hsize, hread⟩ := Option.bind_eq_some_iff.mp hread
    obtain ⟨hle, hread⟩ := Option.ite_none_right_eq_some.mp hread
    obtain ⟨rfl, rfl⟩ := Prod.mk.inj (Option.some.inj hread)
    have hlines : (bytes ++ more).take (position + 2) = bytes.take (position + 2) :=
      List.take_append_of_le_length (by omega)
    have hcontent : ((bytes ++ more).drop (position + 4)).take size =
        (bytes.drop (position + 4)).take size := by
      rw [List.drop_append_of_le_length (by omega), List.take_append_of_le_length]
      rw [List.length_drop]
      omega
    rw [find_append hfound, Option.bind_some, hlines, hsize, Option.bind_some, hcontent, if_pos,
      List.drop_append_of_le_length hle]
    rw [List.length_append]
    omega

variable {cr lf : α}

theorem find_line_end (hne : cr ≠ lf) {line : List α} (hline : Unbroken cr lf line)
    (rest : List α) :
    find [cr, lf] (line ++ [cr, lf] ++ rest) 0 = some line.length := by
  refine find_eq_some_iff.mpr ⟨Nat.zero_le _, ?_, fun earlier _ hlt hearlier => ?_⟩
  · have hhere : OccursAt [cr, lf] ([cr, lf] ++ rest) 0 := ⟨Nat.zero_le _, List.prefix_append _ _⟩
    have hmoved : OccursAt [cr, lf] (line ++ ([cr, lf] ++ rest)) (line.length + 0) :=
      occursAt_append_right.mpr hhere
    rwa [← List.append_assoc] at hmoved
  · rw [List.append_assoc] at hearlier
    rcases Nat.lt_or_ge (earlier + 1) line.length with hwithin | hbehind
    · exact hline ((occursAt_append_iff hwithin).mp hearlier).isInfix
    · have hsecond := hearlier.getElem? (i := 1) (by simp)
      have heq : earlier + 1 = line.length := by omega
      rw [heq, List.getElem?_append_right le_rfl] at hsecond
      exact hne (by simpa using hsecond)

theorem reads_line (hne : cr ≠ lf) {line : List α} (hline : Unbroken cr lf line) :
    (lineReader cr lf).Reads (line ++ [cr, lf]) line := by
  intro rest
  have hdrop : (line ++ [cr, lf] ++ rest).drop (line.length + 2) = rest :=
    List.drop_left' (by simp)
  have htake : (line ++ [cr, lf] ++ rest).take line.length = line := by
    rw [List.append_assoc, List.take_left]
  change (find [cr, lf] (line ++ [cr, lf] ++ rest) 0).map _ = _
  rw [find_line_end hne hline, Option.map_some, htake, hdrop]

/-- A line that is read has no line end in it. -/
theorem unbroken_of_read {bytes line rest : List α}
    (hread : (lineReader cr lf).read bytes = some (line, rest)) : Unbroken cr lf line := by
  obtain ⟨position, hfound, hline⟩ := Option.map_eq_some_iff.mp hread
  obtain ⟨rfl, -⟩ := Prod.mk.inj hline
  obtain ⟨-, -, hfirst⟩ := find_eq_some_iff.mp hfound
  intro hinside
  obtain ⟨earlier, hearlier⟩ := exists_occursAt hinside
  have hend := hearlier.end_le
  rw [List.length_take, List.length_cons, List.length_singleton] at hend
  refine hfirst earlier (Nat.zero_le _) (by omega) ?_
  rw [← List.take_append_drop position bytes]
  exact (occursAt_append_iff hearlier.end_le).mpr hearlier

theorem unbroken_of_read_message {size? : List (List α) → Option Nat} {bytes rest : List α}
    {message : Message α} (hread : (messageReader cr lf size?).read bytes = some (message, rest)) :
    ∀ line ∈ message.lines, Unbroken cr lf line := by
  obtain ⟨position, -, hread⟩ := Option.bind_eq_some_iff.mp hread
  obtain ⟨size, -, hread⟩ := Option.bind_eq_some_iff.mp hread
  obtain ⟨-, hread⟩ := Option.ite_none_right_eq_some.mp hread
  obtain ⟨rfl, -⟩ := Prod.mk.inj (Option.some.inj hread)
  exact (lineReader cr lf).forall_mem_complete unbroken_of_read _

/-- A message is read as it was made. -/
theorem reads_message {size? : List (List α) → Option Nat} (hne : cr ≠ lf)
    {lines : List (List α)} (hlines : ∀ line ∈ lines, line ≠ [] ∧ Unbroken cr lf line)
    (hsome : lines ≠ [])
    {content : List α} (hsize : size? lines = some content.length) :
    (messageReader cr lf size?).Reads (withEnds cr lf lines ++ [cr, lf] ++ content)
      ⟨lines, content⟩ := by
  intro rest
  have hlong : 2 ≤ (withEnds cr lf lines).length := by
    cases lines with
    | nil => exact absurd rfl hsome
    | cons line lines =>
        simp only [withEnds, List.flatMap_cons, List.length_append, List.length_cons]
        omega
  have hfound := find_empty_line hne hlines hsome (content ++ rest)
  rw [← List.append_assoc] at hfound
  obtain ⟨position, hposition⟩ : ∃ position, (withEnds cr lf lines).length = position + 2 :=
    ⟨_, (Nat.sub_add_cancel hlong).symm⟩
  rw [hposition, Nat.add_sub_cancel] at hfound
  have htake : (withEnds cr lf lines ++ [cr, lf] ++ content ++ rest).take (position + 2) =
      withEnds cr lf lines := by
    rw [List.append_assoc, List.append_assoc, List.take_left' hposition]
  have hcomplete : (lineReader cr lf).complete (withEnds cr lf lines) = lines := by
    have hreads : ∀ line ∈ lines, (lineReader cr lf).Reads (line ++ [cr, lf]) (id line) :=
      fun line hline => reads_line hne (hlines line hline).2
    exact (Reader.complete_flatMap hreads).trans (List.map_id _)
  have hends : (withEnds cr lf lines ++ [cr, lf]).length = position + 4 := by
    rw [List.length_append, hposition]
    rfl
  have hcontent : (withEnds cr lf lines ++ [cr, lf] ++ content ++ rest).drop (position + 4) =
      content ++ rest := by
    rw [List.append_assoc, List.drop_left' hends]
  have hrest : (withEnds cr lf lines ++ [cr, lf] ++ content ++ rest).drop
      (position + 4 + content.length) = rest := by
    rw [← List.drop_drop, hcontent, List.drop_left]
  change (find [cr, lf, cr, lf] _ 0).bind _ = _
  rw [hfound, Option.bind_some, htake, hcomplete, hsize, Option.bind_some, hcontent, hrest,
    List.take_left, if_pos]
  rw [List.length_append, List.length_append, hends]
  omega

end HeaderBlock
