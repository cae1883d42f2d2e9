import Mathlib.Data.List.Infix

/-!
# Streams cut into chunks

A stream arrives chunk by chunk.  The window of a piece of the stream is what is
known of it, and of what follows it, when its last item has arrived.
-/

namespace Chunks

variable {α : Type*}

/-- The first chunk boundary at or behind the position. -/
def boundary : List (List α) → Nat → Nat
  | [], _ => 0
  | chunk :: chunks, position =>
      if position ≤ chunk.length then chunk.length
      else chunk.length + boundary chunks (position - chunk.length)

/-- From `start` on to the end of the chunk in which the item before `finish` arrives. -/
def window (chunks : List (List α)) (start finish : Nat) : List α :=
  (chunks.flatten.take (boundary chunks finish)).drop start

theorem boundary_merge {first second : List α} {chunks : List (List α)} {position : Nat}
    (hlt : first.length < position) :
    boundary (first :: second :: chunks) position =
      boundary ((first ++ second) :: chunks) position := by
  simp only [boundary, List.length_append, if_neg (Nat.not_le.mpr hlt)]
  by_cases hle : position ≤ first.length + second.length
  · rw [if_pos hle, if_pos (by omega)]
  · rw [if_neg hle, if_neg (by omega), Nat.sub_add_eq]
    omega

theorem boundary_drop {first : List α} {chunks : List (List α)} {count : Nat}
    (hcount : count ≤ first.length) (position : Nat) :
    boundary (first :: chunks) (count + position) =
      count + boundary (first.drop count :: chunks) position := by
  simp only [boundary, List.length_drop]
  by_cases hle : count + position ≤ first.length
  · rw [if_pos hle, if_pos (by omega)]
    omega
  · have hposition : count + position - first.length = position - (first.length - count) := by
      omega
    rw [if_neg hle, if_neg (by omega), hposition]
    omega

/-- A piece that does not end in the first chunk sees the first two as one. -/
theorem window_merge {first second : List α} {chunks : List (List α)} {start finish : Nat}
    (hlt : first.length < finish) :
    window (first :: second :: chunks) start finish =
      window ((first ++ second) :: chunks) start finish := by
  unfold window
  rw [boundary_merge hlt, List.flatten_cons, List.flatten_cons, List.flatten_cons,
    List.append_assoc]

/-- What lies before a piece can be taken off the first chunk. -/
theorem window_drop {first : List α} {chunks : List (List α)} {count : Nat}
    (hcount : count ≤ first.length) (start finish : Nat) :
    window (first :: chunks) (count + start) (count + finish) =
      window (first.drop count :: chunks) start finish := by
  unfold window
  rw [boundary_drop hcount, ← List.drop_drop, List.drop_take, Nat.add_sub_cancel_left,
    List.flatten_cons, List.flatten_cons, List.drop_append_of_le_length hcount]

theorem window_first {first : List α} {chunks : List (List α)} {finish : Nat}
    (hle : finish ≤ first.length) : window (first :: chunks) 0 finish = first := by
  unfold window
  rw [boundary, if_pos hle, List.flatten_cons, List.take_left, List.drop_zero]

theorem prefix_window (first : List α) (chunks : List (List α)) (finish : Nat) :
    first <+: window (first :: chunks) 0 finish := by
  by_cases hle : finish ≤ first.length
  · rw [window_first hle]
  · unfold window
    rw [boundary, if_neg hle, List.flatten_cons, List.take_length_add_append, List.drop_zero]
    exact List.prefix_append _ _

end Chunks
