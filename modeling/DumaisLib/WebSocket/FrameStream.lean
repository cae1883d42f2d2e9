import DumaisLib.WebSocket.WebSocket

/-!
# The receive loop as a machine that reads single bytes

`feed` says what each received byte does to the frame being collected.  The
receive loop, which takes whole stages out of a chunk, simulates it; a byte that
`feed` does not accept is one on which the loop never returns.
-/

namespace DumaisLib.WebSocket

/-! ## Reading byte by byte -/

/-- The header is not masked: the parser refuses the frame and everything after it. -/
def Refused (bytes : List Byte) : Prop :=
  2 ≤ bytes.length ∧ (WSHeader.read bytes).mask = false

/-- The frame has all the payload bytes that the parser waits for. -/
def Complete (bytes : List Byte) : Prop :=
  let header := WSHeader.read bytes
  header.mask = true ∧ header.headerSize < bytes.length ∧
    bytes.length = sizeAdd header.headerSize (header.decodePayloadSize bytes)

/-- The header is there and the parser waits for no further byte. -/
def Stuck (bytes : List Byte) : Prop :=
  let header := WSHeader.read bytes
  header.mask = true ∧ header.headerSize ≤ bytes.length ∧
    sizeAdd header.headerSize (header.decodePayloadSize bytes) ≤ bytes.length

instance (bytes : List Byte) : Decidable (Refused bytes) := by
  unfold Refused
  infer_instance

instance (bytes : List Byte) : Decidable (Complete bytes) := by
  unfold Complete
  infer_instance

instance (bytes : List Byte) : Decidable (Stuck bytes) := by
  unfold Stuck
  infer_instance

/-- The opcodes of the frames that are processed and then taken off the parser. -/
def IsKnown (opcode : BitVec 4) : Prop :=
  WebSocket.IsData opcode ∨ opcode = WS_CLOSE ∨ opcode = WS_PING

instance (opcode : BitVec 4) : Decidable (IsKnown opcode) := by
  unfold IsKnown
  infer_instance

/-- The payload size of a complete frame. -/
def payloadSize (frame : List Byte) : Nat :=
  frame.length - (WSHeader.read frame).headerSize

/-- A complete data frame that is too long for the unmasking loop. -/
def TooLong (frame : List Byte) : Prop :=
  WebSocket.IsData (WSHeader.read frame).opcode ∧ payloadSize frame > WebSocket.MAX_INT

instance (frame : List Byte) : Decidable (TooLong frame) := by
  unfold TooLong
  infer_instance

/-- What becomes of the collected bytes; a complete frame is put out. -/
def settle (bytes : List Byte) : Option (List Byte × List (List Byte)) :=
  if Complete bytes then
    if TooLong bytes then none
    else if IsKnown (WSHeader.read bytes).opcode then some ([], [bytes])
    else some (bytes, [bytes])
  else
    some (bytes, [])

/-- One received byte; `none` when it arrives at a stuck frame. -/
def feed (bytes : List Byte) (byte : Byte) : Option (List Byte × List (List Byte)) :=
  if Refused bytes then some (bytes, [])
  else if Stuck bytes then none
  else settle (bytes ++ [byte])

/-- The received bytes in order, with the complete frames among them. -/
def feedAll : List Byte → List Byte → Option (List Byte × List (List Byte))
  | bytes, [] => some (bytes, [])
  | bytes, byte :: buf =>
      (feed bytes byte).bind fun fed =>
        (feedAll fed.1 buf).map fun later => (later.1, fed.2 ++ later.2)

/-- What holds of the collected bytes between two received ones. -/
structure Collected (bytes : List Byte) : Prop where
  length_lt : bytes.length < 2 ^ 64
  refused : Refused bytes → bytes.length = 2
  complete : Complete bytes → ¬ IsKnown (WSHeader.read bytes).opcode

theorem collected_nil : Collected [] :=
  ⟨by decide, fun hrefused => absurd hrefused.1 (by decide),
    fun hcomplete => absurd hcomplete.2.1 (Nat.not_lt_zero _)⟩

theorem stageStatus_eq (bytes : List Byte) :
    stageStatus bytes =
      if Refused bytes then .error
      else if Complete bytes then
        .messageReady bytes (WSHeader.read bytes).headerSize (payloadSize bytes)
      else .messageIncomplete := by
  have hcases := (WSHeader.read bytes).headerSize_cases
  simp only [stageStatus]
  rcases Nat.lt_or_ge bytes.length WSHeader.size with hshort | hlong
  · have hshort' : bytes.length < 2 := hshort
    have hrefused : ¬ Refused bytes := fun hrefused => absurd hrefused.1 (by omega)
    have hcomplete : ¬ Complete bytes := fun hcomplete => absurd hcomplete.2.1 (by omega)
    rw [if_pos hshort, if_neg hrefused, if_neg hcomplete]
  · rw [if_neg hlong.not_gt]
    by_cases hmask : (WSHeader.read bytes).mask = false
    · rw [if_pos hmask, if_pos ⟨hlong, hmask⟩]
    · have hrefused : ¬ Refused bytes := fun hrefused => hmask hrefused.2
      have hmasked : (WSHeader.read bytes).mask = true := eq_true_of_ne_false hmask
      rw [if_neg hmask, if_neg hrefused]
      rcases Nat.lt_or_ge (WSHeader.read bytes).headerSize bytes.length with hlt | hge
      · have hend := stageEnd_of_payload hmasked hlt.le
        rw [if_neg hlt.not_ge]
        by_cases hfull : bytes.length = stageEnd bytes
        · rw [if_pos hfull, if_pos ⟨hmasked, hlt, hfull.trans hend⟩, payloadSize, ← hfull]
        · have hcomplete : ¬ Complete bytes := fun hcomplete =>
            hfull (hcomplete.2.2.trans hend.symm)
          rw [if_neg hfull, if_neg hcomplete]
      · have hcomplete : ¬ Complete bytes := fun hcomplete =>
          absurd hcomplete.2.1 hge.not_gt
        rw [if_pos hge, if_neg hcomplete]

/-- A frame that is neither refused nor stuck waits for a byte. -/
theorem lt_stageEnd {bytes : List Byte} (hrefused : ¬ Refused bytes) (hstuck : ¬ Stuck bytes) :
    bytes.length < stageEnd bytes := by
  rcases Nat.lt_or_ge bytes.length 2 with hshort | hlong
  · rw [stageEnd_of_short hshort]
    exact hshort
  · cases hmask : (WSHeader.read bytes).mask with
    | false => exact absurd ⟨hlong, hmask⟩ hrefused
    | true =>
        rcases Nat.lt_or_ge bytes.length (WSHeader.read bytes).headerSize with hlt | hge
        · rw [stageEnd_of_header hlong hmask hlt]
          exact hlt
        · rw [stageEnd_of_payload hmask hge]
          exact Nat.lt_of_not_le fun hle => hstuck ⟨hmask, hge, hle⟩

theorem Stuck.stageEnd_le {bytes : List Byte} (hstuck : Stuck bytes) :
    stageEnd bytes ≤ bytes.length := by
  rw [stageEnd_of_payload hstuck.1 hstuck.2.1]
  exact hstuck.2.2

theorem Refused.stageEnd_le {bytes : List Byte} (hrefused : Refused bytes) :
    stageEnd bytes ≤ bytes.length := by
  rw [stageEnd_of_unmasked hrefused.2]
  exact hrefused.1

theorem Complete.length_eq {bytes : List Byte} (hcomplete : Complete bytes) :
    bytes.length = stageEnd bytes := by
  rw [stageEnd_of_payload hcomplete.1 hcomplete.2.1.le]
  exact hcomplete.2.2

/-- The bytes of one stage are read as one. -/
theorem feedAll_stage {bytes more : List Byte} (rest : List Byte) (hne : more ≠ [])
    (hrefused : ¬ Refused bytes) (hstuck : ¬ Stuck bytes)
    (hle : bytes.length + more.length ≤ stageEnd bytes) :
    feedAll bytes (more ++ rest) =
      (settle (bytes ++ more)).bind fun settled =>
        (feedAll settled.1 rest).map fun later => (later.1, settled.2 ++ later.2) := by
  induction more generalizing bytes with
  | nil => exact absurd rfl hne
  | cons byte more ih =>
      rw [List.cons_append, feedAll, feed, if_neg hrefused, if_neg hstuck]
      cases more with
      | nil => rfl
      | cons second more =>
          have hlt : bytes.length + [byte].length < stageEnd bytes := by
            simp only [List.length_cons, List.length_nil] at hle ⊢
            omega
          have hend := stageEnd_append hlt
          have hopen : (bytes ++ [byte]).length < stageEnd (bytes ++ [byte]) := by
            rw [hend, List.length_append]
            exact hlt
          have hincomplete : ¬ Complete (bytes ++ [byte]) := fun hcomplete =>
            hopen.ne hcomplete.length_eq
          rw [settle, if_neg hincomplete]
          have hrest := @ih (bytes ++ [byte]) (by simp)
            (fun hrefused => absurd hrefused.stageEnd_le (by omega))
            (fun hstuck => absurd hstuck.stageEnd_le (by omega))
            (by simp only [hend, List.length_append, List.length_cons, List.length_nil] at hle ⊢
                omega)
          simp only [List.append_assoc, List.singleton_append] at hrest
          simp only [Option.bind_some, List.nil_append, hrest, Option.map_id']

theorem feedAll_refused {bytes : List Byte} (hrefused : Refused bytes) (buf : List Byte) :
    feedAll bytes buf = some (bytes, []) := by
  induction buf with
  | nil => rfl
  | cons byte buf ih => simp [feedAll, feed, hrefused, ih]

theorem feedAll_stuck {bytes : List Byte} (hrefused : ¬ Refused bytes) (hstuck : Stuck bytes)
    (byte : Byte) (buf : List Byte) : feedAll bytes (byte :: buf) = none := by
  simp [feedAll, feed, hrefused, hstuck]

end DumaisLib.WebSocket
