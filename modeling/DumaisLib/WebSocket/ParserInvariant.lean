import DumaisLib.WebSocket.PayloadLength

/-!
# What every run of the frame parser preserves

As long as no extended payload length is damaged by sign extension or by the
64-bit sum, `dataIndex ≤ expectedLength ≤ currentBufferSize` holds throughout,
and `expectedLength` is the length of the frame.
-/

namespace DumaisLib.WebSocket

/-! ## One call -/

theorem stageStatus_of_lt {bytes : List Byte} (hlt : bytes.length < stageEnd bytes) :
    stageStatus bytes = .messageIncomplete := by
  simp only [stageStatus, hlt.ne, if_false, ite_self]
  split
  · rfl
  · rename_i hlong
    apply if_neg
    intro hmask
    simp only [stageEnd, hmask, or_true, if_true] at hlt
    exact hlong hlt

/-- The bytes reach exactly to the end of one of the three stages. -/
def AtStageEnd (bytes : List Byte) : Prop :=
  let header := WSHeader.read bytes
  bytes.length = 2 ∨
    header.mask = true ∧
      (bytes.length = header.headerSize ∨
        header.headerSize < bytes.length ∧
          bytes.length = sizeAdd header.headerSize (header.decodePayloadSize bytes))

theorem stageEnd_of_unmasked {bytes : List Byte} (hmask : (WSHeader.read bytes).mask = false) :
    stageEnd bytes = 2 := by
  simp [stageEnd, WSHeader.size, hmask]

theorem stageEnd_of_short {bytes : List Byte} (hshort : bytes.length < 2) :
    stageEnd bytes = 2 := by
  simp [stageEnd, WSHeader.size, hshort]

theorem stageEnd_of_header {bytes : List Byte} (hlong : 2 ≤ bytes.length)
    (hmask : (WSHeader.read bytes).mask = true)
    (hheader : bytes.length < (WSHeader.read bytes).headerSize) :
    stageEnd bytes = (WSHeader.read bytes).headerSize := by
  have hnot : ¬ (bytes.length < 2 ∨ (WSHeader.read bytes).mask = false) := by
    rintro (hshort | hunmasked)
    · exact absurd hlong hshort.not_ge
    · cases hmask.symm.trans hunmasked
  unfold stageEnd WSHeader.size
  rw [if_neg hnot, if_pos hheader]

theorem stageEnd_of_payload {bytes : List Byte} (hmask : (WSHeader.read bytes).mask = true)
    (hheader : (WSHeader.read bytes).headerSize ≤ bytes.length) :
    stageEnd bytes = sizeAdd (WSHeader.read bytes).headerSize
      ((WSHeader.read bytes).decodePayloadSize bytes) := by
  have hcases := (WSHeader.read bytes).headerSize_cases
  unfold stageEnd WSHeader.size
  rw [if_neg (by simp [hmask]; omega), if_neg (by omega)]

theorem stageEnd_lt (bytes : List Byte) : stageEnd bytes < 2 ^ 64 := by
  have hcases := (WSHeader.read bytes).headerSize_cases
  rcases Nat.lt_or_ge bytes.length 2 with hshort | hlong
  · rw [stageEnd_of_short hshort]
    decide
  · cases hmask : (WSHeader.read bytes).mask with
    | false =>
        rw [stageEnd_of_unmasked hmask]
        decide
    | true =>
        rcases Nat.lt_or_ge bytes.length (WSHeader.read bytes).headerSize with hlt | hge
        · rw [stageEnd_of_header hlong hmask hlt]
          omega
        · rw [stageEnd_of_payload hmask hge]
          exact Nat.mod_lt _ (by decide)

/-- Reading up to the end of a stage reaches the end of a stage. -/
theorem atStageEnd_append {bytes more : List Byte}
    (heq : bytes.length + more.length = stageEnd bytes) : AtStageEnd (bytes ++ more) := by
  rcases Nat.lt_or_ge bytes.length 2 with hshort | hlong
  · rw [stageEnd_of_short hshort] at heq
    exact Or.inl (by simpa using heq)
  · simp only [AtStageEnd, read_append hlong, List.length_append]
    cases hmask : (WSHeader.read bytes).mask with
    | false =>
        rw [stageEnd_of_unmasked hmask] at heq
        exact Or.inl heq
    | true =>
        rcases Nat.lt_or_ge bytes.length (WSHeader.read bytes).headerSize with hlt | hge
        · rw [stageEnd_of_header hlong hmask hlt] at heq
          exact Or.inr ⟨rfl, Or.inl heq⟩
        · rw [stageEnd_of_payload hmask hge] at heq
          rw [decodePayloadSize_append hge]
          exact Or.inr ⟨rfl, by omega⟩

/-- Recognising the end of a stage keeps the parser in step with its bytes. -/
theorem finishStage_tracks {parser : WSProtocolParser} {bytes : List Byte}
    (hdata : parser.data = bytes) (hindex : parser.dataIndex = bytes.length)
    (hexpected : parser.expectedLength = bytes.length)
    (hfits : bytes.length ≤ parser.currentBufferSize)
    (hdefault : DEFAULT_DATA_SIZE ≤ parser.currentBufferSize)
    (hsize : parser.currentBufferSize < 2 ^ 64) (hend : AtStageEnd bytes) :
    parser.finishStage.2 = stageStatus bytes ∧ Tracks parser.finishStage.1 bytes := by
  have hcases := (WSHeader.read bytes).headerSize_cases
  have hdefault' : 1024 ≤ parser.currentBufferSize := hdefault
  simp only [AtStageEnd] at hend
  simp only [WSProtocolParser.finishStage, hdata, hindex, hexpected, if_true]
  have hlong : 2 ≤ bytes.length := by
    rcases hend with hend | ⟨_, hend | ⟨hend, _⟩⟩ <;> omega
  cases hmask : (WSHeader.read bytes).mask with
  | false =>
      have hstage := stageEnd_of_unmasked hmask
      have hlength : bytes.length = 2 := by simpa [hmask] using hend
      rw [if_pos rfl]
      refine ⟨?_, hdata, hindex, by rw [hstage, ← hlength]; exact hexpected,
        by rw [hstage]; dsimp only; omega, hdefault, hsize⟩
      simp [stageStatus, WSHeader.size, hmask, hlength]
  | true =>
      simp only [hmask, true_and] at hend
      rw [if_neg (by decide)]
      by_cases htwo : bytes.length = 2
      · have hstage := stageEnd_of_header hlong hmask (by omega)
        rw [if_pos (show bytes.length = WSHeader.size from htwo), if_neg (by omega),
          if_neg (by omega)]
        refine ⟨?_, rfl, rfl, hstage.symm, by rw [hstage]; dsimp only; omega, hdefault,
          hsize⟩
        rw [stageStatus_of_lt (by omega)]
      · rw [if_neg (show bytes.length ≠ WSHeader.size from htwo)]
        by_cases hheader : bytes.length = (WSHeader.read bytes).headerSize
        · have hstage := stageEnd_of_payload hmask hheader.ge
          rw [if_pos hheader]
          have hfull := stageEnd_lt bytes
          refine ⟨?_, rfl, rfl, hstage.symm, ?_, ?_, ?_⟩
          · simp [stageStatus, WSHeader.size, hmask, hheader.le]
          · dsimp only
            split <;> omega
          · dsimp only
            unfold DEFAULT_DATA_SIZE
            split <;> omega
          · dsimp only
            split <;> omega
        · obtain ⟨hgt, hfull⟩ := (hend.resolve_left htwo).resolve_left hheader
          have hstage := (stageEnd_of_payload hmask hgt.le).trans hfull.symm
          rw [if_neg hheader, if_pos hgt]
          refine ⟨?_, rfl, rfl, hstage.symm, by rw [hstage]; exact hfits, hdefault, hsize⟩
          simp [stageStatus, WSHeader.size, hmask, hstage, Nat.not_lt.mpr hlong,
            Nat.not_le.mpr hgt]

/-- The bytes that a call takes from its buffer. -/
def stageTake (bytes buf : List Byte) : List Byte :=
  buf.take (stageEnd bytes - bytes.length)

/-- One call of the parser, as an operation on the bytes of the frame. -/
theorem parse_tracks {parser : WSProtocolParser} {bytes buf : List Byte}
    (tracks : Tracks parser bytes) (hle : bytes.length ≤ stageEnd bytes)
    (hbuf : bytes.length + buf.length < 2 ^ 64) :
    ∃ next,
      parser.parseWSMessage buf =
        some (next, ⟨stageStatus (bytes ++ stageTake bytes buf),
          (stageTake bytes buf).length⟩) ∧
      Tracks next (bytes ++ stageTake bytes buf) := by
  have hexpected := tracks.expectedLength_eq
  have hindex := tracks.dataIndex_eq
  have hfits := tracks.fits
  have hstage := stageEnd_lt bytes
  have htoRead : parser.toRead buf.length = (stageTake bytes buf).length := by
    simp only [WSProtocolParser.toRead, sizeAdd, sizeSub, stageTake, hexpected, hindex,
      List.length_take]
    split <;> omega
  have htake : buf.take (stageTake bytes buf).length = stageTake bytes buf := by
    simp [stageTake, List.take_eq_take_iff]
  have hlength : (stageTake bytes buf).length ≤ stageEnd bytes - bytes.length :=
    List.length_take_le _ _
  have hlength' : (stageTake bytes buf).length ≤ buf.length := List.length_take_le' _ _
  unfold WSProtocolParser.parseWSMessage
  rw [htoRead, if_pos ⟨hlength', by omega⟩, htake]
  have hdata : parser.data.take parser.dataIndex = bytes := by
    rw [tracks.data_eq, hindex, List.take_length]
  rw [hdata]
  rcases Nat.lt_or_ge (bytes.length + (stageTake bytes buf).length) (stageEnd bytes) with
    hlt | hge
  · have hnext := stageEnd_append hlt
    have hstatus : stageStatus (bytes ++ stageTake bytes buf) = .messageIncomplete :=
      stageStatus_of_lt (by simpa [hnext] using hlt)
    have hunfinished : parser.dataIndex + (stageTake bytes buf).length ≠ parser.expectedLength := by
      rw [hindex, hexpected]
      exact hlt.ne
    simp only [WSProtocolParser.finishStage, if_neg hunfinished]
    refine ⟨{ parser with data := _, dataIndex := _ }, by rw [hstatus], rfl, ?_, ?_, ?_,
      tracks.default_le, tracks.size_lt⟩
    · simp [hindex]
    · rw [hnext, hexpected]
    · rw [hnext]
      exact hfits
  · have heq : bytes.length + (stageTake bytes buf).length = stageEnd bytes := by omega
    obtain ⟨hstatus, hnext⟩ := @finishStage_tracks
      { parser with
        data := bytes ++ stageTake bytes buf
        dataIndex := parser.dataIndex + (stageTake bytes buf).length } _
      rfl (by simp [hindex]) (by simp [hexpected, heq]) (by simp; omega) tracks.default_le
      tracks.size_lt (atStageEnd_append heq)
    exact ⟨_, by rw [← hstatus], hnext⟩

/-- Where the sizes wrap around, the call writes out of bounds. -/
theorem parse_none_of_wrap {parser : WSProtocolParser} {bytes buf : List Byte}
    (tracks : Tracks parser bytes) (hle : bytes.length ≤ stageEnd bytes)
    (hbuf : buf.length < 2 ^ 64) (hwrap : 2 ^ 64 ≤ bytes.length + buf.length) :
    parser.parseWSMessage buf = none := by
  have hend := stageEnd_lt bytes
  have hsize := tracks.size_lt
  have htoRead : parser.toRead buf.length = buf.length := by
    rw [WSProtocolParser.toRead, tracks.dataIndex_eq, tracks.expectedLength_eq, sizeAdd,
      if_neg (by omega)]
  rw [WSProtocolParser.parseWSMessage]
  simp only [htoRead]
  rw [if_neg (by rw [tracks.dataIndex_eq]; omega)]

/-- A parser that has more bytes than it expects copies out of bounds. -/
theorem parse_none_of_overrun {parser : WSProtocolParser} {bytes buf : List Byte}
    (tracks : Tracks parser bytes) (hlt : stageEnd bytes < bytes.length)
    (hlength : bytes.length ≤ 2 ^ 64) (hbuf : buf.length < 2 ^ 64) :
    parser.parseWSMessage buf = none := by
  have hsize := tracks.size_lt
  have htoRead : 2 ^ 64 ≤ bytes.length + parser.toRead buf.length := by
    rw [WSProtocolParser.toRead, tracks.dataIndex_eq, tracks.expectedLength_eq, sizeAdd, sizeSub]
    split <;> omega
  rw [WSProtocolParser.parseWSMessage]
  simp only
  rw [if_neg (by rw [tracks.dataIndex_eq]; omega)]

end DumaisLib.WebSocket
