import DumaisLib.WebSocket.ParserInvariant

/-!
# Memory safety and the frame length over runs of the parser

A run is any sequence of calls on any bytes, with a reset after each ready
message.  The parser stays sound exactly as long as every header that a call
completes is decoded to the length it announces.
-/

namespace DumaisLib.WebSocket

/-- `dataIndex ≤ expectedLength ≤ currentBufferSize`, and the frame length is right. -/
structure WSProtocolParser.Sound (parser : WSProtocolParser) : Prop where
  index_le : parser.dataIndex ≤ parser.expectedLength
  length_le : parser.expectedLength ≤ parser.currentBufferSize
  length_eq : 2 ≤ parser.dataIndex → (WSHeader.read parser.data).mask = true →
    (WSHeader.read parser.data).headerSize ≤ parser.dataIndex →
    parser.expectedLength =
      (WSHeader.read parser.data).headerSize +
        (WSHeader.read parser.data).payloadLength parser.data

/-- The call brings the last byte of a masked header. -/
def CompletesHeader (parser : WSProtocolParser) (buf : List Byte) : Prop :=
  let header := WSHeader.read parser.data
  2 ≤ parser.dataIndex ∧ header.mask = true ∧ parser.dataIndex < header.headerSize ∧
    header.headerSize ≤ parser.dataIndex + buf.length

instance (parser : WSProtocolParser) (buf : List Byte) :
    Decidable (CompletesHeader parser buf) := by
  unfold CompletesHeader
  infer_instance

/-- The sizes fit in `size_t`, and a completed header is decoded as announced. -/
def LengthSafe (parser : WSProtocolParser) (buf : List Byte) : Prop :=
  parser.dataIndex + buf.length < 2 ^ 64 ∧
    (CompletesHeader parser buf → WSHeader.LengthDecodes (parser.data ++ buf))

instance (parser : WSProtocolParser) (buf : List Byte) : Decidable (LengthSafe parser buf) := by
  unfold LengthSafe
  infer_instance

def WSParsingStatus.isReady : WSParsingStatus → Bool
  | .messageReady .. => true
  | _ => false

/-- The states of all runs of allowed calls; the flag says that a reset is due. -/
inductive ParserReachable (allowed : WSProtocolParser → List Byte → Prop) :
    WSProtocolParser → Bool → Prop where
  | create : ParserReachable allowed .create false
  | parse {parser next : WSProtocolParser} {buf : List Byte} {result : WSParsingResult} :
      ParserReachable allowed parser false → allowed parser buf →
      parser.parseWSMessage buf = some (next, result) →
      ParserReachable allowed next result.status.isReady
  | reset {parser : WSProtocolParser} :
      ParserReachable allowed parser true →
      ParserReachable allowed parser.resetMessageBuffer false

/-! ## Soundness in terms of the frame's bytes -/

/-- A complete masked header among the bytes is decoded as announced. -/
structure FrameSound (bytes : List Byte) : Prop where
  length_le : bytes.length ≤ stageEnd bytes
  decodes : 2 ≤ bytes.length → (WSHeader.read bytes).mask = true →
    (WSHeader.read bytes).headerSize ≤ bytes.length → WSHeader.LengthDecodes bytes

theorem frameSound_nil : FrameSound [] :=
  ⟨Nat.zero_le _, fun hlong => absurd hlong (by decide)⟩

theorem two_le_headerSize (header : WSHeader) : 2 ≤ header.headerSize := by
  rcases header.headerSize_cases with hsize | hsize | hsize <;> omega

theorem lengthDecodes_append {bytes more : List Byte}
    (hheader : (WSHeader.read bytes).headerSize ≤ bytes.length) :
    WSHeader.LengthDecodes (bytes ++ more) ↔ WSHeader.LengthDecodes bytes := by
  have hlong := (two_le_headerSize _).trans hheader
  have hread : WSHeader.read (bytes ++ more) = WSHeader.read bytes := read_append hlong
  have hfield : (WSHeader.read bytes).lengthField (bytes ++ more) =
      (WSHeader.read bytes).lengthField bytes := by
    unfold WSHeader.headerSize WSHeader.size at hheader
    have htake (count : Nat) (hcount : 2 + count ≤ bytes.length) :
        ((bytes ++ more).drop 2).take count = (bytes.drop 2).take count := by
      rw [List.drop_append_of_le_length hlong, List.take_append_of_le_length]
      rw [List.length_drop]
      omega
    unfold WSHeader.lengthField
    split
    · rename_i htwo
      rw [if_pos htwo] at hheader
      exact htake 2 (by omega)
    · rename_i htwo
      split
      · rename_i height
        rw [if_neg htwo, if_pos height] at hheader
        exact htake 8 (by omega)
      · rfl
  simp only [WSHeader.LengthDecodes, WSHeader.SignSafe, WSHeader.payloadLength, hread, hfield]

theorem Tracks.sound_iff {parser : WSProtocolParser} {bytes : List Byte}
    (tracks : Tracks parser bytes) : parser.Sound ↔ FrameSound bytes := by
  have hlength (hmask : (WSHeader.read bytes).mask = true)
      (hheader : (WSHeader.read bytes).headerSize ≤ bytes.length) :
      stageEnd bytes = (WSHeader.read bytes).headerSize +
          (WSHeader.read bytes).payloadLength bytes ↔
        WSHeader.LengthDecodes bytes := by
    rw [stageEnd_of_payload hmask hheader]
    exact WSHeader.frameLength_eq_iff hheader
  constructor
  · intro sound
    refine ⟨?_, fun hlong hmask hheader => ?_⟩
    · rw [← tracks.dataIndex_eq, ← tracks.expectedLength_eq]
      exact sound.index_le
    · have heq := sound.length_eq
      rw [tracks.data_eq, tracks.dataIndex_eq, tracks.expectedLength_eq] at heq
      exact (hlength hmask hheader).mp (heq hlong hmask hheader)
  · intro sound
    refine ⟨?_, ?_, fun hlong hmask hheader => ?_⟩
    · rw [tracks.dataIndex_eq, tracks.expectedLength_eq]
      exact sound.length_le
    · rw [tracks.expectedLength_eq]
      exact tracks.fits
    · rw [tracks.dataIndex_eq, tracks.data_eq] at *
      rw [tracks.expectedLength_eq]
      exact (hlength hmask hheader).mpr (sound.decodes hlong hmask hheader)

theorem frameSound_of_incomplete {bytes : List Byte}
    (hheader : (WSHeader.read bytes).mask = true →
      bytes.length < (WSHeader.read bytes).headerSize)
    (hmask : (WSHeader.read bytes).mask = false → bytes.length ≤ 2) : FrameSound bytes := by
  refine ⟨?_, fun _ htrue hge => absurd (hheader htrue) (by omega)⟩
  rcases Nat.lt_or_ge bytes.length 2 with hshort | hlong
  · rw [stageEnd_of_short hshort]
    omega
  · cases hcase : (WSHeader.read bytes).mask with
    | false =>
        rw [stageEnd_of_unmasked hcase]
        exact hmask hcase
    | true =>
        rw [stageEnd_of_header hlong hcase (hheader hcase)]
        exact (hheader hcase).le

theorem frameSound_of_decodes {bytes : List Byte}
    (hmask : (WSHeader.read bytes).mask = true)
    (hheader : (WSHeader.read bytes).headerSize ≤ bytes.length)
    (hdecodes : WSHeader.LengthDecodes bytes)
    (hle : bytes.length ≤ (WSHeader.read bytes).headerSize +
      (WSHeader.read bytes).payloadLength bytes) : FrameSound bytes := by
  refine ⟨?_, fun _ _ _ => hdecodes⟩
  rw [stageEnd_of_payload hmask hheader]
  exact ((WSHeader.frameLength_eq_iff hheader).mpr hdecodes).symm ▸ hle

/-- What a call adds is sound exactly when the header it completes is. -/
theorem frameSound_append_iff {bytes : List Byte} (sound : FrameSound bytes)
    (buf : List Byte) :
    FrameSound (bytes ++ stageTake bytes buf) ↔
      (2 ≤ bytes.length ∧ (WSHeader.read bytes).mask = true ∧
          bytes.length < (WSHeader.read bytes).headerSize ∧
          (WSHeader.read bytes).headerSize ≤ bytes.length + buf.length →
        WSHeader.LengthDecodes (bytes ++ buf)) := by
  have hle := sound.length_le
  have htake : (stageTake bytes buf).length = min (stageEnd bytes - bytes.length) buf.length :=
    List.length_take
  have hlength : (bytes ++ stageTake bytes buf).length =
      bytes.length + min (stageEnd bytes - bytes.length) buf.length := by
    rw [List.length_append, htake]
  rcases Nat.lt_or_ge bytes.length 2 with hshort | hlong
  · -- the call ends with the two fixed bytes at the latest
    rw [stageEnd_of_short hshort] at hlength
    refine iff_of_true ?_ fun hcompletes => absurd hcompletes.1 (by omega)
    have hsize := two_le_headerSize (WSHeader.read (bytes ++ stageTake bytes buf))
    have hcases := (WSHeader.read (bytes ++ stageTake bytes buf)).headerSize_cases
    exact frameSound_of_incomplete (fun _ => by omega) fun _ => by omega
  · have hread (more : List Byte) : WSHeader.read (bytes ++ more) = WSHeader.read bytes :=
      read_append hlong
    cases hmask : (WSHeader.read bytes).mask with
    | false =>
        rw [stageEnd_of_unmasked hmask] at hlength hle
        refine iff_of_true ?_ fun hcompletes => absurd hcompletes.2.1 (by decide)
        refine frameSound_of_incomplete (fun htrue => ?_) fun _ => by omega
        rw [hread, hmask] at htrue
        exact absurd htrue (by decide)
    | true =>
        rcases Nat.lt_or_ge bytes.length (WSHeader.read bytes).headerSize with hlt | hge
        · rw [stageEnd_of_header hlong hmask hlt] at hlength
          rcases Nat.lt_or_ge (bytes.length + buf.length) (WSHeader.read bytes).headerSize with
            hpart | hfull
          · refine iff_of_true ?_ fun hcompletes => absurd hcompletes.2.2.2 (by omega)
            refine frameSound_of_incomplete (fun _ => ?_) fun hfalse => ?_
            · rw [hread]
              omega
            · rw [hread, hmask] at hfalse
              exact absurd hfalse (by decide)
          · have hheader : (WSHeader.read (bytes ++ stageTake bytes buf)).headerSize =
                (bytes ++ stageTake bytes buf).length := by
              rw [hread]
              omega
            have hsplit : bytes ++ buf =
                bytes ++ stageTake bytes buf ++ buf.drop (stageEnd bytes - bytes.length) := by
              rw [List.append_assoc, stageTake, List.take_append_drop]
            rw [hsplit, lengthDecodes_append hheader.le]
            constructor
            · intro hsound _
              exact hsound.decodes (by omega) (by rw [hread]; exact hmask) hheader.le
            · intro hdecodes
              exact frameSound_of_decodes (by rw [hread]; exact hmask) hheader.le
                (hdecodes ⟨hlong, rfl, hlt, hfull⟩) (by omega)
        · have hdecodes := sound.decodes hlong hmask hge
          have hend := stageEnd_of_payload hmask hge
          rw [(WSHeader.frameLength_eq_iff hge).mpr hdecodes] at hend
          refine iff_of_true ?_ fun hcompletes => absurd hcompletes.2.2.1 (by omega)
          have hnext : stageEnd (bytes ++ stageTake bytes buf) = stageEnd bytes := by
            rw [stageEnd_of_payload (by rw [hread]; exact hmask) (by rw [hread, hlength]; omega),
              hread, decodePayloadSize_append hge, ← stageEnd_of_payload hmask hge]
          exact ⟨by rw [hnext]; omega, fun _ _ _ => (lengthDecodes_append hge).mpr hdecodes⟩

/-! ## Runs -/

/-- From a sound parser, a call is sound exactly when it is length-safe. -/
theorem call_sound_iff {parser : WSProtocolParser} {bytes buf : List Byte}
    (tracks : Tracks parser bytes) (sound : FrameSound bytes) (hbuf : buf.length < 2 ^ 64) :
    LengthSafe parser buf ↔
      ∃ next result, parser.parseWSMessage buf = some (next, result) ∧ next.Sound := by
  rcases Nat.lt_or_ge (bytes.length + buf.length) (2 ^ 64) with hlt | hwrap
  · obtain ⟨next, hparse, hnext⟩ := parse_tracks tracks sound.length_le hlt
    have hiff := frameSound_append_iff sound buf
    rw [← hnext.sound_iff] at hiff
    unfold LengthSafe CompletesHeader
    rw [tracks.data_eq, tracks.dataIndex_eq, ← hiff, hparse]
    constructor
    · intro hsafe
      exact ⟨next, _, rfl, hsafe.2⟩
    · rintro ⟨_, _, heq, hsound⟩
      obtain ⟨rfl, -⟩ := Prod.mk.inj (Option.some.inj heq)
      exact ⟨hlt, hsound⟩
  · rw [parse_none_of_wrap tracks sound.length_le hbuf hwrap, LengthSafe, tracks.dataIndex_eq]
    constructor
    · intro hsafe
      exact absurd hsafe.1 (by omega)
    · rintro ⟨_, _, heq, _⟩
      exact absurd heq (by simp)

/-- Every state of a length-safe run tracks the bytes of a soundly framed message. -/
theorem ParserReachable.tracks {parser : WSProtocolParser} {due : Bool}
    (hreach : ParserReachable LengthSafe parser due) :
    ∃ bytes, Tracks parser bytes ∧ FrameSound bytes := by
  induction hreach with
  | create => exact ⟨[], Tracks.create, frameSound_nil⟩
  | @parse parser next buf result _ hallowed hparse ih =>
      obtain ⟨bytes, tracks, sound⟩ := ih
      have hlt : bytes.length + buf.length < 2 ^ 64 := tracks.dataIndex_eq ▸ hallowed.1
      obtain ⟨next', hparse', hnext⟩ := parse_tracks tracks sound.length_le hlt
      obtain ⟨next'', result', hparse'', hsound⟩ :=
        (call_sound_iff tracks sound (by omega)).mp hallowed
      obtain ⟨rfl, rfl⟩ := Prod.mk.inj (Option.some.inj (hparse.symm.trans hparse''))
      obtain ⟨rfl, -⟩ := Prod.mk.inj (Option.some.inj (hparse.symm.trans hparse'))
      exact ⟨_, hnext, hnext.sound_iff.mp hsound⟩
  | reset _ ih =>
      obtain ⟨bytes, tracks, _⟩ := ih
      exact ⟨[], tracks.reset, frameSound_nil⟩

/--
In every run of length-safe calls the parser is sound in every state, and there
a further call stays inside both buffers and keeps the parser sound exactly
when it is length-safe.
-/
theorem length_safe_runs_sound {parser : WSProtocolParser} {due : Bool}
    (hreach : ParserReachable LengthSafe parser due) :
    parser.Sound ∧
      ∀ buf : List Byte, buf.length < 2 ^ 64 →
        (LengthSafe parser buf ↔
          ∃ next result, parser.parseWSMessage buf = some (next, result) ∧ next.Sound) := by
  obtain ⟨bytes, tracks, sound⟩ := hreach.tracks
  exact ⟨tracks.sound_iff.mpr sound, fun buf hbuf => call_sound_iff tracks sound hbuf⟩

theorem length_safe_runs_sound_header :
    (⟨[0x82#8, 0xFE#8, 0x00#8, 0x78#8, 1#8, 2#8, 3#8, 4#8], 8, 1024, 128⟩ :
      WSProtocolParser).Sound :=
  have hfixed := @ParserReachable.parse LengthSafe _ _ [0x82#8, 0xFE#8] _ .create
    (by decide) rfl
  have hheader := @ParserReachable.parse LengthSafe _ _
    [0x00#8, 0x78#8, 1#8, 2#8, 3#8, 4#8] _ hfixed (by decide) rfl
  (length_safe_runs_sound hheader).1

/--
A length field of two `0xFF` bytes becomes `-1`: after the header the parser
expects fewer bytes than it has, and the next byte is copied out of bounds.
-/
theorem sign_extended_length_unsound :
    ∃ parser, ParserReachable (fun _ _ => True) parser false ∧
      parser.expectedLength < parser.dataIndex ∧ parser.parseWSMessage [0x00#8] = none :=
  have hfixed := @ParserReachable.parse (fun _ _ => True) _ _ [0x82#8, 0xFE#8] _ .create
    trivial rfl
  have hheader := @ParserReachable.parse (fun _ _ => True) _ _
    [0xFF#8, 0xFF#8, 1#8, 2#8, 3#8, 4#8] _ hfixed trivial rfl
  ⟨_, hheader, by decide, by decide⟩

end DumaisLib.WebSocket
