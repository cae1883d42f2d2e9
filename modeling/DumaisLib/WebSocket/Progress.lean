import DumaisLib.WebSocket.ReceiveLoop

/-!
# When the receive loop terminates

In every state of a connection, `processData` returns exactly when no byte of
its buffer arrives at a frame on which the parser is stuck.
-/

set_option linter.dupNamespace false

namespace DumaisLib.WebSocket

open Machine

/-- A stuck frame has all the bytes that its header announces, or its length has
wrapped around.  An announced payload of no bytes is there with the header. -/
theorem stuck_iff {bytes : List Byte} :
    Stuck bytes ↔
      (WSHeader.read bytes).mask = true ∧ (WSHeader.read bytes).headerSize ≤ bytes.length ∧
        ((WSHeader.read bytes).headerSize + (WSHeader.read bytes).decodePayloadSize bytes ≤
            bytes.length ∨
          2 ^ 64 ≤
            (WSHeader.read bytes).headerSize + (WSHeader.read bytes).decodePayloadSize bytes) := by
  have hdecode := (WSHeader.read bytes).decodePayloadSize_lt bytes
  have hcases := (WSHeader.read bytes).headerSize_cases
  simp only [Stuck, sizeAdd]
  constructor
  · rintro ⟨hmask, hheader, hle⟩
    exact ⟨hmask, hheader, by omega⟩
  · rintro ⟨hmask, hheader, hle⟩
    exact ⟨hmask, hheader, by omega⟩

/-- No byte of the buffer arrives at a stuck frame, and the sizes fit in `size_t`. -/
def Consumable (parser : WSProtocolParser) (buf : List Byte) : Prop :=
  (buf ≠ [] → parser.dataIndex + buf.length < 2 ^ 64) ∧ (feedAll parser.data buf).isSome

instance (parser : WSProtocolParser) (buf : List Byte) : Decidable (Consumable parser buf) := by
  unfold Consumable
  infer_instance

namespace WebSocket

variable {app : Application} {now : Nat}

/-- More fuel does not change how a loop finishes. -/
theorem receiveLoop_mono {fuel more : Nat} {ws next : WebSocket} {buf : List Byte}
    (hle : fuel ≤ more) (hfinished : receiveLoop app now fuel ws buf = .finished next) :
    receiveLoop app now more ws buf = .finished next := by
  induction fuel generalizing more ws buf with
  | zero =>
      cases buf with
      | nil => cases more <;> exact hfinished
      | cons byte buf => cases hfinished
  | succ fuel ih =>
      by_cases hne : buf = []
      · subst hne
        cases more <;> exact hfinished
      · obtain ⟨more, rfl⟩ := Nat.exists_eq_add_one.mpr (show 0 < more by omega)
        rw [receiveLoop_cons _ ws hne] at hfinished ⊢
        cases hiterate : ws.iterate app now buf with
        | none => simp [hiterate] at hfinished
        | some iteration =>
            rw [hiterate] at hfinished
            cases iteration with
            | leave left => exact hfinished
            | again left rest => exact ih (by omega) hfinished

/-- The receive loop returns, and each iteration that stays in it makes progress,
exactly on the consumable buffers. -/
theorem receiveLoop_finishes_iff {ws : WebSocket} {bytes buf : List Byte}
    (tracks : Tracks ws.wsParser bytes) (collected : Collected bytes)
    (hbuf : buf.length < 2 ^ 64) :
    (Progresses app now ws buf ↔ Consumable ws.wsParser buf) ∧
      ((∃ fuel next, receiveLoop app now fuel ws buf = .finished next) ↔
        Consumable ws.wsParser buf) := by
  have hprogress (hconsumable : Consumable ws.wsParser buf) : Progresses app now ws buf := by
    by_cases hne : buf = []
    · subst hne
      exact .done ws
    · obtain ⟨⟨fed, frames⟩, hfeed⟩ := Option.isSome_iff_exists.mp hconsumable.2
      rw [tracks.data_eq] at hfeed
      obtain ⟨_, _, _, hprogress, _⟩ := receiveLoop_feeds tracks collected
        (by simpa [tracks.dataIndex_eq] using hconsumable.1 hne) hne hfeed le_rfl
      exact hprogress
  have hconsumable {fuel : Nat} {next : WebSocket}
      (hfinished : receiveLoop app now fuel ws buf = .finished next) :
      Consumable ws.wsParser buf := by
    by_cases hne : buf = []
    · subst hne
      exact ⟨fun hne => absurd rfl hne, rfl⟩
    · have hsize : bytes.length + buf.length < 2 ^ 64 := by
        by_contra hwrap
        have hparse : ws.wsParser.parseWSMessage buf = none := by
          rcases Nat.lt_or_ge (stageEnd bytes) bytes.length with hlt | hle
          · exact parse_none_of_overrun tracks hlt collected.length_lt.le hbuf
          · exact parse_none_of_wrap tracks hle hbuf (by omega)
        cases fuel with
        | zero =>
            obtain ⟨byte, buf, rfl⟩ := List.exists_cons_of_ne_nil hne
            cases hfinished
        | succ fuel =>
            rw [receiveLoop_cons fuel ws hne] at hfinished
            simp [iterate, hparse] at hfinished
      refine ⟨fun _ => by rwa [tracks.dataIndex_eq], ?_⟩
      rw [tracks.data_eq]
      cases hfeed : feedAll bytes buf with
      | none => exact absurd hfinished (receiveLoop_stalls tracks collected hsize hfeed fuel next)
      | some fed => rfl
  refine ⟨⟨fun hprogress => ?_, hprogress⟩, ?_, fun hfits => ?_⟩
  · obtain ⟨_, hfinished⟩ := hprogress.terminates le_rfl
    exact hconsumable hfinished
  · rintro ⟨_, _, hfinished⟩
    exact hconsumable hfinished
  · obtain ⟨next, hfinished⟩ := (hprogress hfits).terminates le_rfl
    exact ⟨_, next, hfinished⟩

/-- Where the loop finishes, the parser again tracks collected bytes. -/
theorem receiveLoop_collected {ws next : WebSocket} {bytes buf : List Byte} {fuel : Nat}
    (tracks : Tracks ws.wsParser bytes) (collected : Collected bytes)
    (hbuf : buf.length < 2 ^ 64)
    (hfinished : receiveLoop app now fuel ws buf = .finished next) :
    ∃ bytes, Tracks next.wsParser bytes ∧ Collected bytes := by
  by_cases hne : buf = []
  · subst hne
    have hnext : ws = next := by
      cases fuel <;> exact Outcome.finished.inj hfinished
    exact hnext ▸ ⟨bytes, tracks, collected⟩
  · have hconsumable := (receiveLoop_finishes_iff tracks collected hbuf).2.mp
      ⟨fuel, next, hfinished⟩
    obtain ⟨⟨fed, frames⟩, hfeed⟩ := Option.isSome_iff_exists.mp hconsumable.2
    rw [tracks.data_eq] at hfeed
    obtain ⟨p, htracks, hcollected, _, hloop⟩ := receiveLoop_feeds tracks collected
      (by simpa [tracks.dataIndex_eq] using hconsumable.1 hne) hne hfeed
      (le_max_right fuel buf.length)
    rw [receiveLoop_mono (le_max_left fuel buf.length) hfinished] at hloop
    rw [Outcome.finished.inj hloop]
    exact ⟨fed, htracks, hcollected⟩

/-! ## All states of a connection -/

theorem checkHTTPBuffer_wsParser {ws next : WebSocket} {buffer : List Byte}
    (hcheck : ws.checkHTTPBuffer app buffer = some next) : next.wsParser = ws.wsParser := by
  unfold checkHTTPBuffer at hcheck
  split at hcheck
  · cases hcheck
  · dsimp only at hcheck
    split at hcheck
    · obtain rfl := Option.some.inj hcheck
      rfl
    · split at hcheck
      · obtain rfl := Option.some.inj hcheck
        rfl
      · split at hcheck
        · obtain rfl := Option.some.inj hcheck
          simp
        · split at hcheck
          · obtain rfl := Option.some.inj hcheck
            simp
          · split at hcheck
            · obtain rfl := Option.some.inj hcheck
              rfl
            · obtain rfl := Option.some.inj hcheck
              simp

@[simp] theorem getTxData_wsParser (ws : WebSocket) : ws.getTxData.2.wsParser = ws.wsParser := by
  unfold getTxData
  split
  · rfl
  · cases hcurrent : ws.currentSendBuffer with
    | none =>
        generalize ws.txList.get = fetched
        obtain ⟨sendBuffer, txList⟩ := fetched
        rw [if_pos rfl]
        cases sendBuffer with
        | none => rfl
        | some sendBuffer => rfl
    | some current => simp [hcurrent]

@[simp] theorem onDataSent_wsParser (ws : WebSocket) (size : Nat) :
    (ws.onDataSent size).wsParser = ws.wsParser := by
  simp only [onDataSent]
  split
  · rfl
  · split <;> rfl

@[simp] theorem watchdog_wsParser (ws : WebSocket) (now : Nat) :
    (ws.watchdog now).2.wsParser = ws.wsParser := by
  simp only [watchdog]
  split
  · rfl
  · split <;> rfl

/-- In every state of a connection the parser tracks collected bytes. -/
theorem Reachable.collected {ws : WebSocket} (hreach : Reachable app ws) :
    ∃ bytes, Tracks ws.wsParser bytes ∧ Collected bytes := by
  induction hreach with
  | create => exact ⟨[], Tracks.create, collected_nil⟩
  | @processData ws next now fuel buf alive _ hbuf hprocess ih =>
      obtain ⟨bytes, tracks, collected⟩ := ih
      unfold WebSocket.processData at hprocess
      split at hprocess
      · split at hprocess
        · cases hprocess
        · rename_i hcheck
          obtain ⟨-, rfl⟩ := Prod.mk.inj (Outcome.finished.inj hprocess)
          rw [checkHTTPBuffer_wsParser hcheck]
          exact ⟨bytes, tracks, collected⟩
      · split at hprocess
        · cases hprocess
        · cases hprocess
        · rename_i hfinished
          obtain ⟨-, rfl⟩ := Prod.mk.inj (Outcome.finished.inj hprocess)
          exact receiveLoop_collected tracks collected hbuf hfinished
  | send call _ ih => simpa using ih
  | getTxData _ ih => simpa using ih
  | onDataSent size _ ih => simpa using ih
  | watchdog now _ ih => simpa using ih

/-- After the handshake `processData` returns exactly when its loop does. -/
theorem processData_finishes_iff {ws : WebSocket} (hprotocol : ws.protocol = .webSocket)
    {fuel : Nat} {buf : List Byte} :
    (∃ alive next, ws.processData app now fuel buf = .finished (alive, next)) ↔
      ∃ next, receiveLoop app now fuel ws buf = .finished next := by
  simp only [WebSocket.processData, hprotocol]
  cases hloop : receiveLoop app now fuel ws buf with
  | outOfFuel => simp
  | fault => simp
  | finished next => simp [em]

/--
In every state after the handshake and for every buffer: `processData` returns,
and each iteration of its loop leaves it or consumes a byte, exactly when no
byte of the buffer arrives at a stuck frame.
-/
theorem processData_terminates_iff {ws : WebSocket} (hreach : Reachable app ws)
    (hprotocol : ws.protocol = .webSocket) {buf : List Byte} (hbuf : buf.length < 2 ^ 64) :
    (Progresses app now ws buf ↔ Consumable ws.wsParser buf) ∧
      ((∃ fuel alive next, ws.processData app now fuel buf = .finished (alive, next)) ↔
        Consumable ws.wsParser buf) := by
  obtain ⟨bytes, tracks, collected⟩ := hreach.collected
  obtain ⟨hprogress, hfinishes⟩ :=
    @receiveLoop_finishes_iff app now ws bytes buf tracks collected hbuf
  refine ⟨hprogress, Iff.trans ?_ hfinishes⟩
  exact exists_congr fun fuel => processData_finishes_iff hprotocol

/-- An application that accepts every request and never sends anything. -/
def acceptAll : Application where
  onWebSocketRequest := some fun _ => some []
  onNewConnection := none
  onConnectionClosed := false
  onMessage := some fun _ => []
  digest := id

/-- The shortest request is enough to open a connection. -/
theorem exists_opened :
    ∃ ws, Reachable acceptAll ws ∧ ws.protocol = .webSocket ∧ ws.wsParser = .create := by
  let fresh := create 0 .closed fun _ => ⟨[], 0, 0, false⟩
  let request := Text.toBytes "GET / \r\nSec-WebSocket-Key:k\r\n\r\n".toList
  have hopens : (fresh.checkHTTPBuffer acceptAll request).map (·.protocol) =
      some .webSocket := by
    decide +kernel
  obtain ⟨ws, hcheck, hprotocol⟩ := Option.map_eq_some_iff.mp hopens
  have hprocess : fresh.processData acceptAll 0 0 request = .finished (true, ws) := by
    rw [WebSocket.processData, show fresh.protocol = .http from rfl]
    simp only [hcheck]
  exact ⟨ws, .processData (.create _ _ _) (by decide) hprocess, hprotocol,
    checkHTTPBuffer_wsParser hcheck⟩

theorem processData_terminates_iff_text :
    ∃ ws : WebSocket, ∃ fuel alive next, ws.processData acceptAll 0 fuel
      [0x81#8, 0x81#8, 1#8, 2#8, 3#8, 4#8, 0x60#8, 0x89#8] = .finished (alive, next) := by
  obtain ⟨ws, hreach, hprotocol, hparser⟩ := exists_opened
  refine ⟨ws, ((processData_terminates_iff hreach hprotocol (by decide)).2.mpr ?_)⟩
  rw [hparser]
  decide

/-- The byte after a masked frame without payload is never consumed. -/
theorem empty_frame_hangs :
    ∃ ws, Reachable acceptAll ws ∧ ws.protocol = .webSocket ∧
      ∀ now fuel alive next, ws.processData acceptAll now fuel
        [0x82#8, 0x80#8, 1#8, 2#8, 3#8, 4#8, 0x82#8] ≠ .finished (alive, next) := by
  obtain ⟨ws, hreach, hprotocol, hparser⟩ := exists_opened
  refine ⟨ws, hreach, hprotocol, fun now fuel alive next hprocess => ?_⟩
  obtain ⟨bytes, tracks, collected⟩ := hreach.collected
  obtain ⟨next, hfinished⟩ := (processData_finishes_iff hprotocol).mp ⟨alive, next, hprocess⟩
  have hconsumable := (receiveLoop_finishes_iff tracks collected (by decide)).2.mp
    ⟨fuel, next, hfinished⟩
  rw [hparser] at hconsumable
  exact absurd hconsumable (by decide)

end WebSocket

end DumaisLib.WebSocket
