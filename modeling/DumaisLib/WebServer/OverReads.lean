import DumaisLib.Lib.Machine
import DumaisLib.WebServer.HTTPFramingStrategy

/-!
# What the framing reads behind its buffer

The received bytes become a string up to the first NUL, wherever that is.  The
string ends in the received bytes exactly when one of them is NUL.
-/

namespace DumaisLib.WebServer.HTTPFramingStrategy

open Machine

/-- A call: the bytes that are passed, and the memory behind the message up to a NUL. -/
structure Call where
  buffer : Text
  after : Text

namespace Call

/-- The message for the next call; an error ends the connection. -/
def receive (info : FullMessageInfo) (call : Call) : Option FullMessageInfo :=
  let result := processData call.after call.buffer info
  if result.1 < 0 then none
  else if result.2.complete then some .empty
  else some result.2

/-- The return value, and the message when it is complete. -/
def answer (info : FullMessageInfo) (call : Call) : Int × Option Text :=
  let result := processData call.after call.buffer info
  (result.1, if result.2.complete then some result.2.held else none)

/-- The answers to the calls, up to an error. -/
def answers : FullMessageInfo → List Call → List (Int × Option Text)
  | _, [] => []
  | info, call :: calls =>
      answer info call :: (receive info call).elim [] fun next => answers next calls

/-- The number of bytes that the construction of the string reads, its NUL included. -/
def examined (info : FullMessageInfo) (call : Call) : Nat :=
  (Text.cstr (info.held ++ call.buffer ++ call.after)).length + 1

/-- All bytes that are read are received ones. -/
def ReadsReceived (info : FullMessageInfo) (call : Call) : Prop :=
  call.examined info ≤ info.size + call.buffer.length

/-- One of the bytes received for the message is NUL. -/
def HasNul (info : FullMessageInfo) (call : Call) : Prop :=
  '\x00' ∈ info.held ++ call.buffer

/-- The size counts the bytes that are held. -/
def Counted (info : FullMessageInfo) : Prop :=
  info.size = info.held.length

theorem counted_empty : Counted .empty :=
  rfl

/-! ## One call -/

/-- A call reports an error, completes the message or holds what was received. -/
theorem processData_counted {info : FullMessageInfo} (hcounted : Counted info)
    (after buffer : Text) :
    let result := processData after buffer info
    result.1 < 0 ∨ result.2.complete = true ∨ Counted result.2 := by
  have hheld : (info.held ++ buffer).take (info.size + buffer.length) = info.held ++ buffer := by
    rw [hcounted, ← List.length_append, List.take_length]
  have hextended (info' : FullMessageInfo) (hsize : info'.size = info.size + buffer.length)
      (hbuffer : info'.buffer = some (info.held ++ buffer)) : Counted info' := by
    rw [Counted, FullMessageInfo.held, hsize, hbuffer, Option.getD_some, hheld,
      List.length_append, hcounted]
  unfold processData
  dsimp only
  split
  · split
    · exact Or.inl (show (-2 : Int) < 0 by decide)
    · exact Or.inr (Or.inr (hextended _ rfl rfl))
  · split
    · exact Or.inl (show (-3 : Int) < 0 by decide)
    · split
      · exact Or.inr (Or.inr (hextended _ rfl rfl))
      · exact Or.inr (Or.inl rfl)

theorem counted_receive {info next : FullMessageInfo} {call : Call} (hcounted : Counted info)
    (hreceive : receive info call = some next) : Counted next := by
  have hcases := processData_counted hcounted call.after call.buffer
  unfold receive at hreceive
  dsimp only at hreceive hcases
  split at hreceive
  · cases hreceive
  · rename_i hpos
    split at hreceive
    · obtain rfl := Option.some.inj hreceive
      exact counted_empty
    · rename_i hincomplete
      obtain rfl := Option.some.inj hreceive
      exact (hcases.resolve_left hpos).resolve_left hincomplete

theorem readsReceived_iff {info : FullMessageInfo} (hcounted : Counted info) (call : Call) :
    ReadsReceived info call ↔ HasNul info call := by
  unfold ReadsReceived HasNul examined
  rw [hcounted, ← List.length_append, Text.cstr_append]
  constructor
  · intro hle
    by_contra hnul
    rw [if_neg hnul, List.length_append] at hle
    omega
  · intro hnul
    rw [if_pos hnul]
    exact Text.cstr_length_lt hnul

/-- With a NUL among the received bytes the memory behind them makes no difference. -/
theorem processData_after {info : FullMessageInfo} {call : Call} (hnul : HasNul info call)
    (after : Text) : processData call.after call.buffer info = processData after call.buffer info := by
  have hsame (behind : Text) :
      Text.cstr (info.held ++ call.buffer ++ behind) = Text.cstr (info.held ++ call.buffer) := by
    rw [Text.cstr_append]
    exact if_pos hnul
  unfold processData
  simp only [hsame]

/-! ## Runs -/

theorem answers_eq {info : FullMessageInfo} {calls others : List Call}
    (hsame : others.map (·.buffer) = calls.map (·.buffer))
    (hnul : Throughout receive HasNul info calls) : answers info others = answers info calls := by
  induction calls generalizing info others with
  | nil =>
      obtain rfl := List.map_eq_nil_iff.mp hsame
      rfl
  | cons call calls ih =>
      obtain ⟨other, rest, rfl, hbuffer, hrest⟩ := List.map_eq_cons_iff.mp hsame
      have hcall : processData other.after other.buffer info =
          processData call.after call.buffer info := by
        rw [hbuffer]
        exact (processData_after hnul.1 other.after).symm
      have hanswer : answer info other = answer info call := by
        unfold answer
        rw [hcall]
      have hreceive : receive info other = receive info call := by
        unfold receive
        rw [hcall]
      rw [answers, answers, hanswer, hreceive]
      cases hnext : receive info call with
      | none => rfl
      | some next =>
          have hlater := ih hrest (hnul.2 next hnext)
          rw [Option.elim_some, Option.elim_some, hlater]

/--
In every run the framing reads received bytes only exactly when each message has
a NUL among the bytes received for it at every call; and then the answers do not
depend on the memory behind its buffers.
-/
theorem readsReceived_iff_hasNul (calls : List Call) :
    (Throughout receive ReadsReceived .empty calls ↔ Throughout receive HasNul .empty calls) ∧
      ∀ others : List Call, others.map (·.buffer) = calls.map (·.buffer) →
        Throughout receive HasNul .empty calls → answers .empty others = answers .empty calls := by
  constructor
  · have hkeeps (info : FullMessageInfo) (call : Call) (next : FullMessageInfo)
        (hcounted : Counted info) (_ : HasNul info call) (hreceive : receive info call = some next) :
        Counted next :=
      counted_receive hcounted hreceive
    exact throughout_congr hkeeps (fun info call hcounted => readsReceived_iff hcounted call)
      counted_empty calls
  · intro others hsame hnul
    exact answers_eq hsame hnul

/-- A request line without anything behind it. -/
def exampleLine : Text := "GET / HTTP/1.1\r\n".toList

/-- A message of one body byte, which is NUL. -/
def exampleNul : Text := "POST / HTTP/1.1\r\nContent-Length: 1\r\n\r\n\x00".toList

theorem readsReceived_iff_hasNul_body :
    Throughout receive ReadsReceived .empty [⟨exampleNul, []⟩] ∧
      answers .empty [⟨exampleNul, exampleLine⟩] = answers .empty [⟨exampleNul, []⟩] := by
  have hnul : Throughout receive HasNul .empty [⟨exampleNul, []⟩] :=
    ⟨by change '\x00' ∈ exampleNul; decide, fun _ _ => trivial⟩
  exact ⟨(readsReceived_iff_hasNul [⟨exampleNul, []⟩]).1.mpr hnul,
    (readsReceived_iff_hasNul [⟨exampleNul, []⟩]).2 [⟨exampleNul, exampleLine⟩] rfl hnul⟩

/-- The bytes behind the buffer are read, and turn an unfinished request into an error. -/
theorem memory_behind_decides :
    ¬ Throughout receive ReadsReceived .empty [⟨exampleLine, []⟩] ∧
      answers .empty [⟨exampleLine, []⟩] ≠
        answers .empty [⟨exampleLine, "Transfer-Encoding: chunked\r\n\r\n".toList⟩] := by
  constructor
  · intro hall
    have hnul := (readsReceived_iff counted_empty _).mp hall.1
    revert hnul
    change ¬ '\x00' ∈ exampleLine
    decide
  · decide +kernel

end Call

end DumaisLib.WebServer.HTTPFramingStrategy
