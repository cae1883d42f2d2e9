import DumaisLib.Utils.MPSCRingBuffer

/-!
# Sequences of ring-buffer calls against a bounded FIFO queue

A ring of `size` slots is meant to be a FIFO queue of capacity `size - 1`.  It
is one exactly as long as `put` is not called on a full ring: the failing `put`
has already moved `tail` onto `head` and thereby drops every held item.
-/

namespace DumaisLib.Utils

open CircularBuffer Machine

/-- A call on the ring. -/
inductive Call (T : Type) where
  | put (item : T)
  | get
  deriving DecidableEq

/-- What a call returns. -/
inductive Answer (T : Type) where
  | put (accepted : Bool)
  | get (item : Option T)
  deriving DecidableEq

variable {T : Type}

/-- The FIFO queue of the given capacity that the ring stands for. -/
def fifoCall (capacity : Nat) (contents : List T) : Call T → Answer T × List T
  | .put item =>
      if contents.length < capacity then (.put true, contents ++ [item])
      else (.put false, contents)
  | .get =>
      match contents with
      | [] => (.get none, [])
      | item :: rest => (.get (some item), rest)

/-- The call does not try to put an item into a full queue. -/
def HasRoom (capacity : Nat) (contents : List T) (call : Call T) : Prop :=
  ∀ item, call = .put item → contents.length < capacity

namespace MPSCRingBuffer

variable {size : Nat} [NeZero size]

def call (ring : MPSCRingBuffer T size) : Call T → Answer T × MPSCRingBuffer T size
  | .put item => Prod.map .put id (ring.put item)
  | .get => Prod.map .get id ring.get

/-- The ring is in a state that holds some list. -/
def WellFormed (ring : MPSCRingBuffer T size) : Prop :=
  ∃ front contents, Represents ring front contents

theorem wellFormed_create (fresh : Fin size → T) : (create fresh).WellFormed :=
  ⟨0, [], .create fresh⟩

/-- No call invents an item: what is held after a `put` was held or put. -/
theorem put_held {ring : MPSCRingBuffer T size} (hwf : ring.WellFormed) (item : T) :
    (ring.put item).2.WellFormed ∧
      ∀ other ∈ (ring.put item).2.held, other ∈ ring.held ∨ other = item := by
  obtain ⟨front, contents, repr⟩ := hwf
  rw [repr.held_eq]
  have hroom := repr.room
  by_cases hfull : contents.length + 1 = size
  · have hempty : Represents { ring with tail := ring.head } front [] :=
      ⟨repr.head_eq, repr.head_eq, Nat.pos_of_neZero size, .nil _ _⟩
    rw [repr.put_full hfull item, hempty.held_eq]
    exact ⟨⟨front, [], hempty⟩, nofun⟩
  · obtain ⟨_, hnext⟩ := repr.put_room (by omega) item
    rw [hnext.held_eq]
    exact ⟨⟨front, _, hnext⟩, fun other hmem => by simpa using hmem⟩

/-- The item that a `get` returns was held, and so is what stays. -/
theorem get_held {ring : MPSCRingBuffer T size} (hwf : ring.WellFormed) :
    (ring.get).2.WellFormed ∧ (∀ item, (ring.get).1 = some item → item ∈ ring.held) ∧
      ∀ item ∈ (ring.get).2.held, item ∈ ring.held := by
  obtain ⟨front, contents, repr⟩ := hwf
  rw [repr.held_eq]
  cases contents with
  | nil =>
      rw [repr.get_empty, repr.held_eq]
      exact ⟨⟨front, [], repr⟩, nofun, fun _ hmem => hmem⟩
  | cons first rest =>
      obtain ⟨hanswer, hnext⟩ := repr.get_cons
      rw [hanswer, hnext.held_eq]
      refine ⟨⟨front + 1, rest, hnext⟩, fun item hitem => ?_, fun item hmem => ?_⟩
      · obtain rfl := Option.some.inj hitem
        exact List.mem_cons_self
      · exact List.mem_cons_of_mem _ hmem

/-- With room, one call answers and acts as the queue does. -/
theorem call_agrees {ring : MPSCRingBuffer T size} (hwf : ring.WellFormed)
    (call : Call T) (hroom : HasRoom (size - 1) ring.held call) :
    Prod.map id held (ring.call call) = fifoCall (size - 1) ring.held call ∧
      (ring.call call).2.WellFormed := by
  obtain ⟨front, contents, repr⟩ := hwf
  rw [repr.held_eq] at hroom ⊢
  cases call with
  | put item =>
      have hlt := hroom item rfl
      obtain ⟨hanswer, hnext⟩ := repr.put_room (by omega) item
      refine ⟨Prod.ext ?_ ?_, front, _, hnext⟩
      · simp [MPSCRingBuffer.call, fifoCall, hlt, hanswer]
      · simp [MPSCRingBuffer.call, fifoCall, hlt, hnext.held_eq]
  | get =>
      cases contents with
      | nil =>
          refine ⟨?_, front, [], by simpa [MPSCRingBuffer.call, repr.get_empty] using repr⟩
          simp [MPSCRingBuffer.call, fifoCall, repr.get_empty, repr.held_eq]
      | cons item rest =>
          obtain ⟨hanswer, hnext⟩ := repr.get_cons
          refine ⟨Prod.ext ?_ ?_, front + 1, rest, hnext⟩
          · simp [MPSCRingBuffer.call, fifoCall, hanswer]
          · simp [MPSCRingBuffer.call, fifoCall, hnext.held_eq]

/-- A `put` into the full ring empties it. -/
theorem call_overflow_differs (hsize : 2 ≤ size) {ring : MPSCRingBuffer T size}
    (hwf : ring.WellFormed) (call : Call T)
    (hfull : ¬ HasRoom (size - 1) ring.held call) :
    Prod.map id held (ring.call call) ≠ fifoCall (size - 1) ring.held call := by
  obtain ⟨front, contents, repr⟩ := hwf
  rw [repr.held_eq] at hfull ⊢
  cases call with
  | get => exact absurd (fun _ heq => nomatch heq) hfull
  | put item =>
      have hroom := repr.room
      have hlength : ¬ contents.length < size - 1 := fun hlt =>
        hfull fun _ _ => hlt
      have hdropped : held { ring with tail := ring.head } = [] := by
        simp [held, distance]
      intro heq
      have hcontents : [] = contents := by
        simpa [MPSCRingBuffer.call, fifoCall, hlength,
          repr.put_full (by omega) item, hdropped] using congrArg Prod.snd heq
      simp [← hcontents] at hlength
      omega

/--
The answers and the held items of a sequence of calls are those of the FIFO
queue of capacity `size - 1` exactly when no call puts into the full queue.
-/
theorem calls_are_fifo_iff_never_full (hsize : 2 ≤ size) (fresh : Fin size → T)
    (calls : List (Call T)) :
    (trace call (create fresh) calls).map (Prod.map id held) =
        trace (fifoCall (size - 1)) [] calls ↔
      Guarded (fifoCall (size - 1)) (HasRoom (size - 1)) [] calls := by
  have hcreate := Represents.create fresh
  have hwf : (create fresh).WellFormed := ⟨0, [], hcreate⟩
  have hiff := trace_view_iff_guarded
    (fun _ input hwf hroom => call_agrees hwf input hroom)
    (fun _ input hwf hfull => call_overflow_differs hsize hwf input hfull)
    hwf calls
  rwa [hcreate.held_eq] at hiff

theorem calls_are_fifo_iff_never_full_three :
    (trace call (create fun _ : Fin 3 => 0) [.put 7, .put 8, .get, .put 9]).map
        (Prod.map id held) =
      trace (fifoCall 2) [] [.put 7, .put 8, .get, .put 9] :=
  (calls_are_fifo_iff_never_full (by decide) _ _).mpr
    ⟨by simp [HasRoom], by simp [HasRoom, fifoCall], by simp [HasRoom],
      by simp [HasRoom, fifoCall], trivial⟩

/-- After the overflowing second `put` the ring of two slots has lost item `7`. -/
theorem overflow_loses_held_item :
    (trace call (create fun _ : Fin 2 => 0) [.put 7, .put 8, .get]).map
        (Prod.map id held) ≠
      trace (fifoCall 1) [] [.put 7, .put 8, .get] := by
  decide

end MPSCRingBuffer

end DumaisLib.Utils
