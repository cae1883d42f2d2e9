import DumaisLib.Lib.CircularBuffer
import DumaisLib.Lib.Machine

/-!
# The multi-producer, single-consumer ring buffer

`put` and `get` as one caller after the other runs them.  The swap that
reserves a slot then succeeds at its first try, so the overflow test inside the
retry loop is never reached and only the test after the loop remains.
-/

namespace DumaisLib.Utils

open CircularBuffer

/-- One slot of the ring. -/
structure MPSCRingBufferItem (T : Type) where
  item : T
  valid : Bool
  deriving DecidableEq

/--
The ring.  `head` and `tail` are slot indices, so every access is in bounds;
`uint32_t` arithmetic cannot overflow because `index + 1 ≤ size < 2^32`.
-/
structure MPSCRingBuffer (T : Type) (size : Nat) where
  items : Fin size → MPSCRingBufferItem T
  head : Fin size
  tail : Fin size

namespace MPSCRingBuffer

variable {T : Type} {size : Nat} [NeZero size]

/-- The constructor; `fresh` is what the new array happens to contain. -/
def create (fresh : Fin size → T) : MPSCRingBuffer T size where
  items := fun slot => ⟨fresh slot, false⟩
  head := place size 0
  tail := place size 0

def put (ring : MPSCRingBuffer T size) (item : T) : Bool × MPSCRingBuffer T size :=
  let oldTail := ring.tail
  let newTail := next oldTail
  let reserved := { ring with tail := newTail }
  if newTail = reserved.head then
    (false, reserved)
  else
    (true, { reserved with items := Function.update reserved.items oldTail ⟨item, true⟩ })

def get (ring : MPSCRingBuffer T size) : Option T × MPSCRingBuffer T size :=
  if ring.head = ring.tail then
    (none, ring)
  else if (ring.items ring.head).valid = false then
    (none, ring)
  else
    let item := (ring.items ring.head).item
    (some item,
      { ring with
        items := Function.update ring.items ring.head ⟨item, false⟩
        head := next ring.head })

/-- A `get` that gives nothing changes nothing. -/
theorem get_of_none {ring : MPSCRingBuffer T size} (hnone : ring.get.1 = none) :
    ring.get = (none, ring) := by
  rw [get] at hnone ⊢
  split
  · rfl
  · rw [if_neg (by assumption)] at hnone
    split
    · rfl
    · rw [if_neg (by assumption)] at hnone
      cases hnone

/-- The items between `head` and `tail`. -/
def held (ring : MPSCRingBuffer T size) : List T :=
  (List.range (distance ring.head ring.tail)).map fun offset =>
    (ring.items (place size (ring.head + offset))).item

/--
The ring holds `contents`: its slots from the absolute position `front` on are
valid and contain them, and at least one slot is free.
-/
structure Represents (ring : MPSCRingBuffer T size) (front : Nat) (contents : List T) :
    Prop where
  head_eq : ring.head = place size front
  tail_eq : ring.tail = place size (front + contents.length)
  room : contents.length < size
  slots : Holds ring.items front (contents.map fun item => ⟨item, true⟩)

namespace Represents

variable {ring : MPSCRingBuffer T size} {front : Nat} {contents : List T}

theorem create (fresh : Fin size → T) :
    Represents (MPSCRingBuffer.create fresh) 0 [] :=
  ⟨rfl, rfl, Nat.pos_of_neZero size, Holds.nil _ _⟩

/-- The contents are determined by the ring. -/
theorem held_eq (repr : Represents ring front contents) : ring.held = contents := by
  have hdistance : distance ring.head ring.tail = contents.length := by
    rw [repr.head_eq, repr.tail_eq, distance_place repr.room]
  have hplace (offset : Nat) :
      place size ((ring.head : Nat) + offset) = place size (front + offset) := by
    rw [repr.head_eq]
    simp [place]
  apply List.ext_getElem (by simp [held, hdistance])
  intro offset hleft hright
  have hslot := repr.slots offset (by simpa using hright)
  simp [held, hplace, hslot]

/-- The slot after `tail` is `head` exactly when one slot only is left. -/
theorem next_tail_eq_head_iff (repr : Represents ring front contents) :
    next ring.tail = ring.head ↔ contents.length + 1 = size := by
  have hroom := repr.room
  rw [repr.tail_eq, repr.head_eq, next_place]
  constructor
  · intro heq
    by_contra hne
    exact place_ne (by omega) (by omega) heq.symm
  · intro hfull
    rw [Nat.add_assoc, hfull, place_add_size]

/-- A `put` below the capacity appends. -/
theorem put_room (repr : Represents ring front contents)
    (hroom : contents.length + 1 < size) (item : T) :
    (ring.put item).1 = true ∧
      Represents (ring.put item).2 front (contents ++ [item]) := by
  have hnext : ¬ next ring.tail = ring.head := by
    rw [repr.next_tail_eq_head_iff]
    omega
  have hput : ring.put item =
      (true, { ring with
        tail := next ring.tail
        items := Function.update ring.items ring.tail ⟨item, true⟩ }) := by
    simp [put, hnext]
  rw [hput]
  refine ⟨rfl, repr.head_eq, ?_, by simpa using hroom, ?_⟩
  · simp [repr.tail_eq, Nat.add_assoc]
  · have hslots := repr.slots.push (by simpa using repr.room) (⟨item, true⟩)
    simpa [repr.tail_eq] using hslots

/--
A `put` at the capacity fails, but only after it has moved `tail`: `tail` then
equals `head` and the ring looks empty.
-/
theorem put_full (repr : Represents ring front contents)
    (hfull : contents.length + 1 = size) (item : T) :
    ring.put item = (false, { ring with tail := ring.head }) := by
  have hnext := repr.next_tail_eq_head_iff.mpr hfull
  simp [put, hnext]

theorem get_empty (repr : Represents ring front []) : ring.get = (none, ring) := by
  have heq : ring.head = ring.tail := by
    rw [repr.head_eq, repr.tail_eq]
    rfl
  simp [get, heq]

theorem get_cons {item : T} (repr : Represents ring front (item :: contents)) :
    (ring.get).1 = some item ∧ Represents (ring.get).2 (front + 1) contents := by
  have hroom := repr.room
  rw [List.length_cons] at hroom
  have hne : ¬ ring.head = ring.tail := by
    rw [repr.head_eq, repr.tail_eq]
    exact place_ne (by simp) (by simpa using repr.room)
  have hslot : ring.items ring.head = ⟨item, true⟩ := by
    rw [repr.head_eq]
    exact repr.slots.front_cell
  have hget : ring.get = (some item,
      { ring with
        items := Function.update ring.items ring.head ⟨item, false⟩
        head := next ring.head }) := by
    simp [get, hne, hslot]
  rw [hget]
  refine ⟨rfl, by simp [repr.head_eq], ?_, by omega, ?_⟩
  · simp [repr.tail_eq, Nat.add_assoc, Nat.add_comm 1]
  · rw [repr.head_eq]
    exact repr.slots.pop (by simpa using Nat.lt_of_succ_lt hroom) _

end Represents

end MPSCRingBuffer

end DumaisLib.Utils
