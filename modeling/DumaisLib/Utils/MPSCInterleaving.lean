import DumaisLib.Utils.MPSCRingBuffer

/-!
# Producers and the consumer interleaved at the level of atomic steps

Any number of producers run `put` and one consumer runs `get`, one atomic step
at a time, over sequentially consistent memory.  The state also records the
history that the statements below speak about: the puts begun, the order in
which the successful swaps reserved slots, the results of the puts and the items
that `get` has returned.
-/

namespace DumaisLib.Utils.Interleaving

open CircularBuffer

variable {P T : Type} {size : Nat}

/-- Where a producer stands in `put`, with the locals it holds there. -/
inductive Producer (T : Type) (size : Nat) where
  | idle
  | loading (item : T)
  | swapping (item : T) (oldTail : Fin size)
  | reloading (item : T)
  | checking (item : T) (oldTail : Fin size)
  | writing (item : T) (oldTail : Fin size)
  | publishing (item : T) (oldTail : Fin size)

/-- Where the consumer stands in `get`. -/
inductive Consumer (T : Type) where
  | idle
  | testing
  | reading
  | clearing (item : T)
  | advancing (item : T)

namespace Producer

/-- The item of a `put` that has begun but has not reserved a slot yet. -/
def waiting : Producer T size → Option T
  | loading item | swapping item _ | reloading item => some item
  | _ => none

/-- The item and the slot of a `put` that has reserved the slot. -/
def owned : Producer T size → Option (T × Fin size)
  | checking item slot | writing item slot | publishing item slot => some (item, slot)
  | _ => none

end Producer

structure State (P T : Type) (size : Nat) where
  ring : MPSCRingBuffer T size
  producer : P → Producer T size
  consumer : Consumer T
  begun : List (P × T)
  reserved : List (P × T)
  putResults : List (P × Bool)
  returned : List T

namespace State

def init [NeZero size] (P : Type) (fresh : Fin size → T) : State P T size where
  ring := .create fresh
  producer := fun _ => .idle
  consumer := .idle
  begun := []
  reserved := []
  putResults := []
  returned := []

/-- Puts begun whose item the consumer has not removed yet. -/
def pending (state : State P T size) : Nat :=
  state.begun.length - state.returned.length

section

variable [DecidableEq P]

def setProducer (state : State P T size) (p : P) (pc : Producer T size) :
    State P T size :=
  { state with producer := Function.update state.producer p pc }

/-- Producer `p` leaves `put` with the given result. -/
def finishPut (state : State P T size) (p : P) (result : Bool) : State P T size :=
  { state.setProducer p .idle with putResults := state.putResults ++ [(p, result)] }

@[simp] theorem setProducer_ring (state : State P T size) (p : P) (pc : Producer T size) :
    (state.setProducer p pc).ring = state.ring := rfl

@[simp] theorem setProducer_reserved (state : State P T size) (p : P)
    (pc : Producer T size) : (state.setProducer p pc).reserved = state.reserved := rfl

@[simp] theorem setProducer_returned (state : State P T size) (p : P)
    (pc : Producer T size) : (state.setProducer p pc).returned = state.returned := rfl

@[simp] theorem setProducer_consumer (state : State P T size) (p : P)
    (pc : Producer T size) : (state.setProducer p pc).consumer = state.consumer := rfl

@[simp] theorem setProducer_same (state : State P T size) (p : P) (pc : Producer T size) :
    (state.setProducer p pc).producer p = pc := by
  simp [setProducer]

theorem setProducer_other (state : State P T size) {p q : P} (hne : q ≠ p)
    (pc : Producer T size) : (state.setProducer p pc).producer q = state.producer q := by
  simp [setProducer, hne]

/-- A move that keeps what the producer owns keeps what every producer owns. -/
theorem setProducer_owned (state : State P T size) {p : P} {pc : Producer T size}
    (hsame : pc.owned = (state.producer p).owned) (q : P) :
    ((state.setProducer p pc).producer q).owned = (state.producer q).owned := by
  by_cases hq : q = p
  · rw [hq, setProducer_same, hsame]
  · rw [setProducer_other _ hq]

theorem setProducer_waiting (state : State P T size) {p : P} {pc : Producer T size}
    (hsame : pc.waiting = (state.producer p).waiting) (q : P) :
    ((state.setProducer p pc).producer q).waiting = (state.producer q).waiting := by
  by_cases hq : q = p
  · rw [hq, setProducer_same, hsame]
  · rw [setProducer_other _ hq]

end

end State

variable [NeZero size]

section Dynamics

variable [DecidableEq P]

/-- What the scheduler may do next. -/
inductive Action (P T : Type) where
  | call (p : P) (item : T)
  | produce (p : P)
  | consume

/-- The next atomic step of `put` for the producer `p`. -/
def produce (state : State P T size) (p : P) : Option (State P T size) :=
  match state.producer p with
  | .idle => none
  | .loading item => some (state.setProducer p (.swapping item state.ring.tail))
  | .swapping item oldTail =>
      if state.ring.tail = oldTail then
        some { state.setProducer p (.checking item oldTail) with
          ring := { state.ring with tail := next oldTail }
          reserved := state.reserved ++ [(p, item)] }
      else
        some (state.setProducer p (.reloading item))
  | .reloading item =>
      -- The reload and the overflow test of the retry loop are one step here, and two in
      -- `Retrying.produce`.
      if next state.ring.tail = state.ring.head then
        some (state.finishPut p false)
      else
        some (state.setProducer p (.swapping item state.ring.tail))
  | .checking item oldTail =>
      if next oldTail = state.ring.head then
        some (state.finishPut p false)
      else
        some (state.setProducer p (.writing item oldTail))
  | .writing item oldTail =>
      some { state.setProducer p (.publishing item oldTail) with
        ring := { state.ring with
          items := Function.update state.ring.items oldTail
            { state.ring.items oldTail with item := item } } }
  | .publishing _ oldTail =>
      some { state.finishPut p true with
        ring := { state.ring with
          items := Function.update state.ring.items oldTail
            { state.ring.items oldTail with valid := true } } }

/-- The next atomic step of `get`; an idle consumer calls it again. -/
def consume (state : State P T size) : State P T size :=
  match state.consumer with
  | .idle =>
      if state.ring.head = state.ring.tail then state
      else { state with consumer := .testing }
  | .testing =>
      if (state.ring.items state.ring.head).valid = false then
        { state with consumer := .idle }
      else { state with consumer := .reading }
  | .reading =>
      { state with consumer := .clearing (state.ring.items state.ring.head).item }
  | .clearing item =>
      { state with
        consumer := .advancing item
        ring := { state.ring with
          items := Function.update state.ring.items state.ring.head
            { state.ring.items state.ring.head with valid := false } } }
  | .advancing item =>
      { state with
        consumer := .idle
        ring := { state.ring with head := next state.ring.head }
        returned := state.returned ++ [item] }

def step (state : State P T size) : Action P T → Option (State P T size)
  | .call p item =>
      match state.producer p with
      | .idle => some { state.setProducer p (.loading item) with
          begun := state.begun ++ [(p, item)] }
      | _ => none
  | .produce p => produce state p
  | .consume => some (consume state)

/--
The states of the runs in which never more than `size - 1` puts have begun
whose item has not been removed.
-/
inductive Reachable (fresh : Fin size → T) : State P T size → Prop where
  | init : Reachable fresh (State.init P fresh)
  | step {state next : State P T size} (action : Action P T)
      (reach : Reachable fresh state) (hstep : step state action = some next)
      (hpending : next.pending ≤ size - 1) : Reachable fresh next

end Dynamics

/-! ## One caller alone -/

section Alone

variable [DecidableEq P]

def run (state : State P T size) (actions : List (Action P T)) :
    Option (State P T size) :=
  actions.foldlM step state

/-- The atomic steps of a producer that nobody disturbs amount to `put`. -/
theorem produce_alone_put (state : State P T size) {p : P}
    (hidle : state.producer p = .idle) (item : T) :
    ∃ steps final,
      run state (.call p item :: List.replicate steps (.produce p)) = some final ∧
        final.ring = (state.ring.put item).2 ∧
        final.putResults = state.putResults ++ [(p, (state.ring.put item).1)] ∧
        final.producer = state.producer := by
  by_cases hfull : next state.ring.tail = state.ring.head
  · refine ⟨3, _, by simp [run, step, produce, hidle, hfull]; rfl, ?_, ?_, ?_⟩
    · simp [State.finishPut, MPSCRingBuffer.put, hfull]
    · simp [State.finishPut, State.setProducer, MPSCRingBuffer.put, hfull]
    · simp [State.finishPut, State.setProducer, ← hidle]
  · refine ⟨5, _, by simp [run, step, produce, hidle, hfull]; rfl, ?_, ?_, ?_⟩
    · simp [MPSCRingBuffer.put, hfull]
    · simp [State.finishPut, State.setProducer, MPSCRingBuffer.put, hfull]
    · simp [State.finishPut, State.setProducer, ← hidle]

/-- The atomic steps of the consumer that nobody disturbs amount to `get`. -/
theorem consume_alone_get (state : State P T size) (hidle : state.consumer = .idle) :
    ∃ steps final,
      run state (List.replicate steps (.consume : Action P T)) = some final ∧
        final.ring = state.ring.get.2 ∧
        final.returned = state.returned ++ state.ring.get.1.toList ∧
        final.consumer = .idle := by
  by_cases hempty : state.ring.head = state.ring.tail
  · refine ⟨1, state, by simp [run, step, consume, hidle, hempty], ?_, ?_, hidle⟩
    · simp [MPSCRingBuffer.get, hempty]
    · simp [MPSCRingBuffer.get, hempty]
  · cases hvalid : (state.ring.items state.ring.head).valid with
    | false =>
        refine ⟨2, _, by simp [run, step, consume, hidle, hempty, hvalid]; rfl, ?_, ?_, rfl⟩
        · simp [MPSCRingBuffer.get, hvalid]
        · simp [MPSCRingBuffer.get, hvalid]
    | true =>
        refine ⟨5, _, by simp [run, step, consume, hidle, hempty, hvalid]; rfl, ?_, ?_, rfl⟩
        · simp [MPSCRingBuffer.get, hempty, hvalid]
        · simp [MPSCRingBuffer.get, hempty, hvalid]

end Alone

/-! ## The invariant -/

/-- What the consumer knows about the front slot at each of its steps. -/
def ConsumerInv (state : State P T size) : Prop :=
  match state.consumer with
  | .idle => True
  | .testing => state.returned.length < state.reserved.length
  | .reading =>
      state.returned.length < state.reserved.length ∧
        (state.ring.items state.ring.head).valid = true
  | .clearing item =>
      (state.ring.items state.ring.head).valid = true ∧
        (state.reserved.map Prod.snd)[state.returned.length]? = some item
  | .advancing item =>
      (state.ring.items state.ring.head).valid = false ∧
        (state.reserved.map Prod.snd)[state.returned.length]? = some item ∧
        ∀ p owned, (state.producer p).owned = some owned → owned.2 ≠ state.ring.head

omit [NeZero size] in
/-- What the consumer knows outlasts a step of a producer. -/
theorem ConsumerInv.carry {state next : State P T size} (known : ConsumerInv state)
    (hconsumer : next.consumer = state.consumer) (hreturned : next.returned = state.returned)
    (hreserved : state.reserved <+: next.reserved)
    (hvalid : (state.ring.items state.ring.head).valid = true →
      (next.ring.items next.ring.head).valid = true)
    (hleaving : state.returned.length < state.reserved.length →
      (state.ring.items state.ring.head).valid = false →
      (∀ p owned, (state.producer p).owned = some owned → owned.2 ≠ state.ring.head) →
      (next.ring.items next.ring.head).valid = false ∧
        ∀ p owned, (next.producer p).owned = some owned → owned.2 ≠ next.ring.head) :
    ConsumerInv next := by
  have hlength := hreserved.length_le
  have hread {value : T}
      (hvalue : (state.reserved.map Prod.snd)[state.returned.length]? = some value) :
      (next.reserved.map Prod.snd)[next.returned.length]? = some value := by
    obtain ⟨more, hmore⟩ := hreserved
    rw [← hmore, hreturned, List.map_append,
      List.getElem?_append_left (List.getElem?_eq_some_iff.mp hvalue).1]
    exact hvalue
  unfold ConsumerInv at known ⊢
  rw [hconsumer]
  cases hstate : state.consumer with
  | idle => trivial
  | testing =>
      simp only [hstate] at known ⊢
      rw [hreturned]
      exact known.trans_le hlength
  | reading =>
      simp only [hstate] at known ⊢
      rw [hreturned]
      exact ⟨known.1.trans_le hlength, hvalid known.2⟩
  | clearing item =>
      simp only [hstate] at known ⊢
      exact ⟨hvalid known.1, hread known.2⟩
  | advancing item =>
      simp only [hstate] at known ⊢
      obtain ⟨hcleared, hvalue, hnone⟩ := known
      have hfront := (List.getElem?_eq_some_iff.mp hvalue).1
      rw [List.length_map] at hfront
      obtain ⟨hcleared', hnone'⟩ := hleaving hfront hcleared hnone
      exact ⟨hcleared', hread hvalue, hnone'⟩

/--
The absolute positions from the number of removed items up to the number of
reservations are the reserved slots.  Each of them is owned by the producer that
reserved it, or is published, or is the front slot being left by the consumer;
every other slot of the lap has its valid flag cleared.
-/
structure Inv (state : State P T size) : Prop where
  head_eq : state.ring.head = place size state.returned.length
  tail_eq : state.ring.tail = place size state.reserved.length
  removed_le : state.returned.length ≤ state.reserved.length
  begun_lt : state.begun.length < state.returned.length + size
  begun_split : ∃ waiting : List (P × T),
    (∀ p item, (p, item) ∈ waiting ↔ (state.producer p).waiting = some item) ∧
      waiting.Nodup ∧ state.begun.Perm (state.reserved ++ waiting)
  results : ∀ result ∈ state.putResults, result.2 = true
  returned_prefix : state.returned <+: state.reserved.map Prod.snd
  owner : ∀ p item slot, (state.producer p).owned = some (item, slot) →
    (∃ position, state.returned.length ≤ position ∧
      state.reserved[position]? = some (p, item) ∧ slot = place size position) ∧
    (state.ring.items slot).valid = false
  written : ∀ p item slot, state.producer p = .publishing item slot →
    (state.ring.items slot).item = item
  cell : ∀ position entry, state.returned.length ≤ position →
    state.reserved[position]? = some entry →
    (state.producer entry.1).owned = some (entry.2, place size position) ∨
      state.ring.items (place size position) = ⟨entry.2, true⟩ ∨
      position = state.returned.length ∧ ∃ item, state.consumer = .advancing item
  free : ∀ position, state.reserved.length ≤ position →
    position < state.returned.length + size →
    (state.ring.items (place size position)).valid = false
  consumer : ConsumerInv state

namespace Inv

variable {state : State P T size}

theorem init (fresh : Fin size → T) : Inv (State.init P fresh) where
  head_eq := rfl
  tail_eq := rfl
  removed_le := Nat.le_refl _
  begun_lt := by simpa [State.init] using Nat.pos_of_neZero size
  begun_split := ⟨[], by simp [State.init, Producer.waiting], .nil, .refl _⟩
  results := by simp [State.init]
  returned_prefix := List.prefix_refl _
  owner := by simp [State.init, Producer.owned]
  written := by simp [State.init]
  cell := by simp [State.init]
  free := by simp [State.init, MPSCRingBuffer.create]
  consumer := trivial

/-- The number of reservations is bounded by the number of puts begun. -/
theorem reserved_le_begun (inv : Inv state) :
    state.reserved.length ≤ state.begun.length := by
  obtain ⟨waiting, _, _, hperm⟩ := inv.begun_split
  rw [hperm.length_eq, List.length_append]
  exact Nat.le_add_right _ _

/-- A producer that has not reserved a slot yet leaves one to reserve. -/
theorem reserved_lt_begun (inv : Inv state) {p : P} {item : T}
    (hwaiting : (state.producer p).waiting = some item) :
    state.reserved.length < state.begun.length := by
  obtain ⟨waiting, hmem, _, hperm⟩ := inv.begun_split
  have hlength := List.length_pos_of_mem ((hmem p item).mpr hwaiting)
  rw [hperm.length_eq, List.length_append]
  omega

/-- A producer about to reserve never finds the ring full. -/
theorem next_tail_ne_head (inv : Inv state) {p : P} {item : T}
    (hwaiting : (state.producer p).waiting = some item) :
    next state.ring.tail ≠ state.ring.head := by
  have hlt := inv.reserved_lt_begun hwaiting
  have hbegun := inv.begun_lt
  have hremoved := inv.removed_le
  rw [inv.tail_eq, inv.head_eq, next_place]
  exact (place_ne (by omega) (by omega)).symm

/-- A producer that has reserved a slot never finds it to be the last one. -/
theorem next_owned_ne_head (inv : Inv state) {p : P} {item : T} {slot : Fin size}
    (howned : (state.producer p).owned = some (item, slot)) :
    next slot ≠ state.ring.head := by
  obtain ⟨⟨position, hle, hentry, rfl⟩, _⟩ := inv.owner p item slot howned
  have hlt : position < state.reserved.length := (List.getElem?_eq_some_iff.mp hentry).1
  have hbegun := inv.begun_lt
  have hreserved := inv.reserved_le_begun
  rw [inv.head_eq, next_place]
  exact (place_ne (by omega) (by omega)).symm

/-- Two producers never own the same slot. -/
theorem owner_unique (inv : Inv state) {p q : P} {item other : T} {slot : Fin size}
    (hp : (state.producer p).owned = some (item, slot))
    (hq : (state.producer q).owned = some (other, slot)) : p = q := by
  obtain ⟨⟨first, hfirst, hentry, hslot⟩, _⟩ := inv.owner p item slot hp
  obtain ⟨⟨second, hsecond, hother, hslot'⟩, _⟩ := inv.owner q other slot hq
  have hlt := (List.getElem?_eq_some_iff.mp hentry).1
  have hlt' := (List.getElem?_eq_some_iff.mp hother).1
  have hbegun := inv.begun_lt
  have hreserved := inv.reserved_le_begun
  have hsame : first = second :=
    place_inj hfirst (by omega) hsecond (by omega) (hslot.symm.trans hslot')
  rw [hsame, hother] at hentry
  exact (congrArg Prod.fst (Option.some.inj hentry)).symm

/-- Another producer publishes another slot. -/
theorem published_ne (inv : Inv state) {p q : P} {item other : T} {slot slot' : Fin size}
    (hp : (state.producer p).owned = some (item, slot)) (hqp : q ≠ p)
    (hq : state.producer q = .publishing other slot') : slot' ≠ slot := by
  intro heq
  have hother : (state.producer q).owned = some (other, slot) := by
    simp [hq, heq, Producer.owned]
  exact hqp (inv.owner_unique hother hp)

section Preservation

variable [DecidableEq P]

/-- A producer that does not publish leaves the others to publish what they have written. -/
theorem written_setProducer (inv : Inv state) {p : P} {pc : Producer T size}
    (hwritten : ∀ item slot, pc ≠ .publishing item slot) {q : P} {item : T} {slot : Fin size}
    (hq : (state.setProducer p pc).producer q = .publishing item slot) :
    (state.ring.items slot).item = item := by
  by_cases hqp : q = p
  · rw [hqp, State.setProducer_same] at hq
    exact absurd hq (hwritten item slot)
  · rw [State.setProducer_other _ hqp] at hq
    exact inv.written q item slot hq

/-- A move of one producer that touches neither the ring nor its ownership. -/
theorem move (inv : Inv state) {p : P} {pc : Producer T size}
    (howned : pc.owned = (state.producer p).owned)
    (hwaiting : pc.waiting = (state.producer p).waiting)
    (hwritten : ∀ item slot, pc ≠ .publishing item slot) :
    Inv (state.setProducer p pc) := by
  have hallOwned := state.setProducer_owned howned
  have hallWaiting := state.setProducer_waiting hwaiting
  refine { inv with
    begun_split := ?_
    owner := ?_
    written := ?_
    cell := ?_
    consumer := ?_ }
  · simp only [hallWaiting]
    exact inv.begun_split
  · simp only [hallOwned]
    exact inv.owner
  · exact fun q item slot hq => inv.written_setProducer hwritten hq
  · simp only [hallOwned]
    exact inv.cell
  · refine inv.consumer.carry rfl rfl (List.prefix_refl _) id fun _ hcleared hnone => ?_
    exact ⟨hcleared, fun q owned hq => hnone q owned (by rwa [← hallOwned])⟩

/-- A `put` begins. -/
theorem call (inv : Inv state) {p : P} (hidle : state.producer p = .idle) (item : T)
    (hbegun : state.begun.length + 1 < state.returned.length + size) :
    Inv { state.setProducer p (.loading item) with
      begun := state.begun ++ [(p, item)] } := by
  have howned := state.setProducer_owned (p := p)
    (show (Producer.loading item).owned = (state.producer p).owned by
      simp [hidle, Producer.owned])
  refine { inv with
    begun_lt := by simpa using hbegun
    begun_split := ?_
    owner := ?_
    written := ?_
    cell := ?_
    consumer := ?_ }
  · obtain ⟨waiting, hmem, hnodup, hperm⟩ := inv.begun_split
    have hfresh : ∀ other, (p, other) ∉ waiting := by
      intro other hin
      have hnone := (hmem p other).mp hin
      simp [hidle, Producer.waiting] at hnone
    refine ⟨(p, item) :: waiting, ?_, List.nodup_cons.mpr ⟨hfresh item, hnodup⟩, ?_⟩
    · intro q other
      by_cases hq : q = p
      · subst hq
        simp [Producer.waiting, hfresh other, eq_comm]
      · simp [State.setProducer_other _ hq, hq, hmem]
    · calc state.begun ++ [(p, item)]
          _ |>.Perm ((p, item) :: state.begun) := List.perm_append_singleton _ _
          _ |>.Perm ((p, item) :: (state.reserved ++ waiting)) := hperm.cons _
          _ |>.Perm (state.reserved ++ (p, item) :: waiting) := List.perm_middle.symm
  · simp only [howned]
    exact inv.owner
  · exact fun q other slot hq => inv.written_setProducer (by rintro _ _ ⟨⟩) hq
  · simp only [howned]
    exact inv.cell
  · refine inv.consumer.carry rfl rfl (List.prefix_refl _) id fun _ hcleared hnone => ?_
    exact ⟨hcleared, fun q owned hq => hnone q owned (by rwa [← howned])⟩

/-- A successful swap reserves the slot at the tail. -/
theorem swap (inv : Inv state) {p : P} {item : T} {oldTail : Fin size}
    (hpc : state.producer p = .swapping item oldTail)
    (htail : state.ring.tail = oldTail) :
    Inv { state.setProducer p (.checking item oldTail) with
      ring := { state.ring with tail := next oldTail }
      reserved := state.reserved ++ [(p, item)] } := by
  have hlt := inv.reserved_lt_begun (show (state.producer p).waiting = some item by
    simp [hpc, Producer.waiting])
  have hbegun := inv.begun_lt
  have hremoved := inv.removed_le
  have hplace : oldTail = place size state.reserved.length := by rw [← htail, inv.tail_eq]
  have hold : ∀ (position : Nat) (entry : P × T), state.reserved[position]? = some entry →
      (state.reserved ++ [(p, item)])[position]? = some entry := by
    intro position entry hentry
    rw [List.getElem?_append_left (List.getElem?_eq_some_iff.mp hentry).1]
    exact hentry
  refine { inv with
    tail_eq := ?_
    removed_le := by simpa using Nat.le_succ_of_le hremoved
    begun_split := ?_
    returned_prefix := ?_
    owner := ?_
    written := ?_
    cell := ?_
    free := ?_
    consumer := ?_ }
  · simp [hplace]
  · obtain ⟨waiting, hmem, hnodup, hperm⟩ := inv.begun_split
    have hin : (p, item) ∈ waiting := (hmem p item).mpr (by simp [hpc, Producer.waiting])
    obtain ⟨before, after, rfl⟩ := List.append_of_mem hin
    have hmiddle : (before ++ (p, item) :: after).Perm ((p, item) :: (before ++ after)) :=
      List.perm_middle
    have hnodup' := hmiddle.nodup hnodup
    rw [List.nodup_cons] at hnodup'
    refine ⟨before ++ after, ?_, hnodup'.2, ?_⟩
    · intro q other
      by_cases hq : q = p
      · subst hq
        have hnone : (q, other) ∉ before ++ after := by
          intro hother
          have hsame := (hmem q other).mp (hmiddle.mem_iff.mpr (.tail _ hother))
          simp only [hpc, Producer.waiting, Option.some.injEq] at hsame
          exact hnodup'.1 (hsame ▸ hother)
        simpa [Producer.waiting] using hnone
      · have hmem' := hmem q other
        rw [hmiddle.mem_iff, List.mem_cons] at hmem'
        simpa [State.setProducer_other _ hq, hq] using hmem'
    · calc state.begun
          _ |>.Perm (state.reserved ++ (before ++ (p, item) :: after)) := hperm
          _ |>.Perm (state.reserved ++ ((p, item) :: (before ++ after))) :=
              hmiddle.append_left _
          _ |>.Perm (state.reserved ++ [(p, item)] ++ (before ++ after)) := by simp
  · exact inv.returned_prefix.trans (by simp)
  · intro q other slot hq
    by_cases hqp : q = p
    · subst hqp
      simp only [State.setProducer_same, Producer.owned, Option.some.injEq,
        Prod.mk.injEq] at hq
      obtain ⟨rfl, rfl⟩ := hq
      refine ⟨⟨state.reserved.length, hremoved, by simp, hplace⟩, ?_⟩
      rw [hplace]
      exact inv.free _ (Nat.le_refl _) (by omega)
    · have howned : (state.producer q).owned = some (other, slot) := by
        simpa [State.setProducer_other _ hqp] using hq
      obtain ⟨⟨position, hle, hentry, hslot⟩, hvalid⟩ := inv.owner q other slot howned
      exact ⟨⟨position, hle, hold _ _ hentry, hslot⟩, hvalid⟩
  · exact fun q other slot hq => inv.written_setProducer (by rintro _ _ ⟨⟩) hq
  · intro position entry hle hentry
    rcases Nat.lt_or_ge position state.reserved.length with hposition | hposition
    · rw [List.getElem?_append_left hposition] at hentry
      by_cases hq : entry.1 = p
      · -- The earlier put of `p` is over: `p` owned nothing before this swap.
        rcases inv.cell position entry hle hentry with howned | hrest
        · simp [hq, hpc, Producer.owned] at howned
        · exact Or.inr hrest
      · simpa [State.setProducer_other _ hq] using inv.cell position entry hle hentry
    · have hposition' : position = state.reserved.length := by
        have hbound := (List.getElem?_eq_some_iff.mp hentry).1
        simp at hbound
        omega
      subst hposition'
      simp only [List.getElem?_concat_length, Option.some.injEq] at hentry
      subst hentry
      exact Or.inl (by simp [Producer.owned, hplace])
  · intro position hle hposition
    exact inv.free position (by simp at hle; omega) hposition
  · refine inv.consumer.carry rfl rfl (List.prefix_append _ _) id fun hfront hcleared hnone => ?_
    refine ⟨hcleared, fun q owned howned => ?_⟩
    by_cases hq : q = p
    · subst hq
      simp only [State.setProducer_same, Producer.owned, Option.some.injEq] at howned
      subst howned
      simp only [hplace, inv.head_eq]
      exact (place_ne hfront (by omega)).symm
    · exact hnone q owned (by simpa [State.setProducer_other _ hq] using howned)

/-- Writing the item into the owned slot disturbs no other slot and no flag. -/
theorem write (inv : Inv state) {p : P} {item : T} {oldTail : Fin size}
    (hpc : state.producer p = .writing item oldTail) :
    Inv { state.setProducer p (.publishing item oldTail) with
      ring := { state.ring with
        items := Function.update state.ring.items oldTail
          { state.ring.items oldTail with item := item } } } := by
  have hp : (state.producer p).owned = some (item, oldTail) := by
    simp [hpc, Producer.owned]
  have howned := state.setProducer_owned (p := p)
    (show (Producer.publishing item oldTail).owned = (state.producer p).owned by
      simp [hpc, Producer.owned])
  have hwaiting := state.setProducer_waiting (p := p)
    (show (Producer.publishing item oldTail).waiting = (state.producer p).waiting by
      simp [hpc, Producer.waiting])
  have hinvalid := (inv.owner p item oldTail hp).2
  have hvalid : ∀ slot, (Function.update state.ring.items oldTail
      { state.ring.items oldTail with item := item } slot).valid =
        (state.ring.items slot).valid := by
    intro slot
    by_cases hslot : slot = oldTail
    · rw [hslot, Function.update_self]
    · rw [Function.update_of_ne hslot]
  refine { inv with
    begun_split := ?_
    owner := ?_
    written := ?_
    cell := ?_
    free := ?_
    consumer := ?_ }
  · simp only [hwaiting]
    exact inv.begun_split
  · simp only [howned, hvalid]
    exact inv.owner
  · intro q other slot hq
    by_cases hqp : q = p
    · simp only [hqp, State.setProducer_same, Producer.publishing.injEq] at hq
      simp [← hq.1, ← hq.2]
    · have hother : state.producer q = .publishing other slot := by
        simpa [State.setProducer_other _ hqp] using hq
      have hslot := inv.published_ne hp hqp hother
      simpa [hslot] using inv.written q other slot hother
  · simp only [howned]
    intro position entry hle hentry
    rcases inv.cell position entry hle hentry with hmine | hpublished | hfront
    · exact Or.inl hmine
    · have hslot : place size position ≠ oldTail := by
        intro heq
        simp [← heq, hpublished] at hinvalid
      exact Or.inr (Or.inl (by simpa [hslot] using hpublished))
    · exact Or.inr (Or.inr hfront)
  · simp only [hvalid]
    exact inv.free
  · refine inv.consumer.carry rfl rfl (List.prefix_refl _) (hvalid _).trans
      fun _ hcleared hnone => ?_
    exact ⟨(hvalid _).trans hcleared, fun q owned hq => hnone q owned (by rwa [← howned])⟩

/-- Setting the flag publishes the item, and the `put` returns `true`. -/
theorem publish (inv : Inv state) {p : P} {item : T} {oldTail : Fin size}
    (hpc : state.producer p = .publishing item oldTail) :
    Inv { state.finishPut p true with
      ring := { state.ring with
        items := Function.update state.ring.items oldTail
          { state.ring.items oldTail with valid := true } } } := by
  have hp : (state.producer p).owned = some (item, oldTail) := by
    simp [hpc, Producer.owned]
  have hwaiting := state.setProducer_waiting (p := p)
    (show Producer.idle.waiting = (state.producer p).waiting by
      simp [hpc, Producer.waiting])
  have hitem := inv.written p item oldTail hpc
  obtain ⟨⟨mine, hmine, hentryMine, hslotMine⟩, hinvalid⟩ := inv.owner p item oldTail hp
  have hlt := (List.getElem?_eq_some_iff.mp hentryMine).1
  have hbegun := inv.begun_lt
  have hreserved := inv.reserved_le_begun
  have hothers : ∀ q owned, ((state.setProducer p .idle).producer q).owned = some owned →
      q ≠ p ∧ (state.producer q).owned = some owned := by
    intro q owned hq
    by_cases hqp : q = p
    · simp [hqp, Producer.owned] at hq
    · exact ⟨hqp, by simpa [State.setProducer_other _ hqp] using hq⟩
  refine { inv with
    begun_split := ?_
    results := ?_
    owner := ?_
    written := ?_
    cell := ?_
    free := ?_
    consumer := ?_ }
  · simp only [State.finishPut, hwaiting]
    exact inv.begun_split
  · intro result hresult
    simp only [State.finishPut, List.mem_append, List.mem_singleton] at hresult
    rcases hresult with hold | rfl
    · exact inv.results result hold
    · rfl
  · intro q other slot hq
    obtain ⟨hqp, howned⟩ := hothers q _ hq
    have hslot : slot ≠ oldTail := by
      intro heq
      exact hqp (inv.owner_unique howned (heq ▸ hp))
    have hold := inv.owner q other slot howned
    exact ⟨hold.1, by simpa [hslot] using hold.2⟩
  · intro q other slot hq
    by_cases hqp : q = p
    · simp [State.finishPut, hqp] at hq
    · have hother : state.producer q = .publishing other slot := by
        simpa [State.finishPut, State.setProducer_other _ hqp] using hq
      have hslot := inv.published_ne hp hqp hother
      simpa [hslot] using inv.written q other slot hother
  · intro position entry (hle : state.returned.length ≤ position)
      (hentry : state.reserved[position]? = some entry)
    have hposition := (List.getElem?_eq_some_iff.mp hentry).1
    by_cases hsame : position = mine
    · subst hsame
      rw [hentryMine] at hentry
      obtain rfl := Option.some.inj hentry
      exact Or.inr (Or.inl (by simp [← hslotMine, hitem]))
    · have hslot : place size position ≠ oldTail := by
        intro heq
        exact hsame (place_inj hle (by omega) hmine (by omega)
          (heq.trans hslotMine))
      rcases inv.cell position entry hle hentry with howned | hpublished | hfront
      · refine Or.inl ?_
        have hqp : entry.1 ≠ p := by
          intro heq
          rw [heq, hp] at howned
          simp only [Option.some.injEq, Prod.mk.injEq] at howned
          exact hslot howned.2.symm
        simpa [State.finishPut, State.setProducer_other _ hqp] using howned
      · exact Or.inr (Or.inl (by simpa [hslot] using hpublished))
      · exact Or.inr (Or.inr hfront)
  · intro position (hle : state.reserved.length ≤ position)
      (hposition : position < state.returned.length + size)
    have hslot : place size position ≠ oldTail := by
      rw [hslotMine]
      exact (place_ne (by omega) (by omega)).symm
    simpa [hslot] using inv.free position hle hposition
  · have hvalid (hhead : (state.ring.items state.ring.head).valid = true) :
        (Function.update state.ring.items oldTail
          { state.ring.items oldTail with valid := true } state.ring.head).valid = true := by
      by_cases hslot : state.ring.head = oldTail
      · rw [hslot, Function.update_self]
      · rw [Function.update_of_ne hslot, hhead]
    refine inv.consumer.carry rfl rfl (List.prefix_refl _) hvalid fun _ hcleared hnone => ?_
    have hslot : state.ring.head ≠ oldTail := (hnone p _ hp).symm
    exact ⟨by simpa [hslot] using hcleared, fun q owned hq => hnone q owned (hothers q owned hq).2⟩

end Preservation

/-! ## The consumer's steps -/

/-- A valid front slot holds the item of the front reservation. -/
theorem front_item (inv : Inv state)
    (hlt : state.returned.length < state.reserved.length)
    (hvalid : (state.ring.items state.ring.head).valid = true) :
    (state.reserved.map Prod.snd)[state.returned.length]? =
      some (state.ring.items state.ring.head).item := by
  obtain ⟨entry, hentry⟩ : ∃ entry, state.reserved[state.returned.length]? = some entry :=
    ⟨_, List.getElem?_eq_getElem hlt⟩
  have hvalue : (state.reserved.map Prod.snd)[state.returned.length]? = some entry.2 := by
    simp [hentry]
  rw [inv.head_eq] at hvalid ⊢
  rcases inv.cell _ entry (Nat.le_refl _) hentry with howned | hpublished | ⟨_, item, hstate⟩
  · have hinvalid := (inv.owner _ _ _ howned).2
    simp [hinvalid] at hvalid
  · rw [hvalue, hpublished]
  · have hconsumer := inv.consumer
    simp only [ConsumerInv, hstate, inv.head_eq] at hconsumer
    simp [hconsumer.1] at hvalid

/-- No producer owns a valid slot. -/
theorem not_owned_of_valid (inv : Inv state) {slot : Fin size}
    (hvalid : (state.ring.items slot).valid = true) (p : P) (owned : T × Fin size)
    (howned : (state.producer p).owned = some owned) : owned.2 ≠ slot := by
  intro heq
  have hinvalid := (inv.owner p owned.1 owned.2 howned).2
  simp [heq, hvalid] at hinvalid

theorem consume_compare (inv : Inv state) (hstate : state.consumer = .idle)
    (hne : state.ring.head ≠ state.ring.tail) :
    Inv { state with consumer := .testing } := by
  refine { inv with cell := ?_, consumer := ?_ }
  · simpa [hstate] using inv.cell
  · rw [inv.head_eq, inv.tail_eq] at hne
    have hremoved := inv.removed_le
    have hlength : state.returned.length ≠ state.reserved.length := fun heq =>
      hne (congrArg _ heq)
    show state.returned.length < state.reserved.length
    omega

theorem consume_test_invalid (inv : Inv state) (hstate : state.consumer = .testing) :
    Inv { state with consumer := .idle } :=
  { inv with
    cell := by simpa [hstate] using inv.cell
    consumer := trivial }

theorem consume_test_valid (inv : Inv state) (hstate : state.consumer = .testing)
    (hvalid : (state.ring.items state.ring.head).valid = true) :
    Inv { state with consumer := .reading } := by
  have hconsumer := inv.consumer
  simp only [ConsumerInv, hstate] at hconsumer
  exact { inv with
    cell := by simpa [hstate] using inv.cell
    consumer := ⟨hconsumer, hvalid⟩ }

theorem consume_read (inv : Inv state) (hstate : state.consumer = .reading) :
    Inv { state with consumer := .clearing (state.ring.items state.ring.head).item } := by
  have hconsumer := inv.consumer
  simp only [ConsumerInv, hstate] at hconsumer
  exact { inv with
    cell := by simpa [hstate] using inv.cell
    consumer := ⟨hconsumer.2, inv.front_item hconsumer.1 hconsumer.2⟩ }

theorem consume_clear (inv : Inv state) {item : T}
    (hstate : state.consumer = .clearing item) :
    Inv { state with
      consumer := .advancing item
      ring := { state.ring with
        items := Function.update state.ring.items state.ring.head
          { state.ring.items state.ring.head with valid := false } } } := by
  have hconsumer := inv.consumer
  simp only [ConsumerInv, hstate] at hconsumer
  obtain ⟨hvalid, hvalue⟩ := hconsumer
  have hcleared : ∀ slot, (state.ring.items slot).valid = false →
      (Function.update state.ring.items state.ring.head
        { state.ring.items state.ring.head with valid := false } slot).valid = false := by
    intro slot hslot
    by_cases hhead : slot = state.ring.head
    · rw [hhead, Function.update_self]
    · rw [Function.update_of_ne hhead, hslot]
  refine { inv with
    owner := ?_
    written := ?_
    cell := ?_
    free := fun position hle hlt => hcleared _ (inv.free position hle hlt)
    consumer := ?_ }
  · intro p other slot howned
    have hold := inv.owner p other slot howned
    exact ⟨hold.1, hcleared _ hold.2⟩
  · intro p other slot (hp : state.producer p = .publishing other slot)
    have hslot : slot ≠ state.ring.head :=
      inv.not_owned_of_valid hvalid p (other, slot) (by simp [hp, Producer.owned])
    simpa [hslot] using inv.written p other slot hp
  · intro position entry (hle : state.returned.length ≤ position)
      (hentry : state.reserved[position]? = some entry)
    by_cases hfront : position = state.returned.length
    · exact Or.inr (Or.inr ⟨hfront, item, rfl⟩)
    · have hbound := (List.getElem?_eq_some_iff.mp hentry).1
      have hbegun := inv.begun_lt
      have hreserved := inv.reserved_le_begun
      have hslot : place size position ≠ state.ring.head := by
        rw [inv.head_eq]
        exact (place_ne (by omega) (by omega)).symm
      simpa [hslot, hstate, hfront] using inv.cell position entry hle hentry
  · refine ⟨by simp, hvalue, ?_⟩
    exact inv.not_owned_of_valid hvalid

theorem consume_advance (inv : Inv state) {item : T}
    (hstate : state.consumer = .advancing item) :
    Inv { state with
      consumer := .idle
      ring := { state.ring with head := next state.ring.head }
      returned := state.returned ++ [item] } := by
  have hconsumer := inv.consumer
  simp only [ConsumerInv, hstate] at hconsumer
  obtain ⟨hcleared, hvalue, hnone⟩ := hconsumer
  have hlt := (List.getElem?_eq_some_iff.mp hvalue).1
  rw [List.length_map] at hlt
  have hbegun := inv.begun_lt
  refine { inv with
    head_eq := by simp [inv.head_eq]
    removed_le := by simpa using Nat.succ_le_of_lt hlt
    begun_lt := by simp; omega
    returned_prefix := ?_
    owner := ?_
    cell := ?_
    free := ?_
    consumer := trivial }
  · have htake := List.prefix_iff_eq_take.mp inv.returned_prefix
    refine List.prefix_iff_eq_take.mpr ?_
    rw [List.length_append, List.length_singleton, List.take_add_one, ← htake, hvalue]
    rfl
  · intro p other slot howned
    obtain ⟨⟨position, hle, hentry, hslot⟩, hvalid⟩ := inv.owner p other slot howned
    have hne : position ≠ state.returned.length := by
      intro heq
      exact hnone p (other, slot) howned (by simp [hslot, heq, inv.head_eq])
    exact ⟨⟨position, by simp; omega, hentry, hslot⟩, hvalid⟩
  · intro position entry hle hentry
    simp only [List.length_append, List.length_singleton] at hle
    rcases inv.cell position entry (Nat.le_of_succ_le hle) hentry with
      howned | hpublished | ⟨hfront, _⟩
    · exact Or.inl howned
    · exact Or.inr (Or.inl hpublished)
    · omega
  · intro position hle hposition
    simp only [List.length_append, List.length_singleton] at hposition
    rcases Nat.lt_or_ge position (state.returned.length + size) with hold | hlap
    · exact inv.free position hle hold
    · have hsame : position = state.returned.length + size := by omega
      rw [hsame, place_add_size, ← inv.head_eq]
      exact hcleared

/-- One atomic step of the consumer keeps the invariant. -/
theorem consume (inv : Inv state) : Inv (Interleaving.consume state) := by
  cases hstate : state.consumer with
  | idle =>
      simp only [Interleaving.consume, hstate]
      split
      · exact inv
      · rename_i hne
        exact inv.consume_compare hstate hne
  | testing =>
      simp only [Interleaving.consume, hstate]
      split
      · exact inv.consume_test_invalid hstate
      · rename_i hvalid
        exact inv.consume_test_valid hstate (by simpa using hvalid)
  | reading =>
      simp only [Interleaving.consume, hstate]
      exact inv.consume_read hstate
  | clearing item =>
      simp only [Interleaving.consume, hstate]
      exact inv.consume_clear hstate
  | advancing item =>
      simp only [Interleaving.consume, hstate]
      exact inv.consume_advance hstate

section Steps

variable [DecidableEq P]

/-- One atomic step of a producer keeps the invariant. -/
theorem produce (inv : Inv state) {p : P} {next : State P T size}
    (hstep : Interleaving.produce state p = some next) : Inv next := by
  cases hpc : state.producer p with
  | idle => simp [Interleaving.produce, hpc] at hstep
  | loading item =>
      simp only [Interleaving.produce, hpc, Option.some.injEq] at hstep
      subst hstep
      exact inv.move (by simp [hpc, Producer.owned]) (by simp [hpc, Producer.waiting])
        (by simp)
  | swapping item oldTail =>
      simp only [Interleaving.produce, hpc] at hstep
      split at hstep
      · rename_i htail
        cases hstep
        exact inv.swap hpc htail
      · cases hstep
        exact inv.move (by simp [hpc, Producer.owned]) (by simp [hpc, Producer.waiting])
          (by simp)
  | reloading item =>
      have hroom := inv.next_tail_ne_head
        (show (state.producer p).waiting = some item by simp [hpc, Producer.waiting])
      simp only [Interleaving.produce, hpc, hroom, if_false, Option.some.injEq] at hstep
      subst hstep
      exact inv.move (by simp [hpc, Producer.owned]) (by simp [hpc, Producer.waiting])
        (by simp)
  | checking item oldTail =>
      have hroom := inv.next_owned_ne_head
        (show (state.producer p).owned = some (item, oldTail) by
          simp [hpc, Producer.owned])
      simp only [Interleaving.produce, hpc, hroom, if_false, Option.some.injEq] at hstep
      subst hstep
      exact inv.move (by simp [hpc, Producer.owned]) (by simp [hpc, Producer.waiting])
        (by simp)
  | writing item oldTail =>
      simp only [Interleaving.produce, hpc, Option.some.injEq] at hstep
      subst hstep
      exact inv.write hpc
  | publishing item oldTail =>
      simp only [Interleaving.produce, hpc, Option.some.injEq] at hstep
      subst hstep
      exact inv.publish hpc

theorem step (inv : Inv state) {action : Action P T} {next : State P T size}
    (hstep : Interleaving.step state action = some next)
    (hpending : next.pending ≤ size - 1) : Inv next := by
  cases action with
  | call p item =>
      cases hpc : state.producer p with
      | idle =>
          simp only [Interleaving.step, hpc, Option.some.injEq] at hstep
          subst hstep
          have hsize := Nat.pos_of_neZero size
          simp only [State.pending, List.length_append, List.length_singleton,
            State.setProducer_returned] at hpending
          exact inv.call hpc item (by omega)
      | _ => simp [Interleaving.step, hpc] at hstep
  | produce p => exact inv.produce hstep
  | consume =>
      simp only [Interleaving.step, Option.some.injEq] at hstep
      subst hstep
      exact inv.consume

theorem of_reachable {fresh : Fin size → T} (reach : Reachable fresh state) :
    Inv state := by
  induction reach with
  | init => exact .init fresh
  | step action _ hstep hpending ih => exact ih.step hstep hpending

end Steps

/-- With every caller outside `put` and `get` the ring holds the rest of the items. -/
theorem represents (inv : Inv state) (hidle : ∀ p, state.producer p = .idle)
    (hconsumer : state.consumer = .idle) :
    ∃ rest, state.reserved.map Prod.snd = state.returned ++ rest ∧
      state.ring.Represents state.returned.length rest := by
  obtain ⟨rest, hrest⟩ := inv.returned_prefix
  have hlength := congrArg List.length hrest
  simp only [List.length_append, List.length_map] at hlength
  have hbegun := inv.begun_lt
  have hreserved := inv.reserved_le_begun
  refine ⟨rest, hrest.symm, inv.head_eq, by rw [inv.tail_eq, hlength], by omega, ?_⟩
  intro offset hoffset
  rw [List.length_map] at hoffset
  have hposition : state.returned.length + offset < state.reserved.length := by omega
  have hentry := List.getElem?_eq_getElem hposition
  have hitem : rest[offset] = (state.reserved[state.returned.length + offset]).2 := by
    have hread := congrArg (fun items => items[state.returned.length + offset]?) hrest
    simpa [hoffset, hposition] using hread
  rcases inv.cell _ _ (Nat.le_add_right _ _) hentry with howned | hpublished | ⟨_, item, hstate⟩
  · simp [hidle, Producer.owned] at howned
  · rw [List.getElem_map, hitem, hpublished]
  · simp [hconsumer] at hstate

end Inv

/-! ## What every bounded run guarantees -/

/-- An item lies in the slot: published, or written and about to be. -/
def Unread (state : State P T size) (slot : Fin size) : Prop :=
  (state.ring.items slot).valid = true ∨
    ∃ p item, state.producer p = .publishing item slot

/-- No put is still at work on the slot, and it contains the item put there. -/
def FullyWritten (state : State P T size) (slot : Fin size) : Prop :=
  (∀ p owned, (state.producer p).owned = some owned → owned.2 ≠ slot) ∧
    (state.reserved.map Prod.snd)[state.returned.length]? =
      some (state.ring.items slot).item

/-- The guarantees of the ring in one state of a run. -/
structure DeliversInOrder (state : State P T size) : Prop where
  puts_succeed : ∀ result ∈ state.putResults, result.2 = true
  writes_free_slot : ∀ p item slot, state.producer p = .writing item slot →
    ¬ Unread state slot
  reads_written_slot : state.consumer = .reading → FullyWritten state state.ring.head
  returned_in_order : state.returned <+: state.reserved.map Prod.snd
  reserved_once : (∀ p, (state.producer p).waiting = none) →
    state.begun.Perm state.reserved
  rest_held : (∀ p, state.producer p = .idle) → state.consumer = .idle →
    ∃ rest, state.reserved.map Prod.snd = state.returned ++ rest ∧
      state.ring.Represents state.returned.length rest

variable [DecidableEq P]

/--
In every interleaving with at most `size - 1` unfinished puts each put returns
`true`, nobody overwrites an unread item or reads an unfinished one, and `get`
returns the items once each in the order of the reservations.
-/
theorem bounded_runs_deliver_in_order {fresh : Fin size → T} {state : State P T size}
    (reach : Reachable fresh state) : DeliversInOrder state := by
  have inv := Inv.of_reachable reach
  refine ⟨inv.results, ?_, ?_, inv.returned_prefix, ?_, inv.represents⟩
  · rintro p item slot hp (hvalid | ⟨q, other, hq⟩)
    · exact inv.not_owned_of_valid hvalid p (item, slot) (by simp [hp, Producer.owned]) rfl
    · have hpOwns : (state.producer p).owned = some (item, slot) := by
        simp [hp, Producer.owned]
      have hqOwns : (state.producer q).owned = some (other, slot) := by
        simp [hq, Producer.owned]
      rw [inv.owner_unique hpOwns hqOwns, hq] at hp
      cases hp
  · intro hstate
    have hconsumer := inv.consumer
    simp only [ConsumerInv, hstate] at hconsumer
    exact ⟨inv.not_owned_of_valid hconsumer.2, inv.front_item hconsumer.1 hconsumer.2⟩
  · intro hnone
    obtain ⟨waiting, hmem, _, hperm⟩ := inv.begun_split
    have hempty : waiting = [] := by
      refine List.eq_nil_iff_forall_not_mem.mpr fun entry hentry => ?_
      have hsome := (hmem entry.1 entry.2).mp hentry
      simp [hnone] at hsome
    simpa [hempty] using hperm

/-- Two producers race on a ring of three slots; the loser of the swap retries. -/
theorem bounded_runs_deliver_in_order_race :
    ∃ state : State Bool Nat 3, state.returned = [5] ∧
      state.reserved = [(true, 5), (false, 4)] ∧ DeliversInOrder state :=
  have reach := ((Reachable.init : Reachable (fun _ : Fin 3 => 0) (State.init Bool _))
      |>.step (.call false 4) rfl (by decide)
      |>.step (.produce false) rfl (by decide)
      |>.step (.call true 5) rfl (by decide)
      |>.step (.produce true) rfl (by decide)
      |>.step (.produce true) rfl (by decide)
      |>.step (.produce false) rfl (by decide)
      |>.step (.produce false) rfl (by decide)
      |>.step (.produce false) rfl (by decide)
      |>.step (.produce true) rfl (by decide)
      |>.step (.produce true) rfl (by decide)
      |>.step (.produce true) rfl (by decide)
      |>.step .consume rfl (by decide)
      |>.step .consume rfl (by decide)
      |>.step .consume rfl (by decide)
      |>.step .consume rfl (by decide)
      |>.step .consume rfl (by decide))
  ⟨_, rfl, rfl, bounded_runs_deliver_in_order reach⟩

end DumaisLib.Utils.Interleaving
