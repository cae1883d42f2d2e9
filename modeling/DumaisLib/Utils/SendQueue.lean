import DumaisLib.Lib.SizeT
import DumaisLib.Lib.Transmission
import DumaisLib.Utils.MPSCRingBufferFifo

/-!
# A ring of buffers that is sent piece by piece

The buffer being sent has been taken out of the ring; a cursor in it marks what
has gone out.  A buffer of no bytes is never given up, and blocks what is behind.
-/

namespace DumaisLib.Utils

open CircularBuffer Transmission

variable {B α : Type} {size : Nat} [NeZero size]

/-- How a buffer is sent: what is left of it, and the buffer after some more has gone out. -/
structure Cursor (B α : Type) where
  rest : B → List α
  advance : B → Nat → Option B

/-- The cursor of a sound buffer moves by what has gone out, and gives up a buffer at its end. -/
structure Cursor.Lawful (cursor : Cursor B α) (sound : B → Prop) : Prop where
  rest_advance : ∀ buffer count, sound buffer → 1 ≤ count →
    count ≤ (cursor.rest buffer).length →
    ((cursor.advance buffer count).map cursor.rest).getD [] = (cursor.rest buffer).drop count
  advance_sound : ∀ buffer count next, sound buffer → 1 ≤ count →
    count ≤ (cursor.rest buffer).length → cursor.advance buffer count = some next →
    sound next ∧ cursor.rest next ≠ []

namespace Cursor

/-- The law for buffers of which something is left. -/
theorem Lawful.unsent {cursor : Cursor B α} {sound : B → Prop} (hlawful : cursor.Lawful sound) :
    cursor.Lawful fun buffer => sound buffer ∧ cursor.rest buffer ≠ [] where
  rest_advance buffer count hsound := hlawful.rest_advance buffer count hsound.1
  advance_sound buffer count next hsound hpos hle hnext :=
    have hadvance := hlawful.advance_sound buffer count next hsound.1 hpos hle hnext
    ⟨hadvance, hadvance.2⟩

/-- The fields of a buffer that a cursor is made of; sizes and indices have 64 bits. -/
structure Fields (B α : Type) where
  content : B → List α
  size : B → Nat
  index : B → Nat
  setIndex : B → Nat → B
  content_setIndex : ∀ buffer i, content (setIndex buffer i) = content buffer
  size_setIndex : ∀ buffer i, size (setIndex buffer i) = size buffer
  index_setIndex : ∀ buffer i, index (setIndex buffer i) = i

/-- The cursor that adds what has gone out to the index, until it is the size. -/
def ofFields (fields : Fields B α) : Cursor B α where
  rest buffer := (fields.content buffer).drop (fields.index buffer)
  advance buffer count :=
    let index := sizeAdd (fields.index buffer) count
    if index = fields.size buffer then none else some (fields.setIndex buffer index)

/-- The size is that of the content, and the index is in it. -/
structure Fields.Sound (fields : Fields B α) (buffer : B) : Prop where
  size_eq : fields.size buffer = (fields.content buffer).length
  size_lt : fields.size buffer < 2 ^ 64
  index_le : fields.index buffer ≤ fields.size buffer

variable {fields : Fields B α} {buffer : B}

theorem Fields.Sound.length_rest (hsound : fields.Sound buffer) :
    ((ofFields fields).rest buffer).length = fields.size buffer - fields.index buffer := by
  rw [hsound.size_eq]
  exact List.length_drop

theorem Fields.Sound.index_add (hsound : fields.Sound buffer) {count : Nat}
    (hle : count ≤ ((ofFields fields).rest buffer).length) :
    sizeAdd (fields.index buffer) count = fields.index buffer + count ∧
      fields.index buffer + count ≤ fields.size buffer := by
  rw [hsound.length_rest] at hle
  have hlt := hsound.size_lt
  have hindex := hsound.index_le
  exact ⟨sizeAdd_of_lt (by omega), by omega⟩

theorem ofFields_lawful (fields : Fields B α) : (ofFields fields).Lawful fields.Sound where
  rest_advance buffer count hsound _ hle := by
    obtain ⟨hadd, -⟩ := hsound.index_add hle
    simp only [ofFields, hadd]
    by_cases hend : fields.index buffer + count = fields.size buffer
    · rw [if_pos hend, List.drop_drop, hend, hsound.size_eq, List.drop_length]
      rfl
    · rw [if_neg hend, List.drop_drop]
      simp [fields.content_setIndex, fields.index_setIndex]
  advance_sound buffer count next hsound _ hle hnext := by
    obtain ⟨hadd, hbound⟩ := hsound.index_add hle
    simp only [ofFields, hadd] at hnext
    split at hnext
    · cases hnext
    · obtain rfl := Option.some.inj hnext
      have hnext : fields.Sound (fields.setIndex buffer (fields.index buffer + count)) :=
        ⟨by rw [fields.size_setIndex, fields.content_setIndex, hsound.size_eq],
          by rw [fields.size_setIndex]; exact hsound.size_lt,
          by rw [fields.size_setIndex, fields.index_setIndex]; exact hbound⟩
      refine ⟨hnext, List.ne_nil_of_length_pos ?_⟩
      rw [hnext.length_rest, fields.size_setIndex, fields.index_setIndex]
      omega

end Cursor

structure SendQueue (B : Type) (size : Nat) where
  current : Option B
  waiting : MPSCRingBuffer B size

namespace SendQueue

def put (queue : SendQueue B size) (buffer : B) : SendQueue B size :=
  { queue with waiting := (queue.waiting.put buffer).2 }

/-- The next buffer becomes the current one, when there is no current one. -/
def fetch (queue : SendQueue B size) : SendQueue B size :=
  match queue.current with
  | some _ => queue
  | none => { current := queue.waiting.get.1, waiting := queue.waiting.get.2 }

/-- What is on offer. -/
def front (cursor : Cursor B α) (queue : SendQueue B size) : List α :=
  (queue.current.map cursor.rest).getD []

def sender (cursor : Cursor B α) : Sender (SendQueue B size) B α where
  accept := put
  offer queue := (queue.fetch.front cursor, queue.fetch)
  sent queue count := { queue with current := queue.current.bind (cursor.advance · count) }

/-- The buffers still to be sent, in order. -/
def buffers (queue : SendQueue B size) : List B :=
  queue.current.toList ++ queue.waiting.held

def pending (cursor : Cursor B α) (queue : SendQueue B size) : List α :=
  queue.buffers.flatMap cursor.rest

/-- The ring is in order and so is every buffer. -/
structure Sound (sound : B → Prop) (queue : SendQueue B size) : Prop where
  wellFormed : queue.waiting.WellFormed
  buffers : ∀ buffer ∈ queue.buffers, sound buffer

variable {sound : B → Prop} {cursor : Cursor B α} {queue : SendQueue B size}

theorem fetch_buffers (hwf : queue.waiting.WellFormed) :
    queue.fetch.waiting.WellFormed ∧ queue.fetch.buffers = queue.buffers ∧
      (queue.fetch.current = none → queue.buffers = []) := by
  obtain ⟨current, waiting⟩ := queue
  cases current with
  | some buffer => exact ⟨hwf, rfl, fun hnone => absurd hnone (Option.some_ne_none buffer)⟩
  | none =>
      obtain ⟨front, contents, repr⟩ := hwf
      simp only [fetch, buffers]
      cases contents with
      | nil =>
          rw [repr.get_empty, repr.held_eq]
          exact ⟨⟨front, [], repr⟩, rfl, fun _ => rfl⟩
      | cons buffer rest =>
          obtain ⟨hanswer, hnext⟩ := repr.get_cons
          rw [hanswer, repr.held_eq, hnext.held_eq]
          exact ⟨⟨front + 1, rest, hnext⟩, rfl, fun hnone =>
            absurd hnone (Option.some_ne_none buffer)⟩

/-- What waits is the end of what waited. -/
theorem fetch_held_suffix (hwf : queue.waiting.WellFormed) :
    queue.fetch.waiting.held <:+ queue.waiting.held := by
  obtain ⟨-, hbuffers, -⟩ := fetch_buffers hwf
  obtain ⟨current, waiting⟩ := queue
  cases current with
  | some buffer => exact List.suffix_rfl
  | none => exact ⟨_, hbuffers⟩

theorem Sound.fetch (hsound : Sound sound queue) : Sound sound queue.fetch := by
  obtain ⟨hwf, hbuffers, -⟩ := fetch_buffers hsound.wellFormed
  exact ⟨hwf, hbuffers ▸ hsound.buffers⟩

theorem front_begins (cursor : Cursor B α) (queue : SendQueue B size) :
    queue.front cursor <+: queue.pending cursor := by
  obtain ⟨current, waiting⟩ := queue
  cases current with
  | none => exact List.nil_prefix
  | some buffer => exact ⟨waiting.held.flatMap cursor.rest, rfl⟩

/-- A sound queue gives its pending bytes away in order. -/
theorem drains (hlawful : cursor.Lawful sound) :
    Drains (sender cursor : Sender (SendQueue B size) B α) (Sound sound) (front cursor)
      (pending cursor) where
  offer queue hsound := by
    obtain ⟨-, hbuffers, -⟩ := fetch_buffers hsound.wellFormed
    exact ⟨hsound.fetch, rfl, congrArg (List.flatMap cursor.rest) hbuffers⟩
  sent queue count hsound hpos hle := by
    obtain ⟨current, waiting⟩ := queue
    cases current with
    | none => exact absurd hle (Nat.not_le_of_lt hpos)
    | some buffer =>
        have hbuffer : sound buffer := hsound.buffers buffer List.mem_cons_self
        have hrest := hlawful.rest_advance buffer count hbuffer hpos hle
        have hwaiting : ∀ other ∈ waiting.held, sound other := fun other hother =>
          hsound.buffers other (List.mem_cons_of_mem _ hother)
        refine ⟨⟨hsound.wellFormed, ?_⟩, hrest, ?_⟩
        · intro other hother
          rcases List.mem_append.mp hother with hcurrent | hheld
          · have hadvance := Option.mem_toList.mp hcurrent
            exact (hlawful.advance_sound buffer count other hbuffer hpos hle hadvance).1
          · exact hwaiting other hheld
        · have hflat : pending cursor ⟨cursor.advance buffer count, waiting⟩ =
              (cursor.rest buffer).drop count ++ waiting.held.flatMap cursor.rest := by
            rw [← hrest, pending, buffers, List.flatMap_append]
            cases cursor.advance buffer count with
            | none => rfl
            | some next => simp
          have hle' : count ≤ (cursor.rest buffer).length := hle
          refine hflat.trans ?_
          simp only [pending, buffers, Option.toList_some, List.cons_append, List.nil_append,
            List.flatMap_cons]
          rw [List.drop_append_of_le_length hle']
  front_begins queue _ := front_begins cursor queue

/-- A `put` into a full ring drops everything that waits. -/
theorem put_cases {ring : MPSCRingBuffer B size} (hwf : ring.WellFormed) (buffer : B) :
    (ring.put buffer).2.WellFormed ∧
      ((ring.held.length + 1 < size ∧ (ring.put buffer).1 = true ∧
          (ring.put buffer).2.held = ring.held ++ [buffer]) ∨
        (ring.held.length + 1 = size ∧ (ring.put buffer).1 = false ∧
          (ring.put buffer).2.held = [])) := by
  obtain ⟨front, contents, repr⟩ := hwf
  have hroom := repr.room
  rw [repr.held_eq]
  by_cases hfull : contents.length + 1 = size
  · have hempty : MPSCRingBuffer.Represents { ring with tail := ring.head } front [] :=
      ⟨repr.head_eq, repr.head_eq, Nat.pos_of_neZero size, .nil _ _⟩
    rw [repr.put_full hfull buffer, hempty.held_eq]
    exact ⟨⟨front, [], hempty⟩, Or.inr ⟨hfull, rfl, rfl⟩⟩
  · obtain ⟨hanswer, hnext⟩ := repr.put_room (by omega) buffer
    rw [hanswer, hnext.held_eq]
    exact ⟨⟨front, _, hnext⟩, Or.inl ⟨by omega, rfl, rfl⟩⟩

theorem put_sound (hsound : Sound sound queue) {buffer : B} (hbuffer : sound buffer) :
    Sound sound (queue.put buffer) := by
  obtain ⟨hwf, hcases⟩ := put_cases hsound.wellFormed buffer
  refine ⟨hwf, fun other hother => ?_⟩
  rcases List.mem_append.mp hother with hcurrent | hheld
  · exact hsound.buffers other (List.mem_append_left _ hcurrent)
  · rcases hcases with ⟨-, -, heq⟩ | ⟨-, -, heq⟩
    · rw [put, heq] at hheld
      rcases List.mem_append.mp hheld with hold | hnew
      · exact hsound.buffers other (List.mem_append_right _ hold)
      · rwa [List.mem_singleton.mp hnew]
    · rw [put, heq] at hheld
      cases hheld

/-- With room a buffer goes behind the others. -/
theorem put_buffers (hwf : queue.waiting.WellFormed) (buffer : B)
    (hroom : queue.waiting.held.length + 1 < size) :
    (queue.put buffer).buffers = queue.buffers ++ [buffer] ∧
      (queue.put buffer).waiting.held = queue.waiting.held ++ [buffer] := by
  obtain ⟨-, ⟨-, -, hheld⟩ | ⟨hfull, -⟩⟩ := put_cases hwf buffer
  · exact ⟨by rw [buffers, put, hheld, buffers, List.append_assoc], hheld⟩
  · exact absurd hfull hroom.ne

/-- A `put` adds at most the content of its buffer. -/
theorem length_pending_put_le (hwf : queue.waiting.WellFormed) (cursor : Cursor B α) (buffer : B) :
    ((queue.put buffer).pending cursor).length ≤
      (queue.pending cursor).length + (cursor.rest buffer).length := by
  obtain ⟨-, ⟨hroom, -, -⟩ | ⟨-, -, hheld⟩⟩ := put_cases hwf buffer
  · rw [pending, (put_buffers hwf buffer hroom).1, pending, List.flatMap_append,
      List.length_append]
    simp
  · simp only [pending, buffers, put, hheld, List.flatMap_append, List.length_append,
      List.flatMap_nil, List.length_nil]
    omega

/-! ## A queue behind which nothing goes out -/

/-- The last buffer, and no other, is one of no bytes. -/
def Blocked (cursor : Cursor B α) (queue : SendQueue B size) : Prop :=
  ∃ first last, queue.buffers = first ++ [last] ∧ cursor.rest last = [] ∧
    ∀ buffer ∈ first, cursor.rest buffer ≠ []

theorem Blocked.sent (hlawful : cursor.Lawful sound) (hsound : Sound sound queue)
    (hblocked : Blocked cursor queue) {count : Nat} (hpos : 1 ≤ count)
    (hle : count ≤ (queue.front cursor).length) :
    Blocked cursor ((sender cursor).sent queue count) := by
  obtain ⟨first, last, hbuffers, hlast, hfirst⟩ := hblocked
  obtain ⟨current, waiting⟩ := queue
  cases current with
  | none => exact absurd hle (Nat.not_le_of_lt hpos)
  | some buffer =>
      have hle' : count ≤ (cursor.rest buffer).length := hle
      have hcons : buffer :: waiting.held = first ++ [last] := hbuffers
      cases first with
      | nil =>
          obtain ⟨rfl, -⟩ := List.cons.inj hcons
          rw [hlast, List.length_nil] at hle'
          omega
      | cons head first =>
          obtain ⟨rfl, hheld⟩ := List.cons.inj hcons
          refine ⟨(cursor.advance buffer count).toList ++ first, last, ?_, hlast, ?_⟩
          · rw [List.append_assoc]
            exact congrArg ((cursor.advance buffer count).toList ++ ·) hheld
          · intro other hother
            rcases List.mem_append.mp hother with hnext | hrest
            · exact (hlawful.advance_sound buffer count other
                (hsound.buffers buffer List.mem_cons_self) hpos hle'
                (Option.mem_toList.mp hnext)).2
            · exact hfirst other (List.mem_cons_of_mem _ hrest)

/-- When a blocked queue offers nothing, the buffer of no bytes is the current one. -/
theorem Blocked.idle (hwf : queue.waiting.WellFormed) (hblocked : Blocked cursor queue)
    (hidle : queue.fetch.front cursor = []) :
    queue.pending cursor = [] ∧
      ∃ buffer, queue.fetch.current = some buffer ∧ cursor.rest buffer = [] := by
  obtain ⟨first, last, hbuffers, hlast, hfirst⟩ := hblocked
  obtain ⟨-, hfetch, hempty⟩ := fetch_buffers hwf
  rw [front] at hidle
  cases hcurrent : queue.fetch.current with
  | none =>
      rw [hempty hcurrent] at hbuffers
      exact absurd hbuffers.symm (List.append_ne_nil_of_right_ne_nil _ (List.cons_ne_nil _ _))
  | some buffer =>
      rw [hcurrent] at hidle
      have hcons : buffer :: queue.fetch.waiting.held = first ++ [last] := by
        rw [← hbuffers, ← hfetch, buffers, hcurrent]
        rfl
      refine ⟨?_, buffer, rfl, hidle⟩
      cases first with
      | nil => rw [pending, hbuffers, List.nil_append, List.flatMap_singleton, hlast]
      | cons head first =>
          obtain ⟨rfl, -⟩ := List.cons.inj hcons
          exact absurd hidle (hfirst buffer List.mem_cons_self)

/-! ## Several buffers one after the other -/

def putAll (queue : SendQueue B size) (buffers : List B) : SendQueue B size :=
  buffers.foldl put queue

theorem putAll_sound (hsound : Sound sound queue) {buffers : List B}
    (hbuffers : ∀ buffer ∈ buffers, sound buffer) : Sound sound (queue.putAll buffers) := by
  induction buffers generalizing queue with
  | nil => exact hsound
  | cons buffer buffers ih =>
      obtain ⟨hbuffer, hrest⟩ := List.forall_mem_cons.mp hbuffers
      exact ih (put_sound hsound hbuffer) hrest

@[simp] theorem putAll_current (queue : SendQueue B size) (buffers : List B) :
    (queue.putAll buffers).current = queue.current := by
  induction buffers generalizing queue with
  | nil => rfl
  | cons buffer buffers ih => exact ih (queue.put buffer)

theorem putAll_wellFormed (hwf : queue.waiting.WellFormed) (buffers : List B) :
    (queue.putAll buffers).waiting.WellFormed := by
  induction buffers generalizing queue with
  | nil => exact hwf
  | cons buffer buffers ih =>
      have hwf' : (queue.put buffer).waiting.WellFormed := (put_cases hwf buffer).1
      exact ih hwf'

/-- As long as there is room the buffers line up. -/
theorem putAll_buffers (hwf : queue.waiting.WellFormed) {buffers : List B}
    (hroom : queue.waiting.held.length + buffers.length < size) :
    (queue.putAll buffers).buffers = queue.buffers ++ buffers ∧
      (queue.putAll buffers).waiting.held = queue.waiting.held ++ buffers := by
  induction buffers generalizing queue with
  | nil => exact ⟨(List.append_nil _).symm, (List.append_nil _).symm⟩
  | cons buffer rest ih =>
      rw [List.length_cons] at hroom
      obtain ⟨hput, hheld⟩ := put_buffers hwf buffer (by omega)
      have hwf' : (queue.put buffer).waiting.WellFormed := (put_cases hwf buffer).1
      obtain ⟨hall, hheld'⟩ := ih hwf' (by rw [hheld, List.length_append]; simp; omega)
      refine ⟨hall.trans ?_, hheld'.trans ?_⟩
      · rw [hput, List.append_assoc]
        rfl
      · rw [hheld, List.append_assoc]
        rfl

theorem length_pending_putAll_le (hwf : queue.waiting.WellFormed) (cursor : Cursor B α)
    (buffers : List B) :
    ((queue.putAll buffers).pending cursor).length ≤
      (queue.pending cursor).length + (buffers.flatMap cursor.rest).length := by
  induction buffers generalizing queue with
  | nil => exact Nat.le_add_right _ _
  | cons buffer buffers ih =>
      have hwf' : (queue.put buffer).waiting.WellFormed := (put_cases hwf buffer).1
      have hput := length_pending_put_le hwf cursor buffer
      have hall := ih hwf'
      rw [List.flatMap_cons, List.length_append]
      change ((queue.put buffer).putAll buffers |>.pending cursor).length ≤ _
      omega

/-- More buffers than fit into an empty queue lose all up to the one too many. -/
theorem length_pending_overflow_le (hwf : queue.waiting.WellFormed) (hempty : queue.buffers = [])
    (cursor : Cursor B α) {first : List B} (hsize : first.length + 1 = size) (last : B)
    (later : List B) :
    ((queue.putAll (first ++ last :: later)).pending cursor).length ≤
      (later.flatMap cursor.rest).length := by
  obtain ⟨hcurrent, hheld⟩ := List.append_eq_nil_iff.mp hempty
  have hroom : queue.waiting.held.length + first.length < size := by
    rw [hheld, List.length_nil]
    omega
  obtain ⟨-, hfirst⟩ := putAll_buffers hwf hroom
  have hwf' := putAll_wellFormed hwf first
  rw [hheld, List.nil_append] at hfirst
  obtain ⟨hwf'', ⟨hroom, -⟩ | ⟨-, -, hlost⟩⟩ := put_cases hwf' last
  · rw [hfirst] at hroom
    omega
  · have hnone : ((queue.putAll first).put last).pending cursor = [] := by
      rw [pending, buffers, put, putAll_current, hcurrent, hlost]
      rfl
    have hlater : _ ≤ (((queue.putAll first).put last).pending cursor).length + _ :=
      length_pending_putAll_le hwf'' cursor later
    rw [hnone, List.length_nil, Nat.zero_add] at hlater
    rwa [putAll, List.foldl_append]

end SendQueue

end DumaisLib.Utils
