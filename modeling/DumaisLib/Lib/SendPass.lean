import DumaisLib.Lib.Machine
import DumaisLib.Lib.Transmission
import Mathlib.Algebra.GroupWithZero.Nat
import Mathlib.Data.List.Basic

/-!
# One pass over a table of peers

A pass goes through a table with an iterator and sends to each peer what it has
on offer.  The iterator is the key it stands at, and peers are referred to by
pointers; using an iterator that has been erased or a peer that has been deleted
is an error.  What the sockets answer is an infinite sequence.
-/

namespace SendPass

open Machine

/-- What a `send` of `size` bytes may return. -/
inductive Answer (size : Nat) where
  | sent (count : Nat) (pos : 1 ≤ count) (le : count ≤ size)
  | closed
  | again
  | error

/-- The answer without the evidence. -/
inductive Reply where
  | sent (count : Nat)
  | closed
  | again
  | error
  deriving DecidableEq

def Answer.reply {size : Nat} : Answer size → Reply
  | .sent count _ _ => .sent count
  | .closed => .closed
  | .again => .again
  | .error => .error

/-- The answers in the order of the sends, for whatever size each is asked. -/
abbrev Answers := Nat → (size : Nat) → Answer size

inductive Event where
  | turn (key : Int)
  | send (key : Int) (reply : Reply)
  | disconnected (key : Int)
  deriving DecidableEq

/-- Where the pass is: at the head of the loop, sending to a peer, or done with it. -/
inductive Place where
  | visit (it : Option Int)
  | sending (it : Int) (p : Nat)
  | after (it : Int) (p : Nat)

/-- The table of pointers, the peers that they point to, and what has happened so far. -/
structure State (π : Type) where
  table : List (Int × Nat)
  peers : List (Option π)
  aborted : Bool
  answered : Nat
  log : List Event
  place : Place

/-- How a peer is asked for data, and told how much has gone out. -/
structure Peer (π : Type) where
  offer : π → Nat × π
  sent : π → Nat → π

variable {π : Type}

namespace State

/-- What the pointer points to. -/
def deref (state : State π) (p : Nat) : Option π :=
  state.peers[p]?.join

def setPeer (state : State π) (p : Nat) (item : π) : State π :=
  { state with peers := state.peers.set p (some item) }

/-- `delete`, of what has not been deleted. -/
def delete (state : State π) (p : Nat) : Option (State π) :=
  (state.deref p).map fun _ => { state with peers := state.peers.set p none }

/-- `it->second` -/
def second (state : State π) (it : Int) : Option Nat :=
  state.table.lookup it

/-- `erase(it)` -/
def erase (state : State π) (it : Int) : State π :=
  { state with table := state.table.filter (·.1 ≠ it) }

/-- `it++`: the key after this one, or the end. -/
def increment (it : Int) : List (Int × Nat) → Option (Option Int)
  | [] => none
  | entry :: table =>
      if entry.1 = it then some (table.head?.map Prod.fst) else increment it table

def record (state : State π) (event : Event) : State π :=
  { state with log := state.log ++ [event] }

end State

/-- What the code does when a send fails, when it returns 0, and when a peer is done with. -/
structure Handlers (π : Type) where
  onError : State π → Int → Nat → Option (State π)
  onClosed : State π → Int → Nat → Option (State π)
  afterwards : State π → Int → Nat → Option (State π)

/-- One turn of the pass. -/
def body (peer : Peer π) (handlers : Handlers π) (answers : Answers) (state : State π) :
    Option (Turn (State π) (State π)) :=
  match state.place with
  | .visit none => some (.stop state)
  | .visit (some it) =>
      (state.second it).map fun p => .again { state.record (.turn it) with place := .sending it p }
  | .sending it p =>
      (state.deref p).bind fun item =>
        let size := (peer.offer item).1
        let offered := state.setPeer p (peer.offer item).2
        if size = 0 then some (.again { offered with place := .after it p })
        else
          let answer := answers state.answered size
          let answered :=
            { offered.record (.send it answer.reply) with answered := state.answered + 1 }
          match answer with
          | .sent count _ _ =>
              some (.again (answered.setPeer p (peer.sent (peer.offer item).2 count)))
          | .closed => (handlers.onClosed answered it p).map .again
          | .again => some (.again answered)
          | .error => (handlers.onError answered it p).map .again
  | .after it p => (handlers.afterwards state it p).map .again

/-- The pass begins with the first entry; peers are numbered in the order of the table. -/
def start (entries : List (Int × π)) : State π where
  table := (entries.map Prod.fst).zipIdx
  peers := entries.map fun entry => some entry.2
  aborted := false
  answered := 0
  log := []
  place := .visit (entries.head?.map Prod.fst)

/-- What has been erased is not in the table. -/
theorem second_erase (state : State π) (it : Int) : (state.erase it).second it = none := by
  refine List.lookup_eq_none_iff.mpr fun entry hentry => ?_
  have hne := (List.mem_filter.mp hentry).2
  simp only [decide_eq_true_eq] at hne
  exact bne_iff_ne.mpr (Ne.symm hne)

/-- There is nothing after an iterator that has been erased. -/
theorem increment_erased {it : Int} {table : List (Int × Nat)}
    (hnone : ∀ entry ∈ table, entry.1 ≠ it) : State.increment it table = none := by
  induction table with
  | nil => rfl
  | cons entry table ih =>
      obtain ⟨hentry, hrest⟩ := List.forall_mem_cons.mp hnone
      rw [State.increment, if_neg hentry]
      exact ih hrest

theorem increment_erase (state : State π) (it : Int) :
    State.increment it (state.erase it).table = none := by
  refine increment_erased fun entry hentry => ?_
  simpa using (List.mem_filter.mp hentry).2

/-! ## What is recorded -/

def Event.turn? : Event → Option Int
  | .turn key => some key
  | _ => none

def Event.departure? : Event → Option Int
  | .disconnected key => some key
  | _ => none

/-- The keys whose turn has come, in order. -/
def turns (log : List Event) : List Int :=
  log.filterMap Event.turn?

/-- The keys of the peers that were told that they are disconnected. -/
def departures (log : List Event) : List Int :=
  log.filterMap Event.departure?

@[simp] theorem turns_append (log more : List Event) :
    turns (log ++ more) = turns log ++ turns more :=
  List.filterMap_append

@[simp] theorem departures_append (log more : List Event) :
    departures (log ++ more) = departures log ++ departures more :=
  List.filterMap_append

/--
No peer is sent to after it has answered that it cannot take more; nothing is
sent after another error; and without one every peer has its turn.
-/
structure WellSent (keys : List Int) (log : List Event) : Prop where
  again : ∀ before key after, log = before ++ .send key .again :: after →
    ∀ reply, .send key reply ∉ after
  error : ∀ before key after, log = before ++ .send key .error :: after →
    ∀ other reply, .send other reply ∉ after
  turns_eq : (∀ key, .send key .error ∉ log) → turns log = keys

/-- The peer has failed, or a send to it has returned 0. -/
def Removed (mark : π → Bool) (log : List Event) (entry : Int × π) : Prop :=
  mark entry.2 = true ∨ .send entry.1 .closed ∈ log

/--
Exactly the removed peers are gone from the table, each has been told once, and
every other one has had its turn once.
-/
structure WellRemoved (mark : π → Bool) (entries : List (Int × π)) (result : State π) :
    Prop where
  table_eq : ∀ key, key ∈ result.table.map Prod.fst ↔
    ∃ entry ∈ entries, entry.1 = key ∧ ¬ Removed mark result.log entry
  told : ∀ entry ∈ entries, Removed mark result.log entry →
    (departures result.log).count entry.1 = 1
  visited : ∀ entry ∈ entries, ¬ Removed mark result.log entry →
    (departures result.log).count entry.1 = 0 ∧ (turns result.log).count entry.1 = 1

/-! ## Laws -/

/-- Offering is repeatable, and what has gone out is no longer pending. -/
structure Peer.Lawful (peer : Peer π) (sound : π → Prop) (pending : π → Nat) (mark : π → Bool) :
    Prop where
  offer_sound : ∀ item, sound item → sound (peer.offer item).2
  offer_pending : ∀ item, sound item → pending (peer.offer item).2 = pending item
  offer_offer : ∀ item, peer.offer (peer.offer item).2 = peer.offer item
  offer_mark : ∀ item, mark (peer.offer item).2 = mark item
  sent_sound : ∀ item count, sound item → 1 ≤ count → count ≤ (peer.offer item).1 →
    sound (peer.sent (peer.offer item).2 count)
  sent_pending : ∀ item count, sound item → 1 ≤ count → count ≤ (peer.offer item).1 →
    pending (peer.sent (peer.offer item).2 count) < pending item
  sent_mark : ∀ item count, mark (peer.sent item count) = mark item

/-- A peer that offers and gives away what a sender does. -/
theorem Peer.lawful_of_drains {peer : Peer π} {ι α : Type} {sender : Transmission.Sender π ι α}
    {sound : π → Prop} {front pending : π → List α} {mark : π → Bool}
    (hdrains : Transmission.Drains sender sound front pending)
    (hoffer : ∀ item, sound item → (peer.offer item).1 = (sender.offer item).1.length)
    (hnext : ∀ item, (peer.offer item).2 = (sender.offer item).2) (hsent : peer.sent = sender.sent)
    (hrepeat : ∀ item, peer.offer (peer.offer item).2 = peer.offer item)
    (hoffer_mark : ∀ item, mark (peer.offer item).2 = mark item)
    (hsent_mark : ∀ item count, mark (peer.sent item count) = mark item) :
    peer.Lawful sound (fun item => (pending item).length) mark := by
  have hfront : ∀ item, sound item → (peer.offer item).1 = (front (peer.offer item).2).length := by
    intro item hsound
    rw [hoffer item hsound, (hdrains.offer item hsound).2.1, hnext]
  have hnext_sound : ∀ item, sound item → sound (peer.offer item).2 := by
    intro item hsound
    rw [hnext]
    exact (hdrains.offer item hsound).1
  have hkept : ∀ item, sound item → pending (peer.offer item).2 = pending item := by
    intro item hsound
    rw [hnext]
    exact (hdrains.offer item hsound).2.2
  constructor
  · exact hnext_sound
  · exact fun item hsound => congrArg List.length (hkept item hsound)
  · exact hrepeat
  · exact hoffer_mark
  · intro item count hsound hpos hle
    rw [hfront item hsound] at hle
    rw [hsent]
    exact (hdrains.sent _ count (hnext_sound item hsound) hpos hle).1
  · intro item count hsound hpos hle
    rw [hfront item hsound] at hle
    have hbegins := (hdrains.front_begins _ (hnext_sound item hsound)).length_le
    have hdropped := (hdrains.sent _ count (hnext_sound item hsound) hpos hle).2.2
    rw [hsent, hdropped, hkept item hsound, List.length_drop]
    rw [hkept item hsound] at hbegins
    omega
  · exact hsent_mark

/-- A removal is an error, and a peer that has not failed is left for the next one. -/
structure Handlers.Lawful (handlers : Handlers π) (mark : π → Bool) : Prop where
  onClosed : ∀ state it p, handlers.onClosed state it p = none
  afterwards_marked : ∀ state it p item, state.deref p = some item → mark item = true →
    handlers.afterwards state it p = none
  afterwards : ∀ state it p item, state.deref p = some item → mark item = false →
    handlers.afterwards state it p =
      (State.increment it state.table).map fun next => { state with place := .visit next }
  afterwards_log : ∀ state it p next, handlers.afterwards state it p = some next →
    next.log = state.log
  onError_log : ∀ state it p next, handlers.onError state it p = some next → next.log = state.log

/-! ## The turns of a pass that removes nothing -/

/-- The place of the pass within the turn of a peer. -/
inductive Stage where
  | visit
  | sending
  | after
  deriving DecidableEq

def placeAt (keys : List Int) (i : Nat) : Stage → Place
  | .visit => .visit keys[i]?
  | .sending => .sending (keys.getD i 0) i
  | .after => .after (keys.getD i 0) i

/--
The pass is at the entry number `i`: nothing has been removed, every peer is as
sound as it was, and those before have not failed.
-/
structure At (sound : π → Prop) (mark : π → Bool) (entries : List (Int × π)) (i : Nat)
    (stage : Stage) (state : State π) : Prop where
  table_eq : state.table = (entries.map Prod.fst).zipIdx
  peers : ∀ (j : Nat) (entry : Int × π), entries[j]? = some entry →
    ∃ item, state.peers[j]? = some (some item) ∧ sound item ∧ mark item = mark entry.2
  length_eq : state.peers.length = entries.length
  place_eq : state.place = placeAt (entries.map Prod.fst) i stage
  index_le : i ≤ entries.length
  index_lt : stage ≠ .visit → i < entries.length
  turns_eq : turns state.log = (entries.map Prod.fst).take (if stage = .visit then i else i + 1)
  unmarked : ∀ entry ∈ entries.take i, mark entry.2 = false
  quiet : departures state.log = []
  open_log : ∀ key, .send key .closed ∉ state.log

theorem at_start {sound : π → Prop} {mark : π → Bool} {entries : List (Int × π)}
    (hsound : ∀ entry ∈ entries, sound entry.2) :
    At sound mark entries 0 .visit (start entries) where
  table_eq := rfl
  peers j entry hentry := ⟨entry.2, by simp [start, hentry],
    hsound entry (List.mem_of_getElem? hentry), rfl⟩
  length_eq := List.length_map _
  place_eq := by simp [start, placeAt, List.head?_eq_getElem?]
  index_le := Nat.zero_le _
  index_lt hvisit := absurd rfl hvisit
  turns_eq := rfl
  unmarked := List.forall_mem_nil _
  quiet := rfl
  open_log _ hmem := by cases hmem

/-- The number under which a key stands in the table. -/
theorem lookup_zipIdx {keys : List Int} (hnodup : keys.Nodup) {i : Nat} {key : Int}
    (hkey : keys[i]? = some key) (offset : Nat) :
    (keys.zipIdx offset).lookup key = some (offset + i) := by
  induction keys generalizing i offset with
  | nil => cases hkey
  | cons first keys ih =>
      obtain ⟨hfirst, hrest⟩ := List.nodup_cons.mp hnodup
      cases i with
      | zero =>
          obtain rfl := Option.some.inj hkey
          simp [List.zipIdx_cons]
      | succ i =>
          have hne : (key == first) = false := by
            rw [beq_eq_false_iff_ne]
            rintro rfl
            exact hfirst (List.mem_of_getElem? hkey)
          rw [List.zipIdx_cons, List.lookup_cons, hne]
          rw [ih hrest hkey (offset + 1), Nat.add_assoc, Nat.add_comm 1]

/-- The iterator after the one at a key of the table. -/
theorem increment_zipIdx {keys : List Int} (hnodup : keys.Nodup) {i : Nat} {key : Int}
    (hkey : keys[i]? = some key) (offset : Nat) :
    State.increment key (keys.zipIdx offset) = some keys[i + 1]? := by
  induction keys generalizing i offset with
  | nil => cases hkey
  | cons first keys ih =>
      obtain ⟨hfirst, hrest⟩ := List.nodup_cons.mp hnodup
      rw [List.zipIdx_cons, State.increment]
      cases i with
      | zero =>
          obtain rfl := Option.some.inj hkey
          rw [if_pos rfl]
          cases keys <;> rfl
      | succ i =>
          have hne : first ≠ key := by
            rintro rfl
            exact hfirst (List.mem_of_getElem? hkey)
          rw [if_neg hne]
          exact ih hrest hkey (offset + 1)

section Turns

variable {peer : Peer π} {handlers : Handlers π} {answers : Answers} {sound : π → Prop}
  {pending : π → Nat} {mark : π → Bool} {entries : List (Int × π)} {i : Nat} {state : State π}

theorem getElem?_key (hlt : i < entries.length) :
    (entries.map Prod.fst)[i]? = some ((entries.map Prod.fst).getD i 0) := by
  have hlt' : i < (entries.map Prod.fst).length := by rwa [List.length_map]
  rw [List.getD_eq_getElem?_getD, List.getElem?_eq_getElem hlt']
  rfl

/-- The peer whose turn it is. -/
theorem At.item {stage : Stage} (hat : At sound mark entries i stage state)
    (hlt : i < entries.length) :
    ∃ item, state.deref i = some item ∧ sound item ∧ mark item = mark entries[i].2 := by
  obtain ⟨item, hpeer, hsound, hmark⟩ := hat.peers i _ (List.getElem?_eq_getElem hlt)
  exact ⟨item, by rw [State.deref, hpeer]; rfl, hsound, hmark⟩

/-- After the last entry the pass is over. -/
theorem At.visit_end (hat : At sound mark entries entries.length .visit state) :
    body peer handlers answers state = some (.stop state) := by
  have hnone : (entries.map Prod.fst)[entries.length]? = none :=
    List.getElem?_eq_none (Nat.le_of_eq (List.length_map _))
  rw [body, hat.place_eq, placeAt, hnone]

/-- The turn of the next peer begins. -/
theorem At.visit (hnodup : (entries.map Prod.fst).Nodup) (hat : At sound mark entries i .visit state)
    (hlt : i < entries.length) :
    ∃ next, body peer handlers answers state = some (.again next) ∧
      At sound mark entries i .sending next ∧ next.peers = state.peers ∧
      ∃ key, next.log = state.log ++ [.turn key] := by
  have hkey := getElem?_key hlt
  have hplace : state.place = .visit (some ((entries.map Prod.fst).getD i 0)) := by
    rw [hat.place_eq, placeAt, hkey]
  have hsecond : state.second ((entries.map Prod.fst).getD i 0) = some i := by
    rw [State.second, hat.table_eq, lookup_zipIdx hnodup hkey, Nat.zero_add]
  have hturns := hat.turns_eq
  rw [if_pos rfl] at hturns
  rw [body, hplace]
  simp only [hsecond, Option.map_some]
  refine ⟨_, rfl, ⟨hat.table_eq, hat.peers, hat.length_eq, rfl, hat.index_le, fun _ => hlt, ?_,
    hat.unmarked, ?_, ?_⟩, rfl, _, rfl⟩
  · rw [if_neg (by decide), List.take_add_one, hkey, ← hturns]
    exact turns_append _ _
  · exact (departures_append _ _).trans (by rw [hat.quiet]; rfl)
  · intro key hmem
    rcases List.mem_append.mp hmem with hold | hnew
    · exact hat.open_log key hold
    · exact Event.noConfusion (List.mem_singleton.mp hnew)

/-- The peer has been asked or told something, and the pass stays with it. -/
theorem At.stay {stage : Stage} {next : State π}
    (hat : At sound mark entries i .sending state) (item : π) (more : List Event)
    (hstage : stage ≠ .visit) (htable : next.table = state.table)
    (hpeers : next.peers = state.peers.set i (some item)) (hsound : sound item) (hmark : ∀ entry, entries[i]? = some entry → mark item = mark entry.2)
    (hplace : next.place = placeAt (entries.map Prod.fst) i stage)
    (hlog : next.log = state.log ++ more) (hturns : turns more = [])
    (hdepartures : departures more = []) (hopen : ∀ key, .send key .closed ∉ more) :
    At sound mark entries i stage next where
  table_eq := htable.trans hat.table_eq
  peers j entry hentry := by
    rw [hpeers]
    by_cases hj : i = j
    · subst hj
      have hlt : i < state.peers.length := by
        rw [hat.length_eq]
        exact hat.index_lt (by decide)
      exact ⟨item, by rw [List.getElem?_set_self hlt], hsound, hmark entry hentry⟩
    · rw [List.getElem?_set_ne hj]
      exact hat.peers j entry hentry
  length_eq := by rw [hpeers, List.length_set, hat.length_eq]
  place_eq := hplace
  index_le := hat.index_le
  index_lt _ := hat.index_lt (by decide)
  turns_eq := by
    rw [hlog, turns_append, hturns, List.append_nil, hat.turns_eq, if_neg hstage,
      if_neg (by decide)]
  unmarked := hat.unmarked
  quiet := by rw [hlog, departures_append, hdepartures, hat.quiet]; rfl
  open_log key hmem := by
    rw [hlog] at hmem
    rcases List.mem_append.mp hmem with hold | hnew
    · exact hat.open_log key hold
    · exact hopen key hnew

/-- The reply that the next turn gets, if it sends. -/
def State.asked (peer : Peer π) (answers : Answers) (state : State π) : Option Reply :=
  match state.place with
  | .sending _ p =>
      (state.deref p).bind fun item =>
        if (peer.offer item).1 = 0 then none
        else some (answers state.answered (peer.offer item).1).reply
  | _ => none

/-- The state in which an answer is dealt with. -/
def State.answer (state : State π) (peer : Peer π) (it : Int) (p : Nat) (item : π)
    (reply : Reply) : State π :=
  { (state.setPeer p (peer.offer item).2).record (.send it reply) with
    answered := state.answered + 1 }

/-- A send is made to the peer at hand, for what that has on offer. -/
theorem exists_of_asked {reply : Reply} (hasked : state.asked peer answers = some reply) :
    ∃ it p item, state.place = .sending it p ∧ state.deref p = some item ∧
      (peer.offer item).1 ≠ 0 ∧ (answers state.answered (peer.offer item).1).reply = reply := by
  rw [State.asked] at hasked
  cases hplace : state.place with
  | visit it => simp [hplace] at hasked
  | after it p => simp [hplace] at hasked
  | sending it p =>
      simp only [hplace] at hasked
      obtain ⟨item, hitem, hreply⟩ := Option.bind_eq_some_iff.mp hasked
      split at hreply
      · cases hreply
      · rename_i hsize
        exact ⟨it, p, item, rfl, hitem, hsize, Option.some.inj hreply⟩

theorem asked_of_place {it : Int} {p : Nat} {item : π} (hplace : state.place = .sending it p)
    (hitem : state.deref p = some item) (hsize : (peer.offer item).1 ≠ 0) :
    state.asked peer answers = some (answers state.answered (peer.offer item).1).reply := by
  rw [State.asked, hplace]
  simp only [hitem, Option.bind_some, if_neg hsize]

/-- What the turn does with the answer to its send. -/
theorem body_of_asked {it : Int} {p : Nat} {item : π} (hplace : state.place = .sending it p)
    (hitem : state.deref p = some item) (hsize : (peer.offer item).1 ≠ 0) :
    body peer handlers answers state =
      match (answers state.answered (peer.offer item).1).reply with
      | .sent count =>
          some (.again ((state.answer peer it p item (.sent count)).setPeer p
            (peer.sent (peer.offer item).2 count)))
      | .closed => (handlers.onClosed (state.answer peer it p item .closed) it p).map .again
      | .again => some (.again (state.answer peer it p item .again))
      | .error => (handlers.onError (state.answer peer it p item .error) it p).map .again := by
  rw [body, hplace]
  simp only [hitem, Option.bind_some, if_neg hsize]
  cases answers state.answered (peer.offer item).1 <;> rfl

/-- Everything that is pending. -/
def total (pending : π → Nat) (peers : List (Option π)) : Nat :=
  (peers.map fun found => (found.map pending).getD 0).sum

theorem total_set {peers : List (Option π)} {i : Nat} {item : π} (next : π)
    (hitem : peers[i]? = some (some item)) :
    total pending (peers.set i (some next)) + pending item = total pending peers + pending next := by
  induction peers generalizing i with
  | nil => cases hitem
  | cons first peers ih =>
      cases i with
      | zero =>
          obtain rfl := Option.some.inj hitem
          simp only [total, List.set_cons_zero, List.map_cons, List.sum_cons, Option.map_some,
            Option.getD_some]
          omega
      | succ i =>
          have hrest := ih hitem
          simp only [total, List.set_cons_succ, List.map_cons, List.sum_cons] at hrest ⊢
          omega

theorem getElem?_of_deref {item : π} (hitem : state.deref i = some item) :
    state.peers[i]? = some (some item) :=
  Option.join_eq_some_iff.mp hitem

/-- The peer at hand is the one of its entry. -/
theorem At.sending_item (hat : At sound mark entries i .sending state) {item : π}
    (hitem : state.deref i = some item) :
    sound item ∧ ∀ entry, entries[i]? = some entry → mark item = mark entry.2 := by
  obtain ⟨item', hitem', hsound, hmark⟩ := hat.item (hat.index_lt (by decide))
  obtain rfl := Option.some.inj (hitem.symm.trans hitem')
  refine ⟨hsound, fun entry hentry => ?_⟩
  rw [hmark, (List.getElem?_eq_some_iff.mp hentry).2]

/-- The peer at hand has nothing on offer. -/
theorem At.nothing (hlawful : peer.Lawful sound pending mark)
    (hat : At sound mark entries i .sending state) {item : π} (hitem : state.deref i = some item)
    (hsize : (peer.offer item).1 = 0) :
    ∃ next, body peer handlers answers state = some (.again next) ∧
      At sound mark entries i .after next ∧ next.log = state.log ∧
      total pending next.peers = total pending state.peers := by
  obtain ⟨hsound, hmark⟩ := hat.sending_item hitem
  have hentry : ∀ entry, entries[i]? = some entry → mark (peer.offer item).2 = mark entry.2 :=
    fun entry hentry => (hlawful.offer_mark item).trans (hmark entry hentry)
  rw [body, hat.place_eq, placeAt]
  simp only [hitem, Option.bind_some, if_pos hsize]
  refine ⟨_, rfl, hat.stay (peer.offer item).2 [] (by decide) rfl rfl
    (hlawful.offer_sound item hsound) hentry rfl (List.append_nil _).symm rfl rfl
    (fun _ hmem => by cases hmem), rfl, ?_⟩
  have htotal := @total_set _ pending _ i item (peer.offer item).2 (getElem?_of_deref hitem)
  have hpending := hlawful.offer_pending item hsound
  simp only [State.setPeer]
  omega

/-- A failed send leaves the peer at hand with what it offered. -/
theorem At.failing (hlawful : peer.Lawful sound pending mark)
    (hat : At sound mark entries i .sending state) {item : π} (hitem : state.deref i = some item)
    {reply : Reply} (hreply : reply ≠ .closed) (key : Int) :
    At sound mark entries i .sending (state.answer peer key i item reply) ∧
      (state.answer peer key i item reply).deref i = some (peer.offer item).2 ∧
      total pending (state.answer peer key i item reply).peers = total pending state.peers := by
  obtain ⟨hsound, hmark⟩ := hat.sending_item hitem
  have hentry : ∀ entry, entries[i]? = some entry → mark (peer.offer item).2 = mark entry.2 :=
    fun entry hentry => (hlawful.offer_mark item).trans (hmark entry hentry)
  have hpeer := getElem?_of_deref hitem
  refine ⟨hat.stay (peer.offer item).2 [.send key reply] (by decide) rfl rfl
    (hlawful.offer_sound item hsound) hentry hat.place_eq rfl rfl rfl ?_, ?_, ?_⟩
  · intro other hmem
    exact hreply (Event.send.inj (List.mem_singleton.mp hmem)).2.symm
  · have hlt := (List.getElem?_eq_some_iff.mp hpeer).1
    simp only [State.answer, State.setPeer, State.record, State.deref]
    rw [List.getElem?_set_self hlt]
    rfl
  · have htotal := @total_set _ pending _ i item (peer.offer item).2 hpeer
    have hpending := hlawful.offer_pending item hsound
    simp only [State.answer, State.setPeer, State.record]
    omega

/-- A successful send leaves less pending. -/
theorem At.sent (hlawful : peer.Lawful sound pending mark)
    (hat : At sound mark entries i .sending state) {item : π} (hitem : state.deref i = some item)
    {count : Nat} (hpos : 1 ≤ count) (hle : count ≤ (peer.offer item).1) (key : Int) :
    At sound mark entries i .sending ((state.answer peer key i item (.sent count)).setPeer i
        (peer.sent (peer.offer item).2 count)) ∧
      total pending ((state.answer peer key i item (.sent count)).setPeer i
        (peer.sent (peer.offer item).2 count)).peers < total pending state.peers := by
  obtain ⟨hsound, hmark⟩ := hat.sending_item hitem
  have hentry : ∀ entry, entries[i]? = some entry →
      mark (peer.sent (peer.offer item).2 count) = mark entry.2 := by
    intro entry hentry
    rw [hlawful.sent_mark, hlawful.offer_mark, hmark entry hentry]
  have hpeers : ((state.answer peer key i item (.sent count)).setPeer i
      (peer.sent (peer.offer item).2 count)).peers =
      state.peers.set i (some (peer.sent (peer.offer item).2 count)) := List.set_set ..
  refine ⟨hat.stay _ [.send key (.sent count)] (by decide) rfl hpeers
    (hlawful.sent_sound item count hsound hpos hle) hentry hat.place_eq rfl rfl rfl ?_, ?_⟩
  · intro other hmem
    exact Reply.noConfusion (Event.send.inj (List.mem_singleton.mp hmem)).2
  · have htotal := @total_set _ pending _ i item (peer.sent (peer.offer item).2 count)
      (getElem?_of_deref hitem)
    have hpending := hlawful.sent_pending item count hsound hpos hle
    rw [hpeers]
    omega

/-- A peer that has not failed is left. -/
theorem At.next (hnodup : (entries.map Prod.fst).Nodup) (hhandlers : handlers.Lawful mark)
    (hat : At sound mark entries i .after state)
    (hunmarked : ∀ entry, entries[i]? = some entry → mark entry.2 = false) :
    ∃ next, body peer handlers answers state = some (.again next) ∧
      At sound mark entries (i + 1) .visit next ∧ next.log = state.log ∧
      next.peers = state.peers := by
  have hlt := hat.index_lt (by decide)
  obtain ⟨item, hitem, -, hmark⟩ := hat.item hlt
  have hnext : mark item = false := hmark.trans (hunmarked _ (List.getElem?_eq_getElem hlt))
  rw [body, hat.place_eq, placeAt]
  simp only [hhandlers.afterwards _ _ _ _ hitem hnext, hat.table_eq,
    increment_zipIdx hnodup (getElem?_key hlt), Option.map_some]
  refine ⟨_, rfl, ⟨rfl, hat.peers, hat.length_eq, rfl, hlt, fun hvisit => absurd rfl hvisit, ?_, ?_,
    hat.quiet, hat.open_log⟩, rfl, rfl⟩
  · exact hat.turns_eq
  · intro entry hentry
    rw [List.take_add_one, List.mem_append] at hentry
    rcases hentry with hold | hnew
    · exact hat.unmarked entry hold
    · exact hunmarked entry (Option.mem_toList.mp hnew)

/-- A peer that has failed is an error. -/
theorem At.marked (hhandlers : handlers.Lawful mark) (hat : At sound mark entries i .after state)
    {entry : Int × π} (hentry : entries[i]? = some entry) (hmarked : mark entry.2 = true) :
    body peer handlers answers state = none := by
  have hlt := hat.index_lt (by decide)
  obtain ⟨item, hitem, -, hmark⟩ := hat.item hlt
  have hfailed : mark item = true := by
    rw [hmark, (List.getElem?_eq_some_iff.mp hentry).2, hmarked]
  rw [body, hat.place_eq, placeAt]
  simp only [hhandlers.afterwards_marked _ _ _ _ hitem hfailed, Option.map_none]

end Turns

end SendPass
