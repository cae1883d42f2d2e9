import DumaisLib.Lib.SendPass
import Mathlib.Data.List.Nodup

/-!
# When a pass does what it should

A pass that removes nothing goes through the table in order, and a send that
fails is made again.  So the passes that treat every peer as they should are
those in which no peer has to be removed and no send fails for ever.
-/

namespace SendPass

open Machine

variable {π : Type}

/-! ## Passes that end -/

def Reply.Failed (reply : Reply) : Prop :=
  reply = .again ∨ reply = .error

instance (reply : Reply) : Decidable reply.Failed :=
  inferInstanceAs (Decidable (_ ∨ _))

/-- An error stops the server, and the pass goes on. -/
abbrev Handlers.OnlyAborts (handlers : Handlers π) : Prop :=
  ∀ other it p, handlers.onError other it p = some { other with aborted := true }

/-- Some later send of the same size is answered otherwise. -/
def Patient (peer : Peer π) (answers : Answers) (state : State π) : Prop :=
  ∀ it p item, state.place = .sending it p → state.deref p = some item → (peer.offer item).1 ≠ 0 →
    ∃ later, state.answered ≤ later ∧ ¬ (answers later (peer.offer item).1).reply.Failed

def Stage.cost : Stage → Nat
  | .visit => 0
  | .sending => 1
  | .after => 2

/-- What a turn decreases, unless its send fails. -/
def weight (pending : π → Nat) (count i : Nat) (stage : Stage) (state : State π) : Nat :=
  3 * (count - i) - stage.cost + total pending state.peers

section Runs

variable {peer : Peer π} {handlers : Handlers π} {answers : Answers} {sound : π → Prop}
  {pending : π → Nat} {mark : π → Bool} {entries : List (Int × π)} {i : Nat} {stage : Stage}
  {state : State π}

/-- Every reply in the log of `result` is one in the log of `state`, or one of a later send. -/
def Accounted (turn : State π → Option (Turn (State π) (State π))) (peer : Peer π)
    (answers : Answers) (state result : State π) : Prop :=
  ∀ key reply, .send key reply ∈ result.log → .send key reply ∈ state.log ∨
    ∃ asking, Visited turn state asking ∧ asking.asked peer answers = some reply

/-- The pass comes to the end of the table. -/
def Ends (sound : π → Prop) (mark : π → Bool) (entries : List (Int × π))
    (turn : State π → Option (Turn (State π) (State π))) (peer : Peer π) (answers : Answers)
    (state : State π) : Prop :=
  ∃ fuel result, loop turn fuel state = .finished result ∧
    At sound mark entries entries.length .visit result ∧ Accounted turn peer answers state result

/-- A turn before one from which the pass ends. -/
theorem Ends.before {turn : State π → Option (Turn (State π) (State π))} {next : State π}
    {more : List Event} (hends : Ends sound mark entries turn peer answers next)
    (hturn : turn state = some (.again next)) (hlog : next.log = state.log ++ more)
    (hmore : ∀ key reply, .send key reply ∈ more → state.asked peer answers = some reply) :
    Ends sound mark entries turn peer answers state := by
  obtain ⟨fuel, result, hloop, hat, haccounted⟩ := hends
  refine ⟨fuel + 1, result, by rw [loop, hturn]; exact hloop, hat, fun key reply hsend => ?_⟩
  rcases haccounted key reply hsend with hold | ⟨asking, hvisited, hasked⟩
  · rw [hlog] at hold
    rcases List.mem_append.mp hold with hbefore | hnew
    · exact Or.inl hbefore
    · exact Or.inr ⟨state, .start, hmore key reply hnew⟩
  · exact Or.inr ⟨asking, (Visited.again .start hturn).trans hvisited, hasked⟩

/-- Stopping the server leaves the pass in order. -/
theorem At.aborted (hat : At sound mark entries i stage state) :
    At sound mark entries i stage { state with aborted := true } where
  table_eq := hat.table_eq
  peers := hat.peers
  length_eq := hat.length_eq
  place_eq := hat.place_eq
  index_le := hat.index_le
  index_lt := hat.index_lt
  turns_eq := hat.turns_eq
  unmarked := hat.unmarked
  quiet := hat.quiet
  open_log := hat.open_log

/-- The peer that is sent to is the one whose turn it is. -/
theorem At.sending_eq (hat : At sound mark entries i stage state) {it : Int} {p : Nat}
    (hplace : state.place = .sending it p) : stage = .sending ∧ p = i := by
  have heq := hplace.symm.trans hat.place_eq
  cases stage with
  | visit => cases heq
  | sending => exact ⟨rfl, (Place.sending.inj heq).2⟩
  | after => cases heq

/-- At the end of the table every peer has had its turn. -/
theorem At.turns_end (hat : At sound mark entries entries.length .visit state) :
    turns state.log = entries.map Prod.fst := by
  rw [hat.turns_eq, if_pos rfl, List.take_of_length_le (Nat.le_of_eq (List.length_map _))]

/-- A send that returns 0 makes the pass fail. -/
theorem body_of_closed (hhandlers : handlers.Lawful mark)
    (hasked : state.asked peer answers = some .closed) : body peer handlers answers state = none := by
  obtain ⟨it, p, item, hplace, hitem, hsize, hreply⟩ := exists_of_asked hasked
  rw [body_of_asked hplace hitem hsize, hreply]
  exact congrArg (Option.map Turn.again) (hhandlers.onClosed _ it p)

/-- One turn of a pass that removes nothing: it is the last one, it decreases the weight, or
its send fails and leaves everything as it is. -/
theorem At.turn_cases (hnodup : (entries.map Prod.fst).Nodup)
    (hlawful : peer.Lawful sound pending mark) (hhandlers : handlers.Lawful mark)
    (hat : At sound mark entries i stage state)
    (hunmarked : stage = .after → ∀ entry, entries[i]? = some entry → mark entry.2 = false)
    (hclosed : state.asked peer answers ≠ some .closed)
    (hstays : state.asked peer answers = some .error → handlers.OnlyAborts) :
    (body peer handlers answers state = some (.stop state) ∧ i = entries.length ∧ stage = .visit) ∨
      (∃ next i' stage' more, body peer handlers answers state = some (.again next) ∧
        At sound mark entries i' stage' next ∧ next.log = state.log ++ more ∧
        (∀ key reply, .send key reply ∈ more → state.asked peer answers = some reply) ∧
        weight pending entries.length i' stage' next < weight pending entries.length i stage state) ∨
      ∃ next key item reply, body peer handlers answers state = some (.again next) ∧
        At sound mark entries i .sending next ∧ next.log = state.log ++ [.send key reply] ∧
        state.asked peer answers = some reply ∧ reply.Failed ∧ stage = .sending ∧
        state.deref i = some item ∧ (peer.offer item).1 ≠ 0 ∧
        (answers state.answered (peer.offer item).1).reply = reply ∧
        next.deref i = some (peer.offer item).2 ∧ next.answered = state.answered + 1 ∧
        total pending next.peers = total pending state.peers := by
  cases stage with
  | visit =>
      rcases Nat.lt_or_eq_of_le hat.index_le with hlt | rfl
      · obtain ⟨next, hbody, hnext, hpeers, key, hlog⟩ :=
          @At.visit _ peer handlers answers _ _ _ _ _ hnodup hat hlt
        refine Or.inr (Or.inl ⟨next, i, .sending, _, hbody, hnext, hlog, fun _ _ hmem =>
          Event.noConfusion (List.mem_singleton.mp hmem), ?_⟩)
        simp only [weight, hpeers, Stage.cost]
        omega
      · exact Or.inl ⟨hat.visit_end, rfl, rfl⟩
  | after =>
      obtain ⟨next, hbody, hnext, hlog, hpeers⟩ := hat.next hnodup hhandlers (hunmarked rfl)
      have hlt := hat.index_lt (by decide)
      refine Or.inr (Or.inl ⟨next, i + 1, .visit, [], hbody, hnext, by rw [hlog, List.append_nil],
        fun _ _ hmem => (by cases hmem), ?_⟩)
      simp only [weight, hpeers, Stage.cost]
      omega
  | sending =>
      have hlt := hat.index_lt (by decide)
      obtain ⟨item, hitem, -, -⟩ := hat.item hlt
      by_cases hsize : (peer.offer item).1 = 0
      · obtain ⟨next, hbody, hnext, hlog, htotal⟩ := hat.nothing hlawful hitem hsize
        refine Or.inr (Or.inl ⟨next, i, .after, [], hbody, hnext, by rw [hlog, List.append_nil],
          fun _ _ hmem => (by cases hmem), ?_⟩)
        simp only [weight, htotal, Stage.cost]
        omega
      · have hplace := hat.place_eq
        have hbody := @body_of_asked _ peer handlers answers _ _ _ _ hplace hitem hsize
        have hasked := @asked_of_place _ peer answers _ _ _ _ hplace hitem hsize
        have hfailing (reply : Reply) (hopen : reply ≠ .closed) :=
          hat.failing hlawful hitem hopen ((entries.map Prod.fst).getD i 0)
        cases hanswer : answers state.answered (peer.offer item).1 with
        | sent count hpos hle =>
            rw [hanswer] at hbody hasked
            obtain ⟨hnext, htotal⟩ := hat.sent hlawful hitem hpos hle
              ((entries.map Prod.fst).getD i 0)
            refine Or.inr (Or.inl ⟨_, i, .sending, [.send _ (.sent count)], hbody, hnext, rfl, ?_,
              ?_⟩)
            · intro key reply hmem
              rw [(Event.send.inj (List.mem_singleton.mp hmem)).2]
              exact hasked
            · simp only [weight]
              omega
        | closed =>
            rw [hanswer] at hasked
            exact absurd hasked hclosed
        | again =>
            rw [hanswer] at hbody hasked
            obtain ⟨hnext, hderef, htotal⟩ := hfailing .again (by decide)
            exact Or.inr (Or.inr ⟨_, _, item, .again, hbody, hnext, rfl, hasked, Or.inl rfl, rfl,
              hitem, hsize, by rw [hanswer]; rfl, hderef, rfl, htotal⟩)
        | error =>
            rw [hanswer] at hbody hasked
            obtain ⟨hnext, hderef, htotal⟩ := hfailing .error (by decide)
            dsimp only [Answer.reply] at hbody
            rw [hstays hasked] at hbody
            exact Or.inr (Or.inr ⟨_, _, item, .error, hbody, hnext.aborted, rfl, hasked,
              Or.inr rfl, rfl, hitem, hsize, by rw [hanswer]; rfl, hderef, rfl, htotal⟩)

/-- From here on no send returns 0, none fails for ever, and an error does not stop the pass. -/
structure Ending (peer : Peer π) (handlers : Handlers π) (answers : Answers) (state : State π) :
    Prop where
  open_asked : ∀ visited, Visited (body peer handlers answers) state visited →
    visited.asked peer answers ≠ some .closed
  stays : ∀ visited, Visited (body peer handlers answers) state visited →
    visited.asked peer answers = some .error → handlers.OnlyAborts
  patient : ∀ visited, Visited (body peer handlers answers) state visited →
    Patient peer answers visited

theorem Ending.next {next : State π} (hending : Ending peer handlers answers state)
    (hbody : body peer handlers answers state = some (.again next)) :
    Ending peer handlers answers next := by
  have hvisited : Visited (body peer handlers answers) state next := .again .start hbody
  exact ⟨fun later hlater => hending.open_asked later (hvisited.trans hlater),
    fun later hlater => hending.stays later (hvisited.trans hlater),
    fun later hlater => hending.patient later (hvisited.trans hlater)⟩

/-- Such a pass comes to the end of the table. -/
theorem At.ends (hnodup : (entries.map Prod.fst).Nodup)
    (hlawful : peer.Lawful sound pending mark) (hhandlers : handlers.Lawful mark)
    (hunmarked : ∀ entry ∈ entries, mark entry.2 = false)
    (hat : At sound mark entries i stage state) (hending : Ending peer handlers answers state) :
    Ends sound mark entries (body peer handlers answers) peer answers state := by
  induction hweight : weight pending entries.length i stage state using Nat.strongRecOn
    generalizing i stage state with
  | ind bound ih =>
      have hlocal : stage = .after → ∀ entry, entries[i]? = some entry → mark entry.2 = false :=
        fun _ entry hentry => hunmarked entry (List.mem_of_getElem? hentry)
      -- as long as the sends fail, the one that will not comes nearer
      have hdistance (distance : Nat) : ∀ asking : State π,
          At sound mark entries i stage asking → Ending peer handlers answers asking →
          weight pending entries.length i stage asking = bound →
          (∀ item, stage = .sending → asking.deref i = some item → (peer.offer item).1 ≠ 0 →
            ¬ (answers (asking.answered + distance) (peer.offer item).1).reply.Failed) →
          Ends sound mark entries (body peer handlers answers) peer answers asking := by
        induction distance with
        | zero =>
            intro asking hasking hending hbound hlater
            rcases hasking.turn_cases hnodup hlawful hhandlers hlocal
              (hending.open_asked _ .start) (hending.stays _ .start) with
              ⟨hstop, rfl, rfl⟩ | ⟨next, i', stage', more, hbody, hnext, hlog, hmore, hlt⟩ |
              ⟨next, key, item, reply, -, -, -, -, hfailed, hstage, hitem, hsize, hreply, -⟩
            · exact ⟨1, asking, by rw [loop, hstop], hasking, fun _ _ hmem => Or.inl hmem⟩
            · exact (ih _ (hbound ▸ hlt) hnext (hending.next hbody) rfl).before hbody hlog hmore
            · exact absurd (hreply ▸ hfailed) (hlater item hstage hitem hsize)
        | succ distance ihd =>
            intro asking hasking hending hbound hlater
            rcases hasking.turn_cases hnodup hlawful hhandlers hlocal
              (hending.open_asked _ .start) (hending.stays _ .start) with
              ⟨hstop, rfl, rfl⟩ | ⟨next, i', stage', more, hbody, hnext, hlog, hmore, hlt⟩ |
              ⟨next, key, item, reply, hbody, hnext, hlog, hasked, -, rfl, hitem, hsize, -, hderef,
                hanswered, htotal⟩
            · exact ⟨1, asking, by rw [loop, hstop], hasking, fun _ _ hmem => Or.inl hmem⟩
            · exact (ih _ (hbound ▸ hlt) hnext (hending.next hbody) rfl).before hbody hlog hmore
            · refine (ihd next hnext (hending.next hbody) ?_ ?_).before hbody hlog ?_
              · rw [weight, htotal, ← hbound, weight]
              · intro offered _ hoffered hsize'
                obtain rfl := Option.some.inj (hderef.symm.trans hoffered)
                rw [hlawful.offer_offer] at hsize' ⊢
                have hnear := hlater item rfl hitem hsize'
                rwa [hanswered, Nat.add_assoc, Nat.add_comm 1]
              · intro other reply' hmem
                rw [(Event.send.inj (List.mem_singleton.mp hmem)).2]
                exact hasked
      by_cases hsends : ∃ item, stage = .sending ∧ state.deref i = some item ∧ (peer.offer item).1 ≠ 0
      · obtain ⟨item, rfl, hitem, hsize⟩ := hsends
        obtain ⟨later, hle, hlater⟩ := hending.patient _ .start _ _ _ hat.place_eq hitem hsize
        refine hdistance (later - state.answered) state hat hending hweight ?_
        intro item' _ hitem' _
        obtain rfl := Option.some.inj (hitem.symm.trans hitem')
        rwa [Nat.add_sub_cancel' hle]
      · refine hdistance 0 state hat hending hweight fun item hstage hitem hsize => ?_
        exact absurd ⟨item, hstage, hitem, hsize⟩ hsends

/-! ## What a pass leaves in the log -/

/-- A send that is made is in the log of the next state. -/
theorem body_send_log {next : State π} {it : Int} {p : Nat} {item : π}
    (hhandlers : handlers.Lawful mark) (hplace : state.place = .sending it p)
    (hitem : state.deref p = some item) (hsize : (peer.offer item).1 ≠ 0)
    (hbody : body peer handlers answers state = some (.again next)) :
    ∃ reply, next.log = state.log ++ [.send it reply] := by
  rw [body_of_asked hplace hitem hsize] at hbody
  cases hreply : (answers state.answered (peer.offer item).1).reply with
  | sent count =>
      rw [hreply] at hbody
      obtain rfl := Turn.again.inj (Option.some.inj hbody)
      exact ⟨_, rfl⟩
  | closed =>
      rw [hreply] at hbody
      simp [hhandlers.onClosed] at hbody
  | again =>
      rw [hreply] at hbody
      obtain rfl := Turn.again.inj (Option.some.inj hbody)
      exact ⟨_, rfl⟩
  | error =>
      rw [hreply] at hbody
      obtain ⟨after, hafter, heq⟩ := Option.map_eq_some_iff.mp hbody
      obtain rfl := Turn.again.inj heq
      exact ⟨_, hhandlers.onError_log _ _ _ _ hafter⟩

/-- Nothing is taken out of the log. -/
theorem body_log {next : State π} (hhandlers : handlers.Lawful mark)
    (hbody : body peer handlers answers state = some (.again next)) : state.log <+: next.log := by
  cases hplace : state.place with
  | visit it =>
      rw [body, hplace] at hbody
      cases it with
      | none => cases hbody
      | some it =>
          obtain ⟨p, -, heq⟩ := Option.map_eq_some_iff.mp hbody
          obtain rfl := Turn.again.inj heq
          exact List.prefix_append _ _
  | after it p =>
      rw [body, hplace] at hbody
      obtain ⟨after, hafter, heq⟩ := Option.map_eq_some_iff.mp hbody
      obtain rfl := Turn.again.inj heq
      have hlog := hhandlers.afterwards_log _ _ _ _ hafter
      exact hlog ▸ List.prefix_rfl
  | sending it p =>
      cases hitem : state.deref p with
      | none => simp [body, hplace, hitem] at hbody
      | some item =>
          by_cases hsize : (peer.offer item).1 = 0
          · rw [body, hplace] at hbody
            simp only [hitem, Option.bind_some, if_pos hsize] at hbody
            obtain rfl := Turn.again.inj (Option.some.inj hbody)
            exact List.prefix_rfl
          · obtain ⟨reply, hlog⟩ := body_send_log hhandlers hplace hitem hsize hbody
            rw [hlog]
            exact List.prefix_append _ _

theorem visited_log {later : State π} (hhandlers : handlers.Lawful mark)
    (hvisited : Visited (body peer handlers answers) state later) : state.log <+: later.log := by
  induction hvisited with
  | start => exact List.prefix_rfl
  | again _ hbody ih => exact ih.trans (body_log hhandlers hbody)

/-- A pass stops at the end of the table only. -/
theorem body_stop {result : State π} (hstop : body peer handlers answers state = some (.stop result)) :
    state.place = .visit none ∧ state = result := by
  cases hplace : state.place with
  | visit it =>
      rw [body, hplace] at hstop
      cases it with
      | none => exact ⟨rfl, Turn.stop.inj (Option.some.inj hstop)⟩
      | some it =>
          obtain ⟨_, _, heq⟩ := Option.map_eq_some_iff.mp hstop
          cases heq
  | after it p =>
      rw [body, hplace] at hstop
      obtain ⟨_, _, heq⟩ := Option.map_eq_some_iff.mp hstop
      cases heq
  | sending it p =>
      cases hitem : state.deref p with
      | none => simp [body, hplace, hitem] at hstop
      | some item =>
          by_cases hsize : (peer.offer item).1 = 0
          · simp [body, hplace, hitem, hsize] at hstop
          · rw [body_of_asked hplace hitem hsize] at hstop
            cases hreply : (answers state.answered (peer.offer item).1).reply with
            | sent count => simp [hreply] at hstop
            | closed => simp [hreply] at hstop
            | again => simp [hreply] at hstop
            | error => simp [hreply] at hstop

/-- The result of a pass is the last state that it visits. -/
theorem result_visited {fuel : Nat} {result : State π}
    (hloop : loop (body peer handlers answers) fuel state = .finished result) :
    Visited (body peer handlers answers) state result ∧ result.place = .visit none := by
  obtain ⟨last, hvisited, hstop⟩ := loop_stops hloop
  obtain ⟨hplace, rfl⟩ := body_stop hstop
  exact ⟨hvisited, hplace⟩

/-! ## When a pass does what it should -/

/-- The states that a pass visits are in order, as long as errors do not stop it. -/
theorem visited_at {later : State π} (hnodup : (entries.map Prod.fst).Nodup)
    (hlawful : peer.Lawful sound pending mark) (hhandlers : handlers.Lawful mark)
    (hat : At sound mark entries i stage state)
    (hstays : ∀ i stage asking, At sound mark entries i stage asking →
      Visited (body peer handlers answers) state asking →
      asking.asked peer answers = some .error → handlers.OnlyAborts)
    (hvisited : Visited (body peer handlers answers) state later) :
    ∃ i stage, At sound mark entries i stage later := by
  induction hvisited with
  | start => exact ⟨i, stage, hat⟩
  | @again visited next hvisited hbody ih =>
      obtain ⟨i, stage, hat⟩ := ih
      have hclosed : visited.asked peer answers ≠ some .closed := by
        intro hasked
        cases (body_of_closed hhandlers hasked).symm.trans hbody
      have hlocal : stage = .after → ∀ entry, entries[i]? = some entry → mark entry.2 = false := by
        rintro rfl entry hentry
        by_contra hmarked
        rw [hat.marked hhandlers hentry (eq_true_of_ne_false hmarked)] at hbody
        cases hbody
      rcases hat.turn_cases hnodup hlawful hhandlers hlocal hclosed (hstays i stage _ hat hvisited)
        with ⟨hstop, -, -⟩ | ⟨_, i', stage', _, hbody', hnext, -⟩ |
          ⟨_, _, _, _, hbody', hnext, -⟩
      · cases hstop.symm.trans hbody
      · obtain rfl := Turn.again.inj (Option.some.inj (hbody'.symm.trans hbody))
        exact ⟨i', stage', hnext⟩
      · obtain rfl := Turn.again.inj (Option.some.inj (hbody'.symm.trans hbody))
        exact ⟨i, .sending, hnext⟩

/-- The result of such a pass is at the end of the table, and no peer in it has failed. -/
theorem result_at {fuel : Nat} {result : State π} (hnodup : (entries.map Prod.fst).Nodup)
    (hlawful : peer.Lawful sound pending mark) (hhandlers : handlers.Lawful mark)
    (hat : At sound mark entries i stage state)
    (hloop : loop (body peer handlers answers) fuel state = .finished result)
    (hstays : ∀ i stage asking, At sound mark entries i stage asking →
      Visited (body peer handlers answers) state asking →
      asking.asked peer answers = some .error → handlers.OnlyAborts) :
    At sound mark entries entries.length .visit result ∧
      ∀ entry ∈ entries, mark entry.2 = false := by
  obtain ⟨hvisited, hplace⟩ := result_visited hloop
  obtain ⟨i, stage, hlast⟩ := visited_at hnodup hlawful hhandlers hat hstays hvisited
  have hend : i = entries.length ∧ stage = .visit := by
    have hnone := hlast.place_eq.symm.trans hplace
    cases stage with
    | visit =>
        have hover := List.getElem?_eq_none_iff.mp (Place.visit.inj hnone)
        rw [List.length_map] at hover
        exact ⟨Nat.le_antisymm hlast.index_le hover, rfl⟩
    | sending => cases hnone
    | after => cases hnone
  obtain ⟨rfl, rfl⟩ := hend
  refine ⟨hlast, fun entry hentry => hlast.unmarked entry ?_⟩
  rwa [List.take_length]

/-- A send that can only fail is made for ever. -/
theorem never_finishes (hlawful : peer.Lawful sound pending mark)
    (hstays : handlers.OnlyAborts)
    {item : π} (hat : At sound mark entries i .sending state) (hitem : state.deref i = some item)
    (hsize : (peer.offer item).1 ≠ 0)
    (hfailed : ∀ later, state.answered ≤ later →
      (answers later (peer.offer item).1).reply.Failed) (fuel : Nat) (result : State π) :
    loop (body peer handlers answers) fuel state ≠ .finished result := by
  induction fuel generalizing state item with
  | zero =>
      intro hloop
      cases hloop
  | succ fuel ih =>
      have hbody := @body_of_asked _ peer handlers answers _ _ _ _ hat.place_eq hitem hsize
      have hfirst := hfailed state.answered (Nat.le_refl _)
      have hopen : (answers state.answered (peer.offer item).1).reply ≠ .closed := by
        intro hclosed
        rw [hclosed] at hfirst
        exact absurd hfirst (by decide)
      obtain ⟨hnext, hderef, -⟩ := hat.failing hlawful hitem hopen
        ((entries.map Prod.fst).getD i 0)
      have hlater (other : State π) (hother : At sound mark entries i .sending other)
          (hkept : other.deref i = some (peer.offer item).2)
          (hanswered : other.answered = state.answered + 1) :
          loop (body peer handlers answers) fuel other ≠ .finished result := by
        refine ih hother hkept ?_ ?_
        · rwa [hlawful.offer_offer]
        · intro later hle
          rw [hlawful.offer_offer]
          exact hfailed later (by omega)
      rw [loop, hbody]
      rcases hfirst with hagain | herror
      · rw [hagain] at hnext hderef ⊢
        exact hlater _ hnext hderef rfl
      · rw [herror] at hnext hderef ⊢
        dsimp only
        rw [hstays]
        exact hlater _ hnext.aborted hderef rfl

/--
With errors that do not stop the pass: it ends and has treated every peer as it
should exactly when no peer has failed, no send returns 0 and none fails for ever.
-/
theorem wellRemoved_iff (hnodup : (entries.map Prod.fst).Nodup)
    (hsound : ∀ entry ∈ entries, sound entry.2) (hlawful : peer.Lawful sound pending mark)
    (hhandlers : handlers.Lawful mark)
    (hstays : handlers.OnlyAborts) :
    (∃ fuel result, loop (body peer handlers answers) fuel (start entries) = .finished result ∧
        WellRemoved mark entries result) ↔
      (∀ entry ∈ entries, mark entry.2 = false) ∧
        ∀ visited, Visited (body peer handlers answers) (start entries) visited →
          visited.asked peer answers ≠ some .closed ∧ Patient peer answers visited := by
  have hstart : At sound mark entries 0 .visit (start entries) := at_start hsound
  constructor
  · rintro ⟨fuel, result, hloop, -⟩
    obtain ⟨-, hunmarked⟩ := result_at hnodup hlawful hhandlers hstart hloop
      fun _ _ _ _ _ _ => hstays
    refine ⟨hunmarked, fun visited hvisited => ⟨fun hasked => ?_, ?_⟩⟩
    · exact hvisited.ne_none hloop (body_of_closed hhandlers hasked)
    · intro it p item hplace hitem hsize
      by_contra hnone
      obtain ⟨i, stage, hat⟩ := visited_at hnodup hlawful hhandlers hstart
        (fun _ _ _ _ _ _ => hstays) hvisited
      obtain ⟨rfl, rfl⟩ := hat.sending_eq hplace
      obtain ⟨left, hleft⟩ := hvisited.loop_finished hloop
      refine never_finishes hlawful hstays hat hitem hsize (fun later hle => ?_) left result hleft
      by_contra hgood
      exact hnone ⟨later, hle, hgood⟩
  · rintro ⟨hunmarked, hvisits⟩
    obtain ⟨fuel, result, hloop, hat, -⟩ := hstart.ends hnodup hlawful hhandlers hunmarked
      ⟨fun _ hvisited => (hvisits _ hvisited).1, fun _ _ _ => hstays,
        fun _ hvisited => (hvisits _ hvisited).2⟩
    have hstaying : ∀ entry ∈ entries, ¬ Removed mark result.log entry := by
      rintro entry hentry (hmarked | hclosed)
      · exact absurd (hmarked.symm.trans (hunmarked entry hentry)) (by decide)
      · exact hat.open_log _ hclosed
    refine ⟨fuel, result, hloop, ?_, fun entry hentry hremoved =>
      absurd hremoved (hstaying entry hentry), fun entry hentry _ => ⟨?_, ?_⟩⟩
    · intro key
      rw [hat.table_eq, List.zipIdx_map_fst, List.mem_map]
      constructor
      · rintro ⟨entry, hentry, rfl⟩
        exact ⟨entry, hentry, rfl, hstaying entry hentry⟩
      · rintro ⟨entry, hentry, rfl, -⟩
        exact ⟨entry, hentry, rfl⟩
    · rw [hat.quiet, List.count_nil]
    · rw [hat.turns_end]
      exact List.count_eq_one_of_mem hnodup (List.mem_map_of_mem hentry)

/-- A peer that still has something on offer is sent to once more. -/
theorem sends_again {it : Int} {p : Nat} {item : π} {fuel : Nat} {result : State π}
    (hhandlers : handlers.Lawful mark) (hplace : state.place = .sending it p)
    (hitem : state.deref p = some item) (hsize : (peer.offer item).1 ≠ 0)
    (hloop : loop (body peer handlers answers) fuel state = .finished result) :
    ∃ reply more, result.log = state.log ++ .send it reply :: more := by
  cases hbody : body peer handlers answers state with
  | none => exact absurd hbody (Visited.start.ne_none hloop)
  | some turn =>
      cases turn with
      | stop last => cases hplace.symm.trans (body_stop hbody).1
      | again next =>
          obtain ⟨reply, hlog⟩ := body_send_log hhandlers hplace hitem hsize hbody
          obtain ⟨left, hleft⟩ := (Visited.again .start hbody).loop_finished hloop
          obtain ⟨more, hmore⟩ := visited_log hhandlers (result_visited hleft).1
          refine ⟨reply, more, ?_⟩
          rw [← hmore, hlog, List.append_assoc]
          rfl

/-- In a pass that sends as it should, a send in order is successful. -/
theorem At.calm {fuel : Nat} {result : State π} {reply : Reply} (keys : List Int)
    (hlawful : peer.Lawful sound pending mark) (hhandlers : handlers.Lawful mark)
    (herror : handlers.OnlyAborts ∨
      ∀ other it p next, handlers.onError other it p = some next →
        body peer handlers answers next = none)
    (hat : At sound mark entries i stage state)
    (hloop : loop (body peer handlers answers) fuel state = .finished result)
    (hsent : WellSent keys result.log) (hasked : state.asked peer answers = some reply) :
    ∃ count, reply = .sent count := by
  obtain ⟨it, p, item, hplace, hitem, hsize, hreply⟩ := exists_of_asked hasked
  have hbody := @body_of_asked _ peer handlers answers _ _ _ _ hplace hitem hsize
  have hnone := Visited.start.ne_none hloop
  obtain ⟨rfl, rfl⟩ := hat.sending_eq hplace
  -- a failed send that the pass survives is repeated
  have hrepeated (hopen : reply ≠ .closed) (next : State π)
      (hturn : body peer handlers answers state = some (.again next))
      (hpeers : next.peers = (state.answer peer it p item reply).peers)
      (hlog : next.log = state.log ++ [.send it reply]) (hkept : next.place = state.place) :
      ∃ reply' more, result.log = state.log ++ .send it reply :: .send it reply' :: more := by
    obtain ⟨-, hderef, -⟩ := hat.failing hlawful hitem hopen it
    have hderef' : next.deref p = some (peer.offer item).2 := by
      rw [State.deref, hpeers]
      exact hderef
    obtain ⟨left, hleft⟩ := (Visited.again .start hturn).loop_finished hloop
    obtain ⟨reply', more, hmore⟩ := sends_again hhandlers (hkept.trans hplace) hderef'
      (by rwa [hlawful.offer_offer]) hleft
    refine ⟨reply', more, ?_⟩
    rw [hmore, hlog, List.append_assoc]
    rfl
  cases reply with
  | sent count => exact ⟨count, rfl⟩
  | closed => exact absurd (body_of_closed hhandlers hasked) hnone
  | again =>
      rw [hreply] at hbody
      obtain ⟨reply', more, hlog⟩ := hrepeated (by decide) _ hbody rfl rfl rfl
      exact absurd List.mem_cons_self (hsent.again _ it _ hlog reply')
  | error =>
      rw [hreply] at hbody
      dsimp only at hbody
      rcases herror with hstays | hfaults
      · rw [hstays] at hbody
        obtain ⟨reply', more, hlog⟩ := hrepeated (by decide) _ hbody rfl rfl rfl
        exact absurd List.mem_cons_self (hsent.error _ it _ hlog it reply')
      · cases hnext : handlers.onError (state.answer peer it p item .error) it p with
        | none =>
            rw [hnext] at hbody
            exact absurd hbody hnone
        | some next =>
            rw [hnext] at hbody
            exact absurd (hfaults _ _ _ _ hnext) ((Visited.again .start hbody).ne_none hloop)

/--
With errors after which the pass goes on or faults: it ends and has sent as it
should exactly when no peer has failed and every send is successful.
-/
theorem wellSent_iff (hnodup : (entries.map Prod.fst).Nodup)
    (hsound : ∀ entry ∈ entries, sound entry.2) (hlawful : peer.Lawful sound pending mark)
    (hhandlers : handlers.Lawful mark)
    (herror : handlers.OnlyAborts ∨
      ∀ other it p next, handlers.onError other it p = some next →
        body peer handlers answers next = none) :
    (∃ fuel result, loop (body peer handlers answers) fuel (start entries) = .finished result ∧
        WellSent (entries.map Prod.fst) result.log) ↔
      (∀ entry ∈ entries, mark entry.2 = false) ∧
        ∀ visited, Visited (body peer handlers answers) (start entries) visited →
          ∀ reply, visited.asked peer answers = some reply → ∃ count, reply = .sent count := by
  have hstart : At sound mark entries 0 .visit (start entries) := at_start hsound
  constructor
  · rintro ⟨fuel, result, hloop, hsent⟩
    have hcalm : ∀ i stage asking, At sound mark entries i stage asking →
        Visited (body peer handlers answers) (start entries) asking → ∀ reply,
          asking.asked peer answers = some reply → ∃ count, reply = .sent count := by
      intro i stage asking hat hvisited reply hasked
      obtain ⟨left, hleft⟩ := hvisited.loop_finished hloop
      exact hat.calm _ hlawful hhandlers herror hleft hsent hasked
    have hstays : ∀ i stage asking, At sound mark entries i stage asking →
        Visited (body peer handlers answers) (start entries) asking →
        asking.asked peer answers = some .error → handlers.OnlyAborts := by
      intro i stage asking hat hvisited hasked
      obtain ⟨count, heq⟩ := hcalm i stage asking hat hvisited _ hasked
      cases heq
    refine ⟨(result_at hnodup hlawful hhandlers hstart hloop hstays).2, ?_⟩
    intro visited hvisited
    obtain ⟨i, stage, hat⟩ := visited_at hnodup hlawful hhandlers hstart hstays hvisited
    exact hcalm i stage visited hat hvisited
  · rintro ⟨hunmarked, hvisits⟩
    have hending : Ending peer handlers answers (start entries) := by
      refine ⟨fun visited hvisited hasked => ?_, fun visited hvisited hasked => ?_,
        fun visited hvisited it p item hplace hitem hsize => ⟨visited.answered, Nat.le_refl _, ?_⟩⟩
      · obtain ⟨count, heq⟩ := hvisits visited hvisited _ hasked
        cases heq
      · obtain ⟨count, heq⟩ := hvisits visited hvisited _ hasked
        cases heq
      · obtain ⟨count, heq⟩ := hvisits visited hvisited _ (asked_of_place hplace hitem hsize)
        rw [heq]
        rintro (hagain | herror)
        · cases hagain
        · cases herror
    obtain ⟨fuel, result, hloop, hat, haccounted⟩ :=
      hstart.ends hnodup hlawful hhandlers hunmarked hending
    have hcounts : ∀ key reply, .send key reply ∈ result.log → ∃ count, reply = .sent count := by
      intro key reply hmem
      rcases haccounted key reply hmem with hnil | ⟨asking, hvisited, hasked⟩
      · cases hnil
      · exact hvisits asking hvisited reply hasked
    refine ⟨fuel, result, hloop, fun before key after hlog => ?_, fun before key after hlog => ?_,
      fun _ => hat.turns_end⟩
    · obtain ⟨count, heq⟩ := hcounts key .again (by rw [hlog]; simp)
      cases heq
    · obtain ⟨count, heq⟩ := hcounts key .error (by rw [hlog]; simp)
      cases heq

end Runs

end SendPass
