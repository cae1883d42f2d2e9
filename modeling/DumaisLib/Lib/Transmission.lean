import DumaisLib.Lib.Machine

/-!
# Senders of a stream

A sender accepts inputs and offers what they stand for piece by piece.  Its
environment reports how much of the last offer it has taken.  The sender
implements a stream when what was taken and what is still pending are together
what was accepted.
-/

namespace Transmission

open Machine

variable {σ σ' ι ι' α : Type*}

structure Sender (σ ι α : Type*) where
  accept : σ → ι → σ
  offer : σ → List α × σ
  sent : σ → Nat → σ

inductive Event (ι : Type*) where
  | accept (input : ι)
  | offer
  | sent (count : Nat)

/-- A sender with what its environment has seen of it. -/
structure Run (σ ι α : Type*) where
  state : σ
  accepted : List ι
  /-- What is left of the last offer. -/
  offered : List α
  taken : List α

def Run.start (state : σ) : Run σ ι α where
  state := state
  accepted := []
  offered := []
  taken := []

/-- The environment reports at least one item, and no more than are left of the last offer. -/
def Allowed (admits : List ι → σ → ι → Prop) (run : Run σ ι α) : Event ι → Prop
  | .accept input => admits run.accepted run.state input
  | .offer => True
  | .sent count => 1 ≤ count ∧ count ≤ run.offered.length

namespace Sender

variable (sender : Sender σ ι α)

def step (run : Run σ ι α) : Event ι → Run σ ι α
  | .accept input =>
      { run with
        state := sender.accept run.state input
        accepted := run.accepted ++ [input] }
  | .offer =>
      { run with
        state := (sender.offer run.state).2
        offered := (sender.offer run.state).1 }
  | .sent count =>
      { run with
        state := sender.sent run.state count
        offered := run.offered.drop count
        taken := run.taken ++ run.offered.take count }

/-- The runs that begin in the given state. -/
def Reached (admits : List ι → σ → ι → Prop) (state : σ) : Run σ ι α → Prop :=
  Reaches (fun run event => some (sender.step run event)) (Allowed admits) (.start state)

variable {sender} in
theorem Reached.next {admits : List ι → σ → ι → Prop} {state : σ} {run : Run σ ι α}
    (hreached : sender.Reached admits state run) (event : Event ι)
    (hallowed : Allowed admits run event) :
    sender.Reached admits state (sender.step run event) :=
  Reaches.step hreached hallowed rfl

end Sender

/--
While nothing is accepted, the states hold the items `pending`, of which `front`
are on offer, and give them away in order.
-/
structure Drains (sender : Sender σ ι α) (inv : σ → Prop) (front pending : σ → List α) :
    Prop where
  offer : ∀ state, inv state → inv (sender.offer state).2 ∧
    (sender.offer state).1 = front (sender.offer state).2 ∧
    pending (sender.offer state).2 = pending state
  sent : ∀ state count, inv state → 1 ≤ count → count ≤ (front state).length →
    inv (sender.sent state count) ∧ front (sender.sent state count) = (front state).drop count ∧
      pending (sender.sent state count) = (pending state).drop count
  front_begins : ∀ state, inv state → front state <+: pending state

variable {sender : Sender σ ι α} {admits : List ι → σ → ι → Prop} {front pending : σ → List α}

/-- A sender that acts on a part of its state as another one does inherits the law. -/
theorem Drains.comap {part : Sender σ' ι' α} {view : σ → σ'} {inv : σ → Prop} {inv' : σ' → Prop}
    {front pending : σ' → List α} (hdrains : Drains part inv' front pending)
    (hinv : ∀ state, inv state → inv' (view state))
    (hoffer : ∀ state, inv state → inv' (view (sender.offer state).2) →
      inv (sender.offer state).2)
    (hsent : ∀ state count, inv state → inv' (view (sender.sent state count)) →
      inv (sender.sent state count))
    (offer_view : ∀ state, inv state →
      (sender.offer state).1 = (part.offer (view state)).1 ∧
        view (sender.offer state).2 = (part.offer (view state)).2)
    (sent_view : ∀ state count, inv state →
      view (sender.sent state count) = part.sent (view state) count) :
    Drains sender inv (front ∘ view) (pending ∘ view) where
  offer state hstate := by
    obtain ⟨hnext, hfront, hpending⟩ := hdrains.offer _ (hinv state hstate)
    obtain ⟨houtput, hview⟩ := offer_view state hstate
    refine ⟨hoffer state hstate (hview ▸ hnext), ?_, ?_⟩
    · rw [houtput, hfront, Function.comp_apply, hview]
    · rw [Function.comp_apply, hview, hpending, Function.comp_apply]
  sent state count hstate hpos hle := by
    obtain ⟨hnext, hfront, hpending⟩ := hdrains.sent _ count (hinv state hstate) hpos hle
    have hview := sent_view state count hstate
    refine ⟨hsent state count hstate (hview ▸ hnext), ?_, ?_⟩
    · rw [Function.comp_apply, hview, hfront, Function.comp_apply]
    · rw [Function.comp_apply, hview, hpending, Function.comp_apply]
  front_begins state hstate := hdrains.front_begins _ (hinv state hstate)

/--
Exact bookkeeping of a run: with every accepted input the sender takes its items
behind the pending ones, and then nothing is lost, duplicated or reordered.
-/
theorem Sender.Reached.stream {inv : List ι → σ → Prop} {content : ι → List α} {state : σ}
    {run : Run σ ι α} (hreached : sender.Reached admits state run)
    (hdrains : ∀ accepted, Drains sender (inv accepted) front pending)
    (haccept : ∀ accepted state input, inv accepted state → admits accepted state input →
      inv (accepted ++ [input]) (sender.accept state input) ∧
        front (sender.accept state input) = front state ∧
        pending (sender.accept state input) = pending state ++ content input)
    (hstart : inv [] state) (hfront : front state = []) (hpending : pending state = []) :
    inv run.accepted run.state ∧ run.offered = front run.state ∧
      run.taken ++ pending run.state = run.accepted.flatMap content := by
  induction hreached with
  | start => exact ⟨hstart, hfront.symm, hpending⟩
  | @step run next event _ hallowed hnext ih =>
    obtain ⟨hinv, hoffered, htaken⟩ := ih
    obtain rfl := Option.some.inj hnext
    cases event with
    | accept input =>
        obtain ⟨hinv', hfront', hpending'⟩ := haccept _ _ _ hinv hallowed
        refine ⟨hinv', hoffered.trans hfront'.symm, ?_⟩
        simp only [step, List.flatMap_append, List.flatMap_cons, List.flatMap_nil,
          List.append_nil]
        rw [hpending', ← List.append_assoc, htaken]
    | offer =>
        obtain ⟨hinv', hfront', hpending'⟩ := (hdrains _).offer _ hinv
        exact ⟨hinv', hfront', (congrArg (run.taken ++ ·) hpending').trans htaken⟩
    | sent count =>
        obtain ⟨hpos, hle⟩ := hallowed
        rw [hoffered] at hle
        obtain ⟨hinv', hfront', hpending'⟩ := (hdrains _).sent _ count hinv hpos hle
        refine ⟨hinv', ?_, ?_⟩
        · exact (congrArg (List.drop count) hoffered).trans hfront'.symm
        · have hbegins := (hdrains _).front_begins _ hinv
          have htake : (front run.state).take count = (pending run.state).take count := by
            obtain ⟨behind, hbehind⟩ := hbegins
            rw [← hbehind, List.take_append_of_le_length hle]
          simp only [step]
          rw [hpending', hoffered, htake, List.append_assoc, List.take_append_drop]
          exact htaken

/--
An environment that takes everything on offer comes to the end: from every run
there is one with the same inputs in which nothing more is offered.
-/
theorem Drains.exhausts {inv : σ → Prop} (hdrains : Drains sender inv front pending) {state : σ}
    {run : Run σ ι α} (hreached : sender.Reached admits state run) (hinv : inv run.state) :
    ∃ last, sender.Reached admits state last ∧ last.accepted = run.accepted ∧ inv last.state ∧
      (sender.offer last.state).1 = [] ∧
      last.taken ++ pending last.state = run.taken ++ pending run.state := by
  induction hlength : (pending run.state).length using Nat.strongRecOn generalizing run with
  | ind length ih =>
      obtain ⟨hinv', hfront, hpending⟩ := hdrains.offer _ hinv
      by_cases hempty : (sender.offer run.state).1 = []
      · exact ⟨run, hreached, rfl, hinv, hempty, rfl⟩
      · have hpos := List.length_pos_iff.mpr hempty
        have hoffered : sender.Reached admits state (sender.step run .offer) :=
          hreached.next .offer trivial
        have hsent : sender.Reached admits state (sender.step (sender.step run .offer)
            (.sent (sender.offer run.state).1.length)) :=
          hoffered.next (.sent _) ⟨hpos, Nat.le_refl _⟩
        obtain ⟨hinv'', hfront', hpending'⟩ :=
          hdrains.sent _ _ hinv' hpos (Nat.le_of_eq (congrArg List.length hfront))
        obtain ⟨behind, hbehind⟩ := hdrains.front_begins _ hinv'
        have hrest : pending (sender.sent (sender.offer run.state).2
            (sender.offer run.state).1.length) = behind := by
          rw [hpending', ← hbehind, ← hfront, List.drop_left]
        have hsplit : pending run.state = (sender.offer run.state).1 ++ behind := by
          rw [← hpending, ← hbehind, ← hfront]
        have hlt : behind.length < length := by
          rw [← hlength, hsplit, List.length_append]
          omega
        obtain ⟨last, hlast, haccepted, hinvLast, hidle, htaken⟩ :=
          ih _ hlt hsent hinv'' (congrArg List.length hrest)
        refine ⟨last, hlast, haccepted, hinvLast, hidle, htaken.trans ?_⟩
        simp only [Sender.step]
        rw [hrest, hsplit, List.take_length, List.append_assoc]

end Transmission
