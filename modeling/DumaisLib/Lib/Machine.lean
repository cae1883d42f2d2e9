import Mathlib.Logic.Basic
import Mathlib.Order.WellFounded

/-!
# Deterministic machines and exact refinement

A machine answers each input with an output and a next state.  One machine
refines another through a view of its states; the refinement is exact when the
inputs on which the two agree are known.
-/

namespace Machine

variable {σ τ ι ο : Type*}

/-- The outputs of a run, each with the state it leads to. -/
def trace (step : σ → ι → ο × σ) : σ → List ι → List (ο × σ)
  | _, [] => []
  | state, input :: inputs => step state input :: trace step (step state input).2 inputs

/-- Every input of the run is allowed in the state in which it arrives. -/
def Guarded (step : σ → ι → ο × σ) (allowed : σ → ι → Prop) : σ → List ι → Prop
  | _, [] => True
  | state, input :: inputs =>
      allowed state input ∧ Guarded step allowed (step state input).2 inputs

/--
Exact refinement.  When the two machines agree on every allowed input and
differ on every other one, their runs agree exactly on the guarded inputs.
-/
theorem trace_view_iff_guarded {concrete : σ → ι → ο × σ} {abstract : τ → ι → ο × τ}
    {view : σ → τ} {inv : σ → Prop} {allowed : τ → ι → Prop}
    (agree : ∀ state input, inv state → allowed (view state) input →
      Prod.map id view (concrete state input) = abstract (view state) input ∧
        inv (concrete state input).2)
    (differ : ∀ state input, inv state → ¬ allowed (view state) input →
      Prod.map id view (concrete state input) ≠ abstract (view state) input)
    {state : σ} (hinv : inv state) (inputs : List ι) :
    (trace concrete state inputs).map (Prod.map id view) =
        trace abstract (view state) inputs ↔
      Guarded abstract allowed (view state) inputs := by
  induction inputs generalizing state with
  | nil => simp [trace, Guarded]
  | cons input inputs ih =>
      by_cases hallowed : allowed (view state) input
      · obtain ⟨hstep, hnext⟩ := agree state input hinv hallowed
        have hview : view (concrete state input).2 = (abstract (view state) input).2 :=
          congrArg Prod.snd hstep
        have hrest := ih hnext
        rw [hview] at hrest
        simp only [trace, Guarded, List.map_cons, List.cons.injEq, hstep, hallowed,
          true_and]
        exact hrest
      · constructor
        · intro heq
          exact absurd (List.cons.inj heq).1 (differ state input hinv hallowed)
        · intro hguarded
          exact absurd hguarded.1 hallowed

/-- Along an invariant, what is equivalent for single inputs is so for runs. -/
theorem guarded_congr {step : σ → ι → ο × σ} {inv : σ → Prop} {allowed allowed' : σ → ι → Prop}
    (hstep : ∀ state input, inv state → inv (step state input).2)
    (hiff : ∀ state input, inv state → (allowed state input ↔ allowed' state input))
    {state : σ} (hinv : inv state) (inputs : List ι) :
    Guarded step allowed state inputs ↔ Guarded step allowed' state inputs := by
  induction inputs generalizing state with
  | nil => exact Iff.rfl
  | cons input inputs ih =>
      exact and_congr (hiff state input hinv) (ih (hstep state input hinv))

/-- Along an invariant that one property keeps, what it implies for inputs it implies for runs. -/
theorem Guarded.imp {step : σ → ι → ο × σ} {inv : σ → Prop} {allowed property : σ → ι → Prop}
    {inputs : List ι}
    (hkeeps : ∀ state, ∀ input ∈ inputs, inv state → allowed state input → inv (step state input).2)
    (himp : ∀ state, ∀ input ∈ inputs, inv state → allowed state input → property state input)
    {state : σ} (hinv : inv state) (hallowed : Guarded step allowed state inputs) :
    Guarded step property state inputs := by
  induction inputs generalizing state with
  | nil => trivial
  | cons input inputs ih =>
      have hfirst : input ∈ input :: inputs := List.mem_cons_self
      have hlater (later : ι) (hmem : later ∈ inputs) : later ∈ input :: inputs :=
        List.mem_cons_of_mem input hmem
      refine ⟨himp state input hfirst hinv hallowed.1, ?_⟩
      exact ih (fun state later hmem => hkeeps state later (hlater later hmem))
        (fun state later hmem => himp state later (hlater later hmem))
        (hkeeps state input hfirst hinv hallowed.1) hallowed.2

/-! ## Reachable states -/

/-- The states that runs of allowed inputs reach; a step may be disabled. -/
inductive Reaches (step : σ → ι → Option σ) (allowed : σ → ι → Prop) (start : σ) : σ → Prop where
  | start : Reaches step allowed start start
  | step {state next : σ} {input : ι} : Reaches step allowed start state → allowed state input →
      step state input = some next → Reaches step allowed start next

/-- What holds at the start and is preserved by allowed steps holds in every state reached. -/
theorem Reaches.invariant {step : σ → ι → Option σ} {allowed : σ → ι → Prop} {start state : σ}
    {inv : σ → Prop} (hstart : inv start)
    (hstep : ∀ state input next, inv state → allowed state input → step state input = some next →
      inv next)
    (hreaches : Reaches step allowed start state) : inv state := by
  induction hreaches with
  | start => exact hstart
  | step _ hallowed hnext ih => exact hstep _ _ _ ih hallowed hnext

/-- The state after the inputs, when none of the steps is disabled. -/
def runAll (step : σ → ι → Option σ) : σ → List ι → Option σ
  | state, [] => some state
  | state, input :: inputs => (step state input).bind fun next => runAll step next inputs

theorem Reaches.runAll {step : σ → ι → Option σ} {allowed : σ → ι → Prop} {start state last : σ}
    {inputs : List ι} (hreaches : Reaches step allowed start state)
    (hallowed : ∀ state, ∀ input ∈ inputs, allowed state input)
    (hlast : runAll step state inputs = some last) : Reaches step allowed start last := by
  induction inputs generalizing state with
  | nil =>
      obtain rfl := Option.some.inj hlast
      exact hreaches
  | cons input inputs ih =>
      obtain ⟨next, hnext, hrest⟩ := Option.bind_eq_some_iff.mp hlast
      exact ih (hreaches.step (hallowed state input List.mem_cons_self) hnext)
        (fun state later hlater => hallowed state later (List.mem_cons_of_mem _ hlater)) hrest

/--
Where the goal is not reached some chosen input brings it nearer, so a run of
chosen inputs reaches it.
-/
theorem exists_runAll {β : Type*} [LT β] [WellFoundedLT β] {step : σ → ι → Option σ}
    {chosen : ι → Prop} {inv goal : σ → Prop} (rank : σ → β)
    (hprogress : ∀ state, inv state → goal state ∨ ∃ input next, chosen input ∧
      step state input = some next ∧ inv next ∧ rank next < rank state)
    {state : σ} (hinv : inv state) :
    ∃ inputs last, (∀ input ∈ inputs, chosen input) ∧ runAll step state inputs = some last ∧
      inv last ∧ goal last := by
  induction hrank : rank state using WellFoundedLT.induction generalizing state with
  | ind size ih =>
      rcases hprogress state hinv with hgoal | ⟨input, next, hchosen, hnext, hkept, hlt⟩
      · exact ⟨[], state, List.forall_mem_nil _, rfl, hinv, hgoal⟩
      · obtain ⟨inputs, last, hinputs, hrun, hlast⟩ := ih _ (hrank ▸ hlt) hkept rfl
        refine ⟨input :: inputs, last, List.forall_mem_cons.mpr ⟨hchosen, hinputs⟩, ?_, hlast⟩
        rw [runAll, hnext, Option.bind_some, hrun]

/-! ## Properties of all states of a run -/

/-- The property holds in every state that the run comes through. -/
def Always (step : σ → ι → Option σ) (property : σ → Prop) : σ → List ι → Prop
  | state, [] => property state
  | state, input :: inputs =>
      property state ∧ ∀ next, step state input = some next → Always step property next inputs

theorem Always.last {step : σ → ι → Option σ} {property : σ → Prop} {state last : σ}
    {inputs : List ι} (halways : Always step property state inputs)
    (hlast : runAll step state inputs = some last) : property last := by
  induction inputs generalizing state with
  | nil =>
      obtain rfl := Option.some.inj hlast
      exact halways
  | cons input inputs ih =>
      obtain ⟨next, hnext, hrest⟩ := Option.bind_eq_some_iff.mp hlast
      exact ih (halways.2 next hnext) hrest

/-- Every step of the run is allowed in the state in which it is taken. -/
def Admitted (step : σ → ι → Option σ) (allowed : σ → ι → Prop) : σ → List ι → Prop
  | _, [] => True
  | state, input :: inputs =>
      ∀ next, step state input = some next → allowed state input ∧ Admitted step allowed next inputs

/--
When allowed steps keep an invariant that implies the property, and every other
step breaks the property, the property holds all along exactly the allowed runs.
-/
theorem always_iff_admitted {step : σ → ι → Option σ} {allowed : σ → ι → Prop}
    {inv property : σ → Prop} (hholds : ∀ state, inv state → property state)
    (hkeeps : ∀ state input next, inv state → allowed state input →
      step state input = some next → inv next)
    (hbreaks : ∀ state input next, inv state → ¬ allowed state input →
      step state input = some next → ¬ property next)
    {state : σ} (hinv : inv state) (inputs : List ι) :
    Always step property state inputs ↔ Admitted step allowed state inputs := by
  induction inputs generalizing state with
  | nil => exact iff_of_true (hholds state hinv) trivial
  | cons input inputs ih =>
      have hnext (next : σ) (hstep : step state input = some next) :
          Always step property next inputs ↔
            allowed state input ∧ Admitted step allowed next inputs := by
        by_cases hallowed : allowed state input
        · rw [ih (hkeeps state input next hinv hallowed hstep)]
          exact (and_iff_right hallowed).symm
        · have hbroken := hbreaks state input next hinv hallowed hstep
          refine iff_of_false ?_ fun hadmitted => hallowed hadmitted.1
          cases inputs with
          | nil => exact hbroken
          | cons later inputs => exact fun halways => hbroken halways.1
      constructor
      · exact fun halways next hstep => (hnext next hstep).mp (halways.2 next hstep)
      · exact fun hadmitted =>
          ⟨hholds state hinv, fun next hstep => (hnext next hstep).mpr (hadmitted next hstep)⟩

/-- The property holds of every step that the run comes to, whether or not it is disabled. -/
def Throughout (step : σ → ι → Option σ) (property : σ → ι → Prop) : σ → List ι → Prop
  | _, [] => True
  | state, input :: inputs =>
      property state input ∧ ∀ next, step state input = some next → Throughout step property next inputs

/-- Along an invariant that one of two properties keeps, they are equivalent for runs when
they are so for steps. -/
theorem throughout_congr {step : σ → ι → Option σ} {inv : σ → Prop} {allowed property : σ → ι → Prop}
    (hkeeps : ∀ state input next, inv state → allowed state input →
      step state input = some next → inv next)
    (hiff : ∀ state input, inv state → (property state input ↔ allowed state input))
    {state : σ} (hinv : inv state) (inputs : List ι) :
    Throughout step property state inputs ↔ Throughout step allowed state inputs := by
  induction inputs generalizing state with
  | nil => exact Iff.rfl
  | cons input inputs ih =>
      simp only [Throughout, hiff state input hinv]
      refine and_congr_right fun hallowed => ?_
      exact forall₂_congr fun next hstep => ih (hkeeps state input next hinv hallowed hstep)

/-- What an invariant of all steps implies holds of every step of a run. -/
theorem throughout_of_kept {step : σ → ι → Option σ} {inv : σ → Prop} {property : σ → ι → Prop}
    (hkept : ∀ state input next, inv state → step state input = some next → inv next)
    (hholds : ∀ state input, inv state → property state input)
    {state : σ} (hinv : inv state) (inputs : List ι) :
    Throughout step property state inputs := by
  induction inputs generalizing state with
  | nil => trivial
  | cons input inputs ih =>
      exact ⟨hholds state input hinv, fun next hstep => ih (hkept state input next hinv hstep)⟩

/-- Along an invariant that one property keeps, what it implies for steps it implies for runs. -/
theorem Throughout.imp {step : σ → ι → Option σ} {inv : σ → Prop} {allowed property : σ → ι → Prop}
    (hkeeps : ∀ state input next, inv state → allowed state input →
      step state input = some next → inv next)
    (himp : ∀ state input, inv state → allowed state input → property state input)
    {state : σ} (hinv : inv state) {inputs : List ι}
    (hallowed : Throughout step allowed state inputs) :
    Throughout step property state inputs := by
  induction inputs generalizing state with
  | nil => trivial
  | cons input inputs ih =>
      refine ⟨himp state input hinv hallowed.1, fun next hstep => ?_⟩
      exact ih (hkeeps state input next hinv hallowed.1 hstep) (hallowed.2 next hstep)

/-- What the outputs of the steps are, collected along a run. -/
def record (step : σ → ι → Option σ) (output : σ → ι → List ο) (state : σ × List ο) (input : ι) :
    Option (σ × List ο) :=
  (step state.1 input).map fun next => (next, state.2 ++ output state.1 input)

/-! ## Loops -/

/-- How a loop that may not return ends. -/
inductive Outcome (ρ : Type*) where
  | outOfFuel
  | fault
  | finished (result : ρ)
  deriving DecidableEq

/-- The result, when there is one. -/
def Outcome.result? {ρ : Type*} : Outcome ρ → Option ρ
  | .finished result => some result
  | _ => none

/-- What comes next, when there is a result. -/
def Outcome.bind {ρ ω : Type*} (outcome : Outcome ρ) (next : ρ → Outcome ω) : Outcome ω :=
  match outcome with
  | .outOfFuel => .outOfFuel
  | .fault => .fault
  | .finished result => next result

theorem Outcome.bind_eq_finished {ρ ω : Type*} {outcome : Outcome ρ} {next : ρ → Outcome ω}
    {value : ω} :
    outcome.bind next = .finished value ↔
      ∃ result, outcome = .finished result ∧ next result = .finished value := by
  cases outcome with
  | outOfFuel => simp [Outcome.bind]
  | fault => simp [Outcome.bind]
  | finished result => simp [Outcome.bind]

theorem Outcome.exists_of_map {ρ ω : Type*} {outcome : Outcome ρ} {view : ρ → ω} {value : ω}
    (hvalue : outcome.result?.map view = some value) :
    ∃ result, outcome = .finished result ∧ view result = value := by
  cases outcome with
  | outOfFuel => cases hvalue
  | fault => cases hvalue
  | finished result => exact ⟨result, rfl, Option.some.inj hvalue⟩

/-- What one turn of a loop leads to. -/
inductive Turn (σ ρ : Type*) where
  | stop (result : ρ)
  | again (next : σ)

variable {ρ : Type*}

/-- The loop with the given body, for at most `fuel` turns. -/
def loop (body : σ → Option (Turn σ ρ)) : Nat → σ → Outcome ρ
  | 0, _ => .outOfFuel
  | fuel + 1, state =>
      match body state with
      | none => .fault
      | some (.stop result) => .finished result
      | some (.again next) => loop body fuel next

/-- The states at the beginning of the turns. -/
inductive Visited (body : σ → Option (Turn σ ρ)) (start : σ) : σ → Prop where
  | start : Visited body start start
  | again {state next : σ} : Visited body start state → body state = some (.again next) →
      Visited body start next

theorem Visited.trans {body : σ → Option (Turn σ ρ)} {start middle state : σ}
    (hfirst : Visited body start middle) (hsecond : Visited body middle state) :
    Visited body start state := by
  induction hsecond with
  | start => exact hfirst
  | again _ hbody ih => exact .again ih hbody

/-- A loop that finishes does so in a state that it visited. -/
theorem loop_stops {body : σ → Option (Turn σ ρ)} {start : σ} {fuel : Nat} {result : ρ}
    (hloop : loop body fuel start = .finished result) :
    ∃ last, Visited body start last ∧ body last = some (.stop result) := by
  induction fuel generalizing start with
  | zero => cases hloop
  | succ fuel ih =>
      unfold loop at hloop
      cases hbody : body start with
      | none => simp [hbody] at hloop
      | some turn =>
          rw [hbody] at hloop
          cases turn with
          | stop stopped =>
              obtain rfl := Outcome.finished.inj hloop
              exact ⟨start, .start, hbody⟩
          | again next =>
              obtain ⟨last, hvisited, hstop⟩ := ih hloop
              exact ⟨last, (Visited.again .start hbody).trans hvisited, hstop⟩

/-- From each state visited a loop that finishes goes on to the same result. -/
theorem Visited.loop_finished {body : σ → Option (Turn σ ρ)} {start state : σ} {fuel : Nat}
    {result : ρ} (hvisited : Visited body start state)
    (hloop : loop body fuel start = .finished result) :
    ∃ left, loop body left state = .finished result := by
  induction hvisited with
  | start => exact ⟨fuel, hloop⟩
  | @again state next _ hbody ih =>
      obtain ⟨left, hleft⟩ := ih
      cases left with
      | zero => cases hleft
      | succ left =>
          rw [loop, hbody] at hleft
          exact ⟨left, hleft⟩

/-- A loop that finishes comes to no fault. -/
theorem Visited.ne_none {body : σ → Option (Turn σ ρ)} {start state : σ} {fuel : Nat} {result : ρ}
    (hvisited : Visited body start state) (hloop : loop body fuel start = .finished result) :
    body state ≠ none := by
  intro hnone
  obtain ⟨left, hleft⟩ := hvisited.loop_finished hloop
  cases left with
  | zero => cases hleft
  | succ left =>
      rw [loop, hnone] at hleft
      cases hleft

/-- A loop whose turns all stop or decrease a measure finishes, in a state it visited. -/
theorem loop_finishes {body : σ → Option (Turn σ ρ)} {start : σ} (measure : σ → Nat)
    (hturn : ∀ state, Visited body start state →
      (∃ result, body state = some (.stop result)) ∨
        ∃ next, body state = some (.again next) ∧ measure next < measure state)
    {fuel : Nat} (hfuel : measure start < fuel) :
    ∃ result, loop body fuel start = .finished result := by
  induction fuel generalizing start with
  | zero => exact absurd hfuel (Nat.not_lt_zero _)
  | succ fuel ih =>
      unfold loop
      rcases hturn start .start with ⟨result, hstop⟩ | ⟨next, hagain, hlt⟩
      · exact ⟨result, by rw [hstop]⟩
      · have hnext : Visited body start next := .again .start hagain
        obtain ⟨result, hloop⟩ :=
          ih (fun state hvisited => hturn state (hnext.trans hvisited)) (by omega)
        exact ⟨result, by rw [hagain]; exact hloop⟩

end Machine
