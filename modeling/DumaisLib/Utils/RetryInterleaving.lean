import DumaisLib.Utils.ThreadOrder

/-!
# The retry of a put in two atomic steps

After a lost swap `put` reloads `tail` and then compares it with `head`.  In the runs
of this module other producers and the consumer may move between the two reads.
-/

namespace DumaisLib.Utils.Interleaving

open CircularBuffer

variable {P T : Type} {size : Nat}

/-- Some producers have reloaded `tail` and not yet compared what they read with `head`. -/
structure Retrying (P T : Type) (size : Nat) extends State P T size where
  uncompared : P → Bool

namespace Retrying

variable [NeZero size]

def init (P : Type) (fresh : Fin size → T) : Retrying P T size where
  toState := .init P fresh
  uncompared := fun _ => false

def consume (state : Retrying P T size) : Retrying P T size :=
  { state with toState := Interleaving.consume state.toState }

variable [DecidableEq P]

/-- The next atomic step of `put`: a producer that has reloaded compares before it swaps. -/
def produce (state : Retrying P T size) (p : P) : Option (Retrying P T size) :=
  match state.producer p, state.uncompared p with
  | .reloading item, _ =>
      some {
        toState := state.setProducer p (.swapping item state.ring.tail)
        uncompared := Function.update state.uncompared p true }
  | .swapping _ oldTail, true =>
      if next oldTail = state.ring.head then
        some {
          toState := state.finishPut p false
          uncompared := Function.update state.uncompared p false }
      else
        some { state with uncompared := Function.update state.uncompared p false }
  | _, _ =>
      (Interleaving.produce state.toState p).map fun next => { state with toState := next }

def step (state : Retrying P T size) : Action P T → Option (Retrying P T size)
  | .call p item =>
      (Interleaving.step state.toState (.call p item)).map fun next =>
        { state with toState := next }
  | .produce p => state.produce p
  | .consume => some state.consume

/--
The states of the runs in which never more than `size - 1` puts have begun whose
item has not been removed, and every put that has returned has returned `true`.
-/
inductive Reachable (fresh : Fin size → T) : Retrying P T size → Prop where
  | init : Reachable fresh (init P fresh)
  | step {state next : Retrying P T size} (action : Action P T)
      (reach : Reachable fresh state) (hstep : state.step action = some next)
      (hpending : next.pending ≤ size - 1)
      (hresults : ∀ result ∈ next.putResults, result.2 = true) : Reachable fresh next

variable {state next : Retrying P T size} {p : P}

/-- A comparison refuses the put or changes nothing; every other step is one of the coarser runs. -/
theorem produce_cases (hinv : Inv state.toState) (hstep : state.produce p = some next) :
    Interleaving.produce state.toState p = some next.toState ∨
      next.toState = state.toState ∨
      ∃ item oldTail, state.producer p = .swapping item oldTail ∧ state.uncompared p = true ∧
        CircularBuffer.next oldTail = state.ring.head ∧
        next.toState = state.finishPut p false := by
  rw [produce] at hstep
  split at hstep
  · rename_i item hreloading
    obtain rfl := Option.some.inj hstep
    have hroom := hinv.next_tail_ne_head
      (show (state.producer p).waiting = some item by rw [hreloading]; rfl)
    refine Or.inl ?_
    simp only [Interleaving.produce, hreloading, hroom, if_false]
  · rename_i item oldTail hswapping huncompared
    split at hstep
    · rename_i hfull
      obtain rfl := Option.some.inj hstep
      exact Or.inr (Or.inr ⟨item, oldTail, hswapping, huncompared, hfull, rfl⟩)
    · obtain rfl := Option.some.inj hstep
      exact Or.inr (Or.inl rfl)
  · obtain ⟨coarse, hcoarse, rfl⟩ := Option.map_eq_some_iff.mp hstep
    exact Or.inl hcoarse

/-- The comparison that lets a put go on is no step of the coarser run. -/
theorem Reachable.coarser {fresh : Fin size → T} (reach : Reachable fresh state) :
    Interleaving.Reachable fresh state.toState := by
  induction reach with
  | init => exact .init
  | step action reach hstep hpending hresults ih =>
      cases action with
      | call p item =>
          obtain ⟨coarse, hcoarse, rfl⟩ := Option.map_eq_some_iff.mp hstep
          exact .step _ ih hcoarse hpending
      | produce p =>
          rcases produce_cases (Inv.of_reachable ih) hstep with
            hcoarse | hsame | ⟨item, oldTail, -, -, -, hrefused⟩
          · exact .step (.produce p) ih hcoarse hpending
          · exact hsame ▸ ih
          · have hresult := hresults (p, false) (by
              rw [hrefused]
              exact List.mem_append_right _ List.mem_cons_self)
            cases hresult
      | consume =>
          obtain rfl := Option.some.inj hstep
          exact .step .consume ih rfl hpending

/--
While nothing has been refused, a put is refused only by the comparison after a lost
swap: `head` has moved past what was reloaded, and the ring has room.
-/
theorem Reachable.refused {fresh : Fin size → T} (reach : Reachable fresh state)
    (hstep : state.produce p = some next) (hrefused : (p, false) ∈ next.putResults) :
    ∃ item oldTail, state.producer p = .swapping item oldTail ∧ state.uncompared p = true ∧
      CircularBuffer.next oldTail = state.ring.head ∧
      CircularBuffer.next state.ring.tail ≠ state.ring.head := by
  have hinv := Inv.of_reachable reach.coarser
  rcases produce_cases hinv hstep with
    hcoarse | hsame | ⟨item, oldTail, hswapping, huncompared, hfull, -⟩
  · cases (hinv.produce hcoarse).results _ hrefused
  · cases hinv.results _ (hsame ▸ hrefused)
  · exact ⟨item, oldTail, hswapping, huncompared, hfull,
      hinv.next_tail_ne_head (show (state.producer p).waiting = some item by
        rw [hswapping]; rfl)⟩

-- Between the two reads the other producer passes the slot and the consumer follows it.
example :
    ((List.foldlM step (init Bool fun _ : Fin 3 => 0)
      ([.call false 4, .produce false, .call true 5] ++ List.replicate 5 (.produce true) ++
        List.replicate 2 (.produce false) ++ List.replicate 5 .consume ++ [.call true 6] ++
        List.replicate 5 (.produce true) ++ List.replicate 5 .consume ++
        [.produce false])).map fun state => state.putResults) =
      some [(true, true), (true, true), (false, false)] := by
  decide

end Retrying

end DumaisLib.Utils.Interleaving
