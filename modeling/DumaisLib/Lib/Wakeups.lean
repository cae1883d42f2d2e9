import Mathlib.Logic.Basic

/-!
# Wake-ups that are not lost

A thread has duties.  Work for a duty may come up at any time; whoever brings it
gives a signal, which the thread takes when it waits, and the thread then attends to
the duty until no work is left.  Nothing is lost as long as work is signalled or
attended to.
-/

namespace Wakeups

variable {σ δ : Type*}

/-- What a state says about each duty. -/
structure Watch (σ δ : Type*) where
  work : σ → δ → Prop
  signalled : σ → δ → Prop
  attended : σ → δ → Prop

namespace Watch

variable (watch : Watch σ δ)

/-- There is no work that nobody will look at. -/
def NothingLost (state : σ) : Prop :=
  ∀ duty, watch.work state duty → watch.signalled state duty ∨ watch.attended state duty

/-- New work is signalled. -/
def Signals (state next : σ) : Prop :=
  ∀ duty, watch.work next duty →
    watch.work state duty ∨ watch.signalled next duty ∨ watch.attended next duty

/-- A signal is only taken to attend to the duty. -/
def KeepsSignals (state next : σ) : Prop :=
  ∀ duty, watch.work next duty → watch.signalled state duty →
    watch.signalled next duty ∨ watch.attended next duty

/-- A duty is attended to until no work is left. -/
def Attends (state next : σ) : Prop :=
  ∀ duty, watch.work next duty → watch.attended state duty →
    watch.signalled next duty ∨ watch.attended next duty

variable {watch}

theorem NothingLost.next {state next : σ} (hnothing : watch.NothingLost state)
    (hsignals : watch.Signals state next) (hkeeps : watch.KeepsSignals state next)
    (hattends : watch.Attends state next) : watch.NothingLost next := by
  intro duty hwork
  rcases hsignals duty hwork with hold | hnow
  · rcases hnothing duty hold with hsignalled | hattended
    · exact hkeeps duty hwork hsignalled
    · exact hattends duty hwork hattended
  · exact hnow

/-- A thread that waits without a signal has nothing to do. -/
theorem NothingLost.idle {state : σ} (hnothing : watch.NothingLost state) {duty : δ}
    (hsignalled : ¬ watch.signalled state duty) (hattended : ¬ watch.attended state duty) :
    ¬ watch.work state duty :=
  fun hwork => (hnothing duty hwork).elim hsignalled hattended

end Watch

end Wakeups
