import DumaisLib.Utils.MPSCInterleaving

/-!
# The order of each producer

A producer reserves the slots of its puts in the order in which it begins them,
whatever the others do.
-/

namespace DumaisLib.Utils.Interleaving

variable {P T : Type} {size : Nat} [DecidableEq P]

/-- The entries of one producer. -/
def ofProducer (p : P) (entries : List (P × T)) : List (P × T) :=
  entries.filter fun entry => entry.1 = p

theorem ofProducer_append (p : P) (entries later : List (P × T)) :
    ofProducer p (entries ++ later) = ofProducer p entries ++ ofProducer p later :=
  List.filter_append ..

theorem ofProducer_same (p : P) (item : T) : ofProducer p [(p, item)] = [(p, item)] := by
  simp [ofProducer]

theorem ofProducer_other {p q : P} (hne : q ≠ p) (item : T) : ofProducer p [(q, item)] = [] := by
  simp [ofProducer, hne]

/-- What a producer has begun are its reservations, and the put that it has not reserved yet. -/
def InOwnOrder (state : State P T size) : Prop :=
  ∀ p, ofProducer p state.begun =
    ofProducer p state.reserved ++ (state.producer p).waiting.toList.map fun item => (p, item)

variable {state next : State P T size}

/-- A step that neither begins nor reserves anything. -/
theorem InOwnOrder.of_eq (horder : InOwnOrder state) (hbegun : next.begun = state.begun)
    (hreserved : next.reserved = state.reserved)
    (hwaiting : ∀ p, (next.producer p).waiting = (state.producer p).waiting) :
    InOwnOrder next := by
  intro p
  rw [hbegun, hreserved, hwaiting]
  exact horder p

variable [NeZero size]

theorem InOwnOrder.call (horder : InOwnOrder state) {p : P} {item : T}
    (hstep : step state (.call p item) = some next) : InOwnOrder next := by
  rw [step] at hstep
  split at hstep
  · rename_i hidle
    obtain rfl := Option.some.inj hstep
    intro q
    by_cases hq : q = p
    · subst hq
      have hbefore := horder q
      have hnone : (Producer.idle : Producer T size).waiting = none := rfl
      rw [hidle, hnone, Option.toList_none, List.map_nil, List.append_nil] at hbefore
      simp only [ofProducer_append, ofProducer_same, hbefore, State.setProducer,
        Function.update_self]
      rfl
    · simp only [ofProducer_append, ofProducer_other (Ne.symm hq), List.append_nil,
        State.setProducer, Function.update_of_ne hq]
      exact horder q
  · cases hstep

theorem InOwnOrder.produce (horder : InOwnOrder state) {p : P}
    (hstep : produce state p = some next)
    (hresults : ∀ result ∈ next.putResults, result.2 = true) : InOwnOrder next := by
  have hfails : ¬ (p, false) ∈ next.putResults := fun hmem => Bool.noConfusion (hresults _ hmem)
  rw [Interleaving.produce] at hstep
  split at hstep
  · cases hstep
  · rename_i item hloading
    obtain rfl := Option.some.inj hstep
    exact horder.of_eq rfl rfl (state.setProducer_waiting (by rw [hloading]; rfl))
  · rename_i item oldTail hswapping
    split at hstep
    · obtain rfl := Option.some.inj hstep
      intro q
      by_cases hq : q = p
      · subst hq
        have hbefore := horder q
        rw [hswapping] at hbefore
        simp only [ofProducer_append, ofProducer_same, State.setProducer, Function.update_self]
        refine hbefore.trans ?_
        rw [List.append_assoc]
        rfl
      · simp only [ofProducer_append, ofProducer_other (Ne.symm hq), List.append_nil,
          State.setProducer, Function.update_of_ne hq]
        exact horder q
    · obtain rfl := Option.some.inj hstep
      exact horder.of_eq rfl rfl (state.setProducer_waiting (by rw [hswapping]; rfl))
  · rename_i item hreloading
    split at hstep
    · obtain rfl := Option.some.inj hstep
      exact absurd (List.mem_append_right _ List.mem_cons_self) hfails
    · obtain rfl := Option.some.inj hstep
      exact horder.of_eq rfl rfl (state.setProducer_waiting (by rw [hreloading]; rfl))
  · rename_i item oldTail hchecking
    split at hstep
    · obtain rfl := Option.some.inj hstep
      exact absurd (List.mem_append_right _ List.mem_cons_self) hfails
    · obtain rfl := Option.some.inj hstep
      exact horder.of_eq rfl rfl (state.setProducer_waiting (by rw [hchecking]; rfl))
  · rename_i item oldTail hwriting
    obtain rfl := Option.some.inj hstep
    exact horder.of_eq rfl rfl (state.setProducer_waiting (by rw [hwriting]; rfl))
  · rename_i item oldTail hpublishing
    obtain rfl := Option.some.inj hstep
    exact horder.of_eq rfl rfl (state.setProducer_waiting (by rw [hpublishing]; rfl))

theorem InOwnOrder.consume (horder : InOwnOrder state) : InOwnOrder (consume state) := by
  rw [Interleaving.consume]
  split
  · split <;> exact horder
  · split <;> exact horder
  · exact horder
  · exact horder
  · exact horder

/-- In every run with bounded puts each producer keeps its order. -/
theorem InOwnOrder.of_reachable {fresh : Fin size → T} (reach : Reachable fresh state) :
    InOwnOrder state := by
  induction reach with
  | init =>
      intro p
      rfl
  | step action reach hstep hpending ih =>
      have hresults := (bounded_runs_deliver_in_order (.step action reach hstep hpending)).1
      cases action with
      | call p item => exact ih.call hstep
      | produce p => exact ih.produce hstep hresults
      | consume =>
          obtain rfl := Option.some.inj hstep
          exact ih.consume

end DumaisLib.Utils.Interleaving
