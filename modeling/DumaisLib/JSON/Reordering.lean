import DumaisLib.JSON.Building
import Mathlib.Data.List.Perm.Basic

/-!
# Orders of members

A table enumerates the members of its object in an order of its own.  What is
printed is the tree with the members of every object in such an order.
-/

namespace DumaisLib.JSON

/-- The same tree, with the members of each object in any order. -/
inductive Reordered : Node → Node → Prop where
  | object {mMembers enumerated mMembers' : List (Text × Node)} :
      enumerated.Perm mMembers → enumerated.length = mMembers'.length →
      (∀ pair ∈ enumerated.zip mMembers', pair.1.1 = pair.2.1) →
      (∀ pair ∈ enumerated.zip mMembers', Reordered pair.1.2 pair.2.2) →
      Reordered (.Object mMembers) (.Object mMembers')
  | list {mMembers mMembers' : List Node} : mMembers.length = mMembers'.length →
      (∀ pair ∈ mMembers.zip mMembers', Reordered pair.1 pair.2) →
      Reordered (.List mMembers) (.List mMembers')
  | value {mValue mSubType} : Reordered (.Value mValue mSubType) (.Value mValue mSubType)

/-! ## Lists side by side -/

section Sides

variable {α β γ : Type} {relates : α → β → Prop} {first : List α} {second : List β}

theorem forall₂_of_zip (hlength : first.length = second.length)
    (hpairs : ∀ pair ∈ first.zip second, relates pair.1 pair.2) :
    List.Forall₂ relates first second :=
  List.forall₂_iff_zip.mpr ⟨hlength, fun hmem => hpairs _ hmem⟩

theorem zip_of_forall₂ (hforall : List.Forall₂ relates first second) :
    first.length = second.length ∧ ∀ pair ∈ first.zip second, relates pair.1 pair.2 := by
  obtain ⟨hlength, hpairs⟩ := List.forall₂_iff_zip.mp hforall
  exact ⟨hlength, fun pair hmem => hpairs hmem⟩

theorem exists_of_mem_right (hforall : List.Forall₂ relates first second) {item : β}
    (hmem : item ∈ second) : ∃ other ∈ first, relates other item := by
  induction hforall with
  | nil => cases hmem
  | cons hhead _ ih =>
      rcases List.mem_cons.mp hmem with rfl | hlater
      · exact ⟨_, List.mem_cons_self, hhead⟩
      · obtain ⟨other, hother, hrelates⟩ := ih hlater
        exact ⟨other, List.mem_cons_of_mem _ hother, hrelates⟩

theorem forall₂_compose {relates' : β → γ → Prop} {third : List γ}
    (hforall : List.Forall₂ relates first second) (hforall' : List.Forall₂ relates' second third) :
    List.Forall₂ (Relation.Comp relates relates') first third := by
  induction hforall generalizing third with
  | nil =>
      cases hforall'
      exact .nil
  | cons hhead _ ih =>
      cases hforall' with
      | cons hhead' hrest' => exact .cons ⟨_, hhead, hhead'⟩ (ih hrest')

/-- Another order of the second list is matched by another order of the first. -/
theorem exists_perm_of_forall₂ (hforall : List.Forall₂ relates first second) {second' : List β}
    (hperm : second.Perm second') :
    ∃ first', first.Perm first' ∧ List.Forall₂ relates first' second' := by
  have hcomp : Relation.Comp (List.Forall₂ relates) List.Perm first second' :=
    ⟨second, hforall, hperm⟩
  rwa [List.forall₂_comp_perm_eq_perm_comp_forall₂] at hcomp

end Sides

/-! ## Reordered trees -/

/-- A member with the same key, whose node is a reordered one. -/
def SameMember (member member' : Text × Node) : Prop :=
  member.1 = member'.1 ∧ Reordered member.2 member'.2

theorem reordered_object_iff {mMembers mMembers' : List (Text × Node)} :
    Reordered (.Object mMembers) (.Object mMembers') ↔
      ∃ enumerated, enumerated.Perm mMembers ∧
        List.Forall₂ SameMember enumerated mMembers' := by
  constructor
  · rintro (⟨hperm, hlength, hkeys, hnodes⟩)
    exact ⟨_, hperm, forall₂_of_zip hlength fun pair hpair => ⟨hkeys pair hpair, hnodes pair hpair⟩⟩
  · rintro ⟨enumerated, hperm, hmembers⟩
    obtain ⟨hlength, hpairs⟩ := zip_of_forall₂ hmembers
    exact .object hperm hlength (fun pair hpair => (hpairs pair hpair).1)
      fun pair hpair => (hpairs pair hpair).2

theorem reordered_list_iff {mMembers mMembers' : List Node} :
    Reordered (.List mMembers) (.List mMembers') ↔
      List.Forall₂ Reordered mMembers mMembers' := by
  constructor
  · rintro (_ | ⟨hlength, hnodes⟩)
    exact forall₂_of_zip hlength hnodes
  · intro hmembers
    obtain ⟨hlength, hpairs⟩ := zip_of_forall₂ hmembers
    exact .list hlength hpairs

theorem Reordered.refl (node : Node) : Reordered node node := by
  induction node using Node.children_induction with
  | object mMembers ih =>
      refine reordered_object_iff.mpr ⟨mMembers, .refl _,
        List.forall₂_same.mpr fun member hmem => ?_⟩
      exact ⟨rfl, ih member hmem⟩
  | list mMembers ih => exact reordered_list_iff.mpr (List.forall₂_same.mpr ih)
  | value mValue mSubType => exact .value

theorem Reordered.symm {node node' : Node} (hreordered : Reordered node node') :
    Reordered node' node := by
  induction hreordered with
  | @object mMembers enumerated mMembers' hperm hlength hkeys _ ih =>
      have hback : List.Forall₂ (flip SameMember) enumerated mMembers' :=
        forall₂_of_zip hlength fun pair hpair => ⟨(hkeys pair hpair).symm, ih pair hpair⟩
      obtain ⟨enumerated', hperm', hmembers⟩ := exists_perm_of_forall₂ hback.flip hperm
      exact reordered_object_iff.mpr ⟨enumerated', hperm'.symm, hmembers⟩
  | @list mMembers mMembers' hlength _ ih =>
      have hback : List.Forall₂ (flip Reordered) mMembers mMembers' := forall₂_of_zip hlength ih
      exact reordered_list_iff.mpr hback.flip
  | value => exact .value

section Members

variable {mMembers mMembers' : List (Text × Node)}

/-- Every member is one of the tree before. -/
theorem Reordered.member (hreordered : Reordered (.Object mMembers) (.Object mMembers'))
    {member' : Text × Node} (hmember' : member' ∈ mMembers') :
    ∃ member ∈ mMembers, SameMember member member' := by
  obtain ⟨enumerated, hperm, hmembers⟩ := reordered_object_iff.mp hreordered
  obtain ⟨member, hmember, hsame⟩ := exists_of_mem_right hmembers hmember'
  exact ⟨member, hperm.mem_iff.mp hmember, hsame⟩

theorem Reordered.keys (hreordered : Reordered (.Object mMembers) (.Object mMembers')) :
    (mMembers'.map Prod.fst).Perm (mMembers.map Prod.fst) := by
  obtain ⟨enumerated, hperm, hmembers⟩ := reordered_object_iff.mp hreordered
  have hkeys : enumerated.map Prod.fst = mMembers'.map Prod.fst := by
    rw [← List.forall₂_eq_eq_eq, List.forall₂_map_left_iff, List.forall₂_map_right_iff]
    exact hmembers.imp fun _ _ hsame => hsame.1
  rw [← hkeys]
  exact hperm.map Prod.fst

end Members

/-! ## What reordering keeps -/

/--
The property is about every node by itself: of an object it asks something of the
keys, whatever their order is.
-/
structure NodeWise (holds : Node → Prop) (keysHold : List Text → Prop) : Prop where
  perm : ∀ {keys keys' : List Text}, keys.Perm keys' → keysHold keys → keysHold keys'
  object : ∀ {mMembers : List (Text × Node)}, holds (.Object mMembers) ↔
    keysHold (mMembers.map Prod.fst) ∧ ∀ member ∈ mMembers, holds member.2
  list : ∀ {mMembers : List Node}, holds (.List mMembers) ↔ ∀ child ∈ mMembers, holds child

theorem NodeWise.reordered {holds : Node → Prop} {keysHold : List Text → Prop}
    (hwise : NodeWise holds keysHold) {node node' : Node} (hreordered : Reordered node node')
    (hholds : holds node) : holds node' := by
  induction node using Node.children_induction generalizing node' with
  | object mMembers ih =>
      cases node' with
      | Object mMembers' =>
          obtain ⟨hkeys, hchildren⟩ := hwise.object.mp hholds
          refine hwise.object.mpr ⟨hwise.perm hreordered.keys.symm hkeys,
            fun member' hmember' => ?_⟩
          obtain ⟨member, hmember, -, hsame⟩ := hreordered.member hmember'
          exact ih member hmember hsame (hchildren member hmember)
      | List mMembers' => cases hreordered
      | Value mValue mSubType => cases hreordered
  | list mMembers ih =>
      cases node' with
      | Object mMembers' => cases hreordered
      | List mMembers' =>
          refine hwise.list.mpr fun child' hchild' => ?_
          obtain ⟨child, hchild, hsame⟩ :=
            exists_of_mem_right (reordered_list_iff.mp hreordered) hchild'
          exact ih child hchild hsame (hwise.list.mp hholds child hchild)
      | Value mValue mSubType => cases hreordered
  | value mValue mSubType =>
      cases hreordered
      exact hholds

end DumaisLib.JSON
