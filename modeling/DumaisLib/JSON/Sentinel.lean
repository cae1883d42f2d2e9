import DumaisLib.JSON.Instances

/-!
# The invalid instance

A lookup that finds nothing returns the one invalid instance, on which every
operation can then be called.  All of them leave it alone but the move assignment.
-/

namespace DumaisLib.JSON

open Machine

namespace Heap

/-- The invalid instance is pure and its own root. -/
def Intact (heap : Heap) : Prop :=
  heap.instance? mInvalid = some ⟨some mInvalid, .pure⟩

/-- An operation on what a chain of lookups in a document returns. -/
structure Action where
  document : Address
  path : Path
  operation : Operation

/-- The lookups lead to the invalid instance. -/
def step (heap : Heap) (action : Action) : Option Heap :=
  (heap.locate action.document action.path).bind fun reference =>
    if reference = mInvalid then heap.operate mInvalid action.operation else none

/-- What is claimed of every state, beside that in which the run begins. -/
structure Untouched (start heap : Heap) : Prop where
  root_eq : (heap.instance? mInvalid).map Instance.mRoot = some (some mInvalid)
  str_eq : heap.str mInvalid = some "\x7binvalid\x7d".toList
  invalid : heap.isValid mInvalid = some false
  kept : ∀ address, address ≠ mInvalid → heap.instance? address = start.instance? address
  missing : ∀ document index, start.lookup document index = some mInvalid →
    heap.lookup document index = some mInvalid

/-- A move assignment takes from an instance whose root is the invalid one. -/
def Harmless (heap : Heap) (action : Action) : Prop :=
  ∀ json, action.operation = .moveAssign json →
    (heap.instance? json).map Instance.mRoot = some (some mInvalid)

variable {start heap next : Heap}

theorem Intact.root? (hintact : heap.Intact) :
    heap.root? mInvalid = some (mInvalid, ⟨some mInvalid, .pure⟩) := by
  rw [Intact] at hintact
  simp [Heap.root?, hintact]

theorem Intact.untouched (hintact : heap.Intact) : Untouched heap heap := by
  constructor
  · rw [hintact]
    rfl
  · simp [str, hintact.root?]
  · simp [isValid, hintact.root?]
  · exact fun _ _ => rfl
  · exact fun _ _ hmissing => hmissing

/-- A pointer that is set to what it is. -/
theorem set_self {address : Address} {item : Instance} (hitem : heap.instance? address = some item) :
    heap.set address item = heap := by
  obtain ⟨instances⟩ := heap
  obtain ⟨hlt, hget⟩ := List.getElem?_eq_some_iff.mp (Option.join_eq_some_iff.mp hitem)
  rw [set, ← hget, List.set_getElem_self]

/-- Every operation but the move assignment is defined and leaves everything as it is. -/
theorem operate_of_intact (hintact : heap.Intact) {operation : Operation}
    (hmove : ∀ json, operation ≠ .moveAssign json) :
    heap.operate mInvalid operation = some heap := by
  cases operation with
  | lookup index =>
      rw [operate, lookup, hintact.root?]
      rfl
  | add addition =>
      rw [operate, add, addFrom, hintact]
      rfl
  | parse json => rw [operate, parse, if_pos rfl]
  | parseFile contents => rw [operate, parseFile.eq_def, if_pos rfl]
  | assignScalar val =>
      rw [operate, assignScalar, hintact.root?]
      rfl
  | copyAssign json =>
      rw [operate, copyAssign, hintact]
      split
      · rfl
      · rw [Option.bind_some, assign, if_pos rfl]
  | moveAssign json => exact absurd rfl (hmove json)

theorem instance?_set_ne {address other : Address} (item : Instance) (hne : other ≠ address) :
    (heap.set address item).instance? other = heap.instance? other := by
  rw [instance?, set, List.getElem?_set_ne hne.symm]
  rfl

theorem instance?_set {address : Address} {found : Instance} (item : Instance)
    (hfound : heap.instance? address = some found) :
    (heap.set address item).instance? address = some item := by
  have hlt := (List.getElem?_eq_some_iff.mp (Option.join_eq_some_iff.mp hfound)).1
  rw [instance?, set, List.getElem?_set_self hlt]
  rfl

/-- A move assignment gives the invalid instance the root of the other one. -/
theorem moveAssign_of_intact (hintact : heap.Intact) {json : Address}
    (hnext : heap.moveAssign mInvalid json = some next) :
    ∃ other, heap.instance? json = some other ∧
      (next.instance? mInvalid).map Instance.mRoot = some other.mRoot ∧
      (other.mRoot = some mInvalid → next = heap) := by
  rw [moveAssign] at hnext
  split at hnext
  · rename_i hself
    obtain rfl := Option.some.inj hnext
    subst hself
    exact ⟨_, hintact, by rw [hintact]; rfl, fun _ => rfl⟩
  · rename_i hne
    rw [hintact] at hnext
    obtain ⟨other, hother, rfl⟩ := Option.map_eq_some_iff.mp hnext
    refine ⟨other, hother, ?_, fun hroot => ?_⟩
    · rw [instance?_set_ne _ hne, instance?_set _ hintact]
      rfl
    · have hsame : { other with mRoot := some mInvalid } = other := by rw [← hroot]
      rw [hroot, set_self hintact, hsame, set_self hother]

/-- A harmless operation leaves everything as it is. -/
theorem step_of_harmless (hintact : heap.Intact) {action : Action}
    (hharmless : heap.Harmless action) (hnext : heap.step action = some next) : next = heap := by
  obtain ⟨reference, -, hoperate⟩ := Option.bind_eq_some_iff.mp hnext
  split at hoperate
  · by_cases hmove : ∃ json, action.operation = .moveAssign json
    · obtain ⟨json, hjson⟩ := hmove
      rw [hjson] at hoperate
      obtain ⟨other, hother, -, hkept⟩ := moveAssign_of_intact hintact hoperate
      have hroot := hharmless json hjson
      rw [hother] at hroot
      exact hkept (Option.some.inj hroot)
    · rw [operate_of_intact hintact fun json hjson => hmove ⟨json, hjson⟩] at hoperate
      exact (Option.some.inj hoperate).symm
  · cases hoperate

/-- Any other one puts another root in place of the invalid instance. -/
theorem step_of_not_harmless (hintact : heap.Intact) {action : Action}
    (hharmless : ¬ heap.Harmless action) (hnext : heap.step action = some next) :
    ¬ Untouched start next := by
  intro huntouched
  refine hharmless fun json hjson => ?_
  obtain ⟨reference, -, hoperate⟩ := Option.bind_eq_some_iff.mp hnext
  split at hoperate
  · rw [hjson] at hoperate
    obtain ⟨other, hother, hroot, -⟩ := moveAssign_of_intact hintact hoperate
    rw [hother, ← huntouched.root_eq, hroot]
    rfl
  · cases hoperate

end Heap

/-- Documents in memory, beside the invalid instance. -/
structure Documents where
  heap : Heap
  intact : heap.Intact

open Heap in
/--
Whatever is done with the results of lookups that find nothing, the invalid
instance and all documents stay as they are exactly when no move assignment
takes from another instance.
-/
theorem invalid_untouched_iff (documents : Documents) (actions : List Action) :
    Always Heap.step (Untouched documents.heap) documents.heap actions ↔
      Admitted Heap.step Harmless documents.heap actions := by
  refine @always_iff_admitted _ _ Heap.step Harmless (fun heap => heap = documents.heap)
    (Untouched documents.heap) ?_ ?_ ?_ _ rfl actions
  · rintro heap rfl
    exact documents.intact.untouched
  · rintro heap action next rfl hharmless hnext
    exact step_of_harmless documents.intact hharmless hnext
  · rintro heap action next rfl hharmless hnext
    exact step_of_not_harmless documents.intact hharmless hnext

/-- A document without members, and one that holds the value `x`. -/
def twoDocuments : Documents where
  heap := ⟨[some ⟨some 0, .pure⟩, some ⟨some 2, .pure⟩, some ⟨some 2, .Object []⟩,
    some ⟨some 4, .pure⟩, some ⟨some 4, .Value "x".toList .String⟩]⟩
  intact := rfl

/-- `json["key"] = std::move(other)` -/
theorem moved_into_invalid :
    ¬ Always Heap.step (Heap.Untouched twoDocuments.heap) twoDocuments.heap
      [⟨1, [.key "key".toList], .moveAssign 3⟩] := by
  intro halways
  have hnext := (halways.2 _ rfl).root_eq
  cases hnext

end DumaisLib.JSON
