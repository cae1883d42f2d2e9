import DumaisLib.Lib.Machine
import DumaisLib.Rest.RESTEngine

/-!
# The registry and the callbacks that it deletes

An engine is used for any number of calls; when it is destroyed another one takes
its place.  No deleted callback is used as long as no removal finds a callback
twice under one method, and no destructor finds one twice at all.
-/

namespace DumaisLib.Rest

open Machine DumaisLib.JSON

variable {Regex Data : Type}

/-! ## Entries -/

/-- Erasing the first of at most one is erasing all. -/
theorem eraseP_eq_filter {α : Type} {test : α → Bool} {list : List α}
    (hcount : list.countP test ≤ 1) : list.eraseP test = list.filter (!test ·) := by
  induction list with
  | nil => rfl
  | cons item list ih =>
      by_cases htest : test item
      · have hnone : list.countP test = 0 := by
          rw [List.countP_cons_of_pos htest] at hcount
          omega
        rw [List.eraseP_cons_of_pos htest, List.filter_cons_of_neg (by simp [htest])]
        refine (List.filter_eq_self.mpr fun other hother => ?_).symm
        simpa using List.countP_eq_zero.mp hnone other hother
      · rw [List.countP_cons_of_neg htest] at hcount
        rw [List.eraseP_cons_of_neg htest, List.filter_cons_of_pos (by simp [htest]), ih hcount]

/-- Of more than one the others stay. -/
theorem exists_mem_eraseP {α : Type} {test : α → Bool} {list : List α}
    (hcount : ¬ list.countP test ≤ 1) : ∃ item ∈ list.eraseP test, test item = true := by
  induction list with
  | nil => exact absurd (Nat.zero_le 1) hcount
  | cons item list ih =>
      by_cases htest : test item
      · rw [List.countP_cons_of_pos htest] at hcount
        rw [List.eraseP_cons_of_pos htest]
        exact List.countP_pos_iff.mp (by omega)
      · rw [List.countP_cons_of_neg htest] at hcount
        rw [List.eraseP_cons_of_neg htest]
        obtain ⟨other, hother, htrue⟩ := ih hcount
        exact ⟨other, List.mem_cons_of_mem _ hother, htrue⟩

/-- The new entry is the only one that a push adds, and its method is the given one. -/
theorem mem_entries_push {method : Text} {ri : ResourceIdentifier Regex}
    {mCallbacks : CallbackMap Regex} {entry : Text × ResourceIdentifier Regex} :
    entry ∈ ((mCallbacks.push method ri).flatMap fun keyed =>
        keyed.2.map fun ri => (keyed.1, ri)) ↔
      entry = (method, ri) ∨
        entry ∈ mCallbacks.flatMap fun keyed => keyed.2.map fun ri => (keyed.1, ri) := by
  induction mCallbacks with
  | nil => simp [CallbackMap.push]
  | cons keyed mCallbacks ih =>
      obtain ⟨key, list⟩ := keyed
      simp only [CallbackMap.push]
      split
      · rename_i hsame
        subst hsame
        simp only [List.flatMap_cons, List.mem_append, List.map_append, List.map_singleton,
          List.mem_singleton]
        tauto
      · split
        · simp
        · simp only [List.flatMap_cons, List.mem_append, ih]
          tauto

theorem map_snd_entries (mCallbacks : CallbackMap Regex) :
    (mCallbacks.flatMap fun keyed => keyed.2.map fun ri => (keyed.1, ri)).map Prod.snd =
      mCallbacks.flatMap Prod.snd := by
  rw [List.map_flatMap]
  simp [Function.comp_def]

theorem mem_push {method : Text} {ri other : ResourceIdentifier Regex}
    {mCallbacks : CallbackMap Regex} :
    other ∈ (mCallbacks.push method ri).flatMap Prod.snd ↔
      other = ri ∨ other ∈ mCallbacks.flatMap Prod.snd := by
  rw [← map_snd_entries, ← map_snd_entries, List.mem_map, List.mem_map]
  constructor
  · rintro ⟨entry, hentry, rfl⟩
    rcases mem_entries_push.mp hentry with rfl | hold
    · exact Or.inl rfl
    · exact Or.inr ⟨entry, hold, rfl⟩
  · rintro (rfl | ⟨entry, hold, rfl⟩)
    · exact ⟨(method, other), mem_entries_push.mpr (Or.inl rfl), rfl⟩
    · exact ⟨entry, mem_entries_push.mpr (Or.inr hold), rfl⟩

namespace RESTEngine

/-- The lists without the entries of a callback. -/
def without (p : CallbackPointer) : CallbackMap Regex → CallbackMap Regex :=
  List.map fun keyed => (keyed.1, keyed.2.filter (·.mpCallback ≠ p))

/-- The callback stands at most once under each method. -/
def AtMostOnce (engine : RESTEngine Regex Data) (p : CallbackPointer) : Prop :=
  ∀ keyed ∈ engine.mCallbacks, keyed.2.countP (·.mpCallback = p) ≤ 1

/-- No entry refers to a deleted callback. -/
def NoneDeleted (engine : RESTEngine Regex Data) : Prop :=
  ∀ ri ∈ engine.entries, (engine.deref ri.mpCallback).isSome

variable {regexes : RegexLibrary Regex} {engine next : RESTEngine Regex Data} {p : CallbackPointer}

theorem mem_eraseFirst {ri : ResourceIdentifier Regex}
    (hmem : ri ∈ (eraseFirst p engine.mCallbacks).flatMap Prod.snd) : ri ∈ engine.entries := by
  obtain ⟨erased, herased, hri⟩ := List.mem_flatMap.mp hmem
  obtain ⟨keyed, hkeyed, rfl⟩ := List.mem_map.mp herased
  exact List.mem_flatMap.mpr ⟨keyed, hkeyed, List.mem_of_mem_eraseP hri⟩

/-- With at most one entry in each list, all entries of the callback go. -/
theorem eraseFirst_eq_without (honce : engine.AtMostOnce p) :
    eraseFirst p engine.mCallbacks = without p engine.mCallbacks := by
  refine List.map_congr_left fun keyed hkeyed => ?_
  rw [eraseP_eq_filter (honce keyed hkeyed)]
  simp

theorem mpCallback_ne_of_mem_without {ri : ResourceIdentifier Regex}
    (hmem : ri ∈ (without p engine.mCallbacks).flatMap Prod.snd) : ri.mpCallback ≠ p := by
  obtain ⟨kept, hkept, hri⟩ := List.mem_flatMap.mp hmem
  obtain ⟨keyed, -, rfl⟩ := List.mem_map.mp hkept
  simpa using (List.mem_filter.mp hri).2

/-- Otherwise one of them stays. -/
theorem exists_mem_eraseFirst (honce : ¬ engine.AtMostOnce p) :
    ∃ ri ∈ (eraseFirst p engine.mCallbacks).flatMap Prod.snd, ri.mpCallback = p := by
  simp only [AtMostOnce, not_forall] at honce
  obtain ⟨keyed, hkeyed, hcount⟩ := honce
  obtain ⟨ri, hri, hp⟩ := exists_mem_eraseP hcount
  exact ⟨ri, List.mem_flatMap.mpr ⟨_, List.mem_map.mpr ⟨keyed, hkeyed, rfl⟩, hri⟩, by simpa using hp⟩

/-! ## Deleting -/

theorem delete_isSome : (engine.delete p).isSome = (engine.deref p).isSome :=
  Option.isSome_map

/-- A deletion touches one callback and no entry. -/
theorem delete_eq_some (hdelete : engine.delete p = some next) :
    next.mCallbacks = engine.mCallbacks ∧ next.deref p = none ∧
      ∀ other, other ≠ p → next.deref other = engine.deref other := by
  obtain ⟨callback, -, rfl⟩ := Option.map_eq_some_iff.mp hdelete
  refine ⟨rfl, ?_, fun other hother => ?_⟩
  · simp only [deref]
    rw [List.getElem?_set_self']
    cases engine.callbacks[p]? <;> rfl
  · simp only [deref]
    rw [List.getElem?_set_ne hother.symm]

/-- Callbacks can be deleted one after the other when they are live and distinct. -/
theorem deleteAll_isSome_iff {list : CallbackList Regex} :
    (list.foldlM (fun engine ri => RESTEngine.delete engine ri.mpCallback) engine).isSome ↔
      (list.map (·.mpCallback)).Nodup ∧ ∀ ri ∈ list, (engine.deref ri.mpCallback).isSome := by
  induction list generalizing engine with
  | nil => simp
  | cons ri list ih =>
      rw [List.foldlM_cons, List.map_cons, List.nodup_cons, List.forall_mem_cons]
      cases hdelete : engine.delete ri.mpCallback with
      | none =>
          have hdead : ¬ (engine.deref ri.mpCallback).isSome := by
            rw [← delete_isSome, hdelete]
            exact Bool.noConfusion
          exact iff_of_false Bool.noConfusion fun hall => hdead hall.2.1
      | some next =>
          have hlive : (engine.deref ri.mpCallback).isSome := by
            rw [← delete_isSome, hdelete]
            rfl
          obtain ⟨-, hgone, hothers⟩ := delete_eq_some hdelete
          have hrest := @ih next
          rw [show (some next >>= fun engine => list.foldlM (fun engine ri =>
            RESTEngine.delete engine ri.mpCallback) engine) = list.foldlM (fun engine ri =>
            RESTEngine.delete engine ri.mpCallback) next from rfl, hrest]
          constructor
          · rintro ⟨hdistinct, hall⟩
            have hnew : ri.mpCallback ∉ list.map (·.mpCallback) := by
              intro hmem
              obtain ⟨other, hother, heq⟩ := List.mem_map.mp hmem
              have hlive' := hall other hother
              rw [heq, hgone] at hlive'
              exact Bool.noConfusion hlive'
            refine ⟨⟨hnew, hdistinct⟩, hlive, fun other hother => ?_⟩
            have hne : other.mpCallback ≠ ri.mpCallback := fun heq =>
              hnew (List.mem_map.mpr ⟨other, hother, heq⟩)
            rw [← hothers _ hne]
            exact hall other hother
          · rintro ⟨⟨hnew, hdistinct⟩, -, hall⟩
            refine ⟨hdistinct, fun other hother => ?_⟩
            have hne : other.mpCallback ≠ ri.mpCallback := fun heq =>
              hnew (List.mem_map.mpr ⟨other, hother, heq⟩)
            rw [hothers _ hne]
            exact hall other hother

/-! ## Using -/

/-- A fold whose steps all succeed does. -/
theorem foldlM_isSome {α β : Type} {step : β → α → Option β} {list : List α}
    (hsteps : ∀ item ∈ list, ∀ start, (step start item).isSome) (start : β) :
    (list.foldlM step start).isSome := by
  induction list generalizing start with
  | nil => rfl
  | cons item list ih =>
      obtain ⟨hfirst, hrest⟩ := List.forall_mem_cons.mp hsteps
      obtain ⟨middle, hmiddle⟩ := Option.isSome_iff_exists.mp (hfirst start)
      rw [List.foldlM_cons, hmiddle]
      exact ih hrest middle

theorem mem_entries {entry : Text × ResourceIdentifier Regex} (hentry : entry ∈ engine.methodEntries) :
    entry.2 ∈ engine.entries := by
  obtain ⟨keyed, hkeyed, hri⟩ := List.mem_flatMap.mp hentry
  obtain ⟨ri, hlisted, rfl⟩ := List.mem_map.mp hri
  exact List.mem_flatMap.mpr ⟨keyed, hkeyed, hlisted⟩

variable (hlive : engine.NoneDeleted)
include hlive

theorem documentInterface_isSome (json : Node) : (engine.documentInterface json).isSome :=
  foldlM_isSome (fun _ hentry _ => by
    rw [Option.isSome_map]
    exact hlive _ (mem_entries hentry)) _

theorem documentSwaggerInterface_isSome (json : Node)
    (version title description schemes host basePath : Text) :
    (engine.documentSwaggerInterface json version title description schemes host
      basePath).isSome := by
  rw [documentSwaggerInterface, Option.isSome_map]
  exact foldlM_isSome (fun _ hentry _ => by
    rw [Option.isSome_map]
    exact hlive _ (mem_entries hentry)) _

theorem invoke_isSome (j : Node) (url method data : Text) (userData : Option Data) :
    (engine.invoke regexes j url method data userData).isSome := by
  rw [invoke]
  cases hlookup : engine.mCallbacks.lookup (Text.toUpper method) with
  | none => rfl
  | some list =>
      dsimp only
      split
      · rfl
      · rename_i hfound
        obtain ⟨ri, hri, hmatch⟩ := List.exists_of_findSome?_eq_some hfound
        obtain ⟨groups, -, heq⟩ := Option.map_eq_some_iff.mp hmatch
        obtain ⟨rfl, rfl⟩ := Prod.mk.inj heq
        obtain ⟨before, after, hsplit, -⟩ := List.lookup_eq_some_iff.mp hlookup
        have hkeyed : (Text.toUpper method, list) ∈ engine.mCallbacks := by
          rw [hsplit]
          exact List.mem_append_right _ List.mem_cons_self
        rw [Option.isSome_map]
        exact hlive ri (List.mem_flatMap.mpr ⟨_, hkeyed, hri⟩)

omit hlive

/-! ## Runs -/

/-- A call, with all its arguments. -/
inductive Call (Data : Type) where
  | newCallBack (callback : RESTCallBack Data)
  | addCallBack (uri method : Text) (p : CallbackPointer)
  | removeCallBack (p : CallbackPointer)
  | invoke (j : Node) (url method data : Text) (userData : Option Data)
  | documentInterface (json : Node)
  | documentSwaggerInterface (json : Node)
      (version title description schemes host basePath : Text)
  | destroy

/-- A call that uses a deleted callback is disabled. -/
def step (regexes : RegexLibrary Regex) (engine : RESTEngine Regex Data) :
    Call Data → Option (RESTEngine Regex Data)
  | .newCallBack callback => some (engine.newCallBack callback)
  | .addCallBack uri method p => some (engine.addCallBack regexes uri method p)
  | .removeCallBack p => engine.removeCallBack p
  | .invoke j url method data userData =>
      (engine.invoke regexes j url method data userData).map fun _ => engine
  | .documentInterface json => (engine.documentInterface json).map fun _ => engine
  | .documentSwaggerInterface json version title description schemes host basePath =>
      (engine.documentSwaggerInterface json version title description schemes host basePath).map
        fun _ => engine
  | .destroy => engine.destroy

/--
The call uses no deleted callback and leaves no entry of one; a removal takes
out exactly the entries of its callback.
-/
def Safe (regexes : RegexLibrary Regex) (engine : RESTEngine Regex Data) (call : Call Data) : Prop :=
  ∃ next, engine.step regexes call = some next ∧ next.NoneDeleted ∧
    ∀ p, call = .removeCallBack p → next.mCallbacks = without p engine.mCallbacks

/--
What the call needs: a live callback to register; one to remove that stands at
most once under each method; no callback that stands twice when the engine goes.
-/
def Allowed (regexes : RegexLibrary Regex) (engine : RESTEngine Regex Data) : Call Data → Prop
  | .addCallBack uri _ p => (regexes.assign uri).isSome → (engine.deref p).isSome
  | .removeCallBack p => (engine.deref p).isSome ∧ engine.AtMostOnce p
  | .destroy => (engine.entries.map (·.mpCallback)).Nodup
  | _ => True

/-- Any other call is safe when it succeeds and leaves no entry of a deleted callback. -/
theorem safe_of_step {call : Call Data} (hcall : ∀ p, call ≠ .removeCallBack p)
    (hstep : engine.step regexes call = some next) (hnext : next.NoneDeleted) :
    Safe regexes engine call :=
  ⟨next, hstep, hnext, fun p hremove => absurd hremove (hcall p)⟩

/-- A new callback leaves those alone that exist. -/
theorem deref_newCallBack (hlive : (engine.deref p).isSome) (callback : RESTCallBack Data) :
    (engine.newCallBack callback).deref p = engine.deref p := by
  obtain ⟨found, hfound⟩ := Option.isSome_iff_exists.mp hlive
  have hget : engine.callbacks[p]? = some (some found) := Option.join_eq_some_iff.mp hfound
  have hlt := (List.getElem?_eq_some_iff.mp hget).1
  simp only [deref, newCallBack]
  rw [List.getElem?_append_left hlt]

theorem noneDeleted_newCallBack (hlive : engine.NoneDeleted) (callback : RESTCallBack Data) :
    (engine.newCallBack callback).NoneDeleted := by
  intro ri hri
  rw [deref_newCallBack (hlive ri hri)]
  exact hlive ri hri

theorem addCallBack_safe_iff (hlive : engine.NoneDeleted) (uri method : Text) :
    (engine.addCallBack regexes uri method p).NoneDeleted ↔
      ((regexes.assign uri).isSome → (engine.deref p).isSome) := by
  rw [addCallBack]
  cases regexes.assign uri with
  | none => exact iff_of_true hlive fun hsome => Bool.noConfusion hsome
  | some regex =>
      refine ⟨fun hnext _ => hnext ⟨uri, regex, p⟩ (mem_push.mpr (Or.inl rfl)), fun hp ri hri => ?_⟩
      rcases mem_push.mp hri with rfl | hold
      · exact hp rfl
      · exact hlive ri hold

/-- A removal is safe exactly when the callback is live and stands once in a list at most. -/
theorem removeCallBack_safe_iff (hlive : engine.NoneDeleted) :
    Safe regexes engine (.removeCallBack p) ↔ (engine.deref p).isSome ∧ engine.AtMostOnce p := by
  constructor
  · rintro ⟨next, hstep, hnext, -⟩
    have hstep' : engine.removeCallBack p = some next := hstep
    obtain ⟨hentries, hgone, -⟩ := delete_eq_some hstep'
    refine ⟨?_, ?_⟩
    · have hdelete : ({ engine with mCallbacks := eraseFirst p engine.mCallbacks } :
          RESTEngine Regex Data).delete p = some next := hstep
      have hsome := congrArg Option.isSome hdelete
      rw [delete_isSome] at hsome
      exact hsome
    · by_contra honce
      obtain ⟨ri, hri, hp⟩ := exists_mem_eraseFirst honce
      have hdead := hnext ri (by rw [entries, hentries]; exact hri)
      rw [hp, hgone] at hdead
      exact Bool.noConfusion hdead
  · rintro ⟨hsome, honce⟩
    have hdelete : (engine.removeCallBack p).isSome := by
      rw [removeCallBack, delete_isSome]
      exact hsome
    obtain ⟨next, hstep⟩ := Option.isSome_iff_exists.mp hdelete
    obtain ⟨hentries, -, hothers⟩ := delete_eq_some hstep
    have hwithout := hentries.trans (eraseFirst_eq_without honce)
    refine ⟨next, hstep, fun ri hri => ?_, ?_⟩
    · rw [entries, hwithout] at hri
      rw [hothers _ (mpCallback_ne_of_mem_without hri)]
      rw [← eraseFirst_eq_without honce] at hri
      exact hlive ri (mem_eraseFirst hri)
    · rintro _ ⟨⟩
      exact hwithout

theorem destroy_safe_iff (hlive : engine.NoneDeleted) :
    Safe regexes engine .destroy ↔ (engine.entries.map (·.mpCallback)).Nodup := by
  have hall := @deleteAll_isSome_iff Regex Data engine engine.entries
  have hsome : engine.destroy.isSome ↔ (engine.entries.map (·.mpCallback)).Nodup := by
    rw [destroy, Option.isSome_map, hall]
    exact and_iff_left hlive
  rw [← hsome]
  constructor
  · rintro ⟨next, hstep, -⟩
    have hstep' : engine.destroy = some next := hstep
    rw [hstep']
    rfl
  · intro hdestroy
    obtain ⟨next, hstep⟩ := Option.isSome_iff_exists.mp hdestroy
    obtain ⟨emptied, -, rfl⟩ := Option.map_eq_some_iff.mp hstep
    refine safe_of_step (fun _ hcall => by cases hcall) hstep fun ri hri => ?_
    cases hri

/-- Where no entry refers to a deleted callback, a call is safe exactly when it is allowed. -/
theorem safe_iff_allowed (hlive : engine.NoneDeleted) (call : Call Data) :
    Safe regexes engine call ↔ Allowed regexes engine call := by
  cases call with
  | newCallBack callback =>
      exact iff_of_true (safe_of_step (fun _ hcall => by cases hcall) rfl
        (noneDeleted_newCallBack hlive callback)) trivial
  | addCallBack uri method p =>
      refine Iff.trans ?_ (addCallBack_safe_iff hlive uri method)
      constructor
      · rintro ⟨next, hstep, hnext, -⟩
        obtain rfl := Option.some.inj hstep
        exact hnext
      · exact safe_of_step (fun _ hcall => by cases hcall) rfl
  | removeCallBack p => exact removeCallBack_safe_iff hlive
  | invoke j url method data userData =>
      obtain ⟨answer, hanswer⟩ := Option.isSome_iff_exists.mp
        (@invoke_isSome _ _ regexes _ hlive j url method data userData)
      exact iff_of_true (safe_of_step (fun _ hcall => by cases hcall)
        (by rw [step, hanswer]; rfl) hlive) trivial
  | documentInterface json =>
      obtain ⟨answer, hanswer⟩ := Option.isSome_iff_exists.mp (documentInterface_isSome hlive json)
      exact iff_of_true (safe_of_step (fun _ hcall => by cases hcall)
        (by rw [step, hanswer]; rfl) hlive) trivial
  | documentSwaggerInterface json version title description schemes host basePath =>
      obtain ⟨answer, hanswer⟩ := Option.isSome_iff_exists.mp (documentSwaggerInterface_isSome hlive
        json version title description schemes host basePath)
      exact iff_of_true (safe_of_step (fun _ hcall => by cases hcall)
        (by rw [step, hanswer]; rfl) hlive) trivial
  | destroy => exact destroy_safe_iff hlive

/--
Over every sequence of calls: each call uses no deleted callback and leaves no
entry of one, and each removal takes out exactly the entries of its callback,
exactly when each call of the run is allowed.
-/
theorem calls_safe_iff (regexes : RegexLibrary Regex) (calls : List (Call Data)) :
    Throughout (step regexes) (Safe regexes) create calls ↔
      Throughout (step regexes) (Allowed regexes) create calls := by
  have hcreate : (create : RESTEngine Regex Data).NoneDeleted := fun ri hri => by cases hri
  refine @throughout_congr _ _ (step regexes) NoneDeleted _ _ ?_
    (fun _ call hlive => safe_iff_allowed hlive call) create hcreate calls
  intro state call next hlive hallowed hstep
  obtain ⟨next', hstep', hnext, -⟩ := (safe_iff_allowed hlive call).mpr hallowed
  rwa [Option.some.inj (hstep.symm.trans hstep')]

/-- Patterns that match themselves only. -/
def literalRegexes : RegexLibrary Text where
  assign := some
  regex_match regex text := if regex = text then some [text] else none

/--
A callback registered under two URIs of one method: its removal leaves an entry,
and the next request for that URI uses the deleted callback.
-/
theorem second_uri_uses_deleted :
    ∃ engine : RESTEngine Text Unit,
      runAll (step literalRegexes) create
        [.newCallBack ⟨fun context => (context.returnData, .OK), [], []⟩,
          .addCallBack "/a".toList "GET".toList 0, .addCallBack "/b".toList "get".toList 0,
          .removeCallBack 0] = some engine ∧
        engine.entries.map (·.mpCallback) = [0] ∧ engine.deref 0 = none ∧
        engine.invoke literalRegexes (.Object []) "/b".toList "GET".toList [] none = none :=
  ⟨_, rfl, rfl, rfl, rfl⟩

end RESTEngine

end DumaisLib.Rest
