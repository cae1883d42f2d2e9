import DumaisLib.Rest.QueryStrings
import DumaisLib.Rest.Registry
import Mathlib.Data.Char
import Mathlib.Data.List.Lex

/-!
# Which callback a request reaches

The registrations of a run, in their order, say which callback a request reaches:
the first one for its method whose pattern matches its path.
-/

namespace DumaisLib.Rest

open DumaisLib.JSON RESTParameters

variable {Regex Data : Type}

/-- An entry with the method, in capitals, under which it is kept. -/
structure Registration (Regex : Type) where
  method : Text
  entry : ResourceIdentifier Regex

namespace CallbackMap

/-- The keys of the map ascend. -/
def Sorted (mCallbacks : CallbackMap Regex) : Prop :=
  (mCallbacks.map Prod.fst).Pairwise (· < ·)

theorem mem_keys_push {method key : Text} {ri : ResourceIdentifier Regex}
    {mCallbacks : CallbackMap Regex} (hkey : key ∈ (mCallbacks.push method ri).map Prod.fst) :
    key = method ∨ key ∈ mCallbacks.map Prod.fst := by
  induction mCallbacks with
  | nil => exact Or.inl (List.mem_singleton.mp hkey)
  | cons keyed mCallbacks ih =>
      obtain ⟨first, list⟩ := keyed
      simp only [push] at hkey
      split at hkey
      · exact Or.inr hkey
      · split at hkey
        · exact List.mem_cons.mp hkey
        · rcases List.mem_cons.mp hkey with hfirst | hrest
          · exact Or.inr (List.mem_cons.mpr (Or.inl hfirst))
          · exact (ih hrest).imp_right (List.mem_cons_of_mem _)

theorem Sorted.push {mCallbacks : CallbackMap Regex} (sorted : mCallbacks.Sorted) (method : Text)
    (ri : ResourceIdentifier Regex) : (mCallbacks.push method ri).Sorted := by
  induction mCallbacks with
  | nil => exact List.pairwise_singleton _ _
  | cons keyed mCallbacks ih =>
      obtain ⟨first, list⟩ := keyed
      obtain ⟨hfirst, hrest⟩ := List.pairwise_cons.mp sorted
      simp only [CallbackMap.push]
      split
      · exact sorted
      · rename_i hne
        split
        · rename_i hlt
          refine List.pairwise_cons.mpr ⟨fun key hkey => ?_, sorted⟩
          rcases List.mem_cons.mp hkey with rfl | hlater
          · exact hlt
          · exact lt_trans hlt (hfirst key hlater)
        · rename_i hge
          refine List.pairwise_cons.mpr ⟨fun key hkey => ?_, ih hrest⟩
          rcases mem_keys_push hkey with rfl | hlater
          · exact lt_of_le_of_ne (not_lt.mp hge) (Ne.symm hne)
          · exact hfirst key hlater

theorem lookup_cons_of_eq {key : Text} {list : CallbackList Regex} {rest : CallbackMap Regex} :
    List.lookup key ((key, list) :: rest) = some list :=
  List.lookup_cons_self

theorem lookup_cons_of_ne {key other : Text} {list : CallbackList Regex}
    {rest : CallbackMap Regex} (hne : other ≠ key) :
    List.lookup other ((key, list) :: rest) = List.lookup other rest := by
  rw [List.lookup_cons, beq_eq_false_iff_ne.mpr hne]

theorem lookup_eq_none {mCallbacks : CallbackMap Regex} {method : Text}
    (hnew : method ∉ mCallbacks.map Prod.fst) : mCallbacks.lookup method = none := by
  refine List.lookup_eq_none_iff.mpr fun keyed hkeyed => bne_iff_ne.mpr ?_
  exact fun heq => hnew (heq ▸ List.mem_map_of_mem hkeyed)

/-- A push adds to the list of its method and leaves the others alone. -/
theorem lookup_push {mCallbacks : CallbackMap Regex} (sorted : mCallbacks.Sorted)
    (method other : Text) (ri : ResourceIdentifier Regex) :
    (mCallbacks.push method ri).lookup other =
      if other = method then some ((mCallbacks.lookup method).getD [] ++ [ri])
      else mCallbacks.lookup other := by
  induction mCallbacks with
  | nil =>
      by_cases hother : other = method
      · rw [if_pos hother, hother]
        exact lookup_cons_of_eq
      · rw [if_neg hother]
        exact lookup_cons_of_ne hother
  | cons keyed mCallbacks ih =>
      obtain ⟨first, list⟩ := keyed
      obtain ⟨hfirst, hrest⟩ := List.pairwise_cons.mp sorted
      simp only [push]
      by_cases hsame : method = first
      · rw [if_pos hsame]
        subst hsame
        rw [lookup_cons_of_eq]
        by_cases hother : other = method
        · rw [if_pos hother, hother, lookup_cons_of_eq, Option.getD_some]
        · rw [if_neg hother, lookup_cons_of_ne hother, lookup_cons_of_ne hother]
      · rw [if_neg hsame]
        split
        · rename_i hlt
          have hnew : method ∉ ((first, list) :: mCallbacks).map Prod.fst := by
            intro hmem
            rcases List.mem_cons.mp hmem with heq | hlater
            · exact hsame heq
            · exact lt_irrefl _ (lt_trans hlt (hfirst method hlater))
          rw [lookup_eq_none hnew]
          by_cases hother : other = method
          · rw [if_pos hother, hother, lookup_cons_of_eq]
            rfl
          · rw [if_neg hother, lookup_cons_of_ne hother]
        · rw [lookup_cons_of_ne hsame]
          by_cases hother : other = first
          · rw [hother, lookup_cons_of_eq, lookup_cons_of_eq, if_neg (Ne.symm hsame)]
          · rw [lookup_cons_of_ne hother, lookup_cons_of_ne hother, ih hrest]

theorem map_list_keys (change : CallbackList Regex → CallbackList Regex)
    (mCallbacks : CallbackMap Regex) :
    (mCallbacks.map fun keyed => (keyed.1, change keyed.2)).map Prod.fst =
      mCallbacks.map Prod.fst := by
  rw [List.map_map]
  rfl

theorem lookup_map_list (change : CallbackList Regex → CallbackList Regex)
    (mCallbacks : CallbackMap Regex) (method : Text) :
    (mCallbacks.map fun keyed => (keyed.1, change keyed.2)).lookup method =
      (mCallbacks.lookup method).map change := by
  induction mCallbacks with
  | nil => rfl
  | cons keyed mCallbacks ih =>
      obtain ⟨first, list⟩ := keyed
      rw [List.map_cons]
      by_cases hmethod : method = first
      · subst hmethod
        rw [lookup_cons_of_eq, lookup_cons_of_eq, Option.map_some]
      · rw [lookup_cons_of_ne hmethod, lookup_cons_of_ne hmethod, ih]

end CallbackMap

namespace RESTEngine

/-! ## Registrations -/

/-- What a call of `addCallBack` registers: nothing when the pattern is refused. -/
def added (regexes : RegexLibrary Regex) (uri method : Text) (p : CallbackPointer) :
    List (Registration Regex) :=
  (regexes.assign uri).toList.map fun regex => ⟨Text.toUpper method, ⟨uri, regex, p⟩⟩

/--
The engines of runs, with the registrations that are present.  A callback that is
removed is deleted, so that one that is not present has never been registered.
-/
inductive Registered (regexes : RegexLibrary Regex) :
    List (Registration Regex) → RESTEngine Regex Data → Prop where
  | create : Registered regexes [] create
  | newCallBack {registered : List (Registration Regex)} {engine : RESTEngine Regex Data}
      (callback : RESTCallBack Data) : Registered regexes registered engine →
      Registered regexes registered (engine.newCallBack callback)
  | addCallBack {registered : List (Registration Regex)} {engine : RESTEngine Regex Data}
      (uri method : Text) (p : CallbackPointer) : Registered regexes registered engine →
      (engine.deref p).isSome → (∀ present ∈ registered, present.entry.mpCallback ≠ p) →
      Registered regexes (registered ++ added regexes uri method p)
        (engine.addCallBack regexes uri method p)
  | removeCallBack {registered : List (Registration Regex)} {engine next : RESTEngine Regex Data}
      (p : CallbackPointer) : Registered regexes registered engine →
      engine.removeCallBack p = some next →
      Registered regexes (registered.filter (·.entry.mpCallback ≠ p)) next

/-- The entries for a method, in the order of their registration. -/
def listFor (registered : List (Registration Regex)) (method : Text) : CallbackList Regex :=
  (registered.filter (·.method = method)).map (·.entry)

/-- The engine has the registrations, each under its method, and their callbacks are live. -/
structure Agrees (registered : List (Registration Regex)) (engine : RESTEngine Regex Data) :
    Prop where
  sorted : engine.mCallbacks.Sorted
  lists : ∀ method, (engine.mCallbacks.lookup method).getD [] = listFor registered method
  distinct : (registered.map (·.entry.mpCallback)).Nodup
  live : ∀ present ∈ registered, (engine.deref present.entry.mpCallback).isSome

variable {regexes : RegexLibrary Regex} {registered : List (Registration Regex)}
  {engine next : RESTEngine Regex Data}

theorem agrees_create : Agrees [] (create : RESTEngine Regex Data) :=
  ⟨List.Pairwise.nil, fun _ => rfl, List.nodup_nil, fun _ hmem => by cases hmem⟩

theorem Agrees.newCallBack (agrees : Agrees registered engine) (callback : RESTCallBack Data) :
    Agrees registered (engine.newCallBack callback) where
  sorted := agrees.sorted
  lists := agrees.lists
  distinct := agrees.distinct
  live := fun present hpresent => by
    rw [deref_newCallBack (agrees.live present hpresent)]
    exact agrees.live present hpresent

theorem listFor_append (more : List (Registration Regex)) (method : Text) :
    listFor (registered ++ more) method = listFor registered method ++ listFor more method := by
  rw [listFor, List.filter_append, List.map_append]
  rfl

theorem Agrees.addCallBack (agrees : Agrees registered engine) {p : CallbackPointer}
    (hlive : (engine.deref p).isSome)
    (hnew : ∀ present ∈ registered, present.entry.mpCallback ≠ p) (uri method : Text) :
    Agrees (registered ++ added regexes uri method p) (engine.addCallBack regexes uri method p) := by
  unfold RESTEngine.addCallBack added
  cases regexes.assign uri with
  | none =>
      rw [Option.toList_none, List.map_nil, List.append_nil]
      exact agrees
  | some regex =>
      rw [Option.toList_some, List.map_singleton]
      constructor
      · exact agrees.sorted.push _ _
      · intro other
        rw [CallbackMap.lookup_push agrees.sorted, listFor_append, ← agrees.lists]
        by_cases hother : other = Text.toUpper method
        · rw [if_pos hother, hother, Option.getD_some]
          simp [listFor]
        · rw [if_neg hother]
          simp [listFor, Ne.symm hother]
      · rw [List.map_append, List.nodup_append]
        refine ⟨agrees.distinct, List.nodup_singleton _, fun pointer hold other hother => ?_⟩
        obtain ⟨present, hpresent, rfl⟩ := List.mem_map.mp hold
        obtain rfl := List.mem_singleton.mp hother
        exact hnew present hpresent
      · intro present hpresent
        rcases List.mem_append.mp hpresent with hold | hadded
        · exact agrees.live present hold
        · obtain rfl := List.mem_singleton.mp hadded
          exact hlive

/-- A callback stands at most once in the list of a method. -/
theorem countP_listFor (hdistinct : (registered.map (·.entry.mpCallback)).Nodup) (method : Text)
    (p : CallbackPointer) : (listFor registered method).countP (·.mpCallback = p) ≤ 1 := by
  have hsublist : ((listFor registered method).map (·.mpCallback)).Sublist
      (registered.map (·.entry.mpCallback)) := by
    rw [listFor, List.map_map]
    exact List.filter_sublist.map _
  have hcount := List.nodup_iff_count_le_one.mp (hdistinct.sublist hsublist) p
  rw [List.count, List.countP_map] at hcount
  exact hcount

theorem listFor_filter (method : Text) (p : CallbackPointer) :
    listFor (registered.filter (·.entry.mpCallback ≠ p)) method =
      (listFor registered method).filter (·.mpCallback ≠ p) := by
  rw [listFor, listFor, List.filter_map, List.filter_filter, List.filter_filter]
  congr 1
  refine List.filter_congr fun present _ => ?_
  exact Bool.and_comm _ _

theorem Agrees.removeCallBack (agrees : Agrees registered engine) {p : CallbackPointer}
    (hremove : engine.removeCallBack p = some next) :
    Agrees (registered.filter (·.entry.mpCallback ≠ p)) next := by
  obtain ⟨hentries, -, hothers⟩ := delete_eq_some hremove
  have hmap : next.mCallbacks = engine.mCallbacks.map fun keyed =>
      (keyed.1, keyed.2.eraseP (·.mpCallback = p)) := hentries
  constructor
  · rw [CallbackMap.Sorted, hmap, CallbackMap.map_list_keys]
    exact agrees.sorted
  · intro method
    rw [hmap, CallbackMap.lookup_map_list, listFor_filter, ← agrees.lists]
    have hcount := countP_listFor agrees.distinct method p
    rw [← agrees.lists] at hcount
    cases hlookup : engine.mCallbacks.lookup method with
    | none => rfl
    | some list =>
        rw [hlookup, Option.getD_some] at hcount
        rw [Option.map_some, Option.getD_some, Option.getD_some, eraseP_eq_filter hcount]
        simp
  · exact agrees.distinct.sublist (List.filter_sublist.map _)
  · intro present hpresent
    obtain ⟨hold, hne⟩ := List.mem_filter.mp hpresent
    have hkept := hothers present.entry.mpCallback (by simpa using hne)
    rw [hkept]
    exact agrees.live present hold

theorem Registered.agrees (hregistered : Registered regexes registered engine) :
    Agrees registered engine := by
  induction hregistered with
  | create => exact agrees_create
  | newCallBack callback _ ih => exact ih.newCallBack callback
  | addCallBack uri method p _ hlive hnew ih => exact ih.addCallBack hlive hnew uri method
  | removeCallBack p _ hremove ih => exact ih.removeCallBack hremove

/-! ## Requests -/

/-- What becomes of a request. -/
inductive Dispatch (Data : Type) where
  | ran (callback : RESTCallBack Data) (context : RESTContext Data)
  | refused (name : Text)
  | notFound
  | methodNotAllowed

/-- What is left in the document, and the response code. -/
def Dispatch.result (j : Node) : Dispatch Data → Node × ResponseCode
  | .ran callback context => callback.mCallback context
  | .refused name =>
      (j.addString ("Missing required parameter ".toList ++ name) "error".toList, .BadRequest)
  | .notFound => (j, .NotFound)
  | .methodNotAllowed => (j, .MethodNotAllowed)

/-- The first callback present for the method whose pattern matches the path. -/
def selected (regexes : RegexLibrary Regex) (registered : List (Registration Regex))
    (method path : Text) : Option (CallbackPointer × List Text) :=
  (listFor registered (Text.toUpper method)).findSome? fun ri =>
    (regexes.regex_match ri.regex path).map fun groups => (ri.mpCallback, groups)

/-- The parameter must be given in the query. -/
def Required (param : Text × RESTParameter) : Prop :=
  param.2.mRequired = true ∧ param.2.mLocation = "query".toList

/-- The required parameters have a last occurrence in the query, with a value. -/
def Complete (callback : RESTCallBack Data) (q : Text) : Prop :=
  ∀ param ∈ callback.mParamList, Required param → lastValue q param.1 ≠ []

theorem splitUrl_query {path : Text} (hpath : '?' ∉ path) (q : Text) :
    splitUrl (path ++ '?' :: q) = (path, q) := by
  have hall : ∀ char ∈ path, decide (char ≠ '?') = true := fun char hchar =>
    decide_eq_true fun heq => hpath (heq ▸ hchar)
  have hmem : '?' ∈ path ++ '?' :: q := List.mem_append_right _ List.mem_cons_self
  rw [splitUrl, if_pos hmem, List.takeWhile_append_of_pos hall, List.dropWhile_append_of_pos hall]
  simp

/-- No value of the query has an equals sign in it. -/
def NoEquals (q : Text) : Prop :=
  ∀ segment ∈ segments q, '=' ∉ segmentValue segment

theorem unsigned_lastValue {q : Text} (hvalues : NoEquals q) (key : Text) :
    unsigned (lastValue q key) = lastValue q key := by
  unfold lastValue
  cases hlast : lastSegment q key with
  | none => rfl
  | some segment =>
      have hsegment : segment ∈ segments q :=
        List.mem_reverse.mp (List.mem_of_find?_eq_some hlast)
      refine List.filter_eq_self.mpr fun char hchar => decide_eq_true ?_
      exact fun (heq : char = '=') => hvalues segment hsegment (heq ▸ hchar)

/-- A parameter of the callback has its last value. -/
theorem getParam_mem {query : Query} (hvalues : NoEquals query.text) {params : ParamMap}
    {param : Text × RESTParameter} (hparam : param ∈ params) :
    (RESTParameters.create query.text params).getParam param.1 =
      lastValue query.text param.1 := by
  have hknown : (params.lookup param.1).isSome = true :=
    List.lookup_isSome_iff.mpr ⟨param, hparam, beq_self_eq_true _⟩
  rw [getParam_create query.plain, if_pos hknown, unsigned_lastValue hvalues]

/-- The dispatch runs the callback when its required parameters are given. -/
def Runs (dispatch : Dispatch Data) (callback : RESTCallBack Data) (context : RESTContext Data)
    (q : Text) : Prop :=
  (Complete callback q → dispatch = .ran callback context) ∧
    (¬ Complete callback q → ∃ param ∈ callback.mParamList, Required param ∧
      lastValue q param.1 = [] ∧ dispatch = .refused param.1)

theorem call_runs {query : Query} (hvalues : NoEquals query.text) (callback : RESTCallBack Data)
    (j : Node) (data : Text) (groups : List Text) (userData : Option Data) :
    ∃ dispatch, callback.call j query.text data groups userData = Dispatch.result j dispatch ∧
      Runs dispatch callback
        ⟨j, .create query.text callback.mParamList, data, groups, .OK, userData⟩ query.text := by
  unfold RESTCallBack.call RESTCallBack.missing
  dsimp only
  cases hfind : callback.mParamList.find? fun param =>
      param.2.mRequired && param.2.mLocation = "query".toList &&
        (RESTParameters.create query.text callback.mParamList).getParam param.1 = [] with
  | none =>
      have hcomplete : Complete callback query.text := by
        intro param hparam hrequired hnil
        have hgiven := List.find?_eq_none.mp hfind param hparam
        rw [getParam_mem hvalues hparam] at hgiven
        simp [hrequired.1, hrequired.2, hnil] at hgiven
      exact ⟨.ran callback _, rfl, fun _ => rfl, fun hnot => absurd hcomplete hnot⟩
  | some param =>
      have hparam := List.mem_of_find?_eq_some hfind
      have htest := List.find?_some hfind
      rw [getParam_mem hvalues hparam] at htest
      simp only [Bool.and_eq_true, decide_eq_true_eq] at htest
      obtain ⟨hrequired, hnil⟩ := htest
      refine ⟨.refused param.1, rfl, fun hcomplete => ?_, fun _ => ?_⟩
      · exact absurd hnil (hcomplete param hparam hrequired)
      · exact ⟨param, hparam, hrequired, hnil, rfl⟩

/--
In every registry that a run reaches, a request runs the first callback present
for its method whose pattern matches its path, when the required parameters of
that callback are given; a missing one is answered as a bad request, and without
such a callback none runs.
-/
theorem invoke_dispatches (hregistered : Registered regexes registered engine) (query : Query)
    (hvalues : NoEquals query.text) {path : Text} (hpath : '?' ∉ path) (method : Text) (j : Node)
    (data : Text) (userData : Option Data) :
    ∃ dispatch, engine.invoke regexes j (path ++ '?' :: query.text) method data userData =
        some (Dispatch.result j dispatch) ∧
      (selected regexes registered method path = none →
        dispatch = .notFound ∨ dispatch = .methodNotAllowed) ∧
      ∀ p groups, selected regexes registered method path = some (p, groups) →
        ∃ callback, engine.deref p = some callback ∧ Runs dispatch callback
          ⟨j, .create query.text callback.mParamList, data, groups, .OK, userData⟩ query.text := by
  have agrees := hregistered.agrees
  have hlist := agrees.lists (Text.toUpper method)
  unfold invoke selected
  rw [splitUrl_query hpath, ← hlist]
  cases hlookup : engine.mCallbacks.lookup (Text.toUpper method) with
  | none =>
      refine ⟨.methodNotAllowed, rfl, fun _ => Or.inr rfl, fun p groups hselected => ?_⟩
      cases hselected
  | some list =>
      rw [hlookup, Option.getD_some] at hlist
      dsimp only
      rw [Option.getD_some]
      cases hfound : list.findSome? fun ri =>
          (regexes.regex_match ri.regex path).map fun groups => (ri.mpCallback, groups) with
      | none =>
          refine ⟨.notFound, rfl, fun _ => Or.inl rfl, fun p groups hselected => ?_⟩
          cases hselected
      | some found =>
          obtain ⟨p, groups⟩ := found
          obtain ⟨ri, hri, hmatch⟩ := List.exists_of_findSome?_eq_some hfound
          obtain ⟨matched, -, heq⟩ := Option.map_eq_some_iff.mp hmatch
          obtain ⟨rfl, -⟩ := Prod.mk.inj heq
          rw [hlist] at hri
          obtain ⟨present, hpresent, rfl⟩ := List.mem_map.mp hri
          obtain ⟨callback, hcallback⟩ := Option.isSome_iff_exists.mp
            (agrees.live present (List.mem_filter.mp hpresent).1)
          obtain ⟨dispatch, hcall, hruns⟩ := call_runs hvalues callback j data groups userData
          refine ⟨dispatch, ?_, fun hselected => ?_, fun p groups hselected => ?_⟩
          · change (engine.deref present.entry.mpCallback).map _ = _
            rw [hcallback, Option.map_some, hcall]
          · cases hselected
          · obtain ⟨rfl, rfl⟩ := Prod.mk.inj (Option.some.inj hselected)
            exact ⟨callback, hcallback, hruns⟩

/-- A callback with a required parameter. -/
def exampleCallback : RESTCallBack Unit where
  mCallback context := (context.returnData, .OK)
  mParamList := exampleParams
  mDescription := []

def exampleEngine : RESTEngine Text Unit :=
  (create.newCallBack exampleCallback).addCallBack literalRegexes "/a".toList "Get".toList 0

theorem exampleEngine_registered :
    Registered literalRegexes (added literalRegexes "/a".toList "Get".toList 0) exampleEngine :=
  .addCallBack _ _ 0 (.newCallBack exampleCallback .create) rfl fun _ hmem => by cases hmem

theorem invoke_dispatches_example :
    ∃ dispatch, exampleEngine.invoke literalRegexes (.Object [])
        ("/a".toList ++ '?' :: "a=1&b".toList) "gET".toList [] none =
          some (Dispatch.result (.Object []) dispatch) ∧
      ∃ callback, exampleEngine.deref 0 = some callback ∧ Runs dispatch callback
        ⟨.Object [], .create "a=1&b".toList callback.mParamList, [], ["/a".toList], .OK, none⟩
        "a=1&b".toList := by
  have hplain : Plain "a=1&b".toList := by simp [Plain]
  have hvalues : NoEquals "a=1&b".toList := by
    unfold NoEquals
    decide +kernel
  have hpath : '?' ∉ "/a".toList := by decide
  obtain ⟨dispatch, hinvoke, -, hruns⟩ := invoke_dispatches exampleEngine_registered
    ⟨"a=1&b".toList, hplain⟩ hvalues hpath "gET".toList (.Object []) [] none
  exact ⟨dispatch, hinvoke, hruns 0 ["/a".toList] (by decide +kernel)⟩

end RESTEngine

end DumaisLib.Rest
