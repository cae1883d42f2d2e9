import DumaisLib.JSON.Paths
import DumaisLib.Rest.Registry

/-!
# The Swagger document

Each entry of the registry is written under its URI and its method.  The object
for a URI is a new one each time, so that only the last method of a URI stays.
-/

namespace DumaisLib.Rest

open DumaisLib.JSON

variable {Regex Data : Type}

/-- A call of `addCallBack`. -/
structure AddCall where
  uri : Text
  method : Text
  p : CallbackPointer
  deriving DecidableEq

/-- Callbacks, and calls that register them under URIs that are not empty. -/
structure Registrations (Data : Type) where
  callbacks : List (RESTCallBack Data)
  calls : List AddCall
  uri_ne_nil : ∀ call ∈ calls, call.uri ≠ []
  p_lt : ∀ call ∈ calls, call.p < callbacks.length

namespace Registrations

variable (regexes : RegexLibrary Regex) (registrations : Registrations Data)

/-- The engine after the calls. -/
def engine : RESTEngine Regex Data :=
  registrations.calls.foldl
    (fun engine call => engine.addCallBack regexes call.uri call.method call.p)
    ⟨[], registrations.callbacks.map some⟩

/-- The calls whose pattern is accepted. -/
def registered : List AddCall :=
  registrations.calls.filter fun call => (regexes.assign call.uri).isSome

end Registrations

namespace RESTEngine

variable {regexes : RegexLibrary Regex} {engine : RESTEngine Regex Data}

/-! ## The entries of the registry -/

/-- The entry that a call makes. -/
def Makes (regexes : RegexLibrary Regex) (call : AddCall)
    (entry : Text × ResourceIdentifier Regex) : Prop :=
  ∃ regex, regexes.assign call.uri = some regex ∧
    entry = (Text.toUpper call.method, ⟨call.uri, regex, call.p⟩)

theorem mem_methodEntries_addCallBack {call : AddCall} {entry : Text × ResourceIdentifier Regex} :
    entry ∈ (engine.addCallBack regexes call.uri call.method call.p).methodEntries ↔
      Makes regexes call entry ∨ entry ∈ engine.methodEntries := by
  unfold addCallBack Makes
  cases regexes.assign call.uri with
  | none => simp
  | some regex => simpa [methodEntries] using mem_entries_push

theorem addCallBack_callbacks (uri method : Text) (p : CallbackPointer) :
    (engine.addCallBack regexes uri method p).callbacks = engine.callbacks := by
  unfold addCallBack
  cases regexes.assign uri <;> rfl

theorem mem_methodEntries_foldl (calls : List AddCall)
    {entry : Text × ResourceIdentifier Regex} :
    entry ∈ (calls.foldl
        (fun engine call => engine.addCallBack regexes call.uri call.method call.p)
        engine).methodEntries ↔
      (∃ call ∈ calls, Makes regexes call entry) ∨ entry ∈ engine.methodEntries := by
  induction calls generalizing engine with
  | nil => simp
  | cons call calls ih =>
      rw [List.foldl_cons, ih, mem_methodEntries_addCallBack]
      rw [List.exists_mem_cons_iff]
      exact or_left_comm.trans or_assoc.symm

/-! ## The paths -/

/-- The object that an entry puts under its URI. -/
def endpoint (method : Text) (callback : RESTCallBack Data) : Node :=
  (Node.Object []).addFilled (.addObject (Text.toLower method)) callback.getSwaggerDescription

/-- One turn of the loops over the registry. -/
def describePath (engine : RESTEngine Regex Data) (paths : Node)
    (entry : Text × ResourceIdentifier Regex) : Option Node :=
  (engine.deref entry.2.mpCallback).map fun callback =>
    paths.addFilled (.addObject entry.2.uri) fun path =>
      path.addFilled (.addObject (Text.toLower entry.1)) callback.getSwaggerDescription

theorem child_endpoint (method key : Text) (callback : RESTCallBack Data) :
    (endpoint method callback).child? (.key key) =
      if key = keyFor (Text.toLower method) [] then
        some (callback.getSwaggerDescription (.Object []))
      else none := by
  have hendpoint : endpoint method callback = .Object
      [(keyFor (Text.toLower method) [], callback.getSwaggerDescription (.Object []))] := rfl
  rw [hendpoint, Node.child?]
  by_cases hkey : key = keyFor (Text.toLower method) []
  · rw [if_pos hkey, hkey]
    exact List.lookup_cons_self
  · rw [if_neg hkey, List.lookup_cons, beq_eq_false_iff_ne.mpr hkey]
    rfl

/-- Under a URI stands what its last entry puts there. -/
theorem describePath_entries {entries : List (Text × ResourceIdentifier Regex)}
    (hne : ∀ entry ∈ entries, entry.2.uri ≠ [])
    (hlive : ∀ entry ∈ entries, (engine.deref entry.2.mpCallback).isSome)
    (mMembers : List (Text × Node)) :
    ∃ paths, entries.foldlM engine.describePath (.Object mMembers) = some (.Object paths) ∧
      ∀ uri, (∃ entry ∈ entries, ∃ callback, entry.2.uri = uri ∧
          engine.deref entry.2.mpCallback = some callback ∧
          paths.lookup uri = some (endpoint entry.1 callback)) ∨
        (∀ entry ∈ entries, entry.2.uri ≠ uri) ∧ paths.lookup uri = mMembers.lookup uri := by
  induction entries generalizing mMembers with
  | nil => exact ⟨mMembers, rfl, fun uri => Or.inr ⟨by simp, rfl⟩⟩
  | cons entry entries ih =>
      obtain ⟨hfirst, hrest⟩ := List.forall_mem_cons.mp hne
      obtain ⟨hlivefirst, hliverest⟩ := List.forall_mem_cons.mp hlive
      obtain ⟨callback, hcallback⟩ := Option.isSome_iff_exists.mp hlivefirst
      have hstep : engine.describePath (.Object mMembers) entry =
          some (.Object (assign entry.2.uri (endpoint entry.1 callback) mMembers)) := by
        rw [describePath, hcallback, Option.map_some, Node.addFilled, Addition.name, keyFor,
          if_neg hfirst]
        rfl
      obtain ⟨paths, hpaths, hlookup⟩ := ih hrest hliverest
        (assign entry.2.uri (endpoint entry.1 callback) mMembers)
      refine ⟨paths, ?_, fun uri => ?_⟩
      · rw [List.foldlM_cons, hstep]
        exact hpaths
      · rcases hlookup uri with ⟨later, hlater, found, hfound⟩ | ⟨hother, hsame⟩
        · exact Or.inl ⟨later, List.mem_cons_of_mem _ hlater, found, hfound⟩
        · by_cases huri : entry.2.uri = uri
          · refine Or.inl ⟨entry, List.mem_cons_self, callback, huri, hcallback, ?_⟩
            rw [hsame, ← huri, lookup_assign]
          · refine Or.inr ⟨List.forall_mem_cons.mpr ⟨huri, hother⟩, ?_⟩
            rw [hsame, lookup_assign_of_ne (Ne.symm huri)]

/-- The document has the paths, whatever it had before. -/
theorem documentSwaggerInterface_paths {paths : List (Text × Node)}
    (hpaths : engine.methodEntries.foldlM engine.describePath (.Object []) = some (.Object paths))
    (mMembers : List (Text × Node)) (version title description schemes host basePath : Text) :
    ∃ document, engine.documentSwaggerInterface (.Object mMembers) version title description
        schemes host basePath = some document ∧
      ∀ path, document.below? (.key "paths".toList :: path) = (Node.Object paths).below? path := by
  obtain ⟨before, hdocument⟩ : ∃ before, engine.documentSwaggerInterface (.Object mMembers) version
      title description schemes host basePath =
        (engine.methodEntries.foldlM engine.describePath (.Object [])).map fun paths =>
          .Object (assign "paths".toList paths before) :=
    ⟨_, rfl⟩
  rw [hpaths, Option.map_some] at hdocument
  refine ⟨_, hdocument, fun path => ?_⟩
  rw [below_cons, Node.child?, lookup_assign, Option.bind_some]

end RESTEngine

namespace Registrations

open RESTEngine

variable (regexes : RegexLibrary Regex) (registrations : Registrations Data)

theorem deref_engine (p : CallbackPointer) :
    (registrations.engine regexes).deref p = registrations.callbacks[p]? := by
  have hcallbacks (calls : List AddCall) (engine : RESTEngine Regex Data) :
      (calls.foldl (fun engine call => engine.addCallBack regexes call.uri call.method call.p)
        engine).callbacks = engine.callbacks := by
    induction calls generalizing engine with
    | nil => rfl
    | cons call calls ih => rw [List.foldl_cons, ih, addCallBack_callbacks]
  rw [deref, engine, hcallbacks, List.getElem?_map]
  cases registrations.callbacks[p]? <;> rfl

theorem mem_engine_iff {entry : Text × ResourceIdentifier Regex} :
    entry ∈ (registrations.engine regexes).methodEntries ↔
      ∃ call ∈ registrations.registered regexes, Makes regexes call entry := by
  rw [engine, mem_methodEntries_foldl]
  constructor
  · rintro (⟨call, hcall, hmakes⟩ | hold)
    · obtain ⟨regex, hregex, -⟩ := id hmakes
      exact ⟨call, List.mem_filter.mpr ⟨hcall, by rw [hregex]; rfl⟩, hmakes⟩
    · cases hold
  · rintro ⟨call, hcall, hmakes⟩
    exact Or.inl ⟨call, (List.mem_filter.mp hcall).1, hmakes⟩

/-- Under a registered URI stands the object of one of its calls, and nothing under another. -/
theorem exists_paths (mMembers : List (Text × Node))
    (version title description schemes host basePath : Text) :
    ∃ document, (registrations.engine regexes).documentSwaggerInterface (.Object mMembers) version
        title description schemes host basePath = some document ∧
      ∀ uri, (∃ call ∈ registrations.registered regexes, ∃ callback, call.uri = uri ∧
          registrations.callbacks[call.p]? = some callback ∧
          document.below? [.key "paths".toList, .key uri] =
            some (endpoint (Text.toUpper call.method) callback)) ∨
        (∀ call ∈ registrations.registered regexes, call.uri ≠ uri) ∧
          document.below? [.key "paths".toList, .key uri] = none := by
  have hne (entry : Text × ResourceIdentifier Regex)
      (hentry : entry ∈ (registrations.engine regexes).methodEntries) : entry.2.uri ≠ [] := by
    obtain ⟨call, hcall, regex, -, rfl⟩ := (registrations.mem_engine_iff regexes).mp hentry
    exact registrations.uri_ne_nil call (List.mem_filter.mp hcall).1
  have hlive (entry : Text × ResourceIdentifier Regex)
      (hentry : entry ∈ (registrations.engine regexes).methodEntries) :
      ((registrations.engine regexes).deref entry.2.mpCallback).isSome := by
    obtain ⟨call, hcall, regex, -, rfl⟩ := (registrations.mem_engine_iff regexes).mp hentry
    rw [deref_engine, List.getElem?_eq_getElem
      (registrations.p_lt call (List.mem_filter.mp hcall).1)]
    rfl
  obtain ⟨paths, hpaths, hlookup⟩ := describePath_entries hne hlive []
  obtain ⟨document, hdocument, hbelow⟩ := documentSwaggerInterface_paths hpaths mMembers version
    title description schemes host basePath
  refine ⟨document, hdocument, fun uri => ?_⟩
  have huri : document.below? [.key "paths".toList, .key uri] = paths.lookup uri := by
    rw [hbelow, below_cons, Node.child?]
    cases paths.lookup uri <;> rfl
  rw [huri]
  rcases hlookup uri with ⟨entry, hentry, callback, hsame, hcallback, hfound⟩ | ⟨hother, hnone⟩
  · obtain ⟨call, hcall, regex, -, rfl⟩ := (registrations.mem_engine_iff regexes).mp hentry
    rw [deref_engine] at hcallback
    exact Or.inl ⟨call, hcall, callback, hsame, hcallback, hfound⟩
  · refine Or.inr ⟨fun call hcall => ?_, hnone⟩
    obtain ⟨regex, hregex⟩ := Option.isSome_iff_exists.mp (List.mem_filter.mp hcall).2
    exact hother _ ((registrations.mem_engine_iff regexes).mpr ⟨call, hcall, regex, hregex, rfl⟩)

/--
The document has a description under each pair of a URI and a method that is
registered, of a callback registered for it, and under no other pair.
-/
def Documented (mMembers : List (Text × Node))
    (version title description schemes host basePath : Text) : Prop :=
  ∃ document, (registrations.engine regexes).documentSwaggerInterface (.Object mMembers) version
      title description schemes host basePath = some document ∧
    (∀ call ∈ registrations.registered regexes, ∃ other ∈ registrations.registered regexes,
      ∃ callback, other.uri = call.uri ∧ Text.toLower other.method = Text.toLower call.method ∧
        registrations.callbacks[other.p]? = some callback ∧
        document.below? [.key "paths".toList, .key call.uri, .key (Text.toLower call.method)] =
          some (callback.getSwaggerDescription (.Object []))) ∧
    ∀ uri method node, document.below? [.key "paths".toList, .key uri, .key method] = some node →
      ∃ call ∈ registrations.registered regexes, call.uri = uri ∧
        Text.toLower call.method = method

/-- No URI is registered under two methods, and none under the empty one. -/
def OneMethod : Prop :=
  (∀ call ∈ registrations.registered regexes, call.method ≠ []) ∧
    ∀ call ∈ registrations.registered regexes, ∀ other ∈ registrations.registered regexes,
      call.uri = other.uri → Text.toLower call.method = Text.toLower other.method

theorem keyFor_ne_nil (name : Text) : keyFor name [] ≠ [] := by
  unfold keyFor
  split
  · decide
  · assumption

theorem below_key (document : Node) (uri key : Text) :
    document.below? [.key "paths".toList, .key uri, .key key] =
      (document.below? [.key "paths".toList, .key uri]).bind fun path => path.child? (.key key) := by
  refine (below_append document [.key "paths".toList, .key uri] [.key key]).trans ?_
  cases document.below? [.key "paths".toList, .key uri] with
  | none => rfl
  | some path =>
      rw [Option.bind_some, Option.bind_some, below_cons]
      cases path.child? (.key key) <;> rfl

theorem below_endpoint {document : Node} {uri method : Text} {callback : RESTCallBack Data}
    (huri : document.below? [.key "paths".toList, .key uri] =
      some (endpoint (Text.toUpper method) callback)) (key : Text) :
    document.below? [.key "paths".toList, .key uri, .key key] =
      if key = keyFor (Text.toLower method) [] then
        some (callback.getSwaggerDescription (.Object []))
      else none := by
  rw [below_key, huri, Option.bind_some, child_endpoint, Text.toLower_toUpper]

theorem below_none {document : Node} {uri : Text}
    (huri : document.below? [.key "paths".toList, .key uri] = none) (key : Text) :
    document.below? [.key "paths".toList, .key uri, .key key] = none := by
  rw [below_key, huri, Option.bind_none]

variable {regexes registrations} in
/-- Two methods of a documented URI are the one method that stands under it. -/
theorem Documented.oneMethod {mMembers : List (Text × Node)}
    {version title description schemes host basePath : Text}
    (hdocumented : registrations.Documented regexes mMembers version title description schemes host
      basePath) : registrations.OneMethod regexes := by
  obtain ⟨document, hdocument, hpaths⟩ := registrations.exists_paths regexes mMembers version title
    description schemes host basePath
  obtain ⟨document', hdocument', hall, -⟩ := hdocumented
  obtain rfl := Option.some.inj (hdocument'.symm.trans hdocument)
  have hkey (call : AddCall) (hcall : call ∈ registrations.registered regexes) {last : AddCall}
      {callback : RESTCallBack Data}
      (hlast : document'.below? [.key "paths".toList, .key call.uri] =
        some (endpoint (Text.toUpper last.method) callback)) :
      Text.toLower call.method = keyFor (Text.toLower last.method) [] := by
    obtain ⟨other, -, found, -, -, -, hfound⟩ := hall call hcall
    rw [below_endpoint hlast] at hfound
    by_contra hne
    rw [if_neg hne] at hfound
    cases hfound
  have hlast (call : AddCall) (hcall : call ∈ registrations.registered regexes) :
      ∃ (last : AddCall) (callback : RESTCallBack Data),
        document'.below? [.key "paths".toList, .key call.uri] =
          some (endpoint (Text.toUpper last.method) callback) := by
    rcases hpaths call.uri with ⟨last, -, callback, -, -, hfound⟩ | ⟨hother, -⟩
    · exact ⟨last, callback, hfound⟩
    · exact absurd rfl (hother call hcall)
  constructor
  · intro call hcall hnil
    obtain ⟨last, callback, hfound⟩ := hlast call hcall
    have heq := hkey call hcall hfound
    rw [hnil] at heq
    exact keyFor_ne_nil _ heq.symm
  · intro call hcall other hother huri
    obtain ⟨last, callback, hfound⟩ := hlast call hcall
    rw [hkey call hcall hfound]
    rw [huri] at hfound
    rw [hkey other hother hfound]

/-- The registry is documented exactly when no URI has two methods, and none the empty one. -/
theorem documented_iff (mMembers : List (Text × Node))
    (version title description schemes host basePath : Text) :
    registrations.Documented regexes mMembers version title description schemes host basePath ↔
      registrations.OneMethod regexes := by
  obtain ⟨document, hdocument, hpaths⟩ := registrations.exists_paths regexes mMembers version title
    description schemes host basePath
  refine ⟨Documented.oneMethod, ?_⟩
  rintro ⟨hmethods, hsame⟩
  have hkey (call : AddCall) (hcall : call ∈ registrations.registered regexes) :
      keyFor (Text.toLower call.method) [] = Text.toLower call.method := by
    refine if_neg fun hnil => hmethods call hcall ?_
    exact List.map_eq_nil_iff.mp hnil
  refine ⟨document, hdocument, fun call hcall => ?_, fun uri method node hnode => ?_⟩
  · rcases hpaths call.uri with ⟨last, hlast, callback, huri, hcallback, hfound⟩ | ⟨hother, -⟩
    · have hmethod := hsame last hlast call hcall huri
      refine ⟨last, hlast, callback, huri, hmethod, hcallback, ?_⟩
      rw [below_endpoint hfound, hkey last hlast, if_pos hmethod.symm]
    · exact absurd rfl (hother call hcall)
  · rcases hpaths uri with ⟨last, hlast, callback, huri, hcallback, hfound⟩ | ⟨-, hnone⟩
    · rw [below_endpoint hfound, hkey last hlast] at hnode
      by_cases hmethod : method = Text.toLower last.method
      · exact ⟨last, hlast, huri, hmethod.symm⟩
      · rw [if_neg hmethod] at hnode
        cases hnode
    · rw [below_none hnone] at hnode
      cases hnode

/-- One callback under one URI, for two methods. -/
def exampleRegistrations : Registrations Unit where
  callbacks := [⟨fun context => (context.returnData, .OK), [], []⟩]
  calls := [⟨"/a".toList, "GET".toList, 0⟩, ⟨"/a".toList, "POST".toList, 0⟩]
  uri_ne_nil := by decide
  p_lt := by decide

/-- Of the two methods only `post` is in the document. -/
theorem second_method_replaces :
    ¬ exampleRegistrations.Documented literalRegexes [] [] [] [] [] [] [] := by
  intro hdocumented
  have hsame := hdocumented.oneMethod.2 ⟨"/a".toList, "GET".toList, 0⟩ (by decide)
    ⟨"/a".toList, "POST".toList, 0⟩ (by decide) rfl
  exact absurd hsame (by decide)

end Registrations

end DumaisLib.Rest
