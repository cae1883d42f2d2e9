import DumaisLib.Rest.RESTCallBack

/-!
# The REST engine

Callbacks are registered under a method and a pattern.  The engine holds pointers
to them and deletes them; using a callback that has been deleted is an error.
-/

namespace DumaisLib.Rest

open DumaisLib.JSON

/-- A `RESTCallBack *`: callbacks are numbered in the order in which `new` makes them. -/
abbrev CallbackPointer := Nat

/-- `std::regex`: compiling throws on a text that is no pattern. -/
structure RegexLibrary (Regex : Type) where
  assign : Text → Option Regex
  regex_match : Regex → Text → Option (List Text)

structure ResourceIdentifier (Regex : Type) where
  uri : Text
  regex : Regex
  mpCallback : CallbackPointer

abbrev CallbackList (Regex : Type) := List (ResourceIdentifier Regex)

/-- The lists by method, in the order of the methods. -/
abbrev CallbackMap (Regex : Type) := List (Text × CallbackList Regex)

/-- `mCallbacks[method].push_back(ri)` -/
def CallbackMap.push {Regex : Type} (method : Text) (ri : ResourceIdentifier Regex) :
    CallbackMap Regex → CallbackMap Regex
  | [] => [(method, [ri])]
  | (key, list) :: rest =>
      if method = key then (key, list ++ [ri]) :: rest
      else if method < key then (method, [ri]) :: (key, list) :: rest
      else (key, list) :: CallbackMap.push method ri rest

/-- The engine, and all callbacks that have been made, none for those deleted. -/
structure RESTEngine (Regex Data : Type) where
  mCallbacks : CallbackMap Regex
  callbacks : List (Option (RESTCallBack Data))

namespace RESTEngine

variable {Regex Data : Type} (regexes : RegexLibrary Regex) (engine : RESTEngine Regex Data)

def create : RESTEngine Regex Data :=
  ⟨[], []⟩

/-- What the pointer points to. -/
def deref (p : CallbackPointer) : Option (RESTCallBack Data) :=
  engine.callbacks[p]?.join

/-- `delete`, of what has not been deleted. -/
def delete (p : CallbackPointer) : Option (RESTEngine Regex Data) :=
  (engine.deref p).map fun _ => { engine with callbacks := engine.callbacks.set p none }

/-- All entries, in the order in which they are visited. -/
def entries : CallbackList Regex :=
  engine.mCallbacks.flatMap Prod.snd

def newCallBack (callback : RESTCallBack Data) : RESTEngine Regex Data :=
  { engine with callbacks := engine.callbacks ++ [some callback] }

/-- Nothing is registered when the pattern is refused. -/
def addCallBack (uri method : Text) (p : CallbackPointer) : RESTEngine Regex Data :=
  match regexes.assign uri with
  | none => engine
  | some regex =>
      { engine with mCallbacks := engine.mCallbacks.push (Text.toUpper method) ⟨uri, regex, p⟩ }

/-- In each list the first entry of the callback goes. -/
def eraseFirst (p : CallbackPointer) : CallbackMap Regex → CallbackMap Regex :=
  List.map fun keyed => (keyed.1, keyed.2.eraseP (·.mpCallback = p))

def removeCallBack (p : CallbackPointer) : Option (RESTEngine Regex Data) :=
  { engine with mCallbacks := eraseFirst p engine.mCallbacks }.delete p

/-- The destructor deletes the callback of every entry. -/
def destroy : Option (RESTEngine Regex Data) :=
  (engine.entries.foldlM (fun engine ri => RESTEngine.delete engine ri.mpCallback) engine).map fun engine =>
    { engine with mCallbacks := [] }

/-- The path that is matched and the parameters. -/
def splitUrl (url : Text) : Text × Text :=
  if '?' ∈ url then
    (url.takeWhile (· ≠ '?'), (url.dropWhile (· ≠ '?')).drop 1)
  else (url.takeWhile (· ≠ ' '), [])

/-- `none` when the callback that is called has been deleted. -/
def invoke (j : Node) (url method data : Text) (userData : Option Data) :
    Option (Node × ResponseCode) :=
  match engine.mCallbacks.lookup (Text.toUpper method) with
  | none => some (j, .MethodNotAllowed)
  | some list =>
      let parts := splitUrl url
      let matching (ri : ResourceIdentifier Regex) : Option (CallbackPointer × List Text) :=
        (regexes.regex_match ri.regex parts.1).map fun groups => (ri.mpCallback, groups)
      match list.findSome? matching with
      | none => some (j, .NotFound)
      | some (p, groups) =>
          (engine.deref p).map fun callback => callback.call j parts.2 data groups userData

/-- The entries with their methods, in the order in which they are visited. -/
def methodEntries : List (Text × ResourceIdentifier Regex) :=
  engine.mCallbacks.flatMap fun keyed => keyed.2.map fun ri => (keyed.1, ri)

def documentInterface (json : Node) : Option Node :=
  let describe (json : Node) (entry : Text × ResourceIdentifier Regex) : Option Node :=
    (engine.deref entry.2.mpCallback).map fun callback =>
      json.mapChild (Node.addFilled (.addObject []) fun j =>
        ((callback.getDescription j).addString entry.2.uri "path".toList).addString
          (Text.toUpper entry.1) "method".toList) (.key "api".toList)
  engine.methodEntries.foldlM describe (json.add (.addList "api".toList))

def documentSwaggerInterface (json : Node)
    (version title description schemes host basePath : Text) : Option Node :=
  let json := json.add (.addValue (.double "2".toList) "swagger".toList)
  let json := json.addFilled (.addObject "info".toList) fun info =>
    ((info.addString version "version".toList).addString title "title".toList).addString
      description "descrition".toList
  let json := json.addString schemes "schemes".toList
  let json := json.addString host "host".toList
  let json := json.addString basePath "basePath".toList
  let describe (paths : Node) (entry : Text × ResourceIdentifier Regex) : Option Node :=
    (engine.deref entry.2.mpCallback).map fun callback =>
      paths.addFilled (.addObject entry.2.uri) fun path =>
        path.addFilled (.addObject (Text.toLower entry.1)) callback.getSwaggerDescription
  (engine.methodEntries.foldlM describe (.Object [])).map fun paths =>
    json.addFilled (.addObject "paths".toList) fun _ => paths

end RESTEngine

end DumaisLib.Rest
