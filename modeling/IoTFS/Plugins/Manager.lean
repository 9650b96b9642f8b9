import IoTFS.Core.Exec
import IoTFS.Oic.Resource

/-!
# The plugin manager

`PluginManager::init` reads the configured plugins, loads their libraries and collects the
providers their modules register; `IoTFSInitializer` initialises the providers. A failed
load is caught where it happens, a missing key of an entry leaves `init` altogether, and
whatever a provider throws ends the loop that initialises them.
-/

namespace IoTFS.Plugins

open Oic (Str)

/-- `boost::property_tree::ptree`: a text, and children in document order. -/
inductive Ptree
  | node (data : Str) (children : List (Str × Ptree))

namespace Ptree

def data : Ptree → Str
  | node data _ => data

def children : Ptree → List (Str × Ptree)
  | node _ children => children

/-- The first child under a key. -/
def getChild (t : Ptree) (key : Str) : Option Ptree := t.children.lookup key

/-- `get<std::string>`: the text of the child under a key. -/
def get (t : Ptree) (key : Str) : Option Str := (t.getChild key).map data

end Ptree

/-- `SharedLibrary`: where a library lies, and its name. -/
structure SharedLibrary where
  path : Str
  name : Str
  deriving DecidableEq

/-- A module of the registry; `π` are addresses of providers. -/
structure Module (π : Type) where
  IsLoaded : Bool
  /-- What `GetServiceReferences` and `GetService` find from its context. -/
  services : List π

/-- What lies outside the manager: the configuration file, if it can be read, the libraries
that load, the modules in the registry once libraries are loaded, and the providers that
throw when they are initialised. -/
structure Host (π : Type) where
  directoryConf : Str
  readXml : Option Ptree
  /-- Whether `Load` succeeds for the entry at a position. -/
  loads : Nat → Bool
  GetModules : List SharedLibrary → List (Module π)
  initializeThrows : π → Bool

/-- An exception of any type; every handler catches them all. -/
inductive Thrown
  | thrown
  deriving DecidableEq

/-- `PluginManager`: the vector of providers, and the libraries loaded on the way. -/
structure PluginManager (π : Type) where
  loaded : List SharedLibrary
  providers : List π

variable {π : Type}

/-- Code of the manager: what was done stays done when an exception leaves it. -/
abbrev Plug (π : Type) := EStateM Thrown (PluginManager π)

/-- A value whose absence throws. -/
def required {α : Type} : Option α → Plug π α
  | some a => pure a
  | none => throw .thrown

/-- `SharedLibrary::Load` for the entry at position `k`. -/
def SharedLibrary.Load (H : Host π) (k : Nat) (libHandle : SharedLibrary) : Plug π Unit :=
  if H.loads k then modify fun pm => { pm with loaded := pm.loaded ++ [libHandle] }
  else throw .thrown

/-- Where an entry's library is looked for. -/
def Host.path (H : Host π) (path : Str) : Str := H.directoryConf ++ '/' :: path

/-- One turn of the loop over the entries. -/
def loadPlugin (H : Host π) (k : Nat) (node : Str × Ptree) : Plug π Unit := do
  if node.1 = "plugin".toList then
    let name ← required (node.2.get "name".toList)
    let path ← required (node.2.get "path".toList)
    tryCatch (SharedLibrary.Load H k ⟨H.path path, name⟩) fun _ => pure ()

/-- The loop over the entries from position `k`. -/
def loadPlugins (H : Host π) : Nat → List (Str × Ptree) → Plug π Unit
  | _, [] => pure ()
  | k, node :: nodes => do
    loadPlugin H k node
    loadPlugins H (k + 1) nodes

/-- `push_back` of a provider that is not in the vector. -/
def pushNew [DecidableEq π] (providers : List π) (provider : π) : List π :=
  if provider ∈ providers then providers else providers ++ [provider]

/-- The loop over the modules of the registry. -/
def collect [DecidableEq π] : List (Module π) → Plug π Unit
  | [] => pure ()
  | m :: modules => do
    if m.IsLoaded then
      modify fun pm => { pm with providers := m.services.foldl pushNew pm.providers }
    collect modules

/-- `PluginManager::init`: an unreadable file is reported, a missing root throws. -/
def PluginManager.init [DecidableEq π] (H : Host π) : Plug π Unit :=
  match H.readXml with
  | none => pure ()
  | some pt => do
    let plugins ← required (pt.getChild "plugins".toList)
    loadPlugins H 0 plugins.children
    collect (H.GetModules (← get).loaded)

/-- The static state: `_instance`, and the providers whose `initialize` was called. -/
structure Process (π : Type) where
  theInstance : Option (PluginManager π)
  initialized : List π

/-- `PluginManager::instance`: `_instance` is set before `init` runs. -/
def PluginManager.instance [DecidableEq π] (H : Host π) :
    EStateM Thrown (Process π) (PluginManager π) := fun s =>
  match s.theInstance with
  | some pm => .ok pm s
  | none =>
    match PluginManager.init H ⟨[], []⟩ with
    | .ok _ pm => .ok pm { s with theInstance := some pm }
    | .error e pm => .error e { s with theInstance := some pm }

/-- The loop of `IoTFSInitializer` over the providers. -/
def initializeAll (H : Host π) : List π → EStateM Thrown (Process π) Unit
  | [] => pure ()
  | provider :: providers => do
    modify fun s => { s with initialized := s.initialized ++ [provider] }
    if H.initializeThrows provider then throw .thrown
    initializeAll H providers

/-- `IoTFSInitializer::IoTFSInitializer`: one handler around everything. -/
def IoTFSInitializer [DecidableEq π] (H : Host π) : EStateM Thrown (Process π) Unit :=
  tryCatch (do
    let pm ← PluginManager.instance H
    initializeAll H pm.providers) fun _ => pure ()

/-- The process once the initializer has run. -/
def started [DecidableEq π] (H : Host π) : Process π :=
  Exec.final (IoTFSInitializer H ⟨none, []⟩)

end IoTFS.Plugins
