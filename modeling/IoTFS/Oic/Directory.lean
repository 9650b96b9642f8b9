import IoTFS.Core.DirTree
import IoTFS.Oic.File

/-!
# Folders of the mounted tree

Folder references are absolute paths into one directory tree. The kit takes every name as
a C string, so an entry is kept under the text the code hands over up to its first NUL.
The functions run in a monad that keeps the state when they fail: a `std::exception` may
come out of any call into the file-system kit or the stack, and dereferencing a failed
`dynamic_cast` ends the process. A GET blocks until its handler has run, so the handler is
part of the call. An exception of the handler is modelled as reaching the caller of the
GET, where `foundResource` catches it; in the source it is thrown on a thread of the stack
and skips `resume`, so that the caller goes on waiting.
-/

namespace IoTFS.Oic

/-- An absolute path, one name per level. -/
abbrev Path := List Str

/-- The dynamic classes found in the tree. -/
inductive EntryClass
  | IoTFolder
  | OICFolder
  | OICRTFolder
  | OICFile
  deriving DecidableEq, Repr

/-- Subclassing: `OICRTFolder` is an `OICFolder`, which is an `IoTFolder`. -/
def EntryClass.isA : EntryClass → EntryClass → Bool
  | .IoTFolder, .IoTFolder => true
  | .OICFolder, .IoTFolder | .OICFolder, .OICFolder => true
  | .OICRTFolder, .IoTFolder | .OICRTFolder, .OICFolder | .OICRTFolder, .OICRTFolder => true
  | .OICFile, .OICFile => true
  | _, _ => false

/-- A directory entry. The constructor of `OICRTFolder` allocates the stub, so the
null test of `getState` never fires. -/
inductive Entry (ι : Type)
  | ioTFolder
  | oicFolder
  | oicRTFolder (stub : OICStub ι)
  | oicFile (file : OICFile ι)

namespace Entry

variable {ι : Type}

/-- The dynamic class of an entry. -/
def cls : Entry ι → EntryClass
  | ioTFolder => .IoTFolder
  | oicFolder => .OICFolder
  | oicRTFolder _ => .OICRTFolder
  | oicFile _ => .OICFile

/-- Folders hold entries, files do not. -/
def isDir (e : Entry ι) : Bool := e.cls.isA .IoTFolder

end Entry

/-- The directory tree of the daemon. -/
abbrev Tree (ι : Type) := DirTree Str (Entry.isDir (ι := ι))

/-- What the code takes from its environment: how identifiers stream to text, the
interface constants, and whether adding under a taken name replaces the entry. -/
structure Platform (ι : Type) where
  stream : ι → Str
  interfaces : Interfaces
  overwrites : Bool

/-- A call worth remembering: what was added where, and which reply a stub received. -/
inductive Event (ι : Type)
  | addDirectory (parent : Path) (name : Str) (taken : Bool)
  | addFile (parent : Path) (name : Str) (taken : Bool) (reply : Reply)
  | answered (stub : OICStub ι) (reply : Reply)

/-- The state of the provider and of the tree it fills. -/
structure Provider (ι : Type) where
  /-- The tree under the mount point. -/
  tree : Tree ι
  /-- `_resources`. -/
  resources : List (ι × OCResource ι)
  /-- The next free stub address. -/
  nextStub : Nat
  /-- Calls made for the announcement being handled. -/
  calls : Nat
  /-- History of additions and replies. -/
  trace : List (Event ι)

/-- The ways a function fails. -/
inductive Fault
  | nullCast
  | exception
  deriving DecidableEq, Repr

/-- Provider code: state is kept on failure. -/
abbrev Build (ι : Type) := EStateM Fault (Provider ι)

/-- One announcement together with what happens while it is handled: the reply to the
GET of each resource type, the calls that throw, and the words found in fresh memory. -/
structure Announcement (ι : Type) where
  resource : OCResource ι
  replies : Nat → Reply
  throws : Nat → Bool
  memory : Nat → BitVec 32

/-- No call made for the announcement throws. -/
def Announcement.Calm {ι : Type} (a : Announcement ι) : Prop := ∀ n, a.throws n = false

theorem Announcement.Calm.not_throws {ι : Type} {a : Announcement ι} (h : a.Calm) (n : Nat) :
    ¬ a.throws n = true := Bool.eq_false_iff.mp (h n)

variable {ι : Type}

/-- A call into the kit or the stack, which may throw. -/
def call (a : Announcement ι) : Build ι Unit := fun w =>
  if a.throws w.calls then .error .exception { w with calls := w.calls + 1 }
  else .ok () { w with calls := w.calls + 1 }

/-- Remember an event. -/
def note (e : Event ι) : Build ι Unit := fun w => .ok () { w with trace := w.trace ++ [e] }

/-- `directory::find`, with the name as the C string it is handed. -/
def find (a : Announcement ι) (parent : Path) (name : Str) : Build ι (Option (Entry ι)) := do
  call a
  return (← get).tree.find parent name

/-- The tree after adding an entry: an absent name always gets it, a taken one as the
kit decides. -/
def stored (P : Platform ι) (t : Tree ι) (parent : Path) (name : Str) (e : Entry ι) : Tree ι :=
  if (t.find parent name).isSome && !P.overwrites then t else t.put parent name e

/-- Add an entry to the tree. -/
def store (P : Platform ι) (parent : Path) (name : Str) (e : Entry ι) : Build ι Unit := fun w =>
  .ok () { w with tree := stored P w.tree parent name e }

/-- `directory::add_directory`, with the name as the C string it is handed, returning the
path of the child. -/
def addDirectory (P : Platform ι) (a : Announcement ι) (parent : Path) (name : Str)
    (e : Entry ι) : Build ι Path := do
  note (.addDirectory parent name ((← get).tree.find parent name).isSome)
  call a
  store P parent name e
  return parent ++ [name]

/-- `directory::add_file`, with the name as the C string it is handed. -/
def addFile (P : Platform ι) (a : Announcement ι) (parent : Path) (name : Str)
    (file : OICFile ι) (reply : Reply) : Build ι Unit := do
  note (.addFile parent name ((← get).tree.find parent name).isSome reply)
  call a
  store P parent name (.oicFile file)

/-- Dereference the result of a `dynamic_cast` to a class. -/
def dynamicCast (target : EntryClass) (e : Entry ι) : Build ι Unit :=
  if e.cls.isA target then pure () else throw .nullCast

/-- Find the child under a C string, or add `fresh` there; a child found is cast to
`target`. -/
def findOrAdd (P : Platform ι) (a : Announcement ι) (fresh : Entry ι) (target : EntryClass)
    (parent : Path) (name : Str) : Build ι Path := do
  match ← find a parent name with
  | none => addDirectory P a parent name fresh
  | some e =>
    dynamicCast target e
    return parent ++ [name]

/-- `IoTFolder::makeChildFolder`. -/
def IoTFolder.makeChildFolder (P : Platform ι) (a : Announcement ι) (this : Path) (name : Str) :
    Build ι Path :=
  findOrAdd P a .ioTFolder .IoTFolder this (cStr name)

/-- `OICFolder::makeChildFolder`. -/
def OICFolder.makeChildFolder (P : Platform ι) (a : Announcement ι) (this : Path) (name : Str) :
    Build ι Path :=
  findOrAdd P a .oicFolder .OICFolder this (cStr name)

/-- The virtual call `makeChildFolder`, dispatched on the class of the folder. -/
def makeChildFolder (P : Platform ι) (a : Announcement ι) (this : Path) (name : Str) :
    Build ι Path := do
  if ((← get).tree.entry this).map Entry.cls = some .IoTFolder then
    IoTFolder.makeChildFolder P a this name
  else OICFolder.makeChildFolder P a this name

/-- `createOICFolder`. -/
def createOICFolder (P : Platform ι) (a : Announcement ι) (parent : Path) (child : Str) :
    Build ι Path :=
  findOrAdd P a .oicFolder .OICFolder parent (cStr child)

/-- The file `onGetState` creates for one item of a reply. -/
def newFile (P : Platform ι) (stub : OICStub ι) (memory : BitVec 32)
    (item : Str × AttributeValue) : OICFile ι :=
  .construct P.interfaces memory item.1 stub.resource.getResourceInterfaces
    (.single item.1 ⟨item.2.getValueToString, item.2.type⟩) (some stub)

/-- The loop of `onGetState` over the remaining items. -/
def addItems (P : Platform ι) (a : Announcement ι) (this : Path) (stub : OICStub ι)
    (reply : Reply) : List (Str × AttributeValue) → Build ι Unit
  | [] => pure ()
  | item :: items => do
    addFile P a this (cStr item.1) (newFile P stub (a.memory (← get).calls) item) reply
    addItems P a this stub reply items

/-- `OICRTFolder::onGetState`: the error code is not looked at. -/
def OICRTFolder.onGetState (P : Platform ι) (a : Announcement ι) (this : Path)
    (stub : OICStub ι) (reply : Reply) : Build ι Unit :=
  addItems P a this stub reply reply.rep.items

/-- `OICRTFolder::getState`: the stub's `get` returns once the handler has run. -/
def OICRTFolder.getState (P : Platform ι) (a : Announcement ι) (this : Path)
    (stub : OICStub ι) (reply : Reply) : Build ι Unit := do
  call a
  note (.answered stub reply)
  OICRTFolder.onGetState P a this stub reply

/-- `new OICRTFolder(resource)` allocates a stub bound to the resource. -/
def newStub (resource : OCResource ι) : Build ι (OICStub ι) := fun w =>
  .ok ⟨w.nextStub, resource⟩ { w with nextStub := w.nextStub + 1 }

/-- The stub of a resource-type folder, dereferenced through `dynamic_cast`. -/
def asRTFolder : Entry ι → Build ι (OICStub ι)
  | .oicRTFolder stub => pure stub
  | _ => throw .nullCast

/-- One turn of the loop of `createResourceTypeFolder`, with the type as a C string. -/
def typeFolder (P : Platform ι) (a : Announcement ι) (this : Path) (rt : Str) :
    Build ι (OICStub ι) := do
  match ← find a this rt with
  | none =>
    let stub ← newStub a.resource
    let _ ← addDirectory P a this rt (.oicRTFolder stub)
    return stub
  | some e => asRTFolder e

/-- The loop of `createResourceTypeFolder` from the type with index `k`, over the types as C
strings. -/
def typeFolders (P : Platform ι) (a : Announcement ι) (this : Path) :
    Nat → List Str → Build ι Unit
  | _, [] => pure ()
  | k, rt :: rts => do
    let stub ← typeFolder P a this rt
    OICRTFolder.getState P a (this ++ [rt]) stub (a.replies k)
    typeFolders P a this (k + 1) rts

/-- `OICFolder::createResourceTypeFolder`. -/
def OICFolder.createResourceTypeFolder (P : Platform ι) (a : Announcement ι) (this : Path) :
    Build ι Unit :=
  typeFolders P a this 0 a.resource.typeNames

end IoTFS.Oic
