import IoTFS.Core.Machine
import IoTFS.Oic.Directory

/-!
# Discovery

`foundResource` records an identifier the first time it is announced and builds its
folder path below the root. The daemon survives an announcement unless a failed cast
is dereferenced; a standard exception is logged and swallowed.
-/

namespace IoTFS.Oic

variable {ι : Type}

/-- `OICInfoProvider::createFolderByUri`, recursing past the first separator. -/
def createFolderByUri (P : Platform ι) (a : Announcement ι) (parent : Path) (uri : Str) :
    Build ι Unit :=
  match h : uri.findIdx? (· = '/') with
  | none => do
    let folder ← createOICFolder P a parent uri
    OICFolder.createResourceTypeFolder P a folder
  | some pos => do
    let step ← makeChildFolder P a parent (uri.take pos)
    createFolderByUri P a step (uri.drop (pos + 1))
termination_by uri.length
decreasing_by
  have hp := (List.findIdx?_eq_some_iff_getElem.mp h).1
  simp only [List.length_drop]
  omega

/-- The body of the `try` block of `foundResource`. -/
def handleResource [DecidableEq ι] (P : Platform ι) (a : Announcement ι) : Build ι Unit := do
  let id := a.resource.uniqueIdentifier
  if id ∉ (← get).resources.map Prod.fst then
    modify fun w => { w with resources := w.resources ++ [(id, a.resource)], calls := 0 }
    createFolderByUri P a [] (P.stream id)

/-- `OICInfoProvider::foundResource`: standard exceptions are caught. -/
def foundResource [DecidableEq ι] (P : Platform ι) (a : Announcement ι) : Build ι Unit :=
  tryCatch (handleResource P a) fun
    | .exception => pure ()
    | .nullCast => throw .nullCast

/-- The provider before the first announcement: an empty root `IoTFolder`. -/
def Provider.initial : Provider ι where
  tree := .single .ioTFolder rfl
  resources := []
  nextStub := 0
  calls := 0
  trace := []

theorem Provider.entry_initial (q : Path) :
    (initial : Provider ι).tree.entry q = if q = [] then some .ioTFolder else none := rfl

/-- The provider after an announcement the daemon survives. -/
def announce [DecidableEq ι] (P : Platform ι) (w : Provider ι) (a : Announcement ι) :
    Option (Provider ι) :=
  match foundResource P a w with
  | .ok _ w' => some w'
  | .error _ _ => none

/-- The provider after a sequence of announcements, if the daemon survives them. -/
def discover [DecidableEq ι] (P : Platform ι) (as : List (Announcement ι)) :
    Option (Provider ι) :=
  Machine.exec (announce P) .initial as

end IoTFS.Oic
