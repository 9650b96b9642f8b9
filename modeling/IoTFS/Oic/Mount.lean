import IoTFS.Oic.Moves

/-!
# The mounted file system

Applications read and write the files by path while announcements go on filling the tree.
A call on a path without a file fails before it reaches this code.
-/

namespace IoTFS.Oic

variable {ι : Type}

/-- The mounted tree and the calls served so far. -/
structure Mount (ι : Type) where
  provider : Provider ι
  history : List (Path × FileOp × Outcome ι)

/-- What reaches the daemon: an announcement, or a call on the file at a path. -/
inductive MountEvent (ι : Type)
  | announce (a : Announcement ι)
  | call (q : Path) (op : FileOp)

/-- Put another file in the place of a file. -/
def Entry.refile (file : OICFile ι) : Entry ι → Entry ι
  | .oicFile _ => .oicFile file
  | e => e

theorem Entry.isDir_refile (file : OICFile ι) (e : Entry ι) :
    (Entry.refile file e).isDir = e.isDir := by
  cases e <;> rfl

/-- The provider once the file at `q` has become `file`. -/
def Provider.refile (w : Provider ι) (q : Path) (file : OICFile ι) : Provider ι :=
  { w with tree := w.tree.modify q (Entry.refile file) (Entry.isDir_refile file) }

namespace Mount

/-- One event; a call without a file, and an announcement the daemon does not survive, have
no successor. -/
def step [DecidableEq ι] (P : Platform ι) (m : Mount ι) : MountEvent ι → Option (Mount ι)
  | .announce a => (announce P m.provider a).map fun w => { m with provider := w }
  | .call q op =>
    match m.provider.tree.entry q with
    | some (.oicFile f) => some {
        provider := m.provider.refile q (f.perform op).file
        history := m.history ++ [(q, op, f.perform op)] }
    | _ => none

/-- The mount of an empty tree. -/
def initial : Mount ι := ⟨.initial, []⟩

end Mount

/-- A file found after a call is the file called, at its path, or was there before. -/
theorem file_of_refile {w : Provider ι} {q p : Path} {file f : OICFile ι}
    (h : (w.refile q file).tree.entry p = some (.oicFile f)) :
    (p = q ∧ f = file) ∨ w.tree.entry p = some (.oicFile f) := by
  simp only [Provider.refile, DirTree.entry_modify] at h
  split at h
  · rename_i hp
    obtain ⟨e, -, hf⟩ := Option.map_eq_some_iff.mp h
    cases e with
    | oicFile f' =>
      cases hf
      exact Or.inl ⟨hp, rfl⟩
    | ioTFolder | oicFolder | oicRTFolder stub => cases hf
  · exact Or.inr h

end IoTFS.Oic
