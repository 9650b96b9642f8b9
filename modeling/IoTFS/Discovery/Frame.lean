import IoTFS.Oic.Moves

/-!
# What an announcement leaves alone

New folders appear on the path of the resource and as its type folders only. What was
there stays, except that a file of a reply takes the place of the file of an earlier one.
The one exception is an attribute named like a folder that already lies in the type
folder: one kit puts the file in the place of the folder, another keeps the folder.
-/

namespace IoTFS.Oic

open Exec

variable {ι : Type} {P : Platform ι} {a : Announcement ι} {w w' : Provider ι}

/-- No attribute of a reply is the name of a folder in its type folder. -/
def Vacant (P : Platform ι) (a : Announcement ι) (w : Provider ι) : Prop :=
  ∀ (k : Nat) (rt : Str), a.resource.typeNames[k]? = some rt →
    ∀ item ∈ (a.replies k).rep.items, ¬ FolderAt w (a.path P ++ [rt] ++ [cStr item.1])

/-- In the resource-type folder at `p` lies a file of the name `n` with the stub of the
folder. -/
def HoldsFile (w : Provider ι) (p : Path) (n : Str) : Prop :=
  ∃ stub f, w.tree.entry p = some (.oicRTFolder stub) ∧
    w.tree.entry (p ++ [n]) = some (.oicFile f) ∧ cStr f.fileName = n ∧ f.stub = some stub

/-- The stub of the file is the one of the folder found there. -/
theorem HoldsFile.bound {p : Path} {n : Str} {stub : OICStub ι} (h : HoldsFile w p n)
    (hp : w.tree.entry p = some (.oicRTFolder stub)) : ∃ f,
      w.tree.entry (p ++ [n]) = some (.oicFile f) ∧ cStr f.fileName = n ∧
        f.stub = some stub := by
  obtain ⟨stub', f, hp', hf, hname, hstub⟩ := h
  rw [hp] at hp'
  cases hp'
  exact ⟨f, hf, hname, hstub⟩

/-- Folders stay as they are, files stay in their folders, and so does the history. -/
structure Keeps (w w' : Provider ι) : Prop where
  file : ∀ p n, HoldsFile w p n → HoldsFile w' p n
  folder : ∀ q e, w.tree.entry q = some e → e.isDir = true → w'.tree.entry q = some e
  trace : ∀ e ∈ w.trace, e ∈ w'.trace

theorem Keeps.refl (w : Provider ι) : Keeps w w :=
  ⟨fun _ _ h => h, fun _ _ h _ => h, fun _ h => h⟩

theorem Keeps.trans {w'' : Provider ι} (h : Keeps w w') (h' : Keeps w' w'') : Keeps w w'' :=
  ⟨fun p n hn => h'.file p n (h.file p n hn),
    fun q e hq he => h'.folder q e (h.folder q e hq he) he,
    fun e he => h'.trace e (h.trace e he)⟩

/-- Every file lies under its name in a resource-type folder, with the stub of the folder. -/
def FilesBound (w : Provider ι) : Prop :=
  ∀ q f, w.tree.entry q = some (.oicFile f) → ∃ p n, q = p ++ [n] ∧ HoldsFile w p n

theorem filesBound_initial : FilesBound (Provider.initial : Provider ι) := by
  intro q f h
  rw [Provider.entry_initial] at h
  split at h <;> cases h

/-- What lies under a name and is no folder is then such a file. -/
theorem FilesBound.holdsFile (h : FilesBound w) {p : Path} {n : Str}
    (hsome : (w.tree.entry (p ++ [n])).isSome = true) (hno : ¬ FolderAt w (p ++ [n])) :
    HoldsFile w p n := by
  obtain ⟨e, he⟩ := Option.isSome_iff_exists.mp hsome
  rw [FolderAt, he, Option.any_some] at hno
  cases e with
  | oicFile f =>
    obtain ⟨p', n', hq, hholds⟩ := h _ f he
    obtain ⟨rfl, hn⟩ := List.append_inj' hq rfl
    cases hn
    exact hholds
  | ioTFolder | oicFolder | oicRTFolder stub => exact absurd rfl hno

/-- A move adds files to resource-type folders only, with their stubs. -/
theorem Move.filesBound (h : Move P a w w') (hw : FilesBound w) : FilesBound w' := by
  intro q f hq
  obtain ⟨new, hcases⟩ := h.entry_cases
  rcases hcases q _ hq with ⟨-, hadd⟩ | ⟨hold, habove⟩
  · cases hadd with
    | file k rt stub i item hk hpath hrt =>
      rw [hpath] at hq
      exact ⟨_, _, hpath, stub, _, hrt, hq, rfl, rfl⟩
  · obtain ⟨p, n, rfl, stub, f', hp, hf', hname, hstub⟩ := hw q f hold
    rw [← habove p (List.prefix_append _ _)] at hp
    rw [← habove _ List.prefix_rfl] at hf'
    exact ⟨p, n, rfl, stub, f', hp, hf', hname, hstub⟩

/-- Nothing is in the way of the files of the replies. -/
structure Ready (P : Platform ι) (a : Announcement ι) (w : Provider ι) : Prop where
  vacant : Vacant P a w
  bound : FilesBound w

/-- A folder present after a move was present before, or lies on the path of the resource
or is one of its type folders. -/
theorem Move.folder_new (h : Move P a w w') {q : Path} (hq : FolderAt w' q) :
    FolderAt w q ∨ q <+: a.path P ∨
      ∃ rt ∈ a.resource.typeNames, q = a.path P ++ [rt] := by
  cases h with
  | counted n | tried n m parent name | answered n k rt stub | triedFile n k rt item =>
    exact Or.inl hq
  | folder n parent name e hpath he hd hn =>
    simp only [FolderAt, DirTree.entry_put_absent hd hn] at hq
    by_cases hnew : q = parent ++ [name]
    · exact Or.inr (Or.inl (hnew ▸ hpath))
    · rw [if_neg hnew] at hq
      exact Or.inl hq
  | typeFolder n rt hrt hd hn =>
    simp only [FolderAt, DirTree.entry_put_absent hd hn] at hq
    by_cases hnew : q = a.path P ++ [rt]
    · exact Or.inr (Or.inr ⟨rt, hrt, hnew⟩)
    · rw [if_neg hnew] at hq
      exact Or.inl hq
  | file n k rt stub memory item hk hrt hans hmem =>
    obtain ⟨x, hx, hdir⟩ := folderAt_iff.mp hq
    rcases entry_stored_cases (isDir_of_typeFolder hrt) hx with ⟨-, rfl⟩ | ⟨hold, -⟩
    · cases hdir
    · exact Or.inl (folderAt_iff.mpr ⟨x, hold, hdir⟩)

/-- Storing a file where no folder is keeps everything else, and an entry there. -/
theorem entry_stored_kept {t : Tree ι} {parent q : Path} {name : Str} {e x : Entry ι}
    (hd : (t.entry parent).any Entry.isDir = true)
    (hvac : P.overwrites = true → ¬ (t.entry (parent ++ [name])).any Entry.isDir = true)
    (hq : t.entry q = some x) :
    (stored P t parent name e).entry q = some x ∨
      (q = parent ++ [name] ∧ x.isDir = false ∧
        (stored P t parent name e).entry q = some e) := by
  by_cases hkeep : ((t.find parent name).isSome && !P.overwrites) = true
  · simp only [stored, hkeep, if_true]
    exact Or.inl hq
  · have hput : stored P t parent name e = t.put parent name e := by
      simp only [stored, hkeep, Bool.false_eq_true, if_false]
    have hnone : ¬ (t.entry (parent ++ [name])).any Entry.isDir = true := by
      cases ho : P.overwrites with
      | true => exact hvac ho
      | false =>
        have hf : t.entry (parent ++ [name]) = none := by
          simpa [ho, DirTree.find] using hkeep
        simp [hf]
    rw [hput, DirTree.entry_put hd]
    by_cases hnew : q = parent ++ [name]
    · refine Or.inr ⟨hnew, ?_, if_pos hnew⟩
      rw [← hnew, hq, Option.any_some] at hnone
      exact eq_false_of_ne_true hnone
    · rw [if_neg hnew]
      by_cases hb : parent ++ [name] <+: q
      · rw [t.entry_below hnone hb hnew] at hq
        cases hq
      · rw [if_neg hb]
        exact Or.inl hq

/-- After adding under a name of a folder there is an entry. -/
theorem entry_stored_self {t : Tree ι} {parent : Path} {name : Str} {e : Entry ι}
    (hd : (t.entry parent).any Entry.isDir = true) :
    ((stored P t parent name e).entry (parent ++ [name])).isSome = true := by
  unfold stored
  split
  · rename_i hkeep
    rw [Bool.and_eq_true] at hkeep
    exact hkeep.1
  · rw [DirTree.entry_put_self hd]
    rfl

/-- Adding under an absent name keeps the files that were there. -/
theorem HoldsFile.put_absent {parent p : Path} {name n : Str} {e : Entry ι}
    (h : HoldsFile w p n) (hd : (w.tree.entry parent).any Entry.isDir = true)
    (hn : w.tree.find parent name = none) (ht : w'.tree = w.tree.put parent name e) :
    HoldsFile w' p n := by
  obtain ⟨stub, f, hp, hf, hname, hstub⟩ := h
  refine ⟨stub, f, ?_, ?_, hname, hstub⟩
  · rw [ht]
    exact DirTree.entry_put_kept hd hn hp
  · rw [ht]
    exact DirTree.entry_put_kept hd hn hf

/-- Adding a file to a resource-type folder keeps the files that were there, or puts the new
one in the place of one of its name. -/
theorem HoldsFile.stored {this p : Path} {n : Str} {stub : OICStub ι} {memory : BitVec 32}
    {item : Str × AttributeValue} (h : HoldsFile w p n)
    (hrt : w.tree.entry this = some (.oicRTFolder stub))
    (hvac : P.overwrites = true →
      ¬ (w.tree.entry (this ++ [cStr item.1])).any Entry.isDir = true)
    (ht : w'.tree = Oic.stored P w.tree this (cStr item.1)
      (.oicFile (newFile P stub memory item))) : HoldsFile w' p n := by
  have hd := isDir_of_typeFolder hrt
  obtain ⟨stub', f, hp, hf, hname, hstub⟩ := h
  have hp' : w'.tree.entry p = some (.oicRTFolder stub') := by
    rw [ht]
    rcases entry_stored_kept hd hvac hp with hkept | ⟨-, hno, -⟩
    · exact hkept
    · cases hno
  rcases entry_stored_kept hd hvac hf with hkept | ⟨hq, -, hnew⟩
  · rw [← ht] at hkept
    exact ⟨stub', f, hp', hkept, hname, hstub⟩
  · obtain ⟨rfl, hn⟩ := List.append_inj' hq rfl
    cases hn
    rw [hrt] at hp
    cases hp
    rw [← ht] at hnew
    exact ⟨stub, _, hp', hnew, rfl, rfl⟩

/-- A move keeps what was there. -/
theorem Move.keeps (h : Move P a w w') (hvac : Vacant P a w) : Keeps w w' := by
  have htrace := fun e he => h.mem_trace (e := e) he
  cases h with
  | counted n | tried n m parent name | answered n k rt stub | triedFile n k rt item =>
    exact ⟨fun _ _ hq => hq, fun _ _ hq _ => hq, htrace⟩
  | folder n parent name e hpath he hd hn =>
    exact ⟨fun p m hm => hm.put_absent hd hn rfl,
      fun q x hq _ => DirTree.entry_put_kept hd hn hq, htrace⟩
  | typeFolder n rt hrt hd hn =>
    exact ⟨fun p m hm => hm.put_absent hd hn rfl,
      fun q x hq _ => DirTree.entry_put_kept hd hn hq, htrace⟩
  | file n k rt stub i item hk hrt hans hmem =>
    have hfile := fun _ : P.overwrites = true => hvac k rt hk item hmem
    refine ⟨fun p m hm => hm.stored hrt hfile rfl, fun q x hq hdir => ?_, htrace⟩
    rcases entry_stored_kept (isDir_of_typeFolder hrt) hfile hq with hx | ⟨-, hf, -⟩
    · exact hx
    · rw [hdir] at hf
      cases hf

/-- No attribute gets in the way of a folder by a move. -/
theorem Move.vacant (h : Move P a w w') (hvac : Vacant P a w) : Vacant P a w' := by
  intro k rt hk item hitem hq
  rcases h.folder_new hq with hold | hpath | ⟨rt', -, hpath⟩
  · exact hvac k rt hk item hitem hold
  · have hl := hpath.length_le
    simp only [List.length_append, List.length_singleton] at hl
    omega
  · have hl := congrArg List.length hpath
    simp only [List.length_append, List.length_singleton] at hl
    omega

theorem Ready.move (h : Ready P a w) (hm : Move P a w w') : Ready P a w' :=
  ⟨hm.vacant h.vacant, hm.filesBound h.bound⟩

/-- Moves keep what was there. -/
theorem Ready.moves (h : Ready P a w) (hm : Relation.ReflTransGen (Move P a) w w') :
    Keeps w w' ∧ Ready P a w' := by
  induction hm with
  | refl => exact ⟨.refl w, h⟩
  | tail _ hstep ih =>
    obtain ⟨hkeep, hready⟩ := ih
    exact ⟨hkeep.trans (hstep.keeps hready.vacant), hready.move hstep⟩

/-- Code that returns after some moves keeps what was there and leaves what it promises. -/
theorem Ready.traverses {α : Type} {m : Build ι α} {pre : Provider ι → Prop}
    {post : α → Provider ι → Prop} (h : Ready P a w) (ht : Traverses (Move P a) pre m post)
    (hpre : pre w) {x : α} (hm : m w = .ok x w') : Keeps w w' ∧ Ready P a w' ∧ post x w' := by
  obtain ⟨hmoves, hpost⟩ := ht w hpre
  rw [hm] at hmoves
  obtain ⟨hkeep, hready⟩ := h.moves hmoves
  exact ⟨hkeep, hready, hpost x w' hm⟩

end IoTFS.Oic
