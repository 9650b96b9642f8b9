import IoTFS.Oic.Walk

/-!
# What one announcement can do

Every function run on behalf of an announcement is a finite sequence of moves, whether
it returns or fails. A move says where it adds what, and under which guard, so that an
invariant of discovery needs one case for each kind of move and none of the code.
-/

namespace IoTFS.Oic

open Exec

variable {ι : Type} {P : Platform ι} {a : Announcement ι}

/-- One change to the provider while the announcement `a` is handled; `n` is the number
of calls made so far. -/
inductive Move (P : Platform ι) (a : Announcement ι) : Provider ι → Provider ι → Prop
  /-- A call returned without adding anything. -/
  | counted (w : Provider ι) (n : Nat) : Move P a w { w with calls := n }
  /-- An addition under an absent name threw; a stub may have been allocated for it. -/
  | tried (w : Provider ι) (n m : Nat) (parent : Path) (name : Str) :
      (parent ++ [name] <+: a.path P ∨
        parent = a.path P ∧ name ∈ a.resource.typeNames) →
      w.tree.find parent name = none → w.nextStub ≤ m →
      Move P a w { w with
        calls := n, nextStub := m
        trace := w.trace ++ [.addDirectory parent name false] }
  /-- A plain folder was added on the path of the resource. -/
  | folder (w : Provider ι) (n : Nat) (parent : Path) (name : Str) (e : Entry ι) :
      parent ++ [name] <+: a.path P → e = .ioTFolder ∨ e = .oicFolder →
      (w.tree.entry parent).any Entry.isDir = true → w.tree.find parent name = none →
      Move P a w { w with
        calls := n, tree := w.tree.put parent name e
        trace := w.trace ++ [.addDirectory parent name false] }
  /-- A resource-type folder with a new stub was added below the path. -/
  | typeFolder (w : Provider ι) (n : Nat) (rt : Str) :
      rt ∈ a.resource.typeNames →
      (w.tree.entry (a.path P)).any Entry.isDir = true →
      w.tree.find (a.path P) rt = none →
      Move P a w { w with
        calls := n, nextStub := w.nextStub + 1
        tree := w.tree.put (a.path P) rt (.oicRTFolder ⟨w.nextStub, a.resource⟩)
        trace := w.trace ++ [.addDirectory (a.path P) rt false] }
  /-- The stub of a resource-type folder received a reply. -/
  | answered (w : Provider ι) (n k : Nat) (rt : Str) (stub : OICStub ι) :
      a.resource.typeNames[k]? = some rt →
      w.tree.entry (a.path P ++ [rt]) = some (.oicRTFolder stub) →
      Move P a w { w with calls := n, trace := w.trace ++ [.answered stub (a.replies k)] }
  /-- Adding the file of an item of such a reply threw. -/
  | triedFile (w : Provider ι) (n k : Nat) (rt : Str) (item : Str × AttributeValue) :
      a.resource.typeNames[k]? = some rt → item ∈ (a.replies k).rep.items →
      Move P a w { w with
        calls := n
        trace := w.trace ++ [.addFile (a.path P ++ [rt]) (cStr item.1)
          (w.tree.find (a.path P ++ [rt]) (cStr item.1)).isSome (a.replies k)] }
  /-- The file of an item of such a reply was added. -/
  | file (w : Provider ι) (n k : Nat) (rt : Str) (stub : OICStub ι) (i : Nat)
      (item : Str × AttributeValue) :
      a.resource.typeNames[k]? = some rt →
      w.tree.entry (a.path P ++ [rt]) = some (.oicRTFolder stub) →
      .answered stub (a.replies k) ∈ w.trace → item ∈ (a.replies k).rep.items →
      Move P a w { w with
        calls := n
        tree := stored P w.tree (a.path P ++ [rt]) (cStr item.1)
          (.oicFile (newFile P stub (a.memory i) item))
        trace := w.trace ++ [.addFile (a.path P ++ [rt]) (cStr item.1)
          (w.tree.find (a.path P ++ [rt]) (cStr item.1)).isSome (a.replies k)] }

/-- The entries a move adds: plain folders, a resource-type folder with a new stub, or
the file of an item received through the stub of the folder it is put in. -/
inductive Added (P : Platform ι) (a : Announcement ι) (w w' : Provider ι) (q : Path) :
    Entry ι → Prop
  | ioTFolder : Added P a w w' q .ioTFolder
  | oicFolder : Added P a w w' q .oicFolder
  | typeFolder (rt : Str) : rt ∈ a.resource.typeNames → q = a.path P ++ [rt] →
      w'.nextStub = w.nextStub + 1 → Added P a w w' q (.oicRTFolder ⟨w.nextStub, a.resource⟩)
  | file (k : Nat) (rt : Str) (stub : OICStub ι) (i : Nat)
      (item : Str × AttributeValue) :
      a.resource.typeNames[k]? = some rt → q = a.path P ++ [rt] ++ [cStr item.1] →
      w'.tree.entry (a.path P ++ [rt]) = some (.oicRTFolder stub) →
      .answered stub (a.replies k) ∈ w.trace → item ∈ (a.replies k).rep.items →
      Added P a w w' q (.oicFile (newFile P stub (a.memory i) item))

/-! ### Running the calls into the kit -/

theorem find_apply (parent : Path) (name : Str) (w : Provider ι) :
    find a parent name w =
      if a.throws w.calls then .error .exception { w with calls := w.calls + 1 }
      else .ok (w.tree.find parent name) { w with calls := w.calls + 1 } := by
  by_cases ht : a.throws w.calls = true <;> simp [find, bind_apply, map_apply, call, ht]

theorem addDirectory_apply (parent : Path) (name : Str) (e : Entry ι) (w : Provider ι) :
    addDirectory P a parent name e w =
      if a.throws w.calls then
        .error .exception { w with
          calls := w.calls + 1
          trace := w.trace ++ [.addDirectory parent name (w.tree.find parent name).isSome] }
      else
        .ok (parent ++ [name]) { w with
          calls := w.calls + 1
          tree := stored P w.tree parent name e
          trace := w.trace ++ [.addDirectory parent name (w.tree.find parent name).isSome] } := by
  by_cases ht : a.throws w.calls = true <;>
    simp [addDirectory, bind_apply, map_apply, note, call, store, ht]

theorem addFile_apply (parent : Path) (name : Str) (file : OICFile ι) (reply : Reply)
    (w : Provider ι) :
    addFile P a parent name file reply w =
      if a.throws w.calls then
        .error .exception { w with
          calls := w.calls + 1
          trace := w.trace ++
            [.addFile parent name (w.tree.find parent name).isSome reply] }
      else
        .ok () { w with
          calls := w.calls + 1
          tree := stored P w.tree parent name (.oicFile file)
          trace := w.trace ++
            [.addFile parent name (w.tree.find parent name).isSome reply] } := by
  by_cases ht : a.throws w.calls = true <;>
    simp [addFile, bind_apply, note, call, store, ht]

/-- A resource-type folder is a directory. -/
theorem isDir_of_typeFolder {t : Tree ι} {q : Path} {stub : OICStub ι}
    (h : t.entry q = some (.oicRTFolder stub)) : (t.entry q).any Entry.isDir = true := by
  rw [h]
  rfl

theorem stored_absent {t : Tree ι} {parent : Path} {name : Str} {e : Entry ι}
    (h : t.find parent name = none) : stored P t parent name e = t.put parent name e := by
  simp [stored, h]

/-- Adding below a directory leaves the directory as it was. -/
theorem entry_stored_parent {t : Tree ι} {parent : Path} {name : Str} {e : Entry ι} :
    (stored P t parent name e).entry parent = t.entry parent := by
  unfold stored
  split
  · rfl
  · exact DirTree.entry_put_parent

/-- An entry read after adding is the new one, or it was there before and so was
everything above it. -/
theorem entry_stored_cases {t : Tree ι} {parent q : Path} {name : Str} {e x : Entry ι}
    (hp : (t.entry parent).any Entry.isDir = true)
    (hx : (stored P t parent name e).entry q = some x) :
    (q = parent ++ [name] ∧ x = e) ∨
      (t.entry q = some x ∧ ∀ r, r <+: q → (stored P t parent name e).entry r = t.entry r) := by
  by_cases hkeep : ((t.find parent name).isSome && !P.overwrites) = true
  · simp only [stored, hkeep, if_true] at hx ⊢
    exact Or.inr ⟨hx, fun r _ => trivial⟩
  · simp only [stored, hkeep, Bool.false_eq_true, if_false] at hx ⊢
    exact DirTree.entry_put_cases hp hx

/-! ### What a move changes -/

/-- A move adds at one path at most: any other entry present after it was there before,
together with everything above it. -/
theorem Move.entry_cases {w w' : Provider ι} (h : Move P a w w') :
    ∃ new : Path, ∀ q x, w'.tree.entry q = some x →
      (q = new ∧ Added P a w w' q x) ∨
        (w.tree.entry q = some x ∧ ∀ r, r <+: q → w'.tree.entry r = w.tree.entry r) := by
  cases h with
  | counted n | tried n m parent name | answered n k rt stub | triedFile n k rt item =>
    exact ⟨[], fun q x hx => Or.inr ⟨hx, fun r _ => rfl⟩⟩
  | folder n parent name e hpath he hd hn =>
    refine ⟨parent ++ [name], fun q x hx => ?_⟩
    rcases DirTree.entry_put_cases hd hx with ⟨rfl, rfl⟩ | hold
    · rcases he with rfl | rfl
      · exact Or.inl ⟨rfl, .ioTFolder⟩
      · exact Or.inl ⟨rfl, .oicFolder⟩
    · exact Or.inr hold
  | typeFolder n rt hrt hd hn =>
    refine ⟨a.path P ++ [rt], fun q x hx => ?_⟩
    rcases DirTree.entry_put_cases hd hx with ⟨rfl, rfl⟩ | hold
    · exact Or.inl ⟨rfl, .typeFolder rt hrt rfl rfl⟩
    · exact Or.inr hold
  | file n k rt stub i item hk hrt hans hmem =>
    refine ⟨a.path P ++ [rt] ++ [cStr item.1], fun q x hx => ?_⟩
    rcases entry_stored_cases (isDir_of_typeFolder hrt) hx with ⟨rfl, rfl⟩ | hold
    · exact Or.inl
        ⟨rfl, .file k rt stub i item hk rfl (entry_stored_parent.trans hrt) hans hmem⟩
    · exact Or.inr hold

theorem Move.resources_eq {w w' : Provider ι} (h : Move P a w w') :
    w'.resources = w.resources := by
  cases h <;> rfl

theorem resources_of_moves {w w' : Provider ι} (h : Relation.ReflTransGen (Move P a) w w') :
    w'.resources = w.resources := by
  induction h with
  | refl => rfl
  | tail _ hstep ih => rw [hstep.resources_eq, ih]

theorem Move.nextStub_le {w w' : Provider ι} (h : Move P a w w') :
    w.nextStub ≤ w'.nextStub := by
  cases h with
  | tried n m parent name _ _ hm => exact hm
  | typeFolder => exact Nat.le_succ _
  | counted | folder | answered | triedFile | file => exact le_rfl

/-- Moves only add to the history. -/
theorem Move.mem_trace {w w' : Provider ι} (h : Move P a w w') {e : Event ι}
    (he : e ∈ w.trace) : e ∈ w'.trace := by
  cases h with
  | counted => exact he
  | tried | folder | typeFolder | answered | triedFile | file =>
    exact List.mem_append_left _ he

/-- A class below `IoTFolder` is a folder class. -/
theorem isDir_of_isA {e : Entry ι} {target : EntryClass} (ht : target ≠ .OICFile)
    (h : e.cls.isA target = true) : e.isDir = true := by
  cases e <;> cases target <;> first | rfl | exact absurd rfl ht | cases h

/-- The folder a reference points to: some directory at that path. -/
def FolderAt (w : Provider ι) (p : Path) : Prop := (w.tree.entry p).any Entry.isDir = true

theorem folderAt_iff {w : Provider ι} {p : Path} :
    FolderAt w p ↔ ∃ e, w.tree.entry p = some e ∧ e.isDir = true :=
  Option.any_eq_true _ _

/-! ### Traversals -/

/-- Finding or adding a plain folder moves along the path and returns a folder. -/
theorem traverses_findOrAdd {fresh : Entry ι} {target : EntryClass} {parent : Path}
    {name : Str} (hfresh : fresh = .ioTFolder ∨ fresh = .oicFolder)
    (htarget : target ≠ .OICFile) (hpath : parent ++ [name] <+: a.path P) :
    Traverses (Move P a) (fun w => FolderAt w parent)
      (findOrAdd P a fresh target parent name)
      fun p w => p = parent ++ [name] ∧ FolderAt w p := by
  intro w hw
  by_cases ht : a.throws w.calls = true
  · rw [findOrAdd, bind_error (by rw [find_apply, if_pos ht])]
    exact ⟨.single (.counted w _), fun _ _ h => by cases h⟩
  · rw [findOrAdd, bind_ok (by rw [find_apply, if_neg ht])]
    cases hf : w.tree.find parent name with
    | none =>
      simp only [addDirectory_apply, DirTree.find] at hf ⊢
      simp only [hf, Option.isSome_none]
      split
      · exact ⟨.single (.tried w _ _ _ _ (.inl hpath) hf le_rfl), fun _ _ h => by cases h⟩
      · rw [stored_absent hf]
        refine ⟨.single (.folder w _ _ _ _ hpath hfresh hw hf), ?_⟩
        rintro p t ⟨rfl, rfl⟩
        refine ⟨rfl, ?_⟩
        simp only [FolderAt, DirTree.entry_put_self hw, Option.any_some]
        rcases hfresh with rfl | rfl <;> rfl
    | some e =>
      simp only [dynamicCast]
      split
      · rename_i hcast
        refine ⟨.single (.counted w _), ?_⟩
        rintro p t ⟨rfl, rfl⟩
        refine ⟨rfl, ?_⟩
        simp only [DirTree.find] at hf
        simp only [FolderAt, hf, Option.any_some]
        exact isDir_of_isA htarget hcast
      · exact ⟨.single (.counted w _), fun _ _ h => by cases h⟩

/-- A step moves along the path and returns a folder. -/
theorem traverses_stepTo {parent : Path} {name : Str}
    (hpath : parent ++ [name] <+: a.path P) :
    Traverses (Move P a) (fun w => FolderAt w parent) (stepTo P a parent name)
      fun p w => p = parent ++ [name] ∧ FolderAt w p := by
  intro w hw
  rw [stepTo, bind_ok (get_apply w)]
  split
  · exact traverses_findOrAdd (.inl rfl) (by decide) hpath w hw
  · exact traverses_findOrAdd (.inr rfl) (by decide) hpath w hw

/-- The resource-type folder `rt` has received the reply with index `k`. -/
def Receiving (P : Platform ι) (a : Announcement ι) (k : Nat) (rt : Str) (stub : OICStub ι)
    (w : Provider ι) : Prop :=
  w.tree.entry (a.path P ++ [rt]) = some (.oicRTFolder stub) ∧
    .answered stub (a.replies k) ∈ w.trace

/-- Adding the items of a received reply. -/
theorem traverses_addItems {k : Nat} {rt : Str} {stub : OICStub ι}
    (hk : a.resource.typeNames[k]? = some rt)
    (items : List (Str × AttributeValue)) (hitems : ∀ it ∈ items, it ∈ (a.replies k).rep.items) :
    Traverses (Move P a) (Receiving P a k rt stub)
      (addItems P a (a.path P ++ [rt]) stub (a.replies k) items)
      fun _ => Receiving P a k rt stub := by
  induction items with
  | nil => exact Traverses.pure fun w h => h
  | cons item items ih =>
    have ih := ih fun it hit => hitems it (List.mem_cons_of_mem _ hit)
    have hmem := hitems item (List.mem_cons_self ..)
    have hadd (i : Nat) : Traverses (Move P a) (Receiving P a k rt stub)
        (addFile P a (a.path P ++ [rt]) (cStr item.1) (newFile P stub (a.memory i) item)
          (a.replies k)) fun _ => Receiving P a k rt stub := by
      rintro v ⟨hrt, hans⟩
      rw [addFile_apply]
      split
      · exact ⟨.single (.triedFile v _ k rt item hk hmem), fun _ _ h => by cases h⟩
      · refine ⟨.single (.file v _ k rt stub i item hk hrt hans hmem), ?_⟩
        rintro _ t ⟨-, rfl⟩
        refine ⟨?_, List.mem_append_left _ hans⟩
        rw [← hrt]
        exact entry_stored_parent
    intro w hw
    rw [addItems, bind_ok (get_apply w)]
    exact ((hadd _).bind fun _ => ih) w hw

/-- Asking the device through a resource-type folder and adding what it answers. -/
theorem traverses_getState {k : Nat} {rt : Str} {stub : OICStub ι}
    (hk : a.resource.typeNames[k]? = some rt) :
    Traverses (Move P a)
      (fun w => w.tree.entry (a.path P ++ [rt]) = some (.oicRTFolder stub))
      (OICRTFolder.getState P a (a.path P ++ [rt]) stub (a.replies k))
      fun _ => Receiving P a k rt stub := by
  intro w hw
  by_cases ht : a.throws w.calls = true
  · have hcall : call a w = .error .exception { w with calls := w.calls + 1 } := if_pos ht
    rw [OICRTFolder.getState, bind_error hcall]
    exact ⟨.single (.counted w _), fun _ _ h => by cases h⟩
  · have hcall : call a w = .ok () { w with calls := w.calls + 1 } := if_neg ht
    have hnote : note (.answered stub (a.replies k)) { w with calls := w.calls + 1 } =
        .ok () { w with
          calls := w.calls + 1, trace := w.trace ++ [.answered stub (a.replies k)] } := rfl
    rw [OICRTFolder.getState, bind_ok hcall, bind_ok hnote]
    have hmove := Move.answered w (w.calls + 1) k rt stub hk hw
    have hrec : Receiving P a k rt stub { w with
        calls := w.calls + 1, trace := w.trace ++ [.answered stub (a.replies k)] } :=
      ⟨hw, List.mem_append_right _ (List.mem_singleton_self _)⟩
    obtain ⟨hM, hpost⟩ := traverses_addItems hk _ (fun _ h => h) _ hrec
    exact ⟨hM.head hmove, hpost⟩

/-- Finding or adding the folder of a resource type returns the stub stored there. -/
theorem traverses_typeFolder {rt : Str} (hrt : rt ∈ a.resource.typeNames) :
    Traverses (Move P a) (fun w => FolderAt w (a.path P)) (typeFolder P a (a.path P) rt)
      fun stub w => w.tree.entry (a.path P ++ [rt]) = some (.oicRTFolder stub) := by
  intro w hw
  by_cases ht : a.throws w.calls = true
  · rw [typeFolder, bind_error (by rw [find_apply, if_pos ht])]
    exact ⟨.single (.counted w _), fun _ _ h => by cases h⟩
  · rw [typeFolder, bind_ok (by rw [find_apply, if_neg ht])]
    cases hf : w.tree.find (a.path P) rt with
    | none =>
      simp only [bind_apply, newStub, addDirectory_apply, hf, Option.isSome_none]
      split
      · rename_i h
        split at h
        · cases h
        · obtain ⟨rfl, rfl⟩ := h
          rw [stored_absent hf]
          refine ⟨.single (.typeFolder w _ rt hrt hw hf), ?_⟩
          rintro stub t ⟨rfl, rfl⟩
          exact DirTree.entry_put_self hw
      · rename_i h
        split at h
        · obtain ⟨rfl, rfl⟩ := h
          exact ⟨.single (.tried w _ _ _ _ (.inr ⟨rfl, hrt⟩) hf (Nat.le_succ _)),
            fun _ _ h => by cases h⟩
        · cases h
    | some e =>
      cases e with
      | oicRTFolder stub =>
        refine ⟨.single (.counted w _), ?_⟩
        rintro _ t ⟨rfl, rfl⟩
        exact hf
      | ioTFolder | oicFolder | oicFile _ =>
        exact ⟨.single (.counted w _), fun _ _ h => by cases h⟩

/-- The loop over the resource types, started anywhere in the list. -/
theorem traverses_typeFolders (k : Nat) (rts : List Str)
    (hrts : a.resource.typeNames.drop k = rts) :
    Traverses (Move P a) (fun w => FolderAt w (a.path P))
      (typeFolders P a (a.path P) k rts) fun _ _ => True := by
  induction rts generalizing k with
  | nil => exact Traverses.pure fun _ _ => trivial
  | cons rt rts ih =>
    have hk : a.resource.typeNames[k]? = some rt := by
      have h := congrArg (fun l => l[0]?) hrts
      simpa using h
    have hrt : rt ∈ a.resource.typeNames := List.mem_of_getElem? hk
    have htail : a.resource.typeNames.drop (k + 1) = rts := by
      rw [← List.drop_drop, hrts, List.drop_one, List.tail_cons]
    refine (traverses_typeFolder hrt).bind fun stub => ?_
    refine (traverses_getState hk).bind fun _ => ?_
    refine (ih (k + 1) htail).weaken (fun w hw => ?_) fun _ _ h => h
    apply DirTree.parent _ _ rt
    rw [hw.1]
    rfl

/-- Walking what remains of the path. -/
theorem traverses_walk (parent : Path) (rest : List Str) (hpath : parent ++ rest = a.path P) :
    Traverses (Move P a) (fun w => FolderAt w parent) (walk P a parent rest)
      fun _ _ => True := by
  induction rest generalizing parent with
  | nil => exact Traverses.pure fun _ _ => trivial
  | cons piece rest ih =>
    have hstep : parent ++ [piece] <+: a.path P := ⟨rest, by simpa using hpath⟩
    cases rest with
    | nil =>
      have hend : a.path P = parent ++ [piece] := hpath.symm
      refine (traverses_findOrAdd (.inr rfl) (by decide) hstep).bind fun folder => ?_
      intro w hw
      obtain ⟨rfl, hf⟩ := hw
      rw [← hend] at hf ⊢
      exact traverses_typeFolders 0 _ rfl w hf
    | cons s rest =>
      rw [walk_cons P a parent piece (List.cons_ne_nil s rest)]
      refine (traverses_stepTo hstep).bind fun step => ?_
      intro w hw
      obtain ⟨rfl, hf⟩ := hw
      exact ih (parent ++ [piece]) (by simpa using hpath) w hf

/-- A survived announcement either was known and changed nothing, or recorded its
identifier and then made moves. -/
theorem announce_cases [DecidableEq ι] {w w' : Provider ι} (h : announce P w a = some w') :
    (w.Knows a ∧ w' = w) ∨
      (¬ w.Knows a ∧ Relation.ReflTransGen (Move P a) (w.record a) w') := by
  by_cases hk : w.Knows a
  · rw [announce_known hk] at h
    exact Or.inl ⟨hk, (Option.some.inj h).symm⟩
  · refine Or.inr ⟨hk, ?_⟩
    rw [announce_fresh hk] at h
    have hwalk := (traverses_walk [] (a.path P) rfl (w.record a) w.tree.root).1
    cases hr : walk P a [] (a.path P) (w.record a) with
    | ok v t =>
      rw [hr] at h hwalk
      cases h
      exact hwalk
    | error e t =>
      rw [hr] at h hwalk
      cases e with
      | nullCast => cases h
      | exception =>
        cases h
        exact hwalk

end IoTFS.Oic
