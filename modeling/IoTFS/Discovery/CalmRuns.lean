import IoTFS.Discovery.Additions

/-!
# Which additions the folder-building functions perform

In a calm run each function either fails on a cast or returns after additions whose targets
its arguments determine: folders on the path walked and under the type names, and one file
for each attribute of the reply of each type.
-/

namespace IoTFS.Oic

open Exec

variable {ι α β : Type} {P : Platform ι} {a : Announcement ι} {w : Provider ι}

/-- From `w` the computation returns after a history of additions with `spec`, or fails on a
cast, which happens under the condition `bad` only. -/
def Performs (P : Platform ι) (a : Announcement ι) (x : Build ι α) (w : Provider ι) (bad : Prop)
    (spec : α → List (Event ι) → Provider ι → Prop) : Prop :=
  (∃ v es w', x w = .ok v w' ∧ w'.trace = w.trace ++ es ∧ History P a w.tree es w'.tree ∧
      spec v es w') ∨
    ∃ w', x w = .error .nullCast w' ∧ bad

variable {bad : Prop} {spec : α → List (Event ι) → Provider ι → Prop}
  {last : β → List (Event ι) → Provider ι → Prop} {x : Build ι α} {f : α → Build ι β}

theorem Performs.pure {v : α} (h : spec v [] w) : Performs P a (pure v) w bad spec :=
  Or.inl ⟨v, [], w, rfl, (List.append_nil _).symm, .nil _, h⟩

/-- Additions made one after the other. -/
theorem Performs.bind (hx : Performs P a x w bad spec)
    (hf : ∀ v es w', History P a w.tree es w'.tree → spec v es w' →
      Performs P a (f v) w' bad fun b fs w'' => last b (es ++ fs) w'') :
    Performs P a (x >>= f) w bad last := by
  rcases hx with ⟨v, es, w', hx, htrace, hist, hspec⟩ | ⟨w', hx, hbad⟩
  · rcases hf v es w' hist hspec with ⟨b, fs, w'', hb, htrace', hist', hlast⟩ | ⟨w'', hb, hbad⟩
    · refine Or.inl ⟨b, es ++ fs, w'', by rw [bind_ok hx, hb], ?_, hist.append hist', hlast⟩
      rw [htrace', htrace, List.append_assoc]
    · exact Or.inr ⟨w'', by rw [bind_ok hx, hb], hbad⟩
  · exact Or.inr ⟨w', bind_error hx, hbad⟩

theorem Performs.weaken {bad' : Prop} {spec' : α → List (Event ι) → Provider ι → Prop}
    (h : Performs P a x w bad spec) (hbad : bad → bad')
    (hspec : ∀ v es w', History P a w.tree es w'.tree → spec v es w' → spec' v es w') :
    Performs P a x w bad' spec' := by
  rcases h with ⟨v, es, w', hx, htrace, hist, hs⟩ | ⟨w', hx, hb⟩
  · exact Or.inl ⟨v, es, w', hx, htrace, hist, hspec v es w' hist hs⟩
  · exact Or.inr ⟨w', hx, hbad hb⟩

section Calm

variable (hcalm : a.Calm)
include hcalm

/-- Finding or adding a folder adds one at most. -/
theorem performs_findOrAdd {fresh : Entry ι} {target : EntryClass} {parent : Path} {name : Str}
    (hfresh : fresh.isDir = true) (hcls : fresh.cls.isA target = true) (hd : FolderAt w parent) :
    Performs P a (findOrAdd P a fresh target parent name) w True fun p es w' =>
      p = parent ++ [name] ∧ fileTargets es = [] ∧
        (∀ z ∈ folderTargets es, z = parent ++ [name]) ∧
        ∃ e, w'.tree.entry p = some e ∧ e.cls.isA target = true := by
  cases hf : w.tree.find parent name with
  | none =>
    have hrun : findOrAdd P a fresh target parent name w = .ok (parent ++ [name]) { w with
        calls := w.calls + 2, tree := w.tree.put parent name fresh
        trace := w.trace ++ [.addDirectory parent name false] } := by
      rw [findOrAdd, bind_ok (find_calm hcalm parent name w), hf]
      simp only [addDirectory_calm hcalm, hf, Option.isSome_none, stored_absent hf]
    refine Or.inl ⟨_, _, _, hrun, rfl, .single (.directory parent name fresh hd hf hfresh), rfl,
      rfl, fun z hz => ?_, fresh, DirTree.entry_put_self hd, hcls⟩
    exact List.mem_singleton.mp hz
  | some e =>
    have hrun : findOrAdd P a fresh target parent name w =
        (do dynamicCast target e; return parent ++ [name] : Build ι Path)
          { w with calls := w.calls + 1 } := by
      rw [findOrAdd, bind_ok (find_calm hcalm parent name w), hf]
    rw [dynamicCast] at hrun
    by_cases hcast : e.cls.isA target = true
    · rw [if_pos hcast] at hrun
      exact Or.inl ⟨_, [], _, hrun, (List.append_nil _).symm, .nil _, rfl, rfl,
        fun z hz => (by cases hz), e, hf, hcast⟩
    · rw [if_neg hcast] at hrun
      exact Or.inr ⟨_, hrun, trivial⟩

/-- A step does the same for one of two classes. -/
theorem performs_stepTo {parent : Path} {name : Str} (hd : FolderAt w parent) :
    Performs P a (stepTo P a parent name) w True fun p es w' =>
      p = parent ++ [name] ∧ fileTargets es = [] ∧
        (∀ z ∈ folderTargets es, z = parent ++ [name]) ∧ FolderAt w' p := by
  have hfolder (target : EntryClass) (ht : target ≠ .OICFile) (w' : Provider ι) (p : Path) :
      (∃ e, w'.tree.entry p = some e ∧ e.cls.isA target = true) → FolderAt w' p := by
    rintro ⟨e, he, hcls⟩
    exact folderAt_iff.mpr ⟨e, he, isDir_of_isA ht hcls⟩
  rw [stepTo, Performs, bind_ok (get_apply w)]
  split
  · refine (performs_findOrAdd hcalm rfl rfl hd).weaken id ?_
    rintro p es w' - ⟨hp, hfiles, hfolders, he⟩
    exact ⟨hp, hfiles, hfolders, hfolder .IoTFolder (by decide) w' p he⟩
  · refine (performs_findOrAdd hcalm rfl rfl hd).weaken id ?_
    rintro p es w' - ⟨hp, hfiles, hfolders, he⟩
    exact ⟨hp, hfiles, hfolders, hfolder .OICFolder (by decide) w' p he⟩

/-- Finding or adding the folder of a type fails when another class is found there. -/
theorem performs_typeFolder {this : Path} {rt : Str} (hd : FolderAt w this) :
    Performs P a (typeFolder P a this rt) w
      (∃ e, w.tree.entry (this ++ [rt]) = some e ∧ e.cls ≠ .OICRTFolder) fun stub es w' =>
        fileTargets es = [] ∧ (∀ z ∈ folderTargets es, z = this ++ [rt]) ∧
          w'.tree.entry (this ++ [rt]) = some (.oicRTFolder stub) := by
  cases hf : w.tree.find this rt with
  | none =>
    have hrun : typeFolder P a this rt w = .ok ⟨w.nextStub, a.resource⟩ { w with
        calls := w.calls + 2, nextStub := w.nextStub + 1
        tree := w.tree.put this rt (.oicRTFolder ⟨w.nextStub, a.resource⟩)
        trace := w.trace ++ [.addDirectory this rt false] } := by
      rw [typeFolder, bind_ok (find_calm hcalm this rt w), hf]
      simp only [bind_apply, newStub, addDirectory_calm hcalm, hf, Option.isSome_none,
        stored_absent hf, pure_apply]
    refine Or.inl ⟨_, _, _, hrun, rfl, .single (.directory this rt _ hd hf rfl), rfl,
      fun z hz => ?_, DirTree.entry_put_self hd⟩
    exact List.mem_singleton.mp hz
  | some e =>
    have hrun : typeFolder P a this rt w =
        (asRTFolder e : Build ι (OICStub ι)) { w with calls := w.calls + 1 } := by
      rw [typeFolder, bind_ok (find_calm hcalm this rt w), hf]
    cases e with
    | oicRTFolder stub =>
      exact Or.inl ⟨stub, [], _, hrun, (List.append_nil _).symm, .nil _, rfl,
        fun z hz => (by cases hz), hf⟩
    | ioTFolder | oicFolder | oicFile file =>
      exact Or.inr ⟨_, hrun, _, hf, by simp [Entry.cls]⟩

/-- Adding the items of a reply adds a file for each. -/
theorem performs_addItems {this : Path} {stub : OICStub ι} (reply : Reply)
    (items : List (Str × AttributeValue))
    (hrt : w.tree.entry this = some (.oicRTFolder stub)) :
    Performs P a (addItems P a this stub reply items) w False fun _ es _ =>
      folderTargets es = [] ∧ fileTargets es = items.map fun item => this ++ [cStr item.1] := by
  induction items generalizing w with
  | nil => exact .pure ⟨rfl, rfl⟩
  | cons item items ih =>
    rw [addItems, Performs, bind_ok (get_apply w)]
    have hfirst : Performs P a
        (addFile P a this (cStr item.1) (newFile P stub (a.memory w.calls) item) reply) w False
        fun _ es w' => folderTargets es = [] ∧ fileTargets es = [this ++ [cStr item.1]] ∧
          w'.tree.entry this = some (.oicRTFolder stub) :=
      Or.inl ⟨_, _, _, addFile_calm hcalm .., rfl,
        .single (.file this stub w.calls item reply hrt), rfl, rfl,
        entry_stored_parent.trans hrt⟩
    refine hfirst.bind fun _ es w' _ hes => ?_
    obtain ⟨hfolders, hfiles, hrt'⟩ := hes
    refine (ih hrt').weaken id ?_
    rintro _ fs w'' - ⟨hfolders', hfiles'⟩
    rw [folderTargets_append, fileTargets_append, hfolders, hfolders', hfiles, hfiles']
    exact ⟨rfl, rfl⟩

/-- Asking the device adds a file for each attribute it answers with. -/
theorem performs_getState {this : Path} {stub : OICStub ι} (reply : Reply)
    (hrt : w.tree.entry this = some (.oicRTFolder stub)) :
    Performs P a (OICRTFolder.getState P a this stub reply) w False fun _ es _ =>
      folderTargets es = [] ∧
        fileTargets es = reply.rep.fileNames.map fun n => this ++ [n] := by
  rw [Performs, getState_calm hcalm]
  rcases performs_addItems (w := { w with
    calls := w.calls + 1, trace := w.trace ++ [.answered stub reply] }) hcalm reply
    reply.rep.items hrt with ⟨_, es, w', hrun, htrace, hist, hfolders, hfiles⟩ | ⟨w', -, hno⟩
  · refine Or.inl ⟨(), .answered stub reply :: es, w', hrun, ?_, .cons (.answered stub reply) hist,
      hfolders, ?_⟩
    · rw [htrace, List.append_assoc, List.singleton_append]
    · rw [fileTargets_cons_none rfl, hfiles, OCRepresentation.fileNames, List.map_map]
      rfl
  · exact absurd hno id

end Calm

/-- Where the files of the types go: one path for each attribute of each reply. -/
def filePaths (this : Path) (types : List (Str × List Str)) : List Path :=
  types.flatMap fun t => t.2.map fun n => this ++ [t.1] ++ [n]

/-- What the loop over the types adds. -/
structure TypesAdded (this : Path) (types : List (Str × List Str)) (es : List (Event ι))
    (w' : Provider ι) : Prop where
  files : fileTargets es = filePaths this types
  folders : ∀ z ∈ folderTargets es, ∃ rt ∈ types.map Prod.fst, z = this ++ [rt]
  found : ∀ rt ∈ types.map Prod.fst, ∃ stub,
    w'.tree.entry (this ++ [rt]) = some (.oicRTFolder stub)

theorem mem_filePaths {this : Path} {types : List (Str × List Str)} {y : Path} :
    y ∈ filePaths this types ↔ ∃ t ∈ types, ∃ n ∈ t.2, y = this ++ [t.1] ++ [n] := by
  simp only [filePaths, List.mem_flatMap, List.mem_map, eq_comm]

/-- Files go two levels below the folder, type folders one. -/
theorem TypesAdded.level {this : Path} {types : List (Str × List Str)} {es : List (Event ι)}
    {w' : Provider ι} (h : TypesAdded this types es w') : Level (this.length + 2) es := by
  refine ⟨fun y hy => ?_, fun z hz => ?_⟩
  · rw [h.files] at hy
    obtain ⟨t, -, n, -, rfl⟩ := mem_filePaths.mp hy
    simp
  · obtain ⟨rt, -, rfl⟩ := h.folders z hz
    simp

section Calm

variable (hcalm : a.Calm)
include hcalm

/-- The loop over the types fails when a type name is used by another class. -/
theorem performs_typeFolders {this : Path} (k : Nat) (rts : List Str) (hd : FolderAt w this) :
    Performs P a (typeFolders P a this k rts) w
      (∃ rt ∈ rts, ∃ e, w.tree.entry (this ++ [rt]) = some e ∧ e.cls ≠ .OICRTFolder)
      fun _ es w' => TypesAdded this (a.typesFrom k rts) es w' := by
  induction rts generalizing k w with
  | nil => exact .pure ⟨rfl, fun z hz => (by cases hz), fun rt hrt => (by cases hrt)⟩
  | cons rt rts ih =>
    rw [typeFolders, Announcement.typesFrom_cons]
    refine ((performs_typeFolder hcalm hd).weaken ?_ fun _ _ _ _ h => h).bind ?_
    · rintro ⟨e, he, hcls⟩
      exact ⟨rt, List.mem_cons_self .., e, he, hcls⟩
    rintro stub es w₁ hist₁ ⟨hfiles₁, hfolders₁, hrt₁⟩
    refine ((performs_getState hcalm (a.replies k) hrt₁).weaken False.elim
      fun _ _ _ _ h => h).bind ?_
    rintro _ fs w₂ hist₂ ⟨hfolders₂, hfiles₂⟩
    have hlevel₂ : Level (this.length + 2) fs := by
      refine ⟨fun y hy => ?_, fun z hz => ?_⟩
      · rw [hfiles₂] at hy
        obtain ⟨n, -, rfl⟩ := List.mem_map.mp hy
        simp
      · rw [hfolders₂] at hz
        cases hz
    have hrt₂ : w₂.tree.entry (this ++ [rt]) = some (.oicRTFolder stub) :=
      hist₂.entry_short hlevel₂ (by simp) hrt₁
    have hd₂ : FolderAt w₂ this := by
      apply DirTree.parent _ _ rt
      rw [hrt₂]
      rfl
    refine (ih (k + 1) hd₂).weaken ?_ ?_
    · rintro ⟨rt', hrt', e, he, hcls⟩
      refine ⟨rt', List.mem_cons_of_mem _ hrt', e, ?_, hcls⟩
      rcases (hist₁.append hist₂).entry_old he with hold | ⟨hmem, -⟩ | ⟨hmem, -⟩
      · exact hold
      · rw [folderTargets_append, hfolders₂, List.append_nil] at hmem
        rw [hfolders₁ _ hmem, hrt₂] at he
        cases he
        exact absurd rfl hcls
      · rw [fileTargets_append, hfiles₁, List.nil_append] at hmem
        have hlen := hlevel₂.files _ hmem
        simp at hlen
    · rintro _ gs w₃ hist₃ h
      have hlevel₃ := h.level
      refine ⟨?_, fun z hz => ?_, fun rt' hrt' => ?_⟩
      · rw [fileTargets_append, fileTargets_append, hfiles₁, hfiles₂, h.files]
        rfl
      · rw [folderTargets_append, folderTargets_append, hfolders₂] at hz
        rcases List.mem_append.mp hz with hz | hz
        · exact ⟨rt, List.mem_cons_self .., hfolders₁ z hz⟩
        · obtain ⟨rt', hrt', hz⟩ := h.folders z hz
          exact ⟨rt', List.mem_cons_of_mem _ hrt', hz⟩
      · rcases List.mem_cons.mp hrt' with rfl | hrt'
        · exact ⟨stub, hist₃.entry_short hlevel₃ (by simp) hrt₂⟩
        · exact h.found rt' hrt'

/-- What walking a path adds: folders on the way, then what the types bring. -/
structure PathAdded (parent rest : List Str) (types : List (Str × List Str))
    (es : List (Event ι)) (w' : Provider ι) : Prop where
  files : fileTargets es = filePaths (parent ++ rest) types
  folders : ∀ z ∈ folderTargets es, (∃ s, s <+: rest ∧ z = parent ++ s) ∨
    ∃ rt ∈ types.map Prod.fst, z = parent ++ rest ++ [rt]
  reached : ∃ e, w'.tree.entry (parent ++ rest) = some e ∧ e.cls.isA .OICFolder = true
  found : ∀ rt ∈ types.map Prod.fst, ∃ stub,
    w'.tree.entry (parent ++ rest ++ [rt]) = some (.oicRTFolder stub)

/-- Walking a path. -/
theorem performs_walk (parent : Path) (rest : List Str) (hrest : rest ≠ [])
    (hd : FolderAt w parent) :
    Performs P a (walk P a parent rest) w True
      fun _ es w' => PathAdded parent rest a.types es w' := by
  induction rest generalizing parent w with
  | nil => exact absurd rfl hrest
  | cons piece rest ih =>
    by_cases hlast : rest = []
    · subst hlast
      rw [walk]
      refine (performs_findOrAdd hcalm rfl rfl hd).bind ?_
      rintro _ es w₁ - ⟨rfl, hfiles₁, hfolders₁, e, he, hcls⟩
      have hd₁ : FolderAt w₁ (parent ++ [piece]) :=
        folderAt_iff.mpr ⟨e, he, isDir_of_isA (by decide) hcls⟩
      refine (performs_typeFolders hcalm 0 _ hd₁).weaken (fun _ => trivial) ?_
      rintro _ fs w₂ hist₂ h
      refine ⟨?_, fun z hz => ?_, ⟨e, ?_, hcls⟩, h.found⟩
      · rw [fileTargets_append, hfiles₁, h.files]
        rfl
      · rw [folderTargets_append] at hz
        rcases List.mem_append.mp hz with hz | hz
        · exact Or.inl ⟨[piece], List.prefix_rfl, hfolders₁ z hz⟩
        · exact Or.inr (h.folders z hz)
      · exact hist₂.entry_short h.level (by simp) he
    · rw [walk_cons P a parent piece hlast]
      refine (performs_stepTo hcalm hd).bind ?_
      rintro _ es w₁ - ⟨rfl, hfiles₁, hfolders₁, hd₁⟩
      refine (ih (parent ++ [piece]) hlast hd₁).weaken id ?_
      rintro _ fs w₂ - ⟨hfiles, hfolders, hreached, hfound⟩
      simp only [List.append_assoc, List.singleton_append] at hfiles hfolders hreached hfound
      refine ⟨?_, fun z hz => ?_, hreached, by simpa using hfound⟩
      · rw [fileTargets_append, hfiles₁, hfiles]
        rfl
      · rw [folderTargets_append] at hz
        rcases List.mem_append.mp hz with hz | hz
        · exact Or.inl ⟨[piece], ⟨rest, rfl⟩, hfolders₁ z hz⟩
        · rcases hfolders z hz with ⟨s, hs, rfl⟩ | ⟨rt, hrt, rfl⟩
          · exact Or.inl ⟨piece :: s, (List.prefix_cons_inj piece).mpr hs, rfl⟩
          · exact Or.inr ⟨rt, hrt, by simp⟩

end Calm

end IoTFS.Oic
