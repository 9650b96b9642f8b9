import IoTFS.Discovery.Frame
import IoTFS.Discovery.Refinement

/-!
# Folders built anywhere in a tree

A calm computation that adds folders and files either fails on a cast or performs a list of
additions, remembered in its trace. Below which paths these additions lie says what they
leave alone; which of them meet a taken name depends on their targets alone.
-/

namespace IoTFS.Oic

open Exec

variable {ι : Type} {P : Platform ι} {a : Announcement ι} {t t' u : Tree ι}

/-! ### Additions -/

/-- The path a folder is added at. -/
def Event.folderTarget : Event ι → Option Path
  | .addDirectory parent name _ => some (parent ++ [name])
  | .addFile _ _ _ _ | .answered _ _ => none

/-- The path a file is added at. -/
def Event.fileTarget : Event ι → Option Path
  | .addFile parent name _ _ => some (parent ++ [name])
  | .addDirectory _ _ _ | .answered _ _ => none

/-- The name was taken when it was added. -/
def Event.taken : Event ι → Bool
  | .addDirectory _ _ taken => taken
  | .addFile _ _ taken _ => taken
  | .answered _ _ => false

/-- The targets of the folders added, in order. -/
def folderTargets (es : List (Event ι)) : List Path := es.filterMap Event.folderTarget

/-- The targets of the files added, in order. -/
def fileTargets (es : List (Event ι)) : List Path := es.filterMap Event.fileTarget

theorem mem_folderTargets_cons {e : Event ι} {es : List (Event ι)} {z : Path} :
    z ∈ folderTargets (e :: es) ↔ e.folderTarget = some z ∨ z ∈ folderTargets es := by
  simp [folderTargets, List.mem_filterMap]

theorem mem_fileTargets_cons {e : Event ι} {es : List (Event ι)} {y : Path} :
    y ∈ fileTargets (e :: es) ↔ e.fileTarget = some y ∨ y ∈ fileTargets es := by
  simp [fileTargets, List.mem_filterMap]

theorem fileTargets_cons_none {e : Event ι} {es : List (Event ι)} (h : e.fileTarget = none) :
    fileTargets (e :: es) = fileTargets es := List.filterMap_cons_none h

theorem fileTargets_cons_some {e : Event ι} {es : List (Event ι)} {y : Path}
    (h : e.fileTarget = some y) : fileTargets (e :: es) = y :: fileTargets es :=
  List.filterMap_cons_some h

@[simp] theorem folderTargets_append (es fs : List (Event ι)) :
    folderTargets (es ++ fs) = folderTargets es ++ folderTargets fs := List.filterMap_append

@[simp] theorem fileTargets_append (es fs : List (Event ι)) :
    fileTargets (es ++ fs) = fileTargets es ++ fileTargets fs := List.filterMap_append

/-- What an event of a calm run does to the tree: a folder is added where nothing is, a file
in a resource-type folder as the kit decides. -/
inductive Adds (P : Platform ι) (a : Announcement ι) (t : Tree ι) : Event ι → Tree ι → Prop
  | directory (parent : Path) (name : Str) (e : Entry ι) :
      (t.entry parent).any Entry.isDir = true → t.find parent name = none → e.isDir = true →
      Adds P a t (.addDirectory parent name false) (t.put parent name e)
  | file (parent : Path) (stub : OICStub ι) (i : Nat) (item : Str × AttributeValue)
      (reply : Reply) : t.entry parent = some (.oicRTFolder stub) →
      Adds P a t (.addFile parent (cStr item.1) (t.find parent (cStr item.1)).isSome reply)
        (stored P t parent (cStr item.1) (.oicFile (newFile P stub (a.memory i) item)))
  | answered (stub : OICStub ι) (reply : Reply) : Adds P a t (.answered stub reply) t

/-- The events of a calm run, from tree to tree. -/
inductive History (P : Platform ι) (a : Announcement ι) :
    Tree ι → List (Event ι) → Tree ι → Prop
  | nil (t : Tree ι) : History P a t [] t
  | cons {t u t' : Tree ι} {e : Event ι} {es : List (Event ι)} : Adds P a t e u →
      History P a u es t' → History P a t (e :: es) t'

theorem History.single {e : Event ι} (h : Adds P a t e u) : History P a t [e] u :=
  .cons h (.nil u)

theorem History.append {es fs : List (Event ι)} (h : History P a t es u)
    (h' : History P a u fs t') : History P a t (es ++ fs) t' := by
  induction h with
  | nil => exact h'
  | cons hadd _ ih => exact .cons hadd (ih h')

/-! ### What additions leave alone -/

/-- An entry found after an addition was there before or is what was added. -/
theorem Adds.entry_old {e : Event ι} (h : Adds P a t e u) {q : Path} {x : Entry ι}
    (hx : u.entry q = some x) : t.entry q = some x ∨
      (e.folderTarget = some q ∧ x.isDir = true) ∨ (e.fileTarget = some q ∧ x.isDir = false) := by
  cases h with
  | directory parent name e hd hn he =>
    rcases DirTree.entry_put_cases hd hx with ⟨rfl, rfl⟩ | ⟨hold, -⟩
    · exact Or.inr (Or.inl ⟨rfl, he⟩)
    · exact Or.inl hold
  | file parent stub i item reply hrt =>
    rcases entry_stored_cases (isDir_of_typeFolder hrt) hx with ⟨rfl, rfl⟩ | ⟨hold, -⟩
    · exact Or.inr (Or.inr ⟨rfl, rfl⟩)
    · exact Or.inl hold
  | answered => exact Or.inl hx

/-- An entry found after a history was there before or lies at a target of its kind. -/
theorem History.entry_old {es : List (Event ι)} (h : History P a t es t') {q : Path}
    {x : Entry ι} (hx : t'.entry q = some x) : t.entry q = some x ∨
      (q ∈ folderTargets es ∧ x.isDir = true) ∨ (q ∈ fileTargets es ∧ x.isDir = false) := by
  induction h with
  | nil => exact Or.inl hx
  | cons hadd _ ih =>
    rw [mem_folderTargets_cons, mem_fileTargets_cons]
    rcases ih hx with hmid | ⟨hmem, hdir⟩ | ⟨hmem, hdir⟩
    · rcases hadd.entry_old hmid with hold | ⟨htarget, hdir⟩ | ⟨htarget, hdir⟩
      · exact Or.inl hold
      · exact Or.inr (Or.inl ⟨Or.inl htarget, hdir⟩)
      · exact Or.inr (Or.inr ⟨Or.inl htarget, hdir⟩)
    · exact Or.inr (Or.inl ⟨Or.inr hmem, hdir⟩)
    · exact Or.inr (Or.inr ⟨Or.inr hmem, hdir⟩)

/-- An addition leaves alone what does not lie below the target of a file. -/
theorem Adds.entry_above {e : Event ι} (h : Adds P a t e u) {q : Path} {x : Entry ι}
    (hfile : ∀ y, e.fileTarget = some y → ¬ y <+: q) (hx : t.entry q = some x) :
    u.entry q = some x := by
  cases h with
  | directory parent name e hd hn he =>
    exact DirTree.entry_put_kept hd hn hx
  | file parent stub i item reply hrt =>
    have hpre := hfile _ rfl
    unfold stored
    split
    · exact hx
    · rw [DirTree.entry_put_elsewhere hpre]
      exact hx
  | answered => exact hx

/-- Where a file is added there is an entry afterwards. -/
theorem Adds.isSome_target {e : Event ι} (h : Adds P a t e u) {y : Path}
    (hy : e.fileTarget = some y) : (u.entry y).isSome = true := by
  cases h with
  | directory | answered => cases hy
  | file parent stub i item reply hrt =>
    cases hy
    exact entry_stored_self (isDir_of_typeFolder hrt)

/-- It keeps folders unless a file takes their place. -/
theorem Adds.keeps {e : Event ι} (h : Adds P a t e u)
    (hvac : P.overwrites = true → ∀ y, e.fileTarget = some y →
      ¬ (t.entry y).any Entry.isDir = true) {q : Path} {x : Entry ι} (hx : t.entry q = some x)
    (hdir : x.isDir = true) : u.entry q = some x := by
  cases h with
  | directory parent name e hd hn he =>
    exact Adds.entry_above (P := P) (a := a) (.directory parent name e hd hn he)
      (fun y hy => by cases hy) hx
  | file parent stub i item reply hrt =>
    have hd := isDir_of_typeFolder hrt
    rcases entry_stored_kept hd (fun ho => hvac ho _ rfl) hx with hkept | ⟨-, hno, -⟩
    · exact hkept
    · rw [hdir] at hno
      cases hno
  | answered => exact hx

/-- The files are added at one level of the tree, the folders above it. -/
structure Level (depth : Nat) (es : List (Event ι)) : Prop where
  files : ∀ y ∈ fileTargets es, y.length = depth
  folders : ∀ z ∈ folderTargets es, z.length < depth

theorem Level.tail {depth : Nat} {e : Event ι} {es : List (Event ι)} (h : Level depth (e :: es)) :
    Level depth es :=
  ⟨fun y hy => h.files y (mem_fileTargets_cons.mpr (Or.inr hy)),
    fun z hz => h.folders z (mem_folderTargets_cons.mpr (Or.inr hz))⟩

/-- Above the level of the files every entry stays. -/
theorem History.entry_short {depth : Nat} {es : List (Event ι)} (h : History P a t es t')
    (hlevel : Level depth es) {q : Path} (hq : q.length < depth) {x : Entry ι}
    (hx : t.entry q = some x) : t'.entry q = some x := by
  induction h with
  | nil => exact hx
  | cons hadd _ ih =>
    refine ih hlevel.tail (hadd.entry_above (fun y hy hpre => ?_) hx)
    have hlen := hlevel.files y (mem_fileTargets_cons.mpr (Or.inl hy))
    have hle := hpre.length_le
    omega

/-- On the level of the files an addition changes its own target only. -/
theorem Adds.entry_level {depth : Nat} {e : Event ι} {es : List (Event ι)} (h : Adds P a t e u)
    (hlevel : Level depth (e :: es)) {q : Path} (hq : q.length = depth)
    (hno : e.fileTarget ≠ some q) {x : Entry ι} (hx : t.entry q = some x) :
    u.entry q = some x := by
  refine h.entry_above (fun y hy hpre => hno ?_) hx
  have hlen := hlevel.files y (mem_fileTargets_cons.mpr (Or.inl hy))
  rw [hy, hpre.eq_of_length (hlen.trans hq.symm)]

section Targets

variable {p : Entry ι → Prop} {depth : Nat} {es : List (Event ι)}

/-- What holds after every addition of a file stays true of the entry at a path on their
level. -/
theorem History.holds_level (h : History P a t es t') (hlevel : Level depth es)
    (hnew : ∀ (t u : Tree ι) (e : Event ι), Adds P a t e u → ∀ y, e.fileTarget = some y →
      ∃ x, u.entry y = some x ∧ p x)
    {q : Path} (hq : q.length = depth) (hx : ∃ x, t.entry q = some x ∧ p x) :
    ∃ x, t'.entry q = some x ∧ p x := by
  induction h with
  | nil => exact hx
  | @cons t u t' e es hadd _ ih =>
    refine ih hlevel.tail ?_
    by_cases htarget : e.fileTarget = some q
    · exact hnew t u e hadd q htarget
    · obtain ⟨x, hx, hp⟩ := hx
      exact ⟨x, hadd.entry_level hlevel hq htarget hx, hp⟩

/-- So it holds in the end wherever a file was added. -/
theorem History.holds_target (h : History P a t es t') (hlevel : Level depth es)
    (hnew : ∀ (t u : Tree ι) (e : Event ι), Adds P a t e u → ∀ y, e.fileTarget = some y →
      ∃ x, u.entry y = some x ∧ p x)
    {y : Path} (hy : y ∈ fileTargets es) : ∃ x, t'.entry y = some x ∧ p x := by
  induction h with
  | nil => cases hy
  | @cons t u t' e es hadd hrest ih =>
    have hdepth := hlevel.files y hy
    rcases mem_fileTargets_cons.mp hy with hhead | hy
    · exact hrest.holds_level hlevel.tail hnew hdepth (hnew t u e hadd y hhead)
    · exact ih hlevel.tail hy

/-- Where a file was added there is an entry. -/
theorem History.isSome_target (h : History P a t es t') (hlevel : Level depth es) {y : Path}
    (hy : y ∈ fileTargets es) : (t'.entry y).isSome = true := by
  have hnew (t u : Tree ι) (e : Event ι) (hadd : Adds P a t e u) (y : Path)
      (hy : e.fileTarget = some y) : ∃ x, u.entry y = some x ∧ True := by
    obtain ⟨x, hx⟩ := Option.isSome_iff_exists.mp (hadd.isSome_target hy)
    exact ⟨x, hx, trivial⟩
  obtain ⟨x, hx, -⟩ := h.holds_target hlevel hnew hy
  rw [hx]
  rfl

end Targets

/-- Folders stay folders where no file takes their place. -/
theorem History.keeps {es : List (Event ι)} (h : History P a t es t')
    (hvac : P.overwrites = true → ∀ y ∈ fileTargets es, ¬ (t.entry y).any Entry.isDir = true)
    (hapart : ∀ y ∈ fileTargets es, y ∉ folderTargets es) {q : Path} {x : Entry ι}
    (hx : t.entry q = some x) (hdir : x.isDir = true) : t'.entry q = some x := by
  induction h with
  | nil => exact hx
  | cons hadd _ ih =>
    have hhead : P.overwrites = true → ∀ y, _ → _ := fun ho y hy =>
      hvac ho y (mem_fileTargets_cons.mpr (Or.inl hy))
    refine ih (fun ho y hy hd => ?_) (fun y hy hz => ?_) (hadd.keeps hhead hx hdir)
    · obtain ⟨x', hx', hdir'⟩ := (Option.any_eq_true _ _).mp hd
      rcases hadd.entry_old hx' with hold | ⟨htarget, -⟩ | ⟨-, hfile⟩
      · apply hvac ho y (mem_fileTargets_cons.mpr (Or.inr hy))
        rw [hold]
        exact hdir'
      · exact hapart y (mem_fileTargets_cons.mpr (Or.inr hy))
          (mem_folderTargets_cons.mpr (Or.inl htarget))
      · rw [hdir'] at hfile
        cases hfile
    · exact hapart y (mem_fileTargets_cons.mpr (Or.inr hy))
        (mem_folderTargets_cons.mpr (Or.inr hz))

/-! ### Files made by a run -/

/-- A file made for an attribute while the announcement was handled. -/
def MadeBy (P : Platform ι) (a : Announcement ι) (e : Entry ι) : Prop :=
  ∃ stub i item, e = .oicFile (newFile P stub (a.memory i) item)

theorem MadeBy.not_isDir {e : Entry ι} (h : MadeBy P a e) : e.isDir = false := by
  obtain ⟨stub, i, item, rfl⟩ := h
  rfl

/-- On a kit that replaces entries an added file is there afterwards. -/
theorem Adds.made_target {e : Event ι} (h : Adds P a t e u) (ho : P.overwrites = true) {y : Path}
    (hy : e.fileTarget = some y) : ∃ x, u.entry y = some x ∧ MadeBy P a x := by
  cases h with
  | directory | answered => cases hy
  | file parent stub i item reply hrt =>
    cases hy
    refine ⟨_, ?_, stub, i, item, rfl⟩
    simp only [stored, ho, Bool.not_true, Bool.and_false, Bool.false_eq_true, if_false]
    exact DirTree.entry_put_self (isDir_of_typeFolder hrt)

/-- Such a kit ends with a file of this run wherever one was added. -/
theorem History.made_target {depth : Nat} {es : List (Event ι)} (h : History P a t es t')
    (hlevel : Level depth es) (ho : P.overwrites = true) {y : Path} (hy : y ∈ fileTargets es) :
    ∃ x, t'.entry y = some x ∧ MadeBy P a x :=
  h.holds_target hlevel (fun _ _ _ hadd _ htarget => hadd.made_target ho htarget) hy

/-! ### Taken names -/

/-- No name is taken exactly when the files go to distinct paths that were free. -/
theorem History.untaken_iff {depth : Nat} {es : List (Event ι)} (h : History P a t es t')
    (hlevel : Level depth es) : (∀ e ∈ es, e.taken = false) ↔
      (fileTargets es).Nodup ∧ ∀ y ∈ fileTargets es, t.entry y = none := by
  induction h with
  | nil => simp [fileTargets]
  | @cons t u t' e es hadd _ ih =>
    have ih := ih hlevel.tail
    rw [List.forall_mem_cons, ih]
    cases hadd with
    | answered stub reply =>
      rw [fileTargets_cons_none rfl]
      exact and_iff_right rfl
    | directory parent name e hd hn he =>
      rw [fileTargets_cons_none rfl, Event.taken, eq_self, true_and]
      refine and_congr_right fun _ => forall₂_congr fun y hy => ?_
      have hlen := hlevel.folders (parent ++ [name]) (mem_folderTargets_cons.mpr (Or.inl rfl))
      have hdepth := hlevel.tail.files y hy
      rw [DirTree.entry_put_absent hd hn, if_neg]
      rintro rfl
      omega
    | file parent stub i item reply hrt =>
      rw [fileTargets_cons_some rfl, List.nodup_cons, List.forall_mem_cons, Event.taken]
      cases hfree : t.entry (parent ++ [cStr item.1]) with
      | some x => simp [DirTree.find, hfree]
      | none =>
        have hd := isDir_of_typeFolder hrt
        have hfind : t.find parent (cStr item.1) = none := hfree
        have hsame (y : Path) : (stored P t parent (cStr item.1)
            (.oicFile (newFile P stub (a.memory i) item))).entry y = none ↔
              y ≠ parent ++ [cStr item.1] ∧ t.entry y = none := by
          rw [stored_absent hfind, DirTree.entry_put_absent hd hfind]
          by_cases hy : y = parent ++ [cStr item.1] <;> simp [hy]
        simp only [hfind, Option.isSome_none, true_and, hsame]
        constructor
        · rintro ⟨hnodup, hall⟩
          exact ⟨⟨fun hmem => (hall _ hmem).1 rfl, hnodup⟩, fun y hy => (hall y hy).2⟩
        · rintro ⟨⟨hnew, hnodup⟩, hall⟩
          exact ⟨hnodup, fun y hy => ⟨fun he => hnew (he ▸ hy), hall y hy⟩⟩

/-- Additions under taken names change nothing on a kit that keeps entries, and neither do
no additions at all. -/
theorem History.unchanged {es : List (Event ι)} (h : History P a t es t')
    (hfolders : ∀ z ∈ folderTargets es, (t.entry z).isSome = true)
    (hfiles : ∀ y ∈ fileTargets es, P.overwrites = false ∧ (t.entry y).isSome = true) :
    t' = t := by
  induction h with
  | nil => rfl
  | @cons t u t' e es hadd _ ih =>
    have hu : u = t := by
      cases hadd with
      | answered => rfl
      | directory parent name e hd hn he =>
        have hsome := hfolders _ (mem_folderTargets_cons.mpr (Or.inl rfl))
        rw [show t.entry (parent ++ [name]) = none from hn] at hsome
        cases hsome
      | file parent stub i item reply hrt =>
        obtain ⟨hkeep, hsome⟩ := hfiles _ (mem_fileTargets_cons.mpr (Or.inl rfl))
        have hfind : (t.find parent (cStr item.1)).isSome = true := hsome
        simp [stored, hfind, hkeep]
    subst hu
    exact ih (fun z hz => hfolders z (mem_folderTargets_cons.mpr (Or.inr hz)))
      fun y hy => hfiles y (mem_fileTargets_cons.mpr (Or.inr hy))

end IoTFS.Oic
