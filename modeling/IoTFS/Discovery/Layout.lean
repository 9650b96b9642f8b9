import IoTFS.Oic.Directory
import Mathlib.Data.Set.Insert

/-!
# What a set of resources asks of the tree

A layout records which paths are asked for as plain folders, as the ends of resource
paths, as resource-type folders and as files. It determines the class found at every
path, no matter in which order the demands arrived: a resource-type folder wins over a
plain one, a plain folder is an `OICFolder` exactly below the end of some resource
path, and a file hides what lies below it.
-/

namespace IoTFS

open Oic (EntryClass)

/-- The demands on a tree with names `κ`. -/
structure Layout (κ : Type*) where
  /-- Paths visited by some resource path. -/
  folder : Set (List κ)
  /-- Ends of resource paths. -/
  device : Set (List κ)
  /-- Paths of resource types. -/
  rtype : Set (List κ)
  /-- Paths of attributes. -/
  file : Set (List κ)

namespace Layout

variable {κ : Type*} {L : Layout κ} {p q r : List κ} {n : κ}

/-- Demands reach up to the root, through ends and types where they must. -/
structure Closed (L : Layout κ) : Prop where
  root : [] ∉ L.folder ∧ [] ∉ L.rtype ∧ [] ∉ L.file
  folder_parent : ∀ p n, p ++ [n] ∈ L.folder → p = [] ∨ p ∈ L.folder
  device_folder : ∀ q ∈ L.device, q ∈ L.folder
  rtype_parent : ∀ p n, p ++ [n] ∈ L.rtype → p ∈ L.device
  file_parent : ∀ p n, p ++ [n] ∈ L.file → p ∈ L.rtype

/-- The path is asked for in one way or another. -/
def Touched (L : Layout κ) (q : List κ) : Prop :=
  q = [] ∨ q ∈ L.folder ∨ q ∈ L.rtype ∨ q ∈ L.file

/-- The file asked for at `q` is there: it replaced a folder, or there was none. -/
def FileAt (wins : Bool) (L : Layout κ) (q : List κ) : Prop :=
  q ∈ L.file ∧ (wins = true ∨ (q ∉ L.folder ∧ q ∉ L.rtype))

/-- A file hides the path. -/
def Hidden (wins : Bool) (L : Layout κ) (q : List κ) : Prop :=
  ∃ r, r <+: q ∧ r ≠ q ∧ L.FileAt wins r

/-- The path lies below, or is, the end of a resource path. -/
def Below (L : Layout κ) (q : List κ) : Prop := ∃ r ∈ L.device, r <+: q

open Classical in
/-- The class found at a path. -/
noncomputable def kind (wins : Bool) (L : Layout κ) (q : List κ) : Option EntryClass :=
  if L.Hidden wins q then none
  else if L.FileAt wins q then some .OICFile
  else if q ∈ L.rtype then some .OICRTFolder
  else if q = [] ∨ q ∈ L.folder then
    if L.Below q then some .OICFolder else some .IoTFolder
  else none

theorem FileAt.touched {wins : Bool} (h : L.FileAt wins q) : L.Touched q :=
  Or.inr (Or.inr (Or.inr h.1))

/-- Whatever is asked for, its parent is asked for as a folder. -/
theorem Closed.parent (h : L.Closed) (ht : L.Touched (p ++ [n])) :
    p = [] ∨ p ∈ L.folder ∨ p ∈ L.rtype := by
  rcases ht with he | hf | hr | hfile
  · simp at he
  · rcases h.folder_parent p n hf with rfl | hp
    · exact Or.inl rfl
    · exact Or.inr (Or.inl hp)
  · exact Or.inr (Or.inl (h.device_folder p (h.rtype_parent p n hr)))
  · exact Or.inr (Or.inr (h.file_parent p n hfile))

/-- Demands are closed upwards. -/
theorem Closed.touched_above (h : L.Closed) (s : List κ) (ht : L.Touched (p ++ s)) :
    L.Touched p := by
  induction s using List.reverseRecOn with
  | nil => rwa [List.append_nil] at ht
  | append_singleton s n ih =>
    rw [← List.append_assoc] at ht
    apply ih
    rcases h.parent ht with he | hf | hr
    · exact Or.inl he
    · exact Or.inr (Or.inl hf)
    · exact Or.inr (Or.inr (Or.inl hr))

/-- Everything strictly above a folder is a plain folder. -/
theorem Closed.folder_above (h : L.Closed) (s : List κ) (hs : s ≠ [])
    (hq : p ++ s ∈ L.folder ∨ p ++ s ∈ L.rtype) : p = [] ∨ p ∈ L.folder := by
  induction s using List.reverseRecOn with
  | nil => exact absurd rfl hs
  | append_singleton s n ih =>
    have hparent : p ++ s = [] ∨ p ++ s ∈ L.folder := by
      rw [← List.append_assoc] at hq
      rcases hq with hf | hr
      · exact h.folder_parent _ n hf
      · exact Or.inr (h.device_folder _ (h.rtype_parent _ n hr))
    by_cases hn : s = []
    · rwa [hn, List.append_nil] at hparent
    · rcases hparent with he | hf
      · exact absurd (List.append_eq_nil_iff.mp he).2 hn
      · exact ih hn (Or.inl hf)

/-- Below an untouched path nothing is asked for. -/
theorem Closed.untouched_below (h : L.Closed) (hq : ¬ L.Touched q) (hr : q <+: r) :
    ¬ L.Touched r := by
  obtain ⟨s, rfl⟩ := hr
  exact fun ht => hq (h.touched_above s ht)

/-- A visible path without a class is untouched. -/
theorem untouched_of_kind_none {wins : Bool} (hh : ¬ L.Hidden wins q)
    (hk : L.kind wins q = none) : ¬ L.Touched q := by
  have hfile : ¬ L.FileAt wins q := by
    intro hf
    simp [kind, hh, hf] at hk
  have hrt : q ∉ L.rtype := by
    intro hr
    simp [kind, hh, hfile, hr] at hk
  have hplain : ¬ (q = [] ∨ q ∈ L.folder) := by
    intro hp
    simp only [kind, hh, hfile, hrt, hp, if_false, if_true] at hk
    split at hk <;> cases hk
  rintro (he | hf | hr | hf)
  · exact hplain (Or.inl he)
  · exact hplain (Or.inr hf)
  · exact hrt hr
  · exact hfile ⟨hf, Or.inr ⟨fun h => hplain (Or.inr h), hrt⟩⟩

/-- The class of a path is decided by its own demands, by the files above it and by the
resource paths that end above it. -/
theorem kind_congr {wins : Bool} {L' : Layout κ}
    (hhid : L'.Hidden wins q ↔ L.Hidden wins q) (hfile : L'.FileAt wins q ↔ L.FileAt wins q)
    (hrt : q ∈ L'.rtype ↔ q ∈ L.rtype) (hf : q ∈ L'.folder ↔ q ∈ L.folder)
    (hb : q ∉ L.rtype → q = [] ∨ q ∈ L.folder → (L'.Below q ↔ L.Below q)) :
    L'.kind wins q = L.kind wins q := by
  by_cases h₁ : L.Hidden wins q
  · simp [kind, hhid.mpr h₁, h₁]
  by_cases h₂ : L.FileAt wins q
  · simp [kind, hhid, h₁, hfile, h₂]
  by_cases h₃ : q ∈ L.rtype
  · simp [kind, hhid, h₁, hfile, h₂, hrt, h₃]
  have hplain : (q = [] ∨ q ∈ L'.folder) ↔ (q = [] ∨ q ∈ L.folder) := or_congr_right hf
  by_cases h₄ : q = [] ∨ q ∈ L.folder
  · have hbelow : L'.Below q = L.Below q := propext (hb h₃ h₄)
    simp only [kind, hhid, h₁, hfile, h₂, hrt, h₃, hplain, h₄, if_false, if_true]
    rw [hbelow]
  · simp only [kind, hhid, h₁, hfile, h₂, hrt, h₃, hplain, h₄, if_false]

/-- The same files hide the same paths. -/
theorem hidden_congr {wins : Bool} {L' : Layout κ}
    (h : ∀ s, L'.FileAt wins s ↔ L.FileAt wins s) : L'.Hidden wins q ↔ L.Hidden wins q := by
  simp only [Hidden, h]

/-! ### Adding demands -/

/-- Ask for a plain folder. -/
def addFolder (L : Layout κ) (q : List κ) : Layout κ := { L with folder := insert q L.folder }

/-- Ask for the end of a resource path. -/
def addDevice (L : Layout κ) (q : List κ) : Layout κ :=
  { L with folder := insert q L.folder, device := insert q L.device }

/-- Ask for a resource-type folder. -/
def addType (L : Layout κ) (q : List κ) : Layout κ := { L with rtype := insert q L.rtype }

/-- Ask for a file. -/
def addFile (L : Layout κ) (q : List κ) : Layout κ := { L with file := insert q L.file }

/-- A folder asked for below a folder has its parent among the folders. -/
theorem Closed.parent_of_insert (h : L.Closed) (hp : p = [] ∨ p ∈ L.folder) {p' : List κ} {m : κ}
    (hm : p' ++ [m] ∈ insert (p ++ [n]) L.folder) :
    p' = [] ∨ p' ∈ insert (p ++ [n]) L.folder := by
  rcases hm with he | hm
  · obtain ⟨rfl, -⟩ := List.append_inj' he rfl
    exact hp.imp id (Or.inr ·)
  · exact (h.folder_parent p' m hm).imp id (Or.inr ·)

theorem Closed.addFolder (h : L.Closed) (hp : p = [] ∨ p ∈ L.folder) :
    (L.addFolder (p ++ [n])).Closed where
  root := ⟨by simpa [Layout.addFolder] using h.root.1, h.root.2⟩
  folder_parent p' m hm := h.parent_of_insert hp hm
  device_folder q hq := Or.inr (h.device_folder q hq)
  rtype_parent := h.rtype_parent
  file_parent := h.file_parent

theorem Closed.addDevice (h : L.Closed) (hp : p = [] ∨ p ∈ L.folder) :
    (L.addDevice (p ++ [n])).Closed where
  root := ⟨by simpa [Layout.addDevice] using h.root.1, h.root.2⟩
  folder_parent p' m hm := h.parent_of_insert hp hm
  device_folder q hq := hq.imp id (h.device_folder q)
  rtype_parent p' m hm := Or.inr (h.rtype_parent p' m hm)
  file_parent := h.file_parent

theorem Closed.addType (h : L.Closed) (hp : p ∈ L.device) :
    (L.addType (p ++ [n])).Closed where
  root := ⟨h.root.1, by simpa [Layout.addType] using h.root.2.1, h.root.2.2⟩
  folder_parent := h.folder_parent
  device_folder := h.device_folder
  rtype_parent p' m hm := by
    rcases hm with he | hm
    · obtain ⟨rfl, -⟩ := List.append_inj' he rfl
      exact hp
    · exact h.rtype_parent p' m hm
  file_parent p' m hm := Or.inr (h.file_parent p' m hm)

theorem Closed.addFile (h : L.Closed) (hp : p ∈ L.rtype) :
    (L.addFile (p ++ [n])).Closed where
  root := ⟨h.root.1, h.root.2.1, by simpa [Layout.addFile] using h.root.2.2⟩
  folder_parent := h.folder_parent
  device_folder := h.device_folder
  rtype_parent := h.rtype_parent
  file_parent p' m hm := by
    rcases hm with he | hm
    · obtain ⟨rfl, -⟩ := List.append_inj' he rfl
      exact hp
    · exact h.file_parent p' m hm

/-- Asking for a folder where no file is keeps the files. -/
theorem fileAt_addFolder {wins : Bool} (hq : ¬ L.FileAt wins q) (s : List κ) :
    (L.addFolder q).FileAt wins s ↔ L.FileAt wins s := by
  by_cases hs : s = q
  · subst hs
    simp only [hq, iff_false]
    rintro ⟨hf, ho | ho⟩
    · exact hq ⟨hf, Or.inl ho⟩
    · exact ho.1 (Set.mem_insert _ _)
  · simp [FileAt, addFolder, hs]

/-- Asking for a resource-type folder where no file is keeps the files. -/
theorem fileAt_addType {wins : Bool} (hq : ¬ L.FileAt wins q) (s : List κ) :
    (L.addType q).FileAt wins s ↔ L.FileAt wins s := by
  by_cases hs : s = q
  · subst hs
    simp only [hq, iff_false]
    rintro ⟨hf, ho | ho⟩
    · exact hq ⟨hf, Or.inl ho⟩
    · exact ho.2 (Set.mem_insert _ _)
  · simp [FileAt, addType, hs]

/-- Asking for a file adds it unless a folder stands in its place. -/
theorem fileAt_addFile {wins : Bool} (s : List κ) : (L.addFile q).FileAt wins s ↔
    (s = q ∧ (wins = true ∨ (q ∉ L.folder ∧ q ∉ L.rtype))) ∨ L.FileAt wins s := by
  simp only [FileAt, addFile, Set.mem_insert_iff, or_and_right]
  refine or_congr_left (and_congr_right fun hs => ?_)
  rw [hs]

/-- A visible plain folder is an `OICFolder` exactly below the end of a resource path. -/
private theorem kind_eq_plain {wins : Bool} (hh : ¬ L.Hidden wins q)
    (hfile : ¬ L.FileAt wins q) (hrt : q ∉ L.rtype) (hf : q ∈ L.folder) :
    (L.Below q → L.kind wins q = some .OICFolder) ∧
      (¬ L.Below q → L.kind wins q = some .IoTFolder) := by
  constructor <;> intro hb <;> simp [kind, hh, hfile, hrt, hf, hb]

/-- What a visible folder says about its path. -/
theorem visible_of_folder {wins : Bool} {c : EntryClass} (hk : L.kind wins q = some c)
    (hc : c ≠ .OICFile) : ¬ L.Hidden wins q ∧ ¬ L.FileAt wins q := by
  have hh : ¬ L.Hidden wins q := by
    intro hh
    simp [kind, hh] at hk
  refine ⟨hh, fun hf => hc ?_⟩
  simp only [kind, hh, hf, if_false, if_true, Option.some.injEq] at hk
  exact hk.symm

/-- A path is visible when its parent is found as a folder. -/
theorem visible_of_parent {wins : Bool} {c : EntryClass} (hk : L.kind wins p = some c)
    (hc : c ≠ .OICFile) : ¬ L.Hidden wins (p ++ [n]) := by
  obtain ⟨hh, hfile⟩ := visible_of_folder hk hc
  rintro ⟨r, hr, hne, hf⟩
  rcases List.prefix_concat_iff.mp hr with he | hr
  · exact hne he
  · by_cases he : r = p
    · exact hfile (he ▸ hf)
    · exact hh ⟨r, hr, he, hf⟩

/-- A visible file was asked for. -/
theorem fileAt_of_kind {wins : Bool} (hk : L.kind wins q = some .OICFile) :
    L.FileAt wins q := by
  have hh : ¬ L.Hidden wins q := by
    intro hh
    simp [kind, hh] at hk
  by_contra hfile
  simp only [kind, hh, hfile, if_false] at hk
  repeat' split at hk
  all_goals cases hk

/-- A visible resource-type folder was asked for, and is no file. -/
theorem kind_eq_type {wins : Bool} : L.kind wins q = some .OICRTFolder ↔
    ¬ L.Hidden wins q ∧ ¬ L.FileAt wins q ∧ q ∈ L.rtype := by
  constructor
  · intro hk
    obtain ⟨hh, hfile⟩ := visible_of_folder hk (by decide)
    refine ⟨hh, hfile, ?_⟩
    by_contra hrt
    simp only [kind, hh, hfile, hrt, if_false] at hk
    repeat' split at hk
    all_goals cases hk
  · rintro ⟨hh, hfile, hrt⟩
    simp [kind, hh, hfile, hrt]

/-- A plain `IoTFolder` lies below no end of a resource path. -/
theorem kind_eq_IoTFolder {wins : Bool} : L.kind wins q = some .IoTFolder ↔
    ¬ L.Hidden wins q ∧ ¬ L.FileAt wins q ∧ q ∉ L.rtype ∧ (q = [] ∨ q ∈ L.folder) ∧
      ¬ L.Below q := by
  constructor
  · intro hk
    obtain ⟨hh, hfile⟩ := visible_of_folder hk (by decide)
    have hrt : q ∉ L.rtype := by
      intro hrt
      simp [kind, hh, hfile, hrt] at hk
    have hplain : q = [] ∨ q ∈ L.folder := by
      by_contra hp
      simp [kind, hh, hfile, hrt, hp] at hk
    refine ⟨hh, hfile, hrt, hplain, fun hb => ?_⟩
    simp [kind, hh, hfile, hrt, hplain, hb] at hk
  · rintro ⟨hh, hfile, hrt, hplain, hb⟩
    simp [kind, hh, hfile, hrt, hplain, hb]

/-- Asking for a folder where no file is changes no other path. -/
theorem kind_addFolder_of_ne {wins : Bool} (hq : ¬ L.FileAt wins q) (hr : r ≠ q) :
    (L.addFolder q).kind wins r = L.kind wins r :=
  kind_congr (hidden_congr (fileAt_addFolder hq)) (fileAt_addFolder hq r) Iff.rfl
    (by simp [addFolder, hr]) fun _ _ => Iff.rfl

/-- Asking again for a folder that is there changes nothing. -/
theorem kind_addFolder_of_some {wins : Bool} {c : EntryClass} (hk : L.kind wins q = some c)
    (hc : c ≠ .OICFile) : (L.addFolder q).kind wins r = L.kind wins r := by
  obtain ⟨hh, hfile⟩ := visible_of_folder hk hc
  by_cases hr : r = q
  · subst hr
    by_cases hrt : r ∈ L.rtype
    · have hrt' : (L.addFolder r).kind wins r = some .OICRTFolder :=
        kind_eq_type.mpr ⟨(hidden_congr (fileAt_addFolder hfile)).not.mpr hh,
          (fileAt_addFolder hfile r).not.mpr hfile, hrt⟩
      rw [hrt', kind_eq_type.mpr ⟨hh, hfile, hrt⟩]
    · have hplain : r = [] ∨ r ∈ L.folder := by
        by_contra hp
        simp [kind, hh, hfile, hrt, hp] at hk
      have hplain' : r = [] ∨ r ∈ (L.addFolder r).folder := Or.inr (Set.mem_insert _ _)
      have hrt' : r ∉ (L.addFolder r).rtype := hrt
      have hh' := (hidden_congr (q := r) (fileAt_addFolder hfile)).not.mpr hh
      have hfile' := (fileAt_addFolder hfile r).not.mpr hfile
      simp only [kind, hh, hfile, hh', hfile', hrt, hrt', hplain, hplain', if_false, if_true]
      rfl
  · exact kind_addFolder_of_ne hfile hr

/-- A visible folder lies below the end of a resource path unless it is a plain
`IoTFolder`. -/
theorem Closed.below_iff (h : L.Closed) {wins : Bool} {c : EntryClass}
    (hk : L.kind wins q = some c) (hc : c ≠ .OICFile) : L.Below q ↔ c ≠ .IoTFolder := by
  constructor
  · rintro hb rfl
    exact (kind_eq_IoTFolder.mp hk).2.2.2.2 hb
  · intro hne
    obtain ⟨hh, hfile⟩ := visible_of_folder hk hc
    by_cases hrt : q ∈ L.rtype
    · rcases List.eq_nil_or_concat q with rfl | ⟨p, n, rfl⟩
      · exact absurd hrt h.root.2.1
      · rw [List.concat_eq_append] at hrt ⊢
        exact ⟨p, h.rtype_parent p n hrt, List.prefix_append _ _⟩
    · by_contra hb
      have hplain : q = [] ∨ q ∈ L.folder := by
        by_contra hp
        simp [kind, hh, hfile, hrt, hp] at hk
      rw [kind_eq_IoTFolder.mpr ⟨hh, hfile, hrt, hplain, hb⟩] at hk
      exact hne (Option.some.inj hk).symm

/-- Below an end of a resource path no plain `IoTFolder` is found. -/
theorem Closed.child_ne_IoTFolder (h : L.Closed) {wins : Bool} {c : EntryClass}
    (hk : L.kind wins p = some c) (hc : c ≠ .OICFile) (hne : c ≠ .IoTFolder) :
    L.kind wins (p ++ [n]) ≠ some .IoTFolder := by
  intro hq
  obtain ⟨r, hr, hrp⟩ := (h.below_iff hk hc).mpr hne
  exact (kind_eq_IoTFolder.mp hq).2.2.2.2 ⟨r, hr, hrp.trans (List.prefix_append _ _)⟩

/-- A free name in a visible folder is untouched. -/
theorem untouched_of_absent {wins : Bool} {c : EntryClass} (hp : L.kind wins p = some c)
    (hc : c ≠ .OICFile) (hk : L.kind wins (p ++ [n]) = none) :
    ¬ L.Hidden wins (p ++ [n]) ∧ ¬ L.Touched (p ++ [n]) := by
  have hh : ¬ L.Hidden wins (p ++ [n]) := visible_of_parent hp hc
  exact ⟨hh, untouched_of_kind_none hh hk⟩

/-- A folder asked for under a free name takes after its parent. -/
theorem Closed.kind_addFolder_absent [DecidableEq κ] (h : L.Closed) {wins : Bool}
    {c : EntryClass} (hp : L.kind wins p = some c) (hc : c ≠ .OICFile)
    (hk : L.kind wins (p ++ [n]) = none) :
    (L.addFolder (p ++ [n])).kind wins r =
      if r = p ++ [n] then some (if c = .IoTFolder then .IoTFolder else .OICFolder)
      else L.kind wins r := by
  obtain ⟨hh, ht⟩ := untouched_of_absent hp hc hk
  have hfile : ¬ L.FileAt wins (p ++ [n]) := fun hf => ht hf.touched
  by_cases hr : r = p ++ [n]
  · subst hr
    have hbelow : (L.addFolder (p ++ [n])).Below (p ++ [n]) ↔ c ≠ .IoTFolder := by
      rw [← h.below_iff hp hc]
      constructor
      · rintro ⟨d, hd, hpre⟩
        rcases List.prefix_concat_iff.mp hpre with rfl | hpre
        · exact absurd (Or.inr (Or.inl (h.device_folder _ hd))) ht
        · exact ⟨d, hd, hpre⟩
      · rintro ⟨d, hd, hpre⟩
        exact ⟨d, hd, hpre.trans (List.prefix_append _ _)⟩
    obtain ⟨hoic, hiot⟩ := kind_eq_plain (L := L.addFolder (p ++ [n]))
      ((hidden_congr (fileAt_addFolder hfile)).not.mpr hh)
      ((fileAt_addFolder hfile _).not.mpr hfile)
      (fun hrt => ht (Or.inr (Or.inr (Or.inl hrt)))) (Set.mem_insert _ _)
    rw [if_pos rfl]
    by_cases hciot : c = .IoTFolder
    · rw [if_pos hciot]
      exact hiot (by rw [hbelow]; exact not_not.mpr hciot)
    · rw [if_neg hciot]
      exact hoic (hbelow.mpr hciot)
  · rw [if_neg hr]
    exact kind_addFolder_of_ne hfile hr

theorem below_addDevice : (L.addDevice q).Below r ↔ q <+: r ∨ L.Below r := by
  simp [Below, addDevice]

/-- An end asked for under a free name is an `OICFolder`. -/
theorem Closed.kind_addDevice_absent [DecidableEq κ] (h : L.Closed) {wins : Bool}
    {c : EntryClass} (hp : L.kind wins p = some c) (hc : c ≠ .OICFile)
    (hk : L.kind wins (p ++ [n]) = none) :
    (L.addDevice (p ++ [n])).kind wins r =
      if r = p ++ [n] then some .OICFolder else L.kind wins r := by
  obtain ⟨hh, ht⟩ := untouched_of_absent hp hc hk
  have hfile : ¬ L.FileAt wins (p ++ [n]) := fun hf => ht hf.touched
  have hfiles (s : List κ) : (L.addDevice (p ++ [n])).FileAt wins s ↔ L.FileAt wins s :=
    fileAt_addFolder hfile s
  by_cases hr : r = p ++ [n]
  · subst hr
    rw [if_pos rfl]
    exact (kind_eq_plain ((hidden_congr hfiles).not.mpr hh) ((hfiles _).not.mpr hfile)
      (fun hrt => ht (Or.inr (Or.inr (Or.inl hrt)))) (Set.mem_insert _ _)).1
      (below_addDevice.mpr (Or.inl List.prefix_rfl))
  · rw [if_neg hr]
    have hf : r ∈ (L.addDevice (p ++ [n])).folder ↔ r ∈ L.folder := by
      simp [Layout.addDevice, hr]
    refine kind_congr (hidden_congr hfiles) (hfiles r) Iff.rfl hf fun _ hplain => ?_
    rw [below_addDevice]
    refine or_iff_right fun hpre => h.untouched_below ht hpre ?_
    exact hplain.imp id Or.inl

/-- Ending a resource path at a folder that lies below such an end already changes
nothing. -/
theorem Closed.kind_addDevice_of_some (h : L.Closed) {wins : Bool} {c : EntryClass}
    (hk : L.kind wins q = some c) (hc : c.isA .OICFolder = true) :
    (L.addDevice q).kind wins r = L.kind wins r := by
  have hfold : c ≠ .OICFile := by
    rintro rfl
    cases hc
  have hplain : c ≠ .IoTFolder := by
    rintro rfl
    cases hc
  have hbelow : (L.addDevice q).Below r ↔ (L.addFolder q).Below r := by
    rw [below_addDevice]
    refine or_iff_right_of_imp fun hpre => ?_
    obtain ⟨d, hd, hdq⟩ := (h.below_iff hk hfold).mpr hplain
    exact ⟨d, hd, hdq.trans hpre⟩
  rw [← kind_addFolder_of_some (r := r) hk hfold]
  exact kind_congr Iff.rfl Iff.rfl Iff.rfl Iff.rfl fun _ _ => hbelow

/-- Asking for a resource-type folder where no file is changes no other path. -/
theorem kind_addType_of_ne {wins : Bool} (hq : ¬ L.FileAt wins q) (hr : r ≠ q) :
    (L.addType q).kind wins r = L.kind wins r :=
  kind_congr (hidden_congr (fileAt_addType hq)) (fileAt_addType hq r)
    (by simp [addType, hr]) Iff.rfl fun _ _ => Iff.rfl

/-- A resource-type folder asked for in sight is found unless a file is. -/
theorem kind_addType_self {wins : Bool} (hh : ¬ L.Hidden wins q) (hq : ¬ L.FileAt wins q) :
    (L.addType q).kind wins q = some .OICRTFolder :=
  kind_eq_type.mpr ⟨(hidden_congr (fileAt_addType hq)).not.mpr hh,
    (fileAt_addType hq q).not.mpr hq, Set.mem_insert _ _⟩

/-- A resource-type folder asked for under a free name is one. -/
theorem kind_addType_absent [DecidableEq κ] {wins : Bool} {c : EntryClass}
    (hp : L.kind wins p = some c) (hc : c ≠ .OICFile) (hk : L.kind wins (p ++ [n]) = none) :
    (L.addType (p ++ [n])).kind wins r =
      if r = p ++ [n] then some .OICRTFolder else L.kind wins r := by
  obtain ⟨hh, ht⟩ := untouched_of_absent hp hc hk
  have hfile : ¬ L.FileAt wins (p ++ [n]) := fun hf => ht hf.touched
  by_cases hr : r = p ++ [n]
  · rw [if_pos hr, hr]
    exact kind_addType_self hh hfile
  · rw [if_neg hr]
    exact kind_addType_of_ne hfile hr

/-- Asking again for a resource-type folder asks for nothing new. -/
theorem addType_of_mem (h : q ∈ L.rtype) : L.addType q = L := by
  rw [addType, Set.insert_eq_of_mem h]

/-- A file that finds its place, or makes it, hides what lies below it. -/
theorem kind_addFile [DecidableEq κ] {wins : Bool} (hh : ¬ L.Hidden wins q)
    (hput : wins = true ∨ (q ∉ L.folder ∧ q ∉ L.rtype)) :
    (L.addFile q).kind wins r =
      if r = q then some .OICFile else if q <+: r then none else L.kind wins r := by
  have hfiles (s : List κ) : (L.addFile q).FileAt wins s ↔ s = q ∨ L.FileAt wins s := by
    rw [fileAt_addFile, and_iff_left hput]
  have hhid (s : List κ) : (L.addFile q).Hidden wins s ↔
      (q <+: s ∧ q ≠ s) ∨ L.Hidden wins s := by
    simp only [Hidden, hfiles, and_or_left, exists_or, ← and_assoc, exists_eq_right]
  by_cases hr : r = q
  · subst hr
    have hh' : ¬ (L.addFile r).Hidden wins r := by
      rw [hhid]
      rintro (⟨-, hne⟩ | hh')
      · exact hne rfl
      · exact hh hh'
    have hf' : (L.addFile r).FileAt wins r := (hfiles r).mpr (Or.inl rfl)
    simp only [kind, hh', hf', if_false, if_true]
  · rw [if_neg hr]
    split
    · rename_i hpre
      have hh' : (L.addFile q).Hidden wins r :=
        (hhid r).mpr (Or.inl ⟨hpre, fun he => hr he.symm⟩)
      simp only [kind, hh', if_true]
    · rename_i hpre
      refine kind_congr ?_ ?_ Iff.rfl Iff.rfl fun _ _ => Iff.rfl
      · rw [hhid]
        exact or_iff_right fun hc => hpre hc.1
      · rw [hfiles]
        exact or_iff_right hr

/-- Asking for a file leaves the classes of paths that do not pass through it. -/
theorem kind_addFile_elsewhere {wins : Bool} (hr : ¬ q <+: r) :
    (L.addFile q).kind wins r = L.kind wins r := by
  have hfiles (s : List κ) (hs : s <+: r) :
      (L.addFile q).FileAt wins s ↔ L.FileAt wins s := by
    rw [fileAt_addFile]
    refine or_iff_right ?_
    rintro ⟨rfl, -⟩
    exact hr hs
  refine kind_congr (exists_congr fun s => and_congr_right fun hs => ?_)
    (hfiles r List.prefix_rfl) Iff.rfl Iff.rfl fun _ _ => Iff.rfl
  rw [hfiles s hs]

/-- Asking for a file where a folder stays, or where the file is, changes nothing. -/
theorem kind_addFile_of_kept {c : EntryClass} (hk : L.kind false q = some c) (hq : q ≠ []) :
    (L.addFile q).kind false r = L.kind false r := by
  by_cases hc : c = .OICFile
  · subst hc
    have hmem : q ∈ L.file := (fileAt_of_kind hk).1
    rw [addFile, Set.insert_eq_of_mem hmem]
  · obtain ⟨hh, hfile⟩ := visible_of_folder hk hc
    have hdir : ¬ (q ∉ L.folder ∧ q ∉ L.rtype) := by
      rintro ⟨hf, hrt⟩
      simp [kind, hh, hfile, hrt, hf, hq] at hk
    have hfiles (s : List κ) : (L.addFile q).FileAt false s ↔ L.FileAt false s := by
      rw [fileAt_addFile]
      refine or_iff_right ?_
      rintro ⟨-, ho | ho⟩
      · cases ho
      · exact hdir ho
    exact kind_congr (hidden_congr hfiles) (hfiles r) Iff.rfl Iff.rfl fun _ _ => Iff.rfl

end Layout

end IoTFS
