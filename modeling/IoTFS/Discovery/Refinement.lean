import IoTFS.Discovery.Demand
import IoTFS.Oic.Moves

/-!
# The tree shows the layout of the demands

While no call throws, each function run for an announcement either meets a failed cast,
exactly when the demand it makes is unsafe, or leaves a tree whose classes are those of
the extended layout.
-/

namespace IoTFS.Oic

open Exec

variable {ι : Type} {P : Platform ι} {a : Announcement ι} {L L' : Layout Str}

/-- The classes found in the tree are those of the layout. -/
def Shows (P : Platform ι) (L : Layout Str) (t : Tree ι) : Prop :=
  ∀ q, (t.entry q).map Entry.cls = L.kind P.overwrites q

theorem Shows.kind_of_entry {t : Tree ι} (h : Shows P L t) {q : Path} {e : Entry ι}
    (he : t.entry q = some e) : L.kind P.overwrites q = some e.cls := by
  rw [← h q, he, Option.map_some]

/-- A directory shows a folder class. -/
theorem Shows.kind_of_folder {w : Provider ι} (h : Shows P L w.tree) {q : Path}
    (hq : FolderAt w q) : ∃ c, L.kind P.overwrites q = some c ∧ c ≠ .OICFile := by
  cases he : w.tree.entry q with
  | none => simp [FolderAt, he] at hq
  | some e =>
    refine ⟨e.cls, h.kind_of_entry he, ?_⟩
    simp only [FolderAt, he, Option.any_some] at hq
    cases e with
    | oicFile f => cases hq
    | ioTFolder | oicFolder | oicRTFolder stub => simp [Entry.cls]

/-- Adding under an absent name shows a layout that differs there only. -/
theorem Shows.put_absent {t : Tree ι} (h : Shows P L t) {parent : Path} {name : Str}
    {e : Entry ι} (hp : (t.entry parent).any Entry.isDir = true)
    (hn : t.entry (parent ++ [name]) = none)
    (hk : ∀ q, L'.kind P.overwrites q =
      if q = parent ++ [name] then some e.cls else L.kind P.overwrites q) :
    Shows P L' (t.put parent name e) := by
  intro q
  rw [DirTree.entry_put_absent hp hn, hk]
  split
  · rfl
  · exact h q

/-- Two layouts with the same classes are shown by the same trees. -/
theorem Shows.congr {t : Tree ι} (h : Shows P L t)
    (hk : ∀ q, L'.kind P.overwrites q = L.kind P.overwrites q) : Shows P L' t :=
  fun q => (h q).trans (hk q).symm

/-- Where the layout has a folder class, the tree has a directory. -/
theorem Shows.folder_of_kind {t : Tree ι} (h : Shows P L t) {q : Path} {c : EntryClass}
    (hk : L.kind P.overwrites q = some c) (hc : c ≠ .OICFile) :
    (t.entry q).any Entry.isDir = true := by
  rw [← h q] at hk
  obtain ⟨e, he, rfl⟩ := Option.map_eq_some_iff.mp hk
  rw [he, Option.any_some]
  cases e with
  | oicFile f => exact absurd rfl hc
  | ioTFolder | oicFolder | oicRTFolder stub => rfl

/-- Adding a file below a folder shows the layout with the file asked for. -/
theorem Shows.stored_file {t : Tree ι} (hs : Shows P L t) {this : Path} {name : Str}
    {c : EntryClass} (hk : L.kind P.overwrites this = some c) (hc : c ≠ .OICFile)
    (file : OICFile ι) :
    Shows P (L.addFile (this ++ [name])) (stored P t this name (.oicFile file)) := by
  have hd := hs.folder_of_kind hk hc
  have hvis : ¬ L.Hidden P.overwrites (this ++ [name]) :=
    Layout.visible_of_parent hk hc
  cases hf : t.find this name with
  | none =>
    have hn : L.kind P.overwrites (this ++ [name]) = none := by
      rw [← hs, show t.entry (this ++ [name]) = none from hf, Option.map_none]
    have ht := Layout.untouched_of_kind_none hvis hn
    intro q
    rw [stored_absent hf, DirTree.entry_put hd, Layout.kind_addFile hvis
      (Or.inr ⟨fun h => ht (Or.inr (Or.inl h)), fun h => ht (Or.inr (Or.inr (Or.inl h)))⟩)]
    split_ifs
    · rfl
    · rfl
    · exact hs q
  | some e =>
    have hke := hs.kind_of_entry (show t.entry (this ++ [name]) = some e from hf)
    intro q
    cases ho : P.overwrites with
    | true =>
      have hput : stored P t this name (.oicFile file) = t.put this name (.oicFile file) := by
        simp [stored, ho]
      rw [hput, DirTree.entry_put hd, Layout.kind_addFile (ho ▸ hvis) (Or.inl rfl), ← ho]
      split_ifs
      · rfl
      · rfl
      · exact hs q
    | false =>
      have hkeep : stored P t this name (.oicFile file) = t := by
        simp [stored, ho, hf]
      rw [ho] at hke
      rw [hkeep, Layout.kind_addFile_of_kept hke (by simp), ← ho]
      exact hs q

/-- Every folder class is an `IoTFolder`. -/
theorem ne_file_iff_isA_IoTFolder {k : Option EntryClass} :
    k ≠ some .OICFile ↔ ∀ c, k = some c → c.isA .IoTFolder = true := by
  cases k with
  | none => simp
  | some c => cases c <;> simp [EntryClass.isA]

/-- Every other folder class is an `OICFolder`. -/
theorem ne_file_iff_isA_OICFolder {k : Option EntryClass} (h : k ≠ some .IoTFolder) :
    k ≠ some .OICFile ↔ ∀ c, k = some c → c.isA .OICFolder = true := by
  cases k with
  | none => simp
  | some c =>
    revert h
    cases c <;> simp [EntryClass.isA]

section Calm

variable (hcalm : a.Calm)
include hcalm

/-! ### Calls that do not throw -/

theorem find_calm (parent : Path) (name : Str) (w : Provider ι) : find a parent name w =
    .ok (w.tree.find parent name) { w with calls := w.calls + 1 } := by
  rw [find_apply, if_neg (hcalm.not_throws _)]

theorem addDirectory_calm (parent : Path) (name : Str) (e : Entry ι) (w : Provider ι) :
    addDirectory P a parent name e w = .ok (parent ++ [name]) { w with
      calls := w.calls + 1
      tree := stored P w.tree parent name e
      trace := w.trace ++ [.addDirectory parent name (w.tree.find parent name).isSome] } := by
  rw [addDirectory_apply, if_neg (hcalm.not_throws _)]

theorem addFile_calm (parent : Path) (name : Str) (file : OICFile ι) (reply : Reply)
    (w : Provider ι) : addFile P a parent name file reply w = .ok () { w with
      calls := w.calls + 1
      tree := stored P w.tree parent name (.oicFile file)
      trace := w.trace ++ [.addFile parent name (w.tree.find parent name).isSome reply] } := by
  rw [addFile_apply, if_neg (hcalm.not_throws _)]

/-- The reply is remembered before its items are added. -/
theorem getState_calm (this : Path) (stub : OICStub ι) (reply : Reply) (w : Provider ι) :
    OICRTFolder.getState P a this stub reply w =
      addItems P a this stub reply reply.rep.items { w with
        calls := w.calls + 1, trace := w.trace ++ [.answered stub reply] } := by
  have hcall : call a w = .ok () { w with calls := w.calls + 1 } :=
    if_neg (hcalm.not_throws _)
  have hnote : note (.answered stub reply) { w with calls := w.calls + 1 } = .ok () { w with
      calls := w.calls + 1, trace := w.trace ++ [.answered stub reply] } := rfl
  rw [OICRTFolder.getState, bind_ok hcall, bind_ok hnote]
  rfl

/-! ### Deciding the demands -/

/-- Finding or adding a folder fails exactly when the class found is not the target. -/
theorem decides_findOrAdd {fresh : Entry ι} {target : EntryClass} {parent : Path}
    {name : Str} (hfresh : fresh.isDir = true) (htarget : target ≠ .OICFile)
    (habsent : L.kind P.overwrites (parent ++ [name]) = none → ∀ q, L'.kind P.overwrites q =
      if q = parent ++ [name] then some fresh.cls else L.kind P.overwrites q)
    (hkept : ∀ c, L.kind P.overwrites (parent ++ [name]) = some c → c.isA target = true →
      ∀ q, L'.kind P.overwrites q = L.kind P.overwrites q) :
    Decides .nullCast (fun w => Shows P L w.tree ∧ FolderAt w parent)
      (findOrAdd P a fresh target parent name)
      (∀ c, L.kind P.overwrites (parent ++ [name]) = some c → c.isA target = true)
      fun q w => q = parent ++ [name] ∧ Shows P L' w.tree ∧ FolderAt w q := by
  rintro w ⟨hs, hd⟩
  rw [findOrAdd, bind_ok (find_calm hcalm parent name w)]
  cases hf : w.tree.find parent name with
  | none =>
    have hn : w.tree.entry (parent ++ [name]) = none := hf
    have hk : L.kind P.overwrites (parent ++ [name]) = none := by rw [← hs, hn, Option.map_none]
    simp only [addDirectory_calm hcalm, stored_absent hf]
    refine ⟨fun _ => ⟨_, _, rfl, rfl, hs.put_absent hd hn (habsent hk), ?_⟩, fun hc => ?_⟩
    · simp only [FolderAt, DirTree.entry_put_self hd, Option.any_some]
      exact hfresh
    · exact absurd (fun c h => by rw [hk] at h; cases h) hc
  | some e =>
    have he : w.tree.entry (parent ++ [name]) = some e := hf
    have hk := hs.kind_of_entry he
    simp only [dynamicCast]
    by_cases hc : e.cls.isA target = true
    · rw [if_pos hc]
      refine ⟨fun _ => ⟨_, _, rfl, rfl, hs.congr (hkept _ hk hc), ?_⟩, fun h => ?_⟩
      · simp only [FolderAt, he, Option.any_some]
        exact isDir_of_isA htarget hc
      · refine absurd (fun c h' => ?_) h
        rw [hk] at h'
        cases h'
        exact hc
    · rw [if_neg hc]
      exact ⟨fun h => absurd (h _ hk) hc, fun _ => ⟨_, rfl⟩⟩

/-- A step along the path fails exactly at a file. -/
theorem decides_stepTo (hL : L.Closed) {parent : Path} {name : Str} :
    Decides .nullCast (fun w => Shows P L w.tree ∧ FolderAt w parent)
      (stepTo P a parent name)
      (L.kind P.overwrites (parent ++ [name]) ≠ some .OICFile)
      fun q w => q = parent ++ [name] ∧
        Shows P (L.addFolder (parent ++ [name])) w.tree ∧ FolderAt w q := by
  rintro w ⟨hs, hd⟩
  obtain ⟨c, hk, hc⟩ := hs.kind_of_folder hd
  rw [stepTo, bind_ok (get_apply w)]
  have hentry : (w.tree.entry parent).map Entry.cls = some .IoTFolder ↔ c = .IoTFolder := by
    rw [hs parent, hk, Option.some_inj]
  by_cases hiot : c = .IoTFolder
  · rw [if_pos (hentry.mpr hiot)]
    rw [ne_file_iff_isA_IoTFolder]
    refine decides_findOrAdd hcalm rfl (by decide) (fun hn q => ?_) (fun c' hc' hisA q => ?_)
      w ⟨hs, hd⟩
    · rw [hL.kind_addFolder_absent hk hc hn, if_pos hiot]
      rfl
    · exact Layout.kind_addFolder_of_some hc' (by rintro rfl; cases hisA)
  · rw [if_neg fun h => hiot (hentry.mp h)]
    have hne := hL.child_ne_IoTFolder (n := name) hk hc hiot
    rw [ne_file_iff_isA_OICFolder hne]
    refine decides_findOrAdd hcalm rfl (by decide) (fun hn q => ?_) (fun c' hc' hisA q => ?_)
      w ⟨hs, hd⟩
    · rw [hL.kind_addFolder_absent hk hc hn, if_neg hiot]
      rfl
    · exact Layout.kind_addFolder_of_some hc' (by rintro rfl; cases hisA)

/-- The end of the path fails at anything that is no `OICFolder`. -/
theorem decides_deviceFolder (hL : L.Closed) {parent : Path} {name : Str} :
    Decides .nullCast (fun w => Shows P L w.tree ∧ FolderAt w parent)
      (findOrAdd P a .oicFolder .OICFolder parent name)
      (∀ c, L.kind P.overwrites (parent ++ [name]) = some c → c.isA .OICFolder = true)
      fun q w => q = parent ++ [name] ∧
        Shows P (L.addDevice (parent ++ [name])) w.tree ∧ FolderAt w q := by
  rintro w ⟨hs, hd⟩
  obtain ⟨c, hk, hc⟩ := hs.kind_of_folder hd
  refine decides_findOrAdd hcalm rfl (by decide) (fun hn q => ?_) (fun c' hc' hisA q => ?_)
    w ⟨hs, hd⟩
  · exact hL.kind_addDevice_absent hk hc hn
  · exact hL.kind_addDevice_of_some hc' hisA

/-- The folder of a type fails at anything that is no such folder. -/
theorem decides_typeFolder {this : Path} {rt : Str} :
    Decides .nullCast (fun w => Shows P L w.tree ∧ FolderAt w this) (typeFolder P a this rt)
      (∀ c, L.kind P.overwrites (this ++ [rt]) = some c → c = .OICRTFolder)
      fun _ w => Shows P (L.addType (this ++ [rt])) w.tree := by
  rintro w ⟨hs, hd⟩
  obtain ⟨c, hk, hc⟩ := hs.kind_of_folder hd
  rw [typeFolder, bind_ok (find_calm hcalm this rt w)]
  cases hf : w.tree.find this rt with
  | none =>
    have hn : w.tree.entry (this ++ [rt]) = none := hf
    have hk' : L.kind P.overwrites (this ++ [rt]) = none := by rw [← hs, hn, Option.map_none]
    simp only [bind_apply, newStub, addDirectory_calm hcalm, stored_absent hf]
    refine ⟨fun _ => ⟨_, _, rfl, hs.put_absent hd hn fun q => ?_⟩, fun h => ?_⟩
    · exact Layout.kind_addType_absent hk hc hk'
    · exact absurd (fun c h => by rw [hk'] at h; cases h) h
  | some e =>
    have hk' := hs.kind_of_entry (show w.tree.entry (this ++ [rt]) = some e from hf)
    cases e with
    | oicRTFolder stub =>
      refine ⟨fun _ => ⟨_, _, rfl, ?_⟩, fun h => absurd (fun c h' => ?_) h⟩
      · rw [Layout.addType_of_mem (Layout.kind_eq_type.mp hk').2.2]
        exact hs
      · rw [hk'] at h'
        exact (Option.some.inj h').symm
    | ioTFolder | oicFolder | oicFile _ =>
      exact ⟨fun h => (by cases h _ hk'), fun _ => ⟨_, rfl⟩⟩

/-- The files of a reply are added without fail. -/
theorem decides_addItems {this : Path} {stub : OICStub ι} {reply : Reply}
    (items : List (Str × AttributeValue))
    (hk : L.kind P.overwrites this = some .OICRTFolder) :
    Decides .nullCast (fun w => Shows P L w.tree) (addItems P a this stub reply items) True
      fun _ w => Shows P (L.addFiles this (items.map fun item => cStr item.1)) w.tree := by
  induction items generalizing L with
  | nil =>
    intro w hs
    refine ⟨fun _ => ⟨_, _, rfl, ?_⟩, fun h => absurd trivial h⟩
    rw [List.map_nil, Layout.addFiles_nil]
    exact hs
  | cons item items ih =>
    intro w hs
    rw [addItems, bind_ok (get_apply w), bind_ok (addFile_calm hcalm ..), List.map_cons,
      Layout.addFiles_cons]
    refine ih ?_ _ (hs.stored_file hk (by decide) _)
    rw [Layout.kind_addFile_elsewhere (DirTree.not_prefix_parent this (cStr item.1))]
    exact hk

/-- Asking the device and adding what it answers never fails. -/
theorem decides_getState {this : Path} {stub : OICStub ι} {reply : Reply}
    (hk : L.kind P.overwrites this = some .OICRTFolder) :
    Decides .nullCast (fun w => Shows P L w.tree) (OICRTFolder.getState P a this stub reply) True
      fun _ w => Shows P (L.addFiles this reply.rep.fileNames) w.tree := by
  intro w hs
  rw [getState_calm hcalm]
  exact decides_addItems hcalm reply.rep.items hk _ hs

end Calm

/-- The types of a resource from the index `k` on, each with the attributes its reply
lists, by the names of their folders and files. -/
def Announcement.typesFrom (a : Announcement ι) (k : Nat) (rts : List Str) :
    List (Str × List Str) :=
  (rts.zipIdx k).map fun t => (t.1, (a.replies t.2).rep.fileNames)

/-- The types of the announced resource, each with the attributes its reply lists, by the
names of their folders and files. -/
def Announcement.types (a : Announcement ι) : List (Str × List Str) :=
  a.typesFrom 0 a.resource.typeNames

theorem Announcement.typesFrom_cons (a : Announcement ι) (k : Nat) (rt : Str) (rts : List Str) :
    a.typesFrom k (rt :: rts) = (rt, (a.replies k).rep.fileNames) :: a.typesFrom (k + 1) rts := by
  rw [typesFrom, List.zipIdx_cons, List.map_cons]
  rfl

/-- The types listed are those of the resource. -/
theorem Announcement.types_fst (a : Announcement ι) :
    a.types.map Prod.fst = a.resource.typeNames := by
  rw [types, typesFrom, List.map_map]
  exact List.zipIdx_map_fst 0 _

section Calm

variable (hcalm : a.Calm)
include hcalm

/-- The loop over the types fails exactly when one of them is unsafe. -/
theorem decides_typeFolders (hL : L.Closed) {this : Path} (hthis : this ∈ L.device) (k : Nat)
    (rts : List Str) {c : EntryClass} (hk : L.kind P.overwrites this = some c)
    (hc : c ≠ .OICFile) :
    Decides .nullCast (fun w => Shows P L w.tree)
      (typeFolders P a this k rts) (L.TypesSafe P.overwrites this (a.typesFrom k rts))
      fun _ w => Shows P (L.addTypes this (a.typesFrom k rts)) w.tree ∧
        (L.addTypes this (a.typesFrom k rts)).Closed := by
  induction rts generalizing k L with
  | nil =>
    intro w hs
    refine ⟨fun _ => ⟨_, _, rfl, ?_⟩, fun h => absurd (fun t ht => by cases ht) h⟩
    rw [Announcement.typesFrom, List.zipIdx_nil, List.map_nil, Layout.addTypes_nil]
    exact ⟨hs, hL⟩
  | cons rt rts ih =>
    have hvis : ¬ L.Hidden P.overwrites (this ++ [rt]) :=
      Layout.visible_of_parent hk hc
    have hfirst : Decides .nullCast (fun w => Shows P L w.tree) (typeFolder P a this rt)
        (∀ c, L.kind P.overwrites (this ++ [rt]) = some c → c = .OICRTFolder)
        fun _ w => Shows P (L.addType (this ++ [rt])) w.tree :=
      fun w hs => decides_typeFolder hcalm w ⟨hs, hs.folder_of_kind hk hc⟩
    rw [Announcement.typesFrom_cons, Layout.typesSafe_cons hvis, Layout.addTypes_cons, typeFolders]
    refine hfirst.bind fun hclass stub => ?_
    have hfile : ¬ L.FileAt P.overwrites (this ++ [rt]) := by
      intro hf
      cases hclass _ ((Layout.kind_eq_file hvis).mpr hf)
    refine (decides_getState hcalm (Layout.kind_addType_self hvis hfile)).bind_true fun _ => ?_
    have hclosed : (L.addType (this ++ [rt])).Closed := hL.addType hthis
    refine ih (hclosed.addFiles (Set.mem_insert _ _) _) hthis (k + 1) ?_
    rw [Layout.kind_addFiles_elsewhere, Layout.kind_addType_of_ne hfile (by simp), hk]
    intro n _ hpre
    have hl := hpre.length_le
    simp only [List.length_append, List.length_singleton] at hl
    omega

/-- Walking the rest of a path fails exactly when the demand is unsafe. -/
theorem decides_walk (hL : L.Closed) {parent : Path} (hparent : parent = [] ∨ parent ∈ L.folder)
    (rest : List Str) (hrest : rest ≠ []) :
    Decides .nullCast (fun w => Shows P L w.tree ∧ FolderAt w parent) (walk P a parent rest)
      (L.Safe P.overwrites parent rest a.types)
      fun _ w => Shows P (L.demand parent rest a.types) w.tree ∧
        (L.demand parent rest a.types).Closed := by
  induction rest generalizing L parent with
  | nil => exact absurd rfl hrest
  | cons piece rest ih =>
    rintro w ⟨hs, hd⟩
    obtain ⟨c, hk, hc⟩ := hs.kind_of_folder hd
    have hvis : ¬ L.Hidden P.overwrites (parent ++ [piece]) :=
      Layout.visible_of_parent hk hc
    by_cases hlast : rest = []
    · subst hlast
      rw [hL.safe_last hvis, Layout.demand_last, walk]
      refine (decides_deviceFolder hcalm hL).bind (fun _ folder => ?_) w ⟨hs, hd⟩
      rintro v ⟨rfl, hs', hd'⟩
      obtain ⟨c', hk', hc'⟩ := hs'.kind_of_folder hd'
      exact decides_typeFolders hcalm (hL.addDevice hparent) (Set.mem_insert _ _) 0 _ hk' hc' v hs'
    · rw [Layout.safe_cons hvis hlast, Layout.demand_cons, walk_cons _ _ _ _ hlast]
      refine (decides_stepTo hcalm hL).bind (fun _ step => ?_) w ⟨hs, hd⟩
      rintro v ⟨rfl, hv⟩
      exact ih (hL.addFolder hparent) (Or.inr (Set.mem_insert _ _)) hlast v hv

end Calm

/-! ### Whole runs -/

/-- The demands of the announcements that found their identifier new. -/
def demands (P : Platform ι) (es : List (Announcement ι)) : Layout Str where
  folder := {q | q ≠ [] ∧ ∃ e ∈ es, q <+: e.path P}
  device := {q | ∃ e ∈ es, q = e.path P}
  rtype := {q | ∃ e ∈ es, ∃ t ∈ e.types, q = e.path P ++ [t.1]}
  file := {q | ∃ e ∈ es, ∃ t ∈ e.types, ∃ n ∈ t.2, q = e.path P ++ [t.1] ++ [n]}

theorem demands_nil (P : Platform ι) : demands P ([] : List (Announcement ι)) = ⟨∅, ∅, ∅, ∅⟩ := by
  simp [demands]

/-- One more announcement adds its demand. -/
theorem demands_concat (P : Platform ι) (es : List (Announcement ι)) (a : Announcement ι) :
    demands P (es ++ [a]) = (demands P es).demand [] (a.path P) a.types := by
  simp only [demands, Layout.demand, List.nil_append, Layout.mk.injEq, List.mem_append,
    List.mem_singleton, or_and_right, exists_or, exists_eq_left, and_or_left]
  refine ⟨?_, ?_, rfl, rfl⟩
  · ext q
    simp only [Set.mem_ofPred_eq, Set.mem_union]
    refine or_congr_right ⟨fun h => ⟨q, h.1, h.2, rfl⟩, ?_⟩
    rintro ⟨s, hs, hpre, rfl⟩
    exact ⟨hs, hpre⟩
  · ext q
    simp only [Set.mem_ofPred_eq, Set.mem_insert_iff]
    exact or_comm

/-- The empty tree shows the empty layout. -/
theorem shows_initial (P : Platform ι) :
    Shows P (demands P []) (Provider.initial : Provider ι).tree ∧ (demands P []).Closed := by
  rw [demands_nil]
  constructor
  · intro q
    rw [Provider.entry_initial]
    by_cases hq : q = [] <;>
      simp [hq, Layout.kind, Layout.Hidden, Layout.FileAt, Layout.Below, Entry.cls]
  · constructor <;> simp

variable {es : List (Announcement ι)} {w w' : Provider ι}

/-- The provider of a calm run whose announcements `es` found their identifiers new. -/
structure Built (P : Platform ι) (es : List (Announcement ι)) (w : Provider ι) : Prop where
  shows_demands : Shows P (demands P es) w.tree
  closed : (demands P es).Closed
  recorded : w.resources = es.map fun e => (e.resource.uniqueIdentifier, e.resource)

/-- Nothing is built before the first announcement. -/
theorem built_initial (P : Platform ι) : Built P [] Provider.initial :=
  ⟨(shows_initial P).1, (shows_initial P).2, rfl⟩

/-- The identifier of `a` was announced before. -/
def Announced (es : List (Announcement ι)) (a : Announcement ι) : Prop :=
  a.resource.uniqueIdentifier ∈ es.map fun e => e.resource.uniqueIdentifier

instance [DecidableEq ι] (es : List (Announcement ι)) (a : Announcement ι) :
    Decidable (Announced es a) := inferInstanceAs (Decidable (_ ∈ _))

/-- What was announced before is what the provider knows. -/
theorem Built.knows_iff (h : Built P es w) (a : Announcement ι) :
    w.Knows a ↔ Announced es a := by
  rw [Provider.Knows, h.recorded, List.map_map]
  rfl

/-- A new announcement is survived exactly when its demand is safe. -/
theorem Built.announce_fresh [DecidableEq ι] (h : Built P es w) (hcalm : a.Calm)
    (hnew : ¬ w.Knows a) :
    ((demands P es).Safe P.overwrites [] (a.path P) a.types →
      ∃ w', announce P w a = some w' ∧ Built P (es ++ [a]) w') ∧
    (¬ (demands P es).Safe P.overwrites [] (a.path P) a.types → announce P w a = none) := by
  obtain ⟨hok, herr⟩ := decides_walk hcalm h.closed (Or.inl rfl) (a.path P) (a.path_ne_nil P)
    (w.record a) ⟨h.shows_demands, w.tree.root⟩
  rw [Oic.announce_fresh hnew]
  refine ⟨fun hs => ?_, fun hs => ?_⟩
  · obtain ⟨v, w', hw, hshows, hclosed⟩ := hok hs
    rw [hw]
    refine ⟨w', rfl, ?_, ?_, ?_⟩
    · rwa [demands_concat]
    · rwa [demands_concat]
    · have hmoves := (traverses_walk [] (a.path P) rfl (w.record a) w.tree.root).1
      rw [hw] at hmoves
      rw [List.map_append, ← h.recorded]
      exact resources_of_moves hmoves
  · obtain ⟨w', hw⟩ := herr hs
    rw [hw]
    rfl

/-- A new announcement that was survived had a safe demand, which is now built. -/
theorem Built.of_announce [DecidableEq ι] (h : Built P es w) (hcalm : a.Calm)
    (hnew : ¬ w.Knows a) (hs : announce P w a = some w') :
    (demands P es).Safe P.overwrites [] (a.path P) a.types ∧ Built P (es ++ [a]) w' := by
  obtain ⟨hok, herr⟩ := h.announce_fresh hcalm hnew
  by_cases hsafe : (demands P es).Safe P.overwrites [] (a.path P) a.types
  · obtain ⟨v, hv, hbuilt⟩ := hok hsafe
    rw [hs] at hv
    cases hv
    exact ⟨hsafe, hbuilt⟩
  · rw [herr hsafe] at hs
    cases hs

end IoTFS.Oic
