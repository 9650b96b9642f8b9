import IoTFS.Discovery.PathBuild

/-!
# Asking the device again

A type folder is looked up before it is added, the files of a reply are not. A name is added
a second time when the device was asked before, and what becomes of the file then depends on
the kit: it stays, or a new one takes its place.
-/

namespace IoTFS.Oic

variable {ι : Type} {P : Platform ι} {a b : Announcement ι} {w w' : Provider ι}

/-! ### Bits the constructor does not set -/

/-- Interfaces set the two lowest bits of the word found in memory only. -/
theorem getLsbD_setAllowedOperation (I : Interfaces) (memory : BitVec 32)
    (interfaces : List Str) :
    (setAllowedOperation I memory interfaces).getLsbD 2 = memory.getLsbD 2 := by
  induction interfaces generalizing memory with
  | nil => rfl
  | cons interface interfaces ih =>
    have hread : OICFileOperationRead.getLsbD 2 = false := by decide
    have hwrite : OICFileOperationWrite.getLsbD 2 = false := by decide
    have hgrant : (grant I memory interface).getLsbD 2 = memory.getLsbD 2 := by
      unfold grant
      split_ifs <;>
        simp only [BitVec.getLsbD_or, hread, hwrite, Bool.or_false]
    rw [setAllowedOperation, List.foldl_cons, ← setAllowedOperation, ih, hgrant]

theorem MadeBy.bit {e : Entry ι} (h : MadeBy P a e) : ∃ f i, e = .oicFile f ∧
    f.allowedOperation.getLsbD 2 = (a.memory i).getLsbD 2 := by
  obtain ⟨stub, i, item, rfl⟩ := h
  exact ⟨_, i, rfl, getLsbD_setAllowedOperation _ _ _⟩

/-! ### One call -/

/-- No attribute of a reply is in its type folder already. -/
def NotListed (a : Announcement ι) (this : Path) (w : Provider ι) : Prop :=
  ∀ (k : Nat) (rt : Str), a.resource.typeNames[k]? = some rt →
    ∀ n ∈ (a.replies k).rep.fileNames, w.tree.find (this ++ [rt]) n = none

/-- A reply names no file twice, and the replies to a type listed twice share none. -/
structure Unrepeated (a : Announcement ι) : Prop where
  within : ∀ (k : Nat) (rt : Str), a.resource.typeNames[k]? = some rt →
    (a.replies k).rep.fileNames.Nodup
  across : ∀ (j k : Nat) (rt : Str), j < k → a.resource.typeNames[j]? = some rt →
    a.resource.typeNames[k]? = some rt →
    ∀ n ∈ (a.replies j).rep.fileNames, n ∉ (a.replies k).rep.fileNames

theorem NotListed.iff_filePaths {this : Path} : NotListed a this w ↔
    ∀ y ∈ filePaths this a.types, w.tree.entry y = none := by
  rw [forall_filePaths]
  rfl

/-- Files go to distinct paths when no type lists a name twice and types listed twice share
none. -/
theorem nodup_filePaths_iff {this : Path} {types : List (Str × List Str)} :
    (filePaths this types).Nodup ↔ (∀ t ∈ types, t.2.Nodup) ∧
      types.Pairwise fun t t' => t.1 = t'.1 → ∀ n ∈ t.2, n ∉ t'.2 := by
  have hinj (rt : Str) : Function.Injective fun n : Str => this ++ [rt] ++ [n] := by
    intro n n' h
    exact (List.cons.inj (List.append_cancel_left h)).1
  rw [filePaths, List.nodup_flatMap]
  refine and_congr (forall₂_congr fun t _ => List.nodup_map_iff (hinj t.1))
    (List.Pairwise.iff fun t t' => ?_)
  simp only [Function.onFun, List.disjoint_left, List.mem_map, not_exists, not_and]
  constructor
  · intro h htype n hn hn'
    exact h ⟨n, hn, rfl⟩ n hn' (by rw [htype])
  · rintro h y ⟨n, hn, rfl⟩ n' hn' he
    obtain ⟨hpath, hname⟩ := List.append_inj' he rfl
    obtain ⟨-, htype⟩ := List.append_inj' hpath rfl
    cases hname
    exact h (List.cons.inj htype).1.symm n hn hn'

/-- Repetitions within a type and among the types, by index. -/
theorem unrepeated_iff {this : Path} : Unrepeated a ↔ (filePaths this a.types).Nodup := by
  have hlen : a.types.length = a.resource.typeNames.length := by
    rw [← a.types_fst, List.length_map]
  have hget (k : Nat) (hk : k < a.types.length) :
      a.types[k] = (a.resource.typeNames[k], (a.replies k).rep.fileNames) := by
    simp [Announcement.types, Announcement.typesFrom]
  rw [nodup_filePaths_iff, List.pairwise_iff_getElem]
  constructor
  · intro h
    refine ⟨fun t ht => ?_, fun j k hj hk hjk => ?_⟩
    · obtain ⟨k, hk, hnames⟩ := Announcement.mem_types.mp ht
      rw [hnames]
      exact h.within k t.1 hk
    rw [hget j hj, hget k hk]
    intro (htype : a.resource.typeNames[j] = a.resource.typeNames[k])
    have hj' := List.getElem?_eq_getElem (hlen ▸ hj)
    have hk' := List.getElem?_eq_getElem (hlen ▸ hk)
    rw [← htype] at hk'
    exact h.across j k _ hjk hj' hk'
  · rintro ⟨hwithin, h⟩
    refine ⟨fun k rt hk => ?_, fun j k rt hjk hj hk => ?_⟩
    · exact hwithin (rt, _) (Announcement.mem_types.mpr ⟨k, hk, rfl⟩)
    obtain ⟨hjlen, hj⟩ := List.getElem?_eq_some_iff.mp hj
    obtain ⟨hklen, hk⟩ := List.getElem?_eq_some_iff.mp hk
    have hpair := h j k (by rwa [hlen]) (by rwa [hlen]) hjk
    rw [hget, hget] at hpair
    exact hpair (hj.trans hk.symm)

/-- A calm call returns when no other class uses the name of a type. -/
theorem createResourceTypeFolder_calm (hcalm : a.Calm) {this : Path} (hd : FolderAt w this)
    (hclass : ∀ rt ∈ a.resource.typeNames, ∀ e, w.tree.find this rt = some e →
      e.cls = .OICRTFolder) :
    ∃ es w', OICFolder.createResourceTypeFolder P a this w = .ok () w' ∧
      w'.trace = w.trace ++ es ∧ History P a w.tree es w'.tree ∧ TypesAdded this a.types es w' := by
  rcases performs_typeFolders (P := P) hcalm 0 a.resource.typeNames hd with
    ⟨_, es, w', hrun, htrace, hist, hadded⟩ | ⟨w', -, rt, hrt, e, he, hcls⟩
  · exact ⟨es, w', hrun, htrace, hist, hadded⟩
  · exact absurd (hclass rt hrt e he) hcls

/-- Nothing remembered since `w` was added under a taken name. -/
def NothingTaken (w w' : Provider ι) : Prop :=
  ∀ e ∈ w'.trace.drop w.trace.length, e.taken = false

/-- Another call with the same resource and the same replies, whatever is found in memory,
leaves the tree as it is. -/
def Repeatable (P : Platform ι) (a : Announcement ι) (this : Path) (w : Provider ι) : Prop :=
  ∀ b : Announcement ι, b.resource = a.resource → b.replies = a.replies → b.Calm →
    ∃ w', OICFolder.createResourceTypeFolder P b this w = .ok () w' ∧ w'.tree = w.tree

theorem types_congr (hres : b.resource = a.resource) (hreplies : b.replies = a.replies) :
    b.types = a.types := by
  rw [Announcement.types, Announcement.types, Announcement.typesFrom, Announcement.typesFrom,
    hres, hreplies]

/-- After a first call a second one finds its folders, and the names of its files taken. -/
theorem second_call {this : Path} {es : List (Event ι)} (hist : History P a w.tree es w'.tree)
    (hadded : TypesAdded this a.types es w') (hd : FolderAt w' this)
    (hres : b.resource = a.resource) (hreplies : b.replies = a.replies) (hcalm : b.Calm) :
    ∃ fs w'', OICFolder.createResourceTypeFolder P b this w' = .ok () w'' ∧
      History P b w'.tree fs w''.tree ∧ TypesAdded this a.types fs w'' ∧
      (∀ z ∈ folderTargets fs, (w'.tree.entry z).isSome = true) ∧
      ∀ y ∈ fileTargets fs, (w'.tree.entry y).isSome = true := by
  have hfound := hadded.found
  rw [Announcement.types_fst] at hfound
  have hclass : ∀ rt ∈ b.resource.typeNames, ∀ e, w'.tree.find this rt = some e →
      e.cls = .OICRTFolder := by
    intro rt hrt e he
    rw [hres] at hrt
    obtain ⟨stub, hstub⟩ := hfound rt hrt
    rw [DirTree.find, hstub] at he
    cases he
    rfl
  obtain ⟨fs, w'', hrun, -, hist', hadded'⟩ :=
    createResourceTypeFolder_calm (P := P) hcalm hd hclass
  rw [types_congr hres hreplies] at hadded'
  refine ⟨fs, w'', hrun, hist', hadded', fun z hz => ?_, fun y hy => ?_⟩
  · obtain ⟨rt, hrt, rfl⟩ := hadded'.folders z hz
    obtain ⟨stub, hstub⟩ := hadded.found rt hrt
    rw [hstub]
    rfl
  · rw [hadded'.files, ← hadded.files] at hy
    exact hist.isSome_target hadded.level hy

/-- A calm call adds nothing under a taken name exactly when its attributes are not in the
type folders yet and no type is asked for the same attribute twice; and it is repeatable
exactly when the kit keeps entries or there is no attribute at all. -/
theorem readds_iff (P : Platform ι) (a : Announcement ι) (hcalm : a.Calm) (this : Path)
    (w : Provider ι) (hd : FolderAt w this)
    (hclass : ∀ rt ∈ a.resource.typeNames, ∀ e, w.tree.find this rt = some e →
      e.cls = .OICRTFolder) :
    ∃ w', OICFolder.createResourceTypeFolder P a this w = .ok () w' ∧
      (NothingTaken w w' ↔ NotListed a this w ∧ Unrepeated a) ∧
      (Repeatable P a this w' ↔ P.overwrites = false ∨ ∀ (k : Nat) (rt : Str),
        a.resource.typeNames[k]? = some rt → (a.replies k).rep.fileNames = []) := by
  obtain ⟨es, w', hrun, htrace, hist, hadded⟩ :=
    createResourceTypeFolder_calm (P := P) hcalm hd hclass
  have hlevel := hadded.level
  refine ⟨w', hrun, ?_, ?_⟩
  · rw [NothingTaken, htrace, List.drop_left, hist.untaken_iff hlevel, hadded.files,
      ← unrepeated_iff, ← NotListed.iff_filePaths, and_comm]
  · have hd' : FolderAt w' this := by
      obtain ⟨e, he, hdir⟩ := folderAt_iff.mp hd
      exact folderAt_iff.mpr ⟨e, hist.entry_short hlevel (by omega) he, hdir⟩
    constructor
    · intro hrepeat
      by_contra hno
      simp only [not_or, Bool.not_eq_false, not_forall] at hno
      obtain ⟨ho, k, rt, hk, hne⟩ := hno
      obtain ⟨n, hn⟩ := List.exists_mem_of_ne_nil _ hne
      have hy : this ++ [rt] ++ [n] ∈ filePaths this a.types :=
        mem_filePaths.mpr ⟨(rt, _), Announcement.mem_types.mpr ⟨k, hk, rfl⟩, n, hn, rfl⟩
      rw [← hadded.files] at hy
      obtain ⟨x, hx, hmade⟩ := hist.made_target hlevel ho hy
      obtain ⟨f, -, rfl, -⟩ := hmade.bit
      let b : Announcement ι :=
        { a with memory := fun _ => if f.allowedOperation.getLsbD 2 then 0 else 4 }
      obtain ⟨w'', hrun', htree⟩ := hrepeat b rfl rfl hcalm
      obtain ⟨fs, v, hrun'', hist', hadded', -⟩ :=
        second_call (b := b) hist hadded hd' rfl rfl hcalm
      rw [hrun'] at hrun''
      cases hrun''
      rw [hadded.files, ← hadded'.files] at hy
      obtain ⟨x', hx', hmade'⟩ := hist'.made_target hadded'.level ho hy
      obtain ⟨f', i, rfl, hbit⟩ := hmade'.bit
      rw [htree, hx] at hx'
      cases hx'
      cases hthird : f.allowedOperation.getLsbD 2 with
      | true =>
        have hword : b.memory i = 0 := if_pos hthird
        rw [hthird, hword] at hbit
        exact absurd hbit (by decide)
      | false =>
        have hword : b.memory i = 4 := if_neg (by rw [hthird]; decide)
        rw [hthird, hword] at hbit
        exact absurd hbit (by decide)
    · intro hkeep b hres hreplies hcalmb
      obtain ⟨fs, w'', hrun', hist', hadded', hfolders, hfiles⟩ :=
        second_call hist hadded hd' hres hreplies hcalmb
      refine ⟨w'', hrun', hist'.unchanged hfolders fun y hy => ⟨?_, hfiles y hy⟩⟩
      refine hkeep.resolve_right fun hnone => ?_
      rw [hadded'.files] at hy
      refine forall_filePaths (p := fun _ => False).mpr (fun k rt hk n hn => ?_) y hy
      rw [hnone k rt hk] at hn
      cases hn

theorem readds_iff_sampleLampAt : ∃ w' : Provider Str,
    OICFolder.createResourceTypeFolder samplePlatform
        (sampleLampAt "lamp" (sampleReply OC_STACK_OK "power")) [] .initial = .ok () w' ∧
      NothingTaken .initial w' := by
  obtain ⟨w', hrun, hnothing, -⟩ := readds_iff samplePlatform
    (sampleLampAt "lamp" (sampleReply OC_STACK_OK "power")) (sampleAnnouncement_calm _ _ _) []
    .initial Provider.initial.tree.root (fun rt _ e he => by
      rw [DirTree.find, Provider.entry_initial, if_neg (by simp)] at he
      cases he)
  have honce : (sampleReply OC_STACK_OK "power").rep.fileNames.Nodup := by decide +kernel
  refine ⟨w', hrun, hnothing.mpr ⟨fun k rt _ n _ => ?_, fun _ _ _ => honce, ?_⟩⟩
  · rw [DirTree.find, Provider.entry_initial, if_neg (by simp)]
  · intro j k rt hjk hj hk
    have hlen := (List.getElem?_eq_some_iff.mp hk).1
    simp only [sampleLampAt, sampleAnnouncement, OCResource.typeNames, List.map_cons,
      List.map_nil, List.length_singleton] at hlen
    omega

/-- A type listed twice is asked twice, and its attribute added under a taken name. -/
theorem readds_sampleAnnouncement : ∃ w' : Provider Str,
    OICFolder.createResourceTypeFolder samplePlatform
        (sampleAnnouncement "lamp" ["core.light", "core.light"] (sampleReply OC_STACK_OK "power"))
        [] .initial = .ok () w' ∧
      ¬ NothingTaken .initial w' := by
  have hrun : ((returned (OICFolder.createResourceTypeFolder samplePlatform
      (sampleAnnouncement "lamp" ["core.light", "core.light"] (sampleReply OC_STACK_OK "power"))
      [] .initial)).any fun w' => w'.trace.any Event.taken) = true := by
    decide +kernel
  obtain ⟨w', hw', htaken⟩ := (Option.any_eq_true _ _).mp hrun
  refine ⟨w', eq_ok_of_returned hw', fun hnothing => ?_⟩
  obtain ⟨e, he, htaken⟩ := List.any_eq_true.mp htaken
  rw [hnothing e he] at htaken
  cases htaken

end IoTFS.Oic
