import IoTFS.Discovery.CalmRuns

/-!
# `createFolderByUri` builds its path

Below any folder of any tree the walk ends in an `OICFolder` with its type folders, and adds
no other folder. Folders that were there stay, unless the kit replaces entries and a device
lists an attribute under the name of a folder that lies in the type folder already.
-/

namespace IoTFS.Oic

variable {ι : Type} {P : Platform ι} {a : Announcement ι} {w w' : Provider ι}

/-- The types with the attributes of their replies, by index. -/
theorem Announcement.mem_types {t : Str × List Str} : t ∈ a.types ↔
    ∃ k, a.resource.typeNames[k]? = some t.1 ∧ t.2 = (a.replies k).rep.fileNames := by
  obtain ⟨rt, names⟩ := t
  simp only [types, typesFrom, List.mem_map, Prod.mk.injEq, Prod.exists,
    List.mem_zipIdx_iff_getElem?]
  constructor
  · rintro ⟨_, k, hk, rfl, rfl⟩
    exact ⟨k, hk, rfl⟩
  · rintro ⟨k, hk, rfl⟩
    exact ⟨rt, k, hk, rfl, rfl⟩

/-- What is asked of every file path is asked of the attributes of each type. -/
theorem forall_filePaths {this : Path} {p : Path → Prop} : (∀ y ∈ filePaths this a.types, p y) ↔
    ∀ (k : Nat) (rt : Str), a.resource.typeNames[k]? = some rt →
      ∀ n ∈ (a.replies k).rep.fileNames, p (this ++ [rt] ++ [n]) := by
  constructor
  · intro h k rt hk n hn
    exact h _ (mem_filePaths.mpr ⟨(rt, _), Announcement.mem_types.mpr ⟨k, hk, rfl⟩, n, hn, rfl⟩)
  · intro h y hy
    obtain ⟨t, ht, n, hn, rfl⟩ := mem_filePaths.mp hy
    obtain ⟨k, hk, hnames⟩ := Announcement.mem_types.mp ht
    rw [hnames] at hn
    exact h k t.1 hk n hn

/-- Files go two levels below the end of the path, folders above them. -/
theorem PathAdded.level {parent rest : List Str} {types : List (Str × List Str)}
    {es : List (Event ι)} (h : PathAdded parent rest types es w') :
    Level ((parent ++ rest).length + 2) es := by
  refine ⟨fun y hy => ?_, fun z hz => ?_⟩
  · rw [h.files] at hy
    obtain ⟨t, -, n, -, rfl⟩ := mem_filePaths.mp hy
    simp only [List.length_append, List.length_singleton]
  · rcases h.folders z hz with ⟨s, hs, rfl⟩ | ⟨rt, -, rfl⟩
    · have hlen := hs.length_le
      simp only [List.length_append]
      omega
    · simp only [List.length_append, List.length_singleton]
      omega

/-- The path is built below `parent`, and nothing else: it ends in an `OICFolder` with a
resource-type folder for each type, folders stay what they were, and new ones lie on the path
or are those type folders. -/
structure BuildsPath (a : Announcement ι) (parent : Path) (uri : Str) (w w' : Provider ι) :
    Prop where
  reached : ∃ e, w'.tree.entry (parent ++ folderNames uri) = some e ∧ e.cls.isA .OICFolder = true
  types : ∀ rt ∈ a.resource.typeNames, ∃ stub,
    w'.tree.entry (parent ++ folderNames uri ++ [rt]) = some (.oicRTFolder stub)
  kept : ∀ q e, w.tree.entry q = some e → e.isDir = true → w'.tree.entry q = some e
  new : ∀ q, FolderAt w' q → ¬ FolderAt w q →
    (∃ s, s <+: folderNames uri ∧ q = parent ++ s) ∨
      ∃ rt ∈ a.resource.typeNames, q = parent ++ folderNames uri ++ [rt]

/-- No attribute of a reply is the name of a folder that lies in its type folder. -/
def NoFolderListed (a : Announcement ι) (this : Path) (w : Provider ι) : Prop :=
  ∀ (k : Nat) (rt : Str), a.resource.typeNames[k]? = some rt →
    ∀ n ∈ (a.replies k).rep.fileNames, ¬ FolderAt w (this ++ [rt] ++ [n])

theorem NoFolderListed.iff_filePaths {this : Path} : NoFolderListed a this w ↔
    ∀ y ∈ filePaths this a.types, ¬ FolderAt w y := by
  rw [forall_filePaths, NoFolderListed]

/-- A calm walk without a failed cast builds its path exactly when no file takes the place
of a folder. -/
theorem builds_path_iff (P : Platform ι) (a : Announcement ι) (hcalm : a.Calm) (parent : Path)
    (uri : Str) (w : Provider ι) (hd : FolderAt w parent)
    (hcast : ∀ w', createFolderByUri P a parent uri w ≠ .error .nullCast w') :
    ['/'].intercalate (pieces uri) = uri ∧
      ∃ w', createFolderByUri P a parent uri w = .ok () w' ∧
        (BuildsPath a parent uri w w' ↔
          (P.overwrites = true → NoFolderListed a (parent ++ folderNames uri) w)) := by
  refine ⟨intercalate_pieces uri, ?_⟩
  rw [createFolderByUri_eq_walk] at hcast ⊢
  rcases performs_walk hcalm parent (folderNames uri) (folderNames_ne_nil uri) hd with
    ⟨_, es, w', hrun, -, hist, hadded⟩ | ⟨w', hrun, -⟩
  · refine ⟨w', hrun, ?_⟩
    have hlevel := hadded.level
    rw [NoFolderListed.iff_filePaths, ← hadded.files]
    have hfound := hadded.found
    have hfolders := hadded.folders
    rw [Announcement.types_fst] at hfound hfolders
    constructor
    · intro h ho y hy hdir
      obtain ⟨e, he, hdir⟩ := folderAt_iff.mp hdir
      obtain ⟨x, hx, hmade⟩ := hist.made_target hlevel ho hy
      have hkept := h.kept y e he hdir
      rw [hx] at hkept
      cases hkept
      rw [hmade.not_isDir] at hdir
      cases hdir
    · intro hvac
      refine ⟨hadded.reached, hfound, fun q e he hdir => ?_, fun q hq hold => ?_⟩
      · refine hist.keeps hvac (fun y hy hz => ?_) he hdir
        have hlen := hlevel.files y hy
        have hshort := hlevel.folders y hz
        omega
      · obtain ⟨e, he, hdir⟩ := folderAt_iff.mp hq
        rcases hist.entry_old he with hwas | ⟨hmem, -⟩ | ⟨-, hfile⟩
        · exact absurd (folderAt_iff.mpr ⟨e, hwas, hdir⟩) hold
        · exact hfolders q hmem
        · rw [hdir] at hfile
          cases hfile
  · exact absurd hrun (hcast w')

/-- What is left of a run that returns. -/
def returned : EStateM.Result Fault (Provider ι) Unit → Option (Provider ι)
  | .ok _ w => some w
  | .error _ _ => none

theorem eq_ok_of_returned {r : EStateM.Result Fault (Provider ι) Unit}
    (h : returned r = some w) : r = .ok () w := by
  cases r with
  | ok u w' =>
    cases h
    rfl
  | error e w' => cases h

/-- A lamp at the given place, which answers with the given attributes. -/
def sampleLampAt (place : String) (reply : Reply) : Announcement Str :=
  sampleAnnouncement place ["core.light"] reply

theorem builds_path_iff_sampleLampAt : ∃ w' : Provider Str,
    createFolderByUri samplePlatform (sampleLampAt "lamp" (sampleReply OC_STACK_OK "power")) []
        "/hall//lamp".toList .initial = .ok () w' ∧
      BuildsPath (sampleLampAt "lamp" (sampleReply OC_STACK_OK "power")) []
        "/hall//lamp".toList .initial w' := by
  have hrun : (returned (walk samplePlatform
      (sampleLampAt "lamp" (sampleReply OC_STACK_OK "power")) [] (folderNames "/hall//lamp".toList)
      .initial)).isSome = true := by
    decide +kernel
  obtain ⟨v, hv⟩ := Option.isSome_iff_exists.mp hrun
  have hok := eq_ok_of_returned hv
  obtain ⟨-, w', hw', hiff⟩ := builds_path_iff samplePlatform
    (sampleLampAt "lamp" (sampleReply OC_STACK_OK "power")) (sampleAnnouncement_calm _ _ _) []
    "/hall//lamp".toList .initial Provider.initial.tree.root (fun w' h => by
      rw [createFolderByUri_eq_walk, hok] at h
      cases h)
  refine ⟨w', hw', hiff.mpr fun _ k rt _ n _ hd => ?_⟩
  rw [FolderAt, Provider.entry_initial, if_neg (by simp)] at hd
  cases hd

/-- A platform whose identifiers are a server and a path on it, streamed one after the other. -/
def sampleServers : Platform (Str × Str) := ⟨fun id => id.1 ++ id.2, sampleInterfaces, true⟩

/-- A lamp at the given place of a server, which answers with the given attributes. -/
def sampleLampOn (server place : String) (reply : Reply) : Announcement (Str × Str) where
  resource := ⟨(server.toList, place.toList), ["core.light".toList],
    [sampleInterfaces.DEFAULT_INTERFACE]⟩
  replies _ := reply
  throws _ := false
  memory _ := 0

/-- Two servers on which a lamp has the same text: a folder that lies in the type folder of the
first under the name of an attribute becomes a file when the second is announced. -/
theorem not_builds_path_sampleLampOn : ∃ w w' : Provider (Str × Str),
    discover sampleServers [sampleLampOn "hall" "/a/lamp" ⟨OC_STACK_OK, .empty⟩,
        sampleLampOn "hall" "/a/lamp/core.light/power" ⟨OC_STACK_OK, .empty⟩] = some w ∧
      announce sampleServers w
        (sampleLampOn "hall/a" "/lamp" (sampleReply OC_STACK_OK "power")) = some w' ∧
      createFolderByUri sampleServers
        (sampleLampOn "hall/a" "/lamp" (sampleReply OC_STACK_OK "power")) []
        "hall/a/lamp".toList
        (w.record (sampleLampOn "hall/a" "/lamp" (sampleReply OC_STACK_OK "power"))) =
          .ok () w' ∧
      ¬ BuildsPath (sampleLampOn "hall/a" "/lamp" (sampleReply OC_STACK_OK "power")) []
        "hall/a/lamp".toList
        (w.record (sampleLampOn "hall/a" "/lamp" (sampleReply OC_STACK_OK "power"))) w' := by
  have hrun : ((discover sampleServers [sampleLampOn "hall" "/a/lamp" ⟨OC_STACK_OK, .empty⟩,
      sampleLampOn "hall" "/a/lamp/core.light/power" ⟨OC_STACK_OK, .empty⟩]).any fun w =>
        (w.tree.entry (pieces "hall/a/lamp/core.light/power".toList)).any Entry.isDir &&
        !decide (w.Knows (sampleLampOn "hall/a" "/lamp" (sampleReply OC_STACK_OK "power"))) &&
        (returned (walk sampleServers
          (sampleLampOn "hall/a" "/lamp" (sampleReply OC_STACK_OK "power")) []
          (folderNames "hall/a/lamp".toList)
          (w.record (sampleLampOn "hall/a" "/lamp" (sampleReply OC_STACK_OK "power"))))).any
            fun w' => !(w'.tree.entry (pieces "hall/a/lamp/core.light/power".toList)).any
              Entry.isDir) = true := by
    rw [discover_eq]
    decide +kernel
  obtain ⟨w, hw, hall⟩ := (Option.any_eq_true _ _).mp hrun
  simp only [Bool.and_eq_true, Bool.not_eq_true', decide_eq_false_iff_not] at hall
  obtain ⟨⟨hdir, hnew⟩, hlost⟩ := hall
  obtain ⟨w', hw', hlost⟩ := (Option.any_eq_true _ _).mp hlost
  have hok := eq_ok_of_returned hw'
  refine ⟨w, w', hw, ?_, by rw [createFolderByUri_eq_walk]; exact hok, fun h => ?_⟩
  · rw [announce_fresh hnew]
    exact congrArg survive hok
  · obtain ⟨e, he, hdir⟩ := (Option.any_eq_true _ _).mp hdir
    rw [h.kept _ e he hdir, Option.any_some, hdir] at hlost
    cases hlost

end IoTFS.Oic
