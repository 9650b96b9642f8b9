import IoTFS.Files.Isolation

/-!
# Where the files of the mounted file system lie

Calls change the contents of files and announcements add entries, so a file stays below the
resource-type folder whose stub it holds, and that folder below the path of the resource the
stub is bound to, whatever the order of announcements and calls. The files of one resource are
told from those of another by their paths, so identifiers stream to distinct C strings here.
-/

namespace IoTFS.Oic

variable {ι : Type} {P : Platform ι}

/-- Every folder of a type lies below the path of its resource, and every file below such a
folder, with its stub and with one attribute, which the resource offers. -/
structure Placed (P : Platform ι) (offers : ι → Str → AttributeType → Prop) (w : Provider ι) :
    Prop where
  typeFolder : ∀ q stub, w.tree.entry q = some (.oicRTFolder stub) →
    ∃ rt ∈ stub.resource.typeNames, q = stub.resource.path P ++ [rt]
  file : ∀ q f, w.tree.entry q = some (.oicFile f) → ∃ p stub, q = p ++ [cStr f.fileName] ∧
    w.tree.entry p = some (.oicRTFolder stub) ∧ f.stub = some stub ∧
      ∃ type, f.values.types = [(f.fileName, type)] ∧
        offers stub.resource.uniqueIdentifier f.fileName type

theorem placed_initial (offers : ι → Str → AttributeType → Prop) :
    Placed P offers Provider.initial := by
  constructor
  · intro q stub h
    rw [Provider.entry_initial] at h
    split at h <;> cases h
  · intro q f h
    rw [Provider.entry_initial] at h
    split at h <;> cases h

variable {offers : ι → Str → AttributeType → Prop} {a : Announcement ι} {w w' : Provider ι}

section Announce

variable (h : Placed P offers w) (hinj : Function.Injective P.stream)
  (hnul : ∀ id, nul ∉ P.stream id)
  (hoffers : ∀ k, ∀ item ∈ (a.replies k).rep.items,
    offers a.resource.uniqueIdentifier item.1 item.2.type)
include h hinj hnul hoffers

/-- A move adds entries where they belong. -/
theorem Placed.move (hm : Move P a w w') : Placed P offers w' := by
  obtain ⟨new, hcases⟩ := hm.entry_cases
  have hfolder : ∀ q stub, w'.tree.entry q = some (.oicRTFolder stub) →
      ∃ rt ∈ stub.resource.typeNames, q = stub.resource.path P ++ [rt] := by
    intro q stub hq
    rcases hcases q _ hq with ⟨-, hadd⟩ | ⟨hold, -⟩
    · cases hadd with
      | typeFolder rt hrt hpath _ => exact ⟨rt, hrt, hpath⟩
    · exact h.typeFolder q stub hold
  refine ⟨hfolder, fun q f hq => ?_⟩
  rcases hcases q _ hq with ⟨-, hadd⟩ | ⟨hold, habove⟩
  · cases hadd with
    | file k rt stub i item hk hpath hrt hans hmem =>
      refine ⟨_, stub, hpath, hrt, rfl, item.2.type, rfl, ?_⟩
      obtain ⟨rt', -, hplace⟩ := hfolder _ _ hrt
      have hsame : a.resource.path P = stub.resource.path P := List.append_inj_left' hplace rfl
      have hid : a.resource.uniqueIdentifier = stub.resource.uniqueIdentifier :=
        OCResource.path_injective hinj (hnul _) (hnul _) hsame
      rw [← hid]
      exact hoffers k item hmem
  · obtain ⟨p, stub, hpath, hp, hrest⟩ := h.file q f hold
    refine ⟨p, stub, hpath, ?_, hrest⟩
    rw [habove p (hpath ▸ List.prefix_append _ _), hp]

theorem Placed.moves (hm : Relation.ReflTransGen (Move P a) w w') : Placed P offers w' := by
  induction hm with
  | refl => exact h
  | tail _ hstep ih => exact ih.move hinj hnul hoffers hstep

/-- A survived announcement keeps everything in its place. -/
theorem Placed.announce [DecidableEq ι] (ha : announce P w a = some w') :
    Placed P offers w' := by
  rcases announce_cases ha with ⟨-, rfl⟩ | ⟨-, hmoves⟩
  · exact h
  · exact Placed.moves (w := w.record a) ⟨h.typeFolder, h.file⟩ hinj hnul hoffers hmoves

end Announce

/-- So does putting a file with another content in the place of a file. -/
theorem Placed.refile (h : Placed P offers w) {q : Path} {f file : OICFile ι}
    (hq : w.tree.entry q = some (.oicFile f)) (hshape : OICFile.SameShape f file) :
    Placed P offers (w.refile q file) := by
  have hfolder (p : Path) (stub : OICStub ι) :
      (w.refile q file).tree.entry p = some (.oicRTFolder stub) ↔
        w.tree.entry p = some (.oicRTFolder stub) := by
    simp only [Provider.refile, DirTree.entry_modify]
    split
    · rename_i hp
      rw [hp, hq]
      simp [Entry.refile]
    · rfl
  constructor
  · intro p stub hp
    exact h.typeFolder p stub ((hfolder p stub).mp hp)
  · intro p g hg
    rcases file_of_refile hg with ⟨rfl, rfl⟩ | hold
    · obtain ⟨p, stub, hpath, hp, hstub, type, htype, hoff⟩ := h.file _ f hq
      refine ⟨p, stub, by rw [hshape.fileName, hpath], (hfolder p stub).mpr hp, ?_, type, ?_, ?_⟩
      · rw [hshape.stub, hstub]
      · rw [hshape.types, hshape.fileName, htype]
      · rw [hshape.fileName]
        exact hoff
    · obtain ⟨p', stub, hpath, hp, hrest⟩ := h.file p g hold
      exact ⟨p', stub, hpath, (hfolder p' stub).mpr hp, hrest⟩

/-- Every event of the mounted file system keeps everything in its place. -/
theorem Placed.step [DecidableEq ι] {m m' : Mount ι} {e : MountEvent ι}
    (h : Placed P offers m.provider) (hinj : Function.Injective P.stream)
    (hnul : ∀ id, nul ∉ P.stream id)
    (hoffers : ∀ a, e = .announce a → ∀ k, ∀ item ∈ (a.replies k).rep.items,
      offers a.resource.uniqueIdentifier item.1 item.2.type)
    (hs : m.step P e = some m') : Placed P offers m'.provider := by
  cases e with
  | announce a =>
    obtain ⟨w, hw, rfl⟩ := Option.map_eq_some_iff.mp hs
    exact h.announce hinj hnul (hoffers a rfl) hw
  | call q op =>
    simp only [Mount.step] at hs
    split at hs
    · rename_i f hf
      cases hs
      exact h.refile hf (f.perform_call op).sameShape
    · cases hs

end IoTFS.Oic
