import IoTFS.Core.PathText
import IoTFS.Discovery.Routing

/-!
# Names that can be looked up

Identifiers are cut at their separators before their pieces become names; empty pieces stay,
and resource types and attribute names are used as the device spells them, up to their first
NUL. In the runs in which every new announcement brings proper names only, every name added can
be looked up.
-/

namespace IoTFS.Oic

variable {ι : Type} {P : Platform ι} {a : Announcement ι} {w w' : Provider ι}

/-- The name handed to `add_directory` or `add_file`. -/
def Event.addedName : Event ι → Option Str
  | .addDirectory _ name _ => some name
  | .addFile _ name _ _ => some name
  | .answered _ _ => none

/-- The names an announcement brings, as C strings: the pieces of its identifier, its types,
and the attributes of the replies of its types. -/
inductive Announcement.Names (P : Platform ι) (a : Announcement ι) (n : Str) : Prop
  | piece : n ∈ a.path P → Names P a n
  | type : n ∈ a.resource.typeNames → Names P a n
  | listed (k : Nat) (rt : Str) : a.resource.typeNames[k]? = some rt →
      n ∈ (a.replies k).rep.fileNames → Names P a n

/-- All of them are proper. -/
def Announcement.WellNamed (P : Platform ι) (a : Announcement ι) : Prop :=
  ∀ n, a.Names P n → ProperName n

/-- The names added are proper, and so are those on the path of any entry. -/
structure ProperlyNamed (w : Provider ι) : Prop where
  added : ∀ e ∈ w.trace, ∀ n, e.addedName = some n → ProperName n
  found : ∀ q e, w.tree.entry q = some e → ∀ n ∈ q, ProperName n

/-- A move adds under names of its announcement. -/
theorem Move.added_names (h : Move P a w w') {e : Event ι} (he : e ∈ w'.trace) :
    e ∈ w.trace ∨ ∀ n, e.addedName = some n → a.Names P n := by
  have hlast {x : Event ι} (hx : e ∈ w.trace ++ [x]) : e ∈ w.trace ∨ e = x := by
    simpa using hx
  cases h with
  | counted => exact Or.inl he
  | tried n m parent name hname hn hm =>
    refine (hlast he).imp id ?_
    rintro rfl _ ⟨⟩
    rcases hname with hpath | ⟨-, hrt⟩
    · exact .piece (hpath.subset (List.mem_append_right _ (List.mem_singleton_self _)))
    · exact .type hrt
  | folder n parent name x hpath =>
    refine (hlast he).imp id ?_
    rintro rfl _ ⟨⟩
    exact .piece (hpath.subset (List.mem_append_right _ (List.mem_singleton_self _)))
  | typeFolder n rt hrt =>
    refine (hlast he).imp id ?_
    rintro rfl _ ⟨⟩
    exact .type hrt
  | answered =>
    refine (hlast he).imp id ?_
    rintro rfl _ ⟨⟩
  | triedFile n k rt item hk hmem | file n k rt stub memory item hk hrt hans hmem =>
    refine (hlast he).imp id ?_
    rintro rfl _ ⟨⟩
    exact .listed k rt hk (List.mem_map_of_mem hmem)

/-- What a move adds lies under names of its announcement. -/
theorem Move.found_names (h : Move P a w w') {q : Path} {e : Entry ι}
    (he : w'.tree.entry q = some e) :
    (∃ e', w.tree.entry q = some e') ∨ ∀ n ∈ q, a.Names P n := by
  cases h with
  | counted | tried | answered | triedFile => exact Or.inl ⟨e, he⟩
  | folder n parent name x hpath hx hd hn =>
    rcases DirTree.entry_put_cases hd he with ⟨rfl, -⟩ | ⟨hold, -⟩
    · exact Or.inr fun n hn => .piece (hpath.subset hn)
    · exact Or.inl ⟨e, hold⟩
  | typeFolder n rt hrt hd hn =>
    rcases DirTree.entry_put_cases hd he with ⟨rfl, -⟩ | ⟨hold, -⟩
    · refine Or.inr fun n hn => ?_
      rcases List.mem_append.mp hn with hn | hn
      · exact .piece hn
      · cases List.mem_singleton.mp hn
        exact .type hrt
    · exact Or.inl ⟨e, hold⟩
  | file n k rt stub memory item hk hrt hans hmem =>
    rcases entry_stored_cases (isDir_of_typeFolder hrt) he with ⟨rfl, -⟩ | ⟨hold, -⟩
    · refine Or.inr fun n hn => ?_
      simp only [List.append_assoc, List.mem_append, List.mem_singleton] at hn
      rcases hn with hn | rfl | rfl
      · exact .piece hn
      · exact .type (List.mem_of_getElem? hk)
      · exact .listed k rt hk (List.mem_map_of_mem hmem)
    · exact Or.inl ⟨e, hold⟩

/-- Moves for a well-named announcement keep every name proper. -/
theorem ProperlyNamed.moves (h : ProperlyNamed w) (ha : a.WellNamed P)
    (hm : Relation.ReflTransGen (Move P a) w w') : ProperlyNamed w' := by
  induction hm with
  | refl => exact h
  | tail _ hstep ih =>
    refine ⟨fun e he n hn => ?_, fun q e he n hn => ?_⟩
    · rcases hstep.added_names he with hold | hnew
      · exact ih.added e hold n hn
      · exact ha n (hnew n hn)
    · rcases hstep.found_names he with ⟨e', hold⟩ | hnew
      · exact ih.found q e' hold n hn
      · exact ha n (hnew n hn)

theorem properlyNamed_initial : ProperlyNamed (Provider.initial : Provider ι) := by
  refine ⟨fun e he => (by cases he), fun q e he n hn => ?_⟩
  rw [Provider.entry_initial] at he
  split at he
  · rename_i hq
    rw [hq] at hn
    cases hn
  · cases he

/-- Recording an identifier adds no name. -/
theorem ProperlyNamed.record (h : ProperlyNamed w) (a : Announcement ι) :
    ProperlyNamed (w.record a) := ⟨h.added, h.found⟩

section Runs

variable [DecidableEq ι]

/-- Every announcement of the run that is new when it is handled is well named. -/
def NewWellNamed (P : Platform ι) (as : List (Announcement ι)) : Prop :=
  ∀ pre a v, pre ++ [a] <+: as → discover P pre = some v → ¬ v.Knows a → a.WellNamed P

/-- The condition on a run is one on each of its beginnings. -/
theorem NewWellNamed.mono {as bs : List (Announcement ι)} (h : NewWellNamed P as)
    (hpre : bs <+: as) : NewWellNamed P bs :=
  fun pre a v hb hv hfresh => h pre a v (hb.trans hpre) hv hfresh

theorem discover_concat_eq_some (as : List (Announcement ι)) (a : Announcement ι) :
    discover P (as ++ [a]) = some w ↔ ∃ v, discover P as = some v ∧ announce P v a = some w := by
  simp [discover, Machine.exec_append_eq_some]

/-- Between announcements every name is proper. -/
theorem properlyNamed_of_discover (as : List (Announcement ι)) (hnew : NewWellNamed P as)
    (h : discover P as = some w) : ProperlyNamed w := by
  induction as using List.reverseRecOn generalizing w with
  | nil =>
    cases h
    exact properlyNamed_initial
  | append_singleton as a ih =>
    obtain ⟨v, hv, hs⟩ := (discover_concat_eq_some as a).mp h
    have ih := ih (hnew.mono (List.prefix_append _ _)) hv
    rcases announce_cases hs with ⟨-, rfl⟩ | ⟨hfresh, hm⟩
    · exact ih
    · exact (ih.record a).moves (hnew as a v List.prefix_rfl hv hfresh) hm

/-- In every state met along a run whose new announcements are well named, every name added
is proper, and every entry has exactly one absolute path. -/
theorem names_proper_of_run (P : Platform ι) (as : List (Announcement ι)) (w : Provider ι)
    (h : Visited P as w) (hnew : NewWellNamed P as) :
    (∀ e ∈ w.trace, ∀ n, e.addedName = some n → ProperName n) ∧
      ∀ q e, w.tree.entry q = some e → ∃! text, Canonical text ∧ resolve text = q := by
  have hproper : ProperlyNamed w := by
    cases h with
    | between hd => exact properlyNamed_of_discover as hnew hd
    | @during as a v w hd hfresh hm =>
      have hprev := hnew.mono (List.prefix_append _ _)
      have hv := (properlyNamed_of_discover as hprev hd).record a
      exact hv.moves (hnew as a v List.prefix_rfl hd hfresh) hm
  exact ⟨hproper.added, fun q e he => existsUnique_canonical (hproper.found q e he)⟩

end Runs

/-- A lamp with ordinary names. -/
def sampleOrdinary : Announcement Str :=
  sampleAnnouncement "hall/a/light" ["core.light"] (sampleReply OC_STACK_OK "power")

theorem sampleOrdinary_wellNamed : sampleOrdinary.WellNamed samplePlatform := by
  intro n hn
  cases hn with
  | piece h =>
    have hall : ∀ n ∈ sampleOrdinary.path samplePlatform, ProperName n := by decide +kernel
    exact hall n h
  | type h =>
    have hall : ∀ n ∈ sampleOrdinary.resource.typeNames, ProperName n := by
      decide +kernel
    exact hall n h
  | listed k rt hk h =>
    have hall : ∀ n ∈ (sampleReply OC_STACK_OK "power").rep.fileNames, ProperName n := by
      decide +kernel
    exact hall n h

theorem names_proper_of_run_sampleOrdinary : ∃ w : Provider Str,
    discover samplePlatform [sampleOrdinary] = some w ∧ w.trace.length = 6 ∧
      (∀ e ∈ w.trace, ∀ n, e.addedName = some n → ProperName n) ∧
      ∀ q e, w.tree.entry q = some e → ∃! text, Canonical text ∧ resolve text = q := by
  have hrun : ((discover samplePlatform [sampleOrdinary]).any
      fun w => decide (w.trace.length = 6)) = true := by
    rw [discover_eq]
    decide +kernel
  obtain ⟨w, hw, hlen⟩ := (Option.any_eq_true _ _).mp hrun
  refine ⟨w, hw, of_decide_eq_true hlen, ?_⟩
  refine names_proper_of_run samplePlatform [sampleOrdinary] w (.between hw) ?_
  intro pre a v hpre hv hfresh
  have hmem := hpre.subset (List.mem_append_right pre (List.mem_singleton_self a))
  cases List.mem_singleton.mp hmem
  exact sampleOrdinary_wellNamed

/-- A separator within a resource type goes into the name of its folder. -/
theorem names_not_proper_sample : ∃ w : Provider Str,
    discover samplePlatform [sampleAnnouncement "hall/a/light" ["core/light"]
        (sampleReply OC_STACK_OK "power")] = some w ∧
      ∃ e ∈ w.trace, ∃ n, e.addedName = some n ∧ '/' ∈ n ∧ ¬ ProperName n := by
  have hrun : ((discover samplePlatform [sampleAnnouncement "hall/a/light" ["core/light"]
      (sampleReply OC_STACK_OK "power")]).any fun w => w.trace.any fun e =>
        decide (e.addedName = some "core/light".toList)) = true := by
    rw [discover_eq]
    decide +kernel
  obtain ⟨w, hw, htrace⟩ := (Option.any_eq_true _ _).mp hrun
  obtain ⟨e, he, hname⟩ := List.any_eq_true.mp htrace
  exact ⟨w, hw, e, he, _, of_decide_eq_true hname, by decide +kernel, by decide +kernel⟩

end IoTFS.Oic
