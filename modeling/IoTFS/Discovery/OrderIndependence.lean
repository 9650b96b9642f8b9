import IoTFS.Discovery.Refinement
import IoTFS.Discovery.Routing

/-!
# The order of announcements does not matter

When the identifiers stream to distinct texts that are C strings, a run without a failed cast
never puts a file where some resource asks for a folder. The folders found are then those the set of
resources asks for, in whatever order and however often they were announced.
-/

namespace IoTFS

namespace Layout

variable {κ : Type*} {L L' : Layout κ} {wins : Bool} {p q : List κ}

open Oic (EntryClass)

/-- No file is asked for at or above a folder. -/
def Clear (L : Layout κ) : Prop :=
  ∀ f ∈ L.file, ∀ q, q ∈ L.folder ∨ q ∈ L.rtype → ¬ f <+: q

/-- In a clear layout every file finds its place. -/
theorem Clear.fileAt (h : L.Clear) (hq : q ∈ L.file) : L.FileAt wins q :=
  ⟨hq, Or.inr ⟨fun hf => h q hq q (Or.inl hf) List.prefix_rfl,
    fun hr => h q hq q (Or.inr hr) List.prefix_rfl⟩⟩

/-- A safe demand whose type folders are all new keeps the layout clear. -/
theorem Clear.demand (h : L.Clear) (hL : L.Closed) {path : List κ}
    {types : List (κ × List κ)} (hs : L.Safe wins [] path types)
    (hnew : ∀ t ∈ types, path ++ [t.1] ∉ L.rtype) : (L.demand [] path types).Clear := by
  have hpassage (f s : List κ) (hf : f ∈ L.file) (hpre : f <+: s) (hsp : s <+: path) : False := by
    have hne : f ≠ [] := by
      rintro rfl
      exact hL.root.2.2 hf
    exact hs.passage f hne (hpre.trans hsp) (h.fileAt hf)
  have hbelow (t : κ × List κ) (ht : t ∈ types) (n : κ) (q : List κ)
      (hq : q ∈ L.folder ∨ q ∈ L.rtype) (hpre : path ++ [t.1] ++ [n] <+: q) : False := by
    obtain ⟨s, rfl⟩ := hpre
    rw [List.append_assoc _ [n] s] at hq
    rcases hL.folder_above ([n] ++ s) (by simp) hq with he | hf
    · simp at he
    · exact hnew t ht ((hs.types t ht).2 hf)
  intro f hf q hq hpre
  rcases hf with hf | ⟨t, ht, n, -, rfl⟩
  · rcases hq with (hq | ⟨s, -, hsp, rfl⟩) | (hq | ⟨t, ht, rfl⟩)
    · exact h f hf q (Or.inl hq) hpre
    · exact hpassage f q hf hpre hsp
    · exact h f hf q (Or.inr hq) hpre
    · rcases List.prefix_concat_iff.mp hpre with rfl | hpre
      · exact (hs.types t ht).1 (h.fileAt hf)
      · exact hpassage f path hf hpre List.prefix_rfl
  · rcases hq with (hq | ⟨s, -, hsp, rfl⟩) | (hq | ⟨u, -, rfl⟩)
    · exact hbelow t ht n q (Or.inl hq) hpre
    · have hl := (hpre.trans hsp).length_le
      simp only [List.nil_append, List.length_append, List.length_singleton] at hl
      omega
    · exact hbelow t ht n q (Or.inr hq) hpre
    · have hl := hpre.length_le
      simp only [List.nil_append, List.length_append, List.length_singleton] at hl
      omega

/-- A folder asked for in a clear layout is in sight and no file. -/
theorem Clear.visible (h : L.Clear) (hL : L.Closed)
    (hq : q = [] ∨ q ∈ L.folder ∨ q ∈ L.rtype) :
    ¬ L.Hidden wins q ∧ ¬ L.FileAt wins q := by
  have hnone (f : List κ) (hf : f ∈ L.file) (hpre : f <+: q) : False := by
    rcases hq with rfl | hq
    · rw [List.prefix_nil.mp hpre] at hf
      exact hL.root.2.2 hf
    · exact h f hf q hq hpre
  constructor
  · rintro ⟨r, hr, -, hf⟩
    exact hnone r hf.1 hr
  · exact fun hf => hnone q hf.1 List.prefix_rfl

/-- A clear layout shows the folders of any layout that asks for the same ones. -/
theorem Clear.kind_congr (h' : L'.Clear) (hL' : L'.Closed)
    (hfolder : L'.folder = L.folder) (hdevice : L'.device = L.device)
    (hrtype : L'.rtype = L.rtype) {c : EntryClass} (hk : L.kind wins q = some c)
    (hc : c ≠ .OICFile) : L'.kind wins q = some c := by
  obtain ⟨hh, hf⟩ := visible_of_folder hk hc
  have hq : q = [] ∨ q ∈ L.folder ∨ q ∈ L.rtype := by
    by_contra hn
    rw [not_or, not_or] at hn
    simp [kind, hh, hf, hn] at hk
  have hvis : ¬ L'.Hidden wins q ∧ ¬ L'.FileAt wins q :=
    h'.visible hL' (by rwa [hfolder, hrtype])
  rw [← hk]
  exact Layout.kind_congr (iff_of_false hvis.1 hh) (iff_of_false hvis.2 hf) (by rw [hrtype])
    (by rw [hfolder]) fun _ _ => by simp only [Below, hdevice]

end Layout

namespace Oic

variable {ι : Type} {P : Platform ι}

/-- A folder as a listing shows it: its class, and the resource its stub is bound to. -/
def Entry.asFolder : Entry ι → Option (EntryClass × Option (OCResource ι))
  | .ioTFolder => some (.IoTFolder, none)
  | .oicFolder => some (.OICFolder, none)
  | .oicRTFolder stub => some (.OICRTFolder, some stub.resource)
  | .oicFile _ => none

/-- The folders of the tree. -/
def Provider.folders (w : Provider ι) (q : Path) : Option (EntryClass × Option (OCResource ι)) :=
  (w.tree.entry q).bind Entry.asFolder

/-- The demanded types carry the names of the resource's types. -/
theorem exists_mem_types {a : Announcement ι} {q : Path → Prop} {p : Path} :
    (∃ t ∈ a.types, q (p ++ [t.1])) ↔ ∃ rt ∈ a.resource.typeNames, q (p ++ [rt]) := by
  rw [← a.types_fst]
  simp only [List.mem_map, exists_exists_and_eq_and]

/-- The folders demanded depend on the set of resources only. -/
theorem demands_folders_congr {es es' : List (Announcement ι)}
    (h : ∀ r, (∃ e ∈ es, e.resource = r) ↔ ∃ e ∈ es', e.resource = r) :
    (demands P es').folder = (demands P es).folder ∧
      (demands P es').device = (demands P es).device ∧
      (demands P es').rtype = (demands P es).rtype := by
  have hex (q : OCResource ι → Prop) : (∃ e ∈ es', q e.resource) ↔ ∃ e ∈ es, q e.resource := by
    constructor
    · rintro ⟨e, he, hq⟩
      obtain ⟨e', he', hr⟩ := (h e.resource).mpr ⟨e, he, rfl⟩
      exact ⟨e', he', hr ▸ hq⟩
    · rintro ⟨e, he, hq⟩
      obtain ⟨e', he', hr⟩ := (h e.resource).mp ⟨e, he, rfl⟩
      exact ⟨e', he', hr ▸ hq⟩
  refine ⟨?_, ?_, ?_⟩
  · ext q
    exact and_congr_right fun _ => hex fun r => q <+: r.path P
  · ext q
    exact hex fun r => q = r.path P
  · ext q
    simp only [demands, Set.mem_ofPred_eq, exists_mem_types (q := fun p => q = p)]
    exact hex fun r => ∃ rt ∈ r.typeNames, q = r.path P ++ [rt]

/-- Resources of the same path are the same. -/
def PathsDistinct (P : Platform ι) (as : List (Announcement ι)) : Prop :=
  ∀ a ∈ as, ∀ b ∈ as, a.path P = b.path P → a.resource = b.resource

/-- Distinct texts without a NUL have distinct paths. -/
theorem pathsDistinct_of_stream {as : List (Announcement ι)}
    (hdistinct : ∀ a ∈ as, ∀ a' ∈ as,
      P.stream a.resource.uniqueIdentifier = P.stream a'.resource.uniqueIdentifier →
        a.resource = a'.resource)
    (hnul : ∀ a ∈ as, a.resource.NulFree P) : PathsDistinct P as := by
  intro a ha b hb hp
  have ha' : a.path P = pieces (P.stream a.resource.uniqueIdentifier) := (hnul a ha).path_eq
  have hb' : b.path P = pieces (P.stream b.resource.uniqueIdentifier) := (hnul b hb).path_eq
  rw [ha', hb'] at hp
  exact hdistinct a ha b hb (pieces_injective hp)

/-- The same holds of any announcements of these resources. -/
theorem PathsDistinct.congr {as bs : List (Announcement ι)} (h : PathsDistinct P as)
    (hsub : ∀ r, (∃ b ∈ bs, b.resource = r) → ∃ a ∈ as, a.resource = r) :
    PathsDistinct P bs := by
  intro b hb b' hb' hp
  obtain ⟨a, ha, hr⟩ := hsub b.resource ⟨b, hb, rfl⟩
  obtain ⟨a', ha', hr'⟩ := hsub b'.resource ⟨b', hb', rfl⟩
  rw [Announcement.path, Announcement.path, ← hr, ← hr'] at hp
  rw [← hr, ← hr']
  exact h a ha a' ha' hp

/-- Where paths are distinct, the type folders of a new resource have not been asked for. -/
theorem Built.types_fresh {es : List (Announcement ι)} {w : Provider ι} (h : Built P es w)
    {b : Announcement ι} (hnew : ¬ w.Knows b)
    (hdistinct : ∀ e ∈ es, b.path P = e.path P → b.resource = e.resource) :
    ∀ t ∈ b.types, b.path P ++ [t.1] ∉ (demands P es).rtype := by
  rintro t - ⟨e, he, u, -, hpath⟩
  have hp : b.path P = e.path P := List.append_inj_left' hpath rfl
  have hres := hdistinct e he hp
  apply hnew
  rw [h.knows_iff]
  exact List.mem_map.mpr ⟨e, he, by rw [hres]⟩

/-- The announcements a calm run finds new. -/
theorem built_of_exec [DecidableEq ι] {as : List (Announcement ι)}
    (hdistinct : PathsDistinct P as) (bs : List (Announcement ι))
    (hbs : ∀ b ∈ bs, b ∈ as ∧ b.Calm) {es : List (Announcement ι)} (hes : ∀ e ∈ es, e ∈ as)
    {w w' : Provider ι} (h : Built P es w) (hclear : (demands P es).Clear)
    (hrun : Machine.exec (announce P) w bs = some w') :
    ∃ es', Built P es' w' ∧ (demands P es').Clear ∧ (∀ e ∈ es', e ∈ as) ∧
      (∀ e ∈ es, e ∈ es') ∧ ∀ b ∈ bs, Announced es' b := by
  induction bs generalizing es w with
  | nil =>
    cases hrun
    exact ⟨es, h, hclear, hes, fun _ he => he, fun b hb => by cases hb⟩
  | cons b bs ih =>
    obtain ⟨v, hv, hrest⟩ := Option.bind_eq_some_iff.mp hrun
    obtain ⟨hb, hcalm⟩ := hbs b (List.mem_cons_self ..)
    have htail : ∀ c ∈ bs, c ∈ as ∧ c.Calm := fun c hc => hbs c (List.mem_cons_of_mem _ hc)
    by_cases hk : w.Knows b
    · rw [announce_known hk] at hv
      cases hv
      obtain ⟨es', hw', hclear', hsub, hkeep, hann⟩ := ih htail hes h hclear hrest
      refine ⟨es', hw', hclear', hsub, hkeep, fun c hc => ?_⟩
      rcases List.mem_cons.mp hc with rfl | hc
      · obtain ⟨e, he, hid⟩ := List.mem_map.mp ((h.knows_iff c).mp hk)
        exact List.mem_map.mpr ⟨e, hkeep e he, hid⟩
      · exact hann c hc
    · obtain ⟨hs, hbuilt⟩ := h.of_announce hcalm hk hv
      have hfresh := h.types_fresh hk fun e he => hdistinct b hb e (hes e he)
      have hclear' := hclear.demand h.closed hs hfresh
      rw [← demands_concat] at hclear'
      have hes' : ∀ e ∈ es ++ [b], e ∈ as := by
        intro e he
        rcases List.mem_append.mp he with he | he
        · exact hes e he
        · rw [List.mem_singleton.mp he]
          exact hb
      obtain ⟨es', hw', hc', hsub, hkeep, hann⟩ := ih htail hes' hbuilt hclear' hrest
      refine ⟨es', hw', hc', hsub, fun e he => hkeep e (List.mem_append_left _ he), ?_⟩
      intro c hc
      rcases List.mem_cons.mp hc with rfl | hc
      · have hmem := hkeep c (List.mem_append_right _ (List.mem_singleton_self _))
        exact List.mem_map.mpr ⟨c, hmem, rfl⟩
      · exact hann c hc

/-- The announcements found new cover the resources announced. -/
theorem built_of_discover [DecidableEq ι] {as : List (Announcement ι)}
    (hdistinct : PathsDistinct P as) (hcalm : ∀ a ∈ as, a.Calm) {w : Provider ι}
    (hrun : discover P as = some w) :
    ∃ es, Built P es w ∧ (demands P es).Clear ∧
      ∀ r, (∃ e ∈ es, e.resource = r) ↔ ∃ a ∈ as, a.resource = r := by
  have hclear : (demands P ([] : List (Announcement ι))).Clear := by
    rw [demands_nil]
    intro f hf
    cases hf
  obtain ⟨es, hbuilt, hc, hsub, -, hann⟩ := built_of_exec hdistinct as
    (fun a ha => ⟨ha, hcalm a ha⟩) (fun e he => by cases he) (built_initial P) hclear hrun
  refine ⟨es, hbuilt, hc, fun r => ⟨?_, ?_⟩⟩
  · rintro ⟨e, he, hr⟩
    exact ⟨e, hsub e he, hr⟩
  · rintro ⟨a, ha, rfl⟩
    obtain ⟨e, he, hid⟩ := List.mem_map.mp (hann a ha)
    refine ⟨e, he, hdistinct e (hsub e he) a ha ?_⟩
    rw [Announcement.path, hid, Announcement.path]

/-- A folder built by one run is built by another over the same resources. -/
theorem Built.folders_transfer {as bs es es' : List (Announcement ι)} {w w' : Provider ι}
    (hdistinct : PathsDistinct P as)
    (hsame : ∀ r, (∃ b ∈ bs, b.resource = r) → ∃ a ∈ as, a.resource = r)
    (hcover : ∀ r, (∃ e ∈ es, e.resource = r) ↔ ∃ e ∈ es', e.resource = r)
    (h : Built P es w) (h' : Built P es' w') (hclear : (demands P es').Clear)
    (hr : Routed P as w) (hr' : Routed P bs w') {q : Path}
    {v : EntryClass × Option (OCResource ι)} (hv : w.folders q = some v) :
    w'.folders q = some v := by
  obtain ⟨e, he, hev⟩ := Option.bind_eq_some_iff.mp hv
  have hfile : e.cls ≠ .OICFile := by
    cases e with
    | oicFile f => cases hev
    | ioTFolder | oicFolder | oicRTFolder stub => simp [Entry.cls]
  obtain ⟨hfolder, hdevice, hrtype⟩ := demands_folders_congr (P := P) hcover
  have hk := hclear.kind_congr h'.closed hfolder hdevice hrtype
    (h.shows_demands.kind_of_entry he) hfile
  rw [← h'.shows_demands q] at hk
  obtain ⟨e', he', hcls⟩ := Option.map_eq_some_iff.mp hk
  rw [Provider.folders, he', Option.bind_some, ← hev]
  cases e with
  | oicFile f => cases hev
  | ioTFolder | oicFolder =>
    cases e' <;> first | rfl | cases hcls
  | oicRTFolder stub =>
    cases e' with
    | ioTFolder | oicFolder | oicFile f => cases hcls
    | oicRTFolder stub' =>
      obtain ⟨hrec, rt, -, hpath⟩ := hr.typeFolder q stub he
      obtain ⟨hrec', rt', -, hpath'⟩ := hr'.typeFolder q stub' he'
      obtain ⟨a, ha, hres⟩ := hr.announced _ _ hrec
      obtain ⟨a', ha', hres'⟩ := hsame _ (hr'.announced _ _ hrec')
      have hp : stub.resource.path P = stub'.resource.path P :=
        List.append_inj_left' (hpath.symm.trans hpath') rfl
      rw [← hres, ← hres'] at hp
      have hsame' := hdistinct a ha a' ha' hp
      rw [hres, hres'] at hsame'
      rw [Entry.asFolder, Entry.asFolder, hsame']

/-- Two calm runs over the same resources, whose identifiers stream to distinct C strings, end
in the same folders if both survive. -/
theorem folders_eq_of_same_resources [DecidableEq ι] (P : Platform ι)
    (as bs : List (Announcement ι))
    (hsame : ∀ r, (∃ a ∈ as, a.resource = r) ↔ ∃ b ∈ bs, b.resource = r)
    (hdistinct : ∀ a ∈ as, ∀ a' ∈ as,
      P.stream a.resource.uniqueIdentifier = P.stream a'.resource.uniqueIdentifier →
        a.resource = a'.resource)
    (hnul : ∀ a ∈ as, a.resource.NulFree P)
    (hcalm : ∀ a ∈ as, a.Calm) (hcalm' : ∀ b ∈ bs, b.Calm) (w w' : Provider ι)
    (hrun : discover P as = some w) (hrun' : discover P bs = some w') :
    w.folders = w'.folders := by
  have hpaths := pathsDistinct_of_stream hdistinct hnul
  have hpaths' : PathsDistinct P bs := hpaths.congr fun r => (hsame r).mpr
  obtain ⟨es, hb, hc, hcover⟩ := built_of_discover hpaths hcalm hrun
  obtain ⟨es', hb', hc', hcover'⟩ := built_of_discover hpaths' hcalm' hrun'
  have hes (r : OCResource ι) : (∃ e ∈ es, e.resource = r) ↔ ∃ e ∈ es', e.resource = r := by
    rw [hcover, hcover', hsame]
  have hr := routed_of_discover hrun
  have hr' := routed_of_discover hrun'
  ext q v
  constructor
  · exact hb.folders_transfer hpaths (fun r => (hsame r).mpr) hes hb' hc' hr hr'
  · exact hb'.folders_transfer hpaths' (fun r => (hsame r).mp) (fun r => (hes r).symm) hb hc
      hr' hr

/-- Two lamps announced once, and announced in the other order with one of them twice. -/
theorem folders_eq_of_same_resources_sampleLamps : ∃ w w' : Provider Str,
    discover samplePlatform sampleLamps = some w ∧
      discover samplePlatform (sampleLamps.reverse ++ sampleLamps) = some w' ∧
        w.folders = w'.folders := by
  have hrun : (discover samplePlatform sampleLamps).isSome = true := by
    rw [discover_eq]
    decide +kernel
  have hrun' : (discover samplePlatform (sampleLamps.reverse ++ sampleLamps)).isSome = true := by
    rw [discover_eq]
    decide +kernel
  obtain ⟨w, hw⟩ := Option.isSome_iff_exists.mp hrun
  obtain ⟨w', hw'⟩ := Option.isSome_iff_exists.mp hrun'
  have hmem (a : Announcement Str) : a ∈ sampleLamps.reverse ++ sampleLamps ↔ a ∈ sampleLamps := by
    rw [List.mem_append, List.mem_reverse, or_self]
  refine ⟨w, w', hw, hw', folders_eq_of_same_resources samplePlatform _ _ (fun r => ?_) ?_
    (fun a ha => (sampleLamps_nulFree a ha).identifier) sampleLamps_calm
    (fun b hb => sampleLamps_calm b ((hmem b).mp hb)) w w' hw hw'⟩
  · simp only [hmem]
  · intro a ha a' ha' hs
    simp only [sampleLamps, List.mem_cons, List.not_mem_nil, or_false] at ha ha'
    rcases ha with rfl | rfl <;> rcases ha' with rfl | rfl
    · rfl
    · exact absurd hs (by decide +kernel)
    · exact absurd hs (by decide +kernel)
    · rfl

end Oic

end IoTFS
