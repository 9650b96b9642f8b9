import IoTFS.Oic.Moves

/-!
# Every folder and file belongs to the resource that created it

The invariant ties each resource-type folder to a recorded resource whose path and type
it is found under, and each file to the resource-type folder it lies in and to an announcement
that led there: the file shares the folder's stub and was made, while the announcement was
handled, from an item of a reply received through it. Identifiers keep their folders apart as
long as they stream to distinct texts that are C strings, as the texts of the stack are.
-/

namespace IoTFS.Oic

variable {ι : Type} {P : Platform ι}

/-- The file at the path was made while `a` was handled, from an item of a reply received
through the stub of the type folder it lies in. -/
inductive MadeFor (P : Platform ι) (a : Announcement ι) (w : Provider ι) :
    Path → OICFile ι → Prop
  | mk (k : Nat) (rt : Str) (stub : OICStub ι) (i : Nat) (item : Str × AttributeValue) :
      a.resource.typeNames[k]? = some rt →
      w.tree.entry (a.path P ++ [rt]) = some (.oicRTFolder stub) →
      .answered stub (a.replies k) ∈ w.trace → item ∈ (a.replies k).rep.items →
      MadeFor P a w (a.path P ++ [rt] ++ [cStr item.1]) (newFile P stub (a.memory i) item)

/-- The provider of a run over the announcements `as`. -/
structure Routed (P : Platform ι) (as : List (Announcement ι)) (w : Provider ι) : Prop where
  /-- Resources are recorded under their own identifier. -/
  keyed : ∀ id r, (id, r) ∈ w.resources → r.uniqueIdentifier = id
  /-- An identifier is recorded once. -/
  unique : (w.resources.map Prod.fst).Nodup
  /-- Every recorded resource was announced. -/
  announced : ∀ id r, (id, r) ∈ w.resources → ∃ a ∈ as, a.resource = r
  /-- A resource-type folder lies below the path of the resource its stub is bound to. -/
  typeFolder : ∀ q stub, w.tree.entry q = some (.oicRTFolder stub) →
    (stub.resource.uniqueIdentifier, stub.resource) ∈ w.resources ∧
      ∃ rt ∈ stub.resource.typeNames, q = stub.resource.path P ++ [rt]
  /-- A file was made for an announcement of a recorded resource. -/
  file : ∀ q f, w.tree.entry q = some (.oicFile f) → ∃ a ∈ as,
    (a.resource.uniqueIdentifier, a.resource) ∈ w.resources ∧ MadeFor P a w q f
  /-- Stub addresses were handed out. -/
  allocated : ∀ q stub, w.tree.entry q = some (.oicRTFolder stub) → stub.handle < w.nextStub
  /-- No two folders share a stub. -/
  apart : ∀ q q' stub stub', w.tree.entry q = some (.oicRTFolder stub) →
    w.tree.entry q' = some (.oicRTFolder stub') → stub.handle = stub'.handle → q = q'

/-- Nothing is found in the empty tree but its root. -/
theorem routed_initial (as : List (Announcement ι)) : Routed P as Provider.initial := by
  have hempty (q : Path) (e : Entry ι)
      (h : (Provider.initial : Provider ι).tree.entry q = some e) : e = .ioTFolder := by
    rw [Provider.entry_initial] at h
    split at h
    · exact (Option.some.inj h).symm
    · cases h
  constructor
  · intro id r h
    cases h
  · exact List.nodup_nil
  · intro id r h
    cases h
  · intro q stub h
    cases hempty _ _ h
  · intro q f h
    cases hempty _ _ h
  · intro q stub h
    cases hempty _ _ h
  · intro q q' stub stub' h
    cases hempty _ _ h

/-- Recording a new announced identifier keeps the routing. -/
theorem Routed.record {as : List (Announcement ι)} {w : Provider ι} (h : Routed P as w)
    {a : Announcement ι} (ha : a ∈ as) (hnew : ¬ w.Knows a) : Routed P as (w.record a) := by
  have hmem (id : ι) (r : OCResource ι) (hr : (id, r) ∈ (w.record a).resources) :
      (id, r) ∈ w.resources ∨ (id = a.resource.uniqueIdentifier ∧ r = a.resource) := by
    simpa [Provider.record] using hr
  constructor
  · intro id r hr
    rcases hmem id r hr with hr | ⟨rfl, rfl⟩
    · exact h.keyed id r hr
    · rfl
  · simp only [Provider.record, List.map_append, List.map_cons, List.map_nil]
    rw [List.nodup_append]
    refine ⟨h.unique, by simp, ?_⟩
    rintro id hid _ hs rfl
    rw [List.mem_singleton] at hs
    rw [hs] at hid
    exact hnew hid
  · intro id r hr
    rcases hmem id r hr with hr | ⟨rfl, rfl⟩
    · exact h.announced id r hr
    · exact ⟨a, ha, rfl⟩
  · intro q stub hq
    obtain ⟨hr, hpath⟩ := h.typeFolder q stub hq
    exact ⟨List.mem_append_left _ hr, hpath⟩
  · intro q f hq
    obtain ⟨b, hb, hrb, hmade⟩ := h.file q f hq
    refine ⟨b, hb, List.mem_append_left _ hrb, ?_⟩
    cases hmade with
    | mk k rt stub i item hk hrt hans hmem => exact .mk k rt stub i item hk hrt hans hmem
  · exact h.allocated
  · exact h.apart

/-- Each move made for a recorded resource keeps the routing. -/
theorem Routed.move {as : List (Announcement ι)} {a : Announcement ι} {w w' : Provider ι}
    (h : Routed P as w) (ha : a ∈ as)
    (hrec : (a.resource.uniqueIdentifier, a.resource) ∈ w.resources)
    (hm : Move P a w w') : Routed P as w' := by
  have hres := hm.resources_eq
  have hnext := hm.nextStub_le
  obtain ⟨new, hcases⟩ := hm.entry_cases
  constructor
  · rw [hres]
    exact h.keyed
  · rw [hres]
    exact h.unique
  · rw [hres]
    exact h.announced
  · intro q stub hq
    rw [hres]
    rcases hcases q _ hq with ⟨-, hadd⟩ | ⟨hold, -⟩
    · cases hadd with
      | typeFolder rt hrt hpath _ => exact ⟨hrec, rt, hrt, hpath⟩
    · exact h.typeFolder q stub hold
  · intro q f hq
    rw [hres]
    rcases hcases q _ hq with ⟨-, hadd⟩ | ⟨hold, habove⟩
    · refine ⟨a, ha, hrec, ?_⟩
      cases hadd with
      | file k rt stub i item hk hpath hrt hans hmem =>
        rw [hpath]
        exact .mk k rt stub i item hk hrt (hm.mem_trace hans) hmem
    · obtain ⟨b, hb, hrb, hmade⟩ := h.file q f hold
      refine ⟨b, hb, hrb, ?_⟩
      cases hmade with
      | mk k rt stub i item hk hrt hans hmem =>
        refine .mk k rt stub i item hk ?_ (hm.mem_trace hans) hmem
        rw [habove _ (List.prefix_append _ _), hrt]
  · intro q stub hq
    rcases hcases q _ hq with ⟨-, hadd⟩ | ⟨hold, -⟩
    · cases hadd with
      | typeFolder rt hrt hpath hfresh =>
        rw [hfresh]
        exact Nat.lt_succ_self _
    · exact (h.allocated q stub hold).trans_le hnext
  · intro q q' stub stub' hq hq' he
    have hnew (q₀ : Path) (stub₀ : OICStub ι)
        (hadd : Added P a w w' q₀ (.oicRTFolder stub₀)) : stub₀.handle = w.nextStub := by
      cases hadd
      rfl
    rcases hcases q _ hq with ⟨hn, hadd⟩ | ⟨hold, -⟩
    · rcases hcases q' _ hq' with ⟨hn', -⟩ | ⟨hold', -⟩
      · exact hn.trans hn'.symm
      · have hlt := h.allocated q' stub' hold'
        rw [← he, hnew q stub hadd] at hlt
        exact absurd hlt (lt_irrefl _)
    · rcases hcases q' _ hq' with ⟨-, hadd'⟩ | ⟨hold', -⟩
      · have hlt := h.allocated q stub hold
        rw [he, hnew q' stub' hadd'] at hlt
        exact absurd hlt (lt_irrefl _)
      · exact h.apart q q' stub stub' hold hold' he

/-- Any number of moves made for a recorded resource keep the routing. -/
theorem Routed.moves {as : List (Announcement ι)} {a : Announcement ι} {w w' : Provider ι}
    (h : Routed P as w) (ha : a ∈ as)
    (hrec : (a.resource.uniqueIdentifier, a.resource) ∈ w.resources)
    (hm : Relation.ReflTransGen (Move P a) w w') : Routed P as w' := by
  induction hm with
  | refl => exact h
  | tail hbefore hstep ih => exact ih.move ha (resources_of_moves hbefore ▸ hrec) hstep

/-- The routing holds along every run of announcements. -/
theorem routed_of_exec [DecidableEq ι] {as : List (Announcement ι)} (bs : List (Announcement ι))
    (hbs : ∀ b ∈ bs, b ∈ as) {w w' : Provider ι} (h : Routed P as w)
    (hrun : Machine.exec (announce P) w bs = some w') : Routed P as w' := by
  induction bs generalizing w with
  | nil =>
    cases hrun
    exact h
  | cons b bs ih =>
    obtain ⟨v, hv, hrest⟩ := Option.bind_eq_some_iff.mp hrun
    refine ih (fun c hc => hbs c (List.mem_cons_of_mem _ hc)) ?_ hrest
    rcases announce_cases hv with ⟨-, rfl⟩ | ⟨hnew, hm⟩
    · exact h
    · have hb := hbs b (List.mem_cons_self ..)
      have hrec := h.record hb hnew
      exact hrec.moves hb (List.mem_append_right _ (List.mem_singleton_self _)) hm

/-- Every provider a run ends in is routed. -/
theorem routed_of_discover [DecidableEq ι] {as : List (Announcement ι)} {w : Provider ι}
    (h : discover P as = some w) : Routed P as w :=
  routed_of_exec as (fun _ hb => hb) (routed_initial as) h

/-- The providers met along a run: after each announcement, and at every move made while
the last one is handled, whether or not the daemon survives it. -/
inductive Visited [DecidableEq ι] (P : Platform ι) : List (Announcement ι) → Provider ι → Prop
  | between {as : List (Announcement ι)} {w : Provider ι} : discover P as = some w →
      Visited P as w
  | during {as : List (Announcement ι)} {a : Announcement ι} {v w : Provider ι} :
      discover P as = some v → ¬ v.Knows a →
      Relation.ReflTransGen (Move P a) (v.record a) w → Visited P (as ++ [a]) w

/-- Every provider met along a run is routed. -/
theorem Visited.routed [DecidableEq ι] {as : List (Announcement ι)} {w : Provider ι}
    (h : Visited P as w) : Routed P as w := by
  cases h with
  | between hd => exact routed_of_discover hd
  | @during as a v w hd hnew hm =>
    have hv : Routed P (as ++ [a]) v :=
      routed_of_exec as (fun _ hb => List.mem_append_left _ hb) (routed_initial _) hd
    have ha := List.mem_append_right as (List.mem_singleton_self a)
    have hrec := hv.record ha hnew
    exact hrec.moves ha (List.mem_append_right _ (List.mem_singleton_self _)) hm

/-- A recorded identifier names one resource. -/
theorem Routed.resource_unique {as : List (Announcement ι)} {w : Provider ι}
    (h : Routed P as w) {id : ι} {r r' : OCResource ι} (hr : (id, r) ∈ w.resources)
    (hr' : (id, r') ∈ w.resources) : r = r' := by
  have hinj := List.inj_on_of_nodup_map h.unique hr hr' rfl
  exact congrArg Prod.snd hinj

/-- The texts an announcement brings are C strings. -/
structure Announcement.NulFree (P : Platform ι) (a : Announcement ι) : Prop where
  identifier : a.resource.NulFree P
  types : ∀ rt ∈ a.resource.getResourceTypes, nul ∉ rt
  attributes : ∀ (k : Nat), ∀ n ∈ (a.replies k).rep.names, nul ∉ n

/-- Every file sits below a type of an announced and recorded resource, uses the stub of its
folder, which is bound to that resource, was named in a reply to that stub, and got its
permissions from the interfaces of that resource, in a word found when it was announced. -/
def FilesRouted (P : Platform ι) (as : List (Announcement ι)) (w : Provider ι) : Prop :=
  ∀ q f, w.tree.entry q = some (.oicFile f) →
    ∃ a ∈ as, (a.resource.uniqueIdentifier, a.resource) ∈ w.resources ∧
      ∃ (k : Nat) (rt attr : Str), a.resource.getResourceTypes[k]? = some rt ∧
        q = pieces (P.stream a.resource.uniqueIdentifier) ++ [rt, attr] ∧
        (∃ stub, w.tree.entry (pieces (P.stream a.resource.uniqueIdentifier) ++ [rt]) =
            some (.oicRTFolder stub) ∧ f.stub = some stub ∧ stub.resource = a.resource ∧
          .answered stub (a.replies k) ∈ w.trace ∧ attr ∈ (a.replies k).rep.names) ∧
        ∃ i, f.allowedOperation =
          setAllowedOperation P.interfaces (a.memory i) a.resource.getResourceInterfaces

/-- What is found below the paths of two resources with different identifiers is bound
to each of them and shares neither path nor stub. -/
def Unshared (P : Platform ι) (w : Provider ι) : Prop :=
  ∀ id id' r r', (id, r) ∈ w.resources → (id', r') ∈ w.resources → id ≠ id' →
    ∀ rt rt' stub stub',
      w.tree.entry (r.path P ++ [rt]) = some (.oicRTFolder stub) →
      w.tree.entry (r'.path P ++ [rt']) = some (.oicRTFolder stub') →
      stub.resource = r ∧ stub'.resource = r' ∧
        r.path P ++ [rt] ≠ r'.path P ++ [rt'] ∧ stub.handle ≠ stub'.handle ∧
        ∀ attr attr' f f', w.tree.entry (r.path P ++ [rt, attr]) = some (.oicFile f) →
          w.tree.entry (r'.path P ++ [rt', attr']) = some (.oicFile f') →
          r.path P ++ [rt, attr] ≠ r'.path P ++ [rt', attr'] ∧
            f.stub = some stub ∧ f'.stub = some stub'

section NulFree

variable {as : List (Announcement ι)} {w : Provider ι} (h : Routed P as w)
  (hinj : Function.Injective P.stream) (hnul : ∀ a ∈ as, a.NulFree P)
include h hinj hnul

/-- Recorded resources have different paths. -/
theorem Routed.path_injective {id id' : ι} {r r' : OCResource ι} (hr : (id, r) ∈ w.resources)
    (hr' : (id', r') ∈ w.resources) (hp : r.path P = r'.path P) : id = id' := by
  obtain ⟨a, ha, rfl⟩ := h.announced id r hr
  obtain ⟨a', ha', rfl⟩ := h.announced id' r' hr'
  rw [← h.keyed id _ hr, ← h.keyed id' _ hr']
  exact OCResource.path_injective hinj (hnul a ha).identifier (hnul a' ha').identifier hp

/-- A resource-type folder found below a recorded resource's path is bound to it. -/
theorem Routed.bound {id : ι} {r : OCResource ι} (hr : (id, r) ∈ w.resources) {rt : Str}
    {stub : OICStub ι} (hq : w.tree.entry (r.path P ++ [rt]) = some (.oicRTFolder stub)) :
    stub.resource = r := by
  obtain ⟨hrec, rt', -, hpath⟩ := h.typeFolder _ _ hq
  have hp : r.path P = stub.resource.path P := List.append_inj_left' hpath rfl
  rw [h.path_injective hinj hnul hr hrec hp] at hr
  exact h.resource_unique hrec hr

/-- The files of a routed provider are routed. -/
theorem Routed.filesRouted : FilesRouted P as w := by
  intro q f hq
  obtain ⟨a, ha, hrec, hmade⟩ := h.file q f hq
  have hfree := hnul a ha
  have hpath : a.path P = pieces (P.stream a.resource.uniqueIdentifier) :=
    hfree.identifier.path_eq
  cases hmade with
  | mk k rt stub i item hk hrt hans hmem =>
    have hbound := h.bound hinj hnul hrec hrt
    have hname : item.1 ∈ (a.replies k).rep.names := List.mem_map_of_mem hmem
    obtain ⟨type, htype, rfl⟩ := Option.map_eq_some_iff.mp (List.getElem?_map.symm.trans hk)
    rw [cStr_eq_self (hfree.types type (List.mem_of_getElem? htype)), hpath] at hrt ⊢
    rw [cStr_eq_self (hfree.attributes k item.1 hname)]
    refine ⟨a, ha, hrec, k, type, item.1, htype, ?_, ⟨stub, hrt, rfl, hbound, hans, hname⟩, i, ?_⟩
    · rw [List.append_assoc, List.singleton_append]
    · rw [← hbound]
      rfl

end NulFree

/-- A file below a resource-type folder uses the stub of that folder. -/
theorem Routed.file_stub {as : List (Announcement ι)} {w : Provider ι} (h : Routed P as w)
    {p : Path} {attr : Str} {stub : OICStub ι} {f : OICFile ι}
    (hp : w.tree.entry p = some (.oicRTFolder stub))
    (hf : w.tree.entry (p ++ [attr]) = some (.oicFile f)) : f.stub = some stub := by
  obtain ⟨a, -, -, hmade⟩ := h.file _ _ hf
  generalize hq : p ++ [attr] = q at hmade
  cases hmade with
  | mk k rt stub' i item hk hrt =>
    obtain rfl := List.append_inj_left' hq rfl
    rw [hp] at hrt
    cases hrt
    rfl

/-- Distinct identifiers keep everything apart. -/
theorem Routed.unshared {as : List (Announcement ι)} {w : Provider ι} (h : Routed P as w)
    (hinj : Function.Injective P.stream) (hnul : ∀ a ∈ as, a.NulFree P) : Unshared P w := by
  intro id id' r r' hr hr' hne rt rt' stub stub' hq hq'
  have hb := h.bound hinj hnul hr hq
  have hb' := h.bound hinj hnul hr' hq'
  have hpaths : r.path P ≠ r'.path P := fun he => hne (h.path_injective hinj hnul hr hr' he)
  refine ⟨hb, hb', fun he => hpaths (List.append_inj_left' he rfl), fun he => ?_, ?_⟩
  · exact hpaths (List.append_inj_left' (h.apart _ _ _ _ hq hq' he) rfl)
  · intro attr attr' f f' hf hf'
    refine ⟨fun he => hpaths (List.append_inj_left' he rfl), ?_, ?_⟩
    · exact h.file_stub hq (by simpa using hf)
    · exact h.file_stub hq' (by simpa using hf')

/-- In every tree met along a run, every file is routed to the resource announced under
its path, and resources with different identifiers share nothing. -/
theorem visited_routing [DecidableEq ι] (P : Platform ι) (hinj : Function.Injective P.stream)
    (as : List (Announcement ι)) (hnul : ∀ a ∈ as, a.NulFree P) (w : Provider ι)
    (h : Visited P as w) : FilesRouted P as w ∧ Unshared P w :=
  ⟨h.routed.filesRouted hinj hnul, h.routed.unshared hinj hnul⟩

/-- Two lamps announced one after the other, each with one attribute. -/
def sampleLamps : List (Announcement Str) :=
  [sampleAnnouncement "hall/a/light" ["core.light"] (sampleReply OC_STACK_OK "power"),
    sampleAnnouncement "attic/a/light" ["core.light"] (sampleReply OC_STACK_OK "power")]

theorem sampleLamps_calm : ∀ a ∈ sampleLamps, a.Calm := by
  intro a ha
  simp only [sampleLamps, List.mem_cons, List.not_mem_nil, or_false] at ha
  rcases ha with rfl | rfl <;> exact sampleAnnouncement_calm _ _ _

/-- The names of the samples are C strings. -/
theorem sampleAnnouncement_nulFree {id : String} {types : List String} {eCode : Int}
    {name : String} (hid : nul ∉ id.toList) (htypes : ∀ rt ∈ types.map String.toList, nul ∉ rt)
    (hname : nul ∉ name.toList) :
    (sampleAnnouncement id types (sampleReply eCode name)).NulFree samplePlatform := by
  refine ⟨hid, htypes, fun _ n hn => ?_⟩
  cases List.mem_singleton.mp hn
  exact hname

theorem sampleLamps_nulFree : ∀ a ∈ sampleLamps, a.NulFree samplePlatform := by
  intro a ha
  simp only [sampleLamps, List.mem_cons, List.not_mem_nil, or_false] at ha
  rcases ha with rfl | rfl <;>
    exact sampleAnnouncement_nulFree (by decide +kernel) (by decide +kernel) (by decide +kernel)

theorem visited_routing_sampleLamps : ∃ w : Provider Str,
    (w.tree.entry (pieces "attic/a/light/core.light/power".toList)).isSome = true ∧
      FilesRouted samplePlatform sampleLamps w ∧ Unshared samplePlatform w := by
  have hrun : ((discover samplePlatform sampleLamps).any fun w =>
      (w.tree.entry (pieces "attic/a/light/core.light/power".toList)).isSome) = true := by
    rw [discover_eq]
    decide +kernel
  cases hw : discover samplePlatform sampleLamps with
  | none =>
    rw [hw] at hrun
    cases hrun
  | some w =>
    rw [hw] at hrun
    exact ⟨w, hrun, visited_routing samplePlatform (fun _ _ h => h) sampleLamps
      sampleLamps_nulFree w (.between hw)⟩

end IoTFS.Oic
