import IoTFS.Core.Machine
import IoTFS.Discovery.Frame
import IoTFS.Discovery.Refinement

/-!
# Recorded resources are complete

An identifier is recorded before its folders are built, and neither an exception nor the
error code of a reply undoes it. Recorded resources are therefore complete in the runs in
which neither occurs while a new resource is handled; a reply with an error code leaves a
recorded resource whose files were made from it.
-/

namespace IoTFS.Oic

open Exec

variable {ι : Type} {P : Platform ι} {a : Announcement ι} {w w' : Provider ι}

/-- The type folder `rt` holds a file for each item of the reply with index `k`, which its
stub received. -/
def Filled (P : Platform ι) (a : Announcement ι) (k : Nat) (rt : Str) (w : Provider ι) : Prop :=
  ∃ stub, Receiving P a k rt stub w ∧
    ∀ item ∈ (a.replies k).rep.items, HoldsFile w (a.path P ++ [rt]) (cStr item.1)

theorem Receiving.keep {k : Nat} {rt : Str} {stub : OICStub ι}
    (h : Receiving P a k rt stub w) (hk : Keeps w w') : Receiving P a k rt stub w' :=
  ⟨hk.folder _ _ h.1 rfl, hk.trace _ h.2⟩

theorem Filled.keep {k : Nat} {rt : Str} (h : Filled P a k rt w) (hk : Keeps w w') :
    Filled P a k rt w' := by
  obtain ⟨stub, hrec, hitems⟩ := h
  exact ⟨stub, hrec.keep hk, fun item hi => hk.file _ _ (hitems item hi)⟩

/-- Adding a file to a resource-type folder with nothing in its way leaves a file. -/
theorem Ready.stored_file {k : Nat} {rt : Str} {stub : OICStub ι} {v : Provider ι}
    {item : Str × AttributeValue} {e : Entry ι} (h : Ready P a w) (h' : FilesBound v)
    (hk : a.resource.typeNames[k]? = some rt) (hitem : item ∈ (a.replies k).rep.items)
    (hrt : w.tree.entry (a.path P ++ [rt]) = some (.oicRTFolder stub)) (he : e.isDir = false)
    (hv : v.tree = stored P w.tree (a.path P ++ [rt]) (cStr item.1) e) :
    HoldsFile v (a.path P ++ [rt]) (cStr item.1) := by
  have hd := isDir_of_typeFolder hrt
  refine h'.holdsFile ?_ fun hfolder => ?_
  · rw [hv]
    exact entry_stored_self hd
  · obtain ⟨x, hx, hdir⟩ := folderAt_iff.mp hfolder
    rw [hv] at hx
    rcases entry_stored_cases hd hx with ⟨-, rfl⟩ | ⟨hold, -⟩
    · rw [he] at hdir
      cases hdir
    · exact h.vacant k rt hk item hitem (folderAt_iff.mpr ⟨x, hold, hdir⟩)

/-- Adding the items of a received reply leaves a file for each. -/
theorem addItems_fills {k : Nat} {rt : Str} {stub : OICStub ι}
    (hk : a.resource.typeNames[k]? = some rt) (items : List (Str × AttributeValue))
    (hitems : ∀ it ∈ items, it ∈ (a.replies k).rep.items) (hrec : Receiving P a k rt stub w)
    (hready : Ready P a w)
    (h : addItems P a (a.path P ++ [rt]) stub (a.replies k) items w = .ok () w') :
    ∀ item ∈ items, HoldsFile w' (a.path P ++ [rt]) (cStr item.1) := by
  induction items generalizing w with
  | nil => exact fun item hi => by cases hi
  | cons item items ih =>
    have hitem := hitems item (List.mem_cons_self ..)
    have htail : ∀ it ∈ items, it ∈ (a.replies k).rep.items :=
      fun it hit => hitems it (List.mem_cons_of_mem _ hit)
    rw [addItems, bind_ok (get_apply w)] at h
    obtain ⟨_, u, hadd, hrest⟩ := bind_eq_ok h
    rw [addFile_apply] at hadd
    split at hadd
    · cases hadd
    · obtain ⟨-, rfl⟩ := hadd
      obtain ⟨hrt, hans⟩ := hrec
      have hmove := Move.file w (w.calls + 1) k rt stub w.calls item hk hrt hans hitem
      have hready' := hready.move hmove
      have hrec' := Receiving.keep ⟨hrt, hans⟩ (hmove.keeps hready.vacant)
      intro it hit
      rcases List.mem_cons.mp hit with rfl | hit
      · obtain ⟨hkeep, -⟩ := hready'.traverses (traverses_addItems hk items htail) hrec' hrest
        exact hkeep.file _ _ (hready.stored_file hready'.bound hk hitem hrt rfl rfl)
      · exact ih htail hrec' hready' hrest it hit

/-- Asking the device fills the type folder. -/
theorem getState_fills {k : Nat} {rt : Str} {stub : OICStub ι}
    (hk : a.resource.typeNames[k]? = some rt)
    (hrt : w.tree.entry (a.path P ++ [rt]) = some (.oicRTFolder stub)) (hready : Ready P a w)
    (h : OICRTFolder.getState P a (a.path P ++ [rt]) stub (a.replies k) w = .ok () w') :
    Filled P a k rt w' := by
  obtain ⟨_, u, hcall, h⟩ := bind_eq_ok h
  obtain ⟨_, v, hnote, h⟩ := bind_eq_ok h
  unfold call at hcall
  split at hcall
  · cases hcall
  · obtain ⟨-, rfl⟩ := hcall
    obtain ⟨-, rfl⟩ := hnote
    have hrec : Receiving P a k rt stub { w with
        calls := w.calls + 1, trace := w.trace ++ [.answered stub (a.replies k)] } :=
      ⟨hrt, List.mem_append_right _ (List.mem_singleton_self _)⟩
    have hready' := hready.move (Move.answered w (w.calls + 1) k rt stub hk hrt)
    obtain ⟨-, -, hrec'⟩ :=
      hready'.traverses (traverses_addItems hk _ fun _ h => h) hrec h
    exact ⟨stub, hrec', addItems_fills hk _ (fun _ h => h) hrec hready' h⟩

/-- The loop over the types fills the folder of each. -/
theorem typeFolders_fills (k : Nat) (rts : List Str)
    (hrts : a.resource.typeNames.drop k = rts) (hd : FolderAt w (a.path P))
    (hready : Ready P a w) (h : typeFolders P a (a.path P) k rts w = .ok () w') :
    ∀ j rt, k ≤ j → a.resource.typeNames[j]? = some rt → Filled P a j rt w' := by
  induction rts generalizing k w with
  | nil =>
    intro j rt hj hrt
    have hlen := List.drop_eq_nil_iff.mp hrts
    rw [List.getElem?_eq_none (hlen.trans hj)] at hrt
    cases hrt
  | cons rt rts ih =>
    have hk : a.resource.typeNames[k]? = some rt := by
      have h := congrArg (fun l => l[0]?) hrts
      simpa using h
    have htail : a.resource.typeNames.drop (k + 1) = rts := by
      rw [← List.drop_drop, hrts, List.drop_one, List.tail_cons]
    obtain ⟨stub, u, hfolder, h⟩ := bind_eq_ok h
    obtain ⟨_, v, hget, hrest⟩ := bind_eq_ok h
    obtain ⟨-, hreadyu, hrt⟩ :=
      hready.traverses (traverses_typeFolder (List.mem_of_getElem? hk)) hd hfolder
    obtain ⟨-, hreadyv, hrec⟩ := hreadyu.traverses (traverses_getState hk) hrt hget
    have hdv : FolderAt v (a.path P) := by
      apply DirTree.parent _ _ rt
      rw [hrec.1]
      rfl
    intro j rt' hj hrt'
    rcases Nat.eq_or_lt_of_le hj with rfl | hj
    · rw [hk] at hrt'
      obtain rfl := Option.some.inj hrt'
      obtain ⟨hkeep, -⟩ :=
        hreadyv.traverses (traverses_typeFolders (k + 1) rts htail) hdv hrest
      exact (getState_fills hk hrt hreadyu hget).keep hkeep
    · exact ih (k + 1) htail hdv hreadyv hrest j rt' hj hrt'

/-- A folder found or added has the class it is cast to. -/
theorem findOrAdd_class {fresh : Entry ι} {target : EntryClass} {parent p : Path} {name : Str}
    (hfresh : fresh.cls.isA target = true) (hd : FolderAt w parent)
    (h : findOrAdd P a fresh target parent name w = .ok p w') :
    ∃ e, w'.tree.entry p = some e ∧ e.cls.isA target = true := by
  obtain ⟨found, u, hfind, h⟩ := bind_eq_ok h
  rw [find_apply] at hfind
  split at hfind
  · cases hfind
  · obtain ⟨rfl, rfl⟩ := hfind
    cases hf : w.tree.find parent name with
    | none =>
      rw [hf] at h
      simp only [addDirectory_apply] at h
      split at h
      · cases h
      · obtain ⟨rfl, rfl⟩ := h
        refine ⟨fresh, ?_, hfresh⟩
        simp only [stored_absent hf]
        exact DirTree.entry_put_self hd
    | some e =>
      rw [hf] at h
      simp only [dynamicCast] at h
      split at h
      · rename_i hcast
        obtain ⟨rfl, rfl⟩ := h
        exact ⟨e, hf, hcast⟩
      · cases h

/-- A walk that returns has made the path of the resource end in an `OICFolder` and has
filled its type folders. -/
theorem walk_fills (parent : Path) (rest : List Str) (hrest : rest ≠ [])
    (hpath : parent ++ rest = a.path P) (hd : FolderAt w parent) (hready : Ready P a w)
    (h : walk P a parent rest w = .ok () w') :
    (∃ e, w'.tree.entry (a.path P) = some e ∧ e.cls.isA .OICFolder = true) ∧
      ∀ k rt, a.resource.typeNames[k]? = some rt → Filled P a k rt w' := by
  induction rest generalizing parent w with
  | nil => exact absurd rfl hrest
  | cons piece rest ih =>
    have hstep : parent ++ [piece] <+: a.path P := ⟨rest, by simpa using hpath⟩
    by_cases hlast : rest = []
    · subst hlast
      rw [walk] at h
      obtain ⟨folder, u, hend, htypes⟩ := bind_eq_ok h
      have hnofile : EntryClass.OICFolder ≠ .OICFile := by decide
      obtain ⟨-, hreadyu, rfl, hdu⟩ :=
        hready.traverses (traverses_findOrAdd (.inr rfl) hnofile hstep) hd hend
      obtain ⟨e, he, hcls⟩ := findOrAdd_class rfl hd hend
      rw [hpath] at he hdu htypes
      obtain ⟨hkeep, -⟩ :=
        hreadyu.traverses (traverses_typeFolders 0 _ List.drop_zero) hdu htypes
      refine ⟨⟨e, ?_, hcls⟩, fun k rt => ?_⟩
      · exact hkeep.folder _ _ he (isDir_of_isA (by decide) hcls)
      · exact typeFolders_fills 0 _ rfl hdu hreadyu htypes k rt (Nat.zero_le k)
    · rw [walk_cons _ _ _ _ hlast] at h
      obtain ⟨step, u, hmake, hwalk⟩ := bind_eq_ok h
      obtain ⟨-, hreadyu, rfl, hdu⟩ := hready.traverses (traverses_stepTo hstep) hd hmake
      exact ih (parent ++ [piece]) hlast (by simpa using hpath) hdu hreadyu hwalk

/-- The folder of the type `rt` of a resource holds, for each item of a reply that its stub
received with the success code, a file of that name with the stub. -/
def Populated (P : Platform ι) (w : Provider ι) (r : OCResource ι) (rt : Str) : Prop :=
  ∃ stub reply, w.tree.entry (r.path P ++ [cStr rt]) = some (.oicRTFolder stub) ∧
    .answered stub reply ∈ w.trace ∧ reply.eCode = OC_STACK_OK ∧
    ∀ item ∈ reply.rep.items, ∃ f,
      w.tree.entry (r.path P ++ [cStr rt] ++ [cStr item.1]) = some (.oicFile f) ∧
        cStr f.fileName = cStr item.1 ∧ f.stub = some stub

/-- The folder path of a resource exists and its type folders are populated. -/
structure Complete (P : Platform ι) (w : Provider ι) (r : OCResource ι) : Prop where
  above : ∀ q, q <+: r.path P → FolderAt w q
  folder : ∃ e, w.tree.entry (r.path P) = some e ∧ e.cls.isA .OICFolder = true
  types : ∀ rt ∈ r.getResourceTypes, Populated P w r rt

/-- A walk that returns has completed the resource if the device answered with success. -/
theorem complete_of_walk (hok : ∀ (k : Nat) (rt : Str),
      a.resource.typeNames[k]? = some rt → (a.replies k).eCode = OC_STACK_OK)
    (hd : FolderAt w []) (hready : Ready P a w)
    (h : walk P a [] (a.path P) w = .ok () w') : Complete P w' a.resource := by
  obtain ⟨⟨e, he, hcls⟩, hfilled⟩ := walk_fills [] (a.path P) (a.path_ne_nil P) rfl hd hready h
  refine ⟨fun q hq => ?_, ⟨e, he, hcls⟩, fun rt hrt => ?_⟩
  · obtain ⟨s, hs⟩ := hq
    by_cases hnil : s = []
    · rw [hnil, List.append_nil] at hs
      exact folderAt_iff.mpr ⟨e, by rw [hs]; exact he, isDir_of_isA (by decide) hcls⟩
    · apply w'.tree.isDir_above s hnil
      rw [hs]
      exact Option.isSome_iff_exists.mpr ⟨e, he⟩
  · obtain ⟨k, hk⟩ := List.mem_iff_getElem?.mp (List.mem_map_of_mem (f := cStr) hrt)
    obtain ⟨stub, ⟨hentry, hans⟩, hitems⟩ := hfilled k (cStr rt) hk
    exact ⟨stub, a.replies k, hentry, hans, hok k _ hk,
      fun item hi => (hitems item hi).bound hentry⟩

/-- Recorded resources are complete, and no file was made from a failed reply. -/
structure AllOrNothing (P : Platform ι) (w : Provider ι) : Prop where
  complete : ∀ id r, (id, r) ∈ w.resources → Complete P w r
  genuine : ∀ parent name taken reply, .addFile parent name taken reply ∈ w.trace →
    reply.eCode = OC_STACK_OK

theorem Complete.keep {r : OCResource ι} (h : Complete P w r) (hk : Keeps w w') :
    Complete P w' r where
  above q hq := by
    obtain ⟨e, he, hdir⟩ := folderAt_iff.mp (h.above q hq)
    exact folderAt_iff.mpr ⟨e, hk.folder q e he hdir, hdir⟩
  folder := by
    obtain ⟨e, he, hcls⟩ := h.folder
    exact ⟨e, hk.folder _ _ he (isDir_of_isA (by decide) hcls), hcls⟩
  types rt hrt := by
    obtain ⟨stub, reply, he, hans, hok, hitems⟩ := h.types rt hrt
    refine ⟨stub, reply, hk.folder _ _ he rfl, hk.trace _ hans, hok, fun item hi => ?_⟩
    obtain ⟨f, hf, hname, hstub⟩ := hitems item hi
    exact (hk.file _ _ ⟨stub, f, he, hf, hname, hstub⟩).bound (hk.folder _ _ he rfl)

/-- Nothing goes wrong while the announcement is handled: if its identifier is new, no
call throws, every reply carries the success code, and no attribute has the name of a folder
that already lies in its type folder. -/
def Smooth (P : Platform ι) (w : Provider ι) (a : Announcement ι) : Prop :=
  ¬ w.Knows a → a.Calm ∧
    (∀ (k : Nat) (rt : Str), a.resource.typeNames[k]? = some rt →
      (a.replies k).eCode = OC_STACK_OK) ∧ Vacant P a w

/-- The files a move adds or tries to add come from a reply to the announcement. -/
theorem Move.addFile_mem (h : Move P a w w') {parent : Path} {name : Str} {taken : Bool}
    {reply : Reply} (hm : .addFile parent name taken reply ∈ w'.trace) :
    .addFile parent name taken reply ∈ w.trace ∨
      ∃ k rt, a.resource.typeNames[k]? = some rt ∧ reply = a.replies k := by
  cases h with
  | counted => exact Or.inl hm
  | tried | folder | typeFolder | answered =>
    rcases List.mem_append.mp hm with hm | hm
    · exact Or.inl hm
    · cases List.mem_singleton.mp hm
  | triedFile n k rt item hk hmem =>
    rcases List.mem_append.mp hm with hm | hm
    · exact Or.inl hm
    · cases List.mem_singleton.mp hm
      exact Or.inr ⟨k, rt, hk, rfl⟩
  | file n k rt stub memory item hk hrt hans hmem =>
    rcases List.mem_append.mp hm with hm | hm
    · exact Or.inl hm
    · cases List.mem_singleton.mp hm
      exact Or.inr ⟨k, rt, hk, rfl⟩

/-- Moves made for successful replies make no file from a failed one. -/
theorem genuine_of_moves (h : Relation.ReflTransGen (Move P a) w w')
    (hok : ∀ (k : Nat) (rt : Str), a.resource.typeNames[k]? = some rt →
      (a.replies k).eCode = OC_STACK_OK)
    (hw : ∀ parent name taken reply, .addFile parent name taken reply ∈ w.trace →
      reply.eCode = OC_STACK_OK) (parent : Path) (name : Str) (taken : Bool) (reply : Reply)
    (hm : .addFile parent name taken reply ∈ w'.trace) : reply.eCode = OC_STACK_OK := by
  induction h with
  | refl => exact hw parent name taken reply hm
  | tail _ hstep ih =>
    rcases hstep.addFile_mem hm with hm | ⟨k, rt, hk, rfl⟩
    · exact ih hm
    · exact hok k rt hk

section Runs

variable [DecidableEq ι]

/-- A calm new announcement that is survived has walked its whole path. -/
theorem Built.walk_ok {es : List (Announcement ι)} (h : Built P es w) (hcalm : a.Calm)
    (hnew : ¬ w.Knows a) (hs : announce P w a = some w') :
    walk P a [] (a.path P) (w.record a) = .ok () w' := by
  obtain ⟨hok, herr⟩ := decides_walk hcalm h.closed (Or.inl rfl) (a.path P) (a.path_ne_nil P)
    (w.record a) ⟨h.shows_demands, w.tree.root⟩
  rw [Oic.announce_fresh hnew] at hs
  by_cases hsafe : (demands P es).Safe P.overwrites [] (a.path P) a.types
  · obtain ⟨v, t, hw, -⟩ := hok hsafe
    rw [hw] at hs ⊢
    cases hs
    rfl
  · obtain ⟨t, hw⟩ := herr hsafe
    rw [hw] at hs
    cases hs

/-- One announcement under which nothing goes wrong keeps recorded resources complete. -/
theorem AllOrNothing.announce {es : List (Announcement ι)} (h : AllOrNothing P w)
    (hfiles : FilesBound w) (hb : Built P es w) (hsmooth : Smooth P w a)
    (hs : announce P w a = some w') :
    AllOrNothing P w' ∧ FilesBound w' ∧ ∃ es', Built P es' w' := by
  by_cases hk : w.Knows a
  · rw [announce_known hk] at hs
    cases hs
    exact ⟨h, hfiles, es, hb⟩
  · obtain ⟨hcalm, hok, hvac⟩ := hsmooth hk
    have hready : Ready P a (w.record a) := ⟨hvac, hfiles⟩
    have hwalk := hb.walk_ok hcalm hk hs
    have hmoves := (traverses_walk [] (a.path P) rfl (w.record a) w.tree.root).1
    rw [hwalk, final_ok] at hmoves
    obtain ⟨⟨hfile, hfolder, htrace⟩, hready'⟩ := hready.moves hmoves
    have hkeep : Keeps w w' := ⟨hfile, hfolder, htrace⟩
    have hcomplete : Complete P w' a.resource :=
      complete_of_walk hok (w.record a).tree.root hready hwalk
    have hall : AllOrNothing P w' := by
      refine ⟨fun id r hr => ?_, genuine_of_moves hmoves hok h.genuine⟩
      rw [resources_of_moves hmoves] at hr
      rcases List.mem_append.mp hr with hr | hr
      · exact (h.complete id r hr).keep hkeep
      · cases List.mem_singleton.mp hr
        exact hcomplete
    exact ⟨hall, hready'.bound, _, (hb.of_announce hcalm hk hs).2⟩

/-- In every run in which nothing goes wrong while a new resource is handled, recorded
resources are complete after each announcement. -/
theorem all_or_nothing_of_smooth (P : Platform ι) (w : Provider ι)
    (h : Machine.Reach (announce P) (Smooth P) .initial w) : AllOrNothing P w := by
  have hinv : AllOrNothing P w ∧ FilesBound w ∧ ∃ es, Built P es w := by
    refine h.invariant (fun w => AllOrNothing P w ∧ FilesBound w ∧ ∃ es, Built P es w) ?_ ?_
    · refine ⟨⟨fun id r hr => ?_, fun parent name taken reply hm => ?_⟩, filesBound_initial, [],
        built_initial P⟩
      · cases hr
      · cases hm
    · rintro v a t ⟨hv, hfiles, es, hb⟩ hsmooth hs
      exact hv.announce hfiles hb hsmooth hs
  exact hinv.1

end Runs

/-- A lamp whose only type answers with the given code. -/
def sampleAnswering (eCode : Int) : Announcement Str :=
  sampleAnnouncement "hall/a/light" ["core.light"] (sampleReply eCode "power")

theorem all_or_nothing_of_smooth_sampleAnswering : ∃ w : Provider Str,
    announce samplePlatform .initial (sampleAnswering OC_STACK_OK) = some w ∧
      AllOrNothing samplePlatform w := by
  have hrun : (announce samplePlatform .initial (sampleAnswering OC_STACK_OK)).isSome = true := by
    rw [announce_eq]
    decide +kernel
  obtain ⟨w, hw⟩ := Option.isSome_iff_exists.mp hrun
  refine ⟨w, hw, all_or_nothing_of_smooth samplePlatform w (.next .refl (fun _ => ?_) hw)⟩
  refine ⟨sampleAnnouncement_calm _ _ _, fun _ _ _ => rfl, fun k rt _ item _ hd => ?_⟩
  rw [FolderAt, Provider.entry_initial, if_neg (by simp)] at hd
  cases hd

/-- The code of a failed GET does not keep the file of its item from being made. -/
theorem not_all_or_nothing_sampleAnswering : ∃ w : Provider Str,
    discover samplePlatform [sampleAnswering 6] = some w ∧ ¬ AllOrNothing samplePlatform w := by
  have hrun : ((discover samplePlatform [sampleAnswering 6]).any fun w => w.trace.any fun
      | .addFile _ _ _ reply => reply.eCode ≠ OC_STACK_OK
      | _ => false) = true := by
    rw [discover_eq]
    decide +kernel
  obtain ⟨w, hw, hbad⟩ := (Option.any_eq_true _ _).mp hrun
  refine ⟨w, hw, fun hall => ?_⟩
  obtain ⟨e, he, hcode⟩ := List.any_eq_true.mp hbad
  cases e with
  | addFile parent name taken reply =>
    have hok := hall.genuine parent name taken reply he
    simp [hok] at hcode
  | addDirectory | answered => cases hcode

end IoTFS.Oic
