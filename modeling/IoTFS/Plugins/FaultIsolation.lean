import IoTFS.Plugins.Manager

/-!
# What one bad plugin does to the others

A library that fails to load is stepped over. An entry without a name or a path is not: the
exception leaves `init` before any provider is collected. A provider that throws takes those
after it along.
-/

namespace IoTFS.Plugins

open Exec
open Oic (Str)

variable {π : Type} {H : Host π}

/-! ### Entries -/

/-- The entry of a plugin, as opposed to any other child. -/
def IsPlugin (node : Str × Ptree) : Prop := node.1 = "plugin".toList

instance (node : Str × Ptree) : Decidable (IsPlugin node) := inferInstanceAs (Decidable (_ = _))

/-- The library a well-formed entry names. -/
def library (H : Host π) (node : Str × Ptree) : Option SharedLibrary :=
  (node.2.get "name".toList).bind fun name =>
    (node.2.get "path".toList).map fun path => ⟨H.path path, name⟩

/-- An entry of a plugin that lacks its name or its path. -/
def Malformed (H : Host π) (node : Str × Ptree) : Prop := IsPlugin node ∧ library H node = none

instance (H : Host π) (node : Str × Ptree) : Decidable (Malformed H node) :=
  inferInstanceAs (Decidable (_ ∧ _))

/-- The libraries of well-formed entries that load, from position `k`. -/
def loadable (H : Host π) : Nat → List (Str × Ptree) → List SharedLibrary
  | _, [] => []
  | k, node :: nodes =>
    (if IsPlugin node ∧ H.loads k then (library H node).toList else []) ++
      loadable H (k + 1) nodes

/-- A library is loadable when a well-formed entry names it and loads. -/
theorem mem_loadable {k : Nat} {nodes : List (Str × Ptree)} {lib : SharedLibrary} :
    lib ∈ loadable H k nodes ↔ ∃ i node, nodes[i]? = some node ∧ IsPlugin node ∧
      H.loads (k + i) = true ∧ library H node = some lib := by
  induction nodes generalizing k with
  | nil => simp [loadable]
  | cons node nodes ih =>
    rw [loadable, List.mem_append, ih]
    constructor
    · rintro (h | ⟨i, node', hi, hplugin, hload, hlib⟩)
      · split at h
        · rename_i hnode
          exact ⟨0, node, rfl, hnode.1, hnode.2, Option.mem_toList.mp h⟩
        · cases h
      · exact ⟨i + 1, node', hi, hplugin, by rwa [Nat.add_right_comm] at hload, hlib⟩
    · rintro ⟨i, node', hi, hplugin, hload, hlib⟩
      cases i with
      | zero =>
        cases hi
        exact Or.inl (by rw [if_pos ⟨hplugin, hload⟩]; exact Option.mem_toList.mpr hlib)
      | succ i => exact Or.inr ⟨i, node', hi, hplugin, by rwa [Nat.add_right_comm], hlib⟩

/-! ### Reading and loading -/

/-- Reading an entry of a plugin and loading its library. -/
theorem loadPlugin_apply (k : Nat) (node : Str × Ptree) (pm : PluginManager π) :
    loadPlugin H k node pm =
      if IsPlugin node then
        match library H node with
        | none => .error .thrown pm
        | some lib => .ok () (if H.loads k then { pm with loaded := pm.loaded ++ [lib] } else pm)
      else .ok () pm := by
  by_cases hplugin : IsPlugin node
  · have hkey : node.1 = "plugin".toList := hplugin
    rw [if_pos hplugin, loadPlugin, if_pos hkey, library]
    cases node.2.get "name".toList with
    | none => rfl
    | some name =>
      cases node.2.get "path".toList with
      | none => rfl
      | some path =>
        change tryCatch (SharedLibrary.Load H k ⟨H.path path, name⟩) (fun _ => pure ()) pm = _
        rw [tryCatch_apply, SharedLibrary.Load]
        cases H.loads k <;> rfl
  · have hkey : ¬ node.1 = "plugin".toList := hplugin
    rw [if_neg hplugin, loadPlugin, if_neg hkey]
    rfl

/-- Without malformed entries the loop loads every library that can be loaded. -/
theorem loadPlugins_ok {nodes : List (Str × Ptree)} (h : ∀ node ∈ nodes, ¬ Malformed H node)
    (k : Nat) (pm : PluginManager π) : loadPlugins H k nodes pm =
      .ok () { pm with loaded := pm.loaded ++ loadable H k nodes } := by
  induction nodes generalizing k pm with
  | nil => simp [loadPlugins, loadable]
  | cons node nodes ih =>
    have hnode := h node (List.mem_cons_self ..)
    have ih := ih fun node' hmem => h node' (List.mem_cons_of_mem _ hmem)
    have hone : loadPlugin H k node pm = .ok () { pm with loaded := pm.loaded ++
        (if IsPlugin node ∧ H.loads k then (library H node).toList else []) } := by
      rw [loadPlugin_apply]
      by_cases hplugin : IsPlugin node
      · cases hlib : library H node with
        | none => exact absurd ⟨hplugin, hlib⟩ hnode
        | some lib => cases hload : H.loads k <;> simp [hplugin]
      · simp [hplugin]
    rw [loadPlugins, bind_ok hone, ih]
    simp only [loadable, List.append_assoc]

/-- A malformed entry stops the loop, wherever it stands. -/
theorem loadPlugins_error {nodes : List (Str × Ptree)} (h : ∃ node ∈ nodes, Malformed H node)
    (k : Nat) (pm : PluginManager π) :
    ∃ pm', loadPlugins H k nodes pm = .error .thrown pm' ∧ pm'.providers = pm.providers := by
  induction nodes generalizing k pm with
  | nil =>
    obtain ⟨node, hmem, -⟩ := h
    cases hmem
  | cons node nodes ih =>
    by_cases hnode : Malformed H node
    · refine ⟨pm, ?_, rfl⟩
      rw [loadPlugins, bind_error]
      rw [loadPlugin_apply, if_pos hnode.1, hnode.2]
    · have htail : ∃ node ∈ nodes, Malformed H node := by
        obtain ⟨node', hmem, hbad⟩ := h
        rcases List.mem_cons.mp hmem with rfl | hmem
        · exact absurd hbad hnode
        · exact ⟨node', hmem, hbad⟩
      have hsingle : ∀ node' ∈ [node], ¬ Malformed H node' := by simpa using hnode
      have hone := loadPlugins_ok hsingle k pm
      rw [loadPlugins] at hone
      obtain ⟨⟨⟩, pm', hfirst, hrest⟩ := bind_eq_ok hone
      cases hrest
      obtain ⟨pm'', hrun, hprov⟩ := ih htail (k + 1) { pm with
        loaded := pm.loaded ++ loadable H k [node] }
      exact ⟨pm'', by rw [loadPlugins, bind_ok hfirst, hrun], hprov⟩

/-! ### Collecting the providers -/

/-- The providers of the loaded modules, in the order of the registry. -/
def services (modules : List (Module π)) : List π :=
  modules.flatMap fun m => if m.IsLoaded then m.services else []

/-- The registry lists the provider of a loaded library. -/
theorem mem_services {modules : List (Module π)} {m : Module π} {p : π} (hm : m ∈ modules)
    (hloaded : m.IsLoaded = true) (hp : p ∈ m.services) : p ∈ services modules :=
  List.mem_flatMap.mpr ⟨m, hm, by rwa [if_pos hloaded]⟩

section Collect

variable [DecidableEq π]

theorem collect_ok (modules : List (Module π)) (pm : PluginManager π) :
    collect modules pm =
      .ok () { pm with providers := (services modules).foldl pushNew pm.providers } := by
  induction modules generalizing pm with
  | nil => rfl
  | cons m modules ih =>
    rw [collect, services, List.flatMap_cons, List.foldl_append, ← services]
    cases m.IsLoaded with
    | false => exact ih pm
    | true => exact ih _

theorem mem_pushNew {l : List π} {p q : π} : q ∈ pushNew l p ↔ q ∈ l ∨ q = p := by
  unfold pushNew
  split
  · rename_i hmem
    refine (or_iff_left_of_imp ?_).symm
    rintro rfl
    exact hmem
  · simp

/-- The vector holds what was pushed. -/
theorem mem_foldl_pushNew {ps l : List π} {q : π} :
    q ∈ ps.foldl pushNew l ↔ q ∈ l ∨ q ∈ ps := by
  induction ps generalizing l with
  | nil => simp
  | cons p ps ih => rw [List.foldl_cons, ih, mem_pushNew, List.mem_cons, or_assoc]

/-- The vector only grows. -/
theorem prefix_foldl_pushNew (ps l : List π) : l <+: ps.foldl pushNew l := by
  induction ps generalizing l with
  | nil => exact List.prefix_rfl
  | cons p ps ih =>
    refine List.IsPrefix.trans ?_ (ih (pushNew l p))
    unfold pushNew
    split
    · exact List.prefix_rfl
    · exact List.prefix_append _ _

/-- A provider stands in the vector behind those that were pushed before it was. -/
theorem split_foldl_pushNew {ps : List π} {p : π} (h : p ∈ ps) :
    ∃ before after, ps.foldl pushNew [] = before ++ p :: after ∧ p ∉ before ∧
      ∀ q, q ∈ before ↔ q ∈ ps.takeWhile (· ≠ p) := by
  obtain ⟨first, last, rfl, hfirst⟩ := List.eq_append_cons_of_mem h
  have hnot : p ∉ first.foldl pushNew [] := by
    rw [mem_foldl_pushNew]
    simpa using hfirst
  have hpush : pushNew (first.foldl pushNew []) p = first.foldl pushNew [] ++ [p] := if_neg hnot
  obtain ⟨after, hafter⟩ := prefix_foldl_pushNew last (first.foldl pushNew [] ++ [p])
  refine ⟨first.foldl pushNew [], after, ?_, hnot, fun q => ?_⟩
  · rw [List.foldl_append, List.foldl_cons, hpush, ← hafter, List.append_assoc,
      List.singleton_append]
  · have htake : (first ++ p :: last).takeWhile (· ≠ p) = first := by
      rw [List.takeWhile_append_of_pos, List.takeWhile_cons_of_neg (by simp), List.append_nil]
      intro q hq
      simpa using ne_of_mem_of_not_mem hq hfirst
    rw [mem_foldl_pushNew, htake]
    simp

end Collect

/-! ### Initialising the providers -/

/-- The providers that get called: up to the first that throws, itself included. -/
def called (H : Host π) : List π → List π
  | [] => []
  | provider :: providers =>
    provider :: if H.initializeThrows provider then [] else called H providers

theorem final_initializeAll (providers : List π) (s : Process π) :
    final (initializeAll H providers s) =
      { s with initialized := s.initialized ++ called H providers } := by
  induction providers generalizing s with
  | nil => simp [initializeAll, called]
  | cons provider providers ih =>
    rw [initializeAll, bind_ok (modify_apply _ s), called]
    cases hthrow : H.initializeThrows provider with
    | true => rfl
    | false =>
      have hrest := ih { s with initialized := s.initialized ++ [provider] }
      simpa using hrest

/-- A provider is called when none before it throws. -/
theorem mem_called_iff {before after : List π} {p : π} (hp : p ∉ before) :
    p ∈ called H (before ++ p :: after) ↔ ∀ q ∈ before, H.initializeThrows q = false := by
  induction before with
  | nil => simp [called]
  | cons q before ih =>
    simp only [List.mem_cons, not_or] at hp
    rw [List.cons_append, called, List.mem_cons, or_iff_right hp.1, List.forall_mem_cons]
    cases hthrow : H.initializeThrows q with
    | true => simp
    | false => simpa using ih hp.2

/-! ### The whole start -/

variable [DecidableEq π] {pt plugins : Ptree}

/-- The initializer runs `init` and calls what was collected, unless `init` throws. -/
theorem started_eq : started H =
    match PluginManager.init H ⟨[], []⟩ with
    | .ok _ pm => ⟨some pm, called H pm.providers⟩
    | .error _ pm => ⟨some pm, []⟩ := by
  rw [started, IoTFSInitializer, final_tryCatch_pure, bind_apply, PluginManager.instance]
  cases PluginManager.init H ⟨[], []⟩ with
  | error e pm => rfl
  | ok u pm => exact final_initializeAll pm.providers ⟨some pm, []⟩

theorem init_eq (hread : H.readXml = some pt)
    (hroot : pt.getChild "plugins".toList = some plugins) (pm : PluginManager π) :
    PluginManager.init H pm =
      match loadPlugins H 0 plugins.children pm with
      | .ok _ pm' => collect (H.GetModules pm'.loaded) pm'
      | .error e pm' => .error e pm' := by
  have hrequired : required (some plugins) pm = .ok plugins pm := rfl
  simp only [PluginManager.init, hread, hroot]
  rw [bind_ok hrequired, bind_apply]
  cases loadPlugins H 0 plugins.children pm <;> rfl

/-- Without malformed entries every library that can be loaded is, and the providers are
called in the order in which they were pushed. -/
theorem started_of_wellFormed (hread : H.readXml = some pt)
    (hroot : pt.getChild "plugins".toList = some plugins)
    (h : ∀ node ∈ plugins.children, ¬ Malformed H node) :
    let libs := loadable H 0 plugins.children
    let providers := (services (H.GetModules libs)).foldl pushNew []
    started H = ⟨some ⟨libs, providers⟩, called H providers⟩ := by
  rw [started_eq, init_eq hread hroot, loadPlugins_ok h]
  simp only [collect_ok, List.nil_append]

/-- With a malformed entry no provider is listed. -/
theorem started_of_malformed (hread : H.readXml = some pt)
    (hroot : pt.getChild "plugins".toList = some plugins)
    (h : ∃ node ∈ plugins.children, Malformed H node) :
    ∃ pm, started H = ⟨some pm, []⟩ ∧ pm.providers = [] := by
  obtain ⟨pm, hrun, hprov⟩ := loadPlugins_error h 0 ⟨[], []⟩
  refine ⟨pm, ?_, hprov⟩
  rw [started_eq, init_eq hread hroot, hrun]

/-- A provider pushed is called when none pushed before it throws. -/
theorem mem_called_pushed_iff {ps : List π} {p : π} (h : p ∈ ps) :
    p ∈ called H (ps.foldl pushNew []) ↔
      ∀ q ∈ ps.takeWhile (· ≠ p), H.initializeThrows q = false := by
  obtain ⟨before, after, hsplit, hp, hbefore⟩ := split_foldl_pushNew h
  rw [hsplit, mem_called_iff hp]
  simp only [hbefore]

/-- The plugin got through: its library is loaded, its provider listed and initialised. -/
structure Served (H : Host π) (provider : SharedLibrary → π) (lib : SharedLibrary) : Prop where
  listed : ∃ pm, (started H).theInstance = some pm ∧ lib ∈ pm.loaded ∧ provider lib ∈ pm.providers
  initialized : provider lib ∈ (started H).initialized

/-- Every library that can be loaded is served exactly when there is none, or no entry is
malformed and no provider that comes before theirs in the registry throws. -/
theorem plugins_isolated_iff (H : Host π) (hread : H.readXml = some pt)
    (hroot : pt.getChild "plugins".toList = some plugins) (provider : SharedLibrary → π)
    (hregisters : ∀ libs, ∀ lib ∈ libs, ∃ m ∈ H.GetModules libs,
      m.IsLoaded = true ∧ provider lib ∈ m.services) :
    (∀ lib ∈ loadable H 0 plugins.children, Served H provider lib) ↔
      loadable H 0 plugins.children = [] ∨
        (∀ node ∈ plugins.children, ¬ Malformed H node) ∧
          ∀ lib ∈ loadable H 0 plugins.children,
            ∀ q ∈ (services (H.GetModules (loadable H 0 plugins.children))).takeWhile
              (· ≠ provider lib), H.initializeThrows q = false := by
  have hservice (lib : SharedLibrary) (hlib : lib ∈ loadable H 0 plugins.children) :
      provider lib ∈ services (H.GetModules (loadable H 0 plugins.children)) := by
    obtain ⟨m, hm, hloaded, hp⟩ := hregisters _ lib hlib
    exact mem_services hm hloaded hp
  constructor
  · intro h
    by_cases hnone : loadable H 0 plugins.children = []
    · exact Or.inl hnone
    refine Or.inr ?_
    by_cases hbad : ∃ node ∈ plugins.children, Malformed H node
    · obtain ⟨lib, hlib⟩ := List.exists_mem_of_ne_nil _ hnone
      obtain ⟨pm, hstarted, -⟩ := started_of_malformed hread hroot hbad
      have hcalled := (h lib hlib).initialized
      rw [hstarted] at hcalled
      cases hcalled
    · push Not at hbad
      refine ⟨hbad, fun lib hlib => ?_⟩
      have hcalled := (h lib hlib).initialized
      rw [started_of_wellFormed hread hroot hbad] at hcalled
      exact (mem_called_pushed_iff (hservice lib hlib)).mp hcalled
  · rintro (hnone | ⟨hgood, hbefore⟩) lib hlib
    · rw [hnone] at hlib
      cases hlib
    · have hstarted := started_of_wellFormed hread hroot hgood
      constructor
      · refine ⟨_, by rw [hstarted], hlib, ?_⟩
        exact mem_foldl_pushNew.mpr (Or.inr (hservice lib hlib))
      · rw [hstarted]
        exact (mem_called_pushed_iff (hservice lib hlib)).mpr (hbefore lib hlib)

/-- A host whose libraries each bring one module with one provider, in the order of
loading; the provider's address is the library. -/
def sampleHost (entries : List (Str × Ptree)) (initializeThrows : SharedLibrary → Bool) :
    Host SharedLibrary where
  directoryConf := []
  readXml := some (.node [] [("plugins".toList, .node [] entries)])
  loads _ := true
  GetModules libs := libs.map fun lib => ⟨true, [lib]⟩
  initializeThrows := initializeThrows

/-- A well-formed entry. -/
def sampleEntry (name : String) : Str × Ptree :=
  ("plugin".toList, .node []
    [("name".toList, .node name.toList []), ("path".toList, .node "lib".toList [])])

/-- Two entries, the provider of the second of which throws. -/
def sampleTwo (initializeThrows : SharedLibrary → Bool) : Host SharedLibrary :=
  sampleHost [sampleEntry "a", sampleEntry "b"] initializeThrows

theorem plugins_isolated_iff_sampleTwo :
    (∀ lib ∈ loadable (sampleTwo (·.name = "b".toList)) 0 [sampleEntry "a", sampleEntry "b"],
        Served (sampleTwo (·.name = "b".toList)) id lib) ∧
      (loadable (sampleTwo (·.name = "b".toList)) 0
        [sampleEntry "a", sampleEntry "b"]).length = 2 := by
  refine ⟨?_, by decide +kernel⟩
  refine (plugins_isolated_iff (sampleTwo (·.name = "b".toList)) rfl rfl id ?_).mpr
    (Or.inr ⟨by decide +kernel, by decide +kernel⟩)
  intro libs lib hlib
  exact ⟨⟨true, [lib]⟩, List.mem_map_of_mem hlib, rfl, List.mem_singleton_self _⟩

/-- A good plugin goes without its provider when an entry after it has no path, and goes
uninitialised when the provider before it throws. -/
theorem plugins_not_isolated_sampleHost :
    (⟨"/lib".toList, "a".toList⟩ ∈ loadable (sampleHost
          [sampleEntry "a", ("plugin".toList, .node [] [])] fun _ => false) 0
          [sampleEntry "a", ("plugin".toList, .node [] [])] ∧
        ¬ Served (sampleHost [sampleEntry "a", ("plugin".toList, .node [] [])] fun _ => false)
          id ⟨"/lib".toList, "a".toList⟩) ∧
      ⟨"/lib".toList, "b".toList⟩ ∈ loadable (sampleTwo (·.name = "a".toList)) 0
          [sampleEntry "a", sampleEntry "b"] ∧
        ¬ Served (sampleTwo (·.name = "a".toList)) id ⟨"/lib".toList, "b".toList⟩ := by
  refine ⟨⟨by decide +kernel, fun h => ?_⟩, by decide +kernel, fun h => ?_⟩
  · exact absurd h.initialized (by decide +kernel)
  · exact absurd h.initialized (by decide +kernel)

end IoTFS.Plugins
