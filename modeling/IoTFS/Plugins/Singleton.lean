import IoTFS.Plugins.FaultIsolation

/-!
# One manager for the whole process

`_instance` is set before `init` runs, and nothing resets it. Whatever the first caller finds
is therefore what every later caller gets: a manager left half filled by a malformed entry
stays half filled, and each run of the initializer calls the same providers again.
-/

namespace IoTFS.Plugins

open Exec
open Oic (Str)

variable {π : Type} {H : Host π}

/-! ### What one `init` makes of a host -/

/-- The entries in front of the first malformed one. -/
def wellFormedPrefix (H : Host π) (nodes : List (Str × Ptree)) : List (Str × Ptree) :=
  nodes.takeWhile fun node => ¬ Malformed H node

/-- The loop loads what can be loaded in front of the first malformed entry, and is left there
by the exception. -/
theorem loadPlugins_eq (nodes : List (Str × Ptree)) (k : Nat) (pm : PluginManager π) :
    loadPlugins H k nodes pm =
      if ∀ node ∈ nodes, ¬ Malformed H node then
        .ok () { pm with loaded := pm.loaded ++ loadable H k (wellFormedPrefix H nodes) }
      else
        .error .thrown
          { pm with loaded := pm.loaded ++ loadable H k (wellFormedPrefix H nodes) } := by
  induction nodes generalizing k pm with
  | nil => simp [loadPlugins, wellFormedPrefix, loadable]
  | cons node nodes ih =>
    by_cases hnode : Malformed H node
    · have hall : ¬ ∀ node' ∈ node :: nodes, ¬ Malformed H node' := by simp [hnode]
      have hnone : wellFormedPrefix H (node :: nodes) = [] := by simp [wellFormedPrefix, hnode]
      rw [if_neg hall, hnone, loadable, List.append_nil, loadPlugins, bind_error]
      rw [loadPlugin_apply, if_pos hnode.1, hnode.2]
    · have hcons : wellFormedPrefix H (node :: nodes) = node :: wellFormedPrefix H nodes := by
        simp [wellFormedPrefix, hnode]
      have hall : (∀ node' ∈ node :: nodes, ¬ Malformed H node') ↔
          ∀ node' ∈ nodes, ¬ Malformed H node' := by simp [hnode]
      have hsingle : ∀ node' ∈ [node], ¬ Malformed H node' := by simpa using hnode
      have hone := loadPlugins_ok hsingle k pm
      rw [loadPlugins] at hone
      obtain ⟨⟨⟩, pm', hfirst, hrest⟩ := bind_eq_ok hone
      cases hrest
      rw [loadPlugins, bind_ok hfirst, ih, hcons]
      simp only [hall, loadable, List.append_nil, List.append_assoc]

/-- The loop calls an initial part of the vector. -/
theorem called_initial (H : Host π) (providers : List π) : called H providers <+: providers := by
  induction providers with
  | nil => exact List.prefix_rfl
  | cons p ps ih =>
    rw [called]
    split
    · exact ⟨ps, rfl⟩
    · exact (List.prefix_cons_inj p).mpr ih

section Managers

variable [DecidableEq π]

/-- What becomes of a manager made for a host: without a root it is empty, with a malformed
entry it lists nothing. -/
def managerOf (H : Host π) : PluginManager π :=
  match H.readXml.bind fun pt => pt.getChild "plugins".toList with
  | none => ⟨[], []⟩
  | some plugins =>
    let libs := loadable H 0 (wellFormedPrefix H plugins.children)
    ⟨libs, if ∀ node ∈ plugins.children, ¬ Malformed H node then
      (services (H.GetModules libs)).foldl pushNew [] else []⟩

/-- `init` leaves the manager of the host behind, and throws only with nothing listed. -/
theorem init_cases (H : Host π) :
    PluginManager.init H ⟨[], []⟩ = .ok () (managerOf H) ∨
      PluginManager.init H ⟨[], []⟩ = .error .thrown (managerOf H) ∧
        (managerOf H).providers = [] := by
  cases hread : H.readXml with
  | none => exact Or.inl (by simp [PluginManager.init, managerOf, hread])
  | some pt =>
    cases hroot : pt.getChild "plugins".toList with
    | none =>
      have hempty : managerOf H = ⟨[], []⟩ := by
        rw [managerOf, hread, Option.bind_some, hroot]
      have hrequired : required (none : Option Ptree) (⟨[], []⟩ : PluginManager π) =
          .error .thrown ⟨[], []⟩ := rfl
      refine Or.inr ⟨?_, by rw [hempty]⟩
      simp only [PluginManager.init, hread, hroot]
      rw [bind_error hrequired, hempty]
    | some plugins =>
      have hmanager : managerOf H =
          ⟨loadable H 0 (wellFormedPrefix H plugins.children),
            if ∀ node ∈ plugins.children, ¬ Malformed H node then
              (services (H.GetModules (loadable H 0
                (wellFormedPrefix H plugins.children)))).foldl pushNew [] else []⟩ := by
        rw [managerOf, hread, Option.bind_some, hroot]
      rw [init_eq hread hroot, loadPlugins_eq, hmanager]
      by_cases hgood : ∀ node ∈ plugins.children, ¬ Malformed H node
      · simp only [if_pos hgood, collect_ok, List.nil_append]
        exact Or.inl trivial
      · simp only [if_neg hgood, List.nil_append]
        exact Or.inr ⟨trivial, trivial⟩

/-! ### Calls over the life of a process -/

/-- A call made in the process, and what it would find outside. -/
inductive Call (π : Type)
  | getInstance (H : Host π)
  | construct (H : Host π)

/-- The host of a call. -/
def Call.host : Call π → Host π
  | .getInstance H => H
  | .construct H => H

/-- What a call does to the process: `PluginManager::instance`, or `IoTFSInitializer`. -/
def Process.after (s : Process π) : Call π → Process π
  | .getInstance H => final (PluginManager.instance H s)
  | .construct H => final (IoTFSInitializer H s)

/-- The providers a call initialises, given those that are listed. -/
def Call.initializes (providers : List π) : Call π → List π
  | .getInstance _ => []
  | .construct H => called H providers

/-- The first call makes the manager, and the initializer calls what is listed. -/
theorem after_first (c : Call π) (l : List π) :
    Process.after ⟨none, l⟩ c =
      ⟨some (managerOf c.host), l ++ c.initializes (managerOf c.host).providers⟩ := by
  cases c with
  | getInstance H =>
    rw [Process.after, PluginManager.instance, Call.initializes, List.append_nil]
    rcases init_cases H with hok | ⟨herr, -⟩
    · rw [hok]
      rfl
    · rw [herr]
      rfl
  | construct H =>
    rw [Process.after, IoTFSInitializer, final_tryCatch_pure, bind_apply,
      PluginManager.instance]
    rcases init_cases H with hok | ⟨herr, hnone⟩
    · rw [hok]
      exact final_initializeAll _ _
    · rw [herr, Call.initializes, Call.host, hnone, called, List.append_nil]
      rfl

/-- Later calls use the manager there is. -/
theorem after_later (c : Call π) (pm : PluginManager π) (l : List π) :
    Process.after ⟨some pm, l⟩ c = ⟨some pm, l ++ c.initializes pm.providers⟩ := by
  cases c with
  | getInstance H => simp [Process.after, PluginManager.instance, Call.initializes]
  | construct H =>
    rw [Process.after, IoTFSInitializer, final_tryCatch_pure, bind_apply]
    exact final_initializeAll _ _

/-- Over any calls the manager stays, and what was initialised adds up. -/
theorem foldl_after (cs : List (Call π)) (pm : PluginManager π) (l : List π) :
    cs.foldl Process.after ⟨some pm, l⟩ =
      ⟨some pm, l ++ cs.flatMap (·.initializes pm.providers)⟩ := by
  induction cs generalizing l with
  | nil => simp
  | cons c cs ih =>
    rw [List.foldl_cons, after_later, ih, List.flatMap_cons, List.append_assoc]

/-! ### Each provider, over the life of a process -/

theorem nodup_pushNew {l : List π} (h : l.Nodup) (p : π) : (pushNew l p).Nodup := by
  unfold pushNew
  split
  · exact h
  · rename_i hp
    exact List.nodup_append.mpr ⟨h, List.nodup_singleton p, by
      rintro q hq q' hq' rfl
      exact hp (List.mem_singleton.mp hq' ▸ hq)⟩

/-- No provider stands in the vector twice. -/
theorem nodup_managerOf (H : Host π) : (managerOf H).providers.Nodup := by
  have hfold (ps l : List π) (hl : l.Nodup) : (ps.foldl pushNew l).Nodup := by
    induction ps generalizing l with
    | nil => exact hl
    | cons p ps ih => exact ih _ (nodup_pushNew hl p)
  unfold managerOf
  split
  · exact List.nodup_nil
  · dsimp only
    split
    · exact hfold _ _ List.nodup_nil
    · exact List.nodup_nil

/-- The run of the initializer reaches a provider: it is listed, and none in front of it
throws. -/
def Call.Reaches (providers : List π) (p : π) : Call π → Prop
  | .getInstance _ => False
  | .construct H => p ∈ providers ∧ ∀ q ∈ providers.takeWhile (· ≠ p), H.initializeThrows q = false

instance (providers : List π) (p : π) : DecidablePred (Call.Reaches providers p)
  | .getInstance _ => inferInstanceAs (Decidable False)
  | .construct _ => inferInstanceAs (Decidable (_ ∧ _))

/-- A call initialises a provider once if it reaches it, and otherwise not at all. -/
theorem count_initializes {providers : List π} (hnodup : providers.Nodup) (p : π) (c : Call π) :
    (c.initializes providers).count p = if c.Reaches providers p then 1 else 0 := by
  cases c with
  | getInstance H => simp [Call.initializes, Call.Reaches]
  | construct H =>
    have hcalled := (called_initial H providers).sublist
    have hreach : (Call.construct H).Reaches providers p ↔ p ∈ called H providers := by
      by_cases hp : p ∈ providers
      · obtain ⟨front, back, rfl, hfront⟩ := List.eq_append_cons_of_mem hp
        have htake : (front ++ p :: back).takeWhile (· ≠ p) = front := by
          rw [List.takeWhile_append_of_pos, List.takeWhile_cons_of_neg (by simp),
            List.append_nil]
          intro q hq
          simpa using ne_of_mem_of_not_mem hq hfront
        rw [mem_called_iff hfront, Call.Reaches, htake, and_iff_right hp]
      · exact iff_of_false (fun h => hp h.1) fun h => hp (hcalled.subset h)
    have hone := (hnodup.sublist hcalled).count (a := p)
    simp only [Call.initializes, hone, hreach]

/-- From a fresh process, over any calls: every caller gets the manager made at the first
call, and a provider is initialised once for every run of the initializer that reaches it. -/
theorem manager_made_once (c : Call π) (cs : List (Call π)) :
    let s := (c :: cs).foldl Process.after ⟨none, []⟩
    s.theInstance = some (managerOf c.host) ∧
      ∀ p, s.initialized.count p =
        (c :: cs).countP (·.Reaches (managerOf c.host).providers p) := by
  have hrun : (c :: cs).foldl Process.after ⟨none, []⟩ = ⟨some (managerOf c.host),
      (c :: cs).flatMap (·.initializes (managerOf c.host).providers)⟩ := by
    rw [List.foldl_cons, after_first, foldl_after, List.nil_append, List.flatMap_cons]
  rw [hrun]
  refine ⟨rfl, fun p => ?_⟩
  induction c :: cs with
  | nil => rfl
  | cons c' cs' ih =>
    rw [List.flatMap_cons, List.count_append, ih, count_initializes (nodup_managerOf _),
      List.countP_cons, Nat.add_comm]
    simp only [decide_eq_true_eq]

end Managers

end IoTFS.Plugins
