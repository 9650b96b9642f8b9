import IoTFS.Oic.Lifecycle
import IoTFS.Oic.Walk

/-!
# Starting up

A callback never comes before the daemon is set, however the attempts to initialise the
provider fail and whatever comes in between; and what the callbacks mount is what discovery
makes of the resources they are handed.
-/

namespace IoTFS.Oic

/-- An attempt is under way. -/
def InitPc.busy : InitPc → Nat
  | outside => 0
  | Configure | subscribePresence | findResource | finish => 1

/-- It has still to subscribe. -/
def InitPc.unsubscribed : InitPc → Nat
  | Configure => 1
  | outside | subscribePresence | findResource | finish => 0

/-- It has still to search. -/
def InitPc.unsearched : InitPc → Nat
  | Configure | subscribePresence => 1
  | outside | findResource | finish => 0

namespace OICInfoProvider

variable {ι : Type} {connectivity : OCConnectivityType} {P : Platform ι}
  {s s' t : OICInfoProvider ι} {e : LifeEvent ι}

/-! ### Attempts, subscriptions and searches -/

/-- How the attempts, what they have registered and the notifications add up. -/
structure Counts (s : OICInfoProvider ι) : Prop where
  outside : s._initialized = true → s.pc = .outside
  attempts : s.configured.length = s.failed + s.pc.busy + s._initialized.toNat
  subscribed : s.subscriptions + s.pc.unsubscribed ≤ s.configured.length
  subscribes : s.configured.length ≤ s.subscriptions + s.failed + s.pc.unsubscribed
  searched : s.searches + s.pc.unsearched ≤ s.configured.length + s.renewed
  searches : s.configured.length + s.renewed ≤ s.searches + s.failed + s.pc.unsearched
  renewed : s.subscriptions = 0 → s.renewed = 0

theorem counts_construct : Counts (construct : OICInfoProvider ι) where
  outside h := by cases h
  attempts := rfl
  subscribed := Nat.le_refl 0
  subscribes := Nat.le_refl 0
  searched := Nat.le_refl 0
  searches := Nat.le_refl 0
  renewed _ := rfl

variable [DecidableEq ι]

theorem Counts.step (h : Counts s) (hs : Step connectivity P s e s') : Counts s' := by
  have hinit (hpc : s.pc ≠ .outside) : s._initialized = false :=
    Bool.eq_false_iff.mpr fun hi => hpc (h.outside hi)
  obtain ⟨houtside, hattempts, hsubscribed, hsubscribes, hsearched, hsearches, hrenewed⟩ := h
  cases hs with
  | again | ignore | handle | crash =>
    exact ⟨houtside, hattempts, hsubscribed, hsubscribes, hsearched, hsearches, hrenewed⟩
  | enter readXml hpc hi =>
    simp only [hpc, hi, InitPc.busy, InitPc.unsubscribed, InitPc.unsearched, Bool.toNat_false]
      at hattempts hsubscribed hsubscribes hsearched hsearches
    constructor <;> simp only [hi, InitPc.busy, InitPc.unsubscribed, InitPc.unsearched,
      Bool.toNat_false, List.length_append, List.length_singleton]
    · rintro ⟨⟩
    all_goals omega
  | subscribe hpc | search hpc | searched hpc =>
    simp only [hpc, hinit (by rw [hpc]; decide), InitPc.busy, InitPc.unsubscribed,
      InitPc.unsearched, Bool.toNat_false] at hattempts hsubscribed hsubscribes hsearched hsearches
    constructor <;> simp only [hinit (by rw [hpc]; decide), InitPc.busy, InitPc.unsubscribed,
      InitPc.unsearched, Bool.toNat_false]
    · rintro ⟨⟩
    all_goals omega
  | finish hpc =>
    simp only [hpc, hinit (by rw [hpc]; decide), InitPc.busy, InitPc.unsubscribed,
      InitPc.unsearched, Bool.toNat_false] at hattempts hsubscribed hsubscribes hsearched hsearches
    constructor <;> simp only [InitPc.busy, InitPc.unsubscribed, InitPc.unsearched,
      Bool.toNat_true]
    · exact fun _ => trivial
    all_goals omega
  | fail hpc hpc' =>
    have hbusy : s.pc.busy = 1 := by
      cases hp : s.pc with
      | outside => exact absurd hp hpc
      | Configure | subscribePresence | findResource | finish => rfl
    rw [hbusy, hinit hpc, Bool.toNat_false] at hattempts
    have hone : s.pc.unsubscribed ≤ 1 ∧ s.pc.unsearched ≤ 1 := by cases s.pc <;> decide
    constructor <;> simp only [hinit hpc, InitPc.busy, InitPc.unsubscribed, InitPc.unsearched,
      Bool.toNat_false]
    · rintro ⟨⟩
    all_goals omega
  | renew result hsub =>
    refine ⟨houtside, hattempts, hsubscribed, hsubscribes, ?_, ?_, fun h => absurd h hsub⟩
    all_goals
      simp only
      omega

/-! ### What the callbacks find -/

/-- The daemon is set before anything can call back, and what has been mounted is what
discovery makes of the resources handled so far. -/
structure Inv (connectivity : OCConnectivityType) (P : Platform ι) (s : OICInfoProvider ι) :
    Prop where
  counts : Counts s
  daemon : s._daemon = false → s.configured = []
  loaded : ∀ cfg ∈ s.configured, ∃ readXml, cfg = loadPlatformConfiguration connectivity readXml
  discovered : discover P s.handled = some s.provider
  heard : s.searches = 0 → s.handled = []
  alive : s.crashed = false

/-- Nothing is searched for before the daemon is set. -/
theorem Inv.daemon_of_search (h : Inv connectivity P s) (hs : s.searches ≠ 0) :
    s._daemon = true := by
  by_contra hd
  have hnone := h.daemon (Bool.eq_false_iff.mpr hd)
  have hsub := h.counts.subscribed
  have hsearch := h.counts.searched
  have hrenew := h.counts.renewed
  rw [hnone, List.length_nil] at hsub hsearch
  omega

theorem Inv.step (h : Inv connectivity P s) (hs : s.step connectivity P e = some s') :
    Inv connectivity P s' := by
  have hstep := step_cases hs
  have hcounts := h.counts.step hstep
  cases hstep with
  | again | ignore => exact h
  | enter readXml =>
    refine ⟨hcounts, fun hd => (by cases hd), fun cfg hcfg => ?_, h.discovered, h.heard, h.alive⟩
    rcases List.mem_append.mp hcfg with hcfg | hcfg
    · exact h.loaded cfg hcfg
    · exact ⟨readXml, List.mem_singleton.mp hcfg⟩
  | subscribe | searched | finish | fail =>
    exact ⟨hcounts, h.daemon, h.loaded, h.discovered, h.heard, h.alive⟩
  | search | renew =>
    exact ⟨hcounts, h.daemon, h.loaded, h.discovered, fun h0 => absurd h0 (Nat.succ_ne_zero _),
      h.alive⟩
  | handle a w hsearch _ hw =>
    refine ⟨hcounts, h.daemon, h.loaded, ?_, fun h0 => absurd h0 hsearch, h.alive⟩
    rw [discover, Machine.exec_append, ← discover, h.discovered, Option.bind_some,
      Machine.exec_cons, hw]
    rfl
  | crash a hsearch hd =>
    rw [h.daemon_of_search hsearch] at hd
    cases hd

theorem inv_of_reach {ok : OICInfoProvider ι → LifeEvent ι → Prop}
    (h : Machine.Reach (step connectivity P) ok construct s) : Inv connectivity P s :=
  h.invariant (Inv connectivity P)
    ⟨counts_construct, fun _ => rfl, fun _ hm => (by cases hm), rfl, fun _ => rfl, rfl⟩
    fun _ _ _ hi _ hs => hi.step hs

/-! ### Once initialised -/

/-- Nothing but what the callbacks do has changed. -/
structure Settled (s t : OICInfoProvider ι) : Prop where
  done : t._initialized = true
  daemon : t._daemon = s._daemon
  cfg : t._cfg = s._cfg
  configured : t.configured = s.configured
  subscriptions : t.subscriptions = s.subscriptions
  searches : t.searches + s.renewed = s.searches + t.renewed

theorem Settled.step (hsettled : Settled s t) (h : Inv connectivity P t)
    (hs : t.step connectivity P e = some s') : Settled s s' := by
  have hpc := h.counts.outside hsettled.done
  cases step_cases hs with
  | again | ignore => exact hsettled
  | enter readXml _ hi =>
    rw [hsettled.done] at hi
    cases hi
  | subscribe hp | search hp | searched hp | finish hp =>
    rw [hpc] at hp
    cases hp
  | fail hp => exact absurd hpc hp
  | renew =>
    refine { hsettled with searches := ?_ }
    have hsearches := hsettled.searches
    simp only
    omega
  | handle | crash => exact { hsettled with }

/-- In every run of attempts to initialise the provider, any of whose calls may throw, and of
callbacks: no callback finds the daemon unset; what is mounted is what discovery makes of
the resources handled, and nothing before the first search; there are at most as many
configurations and subscriptions as failed attempts and one more, and beside these only
notifications search, each once. An initialised provider is never configured or subscribed
again. -/
theorem provider_lifecycle (connectivity : OCConnectivityType) (P : Platform ι)
    (s : OICInfoProvider ι)
    (h : Machine.Reach (step connectivity P) (fun _ _ => True) construct s) :
    s.crashed = false ∧ discover P s.handled = some s.provider ∧
      (s.searches = 0 → s.handled = []) ∧
      (∀ cfg ∈ s.configured, ∃ readXml, cfg = loadPlatformConfiguration connectivity readXml) ∧
      s.subscriptions ≤ s.configured.length ∧ s.configured.length ≤ s.failed + 1 ∧
      s.searches ≤ s.configured.length + s.renewed ∧
      (s._initialized = true → s.failed = 0 →
        s.configured.length = 1 ∧ s.subscriptions = 1 ∧ s.searches = 1 + s.renewed) ∧
      (s._initialized = true → ∀ t,
        Machine.Reach (step connectivity P) (fun _ _ => True) s t → Settled s t) := by
  have hinv := inv_of_reach h
  obtain ⟨houtside, hattempts, hsubscribed, hsubscribes, hsearched, hsearches, -⟩ := hinv.counts
  have hone : s.pc.busy + s._initialized.toNat ≤ 1 := by
    cases hi : s._initialized with
    | true => rw [houtside hi]; rfl
    | false => cases s.pc <;> decide
  refine ⟨hinv.alive, hinv.discovered, hinv.heard, hinv.loaded, by omega, by omega, by omega,
    fun hi hfailed => ?_, fun hi t ht => ?_⟩
  · simp only [houtside hi, hi, hfailed, InitPc.busy, InitPc.unsubscribed, InitPc.unsearched,
      Bool.toNat_true] at hattempts hsubscribed hsubscribes hsearched hsearches
    omega
  · refine (ht.invariant (fun t => Inv connectivity P t ∧ Settled s t)
      ⟨hinv, hi, rfl, rfl, rfl, rfl, rfl⟩ fun t e t' hi _ hs => ?_).2
    exact ⟨hi.1.step hs, hi.2.step hi.1 hs⟩

/-- The first attempt fails when it searches, the second succeeds; a notification searches
again, and a lamp is found. -/
def sampleStart : List (LifeEvent Str) := [
  .initializes none, .proceed false, .proceed false, .proceed true,
  .initializes none, .proceed false, .proceed false, .proceed false, .proceed false,
  .presence OC_STACK_OK]

/-- The provider has subscribed twice then, and searched three times. -/
theorem provider_lifecycle_sampleStart : ∃ s : OICInfoProvider Str,
    s.subscriptions = 2 ∧ s.searches = 3 ∧ s.handled.length = 1 ∧ s.crashed = false ∧
      s.configured.length ≤ s.failed + 1 := by
  have hrun : ((Machine.exec (step .CT_DEFAULT samplePlatform) construct sampleStart).any fun s =>
      (s.step .CT_DEFAULT samplePlatform (.found (sampleAnnouncement "hall/a/light" ["core.light"]
        (sampleReply OC_STACK_OK "power")))).any fun t =>
          t.subscriptions = 2 ∧ t.searches = 3 ∧ t.handled.length = 1) = true := by
    simp only [step, announce_eq]
    decide +kernel
  simp only [Option.any_eq_true, decide_eq_true_eq] at hrun
  obtain ⟨s, hs, t, ht, hsub, hsearch, hhandled⟩ := hrun
  have hlife := provider_lifecycle .CT_DEFAULT samplePlatform t
    (.next (.of_exec (fun _ _ _ => trivial) hs) trivial ht)
  exact ⟨t, hsub, hsearch, hhandled, hlife.1, hlife.2.2.2.2.2.1⟩

end OICInfoProvider

end IoTFS.Oic
