import IoTFS.Oic.Configuration
import IoTFS.Oic.Discovery

/-!
# The life of the provider

`initialize` sets the daemon, configures the platform, subscribes to presence and searches
for resources, and only then marks itself as done. Each of these calls of the stack may
throw, which ends the attempt. The callbacks come from other threads, as soon as the call
they are handed to begins: while `initialize` is still under way, and after an attempt that
failed.
-/

namespace IoTFS.Oic

/-- Where the thread inside `initialize` is: the call of the stack it is in, or before the
last assignment. -/
inductive InitPc
  | outside
  | Configure
  | subscribePresence
  | findResource
  | finish
  deriving DecidableEq

/-- `OICInfoProvider`: its members, what it has registered with the stack, and the
announcements it has handled. -/
structure OICInfoProvider (ι : Type) where
  _initialized : Bool
  /-- Whether `_daemon` has been set; the constructor leaves it alone. -/
  _daemon : Bool
  _cfg : Option PlatformConfig
  pc : InitPc
  /-- The configurations handed to `OCPlatform::Configure`. -/
  configured : List PlatformConfig
  /-- The calls of `subscribePresence` and of `findResource` so far. -/
  subscriptions : Nat
  searches : Nat
  /-- The attempts that failed, and the notifications of presence that searched again. -/
  failed : Nat
  renewed : Nat
  provider : Provider ι
  handled : List (Announcement ι)
  /-- A callback has used `_daemon` before it was set. -/
  crashed : Bool

/-- What happens to the provider. -/
inductive LifeEvent (ι : Type)
  /-- `initialize` is called, with a configuration file, if one can be read. -/
  | initializes (readXml : Option Plugins.Ptree)
  /-- The next call of `initialize` returns or throws. -/
  | proceed (throws : Bool)
  /-- `presenceHandler` is called. -/
  | presence (result : Int)
  /-- `foundResource` is called. -/
  | found (a : Announcement ι)

namespace OICInfoProvider

variable {ι : Type}

/-- The constructor. -/
def construct : OICInfoProvider ι where
  _initialized := false
  _daemon := false
  _cfg := none
  pc := .outside
  configured := []
  subscriptions := 0
  searches := 0
  failed := 0
  renewed := 0
  provider := .initial
  handled := []
  crashed := false

/-- The call `initialize` is in returns and the next one begins. -/
def advance (s : OICInfoProvider ι) : Option (OICInfoProvider ι) :=
  match s.pc with
  | .outside => none
  | .Configure => some { s with
      subscriptions := s.subscriptions + 1, pc := .subscribePresence }
  | .subscribePresence => some { s with searches := s.searches + 1, pc := .findResource }
  | .findResource => some { s with pc := .finish }
  | .finish => some { s with _initialized := true, pc := .outside }

/-- The call throws; the last assignment cannot. -/
def fail (s : OICInfoProvider ι) : Option (OICInfoProvider ι) :=
  match s.pc with
  | .outside | .finish => none
  | .Configure | .subscribePresence | .findResource =>
    some { s with failed := s.failed + 1, pc := .outside }

/-- One event. A callback needs something registered to come from, and an announcement the
daemon does not survive has no successor. -/
def step [DecidableEq ι] (connectivity : OCConnectivityType) (P : Platform ι)
    (s : OICInfoProvider ι) : LifeEvent ι → Option (OICInfoProvider ι)
  | .initializes readXml =>
    if s.pc ≠ .outside then none
    else if s._initialized then some s
    else
      let _cfg := loadPlatformConfiguration connectivity readXml
      some { s with
        _daemon := true, _cfg := some _cfg, configured := s.configured ++ [_cfg], pc := .Configure }
  | .proceed throws => if throws then s.fail else s.advance
  | .presence result =>
    if s.subscriptions = 0 then none
    else if result = OC_STACK_OK then
      some { s with searches := s.searches + 1, renewed := s.renewed + 1 }
    else some s
  | .found a =>
    if s.searches = 0 then none
    else if s._daemon then
      (announce P s.provider a).map fun w =>
        { s with provider := w, handled := s.handled ++ [a] }
    else some { s with crashed := true }

variable {connectivity : OCConnectivityType} {P : Platform ι} {s s' : OICInfoProvider ι}
  {e : LifeEvent ι}

/-- What each step needs and does. -/
inductive Step [DecidableEq ι] (connectivity : OCConnectivityType) (P : Platform ι)
    (s : OICInfoProvider ι) : LifeEvent ι → OICInfoProvider ι → Prop
  /-- An initialised provider stays as it is. -/
  | again (readXml : Option Plugins.Ptree) : s.pc = .outside → s._initialized = true →
      Step connectivity P s (.initializes readXml) s
  | enter (readXml : Option Plugins.Ptree) : s.pc = .outside → s._initialized = false →
      Step connectivity P s (.initializes readXml) { s with
        _daemon := true
        _cfg := some (loadPlatformConfiguration connectivity readXml)
        configured := s.configured ++ [loadPlatformConfiguration connectivity readXml]
        pc := .Configure }
  | subscribe : s.pc = .Configure → Step connectivity P s (.proceed false) { s with
      subscriptions := s.subscriptions + 1, pc := .subscribePresence }
  | search : s.pc = .subscribePresence → Step connectivity P s (.proceed false) { s with
      searches := s.searches + 1, pc := .findResource }
  | searched : s.pc = .findResource →
      Step connectivity P s (.proceed false) { s with pc := .finish }
  | finish : s.pc = .finish → Step connectivity P s (.proceed false) { s with
      _initialized := true, pc := .outside }
  /-- A call of the stack throws. -/
  | fail : s.pc ≠ .outside → s.pc ≠ .finish → Step connectivity P s (.proceed true) { s with
      failed := s.failed + 1, pc := .outside }
  | renew (result : Int) : s.subscriptions ≠ 0 → result = OC_STACK_OK →
      Step connectivity P s (.presence result) { s with
        searches := s.searches + 1, renewed := s.renewed + 1 }
  | ignore (result : Int) : s.subscriptions ≠ 0 → result ≠ OC_STACK_OK →
      Step connectivity P s (.presence result) s
  | handle (a : Announcement ι) (w : Provider ι) : s.searches ≠ 0 → s._daemon = true →
      announce P s.provider a = some w → Step connectivity P s (.found a) { s with
        provider := w, handled := s.handled ++ [a] }
  | crash (a : Announcement ι) : s.searches ≠ 0 → s._daemon = false →
      Step connectivity P s (.found a) { s with crashed := true }

theorem step_cases [DecidableEq ι] (h : s.step connectivity P e = some s') :
    Step connectivity P s e s' := by
  cases e with
  | initializes readXml =>
    simp only [step] at h
    split at h
    · cases h
    · rename_i hpc
      split at h
      · rename_i hinit
        cases h
        exact .again readXml (not_not.mp hpc) hinit
      · rename_i hinit
        cases h
        exact .enter readXml (not_not.mp hpc) (Bool.eq_false_iff.mpr hinit)
  | proceed throws =>
    cases throws with
    | true =>
      simp only [step, if_true, OICInfoProvider.fail] at h
      split at h
      · cases h
      · cases h
      all_goals
        rename_i hpc
        cases h
        exact .fail (by rw [hpc]; decide) (by rw [hpc]; decide)
    | false =>
      simp only [step, Bool.false_eq_true, if_false, advance] at h
      split at h <;> cases h
      · exact .subscribe ‹_›
      · exact .search ‹_›
      · exact .searched ‹_›
      · exact .finish ‹_›
  | presence result =>
    simp only [step] at h
    split at h
    · cases h
    · rename_i hsub
      split at h
      · rename_i hok
        cases h
        exact .renew result hsub hok
      · rename_i hok
        cases h
        exact .ignore result hsub hok
  | found a =>
    simp only [step] at h
    split at h
    · cases h
    · rename_i hsearch
      split at h
      · rename_i hdaemon
        obtain ⟨w, hw, rfl⟩ := Option.map_eq_some_iff.mp h
        exact .handle a w hsearch hdaemon hw
      · rename_i hdaemon
        cases h
        exact .crash a hsearch (Bool.eq_false_iff.mpr hdaemon)

end OICInfoProvider

end IoTFS.Oic
