import IoTFS.Core.Progress
import IoTFS.Requests.Serial
import Mathlib.Algebra.GroupWithZero.Nat

/-!
# Calls run to completion

A call starts when it takes `_m_rw`. Once no new call starts and no wake-up is spurious, every
step of a stub uses up what the call under way and the replies still have to do. The stub then
settles, and it settles with every thread outside unless a caller was refused or has lost its
wake-up.
-/

namespace IoTFS.Oic

variable {τ : Type} {s s' : StubState τ} {e : StubEvent τ} {t : τ}

/-- A step of a call under way or of a reply: no call starts and no wake-up is spurious. -/
def StubEvent.settles : StubEvent τ → Bool
  | .acquire _ | .wake _ => false
  | _ => true

/-! ### What is left to do -/

/-- The steps a reply has still to take, and those it makes its caller take again. -/
def Phase.cost : Phase → Nat
  | inFlight => 6
  | ran => 5
  | cleared => 4
  | resumed => 0

/-- The steps a thread has still to take if it is not woken before its time. -/
def Pc.cost : Pc → Nat
  | idle => 0
  | unlocked _ => 1
  | leaving _ => 2
  | parked _ => 3
  | parking _ => 4
  | testing _ => 5
  | waiting _ | woken _ => 6
  | sending _ => 7
  | armed => 14
  | owning => 15

/-- What the replies to some requests have still to do. -/
def replyCost (requests : List (StubRequest τ)) : Nat :=
  (requests.map fun q => q.phase.cost).sum

/-- What the replies and the thread inside have still to do. -/
def StubState.budget (s : StubState τ) : Nat :=
  replyCost s.requests + (s.m_rw.map fun t => (s.pc t).cost).getD 0

/-- Where a thread is inside, the budget is its cost and that of the replies. -/
theorem StubInv.budget_eq (h : StubInv s) {x : Pc} (hx : s.pc t = x) (hne : x ≠ .idle) :
    s.budget = replyCost s.requests + x.cost := by
  have howner := h.holder t (hx.symm ▸ hne)
  rw [StubState.budget, howner, ← hx]
  rfl

/-- Replacing an element shifts a sum by the difference. -/
theorem sum_map_set {α : Type} (f : α → Nat) {l : List α} {n : Nat} {a b : α}
    (h : l[n]? = some a) : ((l.set n b).map f).sum + f a = (l.map f).sum + f b := by
  induction l generalizing n with
  | nil => cases h
  | cons c l ih =>
    cases n with
    | zero =>
      cases h
      simp only [List.set_cons_zero, List.map_cons, List.sum_cons]
      omega
    | succ n =>
      have hrest := ih h
      simp only [List.set_cons_succ, List.map_cons, List.sum_cons]
      omega

/-- Advancing a reply replaces what it had to do. -/
theorem replyCost_advance {n : Nat} {q : StubRequest τ} (hq : s.requests[n]? = some q) (t : τ)
    (phase : Phase) :
    replyCost (s.advance n t phase) + q.phase.cost = replyCost s.requests + phase.cost :=
  sum_map_set _ hq

/-- A timely step is no refusal. -/
theorem accepted_of_timely (s : StubState τ) (e : StubEvent τ) (h : Timely s e) :
    e.accepted = true := by
  cases e with
  | refuse t => exact absurd h id
  | _ => rfl

variable [DecidableEq τ]

/-- Moving the thread inside lowers the budget by what it and the replies have done. -/
theorem StubInv.budget_lt_of_goto (h : StubInv s) {x y : Pc} (hx : s.pc t = x) (hne : x ≠ .idle)
    (hpc : s'.pc = s.goto t y) (hrw : s'.m_rw = s.m_rw)
    (hlow : y.cost + replyCost s'.requests < x.cost + replyCost s.requests) :
    s'.budget < s.budget := by
  have howner := h.holder t (hx.symm ▸ hne)
  rw [h.budget_eq hx hne]
  simp only [StubState.budget, hrw, howner, hpc, Option.map_some, Option.getD_some, goto_apply,
    if_true]
  omega

/-- Every step that settles uses up some of the budget. -/
theorem StubInv.budget_lt (h : StubInv s) (hs : StubStep s e s') (hsettles : e.settles = true) :
    s'.budget < s.budget := by
  cases hs with
  | acquire | wake => cases hsettles
  | raise u hpc | refuse u hpc | sendReturn u n hpc | lock u r hpc | testUp u r hpc
  | testDown u r hpc | park u r hpc | relock u r hpc | unlock u r hpc =>
    refine h.budget_lt_of_goto hpc (by simp) rfl rfl ?_
    simp only [Pc.cost]
    omega
  | send u hpc =>
    refine h.budget_lt_of_goto hpc (by simp) rfl rfl ?_
    simp only [Pc.cost, replyCost, List.map_append, List.sum_append, List.map_singleton,
      List.sum_singleton, Phase.cost]
    omega
  | release u r hpc =>
    rw [h.budget_eq hpc (by simp)]
    simp [StubState.budget, Pc.cost]
  | callback n u hreq =>
    have hadv := replyCost_advance hreq u .ran
    simp only [StubState.budget, Phase.cost] at hadv ⊢
    omega
  | clear n u hreq =>
    have hadv := replyCost_advance hreq u .cleared
    simp only [StubState.budget, Phase.cost] at hadv ⊢
    omega
  | notifyNone n u hreq hcv =>
    have hadv := replyCost_advance hreq u .resumed
    simp only [StubState.budget, Phase.cost] at hadv ⊢
    omega
  | notifyOne n u v r hreq hpc =>
    have hadv := replyCost_advance hreq u .resumed
    refine h.budget_lt_of_goto hpc (by simp) rfl rfl ?_
    simp only [Pc.cost, Phase.cost] at hadv ⊢
    omega

/-- The budget is a variant of the steps that settle. -/
theorem budget_variant : Machine.Variant StubState.step (fun _ e => e.settles = true)
    (fun s : StubState τ => StubInv s) StubState.budget where
  keeps _ _ _ h _ hs := h.step hs
  lowers _ _ _ h he hs := h.budget_lt (stubStep_of_step hs) he

/-! ### Where the stub settles -/

/-- No step is left but a new call or a spurious wake-up. -/
abbrev StubState.Settled (s : StubState τ) : Prop :=
  Machine.Settled StubState.step (fun _ e => e.settles = true) s

/-- A reply that has not notified has a step to take. -/
theorem StubInv.reply_enabled (h : StubInv s) {n : Nat} {q : StubRequest τ}
    (hq : s.requests[n]? = some q) (hne : q.phase ≠ .resumed) :
    ∃ e, e.settles = true ∧ s.step e ≠ none := by
  obtain ⟨u, phase⟩ := q
  cases phase with
  | inFlight => exact ⟨.callback n, rfl, by simp [StubState.step, hq]⟩
  | ran => exact ⟨.clear n, rfl, by simp [StubState.step, hq]⟩
  | cleared =>
    cases hcv : s.cv with
    | nil => exact ⟨.notify n none, rfl, by simp [StubState.step, StubState.notifyOne, hq, hcv]⟩
    | cons v cv =>
      have hmem : v ∈ s.cv := hcv ▸ List.mem_cons_self ..
      have hparked := (h.onCv v).mp hmem
      refine ⟨.notify n (some v), rfl, ?_⟩
      unfold Pc.isParked at hparked
      split at hparked
      · rename_i r hpc
        simp [StubState.step, StubState.notifyOne, StubState.unpark, hq, hpc, hmem]
      · cases hparked
  | resumed => exact absurd rfl hne

/-- A thread inside that is not parked has a step to take. -/
theorem LocksInv.thread_enabled (hl : LocksInv s) (h : StubInv s) (hne : s.pc t ≠ .idle)
    (hparked : (s.pc t).isParked = false) : ∃ e, e.settles = true ∧ s.step e ≠ none := by
  have hfree := hl.m_free h hne
  cases hpc : s.pc t with
  | idle => exact absurd hpc hne
  | parked r =>
    rw [hpc] at hparked
    cases hparked
  | owning => exact ⟨.raise t, rfl, by simp [StubState.step, hpc]⟩
  | armed => exact ⟨.send t, rfl, by simp [StubState.step, hpc]⟩
  | sending n => exact ⟨.sendReturn t, rfl, by simp [StubState.step, hpc]⟩
  | waiting r =>
    rw [hpc] at hfree
    exact ⟨.lock t, rfl, by simp [StubState.step, hpc, hfree rfl]⟩
  | testing r => exact ⟨.test t, rfl, by simp [StubState.step, hpc]⟩
  | parking r => exact ⟨.park t, rfl, by simp [StubState.step, hpc]⟩
  | woken r =>
    rw [hpc] at hfree
    exact ⟨.relock t, rfl, by simp [StubState.step, hpc, hfree rfl]⟩
  | leaving r => exact ⟨.unlock t, rfl, by simp [StubState.step, hpc]⟩
  | unlocked r => exact ⟨.release t, rfl, by simp [StubState.step, hpc]⟩

/-- The stub has settled when every reply is resumed and every thread is outside or parked. -/
theorem LocksInv.settled_iff (hl : LocksInv s) (h : StubInv s) : s.Settled ↔
    (∀ q ∈ s.requests, q.phase = .resumed) ∧
      ∀ t, s.pc t = .idle ∨ (s.pc t).isParked = true := by
  constructor
  · intro hset
    have hstuck (e : StubEvent τ) (he : e.settles = true ∧ s.step e ≠ none) : False :=
      he.2 (hset e he.1)
    constructor
    · intro q hq
      by_contra hne
      obtain ⟨n, hn⟩ := List.mem_iff_getElem?.mp hq
      obtain ⟨e, he⟩ := h.reply_enabled hn hne
      exact hstuck e he
    · intro t
      by_contra hno
      obtain ⟨hidle, hparked⟩ := not_or.mp hno
      obtain ⟨e, he⟩ := hl.thread_enabled h hidle (eq_false_of_ne_true hparked)
      exact hstuck e he
  · rintro ⟨hres, hthreads⟩ e he
    by_contra hsome
    obtain ⟨s', hs'⟩ := Option.ne_none_iff_exists'.mp hsome
    cases stubStep_of_step hs' with
    | acquire | wake => cases he
    | callback n u hq | clear n u hq | notifyNone n u hq hcv | notifyOne n u v r hq hpc =>
      cases hres _ (List.mem_of_getElem? hq)
    | raise u hpc | send u hpc | refuse u hpc | sendReturn u n hpc | lock u r hpc
    | testUp u r hpc | testDown u r hpc | park u r hpc | relock u r hpc | unlock u r hpc
    | release u r hpc =>
      rcases hthreads u with hu | hu
      · rw [hpc] at hu
        cases hu
      · rw [hpc] at hu
        cases hu

/-! ### Every run settles -/

/-- A stub that has settled is at rest unless a caller was left parked, because it lost its
wake-up or was refused. -/
theorem settled_cases (h : Machine.Reach StubState.step (fun _ _ => True) .initial s)
    (hset : s.Settled) :
    s.AtRest ∨ ∃ t, (s.pc t).isParked = true ∧ (LostWakeup s ∨ Refused s t) := by
  have hinv := stubInv_of_reach h
  have hl := locksInv_of_reach h
  obtain ⟨hres, hthreads⟩ := (hl.settled_iff hinv).mp hset
  by_cases hidle : ∀ t, s.pc t = .idle
  · exact Or.inl (hl.atRest hidle hres)
  · obtain ⟨t, ht⟩ := not_forall.mp hidle
    have hparked := (hthreads t).resolve_left ht
    refine Or.inr ⟨t, hparked, ?_⟩
    unfold Pc.isParked at hparked
    split at hparked
    · rename_i r hpc
      exact (refusalInv_of_reach h).parked_cases hinv hpc hres
    · cases hparked

/-- From every state of every run: without new calls (a call starts when it takes `_m_rw`) and
spurious wake-ups the stub takes no more steps than its budget and some run of them settles it.
Where it settles, it is at rest unless a wake-up was lost or a request refused. -/
theorem calls_settle (s : StubState τ)
    (h : Machine.Reach StubState.step (fun _ _ => True) .initial s) :
    (∃ es s', Machine.Run StubState.step (fun _ e => e.settles = true) s es s' ∧ s'.Settled) ∧
      ∀ es s', Machine.Run StubState.step (fun _ e => e.settles = true) s es s' →
        es.length ≤ s.budget ∧
          (s'.Settled → s'.AtRest ∨ LostWakeup s' ∨ ∃ t, Refused s' t) := by
  have hinv := stubInv_of_reach h
  refine ⟨budget_variant.settles hinv, fun es s' hrun => ⟨?_, fun hset => ?_⟩⟩
  · have hle := budget_variant.length_add_le hinv hrun
    omega
  · have h' := h.trans (hrun.reach.mono fun _ _ _ => trivial)
    rcases settled_cases h' hset with hrest | ⟨t, -, hlost | href⟩
    · exact Or.inl hrest
    · exact Or.inr (Or.inl hlost)
    · exact Or.inr (Or.inr ⟨t, href⟩)

/-- Thread 0 has sent its request. -/
def sampleSent : List (StubEvent Nat) := [.acquire 0, .raise 0, .send 0]

theorem calls_settle_sampleSent : ∃ s : StubState Nat,
    Machine.exec StubState.step .initial sampleSent = some s ∧ s.budget = 13 ∧
      ∃ es s', Machine.Run StubState.step (fun _ e => e.settles = true) s es s' ∧ s'.Settled := by
  have hrun : ((Machine.exec StubState.step (.initial : StubState Nat) sampleSent).any fun s =>
      s.budget = 13) = true := by decide
  obtain ⟨s, hs, hbudget⟩ := (Option.any_eq_true _ _).mp hrun
  refine ⟨s, hs, of_decide_eq_true hbudget, (calls_settle s ?_).1⟩
  exact .of_exec (fun _ _ _ => trivial) hs

/-! ### What becomes of a caller left parked -/

omit [DecidableEq τ] in
/-- The request of a parked caller whose reply is done has lowered the flag. -/
theorem StubInv.flag_down (h : StubInv s) {n : Nat} (hpc : s.pc t = .parked (some n))
    (hres : ∀ q ∈ s.requests, q.phase = .resumed) : s.isWaiting = false := by
  have hr : (s.pc t).request = some n := by rw [hpc]; rfl
  obtain ⟨q, hq, -⟩ := Option.map_eq_some_iff.mp (h.sent t n hr)
  by_contra hup
  have hout := h.up t n q hr hq (eq_true_of_ne_false hup)
  rw [hres q (List.mem_of_getElem? hq)] at hout
  cases hout

/-- A refused caller keeps every other call from returning. -/
theorem Refused.returns_eq (hr : Refused s t) (h : StubInv s) (hs : StubStep s e s') :
    s'.returns = s.returns := by
  cases hs with
  | release u r hpc =>
    obtain rfl : u = t := h.unique (by simp [hpc]) (Pc.ne_idle_of_isRefused hr.pc)
    have hrefused := hr.pc
    rw [hpc] at hrefused
    cases hrefused
  | _ => rfl

/-- Whatever happens after a refusal, the refused caller keeps `_m_rw` and no call returns. -/
theorem Refused.of_exec (hr : Refused s t) (h : StubInv s) {es : List (StubEvent τ)}
    (hrun : Machine.exec StubState.step s es = some s') :
    s'.m_rw = some t ∧ s'.returns = s.returns := by
  have hreach : Machine.Reach StubState.step (fun _ _ => True) s s' :=
    .of_exec (fun _ _ _ => trivial) hrun
  have hend : StubInv s' ∧ Refused s' t ∧ s'.returns = s.returns := by
    refine hreach.invariant (fun v => StubInv v ∧ Refused v t ∧ v.returns = s.returns)
      ⟨h, hr, rfl⟩ ?_
    rintro v e w ⟨hv, hrv, hret⟩ - hstep
    have hs := stubStep_of_step hstep
    exact ⟨hv.step hstep, hrv.step hv hs, (hrv.returns_eq hv hs).trans hret⟩
  exact ⟨hend.1.holder t (Pc.ne_idle_of_isRefused hend.2.1.pc), hend.2.2⟩

/-- The steps of a caller that is woken and finds the flag down. -/
def leaveEvents (t : τ) : List (StubEvent τ) :=
  [.wake t, .relock t, .test t, .unlock t, .release t]

/-- A parked caller that is woken with the flag down returns. -/
theorem exec_leaveEvents {r : Option Nat} (hpc : s.pc t = .parked r) (hcv : t ∈ s.cv)
    (hm : s.m = none) (hflag : s.isWaiting = false) :
    Machine.exec StubState.step s (leaveEvents t) = some { s with
      m_rw := none, m := none, cv := s.cv.filter (· ≠ t), returns := s.returns ++ [(t, r)]
      pc := s.goto t .idle } := by
  simp [leaveEvents, StubState.step, StubState.unpark, hpc, hcv, hm, hflag, StubState.goto]

/-- Where a stub has settled with a caller parked, nothing can happen but that caller waking up
for no reason: every other thread is kept out for good. If the caller lost its wake-up, waking
up lets it return and leaves the stub at rest; if it was refused, it never returns. -/
theorem parked_for_good (s : StubState τ)
    (h : Machine.Reach StubState.step (fun _ _ => True) .initial s) (hset : s.Settled) (t : τ)
    (r : Option Nat) (hpc : s.pc t = .parked r) :
    (∀ e s', s.step e = some s' → e = .wake t) ∧
      (∀ n, r = some n → ∃ s', Machine.exec StubState.step s (leaveEvents t) = some s' ∧
        s'.AtRest ∧ s'.returns = s.returns ++ [(t, some n)]) ∧
      (r = none → ∀ es s', Machine.exec StubState.step s es = some s' →
        s'.m_rw = some t ∧ s'.returns = s.returns) := by
  have hinv := stubInv_of_reach h
  have hl := locksInv_of_reach h
  obtain ⟨hres, -⟩ := (hl.settled_iff hinv).mp hset
  have hinside : s.pc t ≠ .idle := by simp [hpc]
  refine ⟨fun e s' hs => ?_, fun n hr => ?_, fun hr es s' hrun => ?_⟩
  · by_cases he : e.settles = true
    · rw [hset e he] at hs
      cases hs
    · cases stubStep_of_step hs with
      | acquire u hidle hfree =>
        have howner := hinv.holder t hinside
        rw [hfree] at howner
        cases howner
      | wake u r' hu =>
        obtain rfl : u = t := hinv.unique (by simp [hu]) hinside
        rfl
      | _ => exact absurd rfl he
  · subst hr
    have hcv : t ∈ s.cv := (hinv.onCv t).mpr (by rw [hpc]; rfl)
    have hrun := exec_leaveEvents hpc hcv (hl.m_free hinv hinside (by rw [hpc]; rfl))
      (hinv.flag_down hpc hres)
    refine ⟨_, hrun, ⟨fun u => ?_, rfl, rfl, hres⟩, rfl⟩
    change s.goto t .idle u = .idle
    rw [goto_apply]
    split
    · rfl
    · by_contra hu
      exact absurd (hinv.unique hu hinside) ‹_›
  · subst hr
    have href : (s.pc t).isRefused = true := by rw [hpc]; rfl
    exact Refused.of_exec ⟨href, (refusalInv_of_reach h).flag t href⟩ hinv hrun

theorem parked_for_good_sampleLoss : ∃ s : StubState Nat,
    Machine.exec StubState.step .initial sampleLoss = some s ∧
      (∀ e s', s.step e = some s' → e = .wake 0) ∧
      ∃ s', Machine.exec StubState.step s (leaveEvents 0) = some s' ∧ s'.AtRest := by
  have hrun : ((Machine.exec StubState.step (.initial : StubState Nat) sampleLoss).any fun s =>
      s.pc 0 = .parked (some 0) ∧ s.requests = [⟨0, .resumed⟩]) = true := by decide
  obtain ⟨s, hs, hend⟩ := (Option.any_eq_true _ _).mp hrun
  obtain ⟨hpc, hreq⟩ := of_decide_eq_true hend
  have hreach : Machine.Reach StubState.step (fun _ _ => True) .initial s :=
    .of_exec (fun _ _ _ => trivial) hs
  have hinv := stubInv_of_reach hreach
  have hset : s.Settled := by
    refine ((locksInv_of_reach hreach).settled_iff hinv).mpr ⟨?_, fun u => ?_⟩
    · simp [hreq]
    · by_cases hu : s.pc u = .idle
      · exact Or.inl hu
      · obtain rfl : u = 0 := hinv.unique hu (by simp [hpc])
        exact Or.inr (by rw [hpc]; rfl)
  obtain ⟨hwake, hlost, -⟩ := parked_for_good s hreach hset 0 (some 0) hpc
  obtain ⟨s', hleave, hrest, -⟩ := hlost 0 rfl
  exact ⟨s, hs, hwake, s', hleave, hrest⟩

/-! ### Timely notifications -/

/-- In a timely run whoever is about to park, or parked, has its notification to come. -/
theorem awaited_of_reach (h : Machine.Reach StubState.step Timely .initial s) : Awaited s := by
  have hboth : StubInv s ∧ Awaited s := by
    refine h.invariant (fun s => StubInv s ∧ Awaited s) ⟨stubInv_initial, fun t n q ht => ?_⟩ ?_
    · rcases ht with ht | ht <;> cases ht
    · rintro s e s' ⟨hs, ha⟩ htimely hstep
      exact ⟨hs.step hstep, ha.step hs htimely (stubStep_of_step hstep)⟩
  exact hboth.2

/-- A step that settles the stub, and is timely. -/
def TimelySettles (s : StubState τ) (e : StubEvent τ) : Prop := Timely s e ∧ e.settles = true

/-- Where a refusal or an untimely notification could happen, so could a timely step. -/
theorem settled_of_timely (hset : Machine.Settled StubState.step TimelySettles s) :
    s.Settled := by
  intro e he
  by_contra hsome
  obtain ⟨s', hs'⟩ := Option.ne_none_iff_exists'.mp hsome
  cases e with
  | refuse t =>
    cases stubStep_of_step hs' with
    | refuse _ hpc =>
      have hsend := hset (.send t) ⟨trivial, rfl⟩
      simp [StubState.step, hpc] at hsend
  | notify n woken =>
    by_cases htimely : Timely s (.notify n woken)
    · exact hsome (hset _ ⟨htimely, he⟩)
    · simp only [Timely, not_forall, not_not] at htimely
      obtain ⟨q, -, hpc⟩ := htimely
      have hpark := hset (.park q.caller) ⟨trivial, rfl⟩
      simp [StubState.step, hpc] at hpark
  | _ => exact hsome (hset _ ⟨trivial, he⟩)

/-- A stub that settles in a timely run is at rest, and every request has been returned with
by its caller. -/
theorem atRest_of_timely (h : Machine.Reach StubState.step Timely .initial s)
    (hset : s.Settled) :
    s.AtRest ∧ s.returns = s.requests.mapIdx fun n q => (q.caller, some n) := by
  have hrest : s.AtRest := by
    rcases settled_cases (h.mono fun _ _ _ => trivial) hset with hrest | ⟨t, -, hlost | href⟩
    · exact hrest
    · obtain ⟨u, n, q, hu, hq, hphase⟩ := hlost
      exact absurd hphase (awaited_of_reach h u n q (Or.inr hu) hq)
    · have hinv := stubInv_of_reach h
      have hacc := ownRequests_of_reach (h.mono accepted_of_timely)
      exact absurd (href.waitsInVain hinv) (hacc.not_waitsInVain hinv t)
  refine ⟨hrest, ?_⟩
  have hser := serial_of_reach h
  have hret := hser.returns_eq
  rwa [← hser.level fun t => by rw [hrest.idle t]; rfl, List.take_length] at hret

/-- From every state of a run in which sends are accepted and notifications timely: as long as
this goes on, no new call starts and no wake-up is spurious, every call under way returns,
whatever the schedule. The stub comes to rest within its budget of steps, and by then every
request has been answered and returned with by its caller, in order. -/
theorem calls_return_of_timely (s : StubState τ)
    (h : Machine.Reach StubState.step Timely .initial s) :
    (∃ es s', Machine.Run StubState.step TimelySettles s es s' ∧
        Machine.Settled StubState.step TimelySettles s') ∧
      ∀ es s', Machine.Run StubState.step TimelySettles s es s' →
        es.length ≤ s.budget ∧
          (Machine.Settled StubState.step TimelySettles s' → s'.AtRest ∧
            s'.returns = s'.requests.mapIdx fun n q => (q.caller, some n)) := by
  have hinv := stubInv_of_reach h
  have hv : Machine.Variant StubState.step TimelySettles (fun s : StubState τ => StubInv s)
      StubState.budget := budget_variant.restrict fun _ _ he => he.2
  refine ⟨hv.settles hinv, fun es s' hrun => ⟨?_, fun hset => ?_⟩⟩
  · have hle := hv.length_add_le hinv hrun
    omega
  · exact atRest_of_timely (h.trans (hrun.reach.mono fun _ _ he => he.1))
      (settled_of_timely hset)

theorem calls_return_of_timely_sampleSent : ∃ s : StubState Nat,
    Machine.exec (Machine.guarded StubState.step Timely) .initial sampleSent = some s ∧
      ∃ es s', Machine.Run StubState.step TimelySettles s es s' ∧
        Machine.Settled StubState.step TimelySettles s' := by
  have hrun : (Machine.exec (Machine.guarded StubState.step Timely) (.initial : StubState Nat)
      sampleSent).isSome = true := by decide
  obtain ⟨s, hs⟩ := Option.isSome_iff_exists.mp hrun
  exact ⟨s, hs, (calls_return_of_timely s (.of_guarded hs)).1⟩

end IoTFS.Oic
