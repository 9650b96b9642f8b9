import IoTFS.Oic.ResourceLock
import IoTFS.Requests.Matching

/-!
# Requests the stack refuses

The flag goes up before the send and only a reply lowers it. A refused request has no reply,
so its caller waits with the flag up and keeps `_m_rw`, and with it `_resourceLock` if it
came from discovery. As long as no request is refused, whoever waits with the flag up has a
request of its own outstanding.
-/

namespace IoTFS.Oic

variable {τ : Type} {s s' : StubState τ} {e : StubEvent τ} {t : τ}

/-- The thread is in `wait`. -/
def Pc.inWait : Pc → Bool
  | waiting _ | testing _ | parking _ | parked _ | woken _ | leaving _ => true
  | idle | owning | armed | sending _ | unlocked _ => false

/-- The thread was refused, and is in `wait` before it has seen the flag down. -/
def Pc.isRefused : Pc → Bool
  | waiting none | testing none | parking none | parked none | woken none => true
  | _ => false

theorem Pc.ne_idle_of_isRefused {x : Pc} (h : x.isRefused = true) : x ≠ .idle := by
  rintro rfl
  cases h

theorem Pc.request_of_isRefused {x : Pc} (h : x.isRefused = true) : x.request = none := by
  unfold isRefused at h
  split at h <;> first | rfl | cases h

theorem Pc.inWait_of_isRefused {x : Pc} (h : x.isRefused = true) : x.inWait = true := by
  unfold isRefused at h
  split at h <;> first | rfl | cases h

theorem StubEvent.eq_refuse {e : StubEvent τ} (h : ¬ e.accepted = true) : ∃ t, e = .refuse t := by
  cases e with
  | refuse t => exact ⟨t, rfl⟩
  | _ => exact absurd rfl h

/-- A thread is in `wait` with the flag up, and none of its requests is accepted and not yet
answered. -/
structure WaitsInVain (s : StubState τ) (t : τ) : Prop where
  inWait : (s.pc t).inWait = true
  flag : s.isWaiting = true
  answered : ∀ q ∈ s.requests, q.caller = t → q.phase.outstanding = false

/-! ### A refused request -/

/-- A thread that was refused, and the flag it raised. -/
structure Refused (s : StubState τ) (t : τ) : Prop where
  pc : (s.pc t).isRefused = true
  flag : s.isWaiting = true

/-- Nothing is outstanding on the stub then. -/
theorem Refused.waitsInVain (h : Refused s t) (hinv : StubInv s) : WaitsInVain s t := by
  refine ⟨Pc.inWait_of_isRefused h.pc, h.flag, fun q hq _ => ?_⟩
  obtain ⟨n, hn⟩ := List.mem_iff_getElem?.mp hq
  exact hinv.none_outstanding (Pc.ne_idle_of_isRefused h.pc) (Pc.request_of_isRefused h.pc) hn

/-- While every request is accepted, whoever waits with the flag up has one outstanding. -/
theorem OwnRequests.not_waitsInVain (h : OwnRequests s) (hinv : StubInv s) (t : τ) :
    ¬ WaitsInVain s t := by
  rintro ⟨hwait, hflag, hanswered⟩
  have hpc := h.pc t
  obtain ⟨n, hn⟩ : ∃ n, (s.pc t).request = some n := by
    cases hx : s.pc t with
    | idle | owning | armed | sending | unlocked =>
      rw [hx] at hwait
      cases hwait
    | waiting r | testing r | parking r | parked r | woken r | leaving r =>
      rw [hx] at hpc
      exact Option.isSome_iff_exists.mp hpc
  obtain ⟨q, hq, hcaller⟩ := Option.map_eq_some_iff.mp (hinv.sent t n hn)
  have hup := hinv.up t n q hn hq hflag
  rw [hanswered q (List.mem_of_getElem? hq) hcaller] at hup
  cases hup

variable [DecidableEq τ]

/-- The thread stays where the flag keeps it: nobody else is inside to move, and no reply is
left to lower the flag. -/
theorem Refused.step (h : Refused s t) (hinv : StubInv s) (hs : StubStep s e s') :
    Refused s' t := by
  have hpc := h.pc
  have hflag := h.flag
  have hinside := Pc.ne_idle_of_isRefused hpc
  have hself {u : τ} {x : Pc} (hu : s.pc u = x) (hx : x ≠ .idle) : u = t :=
    hinv.unique (hu.symm ▸ hx) hinside
  cases hs with
  | acquire u hidle hfree =>
    have howner := hinv.holder t hinside
    rw [hfree] at howner
    cases howner
  | clear n u hq =>
    have hnone := hinv.none_outstanding hinside (Pc.request_of_isRefused hpc) hq
    cases hnone
  | testDown u r hu hw =>
    rw [hflag] at hw
    cases hw
  | callback | notifyNone => exact ⟨hpc, hflag⟩
  | raise u hu | send u hu | refuse u hu | sendReturn u n hu | unlock u r hu | release u r hu =>
    obtain rfl := hself hu (by simp)
    rw [hu] at hpc
    cases hpc
  | lock u r hu | testUp u r hu | park u r hu | wake u r hu | relock u r hu
  | notifyOne n v u r hq hu =>
    obtain rfl := hself hu (by simp)
    rw [hu] at hpc
    cases r with
    | none => exact ⟨by simp [goto_apply, Pc.isRefused], hflag⟩
    | some n => cases hpc

/-- So it begins. -/
theorem refused_of_refuse (hinv : StubInv s) (hs : StubStep s (.refuse t) s') : Refused s' t := by
  cases hs with
  | refuse _ hpc => exact ⟨by simp [goto_apply, Pc.isRefused], hinv.armed t hpc⟩

/-! ### Runs under the lock of discovery -/

/-- A run under the lock is a run of the stub, with the same requests refused. -/
theorem reach_stub {ok : StubEvent τ → Prop} {es : List (LockedEvent τ)} {s : LockedStub τ}
    (hok : ∀ e, .stub e ∈ es → ok e)
    (h : Machine.exec LockedStub.step .initial es = some s) :
    Machine.Reach StubState.step (fun _ e => ok e) .initial s.stub := by
  have hreach : Machine.Reach LockedStub.step (fun _ e => ∀ e', e = .stub e' → ok e') .initial s :=
    .of_exec (fun e he _ e' heq => hok e' (by rwa [← heq])) h
  refine hreach.simulate LockedStub.stub fun s e s' hok hs => ?_
  cases LockedStub.step_cases hs with
  | found | done => exact Or.inl rfl
  | stub e stub hstub => exact Or.inr ⟨e, hok e rfl, hstub⟩

/-- The stub of any run keeps its invariant. -/
theorem stubInv_of_exec {es : List (LockedEvent τ)} {s : LockedStub τ}
    (h : Machine.exec LockedStub.step .initial es = some s) : StubInv s.stub := by
  have hreach : Machine.Reach StubState.step (fun _ _ => True) .initial s.stub :=
    reach_stub (fun _ _ => trivial) h
  exact stubInv_of_reach hreach

/-- A thread that was refused never gets out, nor gives `_resourceLock` back. -/
theorem refused_of_exec {es : List (LockedEvent τ)} {v s : LockedStub τ} (hinv : StubInv v.stub)
    (hr : Refused v.stub t) (h : Machine.exec LockedStub.step v es = some s) :
    StubInv s.stub ∧ Refused s.stub t ∧
      (v.resourceLock = some t → s.resourceLock = some t) := by
  have hreach : Machine.Reach LockedStub.step (fun _ _ => True) v s :=
    .of_exec (fun _ _ _ => trivial) h
  refine hreach.invariant (fun s => StubInv s.stub ∧ Refused s.stub t ∧
    (v.resourceLock = some t → s.resourceLock = some t)) ⟨hinv, hr, id⟩ ?_
  rintro s e s' ⟨hinv, hr, hlock⟩ - hs
  cases LockedStub.step_cases hs with
  | found u hidle hfree =>
    refine ⟨hinv, hr, fun hv => ?_⟩
    have howner := hlock hv
    rw [hfree] at howner
    cases howner
  | stub e stub hstub => exact ⟨hinv.step hstub, hr.step hinv (stubStep_of_step hstub), hlock⟩
  | done u hidle howner =>
    refine ⟨hinv, hr, fun hv => ?_⟩
    obtain rfl : u = t := Option.some.inj (howner.symm.trans (hlock hv))
    exact absurd hidle (Pc.ne_idle_of_isRefused hr.pc)

/-- A caller that is refused waits in vain ever after, and keeps the locks it had. -/
theorem waitsInVain_of_refuse {pre post : List (LockedEvent τ)} {v s : LockedStub τ}
    (hpre : Machine.exec LockedStub.step .initial pre = some v)
    (h : Machine.exec LockedStub.step v (.stub (.refuse t) :: post) = some s) :
    WaitsInVain s.stub t ∧ s.stub.m_rw = some t ∧
      (v.resourceLock = some t → s.resourceLock = some t) := by
  obtain ⟨u, hu, hpost⟩ := Option.bind_eq_some_iff.mp h
  have hinv := stubInv_of_exec hpre
  cases LockedStub.step_cases hu with
  | stub _ stub hstub =>
    have hr := refused_of_refuse hinv (stubStep_of_step hstub)
    obtain ⟨hinv', hr', hlock⟩ := refused_of_exec (hinv.step hstub) hr hpost
    exact ⟨hr'.waitsInVain hinv', hinv'.holder t (Pc.ne_idle_of_isRefused hr'.pc), hlock⟩

/-- In a run no caller ever waits in vain exactly when every request is accepted. A caller
that is refused waits in vain from then on; it keeps `_m_rw`, and `_resourceLock` if it was
called under it. -/
theorem never_waits_in_vain_iff (es : List (LockedEvent τ)) (s : LockedStub τ)
    (h : Machine.exec LockedStub.step .initial es = some s) :
    ((∀ pre v, pre <+: es → Machine.exec LockedStub.step .initial pre = some v →
        ∀ t, ¬ WaitsInVain v.stub t) ↔ ∀ e, .stub e ∈ es → e.accepted = true) ∧
      ∀ pre t v, pre ++ [.stub (.refuse t)] <+: es →
        Machine.exec LockedStub.step .initial pre = some v →
          WaitsInVain s.stub t ∧ s.stub.m_rw = some t ∧
            (v.resourceLock = some t → s.resourceLock = some t) := by
  have hrefused (pre post : List (LockedEvent τ)) (t : τ)
      (hes : es = pre ++ .stub (.refuse t) :: post) (v : LockedStub τ)
      (hpre : Machine.exec LockedStub.step .initial pre = some v) :
      WaitsInVain s.stub t ∧ s.stub.m_rw = some t ∧
        (v.resourceLock = some t → s.resourceLock = some t) := by
    rw [hes, Machine.exec_append_eq_some] at h
    obtain ⟨v', hv', hpost⟩ := h
    rw [hpre] at hv'
    cases hv'
    exact waitsInVain_of_refuse hpre hpost
  refine ⟨⟨fun hnever e he => ?_, fun hacc pre v hpre hv t => ?_⟩, fun pre t v hpre hv => ?_⟩
  · by_contra hno
    obtain ⟨t, rfl⟩ := StubEvent.eq_refuse hno
    obtain ⟨pre, post, rfl⟩ := List.append_of_mem he
    obtain ⟨v, hv, -⟩ := Machine.exec_append_eq_some.mp h
    exact hnever _ s List.prefix_rfl h t (hrefused pre post t rfl v hv).1
  · have hreach : Machine.Reach StubState.step (fun _ e => e.accepted = true) .initial v.stub :=
      reach_stub (fun e he => hacc e (hpre.subset he)) hv
    exact (ownRequests_of_reach hreach).not_waitsInVain (stubInv_of_exec hv) t
  · obtain ⟨post, rfl⟩ := hpre
    exact hrefused pre post t (by simp) v hv

/-- Thread 0 calls `get` from discovery, thread 1 after it from a request. -/
def sampleFound : List (LockedEvent Nat) :=
  .found 0 :: sampleExchange.map .stub ++ [.done 0]

theorem never_waits_in_vain_iff_sampleFound : ∃ s : LockedStub Nat,
    Machine.exec LockedStub.step .initial sampleFound = some s ∧
      ∀ pre v, pre <+: sampleFound → Machine.exec LockedStub.step .initial pre = some v →
        ∀ t, ¬ WaitsInVain v.stub t := by
  have hrun : (Machine.exec LockedStub.step (.initial : LockedStub Nat) sampleFound).isSome =
      true := by decide
  have hall : ∀ e ∈ sampleExchange, e.accepted = true := by decide
  obtain ⟨s, hs⟩ := Option.isSome_iff_exists.mp hrun
  refine ⟨s, hs, (never_waits_in_vain_iff sampleFound s hs).1.mpr fun e he => hall e ?_⟩
  simpa [sampleFound] using he

/-- The stack refuses the `get` that thread 0 makes from discovery. -/
def sampleRefusal : List (LockedEvent Nat) :=
  [.found 0, .stub (.acquire 0), .stub (.raise 0), .stub (.refuse 0), .stub (.lock 0),
    .stub (.test 0), .stub (.park 0)]

theorem waits_in_vain_sampleRefusal : ∃ s : LockedStub Nat,
    Machine.exec LockedStub.step .initial sampleRefusal = some s ∧ WaitsInVain s.stub 0 ∧
      s.stub.m_rw = some 0 ∧ s.resourceLock = some 0 := by
  have hrun : ((Machine.exec LockedStub.step .initial sampleRefusal).any fun s =>
      s.stub.pc 0 = .parked none ∧ s.stub.isWaiting = true ∧ s.stub.requests = [] ∧
        s.stub.m_rw = some 0 ∧ s.resourceLock = some 0) = true := by decide
  obtain ⟨s, hs, hend⟩ := (Option.any_eq_true _ _).mp hrun
  obtain ⟨hpc, hflag, hnone, howner, hlock⟩ := of_decide_eq_true hend
  refine ⟨s, hs, ⟨?_, hflag, fun q hq => ?_⟩, howner, hlock⟩
  · rw [hpc]
    rfl
  · rw [hnone] at hq
    cases hq

end IoTFS.Oic
