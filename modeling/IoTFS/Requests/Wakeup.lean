import IoTFS.Requests.Matching

/-!
# Lost wake-ups

`resume` lowers the flag and notifies without `_m`, so both can fall between the test of a
caller and its park. The caller then parks after its notification. In every other schedule
a parked caller has its notification still to come.
-/

namespace IoTFS.Oic

variable {τ : Type} {s s' : StubState τ} {e : StubEvent τ}

/-- The thread about to park or parked on a request is its caller. -/
theorem StubInv.caller_of_waiting (h : StubInv s) {t : τ} {n : Nat} {q : StubRequest τ}
    (ht : s.pc t = .parking (some n) ∨ s.pc t = .parked (some n))
    (hq : s.requests[n]? = some q) : q.caller = t := by
  have hr : (s.pc t).request = some n := by
    rcases ht with ht | ht <;> rw [ht] <;> rfl
  have hcaller := h.sent t n hr
  rw [hq] at hcaller
  exact Option.some.inj hcaller

variable [DecidableEq τ]

/-- A caller is parked although the reply to its request has been resumed. -/
def LostWakeup (s : StubState τ) : Prop :=
  ∃ (t : τ) (n : Nat) (q : StubRequest τ), s.pc t = .parked (some n) ∧
    s.requests[n]? = some q ∧ q.phase = .resumed

/-- The send is accepted, and the notification does not fall between the test and the park
of the caller it is for. -/
def Timely (s : StubState τ) : StubEvent τ → Prop
  | .refuse _ => False
  | .notify n _ => ∀ q ∈ s.requests[n]?, s.pc q.caller ≠ .parking (some n)
  | _ => True

instance (s : StubState τ) : (e : StubEvent τ) → Decidable (Timely s e)
  | .refuse _ => inferInstanceAs (Decidable False)
  | .notify n _ =>
    inferInstanceAs (Decidable (∀ q ∈ s.requests[n]?, s.pc q.caller ≠ .parking (some n)))
  | .acquire _ | .raise _ | .send _ | .sendReturn _ | .lock _ | .test _ | .park _ | .wake _
  | .relock _ | .unlock _ | .release _ | .callback _ | .clear _ =>
    inferInstanceAs (Decidable True)

/-- A thread that is about to park, or parked, has its notification still to come. -/
def Awaited (s : StubState τ) : Prop :=
  ∀ (t : τ) (n : Nat) (q : StubRequest τ),
    s.pc t = .parking (some n) ∨ s.pc t = .parked (some n) →
    s.requests[n]? = some q → q.phase ≠ .resumed

theorem Awaited.step (ha : Awaited s) (h : StubInv s) (htimely : Timely s e)
    (hs : StubStep s e s') : Awaited s' := by
  intro t n q ht hq
  cases hs with
  | testUp u r hpc hw =>
    by_cases htu : t = u
    · have hr : (s.pc t).request = some n := by
        simp only [goto_apply, if_pos htu] at ht
        rw [htu, hpc]
        rcases ht with ht | ht
        · cases ht
          rfl
        · cases ht
      have ho := h.up t n q hr hq hw
      intro hres
      rw [hres] at ho
      cases ho
    · simp only [goto_apply, if_neg htu] at ht
      exact ha t n q ht hq
  | notifyNone m u hreq hcv =>
    have hadv := advance_getElem? hreq u .resumed n
    by_cases hm : n = m
    · subst hm
      have hcaller := h.caller_of_waiting ht hreq
      rcases ht with ht | ht
      · exact absurd (hcaller ▸ ht) (htimely _ hreq)
      · have hmem := (h.onCv t).mpr (by rw [show s.pc t = _ from ht]; rfl)
        rw [hcv] at hmem
        cases hmem
    · rw [if_neg hm, show (s.advance m u .resumed)[n]? = some q from hq, eq_comm] at hadv
      exact ha t n q ht hadv
  | notifyOne m u v r hreq hpc =>
    have hadv := advance_getElem? hreq u .resumed n
    by_cases htv : t = v
    · simp only [goto_apply, if_pos htv] at ht
      rcases ht with ht | ht <;> cases ht
    · simp only [goto_apply, if_neg htv] at ht
      have hinside : s.pc t ≠ .idle := by
        intro hidle
        rw [hidle] at ht
        rcases ht with ht | ht <;> cases ht
      exact absurd (h.unique hinside (by simp [hpc])) htv
  | refuse => exact absurd htimely id
  | _ => grind [Awaited, goto_apply, advance_getElem?]

/-- In every run in which sends are accepted and no notification falls between the test
and the park of its caller, no wake-up is lost. -/
theorem no_lost_wakeup_of_timely (s : StubState τ)
    (h : Machine.Reach StubState.step Timely .initial s) : ¬ LostWakeup s := by
  have hinv : StubInv s ∧ Awaited s := by
    refine h.invariant (fun s => StubInv s ∧ Awaited s) ?_ ?_
    · refine ⟨stubInv_initial, fun t n q ht => ?_⟩
      rcases ht with ht | ht <;> cases ht
    · rintro s e s' ⟨hs, ha⟩ htimely hstep
      exact ⟨hs.step hstep, ha.step hs htimely (stubStep_of_step hstep)⟩
  rintro ⟨t, n, q, ht, hq, hres⟩
  exact hinv.2 t n q (Or.inr ht) hq hres

theorem no_lost_wakeup_of_timely_sampleExchange : ∃ s : StubState Nat,
    Machine.exec (Machine.guarded StubState.step Timely) .initial sampleExchange = some s ∧
      ¬ LostWakeup s := by
  have hrun : (Machine.exec (Machine.guarded StubState.step Timely) (.initial : StubState Nat)
      sampleExchange).isSome = true := by decide
  obtain ⟨s, hs⟩ := Option.isSome_iff_exists.mp hrun
  exact ⟨s, hs, no_lost_wakeup_of_timely s (.of_guarded hs)⟩

/-- An untimely notification is lost once the caller parks. -/
theorem StubInv.lost_of_untimely (h : StubInv s) {t : τ} {n : Nat} {woken : Option τ}
    {s'' : StubState τ} (hpc : s.pc t = .parking (some n))
    (hnotify : s.step (.notify n woken) = some s') (hpark : s'.step (.park t) = some s'') :
    LostWakeup s'' := by
  have hreq : s'.requests[n]? = some ⟨t, .resumed⟩ ∧ s'.pc t = .parking (some n) := by
    cases stubStep_of_step hnotify with
    | notifyNone _ u hq hcv =>
      obtain rfl : u = t := h.caller_of_waiting (Or.inl hpc) hq
      exact ⟨by rw [advance_getElem? hq, if_pos rfl], hpc⟩
    | notifyOne _ u v r hq hv =>
      have htv : t = v := h.unique (by simp [hpc]) (by simp [hv])
      rw [htv, hv] at hpc
      cases hpc
  obtain ⟨hq, hpc'⟩ := hreq
  cases stubStep_of_step hpark with
  | park _ r hr =>
    rw [hpc'] at hr
    cases hr
    exact ⟨t, n, _, by simp [goto_apply], hq, rfl⟩

/-- The notification falls between the test and the park. -/
def sampleLoss : List (StubEvent Nat) :=
  [.acquire 0, .raise 0, .send 0, .sendReturn 0, .lock 0, .test 0, .callback 0, .clear 0,
    .notify 0 none, .park 0]

theorem lost_wakeup_sampleLoss : (∀ e ∈ sampleLoss, e.accepted = true) ∧
    ∃ s : StubState Nat, Machine.exec StubState.step .initial sampleLoss = some s ∧
      LostWakeup s := by
  refine ⟨by decide, ?_⟩
  have hrun : ((Machine.exec StubState.step .initial sampleLoss).any fun s =>
      s.pc 0 = .parked (some 0) ∧ s.requests[0]? = some ⟨0, .resumed⟩) = true := by decide
  obtain ⟨s, hs, hlost⟩ := (Option.any_eq_true _ _).mp hrun
  obtain ⟨hpc, hq⟩ := of_decide_eq_true hlost
  exact ⟨s, hs, 0, 0, _, hpc, hq, rfl⟩

end IoTFS.Oic
