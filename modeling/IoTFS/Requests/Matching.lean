import IoTFS.Oic.StubProtocol
import Mathlib.Data.List.Nodup

/-!
# A caller is released by its own reply

The flag is up exactly while the request of the thread that holds `_m_rw` is outstanding,
so the only reply that lowers it is the one that thread waits for. Late notifications and
spurious wake-ups only make it test the flag again.
-/

namespace IoTFS.Oic

variable {τ : Type} {s s' : StubState τ} {e : StubEvent τ}

/-- What holds of a stub in every state. -/
structure StubInv (s : StubState τ) : Prop where
  /-- Only the owner of `_m_rw` is inside. -/
  holder : ∀ t, s.pc t ≠ .idle → s.m_rw = some t
  /-- The threads on the condition variable are the parked ones. -/
  onCv : ∀ t, t ∈ s.cv ↔ (s.pc t).isParked = true
  /-- The flag is up before the send. -/
  armed : ∀ t, s.pc t = .armed → s.isWaiting = true
  /-- An outstanding request keeps the flag up and belongs to a thread inside. -/
  own : ∀ n q, s.requests[n]? = some q → q.phase.outstanding = true →
    s.isWaiting = true ∧ (s.pc q.caller).request = some n
  /-- The request a thread waits for is its own. -/
  sent : ∀ t n, (s.pc t).request = some n → (s.requests[n]?).map StubRequest.caller = some t
  /-- It is outstanding while the flag is up. -/
  up : ∀ t n q, (s.pc t).request = some n → s.requests[n]? = some q → s.isWaiting = true →
    q.phase.outstanding = true
  /-- A thread that has seen the flag down has been answered. -/
  down : ∀ t n q, (s.pc t).isDone = true → (s.pc t).request = some n →
    s.requests[n]? = some q → q.phase.outstanding = false
  /-- So has every thread that has returned. -/
  returned : ∀ t n, (t, some n) ∈ s.returns →
    ∃ q, s.requests[n]? = some q ∧ q.caller = t ∧ q.phase.outstanding = false

/-- A thread with a request is inside. -/
theorem Pc.ne_idle {x : Pc} {n : Nat} (h : x.request = some n) : x ≠ .idle := by
  rintro rfl
  cases h

theorem StubInv.unique (h : StubInv s) {t u : τ} (ht : s.pc t ≠ .idle) (hu : s.pc u ≠ .idle) :
    t = u :=
  Option.some.inj ((h.holder t ht).symm.trans (h.holder u hu))

/-- Two outstanding requests are the same. -/
theorem StubInv.one_outstanding (h : StubInv s) {i j : Nat} {p q : StubRequest τ}
    (hp : s.requests[i]? = some p) (hq : s.requests[j]? = some q)
    (ho : p.phase.outstanding = true) (ho' : q.phase.outstanding = true) : i = j := by
  obtain ⟨-, hi⟩ := h.own i p hp ho
  obtain ⟨-, hj⟩ := h.own j q hq ho'
  rw [h.unique (Pc.ne_idle hi) (Pc.ne_idle hj), hj] at hi
  exact (Option.some.inj hi).symm

/-- Where a thread without a request is inside, nothing is outstanding. -/
theorem StubInv.none_outstanding (h : StubInv s) {t : τ} (ht : s.pc t ≠ .idle)
    (hr : (s.pc t).request = none) {n : Nat} {q : StubRequest τ}
    (hq : s.requests[n]? = some q) : q.phase.outstanding = false := by
  by_contra ho
  obtain ⟨-, hn⟩ := h.own n q hq (eq_true_of_ne_false ho)
  rw [h.unique (Pc.ne_idle hn) ht, hr] at hn
  cases hn

theorem stubInv_initial : StubInv (StubState.initial : StubState τ) := by
  constructor <;> simp [StubState.initial, Pc.isParked, Pc.request, Pc.isDone]

/-- Advancing a reply changes its request only. -/
theorem advance_getElem? {s : StubState τ} {n : Nat} {q : StubRequest τ}
    (hq : s.requests[n]? = some q) (t : τ) (phase : Phase) (i : Nat) :
    (s.advance n t phase)[i]? = if i = n then some ⟨t, phase⟩ else s.requests[i]? := by
  obtain ⟨hn, -⟩ := List.getElem?_eq_some_iff.mp hq
  rw [StubState.advance, List.getElem?_set]
  by_cases hi : n = i
  · rw [if_pos hi, if_pos hi.symm, if_pos hn]
  · rw [if_neg hi, if_neg (Ne.symm hi)]

variable [DecidableEq τ]

theorem goto_apply (s : StubState τ) (t u : τ) (x : Pc) :
    s.goto t x u = if u = t then x else s.pc u := Function.update_apply _ _ _ _

/-! ### Preservation -/

/-- What each step needs and does. -/
inductive StubStep (s : StubState τ) : StubEvent τ → StubState τ → Prop
  | acquire (t : τ) : s.pc t = .idle → s.m_rw = none →
      StubStep s (.acquire t) { s with m_rw := some t, pc := s.goto t .owning }
  | raise (t : τ) : s.pc t = .owning →
      StubStep s (.raise t) { s with isWaiting := true, pc := s.goto t .armed }
  | send (t : τ) : s.pc t = .armed →
      StubStep s (.send t) { s with
        requests := s.requests ++ [⟨t, .inFlight⟩]
        pc := s.goto t (.sending s.requests.length) }
  | refuse (t : τ) : s.pc t = .armed →
      StubStep s (.refuse t) { s with pc := s.goto t (.waiting none) }
  | sendReturn (t : τ) (n : Nat) : s.pc t = .sending n →
      StubStep s (.sendReturn t) { s with pc := s.goto t (.waiting (some n)) }
  | lock (t : τ) (r : Option Nat) : s.pc t = .waiting r →
      StubStep s (.lock t) { s with m := some t, pc := s.goto t (.testing r) }
  | testUp (t : τ) (r : Option Nat) : s.pc t = .testing r → s.isWaiting = true →
      StubStep s (.test t) { s with pc := s.goto t (.parking r) }
  | testDown (t : τ) (r : Option Nat) : s.pc t = .testing r → s.isWaiting = false →
      StubStep s (.test t) { s with pc := s.goto t (.leaving r) }
  | park (t : τ) (r : Option Nat) : s.pc t = .parking r →
      StubStep s (.park t) { s with m := none, cv := s.cv ++ [t], pc := s.goto t (.parked r) }
  | wake (t : τ) (r : Option Nat) : s.pc t = .parked r →
      StubStep s (.wake t) { s with cv := s.cv.filter (· ≠ t), pc := s.goto t (.woken r) }
  | relock (t : τ) (r : Option Nat) : s.pc t = .woken r →
      StubStep s (.relock t) { s with m := some t, pc := s.goto t (.testing r) }
  | unlock (t : τ) (r : Option Nat) : s.pc t = .leaving r →
      StubStep s (.unlock t) { s with m := none, pc := s.goto t (.unlocked r) }
  | release (t : τ) (r : Option Nat) : s.pc t = .unlocked r →
      StubStep s (.release t) { s with
        m_rw := none, returns := s.returns ++ [(t, r)], pc := s.goto t .idle }
  | callback (n : Nat) (t : τ) : s.requests[n]? = some ⟨t, .inFlight⟩ →
      StubStep s (.callback n) { s with requests := s.advance n t .ran }
  | clear (n : Nat) (t : τ) : s.requests[n]? = some ⟨t, .ran⟩ →
      StubStep s (.clear n) { s with isWaiting := false, requests := s.advance n t .cleared }
  | notifyNone (n : Nat) (t : τ) : s.requests[n]? = some ⟨t, .cleared⟩ → s.cv = [] →
      StubStep s (.notify n none) { s with requests := s.advance n t .resumed }
  | notifyOne (n : Nat) (t u : τ) (r : Option Nat) : s.requests[n]? = some ⟨t, .cleared⟩ →
      s.pc u = .parked r →
      StubStep s (.notify n (some u)) { s with
        cv := s.cv.filter (· ≠ u), pc := s.goto u (.woken r)
        requests := s.advance n t .resumed }

/-- A notification finds nobody parked, or wakes one parked thread. -/
theorem stubStep_of_notify {n : Nat} {woken : Option τ}
    (h : s.step (.notify n woken) = some s') : StubStep s (.notify n woken) s' := by
  simp only [StubState.step] at h
  split at h
  · rename_i t hreq
    obtain ⟨v, hv, rfl⟩ := Option.map_eq_some_iff.mp h
    cases woken with
    | none =>
      simp only [StubState.notifyOne] at hv
      split at hv
      · cases hv
        exact .notifyNone n t hreq ‹_›
      · cases hv
    | some u =>
      simp only [StubState.notifyOne, StubState.unpark] at hv
      split at hv
      · split at hv
        · cases hv
          exact .notifyOne n t u _ hreq ‹_›
        · cases hv
      · cases hv
  · cases h

theorem stubStep_of_step (h : s.step e = some s') : StubStep s e s' := by
  cases e with
  | acquire t =>
    simp only [StubState.step] at h
    split at h
    · rename_i hpc hfree
      cases h
      exact .acquire t hpc hfree
    · cases h
  | raise t =>
    simp only [StubState.step] at h
    split at h
    · cases h
      exact .raise t ‹_›
    · cases h
  | send t =>
    simp only [StubState.step] at h
    split at h
    · cases h
      exact .send t ‹_›
    · cases h
  | refuse t =>
    simp only [StubState.step] at h
    split at h
    · cases h
      exact .refuse t ‹_›
    · cases h
  | sendReturn t =>
    simp only [StubState.step] at h
    split at h
    · cases h
      exact .sendReturn t _ ‹_›
    · cases h
  | lock t =>
    simp only [StubState.step] at h
    split at h
    · rename_i hpc hfree
      cases h
      exact .lock t _ hpc
    · cases h
  | test t =>
    simp only [StubState.step] at h
    split at h
    · rename_i r hpc
      cases h
      by_cases hw : s.isWaiting = true
      · rw [if_pos hw]
        exact .testUp t r hpc hw
      · rw [if_neg hw]
        exact .testDown t r hpc (eq_false_of_ne_true hw)
    · cases h
  | park t =>
    simp only [StubState.step] at h
    split at h
    · cases h
      exact .park t _ ‹_›
    · cases h
  | wake t =>
    simp only [StubState.step, StubState.unpark] at h
    split at h
    · split at h
      · cases h
        exact .wake t _ ‹_›
      · cases h
    · cases h
  | relock t =>
    simp only [StubState.step] at h
    split at h
    · rename_i hpc hfree
      cases h
      exact .relock t _ hpc
    · cases h
  | unlock t =>
    simp only [StubState.step] at h
    split at h
    · cases h
      exact .unlock t _ ‹_›
    · cases h
  | release t =>
    simp only [StubState.step] at h
    split at h
    · cases h
      exact .release t _ ‹_›
    · cases h
  | callback n =>
    simp only [StubState.step] at h
    split at h
    · cases h
      exact .callback n _ ‹_›
    · cases h
  | clear n =>
    simp only [StubState.step] at h
    split at h
    · cases h
      exact .clear n _ ‹_›
    · cases h
  | notify n woken => exact stubStep_of_notify h

theorem StubInv.holder_step (h : StubInv s) (hs : StubStep s e s') (t : τ)
    (ht : s'.pc t ≠ .idle) : s'.m_rw = some t := by
  have hold := h.holder
  cases hs with
  | acquire u hidle hfree =>
    by_contra hne
    have hne' : t ≠ u := fun he => hne (he ▸ rfl)
    simp only [goto_apply, if_neg hne'] at ht
    have howner := hold t ht
    rw [hfree] at howner
    cases howner
  | _ => grind [goto_apply]

theorem StubInv.onCv_step (h : StubInv s) (hs : StubStep s e s') (t : τ) :
    t ∈ s'.cv ↔ (s'.pc t).isParked = true := by
  have hcv := h.onCv
  cases hs <;> grind [goto_apply, Pc.isParked]

theorem StubInv.armed_step (h : StubInv s) (hs : StubStep s e s') (t : τ)
    (ht : s'.pc t = .armed) : s'.isWaiting = true := by
  have harmed := h.armed
  cases hs with
  | clear n u hq =>
    have ht : s.pc t = .armed := ht
    have hnone := h.none_outstanding (t := t) (by simp [ht]) (by simp [ht, Pc.request]) hq
    cases hnone
  | _ => grind [goto_apply]

theorem StubInv.own_step (h : StubInv s) (hs : StubStep s e s') (n : Nat) (q : StubRequest τ)
    (hq : s'.requests[n]? = some q) (ho : q.phase.outstanding = true) :
    s'.isWaiting = true ∧ (s'.pc q.caller).request = some n := by
  have hown := h.own
  cases hs with
  | send t hpc =>
    have hnew : n = s.requests.length := by
      by_contra hne
      have hold : s.requests[n]? = some q := by grind
      have hnone := h.none_outstanding (t := t) (by simp [hpc]) (by simp [hpc, Pc.request]) hold
      rw [ho] at hnone
      cases hnone
    obtain rfl : q = ⟨t, .inFlight⟩ := by
      rw [hnew, List.getElem?_concat_length] at hq
      exact (Option.some.inj hq).symm
    refine ⟨h.armed t hpc, ?_⟩
    simp only [goto_apply, if_true, Pc.request, hnew]
  | release t r hpc =>
    obtain ⟨hw, hr⟩ := hown n q hq ho
    refine ⟨hw, ?_⟩
    have hne : q.caller ≠ t := by
      rintro rfl
      have hdown := h.down q.caller n q (by rw [hpc]; rfl) hr hq
      rw [ho] at hdown
      cases hdown
    simp only [goto_apply, if_neg hne]
    exact hr
  | clear m t hreq =>
    by_cases hm : n = m
    · have hadv := advance_getElem? hreq t .cleared n
      simp only [hm, if_true] at hadv hq
      rw [hadv] at hq
      cases hq
      cases ho
    · have hold : s.requests[n]? = some q := by
        have hadv := advance_getElem? hreq t .cleared n
        rwa [if_neg hm, show (s.advance m t .cleared)[n]? = some q from hq, eq_comm] at hadv
      exact absurd (h.one_outstanding hold hreq ho rfl) hm
  | _ => grind [goto_apply, Pc.request, advance_getElem?, Phase.outstanding]

theorem StubInv.sent_step (h : StubInv s) (hs : StubStep s e s') (t : τ) (n : Nat)
    (ht : (s'.pc t).request = some n) :
    (s'.requests[n]?).map StubRequest.caller = some t := by
  have hsent := h.sent
  cases hs <;> grind [goto_apply, Pc.request, advance_getElem?]

theorem StubInv.up_step (h : StubInv s) (hs : StubStep s e s') (t : τ) (n : Nat)
    (q : StubRequest τ) (ht : (s'.pc t).request = some n) (hq : s'.requests[n]? = some q)
    (hw : s'.isWaiting = true) : q.phase.outstanding = true := by
  have hup := h.up
  cases hs with
  | raise u hpc =>
    by_cases htu : t = u
    · simp only [goto_apply, if_pos htu] at ht
      cases ht
    · simp only [goto_apply, if_neg htu] at ht
      exact absurd (h.unique (Pc.ne_idle ht) (by simp [hpc])) htu
  | _ => grind [goto_apply, Pc.request, advance_getElem?, Phase.outstanding]

theorem StubInv.down_step (h : StubInv s) (hs : StubStep s e s') (t : τ) (n : Nat)
    (q : StubRequest τ) (hd : (s'.pc t).isDone = true) (ht : (s'.pc t).request = some n)
    (hq : s'.requests[n]? = some q) : q.phase.outstanding = false := by
  have hdown := h.down
  cases hs with
  | send u hpc =>
    by_cases htu : t = u
    · simp only [goto_apply, if_pos htu] at hd
      cases hd
    · simp only [goto_apply, if_neg htu] at ht
      exact absurd (h.unique (Pc.ne_idle ht) (by simp [hpc])) htu
  | testDown u r hpc hw =>
    by_contra ho
    have hold := (h.own n q hq (eq_true_of_ne_false ho)).1
    rw [hw] at hold
    cases hold
  | _ => grind [goto_apply, Pc.request, Pc.isDone, advance_getElem?, Phase.outstanding]

theorem StubInv.returned_step (h : StubInv s) (hs : StubStep s e s') (t : τ) (n : Nat)
    (hd : (t, some n) ∈ s'.returns) :
    ∃ q, s'.requests[n]? = some q ∧ q.caller = t ∧ q.phase.outstanding = false := by
  have hret := h.returned
  cases hs with
  | release u r hpc =>
    rcases List.mem_append.mp hd with hd | hd
    · exact hret t n hd
    · cases List.mem_singleton.mp hd
      have hr : (s.pc t).request = some n := by rw [hpc]; rfl
      obtain ⟨q, hq, hcaller⟩ := Option.map_eq_some_iff.mp (h.sent t n hr)
      exact ⟨q, hq, hcaller, h.down t n q (by rw [hpc]; rfl) hr hq⟩
  | _ => grind [advance_getElem?, Phase.outstanding]

/-- Every step keeps the invariant. -/
theorem StubInv.step (h : StubInv s) (hs : s.step e = some s') : StubInv s' :=
  have hs := stubStep_of_step hs
  ⟨h.holder_step hs, h.onCv_step hs, h.armed_step hs, h.own_step hs, h.sent_step hs,
    h.up_step hs, h.down_step hs, h.returned_step hs⟩

/-- The invariant holds in every state of every run. -/
theorem stubInv_of_reach {ok : StubState τ → StubEvent τ → Prop}
    (h : Machine.Reach StubState.step ok .initial s) : StubInv s :=
  h.invariant StubInv stubInv_initial fun _ _ _ hs _ hstep => hs.step hstep

/-! ### Every send accepted -/

/-- The stack accepts the request. -/
def StubEvent.accepted : StubEvent τ → Bool
  | .refuse _ => false
  | _ => true

/-- The thread is not past a refused send. -/
def Pc.accepted : Pc → Bool
  | idle | owning | armed | sending _ => true
  | waiting r | testing r | parking r | parked r | woken r | leaving r | unlocked r => r.isSome

/-- While sends are accepted, a call waits and returns with a request that no other call
returns with. -/
structure OwnRequests (s : StubState τ) : Prop where
  pc : ∀ t, (s.pc t).accepted = true
  returned : ∀ t r, (t, r) ∈ s.returns → r.isSome = true
  /-- The request of a thread that is inside has not been returned with. -/
  unused : ∀ t n, (s.pc t).request = some n → some n ∉ s.returns.map Prod.snd
  once : (s.returns.map Prod.snd).Nodup

theorem OwnRequests.pc_step (h : OwnRequests s) (hs : StubStep s e s')
    (hacc : e.accepted = true) (t : τ) : (s'.pc t).accepted = true := by
  have hpc := h.pc
  cases hs with
  | refuse => cases hacc
  | _ => grind [goto_apply, Pc.accepted]

theorem OwnRequests.returned_step (h : OwnRequests s) (hs : StubStep s e s') (t : τ)
    (r : Option Nat) (hr : (t, r) ∈ s'.returns) : r.isSome = true := by
  cases hs with
  | release u r' hu =>
    rcases List.mem_append.mp hr with hr | hr
    · exact h.returned t r hr
    · cases List.mem_singleton.mp hr
      have hold := h.pc t
      rwa [hu] at hold
  | _ => exact h.returned t r hr

theorem OwnRequests.unused_step (h : OwnRequests s) (hinv : StubInv s) (hs : StubStep s e s')
    (t : τ) (n : Nat) (ht : (s'.pc t).request = some n) :
    some n ∉ s'.returns.map Prod.snd := by
  have hunused := h.unused
  cases hs with
  | send u hpc =>
    by_cases htu : t = u
    · simp only [goto_apply, if_pos htu, Pc.request, Option.some.injEq] at ht
      intro hmem
      obtain ⟨⟨v, r⟩, hv, rfl⟩ := List.mem_map.mp hmem
      obtain ⟨q, hq, -⟩ := hinv.returned v n hv
      obtain ⟨hlt, -⟩ := List.getElem?_eq_some_iff.mp hq
      omega
    · simp only [goto_apply, if_neg htu] at ht
      exact hunused t n ht
  | release u r hpc =>
    by_cases htu : t = u
    · simp only [goto_apply, if_pos htu] at ht
      cases ht
    · simp only [goto_apply, if_neg htu] at ht
      exact absurd (hinv.unique (Pc.ne_idle ht) (by simp [hpc])) htu
  | _ => grind [goto_apply, Pc.request]

theorem OwnRequests.once_step (h : OwnRequests s) (hs : StubStep s e s') :
    (s'.returns.map Prod.snd).Nodup := by
  cases hs with
  | release u r hpc =>
    have hsome : r.isSome = true := by
      have hold := h.pc u
      rwa [hpc] at hold
    obtain ⟨n, rfl⟩ := Option.isSome_iff_exists.mp hsome
    have hunused : some n ∉ s.returns.map Prod.snd := h.unused u n (by rw [hpc]; rfl)
    rw [List.map_append, List.map_singleton, List.nodup_append]
    refine ⟨h.once, List.nodup_singleton _, fun r hr r' hr' => ?_⟩
    rintro rfl
    rw [List.mem_singleton.mp hr'] at hr
    exact hunused hr
  | _ => exact h.once

theorem ownRequests_of_reach
    (h : Machine.Reach StubState.step (fun _ e => e.accepted = true) .initial s) :
    OwnRequests s := by
  have hinv : StubInv s ∧ OwnRequests s := by
    refine h.invariant (fun s => StubInv s ∧ OwnRequests s) ⟨stubInv_initial, ?_⟩ ?_
    · constructor <;> simp [StubState.initial, Pc.accepted, Pc.request]
    · rintro s e s' ⟨hinv, hown⟩ hacc hstep
      have hs := stubStep_of_step hstep
      exact ⟨hinv.step hstep, hown.pc_step hs hacc, hown.returned_step hs,
        hown.unused_step hinv hs, hown.once_step hs⟩
  exact hinv.2

/-- At most one request is outstanding, and every call that has returned was answered:
its own request, which no other call returns with, has had its callback run. -/
theorem requests_matched (s : StubState τ)
    (h : Machine.Reach StubState.step (fun _ e => e.accepted = true) .initial s) :
    (∀ (i j : Nat) (p q : StubRequest τ), s.requests[i]? = some p → s.requests[j]? = some q →
        p.phase.outstanding = true → q.phase.outstanding = true → i = j) ∧
      (∀ t r, (t, r) ∈ s.returns → ∃ (n : Nat) (q : StubRequest τ),
        r = some n ∧ s.requests[n]? = some q ∧ q.caller = t ∧ q.phase ≠ .inFlight) ∧
      (s.returns.map Prod.snd).Nodup := by
  have hinv := stubInv_of_reach h
  have hown := ownRequests_of_reach h
  refine ⟨fun i j p q hp hq ho ho' => hinv.one_outstanding hp hq ho ho', fun t r hr => ?_,
    hown.once⟩
  obtain ⟨n, rfl⟩ := Option.isSome_iff_exists.mp (hown.returned t r hr)
  obtain ⟨q, hq, hcaller, ho⟩ := hinv.returned t n hr
  refine ⟨n, q, rfl, hq, hcaller, ?_⟩
  intro hphase
  rw [hphase] at ho
  cases ho

/-- Thread 0 is answered inside its send call and returns before the notification, which
then hits thread 1 while it waits for its own reply. -/
def sampleExchange : List (StubEvent Nat) :=
  [.acquire 0, .raise 0, .send 0, .callback 0, .clear 0, .sendReturn 0, .lock 0, .test 0,
    .unlock 0, .release 0, .acquire 1, .raise 1, .send 1, .sendReturn 1, .lock 1, .test 1,
    .park 1, .notify 0 (some 1), .relock 1, .test 1, .park 1, .callback 1, .clear 1,
    .notify 1 (some 1), .relock 1, .test 1, .unlock 1, .release 1]

theorem requests_matched_sampleExchange : ∃ s : StubState Nat,
    s.returns = [(0, some 0), (1, some 1)] ∧ ∀ t r, (t, r) ∈ s.returns →
      ∃ (n : Nat) (q : StubRequest Nat),
        r = some n ∧ s.requests[n]? = some q ∧ q.caller = t ∧ q.phase ≠ .inFlight := by
  have hrun : ((Machine.exec (Machine.guarded StubState.step fun _ e => e.accepted = true)
      .initial sampleExchange).any fun s => s.returns = [(0, some 0), (1, some 1)]) = true := by
    decide
  obtain ⟨s, hs, hret⟩ := (Option.any_eq_true _ _).mp hrun
  exact ⟨s, of_decide_eq_true hret, (requests_matched s (.of_guarded hs)).2.1⟩

end IoTFS.Oic
