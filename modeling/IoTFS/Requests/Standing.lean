import IoTFS.Requests.Refusal
import IoTFS.Requests.Wakeup

/-!
# Where the callers stand

Whoever owns a lock is at a place where the code holds it, and a refused caller is at a place
it cannot leave. So a parked caller all of whose replies are done has either lost its wake-up
or been refused.
-/

namespace IoTFS.Oic

variable {τ : Type} {s s' : StubState τ} {e : StubEvent τ} {t : τ}

/-- The thread is between taking `_m` and giving it back. -/
def Pc.holdsM : Pc → Bool
  | testing _ | parking _ | leaving _ => true
  | idle | owning | armed | sending _ | waiting _ | parked _ | woken _ | unlocked _ => false

/-- Whoever owns a lock is where the code holds it. -/
structure LocksInv (s : StubState τ) : Prop where
  m : ∀ t, s.m = some t → (s.pc t).holdsM = true
  m_rw : ∀ t, s.m_rw = some t → s.pc t ≠ .idle

theorem Pc.ne_idle_of_holdsM {x : Pc} (h : x.holdsM = true) : x ≠ .idle := by
  rintro rfl
  cases h

/-- A thread inside finds `_m` free unless it holds it itself. -/
theorem LocksInv.m_free (hl : LocksInv s) (h : StubInv s) (ht : s.pc t ≠ .idle)
    (hout : (s.pc t).holdsM = false) : s.m = none := by
  cases hm : s.m with
  | none => rfl
  | some u =>
    have hu := hl.m u hm
    rw [h.unique (Pc.ne_idle_of_holdsM hu) ht, hout] at hu
    cases hu

/-- A refused caller finds the flag up, so it never sees it down. -/
structure RefusalInv (s : StubState τ) : Prop where
  flag : ∀ t, (s.pc t).isRefused = true → s.isWaiting = true
  done : ∀ t, (s.pc t).isDone = true → (s.pc t).request.isSome = true

theorem refusalInv_initial : RefusalInv (StubState.initial : StubState τ) := by
  constructor <;> simp [StubState.initial, Pc.isRefused, Pc.isDone]

/-- Nobody uses the stub, and nothing is left of the replies. -/
structure StubState.AtRest (s : StubState τ) : Prop where
  idle : ∀ t, s.pc t = .idle
  m_rw : s.m_rw = none
  m : s.m = none
  resumed : ∀ q ∈ s.requests, q.phase = .resumed

/-- A stub with every thread outside and every reply resumed is at rest. -/
theorem LocksInv.atRest (hl : LocksInv s) (hidle : ∀ t, s.pc t = .idle)
    (hres : ∀ q ∈ s.requests, q.phase = .resumed) : s.AtRest where
  idle := hidle
  m_rw := by
    cases hm : s.m_rw with
    | none => rfl
    | some t => exact absurd (hidle t) (hl.m_rw t hm)
  m := by
    cases hm : s.m with
    | none => rfl
    | some t => exact absurd (hidle t) (Pc.ne_idle_of_holdsM (hl.m t hm))
  resumed := hres

/-- Where a parked thread stands once the stub has settled. -/
theorem RefusalInv.parked_cases (hr : RefusalInv s) (h : StubInv s) {r : Option Nat}
    (hpc : s.pc t = .parked r) (hres : ∀ q ∈ s.requests, q.phase = .resumed) :
    LostWakeup s ∨ Refused s t := by
  cases r with
  | none =>
    have href : (s.pc t).isRefused = true := by rw [hpc]; rfl
    exact Or.inr ⟨href, hr.flag t href⟩
  | some n =>
    obtain ⟨q, hq, -⟩ := Option.map_eq_some_iff.mp (h.sent t n (by rw [hpc]; rfl))
    exact Or.inl ⟨t, n, q, hpc, hq, hres q (List.mem_of_getElem? hq)⟩

/-! ### Preservation -/

variable [DecidableEq τ]

theorem LocksInv.m_step (hl : LocksInv s) (h : StubInv s) (hs : StubStep s e s') (t : τ)
    (hm : s'.m = some t) : (s'.pc t).holdsM = true := by
  have hold := hl.m
  have hinside (u v : τ) (hu : s.m = some u) (hv : s.pc v ≠ .idle) : u = v :=
    h.unique (Pc.ne_idle_of_holdsM (hold u hu)) hv
  cases hs <;> grind [goto_apply, Pc.holdsM]

theorem LocksInv.m_rw_step (hl : LocksInv s) (hs : StubStep s e s') (t : τ)
    (hm : s'.m_rw = some t) : s'.pc t ≠ .idle := by
  have hold := hl.m_rw
  cases hs <;> grind [goto_apply]

/-- The locks are held where the code holds them, in every state of every run. -/
theorem locksInv_of_reach {ok : StubState τ → StubEvent τ → Prop}
    (h : Machine.Reach StubState.step ok .initial s) : LocksInv s := by
  have hboth : StubInv s ∧ LocksInv s := by
    refine h.invariant (fun s => StubInv s ∧ LocksInv s) ⟨stubInv_initial, ?_⟩ ?_
    · constructor <;> simp [StubState.initial]
    · rintro s e s' ⟨hinv, hl⟩ - hstep
      have hs := stubStep_of_step hstep
      exact ⟨hinv.step hstep, hl.m_step hinv hs, hl.m_rw_step hs⟩
  exact hboth.2

theorem RefusalInv.flag_step (hr : RefusalInv s) (h : StubInv s) (hs : StubStep s e s') (t : τ)
    (ht : (s'.pc t).isRefused = true) : s'.isWaiting = true := by
  have hflag := hr.flag
  have harmed := h.armed
  cases hs with
  | clear n u hq =>
    have ht : (s.pc t).isRefused = true := ht
    have hnone := h.none_outstanding (Pc.ne_idle_of_isRefused ht) (Pc.request_of_isRefused ht) hq
    cases hnone
  | _ => grind [goto_apply, Pc.isRefused]

theorem RefusalInv.done_step (hr : RefusalInv s) (hs : StubStep s e s') (t : τ)
    (ht : (s'.pc t).isDone = true) : (s'.pc t).request.isSome = true := by
  have hflag := hr.flag
  have hdone := hr.done
  cases hs with
  | testDown u r hpc hw =>
    cases r with
    | some n => grind [goto_apply, Pc.isDone, Pc.request]
    | none =>
      have hup := hflag u (by rw [hpc]; rfl)
      rw [hw] at hup
      cases hup
  | _ => grind [goto_apply, Pc.isDone, Pc.request]

theorem refusalInv_of_reach {ok : StubState τ → StubEvent τ → Prop}
    (h : Machine.Reach StubState.step ok .initial s) : RefusalInv s := by
  have hboth : StubInv s ∧ RefusalInv s := by
    refine h.invariant (fun s => StubInv s ∧ RefusalInv s)
      ⟨stubInv_initial, refusalInv_initial⟩ ?_
    rintro s e s' ⟨hinv, hr⟩ - hstep
    have hs := stubStep_of_step hstep
    exact ⟨hinv.step hstep, hr.flag_step hinv hs, hr.done_step hs⟩
  exact hboth.2

end IoTFS.Oic
