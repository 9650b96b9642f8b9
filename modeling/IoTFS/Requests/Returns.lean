import IoTFS.Requests.Completion
import IoTFS.Requests.Sharing
import Mathlib.Algebra.Order.BigOperators.Group.Finset

/-!
# Reads and writes run to completion

The calls on the files of a stub queue for its request lock, each with its thread. Once no
new call starts and no wake-up is spurious, every step uses up what the queue, the call inside
and the replies still have to do. So the calls settle, and they settle with every one of them
returned unless a caller inside was refused or has lost its wake-up.
-/

namespace IoTFS.Oic

variable {ι κ τ : Type}

namespace Job

/-- The call has got as far as the stub. -/
def calling : Job κ → Bool
  | idle | stored _ _ => false
  | built _ _ _ | retrieving _ | putting _ | getting _ | answered _ => true

/-- The call has got as far as the stub and sent nothing. -/
def queued : Job κ → Bool
  | built _ _ _ | retrieving _ => true
  | idle | stored _ _ | putting _ | getting _ | answered _ => false

/-- The steps a call outside of the stub has still to take. -/
def cost : Job κ → Nat
  | stored _ _ => 17
  | built _ _ _ | retrieving _ => 16
  | idle | putting _ | getting _ | answered _ => 0

/-- A call at the stub that has sent nothing is queued. -/
theorem queued_of_calling {x : Job κ} (h : x.calling = true) (hs : x.sent = false) :
    x.queued = true := by
  cases x with
  | built | retrieving => rfl
  | idle | stored => cases h
  | putting | getting | answered => cases hs

theorem cost_of_queued {x : Job κ} (h : x.queued = true) : x.cost = 16 := by
  cases x with
  | built | retrieving => rfl
  | _ => cases h

theorem ne_idle_of_queued {x : Job κ} (h : x.queued = true) : x ≠ .idle := by
  rintro rfl
  cases h

end Job

/-- A step of a call under way or of a reply: no call starts and no wake-up is spurious. -/
def SharedEvent.settles : SharedEvent κ τ → Bool
  | .store _ _ _ | .retrieve _ _ | .stub (.wake _) => false
  | _ => true

/-- The thread whose call starts. -/
def SharedEvent.started : SharedEvent κ τ → Finset τ
  | .store t _ _ | .retrieve t _ => {t}
  | .build _ | .stub _ | .callback _ _ => ∅

theorem SharedEvent.started_of_settles {e : SharedEvent κ τ} (h : e.settles = true) :
    e.started = ∅ := by
  cases e with
  | store | retrieve => cases h
  | build | stub | callback => rfl

namespace SharedStub

variable {s s' : SharedStub ι κ τ} {e : SharedEvent κ τ} {T : Finset τ}

/-! ### Who is inside -/

/-- A thread inside the stub is in a call that has got as far, and the threads in a call are
among `T`. -/
structure Among (T : Finset τ) (s : SharedStub ι κ τ) : Prop where
  inv : Inv s
  calling : ∀ t, s.stub.pc t ≠ .idle → (s.job t).calling = true
  mem : ∀ t, s.job t ≠ .idle → t ∈ T

/-- A call outside of the stub has a thread outside. -/
theorem Among.idle (h : Among T s) {t : τ} (ht : (s.job t).calling = false) :
    s.stub.pc t = .idle := by
  by_contra hne
  rw [h.calling t hne] at ht
  cases ht

/-- A thread inside that has sent nothing is in a call queued. -/
theorem Among.queued (h : Among T s) {t : τ} (ht : s.stub.pc t ≠ .idle)
    (hr : (s.stub.pc t).request = none) : (s.job t).queued = true :=
  Job.queued_of_calling (h.calling t ht) (h.inv.not_sent hr)

variable [DecidableEq τ]

/-- A step of the stub moves no thread in or out but one that takes or gives back `_m_rw`. -/
theorem idle_iff_of_step {x x' : StubState τ} {e : StubEvent τ} (hs : x.step e = some x') (u : τ)
    (ha : e ≠ .acquire u) (hr : e ≠ .release u) : x'.pc u = .idle ↔ x.pc u = .idle := by
  cases stubStep_of_step hs <;> grind [Oic.goto_apply]

/-- Nobody but the thread that takes `_m_rw` comes in. -/
theorem inside_of_step {x x' : StubState τ} {e : StubEvent τ} (hs : x.step e = some x') {u : τ}
    (hu : x'.pc u ≠ .idle) (ha : e ≠ .acquire u) : x.pc u ≠ .idle := by
  by_cases hr : e = .release u
  · subst hr
    cases stubStep_of_step hs with
    | release _ r hpc => simp [hpc]
  · exact fun h => hu ((idle_iff_of_step hs u ha hr).mpr h)

/-- A job moved on stands for a thread outside, or in a call that has got as far. -/
theorem Among.calling_goto (h : Among T s) {stub : StubState τ} {t : τ} {x : Job κ}
    (hx : stub.pc t ≠ .idle → x.calling = true)
    (hother : ∀ u, u ≠ t → stub.pc u ≠ .idle → s.stub.pc u ≠ .idle) (u : τ)
    (hu : stub.pc u ≠ .idle) : (s.goto t x u).calling = true := by
  rw [goto_apply]
  split
  · rename_i htu
    exact hx (htu ▸ hu)
  · exact h.calling u (hother u ‹_› hu)

/-- Where one job moves on, a thread in a call is its thread or was in a call before. -/
theorem Among.mem_goto (h : Among T s) {t : τ} {x : Job κ} {p : τ → Prop}
    (hx : x ≠ .idle → p t) (hold : ∀ u ∈ T, p u) (u : τ) (hu : s.goto t x u ≠ .idle) : p u := by
  rw [goto_apply] at hu
  split at hu
  · rename_i htu
    exact htu ▸ hx hu
  · exact hold u (h.mem u hu)

variable [DecidableEq κ]

/-- A thread enters the stub for a call that is queued. -/
theorem queued_of_acquire {t : τ} (h : s.step (.stub (.acquire t)) = some s') :
    (s.job t).queued = true := by
  obtain ⟨stub, -, h⟩ := Option.bind_eq_some_iff.mp h
  unfold acquire at h
  split at h
  · rename_i hjob
    rw [hjob]
    rfl
  · rename_i hjob
    rw [hjob]
    rfl
  · cases h

theorem Among.calling_step (h : Among T s) (hs : s.step e = some s') (t : τ)
    (ht : s'.stub.pc t ≠ .idle) : (s'.job t).calling = true := by
  have hstep := step_cases hs
  cases hstep with
  | store u k input hjob =>
    refine h.calling_goto (fun hu => absurd (h.idle ?_) hu) (fun _ _ hu => hu) t ht
    rw [hjob]
    rfl
  | refuse u k result hjob | throw u k result hjob | build u k result rep hjob =>
    refine h.calling_goto (fun hu => absurd (h.idle ?_) hu) (fun _ _ hu => hu) t ht
    rw [hjob]
    rfl
  | retrieve u k hjob => exact h.calling_goto (fun _ => rfl) (fun _ _ hu => hu) t ht
  | plain f stub hf hstub =>
    by_cases ha : f = .acquire t
    · subst ha
      have hqueued := queued_of_acquire hs
      change (s.job t).calling = true
      cases hx : s.job t with
      | built | retrieving => rfl
      | _ =>
        rw [hx] at hqueued
        cases hqueued
    · exact h.calling t (inside_of_step hstub ht ha)
  | sendPut u stub k result rep hstub | sendGet u stub k hstub =>
    exact h.calling_goto (fun _ => rfl) (fun v _ hv => inside_of_step hstub hv (by simp)) t ht
  | release u stub hstub =>
    refine h.calling_goto (fun hu => ?_) (fun v _ hv => inside_of_step hstub hv (by simp)) t ht
    cases stubStep_of_step hstub with
    | release _ r hpc => simp [Oic.goto_apply] at hu
  | putReply n reply q stub k hq hstub | getReply n reply q stub k hq hstub =>
    exact h.calling_goto (fun _ => rfl) (fun v _ hv => inside_of_step hstub hv (by simp)) t ht

/-- A thread in a call was in one before, or has started it. -/
theorem Among.mem_step (h : Among T s) (hs : s.step e = some s') (t : τ)
    (ht : s'.job t ≠ .idle) : t ∈ T ∪ e.started := by
  rw [Finset.mem_union]
  cases step_cases hs with
  | store u k input hjob | retrieve u k hjob =>
    exact h.mem_goto (fun _ => Or.inr (Finset.mem_singleton_self u)) (fun _ => Or.inl) t ht
  | refuse u k result hjob | throw u k result hjob | release u stub hstub =>
    exact h.mem_goto (fun hx => absurd rfl hx) (fun _ => Or.inl) t ht
  | build u k result rep hjob =>
    have hu : u ∈ T := h.mem u (by simp [hjob])
    exact h.mem_goto (fun _ => Or.inl hu) (fun _ => Or.inl) t ht
  | plain f stub hf hstub => exact Or.inl (h.mem t ht)
  | sendPut u stub k result rep hstub hjob | sendGet u stub k hstub hjob =>
    have hu : u ∈ T := h.mem u (by simp [hjob])
    exact h.mem_goto (fun _ => Or.inl hu) (fun _ => Or.inl) t ht
  | putReply n reply q stub k hq hstub hjob | getReply n reply q stub k hq hstub hjob =>
    have hcaller : q.caller ∈ T := h.mem q.caller (by simp [hjob])
    exact h.mem_goto (fun _ => Or.inl hcaller) (fun _ => Or.inl) t ht

theorem Among.step (h : Among T s) (hs : s.step e = some s') : Among (T ∪ e.started) s' where
  inv := h.inv.step hs
  calling := h.calling_step hs
  mem := h.mem_step hs

/-- In every state of every run finitely many threads are in a call. -/
theorem among_of_reach {ok : SharedStub ι κ τ → SharedEvent κ τ → Prop} {files : κ → OICFile ι}
    (h : Machine.Reach SharedStub.step ok (start files) s) : ∃ T, Among T s := by
  refine h.invariant (fun s => ∃ T, Among T s) ⟨∅, inv_start files, ?_, ?_⟩ ?_
  · intro t ht
    exact absurd rfl ht
  · intro t ht
    exact absurd rfl ht
  · rintro s e s' ⟨T, hT⟩ - hs
    exact ⟨_, hT.step hs⟩

/-! ### What is left to do -/

/-- The steps the call of a thread has still to take before it enters the stub. -/
def waitingCost (s : SharedStub ι κ τ) (t : τ) : Nat :=
  if s.stub.pc t = .idle then (s.job t).cost else 0

/-- What the calls of the threads in `T`, the thread inside and the replies have still to do. -/
def budget (T : Finset τ) (s : SharedStub ι κ τ) : Nat :=
  s.stub.budget + ∑ t ∈ T, s.waitingCost t

omit [DecidableEq κ] in
/-- Where the steps left to one thread alone change, the sum changes by as much. -/
theorem sum_waitingCost (T : Finset τ) {t : τ} (ht : t ∈ T)
    (hother : ∀ u, u ≠ t → s'.waitingCost u = s.waitingCost u) :
    (∑ u ∈ T, s'.waitingCost u) + s.waitingCost t =
      (∑ u ∈ T, s.waitingCost u) + s'.waitingCost t := by
  rw [← Finset.add_sum_erase T _ ht, ← Finset.add_sum_erase T s.waitingCost ht]
  have hrest : ∑ u ∈ T.erase t, s'.waitingCost u = ∑ u ∈ T.erase t, s.waitingCost u :=
    Finset.sum_congr rfl fun u hu => hother u (Finset.mem_erase.mp hu).1
  omega

omit [DecidableEq κ] in
/-- A stored token is built or given up. -/
theorem Among.budget_lt_of_job (h : Among T s) {t : τ} {x : Job κ} {k : κ} {result : Str}
    (hjob : s.job t = .stored k result) (hx : x.cost ≤ 16) :
    budget T { s with job := s.goto t x } < budget T s := by
  have hidle : s.stub.pc t = .idle := h.idle (by rw [hjob]; rfl)
  have hbefore : s.waitingCost t = 17 := by
    rw [waitingCost, if_pos hidle, hjob]
    rfl
  have hafter : waitingCost { s with job := s.goto t x } t = x.cost := by
    simp only [waitingCost, if_pos hidle, goto_apply, if_true]
  have hother (u : τ) (hu : u ≠ t) :
      waitingCost { s with job := s.goto t x } u = s.waitingCost u := by
    simp only [waitingCost, goto_apply, if_neg hu]
  have hsum := sum_waitingCost T (h.mem t (by simp [hjob])) hother
  rw [hbefore, hafter] at hsum
  simp only [budget]
  omega

/-- A call enters the stub. -/
theorem Among.budget_lt_of_acquire (h : Among T s) {t : τ}
    (hs : s.step (.stub (.acquire t)) = some s') : budget T s' < budget T s := by
  have hqueued := queued_of_acquire hs
  cases step_cases hs with
  | plain f stub hf hstub =>
    have hother (u : τ) (hu : u ≠ t) : waitingCost { s with stub := stub } u = s.waitingCost u := by
      have hiff := idle_iff_of_step hstub u (by simpa using Ne.symm hu) (by simp)
      simp only [waitingCost, hiff]
    have hsum := sum_waitingCost T (h.mem t (Job.ne_idle_of_queued hqueued)) hother
    cases stubStep_of_step hstub with
    | acquire _ hidle hfree =>
      have hbefore : s.waitingCost t = 16 := by
        rw [waitingCost, if_pos hidle, Job.cost_of_queued hqueued]
      rw [hbefore, waitingCost, if_neg (by simp [Oic.goto_apply])] at hsum
      simp only [budget, StubState.budget, hfree, Option.map_none, Option.getD_none,
        Option.map_some, Option.getD_some, Oic.goto_apply, if_true, Pc.cost]
      omega

/-- Any other step of the stub lets no call wait for longer. -/
theorem waitingCost_le (hs : s.step e = some s') {f : StubEvent τ} (hf : e.stub? = some f)
    (hne : ∀ t, f ≠ .acquire t) (u : τ) : s'.waitingCost u ≤ s.waitingCost u := by
  have hsame (hjob : s'.job u = s.job u) (hr : f ≠ .release u)
      (hstub : s.stub.step f = some s'.stub) : s'.waitingCost u ≤ s.waitingCost u := by
    have hiff := idle_iff_of_step hstub u (hne u) hr
    simp only [waitingCost, hiff, hjob, le_refl]
  have hmoved {t : τ} {x : Job κ} (hjob : s'.job = s.goto t x) (hx : x.cost = 0)
      (hr : u ≠ t → f ≠ .release u) (hstub : s.stub.step f = some s'.stub) :
      s'.waitingCost u ≤ s.waitingCost u := by
    by_cases hu : u = t
    · have hcost : (s'.job u).cost = 0 := by rw [hjob, goto_apply, if_pos hu, hx]
      rw [waitingCost, hcost, ite_self]
      exact Nat.zero_le _
    · exact hsame (by rw [hjob, goto_apply, if_neg hu]) (hr hu) hstub
  cases step_cases hs with
  | store | refuse | throw | build | retrieve => cases hf
  | plain g stub hplain hstub =>
    cases hf
    refine hsame rfl ?_ hstub
    rintro rfl
    cases hplain
  | sendPut t stub k result rep hstub hjob | sendGet t stub k hstub hjob =>
    cases hf
    exact hmoved rfl rfl (fun _ => by simp) hstub
  | release t stub hstub =>
    cases hf
    exact hmoved rfl rfl (fun hu => by simpa using Ne.symm hu) hstub
  | putReply n reply q stub k hq hstub hjob | getReply n reply q stub k hq hstub hjob =>
    cases hf
    exact hmoved rfl rfl (fun _ => by simp) hstub

/-- Every step that settles uses up some of the budget. -/
theorem Among.budget_lt (h : Among T s) (hs : s.step e = some s') (he : e.settles = true) :
    budget T s' < budget T s := by
  rcases stub_of_step hs with ⟨-, hnone⟩ | ⟨f, hf, hstub⟩
  · cases step_cases hs with
    | store | retrieve => cases he
    | refuse t k result hjob | throw t k result hjob | build t k result rep hjob =>
      exact h.budget_lt_of_job hjob (by simp [Job.cost])
    | plain | sendPut | sendGet | release | putReply | getReply => cases hnone
  · by_cases hacq : ∃ t, f = .acquire t
    · obtain ⟨t, rfl⟩ := hacq
      cases e with
      | stub g =>
        cases hf
        exact h.budget_lt_of_acquire hs
      | store | build | retrieve | callback => cases hf
    · have hsettles : f.settles = true := by
        cases e with
        | stub g =>
          cases hf
          cases f with
          | acquire t => exact absurd ⟨t, rfl⟩ hacq
          | wake => cases he
          | _ => rfl
        | callback n reply =>
          cases hf
          rfl
        | store | build | retrieve => cases hf
      have hlow := h.inv.stub.budget_lt (stubStep_of_step hstub) hsettles
      have hsum : ∑ u ∈ T, s'.waitingCost u ≤ ∑ u ∈ T, s.waitingCost u :=
        Finset.sum_le_sum fun u _ => waitingCost_le hs hf (fun t ht => hacq ⟨t, ht⟩) u
      exact Nat.add_lt_add_of_lt_of_le hlow hsum

/-- The budget is a variant of the steps that settle. -/
theorem among_variant (T : Finset τ) : Machine.Variant SharedStub.step
    (fun (_ : SharedStub ι κ τ) e => e.settles = true) (Among T) (budget T) where
  keeps s e s' h he hs := by
    have hstep := h.step hs
    rwa [SharedEvent.started_of_settles he, Finset.union_empty] at hstep
  lowers _ _ _ h he hs := h.budget_lt hs he

/-! ### Where the calls settle -/

/-- What the stub can do towards settling, the calls can. -/
theorem Among.stub_enabled (h : Among T s) {f : StubEvent τ} (hf : f.settles = true)
    (hstep : s.stub.step f ≠ none) :
    ∃ e : SharedEvent κ τ, e.stub? = some f ∧ e.settles = true ∧ s.step e ≠ none := by
  obtain ⟨stub, hstub⟩ := Option.ne_none_iff_exists'.mp hstep
  cases f with
  | acquire | wake => cases hf
  | callback n =>
    refine ⟨.callback n ⟨OC_STACK_OK, .empty⟩, rfl, rfl, ?_⟩
    cases stubStep_of_step hstub with
    | callback _ t hreq =>
      have hown := (h.inv.stub.own n _ hreq rfl).2
      have hpending := (h.inv.pending n _ hreq hown).mpr rfl
      cases hjob : s.job t with
      | putting k | getting k =>
        simp only [SharedStub.step, hreq, hstub, Option.bind_some, handle, hjob]
        exact Option.some_ne_none _
      | idle | stored | built | retrieving | answered =>
        simp [hjob, Job.pending] at hpending
  | send t =>
    refine ⟨.stub (.send t), rfl, rfl, ?_⟩
    have hqueued : (s.job t).queued = true := by
      cases stubStep_of_step hstub with
      | send _ hpc => exact h.queued (by simp [hpc]) (by simp [hpc, Pc.request])
    cases hjob : s.job t with
    | built | retrieving =>
      simp only [SharedStub.step, hstub, Option.bind_some, send, hjob]
      exact Option.some_ne_none _
    | idle | stored | putting | getting | answered =>
      rw [hjob] at hqueued
      cases hqueued
  | raise | refuse | sendReturn | lock | test | park | relock | unlock | release | clear
  | notify =>
    refine ⟨.stub _, rfl, rfl, ?_⟩
    simp only [SharedStub.step, hstub, Option.map_some]
    exact Option.some_ne_none _

/-- So where the calls have settled, the stub has. -/
theorem Among.settled_stub (h : Among T s) {ok : SharedStub ι κ τ → SharedEvent κ τ → Prop}
    {ok' : StubState τ → StubEvent τ → Prop} (hset : Machine.Settled SharedStub.step ok s)
    (hok : ∀ f, ok' s.stub f → f.settles = true ∧
      ∀ e : SharedEvent κ τ, e.stub? = some f → e.settles = true → ok s e) :
    Machine.Settled StubState.step ok' s.stub := by
  intro f hf
  by_contra hne
  obtain ⟨hsettles, hlift⟩ := hok f hf
  obtain ⟨e, he, hes, henabled⟩ := h.stub_enabled hsettles hne
  exact henabled (hset e (hlift e he hes))

/-- A stored token is never stuck. -/
theorem build_enabled {t : τ} {k : κ} {result : Str} (h : s.job t = .stored k result) :
    s.step (.build t) ≠ none := by
  simp only [step, h]
  split
  · split <;> exact Option.some_ne_none _
  · exact Option.some_ne_none _

/-- A thread outside the stub is then in no call, or queued for the stub. -/
theorem Among.idle_or_queued (h : Among T s) {t : τ} (ht : s.stub.pc t = .idle)
    (hbuild : s.step (.build t) = none) : s.job t = .idle ∨ (s.job t).queued = true := by
  have hsent := h.inv.not_sent (t := t) (by rw [ht]; rfl)
  cases hjob : s.job t with
  | idle => exact Or.inl rfl
  | built | retrieving => exact Or.inr rfl
  | stored k result => exact absurd hbuild (build_enabled hjob)
  | putting | getting | answered =>
    rw [hjob] at hsent
    cases hsent

/-- While nobody holds `_m_rw`, a call that is queued can enter. -/
theorem acquire_enabled {t : τ} (hq : (s.job t).queued = true) (ht : s.stub.pc t = .idle)
    (hfree : s.stub.m_rw = none) : s.step (.stub (.acquire t)) ≠ none := by
  cases hjob : s.job t with
  | built | retrieving => simp [step, acquire, StubState.step, hjob, ht, hfree]
  | idle | stored | putting | getting | answered =>
    rw [hjob] at hq
    cases hq

/-- Where nothing is left to build and nobody can enter a stub at rest, no call is left. -/
theorem Among.idle_of_atRest (h : Among T s) (hrest : s.stub.AtRest) (t : τ)
    (hbuild : s.step (.build t) = none) (hacquire : s.step (.stub (.acquire t)) = none) :
    s.job t = .idle := by
  refine (h.idle_or_queued (hrest.idle t) hbuild).resolve_right fun hq => ?_
  exact acquire_enabled hq (hrest.idle t) hrest.m_rw hacquire

/-- From every state of every run of reads and writes on the files of a stub: without new
calls and spurious wake-ups they take no more than a fixed number of steps, and some run of
them settles. Where they settle, every call has returned, unless the caller inside lost its
wake-up or was refused; the other calls then stand in the queue for the stub. -/
theorem file_calls_settle (files : κ → OICFile ι) (s : SharedStub ι κ τ)
    (h : Machine.Reach step (fun _ _ => True) (start files) s) :
    (∃ es s', Machine.Run step (fun _ e => e.settles = true) s es s' ∧
        Machine.Settled step (fun _ e => e.settles = true) s') ∧
      ∃ bound : Nat, ∀ es s', Machine.Run step (fun _ e => e.settles = true) s es s' →
        es.length ≤ bound ∧ (Machine.Settled step (fun _ e => e.settles = true) s' →
          ((∀ t, s'.job t = .idle) ∧ s'.stub.AtRest) ∨
            ∃ t, (s'.stub.pc t).isParked = true ∧ (LostWakeup s'.stub ∨ Refused s'.stub t) ∧
              ∀ u, u ≠ t → s'.job u = .idle ∨ (s'.job u).queued = true) := by
  obtain ⟨T, hT⟩ := among_of_reach h
  refine ⟨(among_variant T).settles hT, budget T s, fun es s' hrun => ⟨?_, fun hset => ?_⟩⟩
  · have hle := (among_variant T).length_add_le hT hrun
    omega
  · have h' := h.trans (hrun.reach.mono fun _ _ _ => trivial)
    have hT' : Among T s' := hrun.reach.invariant (Among T) hT (among_variant T).keeps
    have hstub : s'.stub.Settled := hT'.settled_stub hset fun f hf => ⟨hf, fun _ _ he => he⟩
    rcases settled_cases (reach_sharedStub (fun _ _ _ _ _ => trivial) h') hstub with
      hrest | ⟨t, hparked, hcause⟩
    · exact Or.inl ⟨fun t => hT'.idle_of_atRest hrest t (hset _ rfl) (hset _ rfl), hrest⟩
    · refine Or.inr ⟨t, hparked, hcause, fun u hu => hT'.idle_or_queued ?_ (hset _ rfl)⟩
      by_contra hinside
      refine hu (hT'.inv.stub.unique hinside ?_)
      intro hidle
      rw [hidle] at hparked
      cases hparked

/-- One thread has sent its PUT for a file, another queues to read a second file. -/
def sampleQueued : List (SharedEvent Nat Nat) :=
  [.store 0 0 ['7'], .build 0, .retrieve 1 1] ++ [.acquire 0, .raise 0, .send 0].map .stub

theorem file_calls_settle_sampleQueued : ∃ s : SharedStub Unit Nat Nat,
    Machine.exec step (start fun _ => sampleOpen) sampleQueued = some s ∧
      (s.job 0).sent = true ∧ (s.job 1).queued = true ∧
        ∃ es s', Machine.Run step (fun _ e => e.settles = true) s es s' ∧
          Machine.Settled step (fun _ e => e.settles = true) s' := by
  have hrun : ((Machine.exec step (start fun _ => sampleOpen) sampleQueued).any
      fun s : SharedStub Unit Nat Nat => (s.job 0).sent = true ∧ (s.job 1).queued = true) =
        true := by decide
  obtain ⟨s, hs, hjobs⟩ := (Option.any_eq_true _ _).mp hrun
  obtain ⟨hsent, hqueued⟩ := of_decide_eq_true hjobs
  exact ⟨s, hs, hsent, hqueued,
    (file_calls_settle (fun _ => sampleOpen) s (.of_exec (fun _ _ _ => trivial) hs)).1⟩

/-- Sends are accepted and notifications timely. -/
def TimelyCalls (s : SharedStub ι κ τ) (e : SharedEvent κ τ) : Prop :=
  ∀ f ∈ e.stub?, Timely s.stub f

instance (s : SharedStub ι κ τ) (e : SharedEvent κ τ) : Decidable (TimelyCalls s e) :=
  inferInstanceAs (Decidable (∀ f ∈ e.stub?, Timely s.stub f))

/-- In a run of reads and writes in which sends are accepted and notifications timely: without
new calls and spurious wake-ups, every such run settles after no more than a fixed number of
steps, and then every call has returned and every request was answered, in the order of
sending. -/
theorem file_calls_return_of_timely (files : κ → OICFile ι) (s : SharedStub ι κ τ)
    (h : Machine.Reach step TimelyCalls (start files) s) :
    (∃ es s', Machine.Run step (fun s e => TimelyCalls s e ∧ e.settles = true) s es s' ∧
        Machine.Settled step (fun s e => TimelyCalls s e ∧ e.settles = true) s') ∧
      ∃ bound : Nat, ∀ es s',
        Machine.Run step (fun s e => TimelyCalls s e ∧ e.settles = true) s es s' →
          es.length ≤ bound ∧
            (Machine.Settled step (fun s e => TimelyCalls s e ∧ e.settles = true) s' →
              (∀ t, s'.job t = .idle) ∧ s'.stub.AtRest ∧
                s'.stub.returns = s'.stub.requests.mapIdx fun n q => (q.caller, some n)) := by
  obtain ⟨T, hT⟩ := among_of_reach h
  have hv : Machine.Variant SharedStub.step
      (fun (s : SharedStub ι κ τ) e => TimelyCalls s e ∧ e.settles = true) (Among T) (budget T) :=
    (among_variant T).restrict fun _ _ he => he.2
  refine ⟨hv.settles hT, budget T s, fun es s' hrun => ⟨?_, fun hset => ?_⟩⟩
  · have hle := hv.length_add_le hT hrun
    omega
  · have h' := h.trans (hrun.reach.mono fun _ _ he => he.1)
    have hT' : Among T s' := hrun.reach.invariant (Among T) hT hv.keeps
    have hstub : Machine.Settled StubState.step TimelySettles s'.stub := by
      refine hT'.settled_stub hset fun f hf => ⟨hf.2, fun e he hes => ⟨fun g hg => ?_, hes⟩⟩
      rw [he] at hg
      cases hg
      exact hf.1
    obtain ⟨hrest, hreturns⟩ :=
      atRest_of_timely (reach_sharedStub (fun _ _ he => he) h') (settled_of_timely hstub)
    refine ⟨fun t => hT'.idle_of_atRest hrest t (hset _ ⟨?_, rfl⟩) (hset _ ⟨?_, rfl⟩), hrest,
      hreturns⟩
    · rintro f ⟨⟩
    · rintro f ⟨rfl⟩
      trivial

theorem file_calls_return_of_timely_sampleQueued : ∃ s : SharedStub Unit Nat Nat,
    Machine.exec (Machine.guarded step TimelyCalls) (start fun _ => sampleOpen) sampleQueued =
        some s ∧
      ∃ es s', Machine.Run step (fun s e => TimelyCalls s e ∧ e.settles = true) s es s' ∧
        Machine.Settled step (fun s e => TimelyCalls s e ∧ e.settles = true) s' := by
  have hrun : (Machine.exec (Machine.guarded step TimelyCalls)
      (start fun _ => sampleOpen : SharedStub Unit Nat Nat) sampleQueued).isSome = true := by
    decide
  obtain ⟨s, hs⟩ := Option.isSome_iff_exists.mp hrun
  exact ⟨s, hs, (file_calls_return_of_timely (fun _ => sampleOpen) s (.of_guarded hs)).1⟩

end SharedStub

end IoTFS.Oic
