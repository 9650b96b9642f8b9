import IoTFS.Files.Calls
import IoTFS.Oic.SharedStub
import IoTFS.Requests.Standing

/-!
# Calls and their requests

A thread inside the stub is in a call on some file. The call has sent its request just when
the thread has one, and its reply handler has run just when the callback has.
-/

namespace IoTFS.Oic

variable {ι κ τ : Type}

namespace Job

/-- The call has sent its request. -/
def sent : Job κ → Bool
  | putting _ | getting _ | answered _ => true
  | idle | stored _ _ | built _ _ _ | retrieving _ => false

/-- The call has sent its request and its handler has not run. -/
def pending : Job κ → Bool
  | putting _ | getting _ => true
  | idle | stored _ _ | built _ _ _ | retrieving _ | answered _ => false

end Job

namespace SharedStub

/-- How the jobs stand to the threads inside the stub. -/
structure Inv (s : SharedStub ι κ τ) : Prop where
  stub : StubInv s.stub
  refusal : RefusalInv s.stub
  /-- A thread has a request just when its call has sent one. -/
  sent : ∀ t, (s.job t).sent = (s.stub.pc t).request.isSome
  /-- Its handler has run just when the callback has. -/
  pending : ∀ n q, s.stub.requests[n]? = some q → (s.stub.pc q.caller).request = some n →
    ((s.job q.caller).pending = true ↔ q.phase = .inFlight)
  mayRead : ∀ t k, s.job t = .retrieving k → (s.files k).mayRead = true

theorem inv_start (files : κ → OICFile ι) : Inv (start files : SharedStub ι κ τ) := by
  refine ⟨stubInv_initial, refusalInv_initial, fun t => rfl, fun n q hq => ?_, fun t k ht => ?_⟩
  · simp [start, StubState.initial] at hq
  · cases ht

/-- Outside of the stub a call has sent nothing. -/
theorem Inv.not_sent {s : SharedStub ι κ τ} (h : Inv s) {t : τ}
    (ht : (s.stub.pc t).request = none) : (s.job t).sent = false := by
  rw [h.sent t, ht]
  rfl

/-- Another file in the place of one with the same permissions. -/
theorem mayRead_refile [DecidableEq κ] (s : SharedStub ι κ τ) {k : κ} {file : OICFile ι}
    (h : file.mayRead = (s.files k).mayRead) (l : κ) :
    (s.refile k file l).mayRead = (s.files l).mayRead := by
  rw [refile_apply]
  split
  · rename_i hl
    rw [hl, h]
  · rfl

variable [DecidableEq τ] {s s' : SharedStub ι κ τ} {e : SharedEvent κ τ}

/-- A step of the stub that changes no job changes no request of a thread, and leaves every
accepted request with its caller and its callback run or not. -/
theorem request_of_plain {x x' : StubState τ} {e : StubEvent τ} (hs : StubStep x e x')
    (he : e.plain = true) : (∀ t, (x'.pc t).request = (x.pc t).request) ∧
      ∀ (n : Nat) (q' : StubRequest τ), x'.requests[n]? = some q' → ∃ q : StubRequest τ,
        x.requests[n]? = some q ∧ q.caller = q'.caller ∧
          (q.phase = .inFlight ↔ q'.phase = .inFlight) := by
  constructor
  · intro t
    cases hs with
    | send | release | callback => cases he
    | _ => grind [Oic.goto_apply, Pc.request]
  · intro n q' hq'
    cases hs with
    | send | release | callback => cases he
    | clear m u hm | notifyNone m u hm _ | notifyOne m u v r hm _ =>
      have hadv := fun phase => advance_getElem? hm u phase n
      grind
    | _ => exact ⟨q', hq', rfl, Iff.rfl⟩

/-- A thread that retrieves did so before another job was moved on. -/
theorem retrieving_of_goto {t u : τ} {x : Job κ} {k : κ} (hx : x ≠ .retrieving k)
    (hu : s.goto t x u = .retrieving k) : s.job u = .retrieving k := by
  rw [goto_apply] at hu
  split at hu
  · exact absurd hu hx
  · exact hu

/-- Moving a thread that is outside of the stub. -/
theorem Inv.outside (h : Inv s) {t : τ} {x : Job κ} (ht : (s.job t).sent = false)
    (hx : x.sent = false) {files : κ → OICFile ι}
    (hread : ∀ u k, s.goto t x u = .retrieving k → (files k).mayRead = true)
    (puts : List (κ × Str × OCRepresentation)) : Inv ⟨files, s.stub, s.goto t x, puts⟩ where
  stub := h.stub
  refusal := h.refusal
  sent u := by
    have hu := h.sent u
    simp only [goto_apply]
    split
    · rw [hx, ← hu, ‹u = t›, ht]
    · exact hu
  pending n q hq hr := by
    have hne : q.caller ≠ t := by
      intro heq
      have hsent := h.sent q.caller
      rw [hr, heq, ht] at hsent
      cases hsent
    simp only [goto_apply, if_neg hne]
    exact h.pending n q hq hr
  mayRead := hread

/-- The stub moves and no job does. -/
theorem Inv.plain (h : Inv s) {e : StubEvent τ} {stub : StubState τ} (he : e.plain = true)
    (hs : s.stub.step e = some stub) : Inv { s with stub := stub } := by
  have hstep := stubStep_of_step hs
  obtain ⟨hreq, hold⟩ := request_of_plain hstep he
  refine ⟨h.stub.step hs, ⟨h.refusal.flag_step h.stub hstep, h.refusal.done_step hstep⟩,
    fun t => ?_, fun n q' hq' hr => ?_, h.mayRead⟩
  · rw [hreq t]
    exact h.sent t
  · obtain ⟨q, hq, hcaller, hphase⟩ := hold n q' hq'
    rw [hreq, ← hcaller] at hr
    rw [← hphase, ← hcaller]
    exact h.pending n q hq hr

/-- A call sends its request. -/
theorem Inv.send (h : Inv s) {t : τ} {stub : StubState τ} {x : Job κ}
    (hs : s.stub.step (.send t) = some stub) (hx : x.pending = true)
    (puts : List (κ × Str × OCRepresentation)) :
    Inv ⟨s.files, stub, s.goto t x, puts⟩ := by
  have hstep := stubStep_of_step hs
  have hsent : x.sent = true := by
    cases x with
    | putting | getting => rfl
    | _ => cases hx
  refine ⟨h.stub.step hs, ⟨h.refusal.flag_step h.stub hstep, h.refusal.done_step hstep⟩,
    fun u => ?_, fun n q hq hr => ?_, fun u k hu => ?_⟩
  · cases hstep with
    | send _ hpc =>
      simp only [goto_apply, Oic.goto_apply]
      split
      · rw [hsent]
        rfl
      · exact h.sent u
  · cases hstep with
    | send _ hpc =>
      simp only [goto_apply, Oic.goto_apply] at hr ⊢
      split at hr
      · rename_i hqt
        rw [if_pos hqt, hx]
        cases hr
        rw [List.getElem?_concat_length] at hq
        cases hq
        simp
      · rename_i hqt
        rw [if_neg hqt]
        obtain ⟨q', hq', -⟩ := Option.map_eq_some_iff.mp (h.stub.sent _ n hr)
        obtain ⟨hlt, -⟩ := List.getElem?_eq_some_iff.mp hq'
        rw [List.getElem?_append_left hlt] at hq
        exact h.pending n q hq hr
  · refine h.mayRead u k (retrieving_of_goto ?_ hu)
    rintro rfl
    cases hx

/-- A call returns. -/
theorem Inv.release (h : Inv s) {t : τ} {stub : StubState τ}
    (hs : s.stub.step (.release t) = some stub) :
    Inv { s with stub := stub, job := s.goto t .idle } := by
  have hstep := stubStep_of_step hs
  refine ⟨h.stub.step hs, ⟨h.refusal.flag_step h.stub hstep, h.refusal.done_step hstep⟩,
    fun u => ?_, fun n q hq hr => ?_, fun u k hu => ?_⟩
  · cases hstep with
    | release _ r hpc =>
      simp only [goto_apply, Oic.goto_apply]
      split
      · rfl
      · exact h.sent u
  · cases hstep with
    | release _ r hpc =>
      simp only [goto_apply, Oic.goto_apply] at hr ⊢
      split at hr
      · cases hr
      · rename_i hqt
        rw [if_neg hqt]
        exact h.pending n q hq hr
  · exact h.mayRead u k (retrieving_of_goto (by simp) hu)

/-- The reply handler of a call runs, and leaves the permissions of every file alone. -/
theorem Inv.reply (h : Inv s) {n : Nat} {q : StubRequest τ} {stub : StubState τ} {k : κ}
    (hq : s.stub.requests[n]? = some q) (hs : s.stub.step (.callback n) = some stub)
    (hjob : (s.job q.caller).pending = true) {files : κ → OICFile ι}
    (hfiles : ∀ l, (files l).mayRead = (s.files l).mayRead) :
    Inv { s with files := files, stub := stub, job := s.goto q.caller (.answered k) } := by
  have hstep := stubStep_of_step hs
  refine ⟨h.stub.step hs, ⟨h.refusal.flag_step h.stub hstep, h.refusal.done_step hstep⟩,
    fun u => ?_, fun m p hp hr => ?_, fun u l hu => ?_⟩
  · cases hstep with
    | callback _ t hreq =>
      simp only [goto_apply]
      split
      · rename_i hu
        rw [hu, ← h.sent]
        cases hx : s.job q.caller with
        | putting | getting => rfl
        | _ =>
          rw [hx] at hjob
          cases hjob
      · exact h.sent u
  · cases hstep with
    | callback _ t hreq =>
      rw [hq] at hreq
      cases hreq
      have hown := (h.stub.own n _ hq rfl).2
      rw [advance_getElem? hq] at hp
      simp only [goto_apply]
      split at hp
      · cases hp
        simp [Job.pending]
      · rename_i hmn
        have hne : p.caller ≠ t := by
          intro heq
          have hr : (s.stub.pc p.caller).request = some m := hr
          rw [heq, hown] at hr
          exact hmn (Option.some.inj hr).symm
        rw [if_neg hne]
        exact h.pending m p hp hr
  · rw [hfiles]
    exact h.mayRead u l (retrieving_of_goto (by simp) hu)

/-- A thread that returns has had its handler run. -/
theorem Inv.answered_of_release (h : Inv s) {t : τ} {stub : StubState τ}
    (hs : s.stub.step (.release t) = some stub) : ∃ l, s.job t = .answered l := by
  cases stubStep_of_step hs with
  | release _ r hpc =>
    have hdone := h.refusal.done t (by rw [hpc]; rfl)
    obtain ⟨n, hn⟩ := Option.isSome_iff_exists.mp hdone
    obtain ⟨q, hq, hcaller⟩ := Option.map_eq_some_iff.mp (h.stub.sent t n hn)
    have hsent := h.sent t
    have hpending := h.pending n q hq (by rw [hcaller]; exact hn)
    have hout := h.stub.down t n q (by rw [hpc]; rfl) hn hq
    rw [hdone] at hsent
    rw [hcaller] at hpending
    have hphase : q.phase ≠ .inFlight := by
      intro hphase
      rw [hphase] at hout
      cases hout
    cases hx : s.job t with
    | answered l => exact ⟨l, rfl⟩
    | putting l | getting l => exact absurd (hpending.mp (by rw [hx]; rfl)) hphase
    | idle | stored | built | retrieving =>
      rw [hx] at hsent
      cases hsent

variable [DecidableEq κ]

/-- Every step keeps jobs and threads together. -/
theorem Inv.step (h : Inv s) (hs : s.step e = some s') : Inv s' := by
  cases step_cases hs with
  | store t k input hjob =>
    refine h.outside (by rw [hjob]; rfl) rfl (fun u l hu => ?_) s.puts
    rw [mayRead_refile s (OICFile.sameShape_overwritten _ input).mayRead]
    exact h.mayRead u l (retrieving_of_goto (by simp) hu)
  | refuse t k result hjob | throw t k result hjob | build t k result rep hjob =>
    refine h.outside (by rw [hjob]; rfl) rfl (fun u l hu => ?_) s.puts
    exact h.mayRead u l (retrieving_of_goto (by simp) hu)
  | retrieve t k hjob hread =>
    refine h.outside (by rw [hjob]; rfl) rfl (fun u l hu => ?_) s.puts
    rw [goto_apply] at hu
    split at hu
    · cases hu
      exact hread
    · exact h.mayRead u l hu
  | plain e stub he hstub => exact h.plain he hstub
  | sendPut t stub k result rep hstub => exact h.send hstub rfl _
  | sendGet t stub k hstub => exact h.send hstub rfl _
  | release t stub hstub => exact h.release hstub
  | putReply n reply q stub k hq hstub hjob =>
    exact h.reply hq hstub (by rw [hjob]; rfl) (mayRead_refile s rfl)
  | getReply n reply q stub k hq hstub hjob =>
    exact h.reply hq hstub (by rw [hjob]; rfl)
      (mayRead_refile s (OICFile.sameShape_didRetrieve _ reply).mayRead)

end SharedStub

end IoTFS.Oic
