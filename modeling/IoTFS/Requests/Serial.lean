import IoTFS.Requests.Standing

/-!
# Calls return in the order of their requests

Whatever the interleaving, the calls that have returned are those of the first requests, in
the order of the sends, and at most one more request has been sent.
-/

namespace IoTFS.Oic

variable {τ : Type} {s s' : StubState τ} {e : StubEvent τ}

/-- What the `n`-th call to return has sent and by whom it was made. -/
def StubState.call? (s : StubState τ) (n : Nat) : Option (τ × Option Nat) :=
  s.requests[n]?.map fun q => (q.caller, some n)

/-- The returns follow the requests, and the thread inside is one request ahead. -/
structure Serial (s : StubState τ) : Prop where
  inOrder : ∀ n, n < s.returns.length → s.returns[n]? = s.call? n
  /-- The request of a thread inside is the next to return. -/
  next : ∀ t n, (s.pc t).request = some n →
    n = s.returns.length ∧ s.requests.length = s.returns.length + 1
  /-- Without one every request has returned. -/
  level : (∀ t, (s.pc t).request = none) → s.requests.length = s.returns.length

theorem serial_initial : Serial (StubState.initial : StubState τ) := by
  constructor <;> simp [StubState.initial, Pc.request]

/-- No more calls have returned than requests were sent. -/
theorem Serial.le (hser : Serial s) : s.returns.length ≤ s.requests.length := by
  by_cases hnone : ∀ t, (s.pc t).request = none
  · exact Nat.le_of_eq (hser.level hnone).symm
  · obtain ⟨t, ht⟩ := not_forall.mp hnone
    obtain ⟨n, hn⟩ := Option.ne_none_iff_exists'.mp ht
    have hlen := (hser.next t n hn).2
    omega

/-- Where a thread without a request is inside, every request has returned. -/
theorem Serial.level_of_inside (hser : Serial s) (h : StubInv s) {t : τ} (ht : s.pc t ≠ .idle)
    (hr : (s.pc t).request = none) : s.requests.length = s.returns.length := by
  refine hser.level fun u => ?_
  by_contra hne
  obtain ⟨n, hn⟩ := Option.ne_none_iff_exists'.mp hne
  rw [h.unique (Pc.ne_idle hn) ht, hr] at hn
  cases hn

/-- The returns are those of the first requests. -/
theorem Serial.returns_eq (hser : Serial s) : s.returns =
    (s.requests.take s.returns.length).mapIdx fun n q => (q.caller, some n) := by
  refine List.ext_getElem? fun n => ?_
  rw [List.getElem?_mapIdx, List.getElem?_take]
  split
  · rw [hser.inOrder n ‹_›]
    rfl
  · rw [List.getElem?_eq_none (Nat.le_of_not_lt ‹_›)]
    rfl

/-- A request that has been returned with was answered. -/
theorem Serial.answered (hser : Serial s) (h : StubInv s) {q : StubRequest τ}
    (hq : q ∈ s.requests.take s.returns.length) : q.phase.outstanding = false := by
  obtain ⟨n, hn⟩ := List.mem_iff_getElem?.mp hq
  rw [List.getElem?_take] at hn
  split at hn
  · rename_i hlt
    have hret := hser.inOrder n hlt
    rw [StubState.call?, hn, Option.map_some] at hret
    obtain ⟨q', hq', -, hout⟩ := h.returned q.caller n (List.mem_of_getElem? hret)
    rw [hn] at hq'
    cases hq'
    exact hout
  · cases hn

/-- At most one request has not been returned with. -/
theorem Serial.length_le (hser : Serial s) : s.requests.length ≤ s.returns.length + 1 := by
  by_cases hnone : ∀ t, (s.pc t).request = none
  · rw [hser.level hnone]
    exact Nat.le_succ _
  · obtain ⟨t, ht⟩ := not_forall.mp hnone
    obtain ⟨n, hn⟩ := Option.ne_none_iff_exists'.mp ht
    exact Nat.le_of_eq (hser.next t n hn).2

variable [DecidableEq τ]

theorem Serial.inOrder_step (hser : Serial s) (h : StubInv s) (hr : RefusalInv s)
    (hs : StubStep s e s') (n : Nat) (hn : n < s'.returns.length) :
    s'.returns[n]? = s'.call? n := by
  have hold := hser.inOrder n
  have hle := hser.le
  cases hs with
  | send u hpc =>
    have hnew : (s.requests ++ [⟨u, .inFlight⟩])[n]? = s.requests[n]? :=
      List.getElem?_append_left (Nat.lt_of_lt_of_le hn hle)
    rw [hold hn]
    simp only [StubState.call?, hnew]
  | release u r hpc =>
    by_cases hlast : n < s.returns.length
    · rw [List.getElem?_append_left hlast]
      exact hold hlast
    · have hdone := hr.done u (by rw [hpc]; rfl)
      rw [hpc] at hdone
      obtain ⟨k, rfl⟩ := Option.isSome_iff_exists.mp hdone
      have hreq : (s.pc u).request = some k := by rw [hpc]; rfl
      obtain ⟨rfl, -⟩ := hser.next u k hreq
      obtain ⟨q, hq, hcaller⟩ := Option.map_eq_some_iff.mp (h.sent u _ hreq)
      obtain rfl : n = s.returns.length := by
        simp only [List.length_append, List.length_singleton] at hn
        omega
      simp only [List.getElem?_concat_length, StubState.call?, hq, Option.map_some, hcaller]
  | _ => grind [StubState.call?, advance_getElem?]

theorem Serial.next_step (hser : Serial s) (h : StubInv s) (hs : StubStep s e s') (t : τ) (n : Nat)
    (ht : (s'.pc t).request = some n) :
    n = s'.returns.length ∧ s'.requests.length = s'.returns.length + 1 := by
  have hold := hser.next
  cases hs with
  | send u hpc =>
    have hlevel := hser.level_of_inside h (t := u) (by simp [hpc]) (by rw [hpc]; rfl)
    by_cases htu : t = u
    · simp only [goto_apply, if_pos htu, Pc.request, Option.some.injEq] at ht
      simp only [List.length_append, List.length_singleton]
      omega
    · simp only [goto_apply, if_neg htu] at ht
      exact absurd (h.unique (Pc.ne_idle ht) (by simp [hpc])) htu
  | release u r hpc =>
    by_cases htu : t = u
    · simp only [goto_apply, if_pos htu] at ht
      cases ht
    · simp only [goto_apply, if_neg htu] at ht
      exact absurd (h.unique (Pc.ne_idle ht) (by simp [hpc])) htu
  | _ => grind [goto_apply, Pc.request, StubState.advance]

theorem Serial.level_step (hser : Serial s) (h : StubInv s) (hr : RefusalInv s)
    (hs : StubStep s e s') (hnone : ∀ t, (s'.pc t).request = none) :
    s'.requests.length = s'.returns.length := by
  have hinside := fun t => hser.level_of_inside h (t := t)
  cases hs with
  | send u hpc =>
    have hu := hnone u
    simp only [goto_apply, if_true] at hu
    cases hu
  | release u r hpc =>
    have hdone := hr.done u (by rw [hpc]; rfl)
    obtain ⟨k, hk⟩ := Option.isSome_iff_exists.mp hdone
    have hlen := (hser.next u k hk).2
    simp only [List.length_append, List.length_singleton]
    omega
  | acquire u hidle hfree =>
    refine hser.level fun t => ?_
    have ht := hnone t
    grind [goto_apply, Pc.request]
  | callback | clear | notifyNone =>
    simp only [StubState.advance, List.length_set]
    exact hser.level hnone
  | raise u hpc | refuse u hpc => exact hinside u (by simp [hpc]) (by rw [hpc]; rfl)
  | sendReturn u n hpc =>
    have hu := hnone u
    simp only [goto_apply, if_true] at hu
    cases hu
  | lock u r hpc | testUp u r hpc | testDown u r hpc | park u r hpc | wake u r hpc
  | relock u r hpc | unlock u r hpc =>
    refine hinside u (by simp [hpc]) ?_
    have hu := hnone u
    simp only [goto_apply, if_true] at hu
    rw [hpc]
    exact hu
  | notifyOne n v u r hq hpc =>
    simp only [StubState.advance, List.length_set]
    refine hinside u (by simp [hpc]) ?_
    have hu := hnone u
    simp only [goto_apply, if_true] at hu
    rw [hpc]
    exact hu

/-- The returns follow the requests in every state of every run. -/
theorem serial_of_reach {ok : StubState τ → StubEvent τ → Prop}
    (h : Machine.Reach StubState.step ok .initial s) : Serial s := by
  have hall : StubInv s ∧ RefusalInv s ∧ Serial s := by
    refine h.invariant (fun s => StubInv s ∧ RefusalInv s ∧ Serial s)
      ⟨stubInv_initial, refusalInv_initial, serial_initial⟩ ?_
    rintro s e s' ⟨hinv, hr, hser⟩ - hstep
    have hs := stubStep_of_step hstep
    exact ⟨hinv.step hstep, ⟨hr.flag_step hinv hs, hr.done_step hs⟩,
      hser.inOrder_step hinv hr hs, hser.next_step hinv hs, hser.level_step hinv hr hs⟩
  exact hall.2.2

/-- In every interleaving, refused sends and spurious wake-ups included, the calls return in
the order in which their requests were sent: the returns are the callers of the first requests,
each with its own request, which has been answered. At most one more request has been sent. -/
theorem calls_return_in_order (s : StubState τ)
    (h : Machine.Reach StubState.step (fun _ _ => True) .initial s) :
    s.returns = (s.requests.take s.returns.length).mapIdx (fun n q => (q.caller, some n)) ∧
      (∀ q ∈ s.requests.take s.returns.length, q.phase.outstanding = false) ∧
      s.requests.length ≤ s.returns.length + 1 := by
  have hser := serial_of_reach h
  exact ⟨hser.returns_eq, fun q hq => hser.answered (stubInv_of_reach h) hq, hser.length_le⟩

theorem calls_return_in_order_sampleExchange : ∃ s : StubState Nat,
    s.returns = [(0, some 0), (1, some 1)] ∧
      s.returns = (s.requests.take s.returns.length).mapIdx (fun n q => (q.caller, some n)) := by
  have hrun : ((Machine.exec StubState.step (.initial : StubState Nat) sampleExchange).any fun s =>
      s.returns = [(0, some 0), (1, some 1)]) = true := by decide
  obtain ⟨s, hs, hret⟩ := (Option.any_eq_true _ _).mp hrun
  refine ⟨s, of_decide_eq_true hret, (calls_return_in_order s ?_).1⟩
  exact .of_exec (fun _ _ _ => trivial) hs

end IoTFS.Oic
