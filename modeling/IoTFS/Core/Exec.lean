import Mathlib.Logic.Relation

/-!
# Computations with state and failure

State survives failure, so a computation is described by two facts: the relation
between the state it starts in and the state it leaves behind, whatever the outcome,
and what holds of the value when it returns one.
-/

namespace IoTFS.Exec

variable {ε σ α β : Type}

/-- The state a computation leaves behind. -/
def final : EStateM.Result ε σ α → σ
  | .ok _ s => s
  | .error _ s => s

@[simp] theorem final_ok (a : α) (s : σ) : final (.ok a s : EStateM.Result ε σ α) = s := rfl

@[simp] theorem pure_apply (a : α) (s : σ) : (pure a : EStateM ε σ α) s = .ok a s := rfl

@[simp] theorem get_apply (s : σ) : (get : EStateM ε σ σ) s = .ok s s := rfl

@[simp] theorem modify_apply (f : σ → σ) (s : σ) :
    (modify f : EStateM ε σ PUnit) s = .ok ⟨⟩ (f s) := rfl

/-- Running a sequence is running its head and then the rest. -/
theorem bind_apply (x : EStateM ε σ α) (f : α → EStateM ε σ β) (s : σ) :
    (x >>= f) s = match x s with
      | .ok a t => f a t
      | .error e t => .error e t := rfl

theorem map_apply (f : α → β) (x : EStateM ε σ α) (s : σ) :
    (f <$> x) s = match x s with
      | .ok a t => .ok (f a) t
      | .error e t => .error e t := rfl

theorem tryCatch_apply (x : EStateM ε σ α) (h : ε → EStateM ε σ α) (s : σ) :
    (tryCatch x h) s = match x s with
      | .ok a t => .ok a t
      | .error e t => h e t := by
  change EStateM.tryCatch x h s = _
  unfold EStateM.tryCatch
  cases x s <;> rfl

/-- Swallowing a failure does not change the state it leaves behind. -/
theorem final_tryCatch_pure (x : EStateM ε σ α) (a : ε → α) (s : σ) :
    final ((tryCatch x fun e => pure (a e)) s) = final (x s) := by
  rw [tryCatch_apply]
  cases x s <;> rfl

theorem bind_ok {x : EStateM ε σ α} {f : α → EStateM ε σ β} {s t : σ} {a : α}
    (h : x s = .ok a t) : (x >>= f) s = f a t := by
  rw [bind_apply, h]

theorem bind_error {x : EStateM ε σ α} {f : α → EStateM ε σ β} {s t : σ} {e : ε}
    (h : x s = .error e t) : (x >>= f) s = .error e t := by
  rw [bind_apply, h]

/-- A sequence that returns has returned from both its parts. -/
theorem bind_eq_ok {x : EStateM ε σ α} {f : α → EStateM ε σ β} {s t : σ} {b : β}
    (h : (x >>= f) s = .ok b t) : ∃ a u, x s = .ok a u ∧ f a u = .ok b t := by
  rw [bind_apply] at h
  cases hx : x s with
  | ok a u => exact ⟨a, u, rfl, by rwa [hx] at h⟩
  | error e u =>
    rw [hx] at h
    cases h

/-- From every state with `pre`, whatever the outcome, `x` makes finitely many of the
moves `M`, and `post` holds of any value it returns. -/
def Traverses (M : σ → σ → Prop) (pre : σ → Prop) (x : EStateM ε σ α)
    (post : α → σ → Prop) : Prop :=
  ∀ s, pre s → Relation.ReflTransGen M s (final (x s)) ∧ ∀ a t, x s = .ok a t → post a t

variable {M : σ → σ → Prop} {pre pre' : σ → Prop} {post post' : α → σ → Prop}

/-- Returning moves nothing. -/
theorem Traverses.pure {a : α} (h : ∀ s, pre s → post a s) :
    Traverses M pre (pure a : EStateM ε σ α) post := by
  intro s hs
  refine ⟨.refl, ?_⟩
  rintro b t ⟨rfl, rfl⟩
  exact h s hs

/-- Sequencing composes the moves. -/
theorem Traverses.bind {x : EStateM ε σ α} {f : α → EStateM ε σ β}
    {last : β → σ → Prop} (hx : Traverses M pre x post)
    (hf : ∀ a, Traverses M (post a) (f a) last) : Traverses M pre (x >>= f) last := by
  intro s hs
  obtain ⟨hM, hpost⟩ := hx s hs
  cases he : x s with
  | error e t =>
    rw [bind_error he]
    rw [he] at hM
    exact ⟨hM, fun a t h => by cases h⟩
  | ok a t =>
    rw [bind_ok he]
    rw [he] at hM
    obtain ⟨hM', hlast⟩ := hf a t (hpost a t he)
    exact ⟨hM.trans hM', hlast⟩

/-- Strengthen what is known before, weaken what is claimed after. -/
theorem Traverses.weaken {x : EStateM ε σ α} (h : Traverses M pre x post)
    (hpre : ∀ s, pre' s → pre s) (hpost : ∀ a s, post a s → post' a s) :
    Traverses M pre' x post' :=
  fun s hs => ⟨(h s (hpre s hs)).1, fun a t ht => hpost a t ((h s (hpre s hs)).2 a t ht)⟩

/-- From every state with `pre`, `x` returns a value with `post` if the condition holds,
and fails with `e` if it does not. -/
def Decides (e : ε) (pre : σ → Prop) (x : EStateM ε σ α) (cond : Prop)
    (post : α → σ → Prop) : Prop :=
  ∀ s, pre s → (cond → ∃ a t, x s = .ok a t ∧ post a t) ∧ (¬ cond → ∃ t, x s = .error e t)

variable {e : ε} {cond cond' : Prop}

/-- A sequence returns when both its parts do; the second runs under the condition of
the first. -/
theorem Decides.bind {x : EStateM ε σ α} {f : α → EStateM ε σ β} {last : β → σ → Prop}
    (hx : Decides e pre x cond post)
    (hf : cond → ∀ a, Decides e (post a) (f a) cond' last) :
    Decides e pre (x >>= f) (cond ∧ cond') last := by
  intro s hs
  obtain ⟨hok, herr⟩ := hx s hs
  by_cases hc : cond
  · obtain ⟨a, t, hxa, hpost⟩ := hok hc
    rw [bind_ok hxa]
    obtain ⟨hok', herr'⟩ := hf hc a t hpost
    exact ⟨fun h => hok' h.2, fun h => herr' fun hc' => h ⟨hc, hc'⟩⟩
  · refine ⟨fun h => absurd h.1 hc, fun _ => ?_⟩
    obtain ⟨t, hxt⟩ := herr hc
    exact ⟨t, bind_error hxt⟩

/-- A part that always returns adds no condition. -/
theorem Decides.bind_true {x : EStateM ε σ α} {f : α → EStateM ε σ β}
    {last : β → σ → Prop} (hx : Decides e pre x True post)
    (hf : ∀ a, Decides e (post a) (f a) cond' last) :
    Decides e pre (x >>= f) cond' last := by
  intro s hs
  have h := hx.bind (fun _ => hf) s hs
  rwa [true_and] at h

end IoTFS.Exec
