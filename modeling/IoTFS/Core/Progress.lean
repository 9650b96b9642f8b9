import IoTFS.Core.Machine

/-!
# Runs that settle

A run of permitted steps is kept together with its labels. Where a variant goes down at
every permitted step, a run is no longer than the variant it starts from, and every state
leads to one in which no permitted step is left.
-/

namespace IoTFS.Machine

variable {σ ε : Type*}

/-- A run of permitted steps, with the labels taken. -/
inductive Run (step : σ → ε → Option σ) (ok : σ → ε → Prop) : σ → List ε → σ → Prop
  | nil (s : σ) : Run step ok s [] s
  | cons {s t u : σ} {e : ε} {es : List ε} : ok s e → step s e = some t →
      Run step ok t es u → Run step ok s (e :: es) u

/-- No permitted step is left. -/
def Settled (step : σ → ε → Option σ) (ok : σ → ε → Prop) (s : σ) : Prop :=
  ∀ e, ok s e → step s e = none

variable {step : σ → ε → Option σ} {ok ok' : σ → ε → Prop} {s t : σ} {es : List ε}

/-- The end of a run is reached. -/
theorem Run.reach (h : Run step ok s es t) : Reach step ok s t := by
  induction h with
  | nil s => exact .refl
  | cons hok hs _ ih => exact Reach.trans (.next .refl hok hs) ih

/-- What holds of the labels before a run, and is kept by every permitted step, holds of them
and those of the run. -/
theorem Run.history {p : List ε → σ → Prop}
    (hstep : ∀ pre s e t, p pre s → ok s e → step s e = some t → p (pre ++ [e]) t)
    (h : Run step ok s es t) {pre : List ε} (hpre : p pre s) : p (pre ++ es) t := by
  induction h generalizing pre with
  | nil s => rwa [List.append_nil]
  | @cons s t u e es hok hs _ ih =>
    have hrest := ih (hstep pre s e t hpre hok hs)
    rwa [List.append_assoc] at hrest

/-- What reaching with fewer permitted steps allows, reaching with more allows too. -/
theorem Reach.mono (hok : ∀ s e, ok s e → ok' s e) (h : Reach step ok s t) :
    Reach step ok' s t := by
  induction h with
  | refl => exact .refl
  | next _ ho hs ih => exact .next ih (hok _ _ ho) hs

/-- A successful word of labels that are always permitted is a run. -/
theorem Run.of_exec (hok : ∀ e ∈ es, ∀ s, ok s e) (h : exec step s es = some t) :
    Run step ok s es t := by
  induction es generalizing s with
  | nil =>
    cases h
    exact .nil _
  | cons e es ih =>
    obtain ⟨u, hu, ht⟩ := Option.bind_eq_some_iff.mp h
    exact .cons (hok e (List.mem_cons_self ..) s) hu
      (ih (fun e he => hok e (List.mem_cons_of_mem _ he)) ht)

/-- On the states with `Inv`, every permitted step keeps `Inv` and lowers `μ`. -/
structure Variant (step : σ → ε → Option σ) (ok : σ → ε → Prop) (Inv : σ → Prop)
    (μ : σ → Nat) : Prop where
  keeps : ∀ s e t, Inv s → ok s e → step s e = some t → Inv t
  lowers : ∀ s e t, Inv s → ok s e → step s e = some t → μ t < μ s

variable {Inv : σ → Prop} {μ : σ → Nat}

/-- A variant stays one when fewer steps are permitted. -/
theorem Variant.restrict (hv : Variant step ok Inv μ) (hok : ∀ s e, ok' s e → ok s e) :
    Variant step ok' Inv μ where
  keeps s e t hs he := hv.keeps s e t hs (hok s e he)
  lowers s e t hs he := hv.lowers s e t hs (hok s e he)

/-- The variant pays for every step of a run. -/
theorem Variant.length_add_le (hv : Variant step ok Inv μ) (hs : Inv s)
    (h : Run step ok s es t) : es.length + μ t ≤ μ s := by
  induction h with
  | nil s => simp
  | @cons s t u e es hok hst _ ih =>
    have hrest := ih (hv.keeps s e t hs hok hst)
    have hlow := hv.lowers s e t hs hok hst
    simp only [List.length_cons]
    omega

/-- Some run leads to a state in which no permitted step is left. -/
theorem Variant.settles (hv : Variant step ok Inv μ) (hs : Inv s) :
    ∃ es t, Run step ok s es t ∧ Settled step ok t := by
  induction hn : μ s using Nat.strongRecOn generalizing s with
  | ind n ih =>
    by_cases hdone : Settled step ok s
    · exact ⟨[], s, .nil s, hdone⟩
    · simp only [Settled, not_forall] at hdone
      obtain ⟨e, hok, hne⟩ := hdone
      obtain ⟨t, ht⟩ := Option.ne_none_iff_exists'.mp hne
      have hlow := hv.lowers s e t hs hok ht
      obtain ⟨es, u, hrun, hset⟩ := ih (μ t) (hn ▸ hlow) (hv.keeps s e t hs hok ht) rfl
      exact ⟨e :: es, u, .cons hok ht hrun, hset⟩

end IoTFS.Machine
