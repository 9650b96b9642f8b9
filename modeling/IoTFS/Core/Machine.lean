import Mathlib.Logic.Basic

/-!
# Labelled machines with a partial step function

A machine is a partial step function: a disabled label has no successor.
Reachability carries a side condition on every step, so that one induction rule
serves both the unrestricted runs and the runs of a restricted scheduler.
-/

namespace IoTFS.Machine

variable {σ ε : Type*}

/-- Run a word of labels, failing at the first disabled one. -/
def exec (step : σ → ε → Option σ) : σ → List ε → Option σ
  | s, [] => some s
  | s, e :: es => (step s e).bind fun t => exec step t es

/-- The states reached from `s₀` by runs all of whose steps satisfy `ok`. -/
inductive Reach (step : σ → ε → Option σ) (ok : σ → ε → Prop) (s₀ : σ) : σ → Prop
  | refl : Reach step ok s₀ s₀
  | next {s t : σ} {e : ε} : Reach step ok s₀ s → ok s e → step s e = some t →
      Reach step ok s₀ t

variable {step : σ → ε → Option σ} {ok : σ → ε → Prop} {s₀ s t : σ}

@[simp] theorem exec_nil : exec step s [] = some s := rfl

@[simp] theorem exec_cons (e : ε) (es : List ε) :
    exec step s (e :: es) = (step s e).bind fun t => exec step t es := rfl

/-- Running two words one after the other. -/
theorem exec_append (es fs : List ε) :
    exec step s (es ++ fs) = (exec step s es).bind fun t => exec step t fs := by
  induction es generalizing s with
  | nil => rfl
  | cons e es ih =>
    rw [List.cons_append, exec_cons, exec_cons, Option.bind_assoc]
    exact congrArg _ (funext fun t => ih)

/-- A run of two words passes through a state between them. -/
theorem exec_append_eq_some {es fs : List ε} : exec step s (es ++ fs) = some t ↔
    ∃ u, exec step s es = some u ∧ exec step u fs = some t := by
  rw [exec_append, Option.bind_eq_some_iff]

/-- An inductive invariant of the permitted steps holds in every reached state. -/
theorem Reach.invariant (Inv : σ → Prop) (h₀ : Inv s₀)
    (hstep : ∀ s e t, Inv s → ok s e → step s e = some t → Inv t)
    (h : Reach step ok s₀ s) : Inv s := by
  induction h with
  | refl => exact h₀
  | next _ hok hs ih => exact hstep _ _ _ ih hok hs

/-- Reaching is transitive. -/
theorem Reach.trans (h : Reach step ok s₀ s) (h' : Reach step ok s t) :
    Reach step ok s₀ t := by
  induction h' with
  | refl => exact h
  | next _ ho hs ih => exact .next ih ho hs

/-- A successful word of labels that are always permitted is a run. -/
theorem Reach.of_exec {es : List ε} (hok : ∀ e ∈ es, ∀ s, ok s e)
    (h : exec step s es = some t) : Reach step ok s t := by
  induction es generalizing s with
  | nil =>
    cases h
    exact .refl
  | cons e es ih =>
    obtain ⟨u, hu, ht⟩ := Option.bind_eq_some_iff.mp h
    have hrest := ih (fun e he => hok e (List.mem_cons_of_mem _ he)) ht
    exact Reach.trans (.next .refl (hok e (List.mem_cons_self ..) s) hu) hrest

/-- A run seen through a map is a run, if what is seen of a step is a step or nothing. -/
theorem Reach.simulate {σ' ε' : Type*} {step' : σ' → ε' → Option σ'} {ok' : σ' → ε' → Prop}
    (f : σ → σ')
    (hstep : ∀ s e t, ok s e → step s e = some t →
      f t = f s ∨ ∃ e', ok' (f s) e' ∧ step' (f s) e' = some (f t))
    (h : Reach step ok s₀ s) : Reach step' ok' (f s₀) (f s) := by
  induction h with
  | refl => exact .refl
  | next _ hok hs ih =>
    rcases hstep _ _ _ hok hs with heq | ⟨e', hok', hs'⟩
    · rw [heq]
      exact ih
    · exact .next ih hok' hs'

/-- In a run that keeps an invariant, every step is taken in a state with it. -/
theorem Reach.attach (Inv : σ → Prop) (h₀ : Inv s₀)
    (hstep : ∀ s e t, Inv s → ok s e → step s e = some t → Inv t)
    (h : Reach step ok s₀ s) : Reach step (fun s e => ok s e ∧ Inv s) s₀ s := by
  induction h with
  | refl => exact .refl
  | next hreach hok hs ih => exact .next ih ⟨hok, hreach.invariant Inv h₀ hstep⟩ hs

/-- Take the permitted steps only. -/
def guarded (step : σ → ε → Option σ) (ok : σ → ε → Prop) [∀ s e, Decidable (ok s e)]
    (s : σ) (e : ε) : Option σ :=
  if ok s e then step s e else none

/-- A successful word of permitted steps is a run. -/
theorem Reach.of_guarded [∀ s e, Decidable (ok s e)] {es : List ε}
    (h : exec (guarded step ok) s es = some t) : Reach step ok s t := by
  induction es generalizing s with
  | nil => cases h; exact .refl
  | cons e es ih =>
    obtain ⟨u, hu, ht⟩ := Option.bind_eq_some_iff.mp h
    unfold guarded at hu
    split at hu
    · rename_i hok
      exact Reach.trans (.next .refl hok hu) (ih ht)
    · cases hu

end IoTFS.Machine
