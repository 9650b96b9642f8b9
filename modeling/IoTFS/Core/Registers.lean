import IoTFS.Core.Machine
import Mathlib.Logic.Function.Basic

/-!
# Registers with a history

A bank of registers is read, written and changed from outside, and every access is logged.
Replaying a log gives the values a run ends with, so a read shows the latest value written
to its register or put there from outside.
-/

namespace IoTFS

/-- An access to a bank of registers; a read is logged with the text it showed. -/
inductive Access (κ ν τ : Type*)
  | read (k : κ) (t : τ)
  | wrote (k : κ) (v : ν)
  | changed (value : κ → ν)

/-- The registers and their history. -/
structure Registers (κ ν τ : Type*) where
  value : κ → ν
  log : List (Access κ ν τ)

/-- What is done to a bank of registers. -/
inductive RegisterEvent (κ ν : Type*)
  | read (k : κ)
  | write (k : κ) (v : ν)
  | change (value : κ → ν)

namespace Registers

variable {κ ν τ : Type*} [DecidableEq κ]

/-- One access; a register whose value has no text cannot be read. -/
def step (text : ν → Option τ) (s : Registers κ ν τ) :
    RegisterEvent κ ν → Option (Registers κ ν τ)
  | .read k => (text (s.value k)).map fun t => { s with log := s.log ++ [.read k t] }
  | .write k v => some ⟨Function.update s.value k v, s.log ++ [.wrote k v]⟩
  | .change value => some ⟨value, s.log ++ [.changed value]⟩

/-- The values after one more access. -/
def after (value : κ → ν) : Access κ ν τ → κ → ν
  | .read _ _ => value
  | .wrote k v => Function.update value k v
  | .changed value => value

/-- The values after the accesses of a log. -/
def replay (value : κ → ν) (log : List (Access κ ν τ)) : κ → ν := log.foldl after value

theorem replay_concat (value : κ → ν) (log : List (Access κ ν τ)) (a : Access κ ν τ) :
    replay value (log ++ [a]) = after (replay value log) a := by
  rw [replay, List.foldl_append]
  rfl

/-- The access leaves the register `k` alone. -/
def Spares (k : κ) : Access κ ν τ → Prop
  | .read _ _ => True
  | .wrote k' _ => k' ≠ k
  | .changed _ => False

/-- Accesses that spare a register leave its value. -/
theorem replay_of_spares {k : κ} (value : κ → ν) {log : List (Access κ ν τ)}
    (h : ∀ a ∈ log, Spares k a) : replay value log k = value k := by
  induction log generalizing value with
  | nil => rfl
  | cons a log ih =>
    have hrest := ih (after value a) fun b hb => h b (List.mem_cons_of_mem _ hb)
    have ha := h a (List.mem_cons_self ..)
    rw [replay, List.foldl_cons]
    refine hrest.trans ?_
    cases a with
    | read => rfl
    | wrote k' v => exact Function.update_of_ne (Ne.symm ha) v value
    | changed => exact absurd ha id

/-- The latest value written to a register is the one it holds. -/
theorem replay_wrote (value : κ → ν) (pre mid : List (Access κ ν τ)) (k : κ) (v : ν)
    (h : ∀ a ∈ mid, Spares k a) : replay value (pre ++ .wrote k v :: mid) k = v := by
  rw [replay, List.foldl_append, List.foldl_cons]
  refine (replay_of_spares _ h).trans ?_
  simp only [after, Function.update_self]

/-- The values are those of the log, and every read showed the value of its time. -/
structure Consistent (text : ν → Option τ) (value : κ → ν) (s : Registers κ ν τ) : Prop where
  current : s.value = replay value s.log
  reads : ∀ pre k t post, s.log = pre ++ .read k t :: post → text (replay value pre k) = some t

variable {text : ν → Option τ} {value : κ → ν} {s s' : Registers κ ν τ}

/-- What was read in a longer log was read before, or last. -/
theorem Consistent.reads_concat (h : Consistent text value s) {a : Access κ ν τ}
    (hnew : ∀ k t, a = .read k t → text (s.value k) = some t) (pre : List (Access κ ν τ))
    (k : κ) (t : τ) (post : List (Access κ ν τ)) (hlog : s.log ++ [a] = pre ++ .read k t :: post) :
    text (replay value pre k) = some t := by
  rcases List.eq_nil_or_concat post with rfl | ⟨post, b, rfl⟩
  · obtain ⟨rfl, hlast⟩ := List.append_inj' hlog rfl
    rw [← h.current]
    exact hnew k t (List.singleton_inj.mp hlast)
  · have hinit : s.log = pre ++ .read k t :: post := by
      have heq : s.log ++ [a] = (pre ++ .read k t :: post) ++ [b] := by simpa using hlog
      exact List.append_inj_left' heq rfl
    exact h.reads pre k t post hinit

theorem Consistent.step {e : RegisterEvent κ ν} (h : Consistent text value s)
    (hs : s.step text e = some s') : Consistent text value s' := by
  cases e with
  | read k =>
    obtain ⟨t, ht, rfl⟩ := Option.map_eq_some_iff.mp hs
    refine ⟨by rw [replay_concat, ← h.current]; rfl, h.reads_concat fun k' t' he => ?_⟩
    cases he
    exact ht
  | write k v =>
    cases hs
    exact ⟨by rw [replay_concat, ← h.current]; rfl, h.reads_concat fun _ _ he => by cases he⟩
  | change value' =>
    cases hs
    exact ⟨by rw [replay_concat]; rfl, h.reads_concat fun _ _ he => by cases he⟩

/-- Every run of accesses is consistent. -/
theorem consistent_of_reach {ok : Registers κ ν τ → RegisterEvent κ ν → Prop}
    (h : Machine.Reach (step text) ok ⟨value, []⟩ s) : Consistent text value s := by
  refine h.invariant (Consistent text value) ⟨rfl, fun pre k t post hlog => ?_⟩
    fun _ _ _ hi _ hs => hi.step hs
  simp at hlog

end Registers

end IoTFS
