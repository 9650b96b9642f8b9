import IoTFS.Core.Machine
import Mathlib.Logic.Function.Basic

/-!
# The request protocol of a stub

`put` and `get` differ only in the request they hand to the stack: both take `_m_rw`,
raise `_isWaiting`, send, and wait on `_cv` under `_m` until the flag is down. The reply
thread runs the callback and then `resume`, which lowers the flag and notifies without
holding any lock. Every listed step is atomic and memory is sequentially consistent; the
callback may run before the send call returns, and a wake-up may be spurious.
-/

namespace IoTFS.Oic

variable {τ : Type} [DecidableEq τ]

/-- How far the reply to an accepted request has been handled. -/
inductive Phase
  /-- The wrapped callback has not run. -/
  | inFlight
  /-- `callback(ho, rep, ecode)` has returned. -/
  | ran
  /-- `_isWaiting = false` has been executed. -/
  | cleared
  /-- `_cv.notify_one()` has been executed. -/
  | resumed
  deriving DecidableEq, Repr

/-- The reply to the request has not lowered the flag yet. -/
def Phase.outstanding : Phase → Bool
  | inFlight | ran => true
  | cleared | resumed => false

/-- An accepted request: who sent it, and how far its reply is. -/
structure StubRequest (τ : Type) where
  caller : τ
  phase : Phase
  deriving DecidableEq

/-- Where a thread is in `put` or `get`. From the send on it carries the number of its
request, which is missing if the stack refused it. -/
inductive Pc
  /-- Outside, or blocked on `_m_rw`. -/
  | idle
  /-- Holds `_m_rw`. -/
  | owning
  /-- Has executed `_isWaiting = true`. -/
  | armed
  /-- The request is accepted, the send call has not returned. -/
  | sending (n : Nat)
  /-- In `wait`, before or while blocked on `_m`. -/
  | waiting (r : Option Nat)
  /-- Holds `_m`, before the test of `_isWaiting`. -/
  | testing (r : Option Nat)
  /-- Has seen the flag up, before the park. -/
  | parking (r : Option Nat)
  /-- Parked on `_cv`. -/
  | parked (r : Option Nat)
  /-- Woken, before or while blocked on `_m`. -/
  | woken (r : Option Nat)
  /-- Has seen the flag down. -/
  | leaving (r : Option Nat)
  /-- Has released `_m`. -/
  | unlocked (r : Option Nat)
  deriving DecidableEq, Repr

/-- The request a thread has sent and not yet returned from. -/
def Pc.request : Pc → Option Nat
  | idle | owning | armed => none
  | sending n => some n
  | waiting r | testing r | parking r | parked r | woken r | leaving r | unlocked r => r

/-- The thread is parked on `_cv`. -/
def Pc.isParked : Pc → Bool
  | parked _ => true
  | _ => false

/-- The thread has seen the flag down and has not returned. -/
def Pc.isDone : Pc → Bool
  | leaving _ | unlocked _ => true
  | _ => false

/-- A stub and the threads that use it. -/
structure StubState (τ : Type) where
  isWaiting : Bool
  /-- The owner of `_m_rw`. -/
  m_rw : Option τ
  /-- The owner of `_m`. -/
  m : Option τ
  /-- The threads parked on `_cv`. -/
  cv : List τ
  pc : τ → Pc
  /-- The accepted requests, in the order of their sends. -/
  requests : List (StubRequest τ)
  /-- The calls that have returned, with the request each of them sent. -/
  returns : List (τ × Option Nat)

/-- The steps of the callers and of the reply threads. -/
inductive StubEvent (τ : Type)
  | acquire (t : τ)
  | raise (t : τ)
  | send (t : τ)
  | refuse (t : τ)
  | sendReturn (t : τ)
  | lock (t : τ)
  | test (t : τ)
  | park (t : τ)
  | wake (t : τ)
  | relock (t : τ)
  | unlock (t : τ)
  | release (t : τ)
  | callback (n : Nat)
  | clear (n : Nat)
  | notify (n : Nat) (woken : Option τ)

namespace StubState

/-- The positions after moving one thread. -/
def goto (s : StubState τ) (t : τ) (x : Pc) : τ → Pc := Function.update s.pc t x

/-- The requests after advancing the reply to one of them. -/
def advance (s : StubState τ) (n : Nat) (caller : τ) (phase : Phase) : List (StubRequest τ) :=
  s.requests.set n ⟨caller, phase⟩

/-- Take a parked thread off the condition variable. -/
def unpark (s : StubState τ) (t : τ) : Option (StubState τ) :=
  match s.pc t with
  | .parked r =>
    if t ∈ s.cv then some { s with cv := s.cv.filter (· ≠ t), pc := s.goto t (.woken r) }
    else none
  | _ => none

/-- `notify_one`: wakes a parked thread if there is one. -/
def notifyOne (s : StubState τ) : Option τ → Option (StubState τ)
  | none => if s.cv = [] then some s else none
  | some t => s.unpark t

/-- One atomic step; a step that cannot be taken has no successor. -/
def step (s : StubState τ) : StubEvent τ → Option (StubState τ)
  | .acquire t =>
    match s.pc t, s.m_rw with
    | .idle, none => some { s with m_rw := some t, pc := s.goto t .owning }
    | _, _ => none
  | .raise t =>
    match s.pc t with
    | .owning => some { s with isWaiting := true, pc := s.goto t .armed }
    | _ => none
  | .send t =>
    match s.pc t with
    | .armed => some { s with
        requests := s.requests ++ [⟨t, .inFlight⟩]
        pc := s.goto t (.sending s.requests.length) }
    | _ => none
  | .refuse t =>
    match s.pc t with
    | .armed => some { s with pc := s.goto t (.waiting none) }
    | _ => none
  | .sendReturn t =>
    match s.pc t with
    | .sending n => some { s with pc := s.goto t (.waiting (some n)) }
    | _ => none
  | .lock t =>
    match s.pc t, s.m with
    | .waiting r, none => some { s with m := some t, pc := s.goto t (.testing r) }
    | _, _ => none
  | .test t =>
    match s.pc t with
    | .testing r =>
      some { s with pc := s.goto t (if s.isWaiting then .parking r else .leaving r) }
    | _ => none
  | .park t =>
    match s.pc t with
    | .parking r => some { s with m := none, cv := s.cv ++ [t], pc := s.goto t (.parked r) }
    | _ => none
  | .wake t => s.unpark t
  | .relock t =>
    match s.pc t, s.m with
    | .woken r, none => some { s with m := some t, pc := s.goto t (.testing r) }
    | _, _ => none
  | .unlock t =>
    match s.pc t with
    | .leaving r => some { s with m := none, pc := s.goto t (.unlocked r) }
    | _ => none
  | .release t =>
    match s.pc t with
    | .unlocked r => some { s with
        m_rw := none, returns := s.returns ++ [(t, r)], pc := s.goto t .idle }
    | _ => none
  | .callback n =>
    match s.requests[n]? with
    | some ⟨t, .inFlight⟩ => some { s with requests := s.advance n t .ran }
    | _ => none
  | .clear n =>
    match s.requests[n]? with
    | some ⟨t, .ran⟩ => some { s with isWaiting := false, requests := s.advance n t .cleared }
    | _ => none
  | .notify n woken =>
    match s.requests[n]? with
    | some ⟨t, .cleared⟩ =>
      (s.notifyOne woken).map fun s' => { s' with requests := s'.advance n t .resumed }
    | _ => none

/-- A stub nobody has used. -/
def initial : StubState τ := ⟨false, none, none, [], fun _ => .idle, [], []⟩

end StubState

end IoTFS.Oic
