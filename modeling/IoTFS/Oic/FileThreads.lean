import IoTFS.Core.Machine
import IoTFS.Oic.File
import Mathlib.Logic.Function.Basic

/-!
# Request threads on one file

The daemon runs its requests without a lock, so the steps of any number of reads and
writes on a file interleave: a write stores its token, builds the representation, and only
then takes the stub's request lock to send it; a read takes that lock, and the reply to its
GET is applied to the file while the lock is held.
-/

namespace IoTFS.Oic

variable {ι τ : Type} [DecidableEq τ]

/-- Where a request thread is. -/
inductive FilePc
  | idle
  /-- `write` has stored its token in every content. -/
  | stored (result : Str)
  /-- `update` has built the representation. -/
  | built (result : Str) (rep : OCRepresentation)
  /-- The stub has sent the PUT. -/
  | putting
  /-- The stub has sent the GET. -/
  | getting
  /-- The reply handler has run. -/
  | answered
  deriving DecidableEq

/-- A bound file and its request threads. -/
structure FileThreads (ι τ : Type) where
  file : OICFile ι
  /-- The owner of the stub's request lock. -/
  m_rw : Option τ
  pc : τ → FilePc
  /-- Each PUT sent, with the token of the write it was sent for. -/
  puts : List (Str × OCRepresentation)

/-- The steps of the request threads and of the device. -/
inductive FileEvent (τ : Type)
  | store (t : τ) (input : Str)
  | build (t : τ)
  | put (t : τ)
  | get (t : τ)
  | putReply (t : τ) (reply : Reply)
  | getReply (t : τ) (reply : Reply)
  | finish (t : τ)

namespace FileThreads

/-- The positions after moving one thread. -/
def goto (s : FileThreads ι τ) (t : τ) (x : FilePc) : τ → FilePc := Function.update s.pc t x

/-- One atomic step; a step that cannot be taken has no successor. -/
def step (s : FileThreads ι τ) : FileEvent τ → Option (FileThreads ι τ)
  | .store t input =>
    match s.pc t with
    | .idle => some { s with
        file := { s.file with values := s.file.values.setContents (token input) }
        pc := s.goto t (.stored (token input)) }
    | _ => none
  | .build t =>
    match s.pc t with
    | .stored result =>
      if s.file.mayWrite then
        match encode s.file.values with
        | some rep => some { s with pc := s.goto t (.built result rep) }
        | none => some { s with pc := s.goto t .idle }
      else some { s with pc := s.goto t .idle }
    | _ => none
  | .put t =>
    match s.pc t, s.m_rw with
    | .built result rep, none => some { s with
        m_rw := some t, pc := s.goto t .putting, puts := s.puts ++ [(result, rep)] }
    | _, _ => none
  | .get t =>
    match s.pc t, s.m_rw with
    | .idle, none =>
      if s.file.mayRead then some { s with m_rw := some t, pc := s.goto t .getting } else none
    | _, _ => none
  | .putReply t reply =>
    match s.pc t with
    | .putting => some { s with file := s.file.didUpdate reply, pc := s.goto t .answered }
    | _ => none
  | .getReply t reply =>
    match s.pc t with
    | .getting => some { s with file := s.file.didRetrieve reply, pc := s.goto t .answered }
    | _ => none
  | .finish t =>
    match s.pc t with
    | .answered => some { s with m_rw := none, pc := s.goto t .idle }
    | _ => none

/-- A file no request is being made on. -/
def start (f : OICFile ι) : FileThreads ι τ := ⟨f, none, fun _ => .idle, []⟩

variable {s s' : FileThreads ι τ} {e : FileEvent τ}

theorem goto_apply (s : FileThreads ι τ) (t u : τ) (x : FilePc) :
    s.goto t x u = if u = t then x else s.pc u := Function.update_apply _ _ _ _

/-- A thread is where it was moved, or where it was before. -/
theorem goto_cases {t u : τ} {x y : FilePc} (h : s.goto t x u = y) :
    (u = t ∧ x = y) ∨ (u ≠ t ∧ s.pc u = y) := by
  rw [goto_apply] at h
  by_cases hu : u = t
  · rw [if_pos hu] at h
    exact Or.inl ⟨hu, h⟩
  · rw [if_neg hu] at h
    exact Or.inr ⟨hu, h⟩

/-- What holds of every representation built, and of the one where the thread goes. -/
theorem built_goto {p : Str → OCRepresentation → Prop} {t : τ} {x : FilePc}
    (hold : ∀ u result rep, s.pc u = .built result rep → p result rep)
    (hnew : ∀ result rep, x = .built result rep → p result rep) (u : τ) (result : Str)
    (rep : OCRepresentation) (hu : s.goto t x u = .built result rep) : p result rep := by
  rcases goto_cases hu with ⟨-, hx⟩ | ⟨-, hu⟩
  · exact hnew result rep hx
  · exact hold u result rep hu

/-- What each step needs and does. -/
inductive Step (s : FileThreads ι τ) : FileEvent τ → FileThreads ι τ → Prop
  | store (t : τ) (input : Str) : s.pc t = .idle →
      Step s (.store t input) { s with
        file := { s.file with values := s.file.values.setContents (token input) }
        pc := s.goto t (.stored (token input)) }
  /-- Without the Write bit nothing is built. -/
  | refuse (t : τ) (result : Str) : s.pc t = .stored result → s.file.mayWrite = false →
      Step s (.build t) { s with pc := s.goto t .idle }
  /-- A content does not convert. -/
  | throw (t : τ) (result : Str) : s.pc t = .stored result → s.file.mayWrite = true →
      encode s.file.values = none → Step s (.build t) { s with pc := s.goto t .idle }
  | build (t : τ) (result : Str) (rep : OCRepresentation) : s.pc t = .stored result →
      s.file.mayWrite = true → encode s.file.values = some rep →
      Step s (.build t) { s with pc := s.goto t (.built result rep) }
  | put (t : τ) (result : Str) (rep : OCRepresentation) : s.pc t = .built result rep →
      s.m_rw = none →
      Step s (.put t) { s with
        m_rw := some t, pc := s.goto t .putting, puts := s.puts ++ [(result, rep)] }
  | get (t : τ) : s.pc t = .idle → s.m_rw = none → s.file.mayRead = true →
      Step s (.get t) { s with m_rw := some t, pc := s.goto t .getting }
  | putReply (t : τ) (reply : Reply) : s.pc t = .putting →
      Step s (.putReply t reply) { s with pc := s.goto t .answered }
  | getReply (t : τ) (reply : Reply) : s.pc t = .getting →
      Step s (.getReply t reply) { s with
        file := s.file.didRetrieve reply, pc := s.goto t .answered }
  | finish (t : τ) : s.pc t = .answered →
      Step s (.finish t) { s with m_rw := none, pc := s.goto t .idle }

theorem step_cases (h : s.step e = some s') : Step s e s' := by
  cases e with
  | store t input =>
    simp only [step] at h
    split at h
    · cases h
      exact .store t input ‹_›
    · cases h
  | build t =>
    simp only [step] at h
    split at h
    · rename_i result hpc
      split at h
      · rename_i hw
        split at h
        · cases h
          exact .build t result _ hpc hw ‹_›
        · cases h
          exact .throw t result hpc hw ‹_›
      · cases h
        exact .refuse t result hpc (eq_false_of_ne_true ‹_›)
    · cases h
  | put t =>
    simp only [step] at h
    split at h
    · cases h
      exact .put t _ _ ‹_› ‹_›
    · cases h
  | get t =>
    simp only [step] at h
    split at h
    · split at h
      · cases h
        exact .get t ‹_› ‹_› ‹_›
      · cases h
    · cases h
  | putReply t reply =>
    simp only [step] at h
    split at h
    · cases h
      exact .putReply t reply ‹_›
    · cases h
  | getReply t reply =>
    simp only [step] at h
    split at h
    · cases h
      exact .getReply t reply ‹_›
    · cases h
  | finish t =>
    simp only [step] at h
    split at h
    · cases h
      exact .finish t ‹_›
    · cases h

/-- Each of these can be taken. -/
theorem Step.step_eq (h : Step s e s') : s.step e = some s' := by
  cases h <;> simp [FileThreads.step, OICFile.didUpdate, *]

end FileThreads

end IoTFS.Oic
