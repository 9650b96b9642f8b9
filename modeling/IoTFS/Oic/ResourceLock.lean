import IoTFS.Oic.StubProtocol

/-!
# The stub under the lock of discovery

`foundResource` holds `_resourceLock` from before it looks the identifier up until every
`get` made for the resource has returned. Requests of the mounted file system use the stub
without that lock.
-/

namespace IoTFS.Oic

/-- A stub, and the lock under which discovery uses it. -/
structure LockedStub (τ : Type) where
  stub : StubState τ
  /-- The owner of `_resourceLock`. -/
  resourceLock : Option τ

/-- The steps of discovery, and those of the stub. -/
inductive LockedEvent (τ : Type)
  /-- `foundResource` takes `_resourceLock`. -/
  | found (t : τ)
  /-- A step of a `put` or `get`, or of a reply. -/
  | stub (e : StubEvent τ)
  /-- `foundResource` is left, which releases the lock. -/
  | done (t : τ)

namespace LockedStub

variable {τ : Type} [DecidableEq τ]

/-- One atomic step; a thread takes and releases `_resourceLock` outside of `put` and `get`. -/
def step (s : LockedStub τ) : LockedEvent τ → Option (LockedStub τ)
  | .found t =>
    match s.stub.pc t, s.resourceLock with
    | .idle, none => some { s with resourceLock := some t }
    | _, _ => none
  | .stub e => (s.stub.step e).map fun stub => { s with stub := stub }
  | .done t =>
    match s.stub.pc t with
    | .idle => if s.resourceLock = some t then some { s with resourceLock := none } else none
    | _ => none

/-- A stub nobody has used, before the first announcement. -/
def initial : LockedStub τ := ⟨.initial, none⟩

variable {s s' : LockedStub τ} {e : LockedEvent τ}

/-- What each step needs and does. -/
inductive Step (s : LockedStub τ) : LockedEvent τ → LockedStub τ → Prop
  | found (t : τ) : s.stub.pc t = .idle → s.resourceLock = none →
      Step s (.found t) { s with resourceLock := some t }
  | stub (e : StubEvent τ) (stub : StubState τ) : s.stub.step e = some stub →
      Step s (.stub e) { s with stub := stub }
  | done (t : τ) : s.stub.pc t = .idle → s.resourceLock = some t →
      Step s (.done t) { s with resourceLock := none }

theorem step_cases (h : s.step e = some s') : Step s e s' := by
  cases e with
  | found t =>
    simp only [step] at h
    split at h
    · cases h
      exact .found t ‹_› ‹_›
    · cases h
  | stub e =>
    obtain ⟨stub, hstub, rfl⟩ := Option.map_eq_some_iff.mp h
    exact .stub e stub hstub
  | done t =>
    simp only [step] at h
    split at h
    · split at h
      · cases h
        exact .done t ‹_› ‹_›
      · cases h
    · cases h

end LockedStub

end IoTFS.Oic
