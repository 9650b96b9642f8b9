import IoTFS.Oic.FileThreads
import IoTFS.Oic.StubProtocol

/-!
# Files that share a stub

The files of a resource-type folder hold one stub, and the requests of the mounted file
system run on all of them at once. A thread is in a call on one file, and inside the stub
while it is in `put` or `get`. The reply handler of the call runs when the stack invokes the
callback, in a thread of the stack.
-/

namespace IoTFS.Oic

/-- How far a request thread is, and on which file. -/
inductive Job (κ : Type)
  | idle
  /-- `write` has stored its token in every content. -/
  | stored (k : κ) (result : Str)
  /-- `update` has built the representation and calls `put`. -/
  | built (k : κ) (result : Str) (rep : OCRepresentation)
  /-- `retrieve` calls `get`. -/
  | retrieving (k : κ)
  /-- The PUT is accepted. -/
  | putting (k : κ)
  /-- The GET is accepted. -/
  | getting (k : κ)
  /-- The reply handler has run. -/
  | answered (k : κ)

/-- A stub, the files bound to it, and the request threads. -/
structure SharedStub (ι κ τ : Type) where
  files : κ → OICFile ι
  stub : StubState τ
  job : τ → Job κ
  /-- Each PUT sent, with its file and the token of the write it was sent for. -/
  puts : List (κ × Str × OCRepresentation)

/-- The steps of the request threads on the files, and those of the stub. -/
inductive SharedEvent (κ τ : Type)
  | store (t : τ) (k : κ) (input : Str)
  | build (t : τ)
  | retrieve (t : τ) (k : κ)
  | stub (e : StubEvent τ)
  /-- The callback of a request runs the reply handler. -/
  | callback (n : Nat) (reply : Reply)

/-- A step of a call or of a reply that changes no job. -/
def StubEvent.plain {τ : Type} : StubEvent τ → Bool
  | .send _ | .release _ | .callback _ => false
  | _ => true

/-- The step of the stub a step is. -/
def SharedEvent.stub? {κ τ : Type} : SharedEvent κ τ → Option (StubEvent τ)
  | .stub e => some e
  | .callback n _ => some (.callback n)
  | .store _ _ _ | .build _ | .retrieve _ _ => none

namespace SharedStub

variable {ι κ τ : Type}

/-- The jobs after moving one thread on. -/
def goto [DecidableEq τ] (s : SharedStub ι κ τ) (t : τ) (x : Job κ) : τ → Job κ :=
  Function.update s.job t x

theorem goto_apply [DecidableEq τ] (s : SharedStub ι κ τ) (t u : τ) (x : Job κ) :
    s.goto t x u = if u = t then x else s.job u := Function.update_apply _ _ _ _

/-- The files after one of them has changed. -/
def refile [DecidableEq κ] (s : SharedStub ι κ τ) (k : κ) (file : OICFile ι) : κ → OICFile ι :=
  Function.update s.files k file

theorem refile_apply [DecidableEq κ] (s : SharedStub ι κ τ) (k l : κ) (file : OICFile ι) :
    s.refile k file l = if l = k then file else s.files l := Function.update_apply _ _ _ _

variable [DecidableEq κ] [DecidableEq τ]

/-- A thread enters the stub when it calls `put` or `get`. -/
def acquire (s : SharedStub ι κ τ) (t : τ) (stub : StubState τ) : Option (SharedStub ι κ τ) :=
  match s.job t with
  | .built _ _ _ | .retrieving _ => some { s with stub := stub }
  | _ => none

/-- What the thread sends is what it called the stub with. -/
def send (s : SharedStub ι κ τ) (t : τ) (stub : StubState τ) : Option (SharedStub ι κ τ) :=
  match s.job t with
  | .built k result rep => some { s with
      stub := stub, job := s.goto t (.putting k), puts := s.puts ++ [(k, result, rep)] }
  | .retrieving k => some { s with stub := stub, job := s.goto t (.getting k) }
  | _ => none

/-- The handler of the caller's request: `didUpdate` or `didRetrieve` of its file. -/
def handle (s : SharedStub ι κ τ) (t : τ) (reply : Reply) (stub : StubState τ) :
    Option (SharedStub ι κ τ) :=
  match s.job t with
  | .putting k => some { s with
      files := s.refile k ((s.files k).didUpdate reply), stub := stub
      job := s.goto t (.answered k) }
  | .getting k => some { s with
      files := s.refile k ((s.files k).didRetrieve reply), stub := stub
      job := s.goto t (.answered k) }
  | _ => none

/-- One atomic step; a step that cannot be taken has no successor. -/
def step (s : SharedStub ι κ τ) : SharedEvent κ τ → Option (SharedStub ι κ τ)
  | .store t k input =>
    match s.job t with
    | .idle => some { s with
        files := s.refile k ((s.files k).overwritten input)
        job := s.goto t (.stored k (token input)) }
    | _ => none
  | .build t =>
    match s.job t with
    | .stored k result =>
      if (s.files k).mayWrite then
        match encode (s.files k).values with
        | some rep => some { s with job := s.goto t (.built k result rep) }
        | none => some { s with job := s.goto t .idle }
      else some { s with job := s.goto t .idle }
    | _ => none
  | .retrieve t k =>
    match s.job t with
    | .idle => if (s.files k).mayRead then some { s with job := s.goto t (.retrieving k) } else none
    | _ => none
  | .stub (.acquire t) => (s.stub.step (.acquire t)).bind (s.acquire t)
  | .stub (.send t) => (s.stub.step (.send t)).bind (s.send t)
  | .stub (.release t) =>
    (s.stub.step (.release t)).map fun stub => { s with stub := stub, job := s.goto t .idle }
  | .stub (.callback _) => none
  | .stub e => (s.stub.step e).map fun stub => { s with stub := stub }
  | .callback n reply =>
    match s.stub.requests[n]? with
    | some q => (s.stub.step (.callback n)).bind (s.handle q.caller reply)
    | none => none

/-- Files no request is being made on, and a stub nobody has used. -/
def start (files : κ → OICFile ι) : SharedStub ι κ τ := ⟨files, .initial, fun _ => .idle, []⟩

variable {s s' : SharedStub ι κ τ} {e : SharedEvent κ τ}

/-- What each step needs and does. -/
inductive Step (s : SharedStub ι κ τ) : SharedEvent κ τ → SharedStub ι κ τ → Prop
  | store (t : τ) (k : κ) (input : Str) : s.job t = .idle →
      Step s (.store t k input) { s with
        files := s.refile k ((s.files k).overwritten input)
        job := s.goto t (.stored k (token input)) }
  /-- Without the Write bit nothing is built. -/
  | refuse (t : τ) (k : κ) (result : Str) : s.job t = .stored k result →
      (s.files k).mayWrite = false → Step s (.build t) { s with job := s.goto t .idle }
  /-- A content does not convert. -/
  | throw (t : τ) (k : κ) (result : Str) : s.job t = .stored k result →
      (s.files k).mayWrite = true → encode (s.files k).values = none →
      Step s (.build t) { s with job := s.goto t .idle }
  | build (t : τ) (k : κ) (result : Str) (rep : OCRepresentation) :
      s.job t = .stored k result → (s.files k).mayWrite = true →
      encode (s.files k).values = some rep →
      Step s (.build t) { s with job := s.goto t (.built k result rep) }
  | retrieve (t : τ) (k : κ) : s.job t = .idle → (s.files k).mayRead = true →
      Step s (.retrieve t k) { s with job := s.goto t (.retrieving k) }
  /-- The stub moves and no job does. -/
  | plain (e : StubEvent τ) (stub : StubState τ) : e.plain = true →
      s.stub.step e = some stub → Step s (.stub e) { s with stub := stub }
  | sendPut (t : τ) (stub : StubState τ) (k : κ) (result : Str) (rep : OCRepresentation) :
      s.stub.step (.send t) = some stub → s.job t = .built k result rep →
      Step s (.stub (.send t)) { s with
        stub := stub, job := s.goto t (.putting k), puts := s.puts ++ [(k, result, rep)] }
  | sendGet (t : τ) (stub : StubState τ) (k : κ) : s.stub.step (.send t) = some stub →
      s.job t = .retrieving k →
      Step s (.stub (.send t)) { s with stub := stub, job := s.goto t (.getting k) }
  | release (t : τ) (stub : StubState τ) : s.stub.step (.release t) = some stub →
      Step s (.stub (.release t)) { s with stub := stub, job := s.goto t .idle }
  | putReply (n : Nat) (reply : Reply) (q : StubRequest τ) (stub : StubState τ) (k : κ) :
      s.stub.requests[n]? = some q → s.stub.step (.callback n) = some stub →
      s.job q.caller = .putting k →
      Step s (.callback n reply) { s with
        files := s.refile k ((s.files k).didUpdate reply), stub := stub
        job := s.goto q.caller (.answered k) }
  | getReply (n : Nat) (reply : Reply) (q : StubRequest τ) (stub : StubState τ) (k : κ) :
      s.stub.requests[n]? = some q → s.stub.step (.callback n) = some stub →
      s.job q.caller = .getting k →
      Step s (.callback n reply) { s with
        files := s.refile k ((s.files k).didRetrieve reply), stub := stub
        job := s.goto q.caller (.answered k) }

/-- A step of the stub that is not one of the calls' own changes nothing else. -/
theorem step_cases_stub {e : StubEvent τ} (h : s.step (.stub e) = some s') :
    Step s (.stub e) s' := by
  cases e with
  | acquire t =>
    obtain ⟨stub, hstub, h⟩ := Option.bind_eq_some_iff.mp h
    unfold acquire at h
    split at h
    · cases h
      exact .plain _ stub rfl hstub
    · cases h
      exact .plain _ stub rfl hstub
    · cases h
  | send t =>
    obtain ⟨stub, hstub, h⟩ := Option.bind_eq_some_iff.mp h
    unfold send at h
    split at h
    · cases h
      exact .sendPut t stub _ _ _ hstub ‹_›
    · cases h
      exact .sendGet t stub _ hstub ‹_›
    · cases h
  | release t =>
    obtain ⟨stub, hstub, rfl⟩ := Option.map_eq_some_iff.mp h
    exact .release t stub hstub
  | callback n => cases h
  | raise | refuse | sendReturn | lock | test | park | wake | relock | unlock | clear
  | notify =>
    obtain ⟨stub, hstub, rfl⟩ := Option.map_eq_some_iff.mp h
    exact .plain _ stub rfl hstub

theorem step_cases (h : s.step e = some s') : Step s e s' := by
  cases e with
  | store t k input =>
    simp only [step] at h
    split at h
    · cases h
      exact .store t k input ‹_›
    · cases h
  | build t =>
    simp only [step] at h
    split at h
    · rename_i k result hjob
      split at h
      · rename_i hw
        split at h
        · cases h
          exact .build t k result _ hjob hw ‹_›
        · cases h
          exact .throw t k result hjob hw ‹_›
      · cases h
        exact .refuse t k result hjob (eq_false_of_ne_true ‹_›)
    · cases h
  | retrieve t k =>
    simp only [step] at h
    split at h
    · split at h
      · cases h
        exact .retrieve t k ‹_› ‹_›
      · cases h
    · cases h
  | stub e => exact step_cases_stub h
  | callback n reply =>
    simp only [step] at h
    split at h
    · rename_i q hq
      obtain ⟨stub, hstub, h⟩ := Option.bind_eq_some_iff.mp h
      unfold handle at h
      split at h
      · cases h
        exact .putReply n reply q stub _ hq hstub ‹_›
      · cases h
        exact .getReply n reply q stub _ hq hstub ‹_›
      · cases h
    · cases h

end SharedStub

end IoTFS.Oic
