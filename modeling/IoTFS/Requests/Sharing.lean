import IoTFS.Files.Encoding
import IoTFS.Files.Race
import IoTFS.Requests.Jobs

/-!
# Each file sees a lock

Seen from one file, the stub shared with other files is a lock that a thread takes when its
request is sent and gives back when its call returns, with the reply handler run in between.
Threads on other files are not seen at all. So what holds of the request threads on one file
holds of every file while all of them use the one stub.
-/

namespace IoTFS.Oic

variable {ι κ τ : Type} [DecidableEq κ]

namespace Job

/-- The call has sent its request for the file `k`. -/
def sentOn (k : κ) : Job κ → Bool
  | putting k' | getting k' | answered k' => k' = k
  | idle | stored _ _ | built _ _ _ | retrieving _ => false

/-- What of a job is seen from the file `k`. -/
def view (k : κ) : Job κ → FilePc
  | idle | retrieving _ => .idle
  | stored k' result => if k' = k then .stored result else .idle
  | built k' result rep => if k' = k then .built result rep else .idle
  | putting k' => if k' = k then .putting else .idle
  | getting k' => if k' = k then .getting else .idle
  | answered k' => if k' = k then .answered else .idle

/-- Before its request is sent a call is nobody's. -/
theorem sentOn_of_not_sent {x : Job κ} (h : x.sent = false) (k : κ) : x.sentOn k = false := by
  cases x with
  | putting | getting | answered => cases h
  | _ => rfl

end Job

namespace SharedStub

/-- What is seen of a shared stub from the file `k`. -/
def view (k : κ) (s : SharedStub ι κ τ) : FileThreads ι τ where
  file := s.files k
  m_rw := s.stub.m_rw.filter fun t => (s.job t).sentOn k
  pc t := (s.job t).view k
  puts := (s.puts.filter fun p => p.1 = k).map Prod.snd

theorem view_start (files : κ → OICFile ι) (k : κ) :
    (start files : SharedStub ι κ τ).view k = .start (files k) := rfl

variable [DecidableEq τ] {s s' : SharedStub ι κ τ} {e : SharedEvent κ τ}

/-- A thread moved on is moved on in the view. -/
theorem view_goto (s : SharedStub ι κ τ) (t : τ) (x : Job κ) (k : κ) :
    (fun u => (s.goto t x u).view k) = (s.view k).goto t (x.view k) := by
  funext u
  rw [goto_apply, FileThreads.goto_apply]
  split <;> rfl

/-- A thread whose place in the view stays the same is not seen to move. -/
theorem view_goto_self (s : SharedStub ι κ τ) {t : τ} {x : Job κ} {k : κ}
    (h : x.view k = (s.job t).view k) : (fun u => (s.goto t x u).view k) = (s.view k).pc := by
  funext u
  rw [goto_apply]
  split
  · rename_i hu
    rw [hu, h]
    rfl
  · rfl

/-- Neither is the owner of the lock when it is owned on the same file as before. -/
theorem owner_goto (s : SharedStub ι κ τ) (m_rw : Option τ) {t : τ} {x : Job κ} {k : κ}
    (h : x.sentOn k = (s.job t).sentOn k) :
    (m_rw.filter fun u => (s.goto t x u).sentOn k) =
      m_rw.filter fun u => (s.job u).sentOn k := by
  congr 1
  funext u
  rw [goto_apply]
  split
  · rename_i hu
    rw [hu, h]
  · rfl

/-- The step is not seen from the file `k`, or it is a step of the file's threads. -/
def Seen (k : κ) (s s' : SharedStub ι κ τ) : Prop :=
  s'.view k = s.view k ∨ ∃ e, (s.view k).step e = some (s'.view k)

/-- A step of the file's threads is seen. -/
theorem seen_of_step {k : κ} {e : FileEvent τ} {x : FileThreads ι τ}
    (hs : FileThreads.Step (s.view k) e x) (hx : s'.view k = x) : Seen k s s' :=
  Or.inr ⟨e, by rw [hx]; exact hs.step_eq⟩

/-- What is seen of a thread that moves without sending anything. -/
theorem view_outside (s : SharedStub ι κ τ) {t : τ} {x : Job κ} (k : κ)
    (ht : (s.job t).sent = false) (hx : x.sent = false) (files : κ → OICFile ι) :
    (⟨files, s.stub, s.goto t x, s.puts⟩ : SharedStub ι κ τ).view k =
      { s.view k with file := files k, pc := (s.view k).goto t (x.view k) } := by
  have howner := owner_goto s s.stub.m_rw (t := t) (x := x) (k := k)
    (by rw [Job.sentOn_of_not_sent ht, Job.sentOn_of_not_sent hx])
  simp only [view, view_goto, howner]

/-- It is not seen on another file. -/
theorem unseen_outside {t : τ} {x : Job κ} {k : κ} (ht : (s.job t).sent = false)
    (hx : x.sent = false) (hpc : x.view k = (s.job t).view k) {files : κ → OICFile ι}
    (hfile : files k = s.files k) : Seen k s ⟨files, s.stub, s.goto t x, s.puts⟩ := by
  refine Or.inl ?_
  rw [view_outside s k ht hx files, ← view_goto, view_goto_self s hpc, hfile]
  rfl

theorem seen_store {t : τ} {l : κ} {input : Str} (hjob : s.job t = .idle) (k : κ) :
    Seen k s { s with
      files := s.refile l ((s.files l).overwritten input)
      job := s.goto t (.stored l (token input)) } := by
  have hsent : (s.job t).sent = false := by rw [hjob]; rfl
  by_cases hl : l = k
  · subst hl
    have hpc : (s.view l).pc t = .idle := congrArg (Job.view l) hjob
    refine seen_of_step (.store t input hpc) ?_
    rw [view_outside s l hsent rfl, refile_apply, if_pos rfl, Job.view, if_pos rfl]
    rfl
  · refine unseen_outside hsent rfl ?_ ?_
    · rw [hjob]
      exact if_neg hl
    · rw [refile_apply, if_neg (Ne.symm hl)]

theorem seen_build {t : τ} {l : κ} {result : Str} {x : Job κ} (hjob : s.job t = .stored l result)
    (hx : x.sent = false) (k : κ) (hunseen : l ≠ k → x.view k = .idle)
    (hseen : FileThreads.Step (s.view l) (.build t)
      { s.view l with pc := (s.view l).goto t (x.view l) }) :
    Seen k s { s with job := s.goto t x } := by
  have hsent : (s.job t).sent = false := by rw [hjob]; rfl
  by_cases hl : l = k
  · subst hl
    exact seen_of_step hseen (view_outside s l hsent hx s.files)
  · refine unseen_outside hsent hx ?_ rfl
    rw [hjob, hunseen hl, Job.view, if_neg hl]

theorem seen_retrieve {t : τ} {l : κ} (hjob : s.job t = .idle) (k : κ) :
    Seen k s { s with job := s.goto t (.retrieving l) } := by
  refine unseen_outside (by rw [hjob]; rfl) rfl ?_ rfl
  rw [hjob]
  rfl

/-- A step of the stub alone leaves the lock with its owner, or gives it to a thread that has
sent nothing yet. -/
theorem m_rw_of_plain {x x' : StubState τ} {e : StubEvent τ} (hs : StubStep x e x')
    (he : e.plain = true) :
    x'.m_rw = x.m_rw ∨ ∃ t, x.m_rw = none ∧ x'.m_rw = some t ∧ x.pc t = .idle := by
  cases hs with
  | acquire t hidle hfree => exact Or.inr ⟨t, hfree, rfl, hidle⟩
  | send | release | callback => cases he
  | _ => exact Or.inl rfl

theorem Inv.seen_plain (h : Inv s) {e : StubEvent τ} {stub : StubState τ} (he : e.plain = true)
    (hs : s.stub.step e = some stub) (k : κ) : Seen k s { s with stub := stub } := by
  refine Or.inl ?_
  simp only [view]
  rcases m_rw_of_plain (stubStep_of_step hs) he with hrw | ⟨t, hfree, hrw, hidle⟩
  · rw [hrw]
  · have hsent : (s.job t).sent = false := h.not_sent (by rw [hidle]; rfl)
    rw [hrw, hfree, Option.filter_some, Job.sentOn_of_not_sent hsent]
    rfl

/-! ### Requests, replies and returns -/

/-- The thread that sends owns the lock of the stub, and before the send no file sees it. -/
theorem Inv.view_send (h : Inv s) {t : τ} {stub : StubState τ} {x : Job κ}
    (hs : s.stub.step (.send t) = some stub) (puts : List (κ × Str × OCRepresentation)) (k : κ) :
    (s.view k).m_rw = none ∧
      (⟨s.files, stub, s.goto t x, puts⟩ : SharedStub ι κ τ).view k = {
        file := s.files k, m_rw := if x.sentOn k then some t else none
        pc := (s.view k).goto t (x.view k)
        puts := (puts.filter fun p => p.1 = k).map Prod.snd } := by
  cases stubStep_of_step hs with
  | send _ hpc =>
    have howner : s.stub.m_rw = some t := h.stub.holder t (by simp [hpc])
    have hsent : (s.job t).sent = false := h.not_sent (by rw [hpc]; rfl)
    constructor
    · simp only [view, howner, Option.filter_some, Job.sentOn_of_not_sent hsent]
      rfl
    · have hown : ((some t).filter fun u => (s.goto t x u).sentOn k) =
          if x.sentOn k then some t else none := by
        simp only [Option.filter_some, goto_apply, if_true]
      rw [← view_goto, ← hown, ← howner]
      rfl

theorem Inv.seen_sendPut (h : Inv s) {t : τ} {stub : StubState τ} {l : κ} {result : Str}
    {rep : OCRepresentation} (hs : s.stub.step (.send t) = some stub)
    (hjob : s.job t = .built l result rep) (k : κ) : Seen k s { s with
      stub := stub, job := s.goto t (.putting l), puts := s.puts ++ [(l, result, rep)] } := by
  obtain ⟨hfree, hview⟩ := h.view_send (x := .putting l) hs (s.puts ++ [(l, result, rep)]) k
  by_cases hl : l = k
  · subst hl
    have hpc : (s.view l).pc t = .built result rep := by
      change (s.job t).view l = _
      rw [hjob]
      exact if_pos rfl
    refine seen_of_step (.put t result rep hpc hfree) ?_
    rw [hview]
    simp [Job.sentOn, Job.view, view]
  · refine Or.inl ?_
    have hpc : (Job.putting l).view k = (s.job t).view k := by
      rw [hjob]
      exact (if_neg hl).trans (if_neg hl).symm
    rw [hview, ← view_goto, view_goto_self s hpc]
    simp only [Job.sentOn, hl, decide_false, Bool.false_eq_true, if_false, ← hfree]
    simp [view, hl]

theorem Inv.seen_sendGet (h : Inv s) {t : τ} {stub : StubState τ} {l : κ}
    (hs : s.stub.step (.send t) = some stub) (hjob : s.job t = .retrieving l) (k : κ) :
    Seen k s { s with stub := stub, job := s.goto t (.getting l) } := by
  obtain ⟨hfree, hview⟩ := h.view_send (x := .getting l) hs s.puts k
  by_cases hl : l = k
  · subst hl
    have hpc : (s.view l).pc t = .idle := congrArg (Job.view l) hjob
    refine seen_of_step (.get t hpc hfree (h.mayRead t l hjob)) ?_
    rw [hview]
    simp [Job.sentOn, Job.view, view]
  · refine Or.inl ?_
    have hpc : (Job.getting l).view k = (s.job t).view k := by
      rw [hjob]
      exact if_neg hl
    rw [hview, ← view_goto, view_goto_self s hpc]
    simp only [Job.sentOn, hl, decide_false, Bool.false_eq_true, if_false, ← hfree]
    rfl

theorem Inv.seen_release (h : Inv s) {t : τ} {stub : StubState τ}
    (hs : s.stub.step (.release t) = some stub) (k : κ) :
    Seen k s { s with stub := stub, job := s.goto t .idle } := by
  obtain ⟨l, hjob⟩ := h.answered_of_release hs
  cases stubStep_of_step hs with
  | release _ r hpc =>
    have howner : s.stub.m_rw = some t := h.stub.holder t (by simp [hpc])
    by_cases hl : l = k
    · subst hl
      have hpc : (s.view l).pc t = .answered := by
        change (s.job t).view l = _
        rw [hjob]
        exact if_pos rfl
      refine seen_of_step (.finish t hpc) ?_
      change FileThreads.mk _ _ (fun u => (s.goto t .idle u).view l) _ = _
      rw [view_goto]
      rfl
    · refine Or.inl ?_
      have hpc : Job.idle.view k = (s.job t).view k := by
        rw [hjob]
        exact (if_neg hl).symm
      have hfree : (s.view k).m_rw = none := by
        simp only [view, howner, Option.filter_some, hjob, Job.sentOn, hl, decide_false]
        rfl
      change FileThreads.mk _ none (fun u => (s.goto t .idle u).view k) _ = _
      rw [view_goto_self s hpc, ← hfree]
      rfl

/-- A reply handler has run, seen from any file. -/
theorem view_reply {n : Nat} {q : StubRequest τ} {stub : StubState τ} {l : κ}
    (hs : s.stub.step (.callback n) = some stub)
    (hjob : ∀ k, (s.job q.caller).sentOn k = decide (l = k)) (file : OICFile ι) (k : κ) :
    ({ s with
      files := s.refile l file, stub := stub
      job := s.goto q.caller (.answered l) } : SharedStub ι κ τ).view k = { s.view k with
        file := s.refile l file k
        pc := (s.view k).goto q.caller ((Job.answered l).view k) } := by
  cases stubStep_of_step hs with
  | callback _ t hreq =>
    have howner := owner_goto s s.stub.m_rw (t := q.caller) (x := .answered l) (k := k)
      (hjob k).symm
    simp only [view, view_goto, howner]

theorem seen_putReply {n : Nat} {reply : Reply} {q : StubRequest τ} {stub : StubState τ} {l : κ}
    (hs : s.stub.step (.callback n) = some stub) (hjob : s.job q.caller = .putting l) (k : κ) :
    Seen k s { s with
      files := s.refile l ((s.files l).didUpdate reply), stub := stub
      job := s.goto q.caller (.answered l) } := by
  have hview := view_reply hs (fun k => by rw [hjob, Job.sentOn]) ((s.files l).didUpdate reply) k
  have hfile : s.refile l ((s.files l).didUpdate reply) k = s.files k := by
    rw [refile_apply]
    split
    · rename_i hk
      rw [hk]
      rfl
    · rfl
  rw [hfile] at hview
  by_cases hl : l = k
  · subst hl
    have hpc : (s.view l).pc q.caller = .putting := by
      change (s.job q.caller).view l = _
      rw [hjob]
      exact if_pos rfl
    refine seen_of_step (.putReply q.caller reply hpc) ?_
    rw [hview, Job.view, if_pos rfl]
    rfl
  · refine Or.inl ?_
    have hpc : (Job.answered l).view k = (s.job q.caller).view k := by
      rw [hjob]
      exact (if_neg hl).trans (if_neg hl).symm
    rw [hview, ← view_goto, view_goto_self s hpc]
    rfl

theorem seen_getReply {n : Nat} {reply : Reply} {q : StubRequest τ} {stub : StubState τ} {l : κ}
    (hs : s.stub.step (.callback n) = some stub) (hjob : s.job q.caller = .getting l) (k : κ) :
    Seen k s { s with
      files := s.refile l ((s.files l).didRetrieve reply), stub := stub
      job := s.goto q.caller (.answered l) } := by
  have hview := view_reply hs (fun k => by rw [hjob, Job.sentOn])
    ((s.files l).didRetrieve reply) k
  by_cases hl : l = k
  · subst hl
    have hpc : (s.view l).pc q.caller = .getting := by
      change (s.job q.caller).view l = _
      rw [hjob]
      exact if_pos rfl
    refine seen_of_step (.getReply q.caller reply hpc) ?_
    rw [hview, refile_apply, if_pos rfl, Job.view, if_pos rfl]
    rfl
  · refine Or.inl ?_
    have hpc : (Job.answered l).view k = (s.job q.caller).view k := by
      rw [hjob]
      exact (if_neg hl).trans (if_neg hl).symm
    rw [hview, refile_apply, if_neg (Ne.symm hl), ← view_goto, view_goto_self s hpc]
    rfl

/-- From any one file every step is a step of its own threads, or not seen. -/
theorem Inv.seen (h : Inv s) (hs : s.step e = some s') (k : κ) : Seen k s s' := by
  cases step_cases hs with
  | store t l input hjob => exact seen_store hjob k
  | refuse t l result hjob hw =>
    exact seen_build hjob rfl k (fun _ => rfl)
      (.refuse t result (by simp [view, hjob, Job.view]) hw)
  | throw t l result hjob hw he =>
    exact seen_build hjob rfl k (fun _ => rfl)
      (.throw t result (by simp [view, hjob, Job.view]) hw he)
  | build t l result rep hjob hw he =>
    refine seen_build hjob rfl k (fun hl => if_neg hl) ?_
    have hbuild := FileThreads.Step.build (s := s.view l) t result rep
      (by simp [view, hjob, Job.view]) hw he
    rwa [Job.view, if_pos rfl]
  | retrieve t l hjob => exact seen_retrieve hjob k
  | plain e stub he hstub => exact h.seen_plain he hstub k
  | sendPut t stub l result rep hstub hjob => exact h.seen_sendPut hstub hjob k
  | sendGet t stub l hstub hjob => exact h.seen_sendGet hstub hjob k
  | release t stub hstub => exact h.seen_release hstub k
  | putReply n reply q stub l hq hstub hjob => exact seen_putReply hstub hjob k
  | getReply n reply q stub l hq hstub hjob => exact seen_getReply hstub hjob k

/-- A run on the files of a stub is, seen from one of them, a run of its own threads. -/
theorem reach_view {ok : SharedStub ι κ τ → SharedEvent κ τ → Prop} {files : κ → OICFile ι}
    (h : Machine.Reach step ok (start files) s) (k : κ) :
    Machine.Reach FileThreads.step (fun _ _ => True) (.start (files k)) (s.view k) := by
  have hattach := h.attach Inv (inv_start files) fun _ _ _ hi _ hs => hi.step hs
  rw [← view_start files k]
  refine hattach.simulate (view k) fun s e s' hi hs => ?_
  rcases hi.2.seen hs k with heq | ⟨e', he'⟩
  · exact Or.inl heq
  · exact Or.inr ⟨e', trivial, he'⟩

/-- A step is one of the stub, or leaves the stub alone. -/
theorem stub_of_step (hs : s.step e = some s') : s'.stub = s.stub ∧ e.stub? = none ∨
    ∃ f, e.stub? = some f ∧ s.stub.step f = some s'.stub := by
  cases step_cases hs with
  | store | refuse | throw | build | retrieve => exact Or.inl ⟨rfl, rfl⟩
  | plain e stub _ hstub => exact Or.inr ⟨e, rfl, hstub⟩
  | sendPut t stub _ _ _ hstub => exact Or.inr ⟨.send t, rfl, hstub⟩
  | sendGet t stub _ hstub => exact Or.inr ⟨.send t, rfl, hstub⟩
  | release t stub hstub => exact Or.inr ⟨.release t, rfl, hstub⟩
  | putReply n _ _ stub _ _ hstub => exact Or.inr ⟨.callback n, rfl, hstub⟩
  | getReply n _ _ stub _ _ hstub => exact Or.inr ⟨.callback n, rfl, hstub⟩

/-- Seen from the stub, it is a run of the stub, with the steps of the stub permitted there. -/
theorem reach_sharedStub {ok : SharedStub ι κ τ → SharedEvent κ τ → Prop}
    {ok' : StubState τ → StubEvent τ → Prop} (hok : ∀ s e, ok s e → ∀ f ∈ e.stub?, ok' s.stub f)
    {files : κ → OICFile ι} (h : Machine.Reach step ok (start files) s) :
    Machine.Reach StubState.step ok' .initial s.stub := by
  refine h.simulate SharedStub.stub fun s e s' he hs => ?_
  rcases stub_of_step hs with ⟨hsame, -⟩ | ⟨f, hf, hstub⟩
  · exact Or.inl hsame
  · exact Or.inr ⟨f, hok s e he f hf, hstub⟩

/-- Every run in which any number of threads read and write the files that share a stub is a
run of the stub's protocol and, for each file, a run of that file's request threads alone, in
which the stub is a lock: the threads, replies and requests of the other files never reach it.
Sends may be refused and wake-ups spurious. -/
theorem shared_stub_refines (files : κ → OICFile ι) (s : SharedStub ι κ τ)
    (h : Machine.Reach step (fun _ _ => True) (start files) s) :
    Machine.Reach StubState.step (fun _ _ => True) .initial s.stub ∧
      ∀ k, Machine.Reach FileThreads.step (fun _ _ => True) (.start (files k)) (s.view k) :=
  ⟨reach_sharedStub (fun _ _ _ _ _ => trivial) h, reach_view h⟩

/-- Thread 0 writes the first file and thread 1 then reads the second. -/
def sampleSharing : List (SharedEvent Nat Nat) :=
  [.store 0 0 ['7'], .build 0, .retrieve 1 1] ++
    ([.acquire 0, .raise 0, .send 0, .sendReturn 0].map .stub ++ [.callback 0 ⟨0, .empty⟩] ++
      [.clear 0, .lock 0, .test 0, .unlock 0, .release 0].map .stub ++
      [.acquire 1, .raise 1, .send 1].map .stub ++ [.callback 1 ⟨OC_STACK_OK, sampleValue 9⟩])

theorem shared_stub_refines_sampleSharing : ∃ s : SharedStub Unit Nat Nat,
    s.puts = [(0, ['7'], sampleValue 7)] ∧ (s.view 1).puts = [] ∧
      Machine.Reach FileThreads.step (fun _ _ => True) (.start sampleOpen) (s.view 1) := by
  have hrun : ((Machine.exec step (start fun _ => sampleOpen) sampleSharing).any fun s =>
      s.puts = [(0, ['7'], sampleValue 7)] ∧ (s.view 1).puts = []) = true := by decide
  obtain ⟨s, hs, hend⟩ := (Option.any_eq_true _ _).mp hrun
  obtain ⟨hputs, hview⟩ := of_decide_eq_true hend
  exact ⟨s, hputs, hview, (shared_stub_refines (fun _ => sampleOpen) s
    (.of_exec (fun _ _ _ => trivial) hs)).2 1⟩

end SharedStub

/-! ### What the requests on a shared stub carry -/

/-- Every item has the name and the type of an attribute of the file. -/
def OICFile.Covers (f : OICFile ι) (rep : OCRepresentation) : Prop :=
  ∀ n u, (n, u) ∈ rep.items → (n, u.type) ∈ f.values.types

omit [DecidableEq κ] in
theorem OICFile.covers_of_encode {f : OICFile ι} {values : OICFileAttributes}
    {rep : OCRepresentation} (htypes : values.types = f.values.types)
    (he : encode values = some rep) : f.Covers rep := by
  intro n u hu
  obtain ⟨d, hd, hconv⟩ := (mem_encode he n u).mp hu
  rw [← htypes]
  exact OICFileAttributes.mem_types.mpr ⟨d, hd, (OICFileDescriptor.type_converted hconv).symm⟩

/-- A file keeps all but its contents, and what its writes build and send names its own
attributes. -/
structure OwnAttributes (f : OICFile ι) (s : FileThreads ι τ) : Prop where
  shape : OICFile.SameShape f s.file
  built : ∀ t result rep, s.pc t = .built result rep → f.mayWrite = true ∧ f.Covers rep
  puts : ∀ result rep, (result, rep) ∈ s.puts → f.mayWrite = true ∧ f.Covers rep

variable [DecidableEq τ] {f : OICFile ι} {s s' : FileThreads ι τ} {e : FileEvent τ}

/-- Moving a thread to a place where nothing new is built. -/
theorem OwnAttributes.move (h : OwnAttributes f s) {t : τ} {x : FilePc} {m_rw : Option τ}
    {puts : List (Str × OCRepresentation)} {file : OICFile ι}
    (hshape : OICFile.SameShape s.file file)
    (hbuilt : ∀ result rep, x = .built result rep → f.mayWrite = true ∧ f.Covers rep)
    (hputs : ∀ result rep, (result, rep) ∈ puts → f.mayWrite = true ∧ f.Covers rep) :
    OwnAttributes f ⟨file, m_rw, s.goto t x, puts⟩ where
  shape := h.shape.trans hshape
  built := FileThreads.built_goto h.built hbuilt
  puts := hputs

theorem OwnAttributes.step (h : OwnAttributes f s) (hs : s.step e = some s') :
    OwnAttributes f s' := by
  cases FileThreads.step_cases hs with
  | store t input =>
    exact h.move (OICFile.sameShape_overwritten s.file input) (fun _ _ hx => by cases hx) h.puts
  | build t result rep hpc hw hrep =>
    refine h.move (.refl _) (fun result' rep' hx => ?_) h.puts
    cases hx
    exact ⟨by rw [← h.shape.mayWrite, hw], OICFile.covers_of_encode h.shape.types hrep⟩
  | put t result rep hpc =>
    refine h.move (.refl _) (fun _ _ hx => by cases hx) fun result' rep' hm => ?_
    rcases List.mem_append.mp hm with hm | hm
    · exact h.puts result' rep' hm
    · cases List.mem_singleton.mp hm
      exact h.built t result rep hpc
  | getReply t reply =>
    exact h.move (OICFile.sameShape_didRetrieve _ reply) (fun _ _ hx => by cases hx) h.puts
  | refuse | throw | get | putReply | finish =>
    exact h.move (.refl _) (fun _ _ hx => by cases hx) h.puts

theorem ownAttributes_of_reach {ok : FileThreads ι τ → FileEvent τ → Prop}
    (h : Machine.Reach FileThreads.step ok (.start f) s) : OwnAttributes f s := by
  refine h.invariant (OwnAttributes f) ⟨.refl f, fun t result rep ht => ?_, fun _ _ hm => ?_⟩
    fun _ _ _ hi _ hs => hi.step hs
  · cases ht
  · cases hm

/-- However the requests on the files of one stub interleave, a file keeps its name, its
permissions and its attributes with their types, and every PUT sent for it is sent with the
Write permission of that file and carries nothing but attributes of that file, in their
types. -/
theorem puts_of_shared_stub (files : κ → OICFile ι) (s : SharedStub ι κ τ)
    (h : Machine.Reach SharedStub.step (fun _ _ => True) (.start files) s) (k : κ) :
    OICFile.SameShape (files k) (s.files k) ∧ ∀ result rep, (k, result, rep) ∈ s.puts →
      (files k).mayWrite = true ∧ (files k).Covers rep := by
  have hown := ownAttributes_of_reach (SharedStub.reach_view h k)
  refine ⟨hown.shape, fun result rep hmem => hown.puts result rep ?_⟩
  exact List.mem_map_of_mem (f := Prod.snd) (List.mem_filter.mpr ⟨hmem, by simp⟩)

theorem puts_of_shared_stub_sampleSharing : ∃ s : SharedStub Unit Nat Nat,
    (0, ['7'], sampleValue 7) ∈ s.puts ∧ sampleOpen.mayWrite = true ∧
      sampleOpen.Covers (sampleValue 7) := by
  have hrun : ((Machine.exec SharedStub.step (.start fun _ => sampleOpen)
      SharedStub.sampleSharing).any fun s : SharedStub Unit Nat Nat =>
      (0, ['7'], sampleValue 7) ∈ s.puts) = true := by decide
  obtain ⟨s, hs, hend⟩ := (Option.any_eq_true _ _).mp hrun
  have hmem := of_decide_eq_true hend
  have hall := (puts_of_shared_stub (fun _ => sampleOpen) s
    (.of_exec (fun _ _ _ => trivial) hs) 0).2
  exact ⟨s, hmem, hall _ _ hmem⟩

end IoTFS.Oic
