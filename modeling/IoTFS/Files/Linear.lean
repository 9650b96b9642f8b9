import IoTFS.Core.Progress
import IoTFS.Files.Race

/-!
# The calls in the order of their effects

However the steps of the calls on a file interleave, its contents are those that the calls
would leave behind one after the other, in the order in which the writes store their tokens
and the reads apply their replies. The PUTs follow only where the calls do not overlap: each
of them carries what the file held at some moment of that order.
-/

namespace IoTFS.Oic

variable {ι τ : Type}

/-- The call that takes its effect on the file in a step. -/
def FileEvent.call : FileEvent τ → Option FileOp
  | .store _ input => some (.write input ⟨OC_STACK_OK, .empty⟩)
  | .getReply _ reply => some (.read reply)
  | .build _ | .put _ | .get _ | .putReply .. | .finish _ => none

/-- The calls of a run, in the order of their effects. -/
def calls (es : List (FileEvent τ)) : List FileOp := es.filterMap FileEvent.call

theorem calls_concat (es : List (FileEvent τ)) (e : FileEvent τ) :
    calls (es ++ [e]) = calls es ++ e.call.toList := by
  rw [calls, List.filterMap_append]
  cases he : e.call with
  | none => simp [calls, he]
  | some op => simp [calls, he]

/-- The session after a step without an effect. -/
theorem calls_concat_of_none {e : FileEvent τ} (h : e.call = none) (es : List (FileEvent τ)) :
    calls (es ++ [e]) = calls es := by
  rw [calls_concat, h, Option.toList_none, List.append_nil]

/-- What a PUT carries. -/
def Request.rep? : Request → Option OCRepresentation
  | .put rep => some rep
  | .get => none

/-- What the PUTs of a session carried. -/
def Session.puts (S : Session ι) : List OCRepresentation :=
  S.history.flatMap fun call => call.2.sent.filterMap Request.rep?

/-- A call adds its PUTs. -/
theorem Session.puts_serve (S : Session ι) (op : FileOp) :
    (S.serve op).puts = S.puts ++ (S.file.perform op).sent.filterMap Request.rep? := by
  rw [puts, serve, List.flatMap_append, List.flatMap_singleton, ← puts]

/-- A write leaves its token behind, and its PUT carries what that is converted to. -/
theorem OICFile.perform_write {f : OICFile ι} (hb : f.stub.isSome = true) (input : Str)
    (answer : Reply) : (f.perform (.write input answer)).file = f.overwritten input ∧
      (f.perform (.write input answer)).sent.filterMap Request.rep? =
        if f.mayWrite then (encode (f.overwritten input).values).toList else [] := by
  have hcall := f.perform_call (.write input answer)
  generalize f.perform (.write input answer) = out at hcall
  cases hcall with
  | writeUnbound _ _ hn => simp [hn] at hb
  | writeRefused _ _ _ hw => simp [hw]
  | writeRejected _ _ _ hw he =>
    have he' : encode (f.overwritten input).values = none := he
    simp [hw, he']
  | writeSent _ _ rep _ hw he =>
    have he' : encode (f.overwritten input).values = some rep := he
    simp [hw, he', Request.rep?]

/-- A permitted read leaves what the reply makes of the file, and puts nothing. -/
theorem OICFile.perform_read {f : OICFile ι} (hb : f.stub.isSome = true)
    (hr : f.mayRead = true) (reply : Reply) :
    (f.perform (.read reply)).file = f.didRetrieve reply ∧
      (f.perform (.read reply)).sent.filterMap Request.rep? = [] := by
  rw [OICFile.perform, OICFile.read_sent hb hr]
  exact ⟨rfl, rfl⟩

variable {f : OICFile ι} {s s' : FileThreads ι τ} {e : FileEvent τ}
  {es : List (FileEvent τ)}

/-! ### Any interleaving -/

/-- The file is that of the session, and what was built is what it held at some moment. -/
structure Linear (f : OICFile ι) (es : List (FileEvent τ)) (s : FileThreads ι τ) : Prop where
  bound : f.stub.isSome = true
  file : s.file = (session f (calls es)).file
  reading : ∀ t, s.pc t = .getting → s.file.mayRead = true
  built : ∀ t result rep, s.pc t = .built result rep →
    ∃ pre, pre <+: es ∧ encode (session f (calls pre)).file.values = some rep
  puts : ∀ result rep, (result, rep) ∈ s.puts →
    ∃ pre, pre <+: es ∧ encode (session f (calls pre)).file.values = some rep

/-- A session changes contents only, so what is permitted stays so. -/
theorem Linear.shape (h : Linear f es s) : OICFile.SameShape f s.file :=
  h.file ▸ sameShape_session f (calls es)

theorem Linear.start (hb : f.stub.isSome = true) : Linear f [] (.start f : FileThreads ι τ) where
  bound := hb
  file := rfl
  reading t ht := by cases ht
  built t result rep ht := by cases ht
  puts result rep hm := by cases hm

variable [DecidableEq τ]

/-- Moving a thread in a step without an effect. -/
theorem Linear.move (h : Linear f es s) (hcall : e.call = none) {t : τ} {x : FilePc}
    {m_rw : Option τ} {puts : List (Str × OCRepresentation)}
    (hreading : x = .getting → s.file.mayRead = true)
    (hbuilt : ∀ result rep, x = .built result rep → encode s.file.values = some rep)
    (hputs : ∀ result rep, (result, rep) ∈ puts →
      (result, rep) ∈ s.puts ∨ s.pc t = .built result rep) :
    Linear f (es ++ [e]) ⟨s.file, m_rw, s.goto t x, puts⟩ := by
  have hmono {rep : OCRepresentation}
      (hpre : ∃ pre, pre <+: es ∧ encode (session f (calls pre)).file.values = some rep) :
      ∃ pre, pre <+: es ++ [e] ∧ encode (session f (calls pre)).file.values = some rep := by
    obtain ⟨pre, hpre, henc⟩ := hpre
    exact ⟨pre, hpre.trans (List.prefix_append _ _), henc⟩
  refine ⟨h.bound, by rw [calls_concat_of_none hcall]; exact h.file, fun u hu => ?_, ?_,
    fun result rep hm => ?_⟩
  · rcases FileThreads.goto_cases hu with ⟨-, hx⟩ | ⟨-, hu⟩
    · exact hreading hx
    · exact h.reading u hu
  · refine FileThreads.built_goto (fun u result rep hu => hmono (h.built u result rep hu))
      fun result rep hx => ⟨es, List.prefix_append _ _, ?_⟩
    rw [← h.file]
    exact hbuilt result rep hx
  · rcases hputs result rep hm with hold | hpc
    · exact hmono (h.puts result rep hold)
    · exact hmono (h.built t result rep hpc)

/-- A call takes its effect. -/
theorem Linear.effect (h : Linear f es s) {op : FileOp} (hcall : e.call = some op) {t : τ}
    {x : FilePc} (hx : x ≠ .getting ∧ ∀ result rep, x ≠ .built result rep) :
    Linear f (es ++ [e]) { s with file := (s.file.perform op).file, pc := s.goto t x } := by
  have hfile : (s.file.perform op).file = (session f (calls (es ++ [e]))).file := by
    rw [calls_concat, hcall, Option.toList_some, session_concat, Session.serve, ← h.file]
  have hshape := (s.file.perform_call op).sameShape
  refine ⟨h.bound, hfile, fun u hu => ?_, ?_, fun result rep hm => ?_⟩
  · rcases FileThreads.goto_cases hu with ⟨-, hx'⟩ | ⟨-, hu⟩
    · exact absurd hx' hx.1
    · exact hshape.mayRead.trans (h.reading u hu)
  · refine FileThreads.built_goto (fun u result rep hu => ?_)
      fun result rep hx' => absurd hx' (hx.2 result rep)
    obtain ⟨pre, hpre, henc⟩ := h.built u result rep hu
    exact ⟨pre, hpre.trans (List.prefix_append _ _), henc⟩
  · obtain ⟨pre, hpre, henc⟩ := h.puts result rep hm
    exact ⟨pre, hpre.trans (List.prefix_append _ _), henc⟩

theorem Linear.step (h : Linear f es s) (hs : s.step e = some s') :
    Linear f (es ++ [e]) s' := by
  have hb : s.file.stub.isSome = true := h.shape.bound.trans h.bound
  cases FileThreads.step_cases hs with
  | store t input =>
    have heffect := h.effect (e := .store t input) (t := t) (x := .stored (token input)) rfl
      ⟨by simp, by simp⟩
    rwa [(OICFile.perform_write hb input _).1] at heffect
  | getReply t reply hpc =>
    have heffect := h.effect (e := .getReply t reply) (t := t) (x := .answered) rfl
      ⟨by simp, by simp⟩
    rwa [(OICFile.perform_read hb (h.reading t hpc) reply).1] at heffect
  | build t result rep _ _ hrep =>
    refine h.move rfl (fun hx => by cases hx) (fun _ _ hx => ?_) fun _ _ hm => .inl hm
    cases hx
    exact hrep
  | put t result rep hpc =>
    refine h.move rfl (fun hx => by cases hx) (fun _ _ hx => by cases hx) fun _ _ hm => ?_
    rcases List.mem_append.mp hm with hm | hm
    · exact .inl hm
    · cases List.mem_singleton.mp hm
      exact .inr hpc
  | get t _ _ hr => exact h.move rfl (fun _ => hr) (fun _ _ hx => by cases hx) fun _ _ hm => .inl hm
  | refuse | throw | putReply | finish =>
    exact h.move rfl (fun hx => by cases hx) (fun _ _ hx => by cases hx) fun _ _ hm => .inl hm

/-- However the steps of reads and writes on a bound file interleave, its contents are those
the calls leave behind one after the other, in the order of their effects, and every PUT
carries what the file held at some moment of that order. -/
theorem threads_linear (f : OICFile ι) (hb : f.stub.isSome = true) (es : List (FileEvent τ))
    (s : FileThreads ι τ) (h : Machine.exec FileThreads.step (.start f) es = some s) :
    s.file = (session f (calls es)).file ∧
      ∀ result rep, (result, rep) ∈ s.puts →
        ∃ pre, pre <+: es ∧ encode (session f (calls pre)).file.values = some rep := by
  have hrun : Machine.Run FileThreads.step (fun _ _ => True) (.start f) es s :=
    .of_exec (fun _ _ _ => trivial) h
  have hinv : Linear f es s :=
    hrun.history (fun _ _ _ _ hi _ hs => Linear.step hi hs) (Linear.start hb)
  exact ⟨hinv.file, hinv.puts⟩

/-- A read is under way, and a write stores its token, before the first write builds its
representation. -/
def sampleOverlap : List (FileEvent Nat) :=
  [.store 0 ['1'], .get 2, .store 1 ['2'], .build 0, .getReply 2 ⟨OC_STACK_OK, sampleValue 3⟩,
    .finish 2, .put 0]

theorem threads_linear_sampleOverlap : ∃ s : FileThreads Unit Nat,
    s.puts = [(['1'], sampleValue 2)] ∧ s.file.printed = ['3'] ∧
      s.file = (session sampleOpen (calls sampleOverlap)).file := by
  have hrun : ((Machine.exec FileThreads.step (.start sampleOpen) sampleOverlap).any fun s =>
      s.puts = [(['1'], sampleValue 2)] ∧ s.file.printed = ['3']) = true := by decide +kernel
  obtain ⟨s, hs, hshown⟩ := (Option.any_eq_true _ _).mp hrun
  obtain ⟨hputs, hprinted⟩ := of_decide_eq_true hshown
  exact ⟨s, hputs, hprinted, (threads_linear sampleOpen rfl sampleOverlap s hs).1⟩

/-! ### Calls that do not overlap -/

/-- A call begins only when none is under way. -/
def Alone (s : FileThreads ι τ) : FileEvent τ → Prop
  | .store .. | .get _ => ∀ u, s.pc u = .idle
  | .build _ | .put _ | .putReply .. | .getReply .. | .finish _ => True

/-- The PUT that a thread has still to send. -/
def owed (f : OICFile ι) : FilePc → List OCRepresentation
  | .stored _ => if f.mayWrite then (encode f.values).toList else []
  | .built _ rep => [rep]
  | .idle | .putting | .getting | .answered => []

/-- At most one call is under way, and the PUTs sent and owed are those of the session. -/
structure Serialised (f : OICFile ι) (es : List (FileEvent τ)) (s : FileThreads ι τ) : Prop where
  linear : Linear f es s
  single : ∀ u v, s.pc u ≠ .idle → s.pc v ≠ .idle → u = v
  quiet : (∀ u, s.pc u = .idle) → s.puts.map Prod.snd = (session f (calls es)).puts
  active : ∀ u, s.pc u ≠ .idle →
    s.puts.map Prod.snd ++ owed s.file (s.pc u) = (session f (calls es)).puts

/-- Where all others are outside, a thread moves alone. -/
theorem Serialised.of_goto {t : τ} {x : FilePc} {s : FileThreads ι τ} {s' : FileThreads ι τ}
    (hlinear : Linear f es s') (hpc : s'.pc = s.goto t x) (hothers : ∀ u ≠ t, s.pc u = .idle)
    (hputs : s'.puts.map Prod.snd ++ owed s'.file x = (session f (calls es)).puts) :
    Serialised f es s' := by
  have hself : s'.pc t = x := by rw [hpc, FileThreads.goto_apply, if_pos rfl]
  have hactive (u : τ) (hu : s'.pc u ≠ .idle) : u = t := by
    by_contra hne
    rw [hpc, FileThreads.goto_apply, if_neg hne] at hu
    exact hu (hothers u hne)
  refine ⟨hlinear, fun u v hu hv => (hactive u hu).trans (hactive v hv).symm, fun hall => ?_,
    fun u hu => ?_⟩
  · rw [← hself, hall t] at hputs
    simpa [owed] using hputs
  · rw [hactive u hu, hself]
    exact hputs

/-- The PUTs sent and owed, while one thread at most is inside. -/
theorem Serialised.total (h : Serialised f es s) {t : τ} (hothers : ∀ u ≠ t, s.pc u = .idle) :
    s.puts.map Prod.snd ++ owed s.file (s.pc t) = (session f (calls es)).puts := by
  by_cases ht : s.pc t = .idle
  · have hall (u : τ) : s.pc u = .idle := by
      by_cases hu : u = t
      · rw [hu, ht]
      · exact hothers u hu
    rw [ht, owed, List.append_nil]
    exact h.quiet hall
  · exact h.active t ht

theorem Serialised.step (h : Serialised f es s) (halone : Alone s e) (hs : s.step e = some s') :
    Serialised f (es ++ [e]) s' := by
  have hlinear := h.linear.step hs
  have hb : s.file.stub.isSome = true := h.linear.shape.bound.trans h.linear.bound
  have hinside {t : τ} (ht : s.pc t ≠ .idle) (u : τ) (hu : u ≠ t) : s.pc u = .idle := by
    by_contra hidle
    exact hu (h.single u t hidle ht)
  cases FileThreads.step_cases hs with
  | store t input hpc =>
    have htotal := h.total (t := t) fun u _ => halone u
    rw [hpc, owed, List.append_nil] at htotal
    refine .of_goto hlinear rfl (fun u _ => halone u) ?_
    rw [calls_concat, FileEvent.call, Option.toList_some, session_concat, Session.puts_serve,
      ← h.linear.file, (OICFile.perform_write hb input _).2, htotal]
    rfl
  | get t hpc =>
    have htotal := h.total (t := t) fun u _ => halone u
    rw [hpc] at htotal
    exact .of_goto hlinear rfl (fun u _ => halone u) (by rwa [calls_concat_of_none rfl])
  | refuse t result hpc hw =>
    have hothers := hinside (t := t) (by rw [hpc]; simp)
    have htotal := h.total hothers
    simp only [hpc, owed, hw, Bool.false_eq_true, if_false] at htotal
    exact .of_goto hlinear rfl hothers (by rwa [calls_concat_of_none rfl])
  | throw t result hpc hw he =>
    have hothers := hinside (t := t) (by rw [hpc]; simp)
    have htotal := h.total hothers
    simp only [hpc, owed, hw, he, if_true, Option.toList_none] at htotal
    exact .of_goto hlinear rfl hothers (by rwa [calls_concat_of_none rfl])
  | build t result rep hpc hw he =>
    have hothers := hinside (t := t) (by rw [hpc]; simp)
    have htotal := h.total hothers
    simp only [hpc, owed, hw, he, if_true, Option.toList_some] at htotal
    exact .of_goto hlinear rfl hothers (by rwa [calls_concat_of_none rfl])
  | put t result rep hpc =>
    have hothers := hinside (t := t) (by rw [hpc]; simp)
    have htotal := h.total hothers
    rw [hpc, owed] at htotal
    refine .of_goto hlinear rfl hothers ?_
    rw [calls_concat_of_none rfl, owed, List.append_nil, List.map_append]
    exact htotal
  | putReply t reply hpc =>
    have hothers := hinside (t := t) (by rw [hpc]; simp)
    have htotal := h.total hothers
    rw [hpc] at htotal
    exact .of_goto hlinear rfl hothers (by rwa [calls_concat_of_none rfl])
  | getReply t reply hpc =>
    have hothers := hinside (t := t) (by rw [hpc]; simp)
    have htotal := h.total hothers
    rw [hpc, owed, List.append_nil] at htotal
    refine .of_goto hlinear rfl hothers ?_
    rw [calls_concat, FileEvent.call, Option.toList_some, session_concat, Session.puts_serve,
      ← h.linear.file, (OICFile.perform_read hb (h.linear.reading t hpc) reply).2, ← htotal]
    rfl
  | finish t hpc =>
    have hothers := hinside (t := t) (by rw [hpc]; simp)
    have htotal := h.total hothers
    rw [hpc] at htotal
    exact .of_goto hlinear rfl hothers (by rwa [calls_concat_of_none rfl])

/-- When calls on a bound file do not overlap, the threads do between them what the calls do
one after the other: once all are through, the file is left as they leave it and the same
PUTs have been sent in the same order. -/
theorem serial_threads_perform (f : OICFile ι) (hb : f.stub.isSome = true)
    (es : List (FileEvent τ)) (s : FileThreads ι τ)
    (h : Machine.Run FileThreads.step Alone (.start f) es s) (hidle : ∀ t, s.pc t = .idle) :
    s.file = (session f (calls es)).file ∧
      s.puts.map Prod.snd = (session f (calls es)).puts := by
  have hstart : Serialised f [] (.start f : FileThreads ι τ) :=
    ⟨.start hb, fun u v hu => absurd rfl hu, fun _ => rfl, fun u hu => absurd rfl hu⟩
  have hinv : Serialised f es s :=
    h.history (fun _ _ _ _ hi halone hs => Serialised.step hi halone hs) hstart
  exact ⟨hinv.linear.file, hinv.quiet hidle⟩

/-- A write, and then a read by another thread. -/
def sampleSerial : List (FileEvent Bool) :=
  [.store true ['1'], .build true, .put true, .putReply true ⟨OC_STACK_OK, .empty⟩, .finish true,
    .get false, .getReply false ⟨OC_STACK_OK, sampleValue 3⟩, .finish false]

theorem serial_threads_perform_sampleSerial : ∃ s : FileThreads Unit Bool,
    s.puts = [(['1'], sampleValue 1)] ∧
      s.puts.map Prod.snd = (session sampleOpen (calls sampleSerial)).puts := by
  have hrun : ∃ s : FileThreads Unit Bool,
      Machine.Run FileThreads.step Alone (.start sampleOpen) sampleSerial s ∧
        s.puts = [(['1'], sampleValue 1)] ∧ ∀ t, s.pc t = .idle := by
    refine ⟨_, .cons (fun u => rfl) rfl (.cons trivial rfl (.cons trivial rfl (.cons trivial rfl
      (.cons trivial rfl (.cons ?_ rfl (.cons trivial rfl (.cons trivial rfl (.nil _)))))))),
      rfl, ?_⟩
    · intro u
      cases u <;> rfl
    · intro u
      cases u <;> rfl
  obtain ⟨s, hs, hputs, hidle⟩ := hrun
  exact ⟨s, hputs, (serial_threads_perform sampleOpen rfl sampleSerial s hs hidle).2⟩

end IoTFS.Oic
