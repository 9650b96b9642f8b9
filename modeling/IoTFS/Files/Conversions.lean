import IoTFS.Files.ReturnCodes
import IoTFS.Oic.FileThreads
import IoTFS.Oic.Walk

/-!
# Conversions that fail

A write stores its token without looking at the type of the attribute, and `update` then
converts whatever it finds. Nothing catches a rejected conversion, so a call throws exactly
when a permitted write is handed a text its attribute does not convert; when requests
interleave, a reply applied between the two steps of a write can do the same.
-/

namespace IoTFS.Oic

variable {ι : Type}

/-- A call throws exactly when it is a permitted write whose token does not convert. -/
theorem perform_throws_iff (f : OICFile ι) (op : FileOp) : (f.perform op).ret = none ↔
    f.stub.isSome = true ∧ f.mayWrite = true ∧
      ∃ input answer, op = .write input answer ∧ ¬ Convertible f.values (token input) := by
  have hcall := f.perform_call op
  generalize f.perform op = out at hcall
  cases hcall with
  | readUnbound | readRefused | readSent => simp
  | writeUnbound _ _ hn => simp [hn]
  | writeRefused _ _ _ hw => simp [hw]
  | writeRejected input answer hb hw he =>
    have hconv : ¬ Convertible f.values (token input) := by
      rw [← encode_setContents_isSome, he]
      decide
    exact ⟨fun _ => ⟨hb, hw, input, answer, rfl, hconv⟩, fun _ => rfl⟩
  | writeSent input answer rep hb hw he =>
    have hconv : Convertible f.values (token input) := by
      rw [← encode_setContents_isSome, he]
      rfl
    constructor
    · intro h
      cases h
    · rintro ⟨-, -, input', answer', hop, hno⟩
      cases hop
      exact absurd hconv hno

/-- Every call of a session is remembered with its outcome. -/
theorem mem_history_of_call {f : OICFile ι} {ops pre : List FileOp} {op : FileOp}
    (h : pre ++ [op] <+: ops) :
    (op, (session f pre).file.perform op) ∈ (session f ops).history := by
  induction ops using List.reverseRecOn with
  | nil => simp at h
  | append_singleton ops last ih =>
    rw [session_concat]
    rcases List.prefix_concat_iff.mp h with he | h
    · obtain ⟨rfl, hlast⟩ := List.append_inj' he rfl
      cases hlast
      exact List.mem_append_right _ (List.mem_singleton_self _)
    · exact List.mem_append_left _ (ih h)

/-- No call of a session throws exactly when the file is unbound, may not be written, or
every token written converts. -/
theorem session_returns_iff (f : OICFile ι) (ops : List FileOp) :
    (∀ op out, (op, out) ∈ (session f ops).history → out.ret ≠ none) ↔
      (f.stub.isSome = true → f.mayWrite = true → ∀ input answer,
        .write input answer ∈ ops → Convertible f.values (token input)) := by
  have hthrows (pre : List FileOp) (op : FileOp) :
      ((session f pre).file.perform op).ret = none ↔ f.stub.isSome = true ∧ f.mayWrite = true ∧
        ∃ input answer, op = .write input answer ∧ ¬ Convertible f.values (token input) := by
    have hshape := sameShape_session f pre
    rw [perform_throws_iff, hshape.stub, hshape.mayWrite]
    simp only [convertible_congr hshape.types]
  constructor
  · intro h hb hw input answer hmem
    by_contra hno
    obtain ⟨pre, post, rfl⟩ := List.append_of_mem hmem
    have hpre : pre ++ [FileOp.write input answer] <+: pre ++ .write input answer :: post :=
      ⟨post, by simp⟩
    exact h _ _ (mem_history_of_call hpre) ((hthrows pre _).mpr ⟨hb, hw, input, answer, rfl, hno⟩)
  · intro h op out hmem hnone
    obtain ⟨pre, hpre, rfl⟩ := mem_history hmem
    obtain ⟨hb, hw, input, answer, rfl, hno⟩ := (hthrows pre op).mp hnone
    refine hno (h hb hw input answer (hpre.subset ?_))
    exact List.mem_append_right _ (List.mem_singleton_self _)

/-! ### Interleaved requests -/

variable {τ : Type}

/-- Where `update` may convert the contents, they convert. -/
def ReadyToConvert (s : FileThreads ι τ) : Prop :=
  s.file.mayWrite = true → ∀ t result, s.pc t = .stored result →
    ∀ e ∈ s.file.values.entries, e.2.Converts

/-- A token stored in a file that may be written converts, and so does what a successful GET
puts in the place of a token that is waiting for its conversion. -/
def Accepting (s : FileThreads ι τ) : FileEvent τ → Prop
  | .store _ input => s.file.mayWrite = true → Convertible s.file.values (token input)
  | .getReply _ reply => s.file.mayWrite = true → reply.eCode = OC_STACK_OK →
      ∀ t result, s.pc t = .stored result → ∀ e ∈ s.file.values.entries, ∀ v,
        (e.1, v) ∈ reply.rep.items → OICFileDescriptor.Converts ⟨v.getValueToString, e.2.type⟩
  | _ => True

variable [DecidableEq τ] {s s' : FileThreads ι τ} {e : FileEvent τ}

/-- Moving a thread to a place where nothing is stored. -/
theorem ReadyToConvert.move (h : ReadyToConvert s) {t : τ} {x : FilePc} {m_rw : Option τ}
    {puts : List (Str × OCRepresentation)} (hx : ∀ result, x ≠ .stored result) :
    ReadyToConvert ⟨s.file, m_rw, s.goto t x, puts⟩ := by
  intro hw u result hu
  rcases FileThreads.goto_cases hu with ⟨-, hx'⟩ | ⟨-, hu⟩
  · exact absurd hx' (hx result)
  · exact h hw u result hu

/-- An accepting step leaves the contents ready to convert. -/
theorem ReadyToConvert.step (h : ReadyToConvert s) (hacc : Accepting s e)
    (hs : s.step e = some s') : ReadyToConvert s' := by
  cases FileThreads.step_cases hs with
  | store t input =>
    intro hw u result hu e he
    obtain ⟨e, hold, rfl⟩ := List.mem_map.mp he
    exact hacc hw e hold
  | getReply t reply =>
    intro hw u result hu
    have hw' : s.file.mayWrite = true := by
      rw [← hw]
      exact (OICFile.sameShape_didRetrieve s.file reply).mayWrite.symm
    rcases FileThreads.goto_cases hu with ⟨-, hx⟩ | ⟨-, hu⟩
    · cases hx
    · exact OICFile.forall_didRetrieve
        (p := fun _ type content => OICFileDescriptor.Converts ⟨content, type⟩)
        (h hw' u result hu) fun hok => hacc hw' hok u result hu
  | refuse | throw | build | put | get | putReply | finish => exact h.move fun _ => by simp

theorem readyToConvert_of_reach {f : OICFile ι}
    (h : Machine.Reach FileThreads.step Accepting (.start f) s) : ReadyToConvert s := by
  refine h.invariant ReadyToConvert ?_ fun _ _ _ hi hacc hs => hi.step hacc hs
  intro _ t result ht
  cases ht

/-- A file that discovery makes survives a run of calls without an exception exactly when it
may not be written or every token converts; and when requests interleave, the contents
convert wherever `update` may convert them, as long as what is put there converts. -/
theorem conversions_accepted (P : Platform ι) (stub : OICStub ι) (memory : BitVec 32)
    (item : Str × AttributeValue) :
    (∀ ops : List FileOp,
      (∀ op out, (op, out) ∈ (session (newFile P stub memory item) ops).history →
          out.ret ≠ none) ↔
        ((newFile P stub memory item).mayWrite = true → ∀ input answer,
          .write input answer ∈ ops →
            OICFileDescriptor.Converts ⟨token input, item.2.type⟩)) ∧
      ∀ s : FileThreads ι τ,
        Machine.Reach FileThreads.step Accepting (.start (newFile P stub memory item)) s →
          s.file.mayWrite = true → ∀ t result, s.pc t = .stored result →
            ∀ e ∈ s.file.values.entries, e.2.Converts := by
  refine ⟨fun ops => ?_, fun s hs => readyToConvert_of_reach hs⟩
  have hconv (text : Str) : Convertible (newFile P stub memory item).values text ↔
      OICFileDescriptor.Converts ⟨text, item.2.type⟩ := List.forall_mem_singleton
  rw [session_returns_iff]
  simp only [hconv]
  exact imp_iff_right rfl

/-- A token waits for its conversion while another thread reads, and the number that the read
brings in its place converts as well. -/
theorem conversions_accepted_sampleCreated : ∃ s : FileThreads Str Bool,
    s.pc false = .stored ['1'] ∧ s.file.printed = ['0'] ∧
      ∀ e ∈ s.file.values.entries, e.2.Converts := by
  let item : Str × AttributeValue := (['p'], .integer 0)
  let stub : OICStub Str := ⟨0, ⟨[], [], [sampleInterfaces.DEFAULT_INTERFACE]⟩⟩
  let f := newFile samplePlatform stub 0 item
  let reply := sampleReply OC_STACK_OK "p"
  have hrun : ((FileThreads.step (.start f) (.store false ['1'])).any fun s₁ =>
      (s₁.step (.get true)).any fun s₂ =>
        s₂.file.values.entries = [(['p'], ⟨['1'], .integer⟩)] ∧
          (s₂.step (.getReply true reply)).any fun s => s.pc false = .stored ['1'] ∧
            s.file.mayWrite = true ∧ s.file.printed = ['0']) = true := by
    decide +kernel
  simp only [Option.any_eq_true, decide_eq_true_eq] at hrun
  obtain ⟨s₁, hs₁, s₂, hs₂, hentries, s, hs, hstored, hwrite, hprinted⟩ := hrun
  have hstore : Accepting (.start f) (.store false ['1']) := by
    intro _ e he
    cases List.mem_singleton.mp he
    exact ⟨by decide, by decide⟩
  have hget : Accepting s₁ (.get true) := trivial
  have hreply : Accepting s₂ (.getReply true reply) := by
    intro _ _ _ _ _ e he v hv
    rw [hentries, List.mem_singleton] at he
    cases he
    cases List.mem_singleton.mp hv
    exact ⟨by decide, by decide⟩
  have hreach : Machine.Reach FileThreads.step Accepting (.start f) s :=
    .next (.next (.next .refl hstore hs₁) hget hs₂) hreply hs
  exact ⟨s, hstored, hprinted,
    (conversions_accepted samplePlatform stub 0 item).2 s hreach hwrite false ['1'] hstored⟩

/-- A word written to a file made for an integer is not converted, and the call throws. -/
theorem conversion_throws_sampleCreated :
    ((sampleCreated [sampleInterfaces.DEFAULT_INTERFACE] (.integer 0)).write ['o', 'n']
      ⟨OC_STACK_OK, .empty⟩).ret = none := by
  decide +kernel

end IoTFS.Oic
