import IoTFS.Files.ReturnCodes

/-!
# Where the cached contents come from

A write stores its token before anything else can go wrong, and nothing takes it back.
The cache is coherent in the runs in which every write on a bound file goes through, or
stores what is there already.
-/

namespace IoTFS.Oic

variable {ι : Type} {f : OICFile ι}

/-- Where the content of an attribute may come from: the construction of the file, a
successful GET, or a write whose PUT succeeded. -/
inductive Source (f : OICFile ι) (history : List (FileOp × Outcome ι)) (name content : Str) :
    Prop
  | constructed (type : AttributeType) : (name, ⟨content, type⟩) ∈ f.values.entries →
      Source f history name content
  | retrieved (answer : Reply) (out : Outcome ι) (v : AttributeValue) :
      (.read answer, out) ∈ history → .get ∈ out.sent → answer.eCode = OC_STACK_OK →
      (name, v) ∈ answer.rep.items → content = v.getValueToString →
      Source f history name content
  | updated (input : Str) (answer : Reply) (out : Outcome ι) (rep : OCRepresentation) :
      (.write input answer, out) ∈ history → .put rep ∈ out.sent →
      answer.eCode = OC_STACK_OK → content = token input → Source f history name content

/-- Every content has a source. -/
def Sourced (f : OICFile ι) (s : Session ι) : Prop :=
  ∀ e ∈ s.file.values.entries, Source f s.history e.1 e.2.content

/-- The PUT of a write was sent and succeeded. -/
def Accepted (f : OICFile ι) (input : Str) (answer : Reply) : Prop :=
  (∃ rep, .put rep ∈ (f.write input answer).sent) ∧ answer.eCode = OC_STACK_OK

/-- In every state of the run the contents have sources, and a write that is not accepted
leaves them exactly as they were. -/
def Coherent (f : OICFile ι) (ops : List FileOp) : Prop :=
  (∀ pre, pre <+: ops → Sourced f (session f pre)) ∧
    ∀ pre input answer, pre ++ [.write input answer] <+: ops →
      ¬ Accepted (session f pre).file input answer →
      ((session f pre).file.write input answer).file.values = (session f pre).file.values

/-- Every write of the run on a bound file is permitted, converts and is answered with
success, or stores a text that every content already equals. -/
def WritesHarmless (f : OICFile ι) (ops : List FileOp) : Prop :=
  ∀ pre input answer, pre ++ [.write input answer] <+: ops →
    (session f pre).file.stub.isSome = true →
    ((session f pre).file.mayWrite = true ∧
        Convertible (session f pre).file.values (token input) ∧
        answer.eCode = OC_STACK_OK) ∨
      ∀ e ∈ (session f pre).file.values.entries, e.2.content = token input

theorem Source.mono {history more : List (FileOp × Outcome ι)} {name content : Str}
    (h : Source f history name content) : Source f (history ++ more) name content := by
  cases h with
  | constructed type h => exact .constructed type h
  | retrieved answer out v h hget hok hv hc =>
    exact .retrieved answer out v (List.mem_append_left _ h) hget hok hv hc
  | updated input answer out rep h hput hok hc =>
    exact .updated input answer out rep (List.mem_append_left _ h) hput hok hc

/-- A write on a bound file is accepted when it is permitted, converts and is answered
with success. -/
theorem accepted_iff {g : OICFile ι} {input : Str} {answer : Reply} (hs : g.stub.isSome = true) :
    Accepted g input answer ↔ g.mayWrite = true ∧ Convertible g.values (token input) ∧
      answer.eCode = OC_STACK_OK := by
  have hcall := g.write_call input answer
  rw [Accepted, ← encode_setContents_isSome]
  generalize g.write input answer = out at hcall
  cases hcall with
  | writeUnbound _ _ hn => simp [hn] at hs
  | writeRefused _ _ _ hw => simp [hw]
  | writeRejected _ _ _ hw he => simp [he]
  | writeSent _ _ rep _ hw he => simp [hw, he]

/-- On a bound file a write stores its token, whatever happens then. -/
theorem write_file {g : OICFile ι} {input : Str} {answer : Reply} (hs : g.stub.isSome = true) :
    (g.write input answer).file = g.overwritten input := by
  have hcall := g.write_call input answer
  generalize g.write input answer = out at hcall
  cases hcall with
  | writeUnbound _ _ hn => simp [hn] at hs
  | writeRefused | writeRejected | writeSent => rfl

/-- On an unbound file a write does nothing. -/
theorem write_file_unbound {g : OICFile ι} {input : Str} {answer : Reply} (hs : g.stub = none) :
    (g.write input answer).file = g := by
  have hcall := g.write_call input answer
  generalize g.write input answer = out at hcall
  cases hcall with
  | writeUnbound => rfl
  | writeRefused _ _ hb | writeRejected _ _ hb | writeSent _ _ _ hb => simp [hs] at hb

/-- Serving a read keeps the contents sourced. -/
theorem Sourced.read {s : Session ι} (h : Sourced f s) (answer : Reply) :
    Sourced f (s.serve (.read answer)) := by
  have hcall := s.file.read_call answer
  intro e he
  simp only [Session.serve, OICFile.perform] at he ⊢
  generalize s.file.read answer = out at hcall he ⊢
  cases hcall with
  | readUnbound | readRefused => exact (h e he).mono
  | readSent _ hs hr =>
    refine OICFile.forall_didRetrieve (p := fun n _ content => Source f _ n content)
      (fun e he => (h e he).mono) (fun hok e _ v hv => ?_) e he
    refine .retrieved answer _ v
      (List.mem_append_right _ (List.mem_singleton_self _)) ?_ hok hv rfl
    exact List.mem_singleton_self _

/-- Serving a write that is accepted, or stores what is there, keeps the contents
sourced. -/
theorem Sourced.write {s : Session ι} (h : Sourced f s) {input : Str} {answer : Reply}
    (hw : s.file.stub.isSome = true → Accepted s.file input answer ∨
      ∀ e ∈ s.file.values.entries, e.2.content = token input) :
    Sourced f (s.serve (.write input answer)) := by
  intro e he
  simp only [Session.serve, OICFile.perform] at he ⊢
  cases hs : s.file.stub with
  | none =>
    rw [write_file_unbound hs] at he
    exact (h e he).mono
  | some stub =>
    have hb : s.file.stub.isSome = true := by rw [hs, Option.isSome_some]
    rw [write_file hb] at he
    rcases hw hb with ⟨⟨rep, hput⟩, hok⟩ | hsame
    · obtain ⟨e', -, rfl⟩ := List.mem_map.mp he
      refine .updated input answer _ rep ?_ hput hok rfl
      exact List.mem_append_right _ (List.mem_singleton_self _)
    · have hval := (OICFileAttributes.setContents_eq_iff s.file.values (token input)).mpr hsame
      rw [OICFile.overwritten, hval] at he
      exact (h e he).mono

/-- Harmless writes keep the contents sourced in every state of the run. -/
theorem sourced_of_harmless {ops : List FileOp} (h : WritesHarmless f ops) (pre : List FileOp)
    (hpre : pre <+: ops) : Sourced f (session f pre) := by
  induction pre using List.reverseRecOn with
  | nil =>
    rintro ⟨name, d⟩ he
    exact .constructed d.type he
  | append_singleton pre op ih =>
    have ih := ih ((List.prefix_append _ _).trans hpre)
    rw [session_concat]
    cases op with
    | read answer => exact ih.read answer
    | write input answer =>
      refine ih.write fun hs => ?_
      rw [accepted_iff hs]
      exact h pre input answer hpre hs

/-- The cache of a file is coherent over a run exactly when every write of the run on a
bound file goes through or stores what is there already. -/
theorem coherent_iff (f : OICFile ι) (ops : List FileOp) :
    Coherent f ops ↔ WritesHarmless f ops := by
  constructor
  · rintro ⟨-, hkeep⟩ pre input answer hpre hs
    by_cases hacc : Accepted (session f pre).file input answer
    · exact Or.inl ((accepted_iff hs).mp hacc)
    · have hval := hkeep pre input answer hpre hacc
      rw [write_file hs] at hval
      exact Or.inr ((OICFileAttributes.setContents_eq_iff _ _).mp hval)
  · intro h
    refine ⟨sourced_of_harmless h, fun pre input answer hpre hacc => ?_⟩
    cases hs : (session f pre).file.stub with
    | none => rw [write_file_unbound hs]
    | some stub =>
      have hb : (session f pre).file.stub.isSome = true := by rw [hs, Option.isSome_some]
      rcases h pre input answer hpre hb with hgood | hsame
      · exact absurd ((accepted_iff hb).mpr hgood) hacc
      · rw [write_file hb]
        exact (OICFileAttributes.setContents_eq_iff _ _).mpr hsame

/-- The token of a refused write stays in the cache, and has no source. -/
theorem not_coherent_sampleLocked :
    ¬ Coherent sampleLocked [.write ['1'] ⟨OC_STACK_OK, .empty⟩] := by
  rintro ⟨hsourced, -⟩
  have hentry : (['p'], ⟨['1'], .integer⟩) ∈
      (session sampleLocked [.write ['1'] ⟨OC_STACK_OK, .empty⟩]).file.values.entries := by
    decide
  have hsent : (sampleLocked.write ['1'] ⟨OC_STACK_OK, .empty⟩).sent = [] := by decide
  cases hsourced _ List.prefix_rfl _ hentry with
  | constructed type h => simp [sampleLocked, OICFileAttributes.single] at h
  | retrieved answer out v h => cases List.mem_singleton.mp h
  | updated input answer out rep h hput =>
    cases List.mem_singleton.mp h
    simp only [OICFile.perform, hsent] at hput
    cases hput

end IoTFS.Oic
