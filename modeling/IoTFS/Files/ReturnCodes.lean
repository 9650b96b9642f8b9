import IoTFS.Files.Calls

/-!
# What a return code says

The layers below `read` and `write` return nothing, so the code of a call on a bound
file is zero whatever happened. It is truthful exactly when nothing went wrong.
-/

namespace IoTFS.Oic

variable {ι : Type}

/-- The content converts to the type of the attribute. -/
def OICFileDescriptor.Converts (d : OICFileDescriptor) : Prop :=
  (d.type = .integer → (lexicalCastInt d.content).isSome = true) ∧
    (d.type = .boolean → (lexicalCastBool d.content).isSome = true)

/-- The text converts to the type of every attribute. -/
def Convertible (values : OICFileAttributes) (text : Str) : Prop :=
  ∀ e ∈ values.entries, OICFileDescriptor.Converts ⟨text, e.2.type⟩

theorem encodeEntry_isSome (rep : OCRepresentation) (name : Str) (d : OICFileDescriptor) :
    (encodeEntry rep name d).isSome = true ↔ d.Converts := by
  unfold encodeEntry OICFileDescriptor.Converts
  cases d.type <;> simp

theorem encodeFrom_isSome (rep : OCRepresentation) (entries : List (Str × OICFileDescriptor)) :
    (encodeFrom rep entries).isSome = true ↔ ∀ e ∈ entries, e.2.Converts := by
  induction entries generalizing rep with
  | nil => simp [encodeFrom]
  | cons e entries ih =>
    obtain ⟨name, d⟩ := e
    rw [encodeFrom, List.forall_mem_cons, ← encodeEntry_isSome rep name d]
    cases encodeEntry rep name d with
    | none => simp
    | some rep' => simp [ih]

/-- `update` converts the attributes after a write exactly when the token converts. -/
theorem encode_setContents_isSome (values : OICFileAttributes) (text : Str) :
    (encode (values.setContents text)).isSome = true ↔ Convertible values text := by
  rw [encode, encodeFrom_isSome]
  simp only [OICFileAttributes.setContents, OICFileAttributes.refill, List.forall_mem_map,
    Convertible]

/-- The conversion of a text looks at the types of the attributes only. -/
theorem convertible_iff_types (values : OICFileAttributes) (text : Str) :
    Convertible values text ↔ ∀ t ∈ values.types, OICFileDescriptor.Converts ⟨text, t.2⟩ := by
  rw [OICFileAttributes.types, List.forall_mem_map]
  rfl

theorem convertible_congr {a b : OICFileAttributes} (h : a.types = b.types) (text : Str) :
    Convertible a text ↔ Convertible b text := by
  rw [convertible_iff_types, convertible_iff_types, h]

/-- The read returns zero if its GET succeeded, and an error code otherwise. -/
def ReadTruthful (f : OICFile ι) (answer : Reply) : Prop :=
  let out := f.read answer
  let succeeded := .get ∈ out.sent ∧ answer.eCode = OC_STACK_OK
  (out.ret = some 0 ↔ succeeded) ∧ (¬ succeeded → ∃ code, out.ret = some code ∧ code ≠ 0)

/-- The write returns zero if its PUT succeeded, and an error code otherwise. -/
def WriteTruthful (f : OICFile ι) (input : Str) (answer : Reply) : Prop :=
  let out := f.write input answer
  let succeeded := (∃ rep, .put rep ∈ out.sent) ∧ answer.eCode = OC_STACK_OK
  (out.ret = some 0 ↔ succeeded) ∧ (¬ succeeded → ∃ code, out.ret = some code ∧ code ≠ 0)

theorem readTruthful_iff (f : OICFile ι) (answer : Reply) : ReadTruthful f answer ↔
    f.stub = none ∨ (f.mayRead = true ∧ answer.eCode = OC_STACK_OK) := by
  have hcall := f.read_call answer
  unfold ReadTruthful
  generalize f.read answer = out at hcall
  cases hcall with
  | readUnbound _ hs => simp [hs]
  | readRefused _ hs hr =>
    have hn := Option.isSome_iff_ne_none.mp hs
    simp [hn, hr]
  | readSent _ hs hr =>
    have hn := Option.isSome_iff_ne_none.mp hs
    simp [hn, hr]

theorem writeTruthful_iff (f : OICFile ι) (input : Str) (answer : Reply) :
    WriteTruthful f input answer ↔ f.stub = none ∨
      (f.mayWrite = true ∧ Convertible f.values (token input) ∧ answer.eCode = OC_STACK_OK) := by
  have hcall := f.write_call input answer
  unfold WriteTruthful
  rw [← encode_setContents_isSome]
  generalize f.write input answer = out at hcall
  cases hcall with
  | writeUnbound _ _ hs => simp [hs]
  | writeRefused _ _ hs hw =>
    have hn := Option.isSome_iff_ne_none.mp hs
    simp [hn, hw]
  | writeRejected _ _ hs hw he =>
    have hn := Option.isSome_iff_ne_none.mp hs
    simp [hn, he]
  | writeSent _ _ rep hs hw he =>
    have hn := Option.isSome_iff_ne_none.mp hs
    simp [hn, hw, he]

/-- The codes of a read and of a write are truthful exactly when the file is unbound, or
the call is permitted, its token converts, and the device answers with success. -/
theorem return_codes_truthful_iff (f : OICFile ι) (input : Str) (answer : Reply) :
    (ReadTruthful f answer ↔
        f.stub = none ∨ (f.mayRead = true ∧ answer.eCode = OC_STACK_OK)) ∧
      (WriteTruthful f input answer ↔ f.stub = none ∨
        (f.mayWrite = true ∧ Convertible f.values (token input) ∧
          answer.eCode = OC_STACK_OK)) :=
  ⟨readTruthful_iff f answer, writeTruthful_iff f input answer⟩

/-- A bound file with an integer attribute and no permissions. -/
def sampleLocked : OICFile Unit where
  fileName := ['p']
  allowedOperation := 0
  values := .single ['p'] ⟨['0'], .integer⟩
  stub := some ⟨0, ⟨(), [], []⟩⟩

/-- A refused read and a refused write return zero without sending anything. -/
theorem return_codes_not_truthful :
    ¬ ReadTruthful sampleLocked ⟨OC_STACK_OK, .empty⟩ ∧
      ¬ WriteTruthful sampleLocked ['1'] ⟨OC_STACK_OK, .empty⟩ := by
  constructor
  · intro h
    obtain ⟨hget, -⟩ := h.1.mp (by decide)
    exact absurd hget (by decide)
  · intro h
    obtain ⟨⟨rep, hput⟩, -⟩ := h.1.mp (by decide)
    have hsent : (sampleLocked.write ['1'] ⟨OC_STACK_OK, .empty⟩).sent = [] := by decide
    rw [hsent] at hput
    cases hput

end IoTFS.Oic
