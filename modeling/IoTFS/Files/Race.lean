import IoTFS.Files.Calls
import IoTFS.Oic.FileThreads

/-!
# Writes that race

Between its first two steps a write has nothing but its token in the cache to show for
itself. A PUT carries the text of its own write in the runs in which nobody puts another
value there in that window.
-/

namespace IoTFS.Oic

variable {ι : Type}

/-- Two contents of an attribute that `update` converts to the same value. -/
def SameValue : AttributeType → Str → Str → Prop
  | .integer, c, c' => lexicalCastInt c = lexicalCastInt c'
  | .string, c, c' => c = c'
  | .boolean, c, c' => lexicalCastBool c = lexicalCastBool c'
  | .other _, _, _ => True

theorem SameValue.refl (type : AttributeType) (c : Str) : SameValue type c c := by
  cases type <;> simp [SameValue]

/-- Every content of the file stands for the same value as the text. -/
def HoldsText (f : OICFile ι) (result : Str) : Prop :=
  ∀ e ∈ f.values.entries, SameValue e.2.type e.2.content result

theorem encodeEntry_congr (rep : OCRepresentation) (name : Str) {d : OICFileDescriptor}
    {result : Str} (h : SameValue d.type d.content result) :
    encodeEntry rep name d = encodeEntry rep name { d with content := result } := by
  unfold encodeEntry
  revert h
  cases d.type with
  | integer | string | boolean =>
    intro h
    simp only [show _ = _ from h]
  | other => exact fun _ => rfl

theorem encodeFrom_congr (entries : List (Str × OICFileDescriptor)) (rep : OCRepresentation)
    {result : Str} (h : ∀ e ∈ entries, SameValue e.2.type e.2.content result) :
    encodeFrom rep entries =
      encodeFrom rep (entries.map fun e => (e.1, { e.2 with content := result })) := by
  induction entries generalizing rep with
  | nil => rfl
  | cons e entries ih =>
    obtain ⟨name, d⟩ := e
    rw [List.map_cons, encodeFrom, encodeFrom,
      encodeEntry_congr rep name (h _ (List.mem_cons_self ..))]
    congr 1
    ext rep'
    rw [ih rep' fun e he => h e (List.mem_cons_of_mem _ he)]

/-- What `update` builds from contents that stand for the text. -/
theorem HoldsText.encode_eq {f : OICFile ι} {result : Str} (h : HoldsText f result) :
    encode f.values = encode (f.values.setContents result) :=
  encodeFrom_congr f.values.entries _ h

/-- The token fills the attributes the same way whatever they contained. -/
theorem setContents_congr {a b : OICFileAttributes} (h : a.types = b.types) (result : Str) :
    a.setContents result = b.setContents result := by
  have hentries (c : OICFileAttributes) : (c.setContents result).entries =
      c.types.map fun t => (t.1, ⟨result, t.2⟩) := by
    rw [OICFileAttributes.types, List.map_map]
    rfl
  have he : (a.setContents result).entries = (b.setContents result).entries := by
    rw [hentries, hentries, h]
  cases ha : a.setContents result
  cases hb : b.setContents result
  rw [ha, hb] at he
  cases he
  rfl

variable {τ : Type} {f : OICFile ι} {s s' : FileThreads ι τ} {e : FileEvent τ}

/-- The step puts no other value in the place of a token that is stored and not yet built:
neither the token of another write, nor a value of a successful GET. -/
def Undisturbed (s : FileThreads ι τ) : FileEvent τ → Prop
  | .store t input => ∀ u result, u ≠ t → s.pc u = .stored result →
      ∀ e ∈ s.file.values.entries, SameValue e.2.type (token input) result
  | .getReply _ reply => reply.eCode = OC_STACK_OK → ∀ u result, s.pc u = .stored result →
      ∀ e ∈ s.file.values.entries, ∀ v, (e.1, v) ∈ reply.rep.items →
        SameValue e.2.type v.getValueToString result
  | _ => True

/-- What holds of a file with the attributes of `f` while nobody is disturbed. -/
structure RaceInv (f : OICFile ι) (s : FileThreads ι τ) : Prop where
  types : s.file.values.types = f.values.types
  stored : ∀ t result, s.pc t = .stored result → HoldsText s.file result
  built : ∀ t result rep, s.pc t = .built result rep →
    encode (f.values.setContents result) = some rep
  puts : ∀ result rep, (result, rep) ∈ s.puts → encode (f.values.setContents result) = some rep

variable [DecidableEq τ]

/-- Moving a thread to a place that stores and builds nothing new. -/
theorem RaceInv.move (h : RaceInv f s) {t : τ} {x : FilePc} {m_rw : Option τ}
    {puts : List (Str × OCRepresentation)} (hstored : ∀ result, x ≠ .stored result)
    (hbuilt : ∀ result rep, x = .built result rep →
      encode (f.values.setContents result) = some rep)
    (hputs : ∀ result rep, (result, rep) ∈ puts →
      encode (f.values.setContents result) = some rep) :
    RaceInv f ⟨s.file, m_rw, s.goto t x, puts⟩ where
  types := h.types
  stored u result hu := by
    rcases FileThreads.goto_cases hu with ⟨-, hx⟩ | ⟨-, hu⟩
    · exact absurd hx (hstored result)
    · exact h.stored u result hu
  built := FileThreads.built_goto h.built hbuilt
  puts := hputs

/-- A write stores its token without disturbing another. -/
theorem RaceInv.store (h : RaceInv f s) {t : τ} {input : Str}
    (hundisturbed : Undisturbed s (.store t input)) :
    RaceInv f { s with
      file := { s.file with values := s.file.values.setContents (token input) }
      pc := s.goto t (.stored (token input)) } where
  types := by
    rw [← h.types]
    exact OICFileAttributes.types_refill _ _
  stored u result hu := by
    intro e he
    obtain ⟨e, hold, rfl⟩ := List.mem_map.mp he
    rcases FileThreads.goto_cases hu with ⟨-, hx⟩ | ⟨hne, hu⟩
    · cases hx
      exact .refl _ _
    · exact hundisturbed u result hne hu e hold
  built := FileThreads.built_goto h.built fun _ _ hx => by cases hx
  puts := h.puts

/-- A reply is applied without disturbing a write. -/
theorem RaceInv.getReply (h : RaceInv f s) {t : τ} {reply : Reply}
    (hundisturbed : Undisturbed s (.getReply t reply)) :
    RaceInv f { s with
      file := s.file.didRetrieve reply, pc := s.goto t .answered } where
  types := (OICFile.sameShape_didRetrieve s.file reply).types.trans h.types
  stored u result hu := by
    rcases FileThreads.goto_cases hu with ⟨-, hx⟩ | ⟨-, hu⟩
    · cases hx
    · exact OICFile.forall_didRetrieve (p := fun _ type content => SameValue type content result)
        (h.stored u result hu) fun hok => hundisturbed hok u result hu
  built := FileThreads.built_goto h.built fun _ _ hx => by cases hx
  puts := h.puts

/-- An undisturbed step keeps every write its own text. -/
theorem RaceInv.step (h : RaceInv f s) (hundisturbed : Undisturbed s e)
    (hs : s.step e = some s') : RaceInv f s' := by
  cases FileThreads.step_cases hs with
  | store t input => exact h.store hundisturbed
  | build t result rep hpc _ hrep =>
    refine h.move (fun _ => by simp) (fun result' rep' hx => ?_) h.puts
    cases hx
    rw [← setContents_congr h.types, ← (h.stored t result hpc).encode_eq]
    exact hrep
  | put t result rep hpc =>
    refine h.move (fun _ => by simp) (fun _ _ hx => by cases hx) fun result' rep' hm => ?_
    rcases List.mem_append.mp hm with hm | hm
    · exact h.puts result' rep' hm
    · cases List.mem_singleton.mp hm
      exact h.built t result rep hpc
  | getReply t reply => exact h.getReply hundisturbed
  | refuse | throw | get | putReply | finish =>
    exact h.move (fun _ => by simp) (fun _ _ hx => by cases hx) h.puts

/-- Every PUT sent carries the text of its own write. -/
def OwnText (f : OICFile ι) (s : FileThreads ι τ) : Prop :=
  ∀ result rep, (result, rep) ∈ s.puts → encode (f.values.setContents result) = some rep

/-- In every run on a file in which no token is disturbed between its write's first two
steps, every PUT sent carries the text of its own write. -/
theorem own_text_of_undisturbed (f : OICFile ι) (s : FileThreads ι τ)
    (h : Machine.Reach FileThreads.step Undisturbed (.start f) s) : OwnText f s := by
  have hinv : RaceInv f s := by
    refine h.invariant (RaceInv f) ?_ fun _ _ _ hi hu hs => hi.step hu hs
    refine ⟨rfl, fun t result ht => ?_, fun t result rep ht => ?_, fun result rep hm => ?_⟩
    · cases ht
    · cases ht
    · cases hm
  exact hinv.puts

/-- A bound file with an integer attribute and both permissions. -/
def sampleOpen : OICFile Unit where
  fileName := ['p']
  allowedOperation := 3
  values := .single ['p'] ⟨['0'], .integer⟩
  stub := some ⟨0, ⟨(), [], []⟩⟩

/-- What a PUT of the attribute carries. -/
def sampleValue (v : Int32) : OCRepresentation := OCRepresentation.empty.setValue ['p'] (.integer v)

/-- The second write stores its token once the first has built its representation. -/
theorem own_text_of_undisturbed_sampleOpen : ∃ s : FileThreads Unit Nat,
    s.puts = [(['1'], sampleValue 1)] ∧ OwnText sampleOpen s := by
  refine ⟨_, ?_, own_text_of_undisturbed sampleOpen _ (.next (e := .put 0) (.next
    (e := .store 1 ['2']) (.next (e := .build 0) (.next (e := .store 0 ['1']) .refl ?_ rfl)
      ?_ rfl) ?_ rfl) ?_ rfl)⟩
  · rfl
  · intro u result _ hu
    cases hu
  · trivial
  · intro u result _ hu
    by_cases h : u = 0
    · subst h
      cases hu
    · simp [FileThreads.goto, FileThreads.start, h] at hu
  · trivial

/-- The second write stores its token before the first builds its representation. -/
def sampleRace : List (FileEvent Nat) :=
  [.store 0 ['1'], .store 1 ['2'], .build 0, .put 0]

theorem not_own_text_sampleRace : sampleOpen.mayWrite = true ∧ ∃ s : FileThreads Unit Nat,
    Machine.exec FileThreads.step (.start sampleOpen) sampleRace = some s ∧
      ¬ OwnText sampleOpen s := by
  refine ⟨by decide, ?_⟩
  have hrun : ((Machine.exec FileThreads.step (.start sampleOpen) sampleRace).any fun s =>
      s.puts = [(['1'], sampleValue 2)]) = true := by decide
  obtain ⟨s, hs, hputs⟩ := (Option.any_eq_true _ _).mp hrun
  refine ⟨s, hs, fun hown => ?_⟩
  have hmem : (['1'], sampleValue 2) ∈ s.puts := by
    rw [of_decide_eq_true hputs]
    exact List.mem_singleton_self _
  exact absurd (hown _ _ hmem) (by decide)

end IoTFS.Oic
