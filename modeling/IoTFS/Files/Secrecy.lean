import IoTFS.Files.Coherence
import IoTFS.Oic.Walk

/-!
# What a file without the Read bit gives away

A refused retrieve does not stop the read, which goes on to print the cached contents. They
are there from discovery on, whose GET asks nobody for permission, until the first write
replaces them by what the writer knows already.
-/

namespace IoTFS.Oic

variable {ι : Type}

/-- What the reads of a session put out and returned, in order. -/
def Session.reads (s : Session ι) : List (Str × Option Int) :=
  s.history.filterMap fun
    | (.read _, out) => some (out.output, out.ret)
    | (.write _ _, _) => none

/-- After a write every attribute prints its token. -/
theorem OICFile.printed_overwritten (f : OICFile ι) (input : Str) :
    (f.overwritten input).printed = f.values.entries.flatMap fun _ => token input := by
  simp only [printed, overwritten, OICFileAttributes.setContents, OICFileAttributes.refill,
    List.flatMap_map]

/-- A read tells nothing about the contents when there is no stub, or no content. -/
theorem read_blind_iff (f : OICFile ι) (hr : f.mayRead = false) :
    (∀ g, OICFile.SameShape f g → ∀ answer,
        (g.read answer).output = (f.read answer).output ∧
          (g.read answer).ret = (f.read answer).ret) ↔
      f.stub = none ∨ f.values.entries = [] := by
  constructor
  · intro h
    by_contra hno
    obtain ⟨hs, hne⟩ := not_or.mp hno
    have hb : f.stub.isSome = true := Option.isSome_iff_ne_none.mpr hs
    have hprint (input : Str) : (f.overwritten input).printed = f.printed := by
      have hshape := OICFile.sameShape_overwritten f input
      have hout := (h _ hshape ⟨OC_STACK_OK, .empty⟩).1
      rwa [OICFile.read_refused (hshape.bound.trans hb) (hshape.mayRead.trans hr),
        OICFile.read_refused hb hr] at hout
    have hsame := (hprint ['x']).trans (hprint []).symm
    have hx : token ['x'] = ['x'] := by decide
    have hnil : token [] = [] := by decide
    rw [OICFile.printed_overwritten, OICFile.printed_overwritten, hx, hnil] at hsame
    obtain ⟨e, entries, he⟩ := List.exists_cons_of_ne_nil hne
    have hlen := congrArg List.length hsame
    simp [he] at hlen
  · intro h g hshape answer
    cases hs : f.stub with
    | none =>
      rw [OICFile.read_unbound hs, OICFile.read_unbound (hshape.stub.trans hs)]
      exact ⟨rfl, rfl⟩
    | some stub =>
      have hb : f.stub.isSome = true := by rw [hs, Option.isSome_some]
      have hempty := h.resolve_left (by rw [hs]; exact Option.some_ne_none stub)
      have htypes : g.values.types = [] := by
        rw [hshape.types, OICFileAttributes.types, hempty, List.map_nil]
      have hempty' : g.values.entries = [] := List.map_eq_nil_iff.mp htypes
      rw [OICFile.read_refused hb hr,
        OICFile.read_refused (hshape.bound.trans hb) (hshape.mayRead.trans hr)]
      simp [OICFile.printed, hempty, hempty']

/-! ### What discovery put into the cache -/

/-- The names and contents of the attributes. -/
def OICFileAttributes.texts (a : OICFileAttributes) : List (Str × Str) :=
  a.entries.map fun e => (e.1, e.2.content)

/-- Files that differ in the types of their attributes only. -/
structure Alike (f g : OICFile ι) : Prop where
  allowedOperation : g.allowedOperation = f.allowedOperation
  stub : g.stub = f.stub
  texts : g.values.texts = f.values.texts

theorem OICFileAttributes.texts_setContents (values : OICFileAttributes) (text : Str) :
    (values.setContents text).texts = values.names.map fun n => (n, text) := by
  simp only [texts, setContents, refill, names, List.map_map]
  rfl

theorem OICFileAttributes.names_eq_texts (values : OICFileAttributes) :
    values.names = values.texts.map Prod.fst := by
  simp only [texts, names, List.map_map]
  rfl

theorem OICFile.printed_eq_texts (f : OICFile ι) : f.printed = f.values.texts.flatMap Prod.snd := by
  simp only [printed, OICFileAttributes.texts, List.flatMap_map]

theorem Session.reads_serve (s : Session ι) (op : FileOp) :
    (s.serve op).reads = s.reads ++ match op with
      | .read answer => [((s.file.read answer).output, (s.file.read answer).ret)]
      | .write _ _ => [] := by
  cases op <;> simp [reads, serve, OICFile.perform]

/-- A write leaves the same token in both. -/
theorem Alike.write {f g : OICFile ι} (h : Alike f g) (input : Str) (answer : Reply) :
    Alike (f.write input answer).file (g.write input answer).file := by
  cases hs : f.stub with
  | none =>
    rw [write_file_unbound hs, write_file_unbound (h.stub.trans hs)]
    exact h
  | some stub =>
    have hb : f.stub.isSome = true := by rw [hs, Option.isSome_some]
    have hb' : g.stub.isSome = true := by rw [h.stub, hb]
    rw [write_file hb, write_file hb']
    refine ⟨h.allowedOperation, h.stub, ?_⟩
    simp only [OICFile.overwritten, OICFileAttributes.texts_setContents,
      OICFileAttributes.names_eq_texts, h.texts]

/-- A read of either puts out the same and leaves them as they were. -/
theorem Alike.read {f g : OICFile ι} (h : Alike f g) (hr : f.mayRead = false) (answer : Reply) :
    Alike (f.read answer).file (g.read answer).file ∧
      (g.read answer).output = (f.read answer).output ∧
      (g.read answer).ret = (f.read answer).ret := by
  cases hs : f.stub with
  | none =>
    rw [OICFile.read_unbound hs, OICFile.read_unbound (h.stub.trans hs)]
    exact ⟨h, rfl, rfl⟩
  | some stub =>
    have hb : f.stub.isSome = true := by rw [hs, Option.isSome_some]
    have hb' : g.stub.isSome = true := by rw [h.stub, hb]
    have hr' : g.mayRead = false := by
      rw [← hr]
      simp only [OICFile.mayRead, h.allowedOperation]
    rw [OICFile.read_refused hb hr, OICFile.read_refused hb' hr']
    exact ⟨h, by rw [OICFile.printed_eq_texts, OICFile.printed_eq_texts, h.texts], rfl⟩

/-- The sessions of two such files go on alike after any call that leaves them alike. -/
theorem reads_eq_of_alike {f g : OICFile ι} (hr : f.mayRead = false) (first : FileOp)
    (hfirst : Alike (session f [first]).file (session g [first]).file)
    (hreads : (session g [first]).reads = (session f [first]).reads) (ops : List FileOp) :
    Alike (session f (first :: ops)).file (session g (first :: ops)).file ∧
      (session g (first :: ops)).reads = (session f (first :: ops)).reads := by
  induction ops using List.reverseRecOn with
  | nil => exact ⟨hfirst, hreads⟩
  | append_singleton ops op ih =>
    obtain ⟨halike, hsame⟩ := ih
    rw [← List.cons_append, session_concat, session_concat, Session.reads_serve,
      Session.reads_serve, hsame]
    cases op with
    | write input answer => exact ⟨halike.write input answer, rfl⟩
    | read answer =>
      have hshape := sameShape_session f (first :: ops)
      obtain ⟨hnext, hout, hret⟩ := halike.read (hshape.mayRead.trans hr) answer
      refine ⟨hnext, ?_⟩
      simp only [hout, hret]

/-- What a session puts out first stays first. -/
theorem head?_reads_of_read (f : OICFile ι) (answer : Reply) (ops : List FileOp) :
    (session f (.read answer :: ops)).reads.head? =
      some ((f.read answer).output, (f.read answer).ret) := by
  induction ops using List.reverseRecOn with
  | nil => rfl
  | append_singleton ops op ih =>
    rw [← List.cons_append, session_concat, Session.reads_serve, List.head?_append, ih]
    rfl

/-- What discovery found never shows exactly when the first call is not a read. -/
theorem reads_newFile_iff (P : Platform ι) (stub : OICStub ι) (memory : BitVec 32) (name : Str)
    (hr : ∀ v, (newFile P stub memory (name, v)).mayRead = false) (ops : List FileOp) :
    (∀ v v', (session (newFile P stub memory (name, v')) ops).reads =
        (session (newFile P stub memory (name, v)) ops).reads) ↔
      ∀ answer, ops.head? ≠ some (.read answer) := by
  constructor
  · intro h answer hhead
    obtain ⟨rest, rfl⟩ := List.head?_eq_some_iff.mp hhead
    have hsame := congrArg List.head? (h (.string []) (.string ['x']))
    rw [head?_reads_of_read, head?_reads_of_read, OICFile.read_refused rfl (hr _),
      OICFile.read_refused rfl (hr _)] at hsame
    simp [OICFile.printed, newFile, OICFile.construct, OICFileAttributes.single,
      AttributeValue.getValueToString] at hsame
  · intro h v v'
    cases ops with
    | nil => rfl
    | cons op ops =>
      cases op with
      | read answer => exact absurd rfl (h answer)
      | write input answer =>
        have hfirst : Alike ((newFile P stub memory (name, v)).write input answer).file
            ((newFile P stub memory (name, v')).write input answer).file := by
          rw [write_file rfl, write_file rfl]
          exact ⟨rfl, rfl, rfl⟩
        exact (reads_eq_of_alike (hr v) (.write input answer) hfirst rfl ops).2

/-- A file without the Read bit keeps its contents to itself exactly when it has no stub or
no contents; and the values found at discovery stay out of what its reads put out in a run
exactly when the first call of the run is not a read. -/
theorem read_protected_iff (f : OICFile ι) (hf : f.mayRead = false) (P : Platform ι)
    (stub : OICStub ι) (memory : BitVec 32) (name : Str)
    (hr : ∀ v, (newFile P stub memory (name, v)).mayRead = false) (ops : List FileOp) :
    ((∀ g, OICFile.SameShape f g → ∀ answer,
          (g.read answer).output = (f.read answer).output ∧
            (g.read answer).ret = (f.read answer).ret) ↔
        f.stub = none ∨ f.values.entries = []) ∧
      ((∀ v v', (session (newFile P stub memory (name, v')) ops).reads =
            (session (newFile P stub memory (name, v)) ops).reads) ↔
        ∀ answer, ops.head? ≠ some (.read answer)) :=
  ⟨read_blind_iff f hf, reads_newFile_iff P stub memory name hr ops⟩

theorem read_protected_iff_sampleCreated :
    ((∀ g, OICFile.SameShape (sampleCreated [] (.integer 7)) g → ∀ answer,
          (g.read answer).output = ((sampleCreated [] (.integer 7)).read answer).output ∧
            (g.read answer).ret = ((sampleCreated [] (.integer 7)).read answer).ret) ↔
        (sampleCreated [] (.integer 7)).stub = none ∨
          (sampleCreated [] (.integer 7)).values.entries = []) ∧
      ∀ v v', (session (sampleCreated [] v')
          [.write ['1'] ⟨OC_STACK_OK, .empty⟩, .read ⟨OC_STACK_OK, .empty⟩]).reads =
        (session (sampleCreated [] v)
          [.write ['1'] ⟨OC_STACK_OK, .empty⟩, .read ⟨OC_STACK_OK, .empty⟩]).reads := by
  have hr (v : AttributeValue) : (sampleCreated [] v).mayRead = false := by
    simp [sampleCreated, newFile, OICFile.construct, setAllowedOperation, OICFile.mayRead]
  have h := read_protected_iff (sampleCreated [] (.integer 7)) (hr _) samplePlatform
    ⟨0, ⟨[], [], []⟩⟩ 0 ['p'] hr
    [.write ['1'] ⟨OC_STACK_OK, .empty⟩, .read ⟨OC_STACK_OK, .empty⟩]
  refine ⟨h.1, h.2.mpr fun answer => ?_⟩
  simp

/-- Two files of a resource without interfaces print the values found at discovery. -/
theorem read_gives_away_sampleCreated :
    (sampleCreated [] (.integer 1)).mayRead = false ∧
      OICFile.SameShape (sampleCreated [] (.integer 1)) (sampleCreated [] (.integer 2)) ∧
      ((sampleCreated [] (.integer 2)).read ⟨OC_STACK_OK, .empty⟩).output ≠
        ((sampleCreated [] (.integer 1)).read ⟨OC_STACK_OK, .empty⟩).output := by
  refine ⟨by decide, ⟨rfl, rfl, rfl, rfl⟩, ?_⟩
  decide +kernel

end IoTFS.Oic
