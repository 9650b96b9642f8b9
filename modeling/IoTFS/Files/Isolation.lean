import IoTFS.Files.Encoding
import IoTFS.Oic.FileThreads
import IoTFS.Oic.Mount

/-!
# A file deals in one attribute

`onGetState` makes each file with one attribute, under the name of the file. A reply lists
all attributes of the resource, but `didRetrieve` only refills what the file holds, so the
file never prints or sends anything else.
-/

namespace IoTFS.Oic

variable {ι : Type}

/-- The file holds one attribute, under its own name. -/
def OICFile.Single (f : OICFile ι) : Prop := ∃ type, f.values.types = [(f.fileName, type)]

theorem OICFile.single_iff (f : OICFile ι) :
    f.Single ↔ ∃ d, f.values.entries = [(f.fileName, d)] := by
  constructor
  · rintro ⟨type, h⟩
    obtain ⟨⟨n, d⟩, hd, he⟩ := List.map_eq_singleton_iff.mp h
    cases he
    exact ⟨d, hd⟩
  · rintro ⟨d, hd⟩
    exact ⟨d.type, by rw [OICFileAttributes.types, hd]; rfl⟩

/-- A file fresh from `onGetState` holds the attribute it was made for. -/
theorem single_newFile (P : Platform ι) (stub : OICStub ι) (memory : BitVec 32)
    (item : Str × AttributeValue) : (newFile P stub memory item).Single :=
  ⟨item.2.type, rfl⟩

/-- Contents do not matter. -/
theorem OICFile.SameShape.single {f g : OICFile ι} (h : OICFile.SameShape f g)
    (hf : f.Single) : g.Single := by
  obtain ⟨type, ht⟩ := hf
  exact ⟨type, by rw [h.types, h.fileName, ht]⟩

/-- A read printed the content of the attribute `name` and nothing else; the PUT of a write
names no other. -/
def Isolated (name : Str) : FileOp → Outcome ι → Prop
  | .read _, out => ∃ d, out.file.values.entries = [(name, d)] ∧ out.output = d.content
  | .write _ _, out => ∀ rep, .put rep ∈ out.sent → ∀ n ∈ rep.names, n = name

/-- What is built from a single attribute names no other. -/
theorem OICFile.Single.encode_names {f : OICFile ι} (h : f.Single) {rep : OCRepresentation}
    (he : encode f.values = some rep) : ∀ n ∈ rep.names, n = f.fileName := by
  obtain ⟨d, hd⟩ := f.single_iff.mp h
  intro n hn
  obtain ⟨d', hmem, -⟩ := (Oic.encode_names he n).mp hn
  rw [hd, List.mem_singleton] at hmem
  exact congrArg Prod.fst hmem

theorem OICFile.printed_single {f : OICFile ι} {d : OICFileDescriptor}
    (h : f.values.entries = [(f.fileName, d)]) : f.printed = d.content := by
  rw [printed, h, List.flatMap_singleton]

/-- Calls on a bound file with a single attribute are isolated. -/
theorem OICFile.Single.isolated {f : OICFile ι} (h : f.Single) (hbound : f.stub.isSome = true)
    (op : FileOp) : Isolated f.fileName op (f.perform op) := by
  have hcall := f.perform_call op
  have hfile := hcall.sameShape.single h
  have hname := hcall.sameShape.fileName
  generalize f.perform op = out at hcall hfile hname ⊢
  cases hcall with
  | readUnbound _ hn | writeUnbound _ _ hn => simp [hn] at hbound
  | readRefused | readSent =>
    obtain ⟨d, hd⟩ := (OICFile.single_iff _).mp hfile
    exact ⟨d, hname ▸ hd, OICFile.printed_single hd⟩
  | writeRefused | writeRejected =>
    intro rep hput
    cases hput
  | writeSent input answer rep _ _ he =>
    intro rep' hput
    cases List.mem_singleton.mp hput
    have hs : (f.overwritten input).Single := (sameShape_overwritten f input).single h
    exact hs.encode_names he

/-! ### Runs of the mounted file system -/

/-- The files of the tree lie under their names, are bound and hold one attribute each. -/
def FilesSingle (w : Provider ι) : Prop :=
  ∀ q f, w.tree.entry q = some (.oicFile f) →
    (∃ p, q = p ++ [cStr f.fileName]) ∧ f.stub.isSome = true ∧ f.Single

/-- So they do, and every call served was isolated. -/
structure MountIsolated (m : Mount ι) : Prop where
  files : FilesSingle m.provider
  calls : ∀ q op out, (q, op, out) ∈ m.history →
    ∃ p name, q = p ++ [cStr name] ∧ Isolated name op out

/-- A move adds files with one attribute only. -/
theorem Move.filesSingle {P : Platform ι} {a : Announcement ι} {w w' : Provider ι}
    (h : Move P a w w') (hw : FilesSingle w) : FilesSingle w' := by
  intro q f hq
  obtain ⟨new, hcases⟩ := h.entry_cases
  rcases hcases q _ hq with ⟨-, hadd⟩ | ⟨hold, -⟩
  · cases hadd with
    | file k rt stub i item hk hpath =>
      exact ⟨⟨_, hpath⟩, rfl, single_newFile P stub (a.memory i) item⟩
  · exact hw q f hold

theorem filesSingle_of_moves {P : Platform ι} {a : Announcement ι} {w w' : Provider ι}
    (h : Relation.ReflTransGen (Move P a) w w') (hw : FilesSingle w) : FilesSingle w' := by
  induction h with
  | refl => exact hw
  | tail _ hstep ih => exact hstep.filesSingle ih

theorem MountIsolated.step [DecidableEq ι] {P : Platform ι} {m m' : Mount ι} {e : MountEvent ι}
    (h : MountIsolated m) (hs : m.step P e = some m') : MountIsolated m' := by
  cases e with
  | announce a =>
    obtain ⟨w, hw, rfl⟩ := Option.map_eq_some_iff.mp hs
    refine ⟨?_, h.calls⟩
    rcases announce_cases hw with ⟨-, rfl⟩ | ⟨-, hmoves⟩
    · exact h.files
    · exact filesSingle_of_moves hmoves h.files
  | call q op =>
    simp only [Mount.step] at hs
    split at hs
    · rename_i f hf
      cases hs
      obtain ⟨⟨p, hp⟩, hbound, hsingle⟩ := h.files q f hf
      have hshape := (f.perform_call op).sameShape
      constructor
      · intro p' g hg
        rcases file_of_refile hg with ⟨rfl, rfl⟩ | hold
        · exact ⟨⟨p, by rw [hshape.fileName, hp]⟩, hshape.bound.trans hbound, hshape.single hsingle⟩
        · exact h.files p' g hold
      · intro q' op' out hmem
        rcases List.mem_append.mp hmem with hmem | hmem
        · exact h.calls q' op' out hmem
        · cases List.mem_singleton.mp hmem
          exact ⟨p, f.fileName, hp, hsingle.isolated hbound op⟩
    · cases hs

/-! ### Runs of request threads -/

variable {τ : Type} [DecidableEq τ]

/-- The file keeps its one attribute, and no representation built or sent names another. -/
structure ThreadsIsolated (name : Str) (s : FileThreads ι τ) : Prop where
  file : s.file.fileName = name ∧ s.file.Single
  built : ∀ t result rep, s.pc t = .built result rep → ∀ n ∈ rep.names, n = name
  puts : ∀ result rep, (result, rep) ∈ s.puts → ∀ n ∈ rep.names, n = name

theorem ThreadsIsolated.move {name : Str} {s : FileThreads ι τ} (h : ThreadsIsolated name s)
    {t : τ} {x : FilePc} {file : OICFile ι} {m_rw : Option τ}
    {puts : List (Str × OCRepresentation)} (hshape : OICFile.SameShape s.file file)
    (hbuilt : ∀ result rep, x = .built result rep → ∀ n ∈ rep.names, n = name)
    (hputs : ∀ result rep, (result, rep) ∈ puts → ∀ n ∈ rep.names, n = name) :
    ThreadsIsolated name ⟨file, m_rw, s.goto t x, puts⟩ where
  file := ⟨by rw [hshape.fileName]; exact h.file.1, hshape.single h.file.2⟩
  built := FileThreads.built_goto h.built hbuilt
  puts := hputs

theorem ThreadsIsolated.step {name : Str} {s s' : FileThreads ι τ} {e : FileEvent τ}
    (h : ThreadsIsolated name s) (hs : s.step e = some s') : ThreadsIsolated name s' := by
  cases FileThreads.step_cases hs with
  | store t input =>
    exact h.move (OICFile.sameShape_overwritten s.file input) (fun _ _ hx => by cases hx) h.puts
  | build t result rep _ _ hrep =>
    refine h.move (.refl _) (fun result' rep' hx => ?_) h.puts
    cases hx
    have hnames := h.file.2.encode_names hrep
    rwa [h.file.1] at hnames
  | put t result rep hpc =>
    refine h.move (.refl _) (fun _ _ hx => by cases hx) fun result' rep' hm => ?_
    rcases List.mem_append.mp hm with hm | hm
    · exact h.puts result' rep' hm
    · cases List.mem_singleton.mp hm
      exact h.built t result rep hpc
  | getReply t reply =>
    exact h.move (OICFile.sameShape_didRetrieve s.file reply) (fun _ _ hx => by cases hx) h.puts
  | refuse | throw | get | putReply | finish =>
    exact h.move (.refl _) (fun _ _ hx => by cases hx) h.puts

/-- Whatever the request threads of a file with a single attribute do, it stays isolated. -/
theorem threadsIsolated_of_reach {f : OICFile ι} (hf : f.Single) {s : FileThreads ι τ}
    {ok : FileThreads ι τ → FileEvent τ → Prop}
    (h : Machine.Reach FileThreads.step ok (.start f) s) : ThreadsIsolated f.fileName s := by
  refine h.invariant (ThreadsIsolated f.fileName) ?_ fun _ _ _ hi _ hs => hi.step hs
  refine ⟨⟨rfl, hf⟩, fun t result rep hx => ?_, fun result rep hm => ?_⟩
  · cases hx
  · cases hm

theorem mountIsolated_of_reach [DecidableEq ι] {P : Platform ι} {m : Mount ι}
    {ok : Mount ι → MountEvent ι → Prop}
    (h : Machine.Reach (Mount.step P) ok .initial m) : MountIsolated m := by
  refine h.invariant MountIsolated ⟨fun q f hq => ?_, fun _ _ _ hm => by cases hm⟩
    fun _ _ _ hi _ hs => hi.step hs
  simp only [Mount.initial, Provider.entry_initial] at hq
  split at hq <;> cases hq

/-- Every file that discovery makes holds one attribute, under the name of the file. In
every run of announcements and calls each read prints the content of that attribute and
each PUT names no other, and so it is when the threads of the requests on a file
interleave. -/
theorem attributes_isolated [DecidableEq ι] (P : Platform ι) (m : Mount ι)
    (h : Machine.Reach (Mount.step P) (fun _ _ => True) .initial m) :
    (∀ q f, m.provider.tree.entry q = some (.oicFile f) →
        ∃ p d, q = p ++ [cStr f.fileName] ∧ f.values.entries = [(f.fileName, d)]) ∧
      (∀ q op out, (q, op, out) ∈ m.history →
        ∃ p name, q = p ++ [cStr name] ∧ Isolated name op out) ∧
      ∀ (stub : OICStub ι) (memory : BitVec 32) (item : Str × AttributeValue)
        (s : FileThreads ι τ),
        Machine.Reach FileThreads.step (fun _ _ => True) (.start (newFile P stub memory item)) s →
          (∃ d, s.file.values.entries = [(item.1, d)] ∧ s.file.printed = d.content) ∧
            ∀ result rep, (result, rep) ∈ s.puts → ∀ n ∈ rep.names, n = item.1 := by
  have hm := mountIsolated_of_reach h
  refine ⟨fun q f hq => ?_, hm.calls, fun stub memory item s hs => ?_⟩
  · obtain ⟨⟨p, hp⟩, -, hsingle⟩ := hm.files q f hq
    obtain ⟨d, hd⟩ := f.single_iff.mp hsingle
    exact ⟨p, d, hp, hd⟩
  · obtain ⟨⟨hname, hsingle⟩, -, hputs⟩ :=
      threadsIsolated_of_reach (single_newFile P stub memory item) hs
    obtain ⟨d, hd⟩ := s.file.single_iff.mp hsingle
    refine ⟨⟨d, ?_, OICFile.printed_single hd⟩, hputs⟩
    rw [hd, hname]
    rfl

/-- A reply listing two attributes. -/
def sampleColored (power : Int32) (color : String) : Reply :=
  ⟨OC_STACK_OK, (OCRepresentation.empty.setValue "power".toList (.integer power)).setValue
    "color".toList (.string color.toList)⟩

/-- A lamp with both attributes. -/
def sampleLamp : Announcement Str :=
  sampleAnnouncement "hall/a/light" ["core.light"] (sampleColored 0 "red")

/-- Where the file of the first attribute is. -/
def sampleLampFile : Path := pieces "hall/a/light/core.light/power".toList

/-- The lamp is announced and the file of its first attribute read, which the device answers
with both. -/
theorem attributes_isolated_sampleLamp : ∃ m : Mount Str,
    (∃ out, m.history = [(sampleLampFile, .read (sampleColored 1 "blue"), out)]) ∧
      ∀ q op out, (q, op, out) ∈ m.history →
        ∃ p name, q = p ++ [cStr name] ∧ Isolated name op out := by
  have hrun : ((announce samplePlatform .initial sampleLamp).any fun w =>
      (w.tree.entry sampleLampFile).any fun e => e.cls = .OICFile) = true := by
    rw [announce_eq]
    decide +kernel
  obtain ⟨w, hw, hfile⟩ := (Option.any_eq_true _ _).mp hrun
  obtain ⟨e, he, hcls⟩ := (Option.any_eq_true _ _).mp hfile
  cases e with
  | oicFile f =>
    let op : FileOp := .read (sampleColored 1 "blue")
    have hannounce : Mount.step samplePlatform .initial (.announce sampleLamp) =
        some ⟨w, []⟩ := by
      simp only [Mount.step, Mount.initial, hw, Option.map_some]
    have hcall : Mount.step samplePlatform ⟨w, []⟩ (.call sampleLampFile op) =
        some ⟨w.refile sampleLampFile (f.perform op).file,
          [(sampleLampFile, op, f.perform op)]⟩ := by
      simp only [Mount.step, he, List.nil_append]
    refine ⟨⟨w.refile sampleLampFile (f.perform op).file, [(sampleLampFile, op, f.perform op)]⟩,
      ⟨f.perform op, rfl⟩, ?_⟩
    exact (attributes_isolated (τ := Nat) samplePlatform _
      (.next (.next .refl trivial hannounce) trivial hcall)).2.1
  | ioTFolder | oicFolder | oicRTFolder stub => cases hcls

end IoTFS.Oic
