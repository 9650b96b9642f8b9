import IoTFS.Oic.File
import Mathlib.Data.List.Induction

/-!
# What a call on a file does

Each way a read or a write can go is one equation. A call changes the cached contents of
a file and nothing else, and sends at most the one request its kind stands for.
-/

namespace IoTFS.Oic

variable {ι : Type}

namespace OICFileAttributes

@[simp] theorem names_refill (a : OICFileAttributes) (content : Str → Str → Str) :
    (a.refill content).names = a.names := by
  simp only [names, refill, List.map_map]
  rfl

/-- The types of the attributes, in iteration order. -/
def types (a : OICFileAttributes) : List (Str × AttributeType) :=
  a.entries.map fun e => (e.1, e.2.type)

@[simp] theorem types_refill (a : OICFileAttributes) (content : Str → Str → Str) :
    (a.refill content).types = a.types := by
  simp only [types, refill, List.map_map]
  rfl

/-- Storing a text that every content already equals changes nothing. -/
theorem setContents_eq_iff (a : OICFileAttributes) (result : Str) :
    a.setContents result = a ↔ ∀ e ∈ a.entries, e.2.content = result := by
  constructor
  · intro h e he
    rw [← h] at he
    obtain ⟨e', -, rfl⟩ := List.mem_map.mp he
    rfl
  · intro h
    obtain ⟨entries, ordered⟩ := a
    have hmap : (entries.map fun e => (e.1, { e.2 with content := result })) = entries := by
      rw [List.map_congr_left (g := id) fun e he => ?_, List.map_id]
      rw [← h e he]
      rfl
    simp only [setContents, refill, hmap]

end OICFileAttributes

namespace OICFile

/-- What a read prints. -/
def printed (f : OICFile ι) : Str := f.values.entries.flatMap fun e => e.2.content

/-! ### The ways a call can go -/

/-- The ways a call on the file `f` can go. -/
inductive Call (f : OICFile ι) : FileOp → Outcome ι → Prop
  /-- Without a stub nothing happens. -/
  | readUnbound (answer : Reply) : f.stub = none →
      Call f (.read answer) ⟨f, [], [], some (-1)⟩
  /-- Without the Read bit the cached contents are printed. -/
  | readRefused (answer : Reply) : f.stub.isSome = true → f.mayRead = false →
      Call f (.read answer) ⟨f, [], f.printed, some 0⟩
  /-- Otherwise the device is asked first. -/
  | readSent (answer : Reply) : f.stub.isSome = true → f.mayRead = true →
      Call f (.read answer)
        ⟨f.didRetrieve answer, [.get], (f.didRetrieve answer).printed, some 0⟩
  /-- Without a stub nothing happens. -/
  | writeUnbound (input : Str) (answer : Reply) : f.stub = none →
      Call f (.write input answer) ⟨f, [], [], some (-1)⟩
  /-- Without the Write bit the token is stored and not sent. -/
  | writeRefused (input : Str) (answer : Reply) : f.stub.isSome = true → f.mayWrite = false →
      Call f (.write input answer) ⟨f.overwritten input, [], [], some 0⟩
  /-- A token that cannot be converted is stored before the conversion throws. -/
  | writeRejected (input : Str) (answer : Reply) : f.stub.isSome = true → f.mayWrite = true →
      encode (f.values.setContents (token input)) = none →
      Call f (.write input answer) ⟨f.overwritten input, [], [], none⟩
  /-- Otherwise it is stored and sent. -/
  | writeSent (input : Str) (answer : Reply) (rep : OCRepresentation) :
      f.stub.isSome = true → f.mayWrite = true →
      encode (f.values.setContents (token input)) = some rep →
      Call f (.write input answer) ⟨f.overwritten input, [.put rep], [], some 0⟩

theorem read_call (f : OICFile ι) (answer : Reply) : Call f (.read answer) (f.read answer) := by
  cases hs : f.stub with
  | none =>
    have hread : f.read answer = ⟨f, [], [], some (-1)⟩ := by simp [read, hs]
    rw [hread]
    exact .readUnbound answer hs
  | some stub =>
    have hb : f.stub.isSome = true := by rw [hs, Option.isSome_some]
    cases hr : f.mayRead with
    | false =>
      have hread : f.read answer = ⟨f, [], f.printed, some 0⟩ := by
        simp [read, retrieve, hs, hr, printed]
      rw [hread]
      exact .readRefused answer hb hr
    | true =>
      have hread : f.read answer =
          ⟨f.didRetrieve answer, [.get], (f.didRetrieve answer).printed, some 0⟩ := by
        simp [read, retrieve, hs, hr, printed]
      rw [hread]
      exact .readSent answer hb hr

theorem write_call (f : OICFile ι) (input : Str) (answer : Reply) :
    Call f (.write input answer) (f.write input answer) := by
  have hmay : (f.overwritten input).mayWrite = f.mayWrite := rfl
  have hstub : (f.overwritten input).stub = f.stub := rfl
  cases hs : f.stub with
  | none =>
    have hunbound : f.write input answer = ⟨f, [], [], some (-1)⟩ := by simp [write, hs]
    rw [hunbound]
    exact .writeUnbound input answer hs
  | some stub =>
    have hb : f.stub.isSome = true := by rw [hs, Option.isSome_some]
    rw [write_of_bound (by rw [hs, Option.isNone_some])]
    cases hw : f.mayWrite with
    | false =>
      have hupdate : (f.overwritten input).update answer = (f.overwritten input, some []) := by
        simp [update, hmay, hw]
      rw [hupdate]
      exact .writeRefused input answer hb hw
    | true =>
      cases he : encode (f.values.setContents (token input)) with
      | none =>
        have he' : encode (f.overwritten input).values = none := he
        have hupdate : (f.overwritten input).update answer = (f.overwritten input, none) := by
          simp [update, hmay, hw, hstub, hs, he']
        rw [hupdate]
        exact .writeRejected input answer hb hw he
      | some rep =>
        have he' : encode (f.overwritten input).values = some rep := he
        have hupdate : (f.overwritten input).update answer =
            (f.overwritten input, some [.put rep]) := by
          simp [update, didUpdate, hmay, hw, hstub, hs, he']
        rw [hupdate]
        exact .writeSent input answer rep hb hw he

/-- Every call goes one of these ways. -/
theorem perform_call (f : OICFile ι) (op : FileOp) : Call f op (f.perform op) := by
  cases op with
  | read answer => exact read_call f answer
  | write input answer => exact write_call f input answer

theorem read_unbound {f : OICFile ι} (hn : f.stub = none) (answer : Reply) :
    f.read answer = ⟨f, [], [], some (-1)⟩ := by
  have hcall := f.read_call answer
  generalize f.read answer = out at hcall
  cases hcall with
  | readUnbound => rfl
  | readRefused _ hb | readSent _ hb => simp [hn] at hb

theorem read_refused {f : OICFile ι} (hb : f.stub.isSome = true) (hr : f.mayRead = false)
    (answer : Reply) : f.read answer = ⟨f, [], f.printed, some 0⟩ := by
  have hcall := f.read_call answer
  generalize f.read answer = out at hcall
  cases hcall with
  | readUnbound _ hn => simp [hn] at hb
  | readRefused => rfl
  | readSent _ _ hr' =>
    rw [hr] at hr'
    cases hr'

theorem read_sent {f : OICFile ι} (hb : f.stub.isSome = true) (hr : f.mayRead = true)
    (answer : Reply) :
    f.read answer = ⟨f.didRetrieve answer, [.get], (f.didRetrieve answer).printed, some 0⟩ := by
  have hcall := f.read_call answer
  generalize f.read answer = out at hcall
  cases hcall with
  | readUnbound _ hn => simp [hn] at hb
  | readRefused _ _ hr' =>
    rw [hr] at hr'
    cases hr'
  | readSent => rfl

/-- A permitted write on a bound file sends what the stored token is converted to. -/
theorem write_sends_iff {f : OICFile ι} (hb : f.stub.isSome = true) (hw : f.mayWrite = true)
    (input : Str) (answer : Reply) (rep : OCRepresentation) :
    (f.write input answer).sent = [.put rep] ↔
      encode (f.values.setContents (token input)) = some rep := by
  have hcall := f.write_call input answer
  generalize f.write input answer = out at hcall
  cases hcall with
  | writeUnbound _ _ hn => simp [hn] at hb
  | writeRefused _ _ _ hw' =>
    rw [hw] at hw'
    cases hw'
  | writeRejected _ _ _ _ he => simp [he]
  | writeSent _ _ rep' _ _ he => simp [he]

/-! ### What every call leaves alone -/

/-- Everything of a file but the contents of its attributes. -/
structure SameShape (f g : OICFile ι) : Prop where
  fileName : g.fileName = f.fileName
  allowedOperation : g.allowedOperation = f.allowedOperation
  stub : g.stub = f.stub
  types : g.values.types = f.values.types

theorem SameShape.refl (f : OICFile ι) : SameShape f f := ⟨rfl, rfl, rfl, rfl⟩

theorem SameShape.trans {f g h : OICFile ι} (hfg : SameShape f g) (hgh : SameShape g h) :
    SameShape f h where
  fileName := hgh.fileName.trans hfg.fileName
  allowedOperation := hgh.allowedOperation.trans hfg.allowedOperation
  stub := hgh.stub.trans hfg.stub
  types := hgh.types.trans hfg.types

theorem SameShape.mayRead {f g : OICFile ι} (h : SameShape f g) : g.mayRead = f.mayRead := by
  simp only [OICFile.mayRead, h.allowedOperation]

theorem SameShape.mayWrite {f g : OICFile ι} (h : SameShape f g) : g.mayWrite = f.mayWrite := by
  simp only [OICFile.mayWrite, h.allowedOperation]

theorem SameShape.bound {f g : OICFile ι} (h : SameShape f g) :
    g.stub.isSome = f.stub.isSome := by
  rw [h.stub]

theorem sameShape_overwritten (f : OICFile ι) (input : Str) : SameShape f (f.overwritten input) :=
  ⟨rfl, rfl, rfl, OICFileAttributes.types_refill _ _⟩

theorem types_absorb (values : OICFileAttributes) (item : Str × AttributeValue) :
    (absorb values item).types = values.types := by
  unfold absorb
  split
  · exact OICFileAttributes.types_refill _ _
  · rfl

theorem types_foldl_absorb (items : List (Str × AttributeValue)) (values : OICFileAttributes) :
    (items.foldl absorb values).types = values.types := by
  induction items generalizing values with
  | nil => rfl
  | cons item items ih => rw [List.foldl_cons, ih, types_absorb]

/-- An entry after a reply was there before, with its content then or a value of the
reply. -/
theorem mem_foldl_absorb (items : List (Str × AttributeValue)) (values : OICFileAttributes)
    (e : Str × OICFileDescriptor) (he : e ∈ (items.foldl absorb values).entries) :
    ∃ d, (e.1, d) ∈ values.entries ∧ d.type = e.2.type ∧
      (d.content = e.2.content ∨ ∃ v, (e.1, v) ∈ items ∧ e.2.content = v.getValueToString) := by
  induction items generalizing values with
  | nil => exact ⟨e.2, he, rfl, Or.inl rfl⟩
  | cons item items ih =>
    obtain ⟨d, hd, htype, hc⟩ := ih (absorb values item) he
    have htail : (∃ v, (e.1, v) ∈ items ∧ e.2.content = v.getValueToString) →
        ∃ v, (e.1, v) ∈ item :: items ∧ e.2.content = v.getValueToString := by
      rintro ⟨v, hv, hval⟩
      exact ⟨v, List.mem_cons_of_mem _ hv, hval⟩
    unfold absorb at hd
    split at hd
    · obtain ⟨⟨name, d'⟩, he', heq⟩ := List.mem_map.mp hd
      simp only [Prod.mk.injEq] at heq
      obtain ⟨rfl, rfl⟩ := heq
      refine ⟨d', he', htype, ?_⟩
      rcases hc with hc | hc
      · by_cases hn : e.1 = item.1
        · refine Or.inr ⟨item.2, ?_, ?_⟩
          · rw [hn]
            exact List.mem_cons_self ..
          · rw [← hc, if_pos hn]
        · rw [if_neg hn] at hc
          exact Or.inl hc
      · exact Or.inr (htail hc)
    · exact ⟨d, hd, htype, hc.imp id htail⟩

/-- What holds of every content, and of every text a successful reply brings for it, holds of
every content after the reply. -/
theorem forall_didRetrieve {f : OICFile ι} {reply : Reply} {p : Str → AttributeType → Str → Prop}
    (hold : ∀ e ∈ f.values.entries, p e.1 e.2.type e.2.content)
    (hnew : reply.eCode = OC_STACK_OK → ∀ e ∈ f.values.entries, ∀ v,
      (e.1, v) ∈ reply.rep.items → p e.1 e.2.type v.getValueToString) :
    ∀ e ∈ (f.didRetrieve reply).values.entries, p e.1 e.2.type e.2.content := by
  intro e he
  simp only [didRetrieve] at he
  split at he
  · rename_i hok
    obtain ⟨d, hd, htype, hc | ⟨v, hv, hc⟩⟩ := mem_foldl_absorb _ _ e he
    · rw [← htype, ← hc]
      exact hold (e.1, d) hd
    · rw [← htype, hc]
      exact hnew hok (e.1, d) hd v hv
  · exact hold e he

theorem sameShape_didRetrieve (f : OICFile ι) (reply : Reply) :
    SameShape f (f.didRetrieve reply) := by
  unfold didRetrieve
  split
  · exact ⟨rfl, rfl, rfl, types_foldl_absorb _ _⟩
  · exact .refl f

/-- Reads and writes change contents only. -/
theorem Call.sameShape {f : OICFile ι} {op : FileOp} {out : Outcome ι} (h : Call f op out) :
    SameShape f out.file := by
  cases h with
  | readUnbound | readRefused | writeUnbound => exact .refl f
  | readSent answer => exact sameShape_didRetrieve f answer
  | writeRefused input | writeRejected input | writeSent input =>
    exact sameShape_overwritten f input

/-- A PUT is sent only by a write on a bound file with the Write bit, and carries what
the stored token is converted to. -/
theorem Call.of_put {f : OICFile ι} {op : FileOp} {out : Outcome ι} (h : Call f op out)
    {rep : OCRepresentation} (hput : .put rep ∈ out.sent) :
    f.stub.isSome = true ∧ f.mayWrite = true ∧ ∃ input answer, op = .write input answer ∧
      encode (f.values.setContents (token input)) = some rep := by
  cases h with
  | readUnbound | readRefused | writeUnbound | writeRefused | writeRejected => cases hput
  | readSent => cases List.mem_singleton.mp hput
  | writeSent input answer rep' hb hw he =>
    cases List.mem_singleton.mp hput
    exact ⟨hb, hw, input, answer, rfl, he⟩

/-- A GET is sent only by a read on a bound file with the Read bit. -/
theorem Call.of_get {f : OICFile ι} {op : FileOp} {out : Outcome ι} (h : Call f op out)
    (hget : .get ∈ out.sent) :
    f.stub.isSome = true ∧ f.mayRead = true ∧ ∃ answer, op = .read answer := by
  cases h with
  | readUnbound | readRefused | writeUnbound | writeRefused | writeRejected => cases hget
  | readSent answer hb hr => exact ⟨hb, hr, answer, rfl⟩
  | writeSent => cases List.mem_singleton.mp hget

end OICFile

/-! ### Sessions -/

theorem session_concat (f : OICFile ι) (ops : List FileOp) (op : FileOp) :
    session f (ops ++ [op]) = (session f ops).serve op := by
  simp [session]

/-- A session changes contents only. -/
theorem sameShape_session (f : OICFile ι) (ops : List FileOp) :
    OICFile.SameShape f (session f ops).file := by
  induction ops using List.reverseRecOn with
  | nil => exact .refl f
  | append_singleton ops op ih =>
    rw [session_concat]
    exact ih.trans (OICFile.perform_call _ op).sameShape

/-- What a session remembers of a call is the outcome on the file at that time. -/
theorem mem_history {f : OICFile ι} {ops : List FileOp} {op : FileOp} {out : Outcome ι}
    (h : (op, out) ∈ (session f ops).history) :
    ∃ pre, pre ++ [op] <+: ops ∧ out = (session f pre).file.perform op := by
  induction ops using List.reverseRecOn with
  | nil => cases h
  | append_singleton ops op' ih =>
    rw [session_concat] at h
    rcases List.mem_append.mp h with h | h
    · obtain ⟨pre, hpre, hout⟩ := ih h
      exact ⟨pre, hpre.trans (List.prefix_append _ _), hout⟩
    · cases List.mem_singleton.mp h
      exact ⟨ops, List.prefix_rfl, rfl⟩

/-- A bound file with one attribute. -/
def sampleFile (allowedOperation : BitVec 32) (type : AttributeType) (content : Str) :
    OICFile Unit where
  fileName := ['p']
  allowedOperation := allowedOperation
  values := .single ['p'] ⟨content, type⟩
  stub := some ⟨0, ⟨(), [], []⟩⟩

end IoTFS.Oic
