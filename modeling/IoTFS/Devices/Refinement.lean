import IoTFS.Devices.Light
import IoTFS.Devices.Placement
import IoTFS.Files.LatestType

/-!
# The mounted file system shows the devices

Seen from its applications the mounted file system is a bank of registers, one for each
attribute of each device, whatever is announced, read and written in whatever order: a read
shows what the register holds, and a write changes the register of its file alone.
-/

namespace IoTFS.Oic

/-! ### Calls on a file with one attribute -/

section Calls

variable {ι : Type} {f : OICFile ι}

/-- A successful reply that has the attribute of the file is printed. -/
theorem OICFile.Single.printed_didRetrieve (h : f.Single) {r : Reply}
    (hok : r.eCode = OC_STACK_OK) {v : AttributeValue} (hv : r.rep.value? f.fileName = some v) :
    (f.didRetrieve r).printed = v.getValueToString := by
  obtain ⟨d, hd⟩ := f.single_iff.mp h
  have hshape := OICFile.sameShape_didRetrieve f r
  obtain ⟨d', hd'⟩ := (f.didRetrieve r).single_iff.mp (hshape.single h)
  have hmem := mem_didRetrieve hok (hd ▸ List.mem_singleton_self _)
    (OCRepresentation.value?_eq_some_iff.mp hv)
  rw [hd', List.mem_singleton, hshape.fileName, Prod.mk.injEq] at hmem
  rw [OICFile.printed_single hd', ← hmem.2]

/-- The PUT for a file with one attribute has the value made of it, if there is one. -/
theorem OICFile.Single.encoded (h : f.Single) {rep : OCRepresentation}
    (he : encode f.values = some rep) : ∃ d, f.values.entries = [(f.fileName, d)] ∧
      rep = d.converted.elim .empty (.single f.fileName) := by
  obtain ⟨d, hd⟩ := f.single_iff.mp h
  refine ⟨d, hd, ?_⟩
  rw [encode, hd] at he
  obtain ⟨rep', hrep', hrest⟩ := Option.bind_eq_some_iff.mp he
  cases hrest
  unfold encodeEntry at hrep'
  unfold OICFileDescriptor.converted
  cases htype : d.type with
  | integer | boolean =>
    simp only [htype] at hrep'
    obtain ⟨v, hv, rfl⟩ := Option.map_eq_some_iff.mp hrep'
    simp only [hv, Option.map_some]
    rfl
  | string | other =>
    simp only [htype] at hrep'
    cases hrep'
    rfl

/-- The file of a single attribute after the token is stored. -/
theorem OICFile.entries_overwritten {d : OICFileDescriptor}
    (hd : f.values.entries = [(f.fileName, d)]) (input : Str) :
    (f.overwritten input).values.entries = [(f.fileName, { d with content := token input })] := by
  simp only [overwritten, OICFileAttributes.setContents, OICFileAttributes.refill, hd,
    List.map_cons, List.map_nil]

theorem OICFile.resource_of_stub {stub : OICStub ι} (h : f.stub = some stub) :
    f.resource = some stub.resource.uniqueIdentifier := by
  rw [resource, h, Option.map_some]

theorem OICFile.bound_of_resource {id : ι} (h : f.resource = some id) :
    f.stub.isSome = true := by
  obtain ⟨stub, hstub, -⟩ := Option.map_eq_some_iff.mp h
  rw [hstub, Option.isSome_some]

end Calls

open Demo

namespace Network

variable {ι δ : Type} {D : ι → Device δ}

/-- The device of a resource has an attribute, and has had a value of the type for it. -/
def Offers (D : ι → Device δ) (id : ι) (name : Str) (type : AttributeType) : Prop :=
  ∃ d v, ((D id).get d).value? name = some v ∧ v.type = type

/-- Every state of the device has the attribute. -/
theorem Offers.value {id : ι} {name : Str} {type : AttributeType} (h : Offers D id name type)
    (d : δ) : ∃ v, ((D id).get d).value? name = some v := by
  obtain ⟨d', v, hv, -⟩ := h
  exact OCRepresentation.mem_names_iff.mp
    ((D id).same_names d' d name (OCRepresentation.mem_names_iff.mpr ⟨v, hv⟩))

/-- The registers of the devices. -/
def registers (D : ι → Device δ) (s : Network ι δ) :
    Registers (ι × Str) (Option AttributeValue) Str :=
  ⟨value D s.devices, s.log⟩

/-- The text a register is shown as. -/
def text (v : Option AttributeValue) : Option Str := v.map AttributeValue.getValueToString

/-- What a device answers, it offers. -/
theorem offers_of_reply {s : Network ι δ} {id : ι} {eCode : Int} {item : Str × AttributeValue}
    (h : item ∈ (s.reply D id eCode).rep.items) : Offers D id item.1 item.2.type := by
  simp only [reply] at h
  split at h
  · exact ⟨s.devices id, item.2, OCRepresentation.value?_eq_some_iff.mpr h, rfl⟩
  · cases h

/-- A file, the resource it is bound to, its place and its attribute. -/
theorem file_placed {P : Platform ι} {w : Provider ι} (h : Placed P (Offers D) w) {q : Path}
    {f : OICFile ι} (hf : w.tree.entry q = some (.oicFile f)) :
    ∃ stub rt type, f.stub = some stub ∧ rt ∈ stub.resource.typeNames ∧
      q = stub.resource.path P ++ [rt, cStr f.fileName] ∧
        f.values.types = [(f.fileName, type)] ∧
          Offers D stub.resource.uniqueIdentifier f.fileName type := by
  obtain ⟨p, stub, hq, hp, hstub, type, htype, hoff⟩ := h.file q f hf
  obtain ⟨rt, hrt, hpath⟩ := h.typeFolder p stub hp
  refine ⟨stub, rt, type, hstub, hrt, ?_, htype, hoff⟩
  rw [hq, hpath, List.append_assoc]
  rfl

theorem value_apply (devices : ι → δ) (id : ι) (name : Str) :
    value D devices (id, name) = ((D id).get (devices id)).value? name := rfl

/-! ### One event -/

/-- A permitted read with the code of success asks the device and prints what the register
holds. -/
theorem read_current {s : Network ι δ} {f : OICFile ι} {id : ι} (hres : f.resource = some id)
    (hsingle : f.Single) {type : AttributeType} (hoff : Offers D id f.fileName type)
    (hr : f.mayRead = true) :
    ∃ t, text (value D s.devices (id, f.fileName)) = some t ∧
      f.read (s.answer D f OC_STACK_OK) =
        ⟨f.didRetrieve (s.answer D f OC_STACK_OK), [.get], t, some 0⟩ := by
  obtain ⟨v, hv⟩ := hoff.value (s.devices id)
  have hans : s.answer D f OC_STACK_OK = ⟨OC_STACK_OK, (D id).get (s.devices id)⟩ := by
    simp only [answer, hres, reply, if_pos]
  refine ⟨v.getValueToString, by rw [text, value_apply, hv, Option.map_some], ?_⟩
  rw [OICFile.read_sent (OICFile.bound_of_resource hres) hr, hans,
    hsingle.printed_didRetrieve rfl hv]

/-- A read with the code of success shows what the register holds, or asks nothing. -/
theorem read_access {s : Network ι δ} {f : OICFile ι} {id : ι} (hres : f.resource = some id)
    (hsingle : f.Single) {type : AttributeType} (hoff : Offers D id f.fileName type) :
    access D f (f.read (s.answer D f OC_STACK_OK)) = [] ∨
      ∃ t, access D f (f.read (s.answer D f OC_STACK_OK)) = [.read (id, f.fileName) t] ∧
        text (value D s.devices (id, f.fileName)) = some t := by
  cases hr : f.mayRead with
  | false =>
    left
    rw [OICFile.read_refused (OICFile.bound_of_resource hres) hr]
    simp only [access, hres]
  | true =>
    obtain ⟨t, ht, hread⟩ := read_current hres hsingle hoff hr
    refine .inr ⟨t, ?_, ht⟩
    rw [hread]
    simp only [access, hres]

variable [DecidableEq ι]

/-- The values after a PUT of one attribute. -/
theorem value_update (devices : ι → δ) {id : ι} (hD : (D id).Lawful) (name : Str)
    (v : AttributeValue) :
    value D (Function.update devices id ((D id).put (devices id) (.single name v))) =
      if (D id).accepts name v then Function.update (value D devices) (id, name) (some v)
      else value D devices := by
  by_cases hacc : (D id).accepts name v = true
  · rw [if_pos hacc]
    funext ⟨id', name'⟩
    by_cases hid : id' = id
    · subst hid
      rw [value_apply, Function.update_self, hD.get_put]
      by_cases hname : name' = name
      · rw [if_pos ⟨hname, hacc⟩, hname, Function.update_self]
      · rw [if_neg fun h => hname h.1, Function.update_of_ne fun he => hname (Prod.mk.inj he).2,
          value_apply]
    · rw [Function.update_of_ne fun he => hid (Prod.mk.inj he).1, value_apply,
        Function.update_of_ne hid, value_apply]
  · rw [if_neg hacc]
    funext ⟨id', name'⟩
    by_cases hid : id' = id
    · subst hid
      rw [value_apply, Function.update_self, hD.get_put, if_neg fun h => hacc h.2,
        value_apply]
    · rw [value_apply, Function.update_of_ne hid, value_apply]

/-- A PUT of the attribute of a file, delivered to its device. -/
theorem value_deliver_single (devices : ι → δ) {f : OICFile ι} {id : ι}
    (hD : (D id).Lawful) (hres : f.resource = some id) (v : AttributeValue) :
    value D (deliver D devices f [.put (.single f.fileName v)]) =
      if (D id).accepts f.fileName v then
        Function.update (value D devices) (id, f.fileName) (some v) else value D devices := by
  rw [← value_update devices hD]
  simp only [deliver, hres]

/-- A PUT without attributes, delivered to its device. -/
theorem value_deliver_empty (hD : ∀ id, (D id).Lawful) (devices : ι → δ) (f : OICFile ι) :
    value D (deliver D devices f [.put .empty]) = value D devices := by
  cases hres : f.resource with
  | none => simp only [deliver, hres]
  | some id =>
    simp only [deliver, hres]
    funext k
    obtain ⟨id', name⟩ := k
    by_cases hid : id' = id
    · subst hid
      rw [value_apply, Function.update_self, (hD id').put_empty, value_apply]
    · rw [value_apply, Function.update_of_ne hid, value_apply]

/-- A delivered write changes the register of its file, or nothing. -/
theorem write_access (hD : ∀ id, (D id).Lawful) (devices : ι → δ) {f : OICFile ι} {id : ι}
    (hres : f.resource = some id) (hsingle : f.Single) (input : Str) (answer : Reply) :
    (access D f (f.write input answer) = [] ∧
        value D (deliver D devices f (f.write input answer).sent) = value D devices) ∨
      ∃ v, access D f (f.write input answer) = [.wrote (id, f.fileName) (some v)] ∧
        value D (deliver D devices f (f.write input answer).sent) =
          Function.update (value D devices) (id, f.fileName) (some v) := by
  have hcall := f.write_call input answer
  generalize f.write input answer = out at hcall
  cases hcall with
  | writeUnbound | writeRefused | writeRejected =>
    left
    simp only [access, hres, deliver, true_and]
  | writeSent _ _ rep _ _ he =>
    have hshape := OICFile.sameShape_overwritten f input
    obtain ⟨d, -, rfl⟩ := (hshape.single hsingle).encoded he
    rw [hshape.fileName]
    cases d.converted with
    | none =>
      left
      simp only [access, hres, Option.elim_none, value_deliver_empty hD, and_true]
      rfl
    | some v =>
      simp only [access, hres, Option.elim_some, OCRepresentation.value?_single,
        value_deliver_single devices (hD id) hres]
      split
      · exact .inr ⟨v, rfl, rfl⟩
      · exact .inl ⟨rfl, rfl⟩

/-- A permitted write whose token converts puts the value to the device of its file. -/
theorem deliver_write (devices : ι → δ) {f : OICFile ι} {id : ι} (hres : f.resource = some id)
    (hw : f.mayWrite = true) {d : OICFileDescriptor} (hd : f.values.entries = [(f.fileName, d)])
    {input : Str} {v : AttributeValue}
    (hv : OICFileDescriptor.converted { d with content := token input } = some v)
    (answer : Reply) : deliver D devices f (f.write input answer).sent =
      Function.update devices id ((D id).put (devices id) (.single f.fileName v)) := by
  have hd' := OICFile.entries_overwritten hd input
  have hname : (f.overwritten input).fileName = f.fileName := rfl
  have hsome : (encode (f.overwritten input).values).isSome = true := by
    rw [encode, encodeFrom_isSome, hd']
    intro e he
    rw [List.mem_singleton.mp he]
    exact ((OICFileDescriptor.converted_isSome _).mp (by rw [hv]; rfl)).2
  obtain ⟨rep, hrep⟩ := Option.isSome_iff_exists.mp hsome
  have hsingle : (f.overwritten input).Single := (OICFile.single_iff _).mpr ⟨_, hname ▸ hd'⟩
  obtain ⟨d', hentries, rfl⟩ := hsingle.encoded hrep
  rw [hd', hname] at hentries
  cases hentries
  rw [(OICFile.write_sends_iff (OICFile.bound_of_resource hres) hw input answer _).mpr hrep, hv,
    Option.elim_some, hname]
  simp only [deliver, hres]

/-- An event of the network is one of the mount, whose announcements list what the devices
offer, or leaves the mount alone. -/
theorem step_mount {P : Platform ι} {s s' : Network ι δ} {e : NetworkEvent ι δ}
    (h : s.step D P e = some s') :
    s'.mount = s.mount ∨ ∃ e', s.mount.step P e' = some s'.mount ∧
      ∀ a, e' = .announce a → ∀ k, ∀ item ∈ (a.replies k).rep.items,
        Offers D a.resource.uniqueIdentifier item.1 item.2.type := by
  cases step_cases D h with
  | announce _ _ _ _ _ hm =>
    refine .inr ⟨_, hm, ?_⟩
    rintro a ⟨rfl⟩ k item hitem
    exact offers_of_reply hitem
  | read _ _ _ _ _ hm | write _ _ _ _ _ hm | lose _ _ _ _ _ hm =>
    refine .inr ⟨_, hm, ?_⟩
    rintro a ⟨⟩
  | change => exact .inl rfl

/-- Every event of the network keeps everything in its place. -/
theorem placed_step {P : Platform ι} (hinj : Function.Injective P.stream)
    (hnul : ∀ id, nul ∉ P.stream id) {s s' : Network ι δ} {e : NetworkEvent ι δ}
    (h : Placed P (Offers D) s.mount.provider) (hs : s.step D P e = some s') :
    Placed P (Offers D) s'.mount.provider := by
  rcases step_mount hs with heq | ⟨e', he', hoffers⟩
  · rwa [heq]
  · exact h.step hinj hnul hoffers he'

theorem placed_of_reach {P : Platform ι} (hinj : Function.Injective P.stream)
    (hnul : ∀ id, nul ∉ P.stream id) {devices : ι → δ}
    {ok : Network ι δ → NetworkEvent ι δ → Prop} {s : Network ι δ}
    (h : Machine.Reach (step D P) ok (start devices) s) :
    Placed P (Offers D) s.mount.provider :=
  h.invariant (fun s => Placed P (Offers D) s.mount.provider) (placed_initial _)
    fun _ _ _ hi _ hs => placed_step hinj hnul hi hs

/-- Every event is one access to the registers, or none. -/
theorem registers_step (hD : ∀ id, (D id).Lawful) {P : Platform ι} {s s' : Network ι δ}
    {e : NetworkEvent ι δ} (h : Placed P (Offers D) s.mount.provider)
    (hs : s.step D P e = some s') :
    registers D s' = registers D s ∨
      ∃ e', (registers D s).step text e' = some (registers D s') := by
  cases step_cases D hs with
  | announce | lose => exact .inl rfl
  | read q eCode f m hf =>
    obtain ⟨stub, rt, type, hstub, -, -, htype, hoff⟩ := file_placed h hf
    by_cases hok : eCode = OC_STACK_OK
    · subst hok
      rcases read_access (s := s) (OICFile.resource_of_stub hstub) ⟨type, htype⟩ hoff with
        hnone | ⟨t, hacc, htext⟩
      · left
        simp [registers, hnone]
      · refine .inr ⟨.read (stub.resource.uniqueIdentifier, f.fileName), ?_⟩
        simp [registers, Registers.step, hacc, htext]
    · left
      simp [registers, hok]
  | write q input f m hf =>
    obtain ⟨stub, rt, type, hstub, -, -, htype, -⟩ := file_placed h hf
    rcases write_access hD s.devices (OICFile.resource_of_stub hstub) ⟨type, htype⟩ input
      ⟨OC_STACK_OK, .empty⟩ with ⟨hnone, hvalue⟩ | ⟨v, hacc, hvalue⟩
    · left
      simp [registers, hnone, hvalue]
    · refine .inr ⟨.write (stub.resource.uniqueIdentifier, f.fileName) (some v), ?_⟩
      simp [registers, Registers.step, hacc, hvalue]
  | change => exact .inr ⟨.change _, rfl⟩

/-- In every run of announcements, calls and changes the devices are a bank of registers: a
call on a file is an access to the register of its attribute, or none, and nothing else
is. What a read answered with the code of success showed is the text of what its register held
after the accesses before it, so of what was last written there, and every file lies below the
path of the resource whose attribute it stands for. -/
theorem network_refines_registers (P : Platform ι) (hinj : Function.Injective P.stream)
    (hnul : ∀ id, nul ∉ P.stream id) (D : ι → Device δ) (hD : ∀ id, (D id).Lawful)
    (devices : ι → δ) (s : Network ι δ)
    (h : Machine.Reach (step D P) (fun _ _ => True) (start devices) s) :
    Machine.Reach (Registers.step text) (fun _ _ => True) ⟨value D devices, []⟩
        (registers D s) ∧
      value D s.devices = Registers.replay (value D devices) s.log ∧
      (∀ pre k t post, s.log = pre ++ .read k t :: post →
        text (Registers.replay (value D devices) pre k) = some t) ∧
      (∀ pre k v mid t post, s.log = pre ++ .wrote k v :: mid ++ .read k t :: post →
        (∀ a ∈ mid, Registers.Spares k a) → text v = some t) ∧
      ∀ q f, s.mount.provider.tree.entry q = some (.oicFile f) →
        ∃ stub, f.stub = some stub ∧ ∃ rt ∈ stub.resource.getResourceTypes,
          q = pieces (P.stream stub.resource.uniqueIdentifier) ++ [cStr rt, cStr f.fileName] := by
  have hattach := h.attach (fun s => Placed P (Offers D) s.mount.provider) (placed_initial _)
    fun _ _ _ hi _ hs => placed_step hinj hnul hi hs
  have hreach : Machine.Reach (Registers.step text) (fun _ _ => True) ⟨value D devices, []⟩
      (registers D s) := by
    refine hattach.simulate (registers D) fun s e t hok hs => ?_
    rcases registers_step hD hok.2 hs with heq | ⟨e', he'⟩
    · exact .inl heq
    · exact .inr ⟨e', trivial, he'⟩
  have hcons := Registers.consistent_of_reach hreach
  refine ⟨hreach, hcons.current, hcons.reads, fun pre k v mid t post hlog hmid => ?_,
    fun q f hf => ?_⟩
  · have hread := hcons.reads _ k t post hlog
    rwa [Registers.replay_wrote _ pre mid k v hmid] at hread
  · obtain ⟨stub, rt, type, hstub, hrt, hq, -⟩ := file_placed (placed_of_reach hinj hnul h) hf
    obtain ⟨name, hname, rfl⟩ := List.mem_map.mp hrt
    have hfree : stub.resource.NulFree P := hnul _
    rw [hfree.path_eq] at hq
    exact ⟨stub, hstub, name, hname, hq⟩

theorem network_refines_registers_sampleSwitched : ∃ s : Network CText Light,
    s.shown = [((sampleId, stateName), "true".toList)] ∧
      Machine.Reach (Registers.step text) (fun _ _ => True)
        ⟨value (lights false CText) sampleDark.devices, []⟩ (registers (lights false CText) s) := by
  have hrun : ((Machine.exec (step (lights false CText) sampleTexts) sampleDark
      sampleSwitched).any fun s =>
        s.shown = [((sampleId, stateName), "true".toList)]) = true := by
    rw [sampleSwitched, Machine.exec_cons, sampleLight, step_announce]
    decide +kernel
  obtain ⟨s, hs, hshown⟩ := (Option.any_eq_true _ _).mp hrun
  exact ⟨s, of_decide_eq_true hshown, (network_refines_registers sampleTexts
    Subtype.val_injective (fun id => id.2) (lights false CText)
    (fun _ => (Light.lawful_iff false).mpr rfl) _ s (.of_exec (fun _ _ _ => trivial) hs)).1⟩

/-! ### What is written is read -/

/-- The event may change the attribute: its device changes the value by itself, or a PUT of a
file of the attribute is delivered. -/
def Touches (D : ι → Device δ) (s : Network ι δ) (k : ι × Str) : NetworkEvent ι δ → Prop
  | .announce .. | .read .. => False
  | .write q _ delivered => delivered = true ∧ ∃ f, s.mount.provider.tree.entry q =
      some (.oicFile f) ∧ f.resource = some k.1 ∧ f.fileName = k.2
  | .change id d => value D (Function.update s.devices id d) k ≠ value D s.devices k

/-- Other events leave it alone. -/
theorem value_of_untouched (hD : ∀ id, (D id).Lawful) {P : Platform ι} {s s' : Network ι δ}
    {e : NetworkEvent ι δ} (h : Placed P (Offers D) s.mount.provider)
    (hs : s.step D P e = some s') {k : ι × Str} (hk : ¬ Touches D s k e) :
    value D s'.devices k = value D s.devices k := by
  cases step_cases D hs with
  | announce | read | lose => rfl
  | write q input f m hf =>
    obtain ⟨stub, rt, type, hstub, -, -, htype, -⟩ := file_placed h hf
    have hres := OICFile.resource_of_stub hstub
    rcases write_access hD s.devices hres ⟨type, htype⟩ input ⟨OC_STACK_OK, .empty⟩ with
      ⟨-, hvalue⟩ | ⟨v, -, hvalue⟩
    · rw [hvalue]
    · rw [hvalue, Function.update_of_ne]
      rintro rfl
      exact hk ⟨rfl, f, hf, hres, rfl⟩
  | change => exact not_not.mp hk

/-- In every run, once a permitted write has stored a token that converts and the device has
taken the value over, a permitted read of any file of the same attribute of the same
resource, answered with the code of success, prints that value, whatever happens in between to
other attributes, of this device or of others. -/
theorem written_is_read (P : Platform ι) (hinj : Function.Injective P.stream)
    (hnul : ∀ id, nul ∉ P.stream id) (D : ι → Device δ) (hD : ∀ id, (D id).Lawful)
    (devices : ι → δ) {s s₁ s₂ : Network ι δ}
    (h : Machine.Reach (step D P) (fun _ _ => True) (start devices) s) {q : Path}
    {f : OICFile ι} (hf : s.mount.provider.tree.entry q = some (.oicFile f)) {id : ι}
    (hres : f.resource = some id) (hw : f.mayWrite = true) {type : AttributeType}
    (htype : f.values.types = [(f.fileName, type)]) {input : Str} {v : AttributeValue}
    (hv : OICFileDescriptor.converted ⟨token input, type⟩ = some v)
    (hacc : (D id).accepts f.fileName v = true)
    (hwrite : s.step D P (.write q input true) = some s₁)
    (hrun : Machine.Reach (step D P) (fun s e => ¬ Touches D s (id, f.fileName) e) s₁ s₂)
    {q' : Path} {f' : OICFile ι} (hf' : s₂.mount.provider.tree.entry q' = some (.oicFile f'))
    (hres' : f'.resource = some id) (hname : f'.fileName = f.fileName)
    (hr : f'.mayRead = true) :
    (f'.read (s₂.answer D f' OC_STACK_OK)).output = v.getValueToString := by
  have hplaced := placed_step hinj hnul (placed_of_reach hinj hnul h) hwrite
  have hvalue₁ : value D s₁.devices (id, f.fileName) = some v := by
    simp only [step, hf] at hwrite
    obtain ⟨m, -, rfl⟩ := Option.map_eq_some_iff.mp hwrite
    obtain ⟨d, hd, rfl⟩ : ∃ d, f.values.entries = [(f.fileName, d)] ∧ d.type = type := by
      obtain ⟨⟨n, d⟩, hd, he⟩ := List.map_eq_singleton_iff.mp htype
      cases he
      exact ⟨d, hd, rfl⟩
    simp only [if_true, deliver_write s.devices hres hw hd hv, value_update s.devices (hD id),
      hacc, Function.update_self]
  have hinv := hrun.invariant
    (fun s => Placed P (Offers D) s.mount.provider ∧
      value D s.devices (id, f.fileName) = some v) ⟨hplaced, hvalue₁⟩
    fun s e t hi hk hs =>
      ⟨placed_step hinj hnul hi.1 hs, (value_of_untouched hD hi.1 hs hk).trans hi.2⟩
  obtain ⟨stub, rt, type', hstub, -, -, htype', hoff⟩ := file_placed hinv.1 hf'
  have hid : stub.resource.uniqueIdentifier = id :=
    Option.some.inj ((OICFile.resource_of_stub hstub).symm.trans hres')
  obtain ⟨t, ht, hread⟩ := read_current (s := s₂) hres' ⟨type', htype'⟩ (hid ▸ hoff) hr
  rw [hname, hinv.2] at ht
  cases ht
  rw [hread]

/-- The power of the light is written through one folder and, after the PUT of another state
got lost, read through the other. -/
theorem written_is_read_sampleLight : ∃ (s : Network CText Light) (f : OICFile CText),
    s.file? (sampleLightFile "core.brightlight" "power") = some f ∧
      (f.read (s.answer (lights false CText) f OC_STACK_OK)).output = "40".toList := by
  let P := sampleTexts
  let D := lights false CText
  let id := sampleId
  have hrun : ((step D P sampleDark sampleLight).any fun s =>
      ((s.file? (sampleLightFile "core.light" "power")).any fun f =>
        f.resource = some id ∧ f.mayWrite ∧ f.fileName = powerName ∧
          f.values.types = [(f.fileName, .integer)]) ∧
      (s.step D P samplePowered).any fun s₁ =>
        (s₁.step D P sampleLost).any fun s₂ =>
          (s₂.file? (sampleLightFile "core.brightlight" "power")).any fun f =>
            f.resource = some id ∧ f.mayRead ∧ f.fileName = powerName) = true := by
    rw [sampleLight, step_announce]
    decide +kernel
  simp only [Option.any_eq_true, decide_eq_true_eq] at hrun
  obtain ⟨s, hs, ⟨f, hf, hres, hw, hname, htype⟩, s₁, hs₁, s₂, hs₂, f', hf', hres', hr,
    hname'⟩ := hrun
  have hlost : ¬ Touches D s₁ (id, f.fileName) sampleLost := fun h => absurd h.1 (by decide)
  refine ⟨s₂, f', hf', ?_⟩
  exact written_is_read P Subtype.val_injective (fun id => id.2) D
    (fun _ => (Light.lawful_iff false).mpr rfl) _ (.next .refl trivial hs) (entry_of_file? hf)
    hres hw htype (v := .integer 40) (by decide) (by rw [hname]; rfl) hs₁
    (.next .refl hlost hs₂) (entry_of_file? hf') hres' (hname'.trans hname.symm) hr

end Network

end IoTFS.Oic
