import IoTFS.Devices.Refinement

/-!
# The lamp and the file of the state

The lamps of a network of lights stay in step with the states their lights keep, so a mounted
file of the state shows whether the lamp burns, and switches it. With a library that resets
the variable of an absent attribute this lasts only as long as nothing but the state is
written.
-/

namespace IoTFS.Demo

open Oic

variable {ι : Type} {resets : Bool}

/-- A light changes by itself in its power only; with a library that resets the variable of an
absent attribute, only a file of the state is written to. -/
def Lit (resets : Bool) (s : Network ι Light) : NetworkEvent ι Light → Prop
  | .change id l => l.light = { (s.devices id).light with m_power := l.light.m_power }
  | .write q _ _ => resets = true → ∀ f, s.mount.provider.tree.entry q = some (.oicFile f) →
      f.fileName = stateName
  | _ => True

/-- Every lamp burns exactly if the state of its light is on. -/
def InStep (devices : ι → Light) : Prop :=
  ∀ id, (devices id).light.lampOn = (devices id).light.m_state

/-- A light answers with a Boolean for its state. -/
theorem value_state (resets : Bool) (devices : ι → Light) (id : ι) :
    Network.value (lights resets ι) devices (id, stateName) =
      some (.boolean (devices id).light.m_state) := by
  rw [Network.value_apply]
  exact LightResource.value?_get stateName

/-- So a file of the state has a Boolean. -/
theorem type_of_state {id : ι} {type : AttributeType}
    (h : Network.Offers (lights resets ι) id stateName type) : type = .boolean := by
  obtain ⟨l, v, hv, rfl⟩ := h
  cases hv.symm.trans (value_state resets (fun _ => l) id)
  rfl

/-- The PUT of a file of the state names the state. -/
theorem state_of_encode {f : OICFile ι} (hname : f.fileName = stateName)
    (htype : f.values.types = [(f.fileName, .boolean)]) {rep : OCRepresentation}
    (h : encode f.values = some rep) : ∃ b, rep.value? stateName = some (.boolean b) := by
  have hsingle : f.Single := ⟨.boolean, htype⟩
  obtain ⟨d, hd, rfl⟩ := hsingle.encoded h
  have hboolean : d.type = .boolean := by
    rw [OICFileAttributes.types, hd, List.map_singleton, List.singleton_inj,
      Prod.mk.injEq] at htype
    exact htype.2
  have hconv : d.Converts := (encodeFrom_isSome .empty f.values.entries).mp
    (by rw [← encode, h]; rfl) _ (hd ▸ List.mem_singleton_self _)
  obtain ⟨v, hv⟩ := Option.isSome_iff_exists.mp
    (d.converted_isSome.mpr ⟨by rw [hboolean]; rfl, hconv⟩)
  have hvtype := (OICFileDescriptor.type_converted hv).trans hboolean
  cases v with
  | boolean b => exact ⟨b, by rw [hv, Option.elim_some, hname, OCRepresentation.value?_single]⟩
  | integer | string | other => cases hvtype

variable [DecidableEq ι] {P : Platform ι}

/-- A write to a file keeps every lamp in step. -/
theorem InStep.write {devices : ι → Light} (h : InStep devices) {f : OICFile ι} {id : ι}
    (hres : f.resource = some id) {type : AttributeType}
    (htype : f.values.types = [(f.fileName, type)])
    (hoff : Network.Offers (lights resets ι) id f.fileName type)
    (hname : resets = true → f.fileName = stateName) (input : Str) (answer : Reply) :
    InStep (Network.deliver (lights resets ι) devices f (f.write input answer).sent) := by
  have hcall := f.write_call input answer
  generalize f.write input answer = out at hcall
  cases hcall with
  | writeUnbound | writeRefused | writeRejected => exact h
  | writeSent _ _ rep _ _ he =>
    have hshape := OICFile.sameShape_overwritten f input
    intro id'
    simp only [Network.deliver, hres]
    by_cases hid : id' = id
    · subst hid
      rw [Function.update_self]
      refine LightResource.lampOn_put (fun hresets => ?_) (h id')
      have hstate := hname hresets
      rw [hstate] at hoff
      refine state_of_encode (hshape.fileName.trans hstate) ?_ he
      rw [hshape.types, hshape.fileName, htype, type_of_state hoff]
    · rw [Function.update_of_ne hid]
      exact h id'

/-- Every permitted event keeps every lamp in step. -/
theorem InStep.step {s s' : Network ι Light} {e : NetworkEvent ι Light} (h : InStep s.devices)
    (hplaced : Placed P (Network.Offers (lights resets ι)) s.mount.provider)
    (hlit : Lit resets s e) (hs : s.step (lights resets ι) P e = some s') :
    InStep s'.devices := by
  cases Network.step_cases _ hs with
  | announce | read | lose => exact h
  | write q input f m hf =>
    obtain ⟨stub, rt, type, hstub, -, -, htype, hoff⟩ := Network.file_placed hplaced hf
    exact h.write (OICFile.resource_of_stub hstub) htype hoff (fun hr => hlit hr f hf) _ _
  | change id l =>
    intro id'
    by_cases hid : id' = id
    · subst hid
      simp only [Function.update_self]
      rw [hlit]
      exact h id'
    · simp only [Function.update_of_ne hid]
      exact h id'

/-- Over any run of permitted events every lamp stays in step. -/
theorem inStep_of_reach (hinj : Function.Injective P.stream) (hnul : ∀ id, nul ∉ P.stream id)
    {devices : ι → Light} (hstart : InStep devices) {s : Network ι Light}
    (h : Machine.Reach (Network.step (lights resets ι) P) (Lit resets) (Network.start devices) s) :
    InStep s.devices := by
  have hattach := h.attach
    (fun s => Placed P (Network.Offers (lights resets ι)) s.mount.provider) (placed_initial _)
    fun _ _ _ hi _ hs => Network.placed_step hinj hnul hi hs
  exact hattach.invariant (fun s => InStep s.devices) hstart
    fun _ _ _ hi hok hs => hi.step hok.2 hok.1 hs

/-- In every run of announcements and calls over lights whose lamps start in step, with the
power of a light changing by itself, a permitted read of a file of the state that is answered
with the code of success prints whether the lamp burns, and a permitted write of a Boolean to
it whose PUT is delivered runs the command that switches the lamp. If the library
resets the variable of an absent attribute, only the state may be written in that run. -/
theorem state_file_shows_lamp (resets : Bool) (P : Platform ι)
    (hinj : Function.Injective P.stream) (hnul : ∀ id, nul ∉ P.stream id) (devices : ι → Light)
    (hstart : ∀ id, (devices id).light.lampOn = (devices id).light.m_state)
    (s : Network ι Light)
    (h : Machine.Reach (Network.step (lights resets ι) P) (Lit resets) (Network.start devices) s)
    (q : Path) (f : OICFile ι) (hf : s.mount.provider.tree.entry q = some (.oicFile f))
    (hname : f.fileName = stateName) :
    ∃ id, f.resource = some id ∧
      (f.mayRead = true → (f.read (s.answer (lights resets ι) f OC_STACK_OK)).output =
        (AttributeValue.boolean (s.devices id).light.lampOn).getValueToString) ∧
      (f.mayWrite = true → ∀ input b, lexicalCastBool (token input) = some b → ∀ s',
        s.step (lights resets ι) P (.write q input true) = some s' →
          (s'.devices id).light.commands =
              (s.devices id).light.commands ++ [if b then .Hello else .off] ∧
            (s'.devices id).light.lampOn = b) := by
  obtain ⟨stub, rt, type, hstub, -, -, htype, hoff⟩ :=
    Network.file_placed (Network.placed_of_reach hinj hnul h) hf
  have hres := OICFile.resource_of_stub hstub
  cases type_of_state (hname ▸ hoff)
  refine ⟨_, hres, fun hr => ?_, fun hw input b hb s' hs => ?_⟩
  · obtain ⟨t, ht, hread⟩ := Network.read_current (s := s) hres ⟨_, htype⟩ hoff hr
    rw [hname, value_state] at ht
    cases ht
    rw [hread, inStep_of_reach hinj hnul hstart h]
  · have hlit : Lit resets s (.write q input true) := by
      intro _ f' hf'
      cases hf.symm.trans hf'
      exact hname
    have hlamp := inStep_of_reach hinj hnul hstart (.next h hlit hs)
    obtain ⟨⟨n, d⟩, hd, he⟩ := List.map_eq_singleton_iff.mp htype
    simp only [Prod.mk.injEq] at he
    obtain ⟨rfl, hboolean⟩ := he
    have hconv : OICFileDescriptor.converted { d with content := token input } =
        some (.boolean b) := by
      simp only [OICFileDescriptor.converted, hboolean, hb, Option.map_some]
    simp only [Network.step, hf] at hs
    obtain ⟨m, -, rfl⟩ := Option.map_eq_some_iff.mp hs
    have hput := Network.deliver_write (D := lights resets ι) s.devices hres hw hd hconv
      ⟨OC_STACK_OK, .empty⟩
    have hnames : (OCRepresentation.single f.fileName (.boolean b)).value? stateName =
        some (.boolean b) := by
      rw [hname, OCRepresentation.value?_single]
    constructor
    · simp only [if_true, hput, Function.update_self, lights, Light.device, Light.put,
        LightResource.commands_put hnames]
    · rw [hlamp]
      simp only [if_true, hput, Function.update_self, lights, Light.device, Light.put,
        LightResource.m_state_put, hnames]
      rfl

/-- With a library that resets absent attributes, the light is switched on through the folder
of one type, and the file below the other says so. -/
theorem state_file_shows_lamp_sampleOn : ∃ (s : Network CText Light) (f : OICFile CText),
    s.file? (sampleLightFile "core.brightlight" "state") = some f ∧
      (s.devices sampleId).light.lampOn = true ∧
        (f.read (s.answer (lights true CText) f OC_STACK_OK)).output = "true".toList := by
  have hrun : ((Network.step (lights true CText) sampleTexts sampleDark sampleLight).any fun s₁ =>
      ((s₁.file? (sampleLightFile "core.light" "state")).any fun f => f.fileName = stateName) ∧
      (Network.step (lights true CText) sampleTexts s₁ sampleOn).any fun s =>
        (s.devices sampleId).light.lampOn ∧
          (s.file? (sampleLightFile "core.brightlight" "state")).any fun f =>
            f.resource = some sampleId ∧ f.mayRead ∧ f.fileName = stateName) =
              true := by
    rw [sampleLight, Network.step_announce]
    decide +kernel
  simp only [Option.any_eq_true, decide_eq_true_eq] at hrun
  obtain ⟨s₁, hs₁, ⟨g, hg, hgname⟩, s, hs, hlamp, f, hf, hres, hr, hname⟩ := hrun
  have hlit : Lit true s₁ sampleOn := by
    intro _ g' hg'
    rw [Network.entry_of_file? hg] at hg'
    cases hg'
    exact hgname
  refine ⟨s, f, hf, hlamp, ?_⟩
  obtain ⟨id, hid, hread, -⟩ := state_file_shows_lamp true sampleTexts Subtype.val_injective
    (fun id => id.2) _
    (fun _ => by decide) s (.next (.next (e := sampleLight) .refl trivial hs₁) hlit hs) _ f
    (Network.entry_of_file? hf) hname
  rw [hread hr, Option.some.inj (hid.symm.trans hres), hlamp]
  rfl

end IoTFS.Demo
