import IoTFS.Demo.LightResource

/-!
# The light is a device

A PUT sets the attributes of the light that it names with values of their types, and runs the
command for the state. Those it does not name keep their values only if the library leaves
the variable of an absent attribute alone.
-/

namespace IoTFS.Demo

open Oic

namespace LightResource

variable {light light' : LightResource} {resets : Bool} {rep : OCRepresentation}

/-! ### What a PUT does -/

/-- The first half of a PUT sets the state and runs the command for it, or finds no state. -/
theorem putState_cases (h : putState resets light rep = some light') :
    (∃ b, rep.value? stateName = some (.boolean b) ∧
        light' = { light with
          m_state := b, commands := light.commands ++ [if b then .Hello else .off] }) ∨
      rep.value? stateName = none ∧
        light' = { light with m_state := if resets then false else light.m_state } := by
  obtain ⟨⟨found, m_state⟩, hget, rfl⟩ := Option.map_eq_some_iff.mp h
  unfold getValue at hget
  split at hget
  · rename_i v hv
    obtain ⟨b, hb, he⟩ := Option.map_eq_some_iff.mp hget
    cases he
    cases v with
    | boolean b' =>
      cases hb
      exact .inl ⟨_, hv, rfl⟩
    | integer | string | other => cases hb
  · rename_i hv
    cases hget
    refine .inr ⟨hv, ?_⟩
    cases resets <;> simp

/-- It throws on a state that is no Boolean. -/
theorem putState_eq_none (h : putState resets light rep = none) :
    ∃ v, rep.value? stateName = some v ∧ asBool v = none := by
  rw [putState, Option.map_eq_none_iff] at h
  unfold getValue at h
  split at h
  · rename_i v hv
    exact ⟨v, hv, Option.map_eq_none_iff.mp h⟩
  · cases h

/-- The second half sets the power and nothing else. -/
theorem putPower_eq : putPower resets light rep = { light with
    m_power := match rep.value? powerName with
      | some v => (asInt v).getD light.m_power
      | none => if resets then 0 else light.m_power } := by
  unfold putPower getValue
  cases rep.value? powerName with
  | none => cases resets <;> rfl
  | some v => cases v <;> rfl

/-- A PUT leaves the representation to the next GET. -/
theorem m_lightRep_put : (light.put resets rep).m_lightRep = light.m_lightRep := by
  unfold put
  cases hs : putState resets light rep with
  | none => rfl
  | some light' =>
    simp only [putPower_eq]
    obtain ⟨b, -, rfl⟩ | ⟨-, rfl⟩ := putState_cases hs <;> rfl

/-- The state after a PUT. -/
theorem m_state_put : (light.put resets rep).m_state = match rep.value? stateName with
    | some v => (asBool v).getD light.m_state
    | none => if resets then false else light.m_state := by
  unfold put
  cases hs : putState resets light rep with
  | none =>
    obtain ⟨v, hv, hcast⟩ := putState_eq_none hs
    simp only [hv, hcast, Option.getD_none]
  | some light' =>
    simp only [putPower_eq]
    obtain ⟨b, hb, rfl⟩ | ⟨hnone, rfl⟩ := putState_cases hs
    · simp only [hb, asBool, Option.getD_some]
    · simp only [hnone]

/-- The power after a PUT: a state of a wrong type keeps it from being read. -/
theorem m_power_put : (light.put resets rep).m_power =
    if (rep.value? stateName).any fun v => (asBool v).isNone then light.m_power
    else match rep.value? powerName with
      | some v => (asInt v).getD light.m_power
      | none => if resets then 0 else light.m_power := by
  unfold put
  cases hs : putState resets light rep with
  | none =>
    obtain ⟨v, hv, hcast⟩ := putState_eq_none hs
    simp [hv, hcast]
  | some light' =>
    simp only [putPower_eq]
    obtain ⟨b, hb, rfl⟩ | ⟨hnone, rfl⟩ := putState_cases hs
    · simp [hb, asBool]
    · simp [hnone]

/-- A PUT keeps the lamp in step with the state if it names the state, or the library leaves
absent attributes alone. -/
theorem lampOn_put (hstate : resets = true → ∃ b, rep.value? stateName = some (.boolean b))
    (h : light.lampOn = light.m_state) :
    (light.put resets rep).lampOn = (light.put resets rep).m_state := by
  unfold put
  cases hs : putState resets light rep with
  | none => exact h
  | some light' =>
    simp only [putPower_eq, lampOn]
    obtain ⟨b, -, rfl⟩ | ⟨hnone, rfl⟩ := putState_cases hs
    · cases b <;> simp
    · cases resets with
      | false => exact h
      | true =>
        obtain ⟨b, hb⟩ := hstate rfl
        cases hnone.symm.trans hb

/-- A PUT that names a state runs the command for it. -/
theorem commands_put {b : Bool} (h : rep.value? stateName = some (.boolean b)) :
    (light.put resets rep).commands = light.commands ++ [if b then .Hello else .off] := by
  unfold put
  cases hs : putState resets light rep with
  | none =>
    obtain ⟨v, hv, hcast⟩ := putState_eq_none hs
    cases h.symm.trans hv
    cases hcast
  | some light' =>
    simp only [putPower_eq]
    obtain ⟨b', hb, rfl⟩ | ⟨hnone, -⟩ := putState_cases hs
    · cases h.symm.trans hb
      rfl
    · cases h.symm.trans hnone

/-- What a GET answers for an attribute. -/
theorem value?_get (name : Str) : light.get.2.value? name =
    if name = powerName then some (.integer light.m_power)
    else if name = stateName then some (.boolean light.m_state)
    else light.m_lightRep.value? name := by
  simp only [get, OCRepresentation.value?_setValue]

end LightResource

namespace Light

/-- The light of the server when it starts. -/
def construct : Light := ⟨.construct, by decide⟩

/-- The answer of a light. -/
def get (l : Light) : OCRepresentation := l.light.get.2

/-- The light after a PUT. -/
def put (resets : Bool) (l : Light) (rep : OCRepresentation) : Light :=
  ⟨l.light.put resets rep, by rw [LightResource.m_lightRep_put, l.names]⟩

/-- The PUTs a light takes over. -/
def accepts (name : Str) (v : AttributeValue) : Bool :=
  (name = stateName && (asBool v).isSome) || (name = powerName && (asInt v).isSome)

theorem names_get (l : Light) : l.get.names = [stateName, powerName, nameName] := by
  have hstate : (l.light.m_lightRep.setValue stateName (.boolean l.light.m_state)).names =
      [stateName, powerName, nameName] := by
    rw [OCRepresentation.names_setValue (by rw [l.names]; decide), l.names]
  rw [get, LightResource.get, OCRepresentation.names_setValue (by rw [hstate]; decide), hstate]

theorem value?_put_single (l : Light) (name : Str) (v : AttributeValue) (name' : Str) :
    (l.put false (.single name v)).get.value? name' =
      if name' = name ∧ accepts name v = true then some v else l.get.value? name' := by
  have hsingle (n : Str) : (OCRepresentation.single name v).value? n =
      if n = name then some v else none := by
    rw [OCRepresentation.single, OCRepresentation.value?_setValue]
    rfl
  have hne : stateName ≠ powerName := by decide
  simp only [get, put, LightResource.value?_get, LightResource.m_lightRep_put,
    LightResource.m_state_put, LightResource.m_power_put, hsingle, accepts]
  by_cases hstate : name = stateName
  · subst hstate
    cases v with
    | boolean b =>
      by_cases hp : name' = powerName
      · simp [hp, hne.symm, asBool, hne]
      · by_cases hn : name' = stateName <;> simp [hp, hn, asBool, hne]
    | integer | string | other => simp [asBool, hne]
  · by_cases hpower : name = powerName
    · subst hpower
      cases v with
      | integer n => by_cases hp : name' = powerName <;> simp [hp, asInt, hne]
      | boolean | string | other => simp [asInt, hne, hne.symm]
    · simp [hstate, hpower, Ne.symm hstate, Ne.symm hpower]

/-- The light as a device. -/
def device (resets : Bool) : Device Light where
  get := get
  put := put resets
  accepts := accepts
  same_names l l' name h := by rwa [names_get] at h ⊢

/-- The light is lawful exactly if the library leaves the variable of an absent attribute
alone: otherwise a PUT of the power takes the state back to off. -/
theorem lawful_iff (resets : Bool) : (device resets).Lawful ↔ resets = false := by
  constructor
  · intro hlaw
    by_contra hresets
    let l : Light := ⟨{ construct.light with m_state := true }, construct.names⟩
    have hget := hlaw.get_put l powerName (.integer 0) stateName
    rw [if_neg (fun h => absurd h.1 (by decide)), eq_true_of_ne_false hresets] at hget
    exact absurd hget (by decide)
  · rintro rfl
    refine ⟨value?_put_single, fun l name => ?_⟩
    have hempty (n : Str) : OCRepresentation.empty.value? n = none := rfl
    simp only [device, get, put, LightResource.value?_get, LightResource.m_lightRep_put,
      LightResource.m_state_put, LightResource.m_power_put, hempty]
    simp

end Light

/-- Every device of the network is a light. -/
def lights (resets : Bool) (ι : Type) : ι → Device Light := fun _ => Light.device resets

/-! ### A sample light -/

/-- A text that is a C string. -/
abbrev CText : Type := {text : Str // nul ∉ text}

/-- A platform whose identifiers are the C strings they stream to. -/
def sampleTexts : Platform CText := ⟨Subtype.val, sampleInterfaces, true⟩

/-- The identifier of a light. -/
def sampleId : CText := ⟨"hall/a/light".toList, by decide +kernel⟩

/-- The light is announced with two types. -/
def sampleLight : NetworkEvent CText Light :=
  .announce ⟨sampleId, ["core.light".toList, "core.brightlight".toList],
    [sampleInterfaces.DEFAULT_INTERFACE]⟩ (fun _ => OC_STACK_OK) (fun _ => false) (fun _ => 0)

/-- The file of an attribute of the light below the folder of a type. -/
def sampleLightFile (type name : String) : Path :=
  pieces ("hall/a/light/" ++ type ++ "/" ++ name).toList

/-- The network before the light is announced. -/
def sampleDark : Network CText Light := .start fun _ => .construct

/-- The power of the light is written. -/
def samplePowered : NetworkEvent CText Light :=
  .write (sampleLightFile "core.light" "power") "40\n".toList true

/-- The light is switched on. -/
def sampleOn : NetworkEvent CText Light :=
  .write (sampleLightFile "core.light" "state") "true\n".toList true

/-- The PUT that switches it on gets lost. -/
def sampleLost : NetworkEvent CText Light :=
  .write (sampleLightFile "core.light" "state") "true\n".toList false

/-- The light is announced, switched on through the folder of one type and looked up through
that of the other. -/
def sampleSwitched : List (NetworkEvent CText Light) := [sampleLight, sampleOn,
  .read (sampleLightFile "core.brightlight" "state") OC_STACK_OK]

end IoTFS.Demo
