import IoTFS.Oic.Network

/-!
# The light of the demo server

`LightResource` keeps a state and a power beside the representation it answers with, and
runs a command whenever its state is set. Its `put` reads one attribute after the other
within one `try`, so an attribute of a wrong type ends it.
-/

namespace IoTFS.Demo

open Oic

/-- What the server hands to `system`. -/
inductive Command
  | Hello
  | off
  deriving DecidableEq

/-- `LightResource`, and the commands it has run. -/
structure LightResource where
  m_name : Str
  m_state : Bool
  m_power : Int32
  m_lightRep : OCRepresentation
  commands : List Command

/-- The name of the attribute `m_state`. -/
def stateName : Str := ['s', 't', 'a', 't', 'e']

/-- The name of the attribute `m_power`. -/
def powerName : Str := ['p', 'o', 'w', 'e', 'r']

/-- The name of the attribute `m_name`. -/
def nameName : Str := ['n', 'a', 'm', 'e']

/-- `boost::get<bool>` of an attribute. -/
def asBool : AttributeValue → Option Bool
  | .boolean b => some b
  | _ => none

/-- `boost::get<int>` of an attribute. -/
def asInt : AttributeValue → Option Int32
  | .integer v => some v
  | _ => none

/-- `OCRepresentation::getValue` into a variable that holds `val`: whether the attribute is
there, and what the variable holds then. A value of another type throws. The variable for an
attribute that is not there keeps its value, or becomes `absent` in a library that resets
it. -/
def getValue {α : Type} (cast : AttributeValue → Option α) (absent : Option α)
    (rep : OCRepresentation) (name : Str) (val : α) : Option (Bool × α) :=
  match rep.value? name with
  | some v => (cast v).map fun a => (true, a)
  | none => some (false, absent.getD val)

namespace LightResource

/-- The constructor. -/
def construct : LightResource where
  m_name := "John's light".toList
  m_state := false
  m_power := 0
  m_lightRep := ((OCRepresentation.empty.setValue stateName (.boolean false)).setValue powerName
    (.integer 0)).setValue nameName (.string "John's light".toList)
  commands := []

/-- The first half of the `try` block of `put`, missing if it throws. -/
def putState (resets : Bool) (light : LightResource) (rep : OCRepresentation) :
    Option LightResource :=
  (getValue asBool (if resets then some false else none) rep stateName light.m_state).map
    fun (found, m_state) => { light with
      m_state := m_state
      commands := light.commands ++ if found then [if m_state then .Hello else .off] else [] }

/-- The second half; when it throws it has changed nothing. -/
def putPower (resets : Bool) (light : LightResource) (rep : OCRepresentation) : LightResource :=
  match getValue asInt (if resets then some 0 else none) rep powerName light.m_power with
  | none => light
  | some (_, m_power) => { light with m_power := m_power }

/-- `LightResource::put`. -/
def put (resets : Bool) (light : LightResource) (rep : OCRepresentation) : LightResource :=
  match putState resets light rep with
  | none => light
  | some light' => putPower resets light' rep

/-- `LightResource::get`. -/
def get (light : LightResource) : LightResource × OCRepresentation :=
  let rep := (light.m_lightRep.setValue stateName (.boolean light.m_state)).setValue powerName
    (.integer light.m_power)
  ({ light with m_lightRep := rep }, rep)

/-- The lamp after the commands run so far. -/
def lampOn (light : LightResource) : Bool := light.commands.getLast? = some .Hello

end LightResource

/-- A light that answers with its state, its power and its name. -/
structure Light where
  light : LightResource
  names : light.m_lightRep.names = [stateName, powerName, nameName]

end IoTFS.Demo
