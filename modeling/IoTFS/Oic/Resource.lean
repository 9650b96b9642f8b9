import Mathlib.Data.List.Nodup
import Mathlib.Data.List.TakeWhile

/-!
# Resources, representations and replies of the OIC stack

The data the plugin exchanges with the stack. Text is a list of characters; an
integer attribute is a 32-bit machine integer; attribute types the plugin never
names are kept apart by a tag and carry the text the stack prints for them.
-/

namespace IoTFS.Oic

/-- C++ text. -/
abbrev Str := List Char

instance : LawfulBEq Str := inferInstance

/-- The character that ends a C string. -/
def nul : Char := '\x00'

/-- `c_str()` as its reader takes it: the text up to its first NUL. -/
def cStr (text : Str) : Str := text.takeWhile (· ≠ nul)

/-- Without a NUL the text is read whole. -/
theorem cStr_eq_self {text : Str} (h : nul ∉ text) : cStr text = text := by
  refine List.takeWhile_eq_self_iff.mpr fun c hc => decide_eq_true ?_
  rintro rfl
  exact h hc

theorem map_cStr_eq_self {texts : List Str} (h : ∀ text ∈ texts, nul ∉ text) :
    texts.map cStr = texts :=
  (List.map_congr_left fun text ht => cStr_eq_self (h text ht)).trans (List.map_id texts)

/-- `OC::AttributeType`; only three of its values are named by the plugin. -/
inductive AttributeType
  | integer
  | string
  | boolean
  | other (tag : Nat)
  deriving DecidableEq, Repr

/-- The value of one attribute. -/
inductive AttributeValue
  | integer (v : Int32)
  | string (s : Str)
  | boolean (b : Bool)
  | other (tag : Nat) (text : Str)
  deriving DecidableEq

/-- The decimal digits of a natural number, most significant first. -/
def decimal (n : Nat) : Str := Nat.toDigits 10 n

/-- Decimal printing of a machine integer. -/
def printInt (v : Int32) : Str :=
  if v.toInt < 0 then '-' :: decimal v.toInt.natAbs else decimal v.toInt.natAbs

namespace AttributeValue

/-- `AttributeItem::type`. -/
def type : AttributeValue → AttributeType
  | integer _ => .integer
  | string _ => .string
  | boolean _ => .boolean
  | other tag _ => .other tag

/-- `AttributeItem::getValueToString`. -/
def getValueToString : AttributeValue → Str
  | integer v => printInt v
  | string s => s
  | boolean true => ['t', 'r', 'u', 'e']
  | boolean false => ['f', 'a', 'l', 's', 'e']
  | other _ text => text

end AttributeValue

/-- `OCRepresentation`: attribute items under distinct names. -/
structure OCRepresentation where
  /-- Name and value of each item, in iteration order. -/
  items : List (Str × AttributeValue)
  /-- The underlying map holds a name at most once. -/
  distinct : (items.map Prod.fst).Nodup

namespace OCRepresentation

/-- A representation without items. -/
def empty : OCRepresentation := ⟨[], List.nodup_nil⟩

instance : DecidableEq OCRepresentation := fun a b =>
  decidable_of_iff (a.items = b.items)
    ⟨fun h => by cases a; cases b; cases h; rfl, fun h => congrArg items h⟩

/-- The items after assigning `v` to the attribute `name`. -/
def assign (items : List (Str × AttributeValue)) (name : Str) (v : AttributeValue) :
    List (Str × AttributeValue) :=
  if name ∈ items.map Prod.fst then
    items.map fun it => if it.1 = name then (name, v) else it
  else items ++ [(name, v)]

/-- Assigning never repeats a name. -/
theorem assign_distinct {items : List (Str × AttributeValue)} {name : Str}
    (v : AttributeValue) (h : (items.map Prod.fst).Nodup) :
    ((assign items name v).map Prod.fst).Nodup := by
  unfold assign
  split
  · have hsame : (items.map fun it => if it.1 = name then (name, v) else it).map Prod.fst =
        items.map Prod.fst := by
      rw [List.map_map]
      refine List.map_congr_left fun it _ => ?_
      by_cases he : it.1 = name <;> simp [he]
    rwa [hsame]
  · rename_i hn
    rw [List.map_append, List.nodup_append]
    refine ⟨h, List.nodup_singleton _, ?_⟩
    rintro a ha b hb rfl
    simp only [List.map_cons, List.map_nil, List.mem_singleton] at hb
    exact hn (hb ▸ ha)

/-- `OCRepresentation::setValue`. -/
def setValue (rep : OCRepresentation) (name : Str) (v : AttributeValue) : OCRepresentation :=
  ⟨assign rep.items name v, assign_distinct v rep.distinct⟩

/-- The attribute names of a representation. -/
def names (rep : OCRepresentation) : List Str := rep.items.map Prod.fst

/-- The attribute names as C strings, under which files are added. -/
def fileNames (rep : OCRepresentation) : List Str := rep.items.map fun item => cStr item.1

end OCRepresentation

/-- The success code of the stack. -/
def OC_STACK_OK : Int := 0

/-- What a request callback is handed: the error code and the representation. -/
structure Reply where
  eCode : Int
  rep : OCRepresentation

/-- The interface names the stack defines, as pairwise distinct text. -/
structure Interfaces where
  DEFAULT_INTERFACE : Str
  LINK_INTERFACE : Str
  BATCH_INTERFACE : Str
  GROUP_INTERFACE : Str
  /-- No two constants name the same interface. -/
  distinct : [DEFAULT_INTERFACE, LINK_INTERFACE, BATCH_INTERFACE, GROUP_INTERFACE].Nodup

/-- The interface names in use. -/
def sampleInterfaces : Interfaces where
  DEFAULT_INTERFACE := "oic.if.baseline".toList
  LINK_INTERFACE := "oic.if.ll".toList
  BATCH_INTERFACE := "oic.if.b".toList
  GROUP_INTERFACE := "oic.mi.grp".toList
  distinct := by decide +kernel

/-- `OCResource` as far as the plugin reads it. -/
structure OCResource (ι : Type) where
  uniqueIdentifier : ι
  getResourceTypes : List Str
  getResourceInterfaces : List Str
  deriving DecidableEq

/-- The resource types as C strings, under which folders are added. -/
def OCResource.typeNames {ι : Type} (r : OCResource ι) : List Str := r.getResourceTypes.map cStr

/-- `OICStub` seen from outside: its address and the resource it is bound to. -/
structure OICStub (ι : Type) where
  handle : Nat
  resource : OCResource ι
  deriving DecidableEq

end IoTFS.Oic
