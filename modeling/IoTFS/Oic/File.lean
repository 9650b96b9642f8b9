import IoTFS.Oic.Conversion
import Mathlib.Order.Basic
import Mathlib.Data.List.Lex

/-!
# Attribute files

An `OICFile` caches the attributes it was constructed with, ordered by name as the
C++ map iterates them. A request goes through the stub, which blocks until the reply
handler has run, so a read or a write is a function of the file and of the answer
the device gives if a request is sent at all.
-/

namespace IoTFS.Oic

/-- `OICFileDescriptor`: the cached text of an attribute and its type. -/
structure OICFileDescriptor where
  content : Str
  type : AttributeType
  deriving DecidableEq

/-- `OICFileAttributes`: descriptors in the order of their names. -/
structure OICFileAttributes where
  /-- Name and descriptor of each attribute, in iteration order. -/
  entries : List (Str × OICFileDescriptor)
  /-- The map iterates in strictly increasing name order. -/
  ordered : (entries.map Prod.fst).Pairwise (· < ·)

namespace OICFileAttributes

instance : DecidableEq OICFileAttributes := fun a b =>
  decidable_of_iff (a.entries = b.entries)
    ⟨fun h => by cases a; cases b; cases h; rfl, fun h => congrArg entries h⟩

/-- The names of the attributes. -/
def names (a : OICFileAttributes) : List Str := a.entries.map Prod.fst

/-- The map holding one attribute. -/
def single (name : Str) (d : OICFileDescriptor) : OICFileAttributes :=
  ⟨[(name, d)], List.pairwise_singleton _ _⟩

/-- Overwrite contents attribute by attribute, keeping names, types and order. -/
def refill (a : OICFileAttributes) (content : Str → Str → Str) : OICFileAttributes where
  entries := a.entries.map fun e => (e.1, { e.2 with content := content e.1 e.2.content })
  ordered := by
    rw [List.map_map]
    exact a.ordered

/-- The loop of `write`: every content becomes `result`. -/
def setContents (a : OICFileAttributes) (result : Str) : OICFileAttributes :=
  a.refill fun _ _ => result

/-- `_values[name].content = content` for a name the map holds. -/
def setContent (a : OICFileAttributes) (name content : Str) : OICFileAttributes :=
  a.refill fun n c => if n = name then content else c

end OICFileAttributes

/-- The request a stub sends on behalf of a file. -/
inductive Request
  | get
  | put (rep : OCRepresentation)
  deriving DecidableEq

/-- `OICFileOperationRead`. -/
def OICFileOperationRead : BitVec 32 := 1 <<< 0

/-- `OICFileOperationWrite`. -/
def OICFileOperationWrite : BitVec 32 := 1 <<< 1

/-- `OICFile`. -/
structure OICFile (ι : Type) where
  fileName : Str
  allowedOperation : BitVec 32
  values : OICFileAttributes
  stub : Option (OICStub ι)

/-- What a call on a file leaves behind: the file, the requests sent, the text put on
the output stream, and the returned code, which is missing when a conversion throws. -/
structure Outcome (ι : Type) where
  file : OICFile ι
  sent : List Request
  output : Str
  ret : Option Int

/-- One turn of the loop of `setAllowedOperation`. -/
def grant (I : Interfaces) (allowed : BitVec 32) (interface : Str) : BitVec 32 :=
  if interface = I.DEFAULT_INTERFACE then
    allowed ||| OICFileOperationRead ||| OICFileOperationWrite
  else if interface = I.LINK_INTERFACE then
    allowed ||| OICFileOperationRead
  else if interface = I.BATCH_INTERFACE then
    allowed ||| OICFileOperationRead ||| OICFileOperationWrite
  else if interface = I.GROUP_INTERFACE then
    allowed ||| OICFileOperationRead ||| OICFileOperationWrite
  else allowed

/-- `OICFile::setAllowedOperation`, started from the word found in memory. -/
def setAllowedOperation (I : Interfaces) (allowed : BitVec 32) (interfaces : List Str) :
    BitVec 32 :=
  interfaces.foldl (grant I) allowed

/-- One turn of the loop of `update`; a rejected conversion has no value. -/
def encodeEntry (rep : OCRepresentation) (name : Str) (d : OICFileDescriptor) :
    Option OCRepresentation :=
  match d.type with
  | .integer => (lexicalCastInt d.content).map fun v => rep.setValue name (.integer v)
  | .string => some (rep.setValue name (.string d.content))
  | .boolean => (lexicalCastBool d.content).map fun v => rep.setValue name (.boolean v)
  | .other _ => some rep

/-- The loop of `update` over the remaining attributes. -/
def encodeFrom (rep : OCRepresentation) : List (Str × OICFileDescriptor) → Option OCRepresentation
  | [] => some rep
  | (name, d) :: rest => (encodeEntry rep name d).bind fun rep' => encodeFrom rep' rest

/-- The representation `update` builds from the attributes. -/
def encode (values : OICFileAttributes) : Option OCRepresentation :=
  encodeFrom .empty values.entries

namespace OICFile

variable {ι : Type}

/-- The constructor; `memory` is what `_allowedOperation` held before it ran. -/
def construct (I : Interfaces) (memory : BitVec 32) (resourceTypeName : Str)
    (resourceInterfaces : List Str) (attributes : OICFileAttributes)
    (stub : Option (OICStub ι)) : OICFile ι where
  fileName := resourceTypeName
  allowedOperation := setAllowedOperation I memory resourceInterfaces
  values := attributes
  stub := stub

/-- `_allowedOperation & OICFileOperationRead`. -/
def mayRead (f : OICFile ι) : Bool := f.allowedOperation &&& OICFileOperationRead ≠ 0

/-- `_allowedOperation & OICFileOperationWrite`. -/
def mayWrite (f : OICFile ι) : Bool := f.allowedOperation &&& OICFileOperationWrite ≠ 0

/-- `OICFile::didUpdate` has an empty body. -/
def didUpdate (f : OICFile ι) (_reply : Reply) : OICFile ι := f

/-- `OICFile::update`: the file afterwards and the requests sent, or none of them
when a conversion throws. -/
def update (f : OICFile ι) (answer : Reply) : OICFile ι × Option (List Request) :=
  if !f.mayWrite then (f, some [])
  else if f.stub.isNone then (f, some [])
  else match encode f.values with
    | none => (f, none)
    | some rep => (f.didUpdate answer, some [.put rep])

/-- One turn of the loop of `didRetrieve`. -/
def absorb (values : OICFileAttributes) (item : Str × AttributeValue) : OICFileAttributes :=
  if item.1 ∈ values.names then values.setContent item.1 item.2.getValueToString else values

/-- `OICFile::didRetrieve`. -/
def didRetrieve (f : OICFile ι) (reply : Reply) : OICFile ι :=
  if reply.eCode = OC_STACK_OK then
    { f with values := reply.rep.items.foldl absorb f.values }
  else f

/-- `OICFile::retrieve`. -/
def retrieve (f : OICFile ι) (answer : Reply) : OICFile ι × List Request :=
  if !f.mayRead then (f, [])
  else if f.stub.isNone then (f, [])
  else (f.didRetrieve answer, [.get])

/-- `OICFile::read`. -/
def read (f : OICFile ι) (answer : Reply) : Outcome ι :=
  if f.stub.isNone then ⟨f, [], [], some (-1)⟩
  else
    let (f', sent) := f.retrieve answer
    ⟨f', sent, f'.values.entries.flatMap fun e => e.2.content, some 0⟩

/-- `OICFile::write`. -/
def write (f : OICFile ι) (input : Str) (answer : Reply) : Outcome ι :=
  if f.stub.isNone then ⟨f, [], [], some (-1)⟩
  else
    let f' := { f with values := f.values.setContents (token input) }
    match f'.update answer with
    | (f'', none) => ⟨f'', [], [], none⟩
    | (f'', some sent) => ⟨f'', sent, [], some 0⟩

/-- The file once `write` has stored the token of its input. -/
def overwritten (f : OICFile ι) (input : Str) : OICFile ι :=
  { f with values := f.values.setContents (token input) }

/-- On a bound file `write` stores the token and leaves the rest to `update`. -/
theorem write_of_bound {f : OICFile ι} (h : f.stub.isNone = false) (input : Str)
    (answer : Reply) : f.write input answer =
      match (f.overwritten input).update answer with
      | (f', none) => ⟨f', [], [], none⟩
      | (f', some sent) => ⟨f', sent, [], some 0⟩ := by
  unfold write
  rw [if_neg (by rw [h]; decide), overwritten]

end OICFile

/-- A call of the mounted file system on a file, with the device's answer. -/
inductive FileOp
  | read (answer : Reply)
  | write (input : Str) (answer : Reply)

/-- Perform one call. -/
def OICFile.perform {ι : Type} (f : OICFile ι) : FileOp → Outcome ι
  | .read answer => f.read answer
  | .write input answer => f.write input answer

/-- A file together with the calls it has served. -/
structure Session (ι : Type) where
  file : OICFile ι
  history : List (FileOp × Outcome ι)

/-- Serve one more call. -/
def Session.serve {ι : Type} (s : Session ι) (op : FileOp) : Session ι :=
  ⟨(s.file.perform op).file, s.history ++ [(op, s.file.perform op)]⟩

/-- The session of a file after a list of calls. -/
def session {ι : Type} (f : OICFile ι) (ops : List FileOp) : Session ι :=
  ops.foldl Session.serve ⟨f, []⟩

end IoTFS.Oic
