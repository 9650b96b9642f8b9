import IoTFS.Core.Registers
import IoTFS.Oic.Mount

/-!
# The mounted file system and its devices

A device answers a GET with its representation and takes over what it accepts of a PUT. Here
the answers that the calls of the mounted file system and of discovery get are those of the
devices, whose state the PUTs change in turn. A request may fail on the way, and a device may
change by itself.
-/

namespace IoTFS.Oic

namespace OCRepresentation

/-- The value of the attribute `name`, if the representation has it. -/
def value? (rep : OCRepresentation) (name : Str) : Option AttributeValue :=
  (rep.items.find? fun it => it.1 = name).map Prod.snd

/-- The representation with one attribute. -/
def single (name : Str) (v : AttributeValue) : OCRepresentation := empty.setValue name v

theorem value?_eq_some_iff {rep : OCRepresentation} {name : Str} {v : AttributeValue} :
    rep.value? name = some v ↔ (name, v) ∈ rep.items := by
  constructor
  · intro h
    obtain ⟨⟨name', v'⟩, hfind, rfl⟩ := Option.map_eq_some_iff.mp h
    have hname : name' = name := by simpa using List.find?_some hfind
    exact hname ▸ List.mem_of_find?_eq_some hfind
  · intro h
    have hsome : (rep.items.find? fun it => it.1 = name).isSome = true :=
      List.find?_isSome.mpr ⟨(name, v), h, by simp⟩
    obtain ⟨⟨name', v'⟩, hfind⟩ := Option.isSome_iff_exists.mp hsome
    have hname : name' = name := by simpa using List.find?_some hfind
    have heq : (name', v') = (name, v) :=
      List.inj_on_of_nodup_map rep.distinct (List.mem_of_find?_eq_some hfind) h hname
    rw [value?, hfind, heq, Option.map_some]

theorem mem_names_iff {rep : OCRepresentation} {name : Str} :
    name ∈ rep.names ↔ ∃ v, rep.value? name = some v := by
  simp only [value?_eq_some_iff, names, List.mem_map, Prod.exists, exists_and_right,
    exists_eq_right]

theorem value?_eq_none_iff {rep : OCRepresentation} {name : Str} :
    rep.value? name = none ↔ name ∉ rep.names := by
  rw [mem_names_iff, ← Option.ne_none_iff_exists', not_not]

/-- Setting an attribute changes its value and no other. -/
theorem value?_setValue (rep : OCRepresentation) (name : Str) (v : AttributeValue) (n : Str) :
    (rep.setValue name v).value? n = if n = name then some v else rep.value? n := by
  by_cases hmem : name ∈ rep.names
  · have hsame : (fun it : Str × AttributeValue => decide (it.1 = n)) ∘
        (fun it => if it.1 = name then (name, v) else it) = fun it => decide (it.1 = n) := by
      funext it
      by_cases hit : it.1 = name <;> simp [hit]
    have hvalue : (rep.setValue name v).value? n = (rep.items.find? fun it => it.1 = n).map
        fun it => (if it.1 = name then (name, v) else it).2 := by
      have hitems : (rep.setValue name v).items = rep.items.map fun it =>
          if it.1 = name then (name, v) else it := if_pos hmem
      rw [value?, hitems, List.find?_map, hsame, Option.map_map]
      rfl
    rw [hvalue]
    cases hfind : rep.items.find? fun it => it.1 = n with
    | none =>
      have hn : rep.value? n = none := by rw [value?, hfind, Option.map_none]
      have hne : n ≠ name := fun he => value?_eq_none_iff.mp hn (he ▸ hmem)
      rw [if_neg hne, hn, Option.map_none]
    | some it =>
      have hit : it.1 = n := by simpa using List.find?_some hfind
      rw [Option.map_some, hit, value?, hfind, Option.map_some]
      split <;> rfl
  · have hitems : (rep.setValue name v).items = rep.items ++ [(name, v)] := if_neg hmem
    rw [value?, hitems, List.find?_append, Option.map_or, ← value?]
    by_cases hn : n = name
    · rw [if_pos hn, hn, value?_eq_none_iff.mpr hmem]
      simp
    · have hlast : [(name, v)].find? (fun it => decide (it.1 = n)) = none := by
        simp [Ne.symm hn]
      rw [if_neg hn, hlast, Option.map_none, Option.or_none]

theorem names_setValue {rep : OCRepresentation} {name : Str} (h : name ∈ rep.names)
    (v : AttributeValue) : (rep.setValue name v).names = rep.names := by
  have hitems : (rep.setValue name v).items = rep.items.map fun it =>
      if it.1 = name then (name, v) else it := if_pos h
  rw [names, hitems, List.map_map, names]
  refine List.map_congr_left fun it _ => ?_
  by_cases he : it.1 = name <;> simp [he]

theorem value?_single (name : Str) (v : AttributeValue) : (single name v).value? name = some v :=
  value?_eq_some_iff.mpr (List.mem_singleton_self _)

end OCRepresentation

/-- A server of one resource, which has the same attributes in every state. -/
structure Device (δ : Type) where
  get : δ → OCRepresentation
  put : δ → OCRepresentation → δ
  accepts : Str → AttributeValue → Bool
  same_names : ∀ d d' name, name ∈ (get d).names → name ∈ (get d').names

/-- Of a PUT of one attribute the server takes over the value if it accepts it, and a PUT
changes nothing else. -/
structure Device.Lawful {δ : Type} (D : Device δ) : Prop where
  get_put : ∀ d name v name', (D.get (D.put d (.single name v))).value? name' =
    if name' = name ∧ D.accepts name v = true then some v else (D.get d).value? name'
  put_empty : ∀ d name, (D.get (D.put d .empty)).value? name = (D.get d).value? name

/-- The mounted file system, the devices of the resources, and what of their attributes the
files have shown and changed. -/
structure Network (ι δ : Type) where
  mount : Mount ι
  devices : ι → δ
  log : List (Access (ι × Str) (Option AttributeValue) Str)

/-- What happens on the network. A GET is answered by the device if its code says so, a PUT
may get lost. -/
inductive NetworkEvent (ι δ : Type)
  /-- A resource is announced, and the GET of each of its types returns with a code. -/
  | announce (resource : OCResource ι) (eCodes : Nat → Int) (throws : Nat → Bool)
    (memory : Nat → BitVec 32)
  | read (q : Path) (eCode : Int)
  | write (q : Path) (input : Str) (delivered : Bool)
  /-- A device changes by itself. -/
  | change (id : ι) (d : δ)

/-- The identifier of the resource a file is bound to. -/
def OICFile.resource {ι : Type} (f : OICFile ι) : Option ι :=
  f.stub.map fun stub => stub.resource.uniqueIdentifier

namespace Network

variable {ι δ : Type}

/-- The file at a path. -/
def file? (s : Network ι δ) (q : Path) : Option (OICFile ι) :=
  match s.mount.provider.tree.entry q with
  | some (.oicFile f) => some f
  | _ => none

theorem entry_of_file? {s : Network ι δ} {q : Path} {f : OICFile ι} (h : s.file? q = some f) :
    s.mount.provider.tree.entry q = some (.oicFile f) := by
  unfold file? at h
  split at h
  · rename_i f' hf
    cases h
    exact hf
  · cases h

variable [DecidableEq ι] (D : ι → Device δ)

/-- The reply to a GET of a resource. -/
def reply (s : Network ι δ) (id : ι) (eCode : Int) : Reply :=
  ⟨eCode, if eCode = OC_STACK_OK then (D id).get (s.devices id) else .empty⟩

/-- The reply a call on a file gets. -/
def answer (s : Network ι δ) (f : OICFile ι) (eCode : Int) : Reply :=
  match f.resource with
  | some id => s.reply D id eCode
  | none => ⟨eCode, .empty⟩

/-- The values of all attributes of the devices. -/
def value (devices : ι → δ) (k : ι × Str) : Option AttributeValue :=
  ((D k.1).get (devices k.1)).value? k.2

/-- What a call that returned `out` has shown or changed of the attribute of its file. -/
def access (f : OICFile ι) (out : Outcome ι) :
    List (Access (ι × Str) (Option AttributeValue) Str) :=
  match f.resource, out.sent with
  | some id, [.get] => [.read (id, f.fileName) out.output]
  | some id, [.put rep] => match rep.value? f.fileName with
    | some v =>
      if (D id).accepts f.fileName v then [.wrote (id, f.fileName) (some v)] else []
    | none => []
  | _, _ => []

/-- The devices after the requests a call has sent. -/
def deliver (devices : ι → δ) (f : OICFile ι) : List Request → ι → δ
  | [.put rep] => match f.resource with
    | some id => Function.update devices id ((D id).put (devices id) rep)
    | none => devices
  | _ => devices

/-- One event; a call without a file, and an announcement the daemon does not survive, have
no successor. -/
def step (P : Platform ι) (s : Network ι δ) : NetworkEvent ι δ → Option (Network ι δ)
  | .announce resource eCodes throws memory =>
    (s.mount.step P (.announce {
      resource := resource
      replies := fun k => s.reply D resource.uniqueIdentifier (eCodes k)
      throws := throws
      memory := memory })).map fun mount => { s with mount := mount }
  | .read q eCode =>
    match s.mount.provider.tree.entry q with
    | some (.oicFile f) =>
      let out := f.read (s.answer D f eCode)
      (s.mount.step P (.call q (.read (s.answer D f eCode)))).map fun mount => { s with
        mount := mount
        log := s.log ++ if eCode = OC_STACK_OK then access D f out else [] }
    | _ => none
  | .write q input delivered =>
    match s.mount.provider.tree.entry q with
    | some (.oicFile f) =>
      let answer : Reply := ⟨OC_STACK_OK, .empty⟩
      let out := f.write input answer
      (s.mount.step P (.call q (.write input answer))).map fun mount => {
        mount := mount
        devices := if delivered then deliver D s.devices f out.sent else s.devices
        log := s.log ++ if delivered then access D f out else [] }
    | _ => none
  | .change id d =>
    let devices := Function.update s.devices id d
    some { s with devices := devices, log := s.log ++ [.changed (value D devices)] }

/-- What each event needs and does. -/
inductive Step (P : Platform ι) (s : Network ι δ) : NetworkEvent ι δ → Network ι δ → Prop
  | announce (resource : OCResource ι) (eCodes : Nat → Int) (throws : Nat → Bool)
      (memory : Nat → BitVec 32) (mount : Mount ι) :
      s.mount.step P (.announce ⟨resource, fun k =>
        s.reply D resource.uniqueIdentifier (eCodes k), throws, memory⟩) = some mount →
      Step P s (.announce resource eCodes throws memory) { s with mount := mount }
  | read (q : Path) (eCode : Int) (f : OICFile ι) (mount : Mount ι) :
      s.mount.provider.tree.entry q = some (.oicFile f) →
      s.mount.step P (.call q (.read (s.answer D f eCode))) = some mount →
      Step P s (.read q eCode) { s with
        mount := mount
        log := s.log ++
          if eCode = OC_STACK_OK then access D f (f.read (s.answer D f eCode)) else [] }
  /-- The PUT arrives, if the call sends one. -/
  | write (q : Path) (input : Str) (f : OICFile ι) (mount : Mount ι) :
      s.mount.provider.tree.entry q = some (.oicFile f) →
      s.mount.step P (.call q (.write input ⟨OC_STACK_OK, .empty⟩)) = some mount →
      Step P s (.write q input true) {
        mount := mount
        devices := deliver D s.devices f (f.write input ⟨OC_STACK_OK, .empty⟩).sent
        log := s.log ++ access D f (f.write input ⟨OC_STACK_OK, .empty⟩) }
  /-- It gets lost. -/
  | lose (q : Path) (input : Str) (f : OICFile ι) (mount : Mount ι) :
      s.mount.provider.tree.entry q = some (.oicFile f) →
      s.mount.step P (.call q (.write input ⟨OC_STACK_OK, .empty⟩)) = some mount →
      Step P s (.write q input false) { s with mount := mount }
  | change (id : ι) (d : δ) : Step P s (.change id d) { s with
      devices := Function.update s.devices id d
      log := s.log ++ [.changed (value D (Function.update s.devices id d))] }

theorem step_cases {P : Platform ι} {s s' : Network ι δ} {e : NetworkEvent ι δ}
    (h : s.step D P e = some s') : Step D P s e s' := by
  cases e with
  | announce resource eCodes throws memory =>
    obtain ⟨mount, hmount, rfl⟩ := Option.map_eq_some_iff.mp h
    exact .announce resource eCodes throws memory mount hmount
  | read q eCode =>
    simp only [step] at h
    split at h
    · rename_i f hf
      obtain ⟨mount, hmount, rfl⟩ := Option.map_eq_some_iff.mp h
      exact .read q eCode f mount hf hmount
    · cases h
  | write q input delivered =>
    simp only [step] at h
    split at h
    · rename_i f hf
      obtain ⟨mount, hmount, rfl⟩ := Option.map_eq_some_iff.mp h
      cases delivered with
      | true => exact .write q input f mount hf hmount
      | false =>
        simp only [Bool.false_eq_true, if_false, List.append_nil]
        exact .lose q input f mount hf hmount
    · cases h
  | change id d =>
    cases h
    exact .change id d

/-- The devices before anything is mounted. -/
def start (devices : ι → δ) : Network ι δ := ⟨.initial, devices, []⟩

/-- An announcement walks the path of its resource. -/
theorem step_announce (P : Platform ι) (s : Network ι δ) (resource : OCResource ι)
    (eCodes : Nat → Int) (throws : Nat → Bool) (memory : Nat → BitVec 32) :
    s.step D P (.announce resource eCodes throws memory) =
      let a : Announcement ι :=
        ⟨resource, fun k => s.reply D resource.uniqueIdentifier (eCodes k), throws, memory⟩
      let w := s.mount.provider
      (if w.Knows a then some w else survive (walk P a [] (a.path P) (w.record a))).map
        fun w' => { s with mount := { s.mount with provider := w' } } := by
  simp only [step, Mount.step, announce_eq, Option.map_map]
  rfl

/-- What the reads so far have shown. -/
def shown (s : Network ι δ) : List ((ι × Str) × Str) :=
  s.log.filterMap fun
    | .read k t => some (k, t)
    | .wrote .. | .changed _ => none

end Network

end IoTFS.Oic
