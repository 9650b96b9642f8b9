import IoTFS.Files.ReturnCodes

/-!
# What a PUT names

The loop of `update` has a branch for three attribute types and passes over the others, so
the representation it builds names exactly the attributes of those types. An attribute of
another type, stored as it came by `onGetState`, is dropped on the way to the device.
-/

namespace IoTFS.Oic

variable {ι : Type}

/-- The types `update` has a branch for. -/
def AttributeType.encoded : AttributeType → Bool
  | integer | string | boolean => true
  | other _ => false

/-- The value `update` makes of an attribute, if it has a branch for its type and the content
converts. -/
def OICFileDescriptor.converted (d : OICFileDescriptor) : Option AttributeValue :=
  match d.type with
  | .integer => (lexicalCastInt d.content).map .integer
  | .string => some (.string d.content)
  | .boolean => (lexicalCastBool d.content).map .boolean
  | .other _ => none

theorem OICFileDescriptor.converted_isSome (d : OICFileDescriptor) :
    d.converted.isSome = true ↔ d.type.encoded = true ∧ d.Converts := by
  unfold converted Converts AttributeType.encoded
  cases d.type <;> simp

theorem OICFileDescriptor.type_converted {d : OICFileDescriptor} {v : AttributeValue}
    (h : d.converted = some v) : v.type = d.type := by
  unfold converted at h
  cases ht : d.type with
  | integer | boolean =>
    simp only [ht] at h
    obtain ⟨v, -, rfl⟩ := Option.map_eq_some_iff.mp h
    rfl
  | string =>
    simp only [ht] at h
    cases h
    rfl
  | other tag =>
    simp only [ht] at h
    cases h

/-- Assigning to a new name adds one item. -/
theorem OCRepresentation.items_setValue {rep : OCRepresentation} {name : Str}
    (h : name ∉ rep.names) (v : AttributeValue) :
    (rep.setValue name v).items = rep.items ++ [(name, v)] := if_neg h

/-- One turn of the loop adds the value made of the attribute. -/
theorem items_encodeEntry {rep rep' : OCRepresentation} {name : Str} {d : OICFileDescriptor}
    (hnew : name ∉ rep.names) (h : encodeEntry rep name d = some rep') :
    rep'.items = rep.items ++ d.converted.toList.map fun v => (name, v) := by
  unfold encodeEntry at h
  unfold OICFileDescriptor.converted
  cases ht : d.type with
  | integer | boolean =>
    simp only [ht] at h
    obtain ⟨v, hv, rfl⟩ := Option.map_eq_some_iff.mp h
    rw [OCRepresentation.items_setValue hnew]
    simp [hv]
  | string =>
    simp only [ht] at h
    cases h
    rw [OCRepresentation.items_setValue hnew]
    rfl
  | other tag =>
    simp only [ht] at h
    cases h
    simp

/-- The loop adds the values made of attributes with new names. -/
theorem mem_encodeFrom {entries : List (Str × OICFileDescriptor)} {rep rep' : OCRepresentation}
    (hnodup : (entries.map Prod.fst).Nodup) (hnew : ∀ e ∈ entries, e.1 ∉ rep.names)
    (h : encodeFrom rep entries = some rep') (n : Str) (u : AttributeValue) :
    (n, u) ∈ rep'.items ↔
      (n, u) ∈ rep.items ∨ ∃ d, (n, d) ∈ entries ∧ d.converted = some u := by
  induction entries generalizing rep with
  | nil =>
    cases h
    simp
  | cons e entries ih =>
    obtain ⟨name, d⟩ := e
    obtain ⟨mid, hmid, hrest⟩ := Option.bind_eq_some_iff.mp h
    obtain ⟨hhead, htail⟩ := List.nodup_cons.mp hnodup
    have hitems := items_encodeEntry (hnew _ (List.mem_cons_self ..)) hmid
    have hmidnew : ∀ e ∈ entries, e.1 ∉ mid.names := by
      intro e he hmem
      rw [OCRepresentation.names, hitems, List.map_append, List.mem_append] at hmem
      rcases hmem with hmem | hmem
      · exact hnew e (List.mem_cons_of_mem _ he) hmem
      · have hname : e.1 = name := by
          simp only [List.map_map, List.mem_map, Function.comp_apply] at hmem
          obtain ⟨v, -, hname⟩ := hmem
          exact hname.symm
        have hmem' : e.1 ∈ entries.map Prod.fst := List.mem_map_of_mem he
        exact hhead (hname ▸ hmem')
    rw [ih htail hmidnew hrest, hitems, List.mem_append, or_assoc]
    refine or_congr_right ?_
    simp only [List.mem_map, Option.mem_toList, Prod.mk.injEq, List.mem_cons]
    constructor
    · rintro (⟨v, hv, rfl, rfl⟩ | ⟨d', hd', hconv⟩)
      · exact ⟨d, Or.inl ⟨rfl, rfl⟩, hv⟩
      · exact ⟨d', Or.inr hd', hconv⟩
    · rintro ⟨d', ⟨rfl, rfl⟩ | hd', hconv⟩
      · exact Or.inl ⟨u, hconv, rfl, rfl⟩
      · exact Or.inr ⟨d', hd', hconv⟩

/-- A name belongs to one attribute. -/
theorem OICFileAttributes.nodup_names (values : OICFileAttributes) : values.names.Nodup := by
  refine values.ordered.imp fun {a b} hlt => ?_
  rintro rfl
  exact List.lt_irrefl a hlt

theorem OICFileAttributes.entry_unique (values : OICFileAttributes) {n : Str}
    {d d' : OICFileDescriptor} (h : (n, d) ∈ values.entries) (h' : (n, d') ∈ values.entries) :
    d = d' :=
  congrArg Prod.snd (List.inj_on_of_nodup_map values.nodup_names h h' rfl)

theorem OICFileAttributes.mem_types {values : OICFileAttributes} {t : Str × AttributeType} :
    t ∈ values.types ↔ ∃ d, (t.1, d) ∈ values.entries ∧ d.type = t.2 := by
  obtain ⟨n, type⟩ := t
  simp only [types, List.mem_map, Prod.mk.injEq, Prod.exists]
  constructor
  · rintro ⟨n', d, hd, rfl, rfl⟩
    exact ⟨d, hd, rfl⟩
  · rintro ⟨d, hd, rfl⟩
    exact ⟨n, d, hd, rfl, rfl⟩

/-- What `update` builds holds the values made of the attributes. -/
theorem mem_encode {values : OICFileAttributes} {rep : OCRepresentation}
    (h : encode values = some rep) (n : Str) (u : AttributeValue) :
    (n, u) ∈ rep.items ↔ ∃ d, (n, d) ∈ values.entries ∧ d.converted = some u := by
  rw [mem_encodeFrom values.nodup_names (fun _ _ hmem => by cases hmem) h]
  refine or_iff_right ?_
  simp [OCRepresentation.empty]

/-- What `update` builds names the attributes of encoded types. -/
theorem encode_names {values : OICFileAttributes} {rep : OCRepresentation}
    (h : encode values = some rep) (n : Str) :
    n ∈ rep.names ↔ ∃ d, (n, d) ∈ values.entries ∧ d.type.encoded = true := by
  have hconverts : ∀ e ∈ values.entries, e.2.Converts := by
    rw [← encodeFrom_isSome .empty, ← encode, h]
    rfl
  simp only [OCRepresentation.names, List.mem_map, Prod.exists, exists_and_right,
    exists_eq_right, mem_encode h]
  constructor
  · rintro ⟨u, d, hd, hconv⟩
    exact ⟨d, hd, (d.converted_isSome.mp (by rw [hconv]; rfl)).1⟩
  · rintro ⟨d, hd, henc⟩
    obtain ⟨u, hu⟩ := Option.isSome_iff_exists.mp (d.converted_isSome.mpr ⟨henc, hconverts _ hd⟩)
    exact ⟨u, d, hd, hu⟩

/-- What a representation built from the attributes leaves out: those of types the loop has
no branch for. -/
theorem encode_complete_iff {values : OICFileAttributes} {rep : OCRepresentation}
    (h : encode values = some rep) :
    (∀ n ∈ values.names, n ∈ rep.names) ↔ ∀ t ∈ values.types, t.2.encoded = true := by
  constructor
  · intro hall t ht
    obtain ⟨d, hd, htype⟩ := OICFileAttributes.mem_types.mp ht
    have hmem := hall t.1 (List.mem_map_of_mem (f := Prod.fst) hd)
    obtain ⟨d', hd', henc⟩ := (encode_names h t.1).mp hmem
    rw [← htype, values.entry_unique hd hd']
    exact henc
  · intro hall n hn
    obtain ⟨⟨n', d⟩, hd, rfl⟩ := List.mem_map.mp hn
    rw [encode_names h]
    exact ⟨d, hd, hall (n', d.type) (OICFileAttributes.mem_types.mpr ⟨d, hd, rfl⟩)⟩

/-- A write that gets as far as its PUT names every attribute of the file exactly when all
of them have types `update` has a branch for. -/
theorem write_names_all_iff (f : OICFile ι) (hwrite : f.mayWrite = true)
    (hbound : f.stub.isSome = true) (input : Str) (answer : Reply)
    (hreturns : (f.write input answer).ret ≠ none) :
    (∃ rep, (f.write input answer).sent = [.put rep] ∧
        ∀ n ∈ f.values.names, n ∈ rep.names) ↔
      ∀ t ∈ f.values.types, t.2.encoded = true := by
  have hcall := f.write_call input answer
  generalize f.write input answer = out at hcall hreturns
  cases hcall with
  | writeUnbound _ _ hn => simp [hn] at hbound
  | writeRefused _ _ _ hw =>
    rw [hwrite] at hw
    cases hw
  | writeRejected => exact absurd rfl hreturns
  | writeSent _ _ rep _ _ he =>
    have hcomplete := encode_complete_iff he
    rw [OICFileAttributes.setContents, OICFileAttributes.names_refill,
      OICFileAttributes.types_refill] at hcomplete
    rw [← hcomplete]
    constructor
    · rintro ⟨rep', hsent, hall⟩
      cases hsent
      exact hall
    · exact fun hall => ⟨rep, rfl, hall⟩

theorem write_names_all_iff_sampleFile :
    ((∃ rep, ((sampleFile 3 .integer ['0']).write ['1'] ⟨OC_STACK_OK, .empty⟩).sent =
          [.put rep] ∧ ∀ n ∈ (sampleFile 3 .integer ['0']).values.names, n ∈ rep.names) ↔
        ∀ t ∈ (sampleFile 3 .integer ['0']).values.types, t.2.encoded = true) ∧
      ∀ t ∈ (sampleFile 3 .integer ['0']).values.types, t.2.encoded = true :=
  ⟨write_names_all_iff _ (by decide) rfl _ _ (by decide), by decide⟩

/-- The PUT for an attribute of a type that is not encoded, a double for one, is empty. -/
theorem write_drops_sampleFile : (sampleFile 3 (.other 0) ['0']).mayWrite = true ∧
    ((sampleFile 3 (.other 0) ['0']).write ['1'] ⟨OC_STACK_OK, .empty⟩).sent = [.put .empty] ∧
      ¬ ∃ rep, ((sampleFile 3 (.other 0) ['0']).write ['1'] ⟨OC_STACK_OK, .empty⟩).sent =
        [.put rep] ∧ ∀ n ∈ (sampleFile 3 (.other 0) ['0']).values.names, n ∈ rep.names := by
  refine ⟨by decide, by decide, ?_⟩
  rintro ⟨rep, hsent, hall⟩
  have hempty : [Request.put .empty] = [.put rep] := Eq.trans (by decide) hsent
  cases hempty
  exact absurd (hall ['p'] (by decide)) (by decide)

end IoTFS.Oic
