import IoTFS.Files.Encoding
import IoTFS.Oic.Walk

/-!
# The type an attribute keeps

`onGetState` stores the text and the type of an attribute, `didRetrieve` the text only. The
two stay in step over a history of replies exactly as long as the device never reports a
type other than the one the file was made with.
-/

namespace IoTFS.Oic

variable {ι : Type}

/-! ### A reply applied to the attributes -/

theorem OICFileAttributes.mem_refill {values : OICFileAttributes} {content : Str → Str → Str}
    {n : Str} {d : OICFileDescriptor} (h : (n, d) ∈ values.entries) :
    (n, { d with content := content n d.content }) ∈ (values.refill content).entries :=
  List.mem_map.mpr ⟨(n, d), h, rfl⟩

/-- An item of the same name overwrites the content, any other item leaves it. -/
theorem mem_absorb {values : OICFileAttributes} {n : Str} {d : OICFileDescriptor}
    (h : (n, d) ∈ values.entries) (item : Str × AttributeValue) :
    (n, { d with content := if n = item.1 then item.2.getValueToString else d.content }) ∈
      (OICFile.absorb values item).entries := by
  unfold OICFile.absorb
  split
  · exact OICFileAttributes.mem_refill h
  · rename_i hno
    have hne : n ≠ item.1 := by
      rintro rfl
      exact hno (List.mem_map_of_mem (f := Prod.fst) h)
    rwa [if_neg hne]

/-- Items of other names leave an attribute alone. -/
theorem mem_foldl_absorb_of_not_named {n : Str} {d : OICFileDescriptor}
    (items : List (Str × AttributeValue)) (hn : n ∉ items.map Prod.fst)
    {values : OICFileAttributes} (h : (n, d) ∈ values.entries) :
    (n, d) ∈ (items.foldl OICFile.absorb values).entries := by
  induction items generalizing values with
  | nil => exact h
  | cons item items ih =>
    simp only [List.map_cons, List.mem_cons, not_or] at hn
    have hmem := mem_absorb h item
    rw [if_neg hn.1] at hmem
    exact ih hn.2 hmem

/-- After the items of a representation, an attribute they name has the text they give it. -/
theorem mem_foldl_absorb_of_item {n : Str} {d : OICFileDescriptor} {v : AttributeValue}
    (items : List (Str × AttributeValue)) (hnodup : (items.map Prod.fst).Nodup)
    (hv : (n, v) ∈ items) {values : OICFileAttributes} (h : (n, d) ∈ values.entries) :
    (n, { d with content := v.getValueToString }) ∈
      (items.foldl OICFile.absorb values).entries := by
  induction items generalizing values d with
  | nil => cases hv
  | cons item items ih =>
    obtain ⟨hhead, htail⟩ := List.nodup_cons.mp hnodup
    rw [List.foldl_cons]
    have hmem := mem_absorb h item
    rcases List.mem_cons.mp hv with rfl | hv
    · rw [if_pos rfl] at hmem
      exact mem_foldl_absorb_of_not_named items hhead hmem
    · have hlast := ih htail hv hmem
      exact hlast

theorem mem_didRetrieve {f : OICFile ι} {r : Reply} (hok : r.eCode = OC_STACK_OK) {n : Str}
    {d : OICFileDescriptor} {v : AttributeValue} (hd : (n, d) ∈ f.values.entries)
    (hv : (n, v) ∈ r.rep.items) :
    (n, { d with content := v.getValueToString }) ∈ (f.didRetrieve r).values.entries := by
  simp only [OICFile.didRetrieve, if_pos hok]
  exact mem_foldl_absorb_of_item r.rep.items r.rep.distinct hv hd

/-- Replies change contents only. -/
theorem sameShape_replies (f : OICFile ι) (replies : List Reply) :
    OICFile.SameShape f (replies.foldl OICFile.didRetrieve f) := by
  induction replies generalizing f with
  | nil => exact .refl f
  | cons r replies ih => exact (OICFile.sameShape_didRetrieve f r).trans (ih _)

/-- What a PUT carries for an attribute has the stored type. -/
theorem encode_type {values : OICFileAttributes} {text : Str} {rep : OCRepresentation}
    (h : encode (values.setContents text) = some rep) {n : Str} {d : OICFileDescriptor}
    (hd : (n, d) ∈ values.entries) {u : AttributeValue} (hu : (n, u) ∈ rep.items) :
    u.type = d.type := by
  obtain ⟨d', hd', hconv⟩ := (mem_encode h n u).mp hu
  have hmem : (n, { d with content := text }) ∈ (values.setContents text).entries :=
    OICFileAttributes.mem_refill hd
  rw [OICFileDescriptor.type_converted hconv, OICFileAttributes.entry_unique _ hd' hmem]

/-! ### A history of replies -/

/-- The file holds the attribute `n` as a reply has it, and a PUT carries it with the type
of that reply. -/
structure Tracks (f : OICFile ι) (n : Str) (v : AttributeValue) : Prop where
  stored : (n, ⟨v.getValueToString, v.type⟩) ∈ f.values.entries
  encoded : ∀ text rep u, encode (f.values.setContents text) = some rep →
    (n, u) ∈ rep.items → u.type = v.type

/-- One reply is tracked when it has the stored type. -/
theorem tracks_didRetrieve_iff {f : OICFile ι} {r : Reply} (hok : r.eCode = OC_STACK_OK)
    {n : Str} {d : OICFileDescriptor} {v : AttributeValue} (hd : (n, d) ∈ f.values.entries)
    (hv : (n, v) ∈ r.rep.items) : Tracks (f.didRetrieve r) n v ↔ v.type = d.type := by
  have hmem := mem_didRetrieve hok hd hv
  constructor
  · intro h
    exact congrArg OICFileDescriptor.type (OICFileAttributes.entry_unique _ h.stored hmem)
  · intro htype
    rw [← htype] at hmem
    exact ⟨hmem, fun text rep u he hu => encode_type he hmem hu⟩

/-- Over a history of successful replies, a file tracks each of them exactly when they
report its attributes with the types it was made with. -/
theorem tracks_latest_iff (f : OICFile ι) (replies : List Reply)
    (hok : ∀ r ∈ replies, r.eCode = OC_STACK_OK) :
    (∀ pre r, pre ++ [r] <+: replies → ∀ n ∈ f.values.names, ∀ v, (n, v) ∈ r.rep.items →
        Tracks ((pre ++ [r]).foldl OICFile.didRetrieve f) n v) ↔
      ∀ r ∈ replies, ∀ t ∈ f.values.types, ∀ v, (t.1, v) ∈ r.rep.items → v.type = t.2 := by
  have hone (pre : List Reply) (r : Reply) (hr : r ∈ replies) (n : Str) (type : AttributeType)
      (ht : (n, type) ∈ f.values.types) (v : AttributeValue) (hv : (n, v) ∈ r.rep.items) :
      Tracks ((pre ++ [r]).foldl OICFile.didRetrieve f) n v ↔ v.type = type := by
    rw [List.foldl_concat]
    rw [← (sameShape_replies f pre).types] at ht
    obtain ⟨d, hd, rfl⟩ := OICFileAttributes.mem_types.mp ht
    exact tracks_didRetrieve_iff (hok r hr) hd hv
  constructor
  · rintro h r hr ⟨n, type⟩ ht v hv
    obtain ⟨pre, post, rfl⟩ := List.append_of_mem hr
    have hn : n ∈ f.values.names := by
      obtain ⟨d, hd, -⟩ := OICFileAttributes.mem_types.mp ht
      exact List.mem_map_of_mem (f := Prod.fst) hd
    exact (hone pre r hr n type ht v hv).mp (h pre r ⟨post, by simp⟩ n hn v hv)
  · intro h pre r hpre n hn v hv
    have hr : r ∈ replies := hpre.subset (List.mem_append_right _ (List.mem_singleton_self r))
    obtain ⟨⟨n', d⟩, hd, rfl⟩ := List.mem_map.mp hn
    have ht : (n', d.type) ∈ f.values.types := OICFileAttributes.mem_types.mpr ⟨d, hd, rfl⟩
    exact (hone pre r hr n' d.type ht v hv).mpr (h r hr (n', d.type) ht v hv)

theorem tracks_latest_iff_sampleCreated :
    Tracks ((sampleCreated [] (.integer 7)).didRetrieve (sampleReply OC_STACK_OK "p"))
      ['p'] (.integer 0) := by
  have h := (tracks_latest_iff (sampleCreated [] (.integer 7)) [sampleReply OC_STACK_OK "p"]
    (by simp [sampleReply])).mpr
  refine h ?_ [] _ List.prefix_rfl ['p'] (by decide) (.integer 0) (by decide)
  intro r hr t ht v hv
  cases List.mem_singleton.mp hr
  cases List.mem_singleton.mp ht
  cases List.mem_singleton.mp hv
  rfl

/-- A file made for a string keeps that type when the device reports an integer. -/
theorem not_tracks_sampleCreated : (['p'], .integer 0) ∈ (sampleReply OC_STACK_OK "p").rep.items ∧
    ¬ Tracks ((sampleCreated [] (.string [])).didRetrieve (sampleReply OC_STACK_OK "p"))
      ['p'] (.integer 0) := by
  refine ⟨by decide, fun h => ?_⟩
  have hd : (['p'], ⟨[], .string⟩) ∈ (sampleCreated [] (.string [])).values.entries := by
    decide
  have htype := (tracks_didRetrieve_iff rfl hd (by decide)).mp h
  cases htype

end IoTFS.Oic
