import IoTFS.Files.Calls

/-!
# What the interface list grants

The permission word of a file is the word found in memory with the bits of its
interfaces set. It says what the list grants exactly when the word found held no bit the
list does not grant; requests follow the word, whatever it says.
-/

namespace IoTFS.Oic

variable {ι : Type}

/-- The interface list grants writing. -/
def GrantsWrite (I : Interfaces) (interfaces : List Str) : Prop :=
  I.DEFAULT_INTERFACE ∈ interfaces ∨ I.BATCH_INTERFACE ∈ interfaces ∨
    I.GROUP_INTERFACE ∈ interfaces

/-- The interface list grants reading. -/
def GrantsRead (I : Interfaces) (interfaces : List Str) : Prop :=
  GrantsWrite I interfaces ∨ I.LINK_INTERFACE ∈ interfaces

/-- The Read bit of a permission word. -/
def ReadBit (word : BitVec 32) : Prop := word &&& OICFileOperationRead ≠ 0

/-- The Write bit of a permission word. -/
def WriteBit (word : BitVec 32) : Prop := word &&& OICFileOperationWrite ≠ 0

private theorem readBit_iff (word : BitVec 32) : ReadBit word ↔ word.getLsbD 0 = true := by
  have hmask : OICFileOperationRead = BitVec.twoPow 32 0 := by decide
  rw [ReadBit, hmask, BitVec.and_twoPow]
  cases word.getLsbD 0 <;> decide

private theorem writeBit_iff (word : BitVec 32) : WriteBit word ↔ word.getLsbD 1 = true := by
  have hmask : OICFileOperationWrite = BitVec.twoPow 32 1 := by decide
  rw [WriteBit, hmask, BitVec.and_twoPow]
  cases word.getLsbD 1 <;> decide

theorem mayRead_iff (f : OICFile ι) : f.mayRead = true ↔ ReadBit f.allowedOperation := by
  simp [OICFile.mayRead, ReadBit]

theorem mayWrite_iff (f : OICFile ι) : f.mayWrite = true ↔ WriteBit f.allowedOperation := by
  simp [OICFile.mayWrite, WriteBit]

private theorem writeBit_or (x y : BitVec 32) : WriteBit (x ||| y) ↔ WriteBit x ∨ WriteBit y := by
  simp only [writeBit_iff, BitVec.getLsbD_or, Bool.or_eq_true]

private theorem readBit_or (x y : BitVec 32) : ReadBit (x ||| y) ↔ ReadBit x ∨ ReadBit y := by
  simp only [readBit_iff, BitVec.getLsbD_or, Bool.or_eq_true]

private theorem writeBit_masks :
    WriteBit OICFileOperationWrite ∧ ¬ WriteBit OICFileOperationRead := by
  simp only [writeBit_iff]
  decide

private theorem readBit_masks :
    ReadBit OICFileOperationRead ∧ ¬ ReadBit OICFileOperationWrite := by
  simp only [readBit_iff]
  decide

/-- One interface sets the Write bit when it grants writing. -/
theorem writeBit_grant (I : Interfaces) (allowed : BitVec 32) (interface : Str) :
    WriteBit (grant I allowed interface) ↔ WriteBit allowed ∨ GrantsWrite I [interface] := by
  obtain ⟨hw, hr⟩ := writeBit_masks
  have hdist := I.distinct
  simp only [List.nodup_cons, List.mem_cons, not_or] at hdist
  unfold grant
  split_ifs with hd hl hb hg
  · simp [writeBit_or, hw, GrantsWrite, hd]
  · have hbatch : I.BATCH_INTERFACE ≠ interface := fun h => hdist.2.1.1 (hl.symm.trans h.symm)
    have hgroup : I.GROUP_INTERFACE ≠ interface := fun h => hdist.2.1.2.1 (hl.symm.trans h.symm)
    simp [writeBit_or, hr, GrantsWrite, hbatch, hgroup, Ne.symm hd]
  · simp [writeBit_or, hw, GrantsWrite, hb]
  · simp [writeBit_or, hw, GrantsWrite, hg]
  · simp [GrantsWrite, Ne.symm hd, Ne.symm hb, Ne.symm hg]

/-- One interface sets the Read bit when it grants reading. -/
theorem readBit_grant (I : Interfaces) (allowed : BitVec 32) (interface : Str) :
    ReadBit (grant I allowed interface) ↔ ReadBit allowed ∨ GrantsRead I [interface] := by
  obtain ⟨hr, hw⟩ := readBit_masks
  unfold grant
  split_ifs with hd hl hb hg
  · simp [readBit_or, hr, GrantsRead, GrantsWrite, hd]
  · simp [readBit_or, hr, GrantsRead, hl]
  · simp [readBit_or, hr, GrantsRead, GrantsWrite, hb]
  · simp [readBit_or, hr, GrantsRead, GrantsWrite, hg]
  · simp [GrantsRead, GrantsWrite, Ne.symm hd, Ne.symm hl, Ne.symm hb, Ne.symm hg]

theorem grantsWrite_cons (I : Interfaces) (interface : Str) (interfaces : List Str) :
    GrantsWrite I (interface :: interfaces) ↔
      GrantsWrite I [interface] ∨ GrantsWrite I interfaces := by
  simp only [GrantsWrite, List.mem_cons, List.not_mem_nil, or_false]
  tauto

theorem grantsRead_cons (I : Interfaces) (interface : Str) (interfaces : List Str) :
    GrantsRead I (interface :: interfaces) ↔
      GrantsRead I [interface] ∨ GrantsRead I interfaces := by
  rw [GrantsRead, GrantsRead, GrantsRead, grantsWrite_cons, List.mem_cons, List.mem_singleton]
  exact or_or_or_comm

/-- A list sets the bits its interfaces set, over those found in memory. -/
theorem bits_setAllowedOperation (I : Interfaces) (memory : BitVec 32) (interfaces : List Str) :
    (WriteBit (setAllowedOperation I memory interfaces) ↔
        WriteBit memory ∨ GrantsWrite I interfaces) ∧
      (ReadBit (setAllowedOperation I memory interfaces) ↔
        ReadBit memory ∨ GrantsRead I interfaces) := by
  induction interfaces generalizing memory with
  | nil => simp [setAllowedOperation, GrantsWrite, GrantsRead]
  | cons interface interfaces ih =>
    obtain ⟨ihw, ihr⟩ := ih (grant I memory interface)
    constructor
    · rw [setAllowedOperation, List.foldl_cons, ← setAllowedOperation, ihw, writeBit_grant,
        grantsWrite_cons I interface interfaces, or_assoc]
    · rw [setAllowedOperation, List.foldl_cons, ← setAllowedOperation, ihr, readBit_grant,
        grantsRead_cons I interface interfaces, or_assoc]

/-- The file grants what its interface list grants, and sends requests accordingly. -/
structure AccessControlled (I : Interfaces) (interfaces : List Str) (f : OICFile ι) : Prop where
  write : WriteBit f.allowedOperation ↔ GrantsWrite I interfaces
  read : ReadBit f.allowedOperation ↔ GrantsRead I interfaces
  put : ∀ ops op out rep, (op, out) ∈ (session f ops).history → .put rep ∈ out.sent →
    GrantsWrite I interfaces
  get : ∀ ops op out, (op, out) ∈ (session f ops).history → .get ∈ out.sent →
    GrantsRead I interfaces

/-- In every run the requests sent follow the permission word. -/
theorem requests_follow_bits (f : OICFile ι) (ops : List FileOp) (op : FileOp) (out : Outcome ι)
    (h : (op, out) ∈ (session f ops).history) :
    (∀ rep, .put rep ∈ out.sent → WriteBit f.allowedOperation) ∧
      (.get ∈ out.sent → ReadBit f.allowedOperation) := by
  obtain ⟨pre, -, rfl⟩ := mem_history h
  have hshape := sameShape_session f pre
  have hcall := OICFile.perform_call (session f pre).file op
  constructor
  · intro rep hput
    rw [← hshape.allowedOperation, ← mayWrite_iff]
    exact (hcall.of_put hput).2.1
  · intro hget
    rw [← hshape.allowedOperation, ← mayRead_iff]
    exact (hcall.of_get hget).2.1

/-- A constructed file grants exactly what its interface list grants if and only if the
word found in memory holds no bit that the list does not grant. -/
theorem access_controlled_iff (I : Interfaces) (memory : BitVec 32) (name : Str)
    (interfaces : List Str) (attributes : OICFileAttributes) (stub : Option (OICStub ι)) :
    AccessControlled I interfaces
        (.construct I memory name interfaces attributes stub : OICFile ι) ↔
      (WriteBit memory → GrantsWrite I interfaces) ∧
        (ReadBit memory → GrantsRead I interfaces) := by
  obtain ⟨hw, hr⟩ := bits_setAllowedOperation I memory interfaces
  constructor
  · rintro ⟨hwrite, hread, -, -⟩
    exact ⟨fun h => hwrite.mp (hw.mpr (Or.inl h)), fun h => hread.mp (hr.mpr (Or.inl h))⟩
  · rintro ⟨hmw, hmr⟩
    have hwrite := hw.trans (or_iff_right_of_imp hmw)
    have hread := hr.trans (or_iff_right_of_imp hmr)
    refine ⟨hwrite, hread, fun ops op out rep h hput => ?_, fun ops op out h hget => ?_⟩
    · exact hwrite.mp ((requests_follow_bits _ ops op out h).1 rep hput)
    · exact hread.mp ((requests_follow_bits _ ops op out h).2 hget)

/-- A file without interfaces, constructed over a word with both bits set, may write. -/
theorem access_not_controlled :
    ¬ AccessControlled sampleInterfaces []
      (.construct sampleInterfaces 3 [] [] (.single [] ⟨[], .integer⟩) none : OICFile Unit) := by
  intro h
  have hgrant := h.write.mp (by unfold WriteBit; decide)
  simp [GrantsWrite] at hgrant

end IoTFS.Oic
