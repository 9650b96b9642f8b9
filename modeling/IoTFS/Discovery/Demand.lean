import IoTFS.Discovery.Layout

/-!
# The demands of one resource

A resource asks for the folders along its path, for a folder of each of its types, and
for a file of each attribute its types answer with. The demand is safe when every class
found where it asks for a folder is the class its creator would cast to; the condition
follows the path one piece at a time, as the folders are made.
-/

namespace IoTFS.Layout

open Oic (EntryClass)

variable {κ : Type*} {L : Layout κ} {wins : Bool} {p q : List κ} {n : κ}

/-- Ask for a file under each of the names. -/
def addFiles (L : Layout κ) (p : List κ) (names : List κ) : Layout κ :=
  { L with file := L.file ∪ {q | ∃ n ∈ names, q = p ++ [n]} }

/-- Ask for the types below an end, each with the attributes it answers with. -/
def addTypes (L : Layout κ) (p : List κ) (types : List (κ × List κ)) : Layout κ where
  folder := L.folder
  device := L.device
  rtype := L.rtype ∪ {q | ∃ t ∈ types, q = p ++ [t.1]}
  file := L.file ∪ {q | ∃ t ∈ types, ∃ n ∈ t.2, q = p ++ [t.1] ++ [n]}

/-- Ask for what a resource needs from `parent` on. -/
def demand (L : Layout κ) (parent rest : List κ) (types : List (κ × List κ)) : Layout κ where
  folder := L.folder ∪ {q | ∃ s, s ≠ [] ∧ s <+: rest ∧ q = parent ++ s}
  device := insert (parent ++ rest) L.device
  rtype := L.rtype ∪ {q | ∃ t ∈ types, q = parent ++ rest ++ [t.1]}
  file := L.file ∪ {q | ∃ t ∈ types, ∃ n ∈ t.2, q = parent ++ rest ++ [t.1] ++ [n]}

/-- Where a type folder is asked for, there is nothing or such a folder. -/
def TypesSafe (wins : Bool) (L : Layout κ) (p : List κ) (types : List (κ × List κ)) : Prop :=
  ∀ t ∈ types, ¬ L.FileAt wins (p ++ [t.1]) ∧ (p ++ [t.1] ∈ L.folder → p ++ [t.1] ∈ L.rtype)

/-- No file stands where the path passes or where a type is asked for; the path ends
nowhere but at a new folder or below an end of a path; a type is never asked for where
only a plain folder was. -/
structure Safe (wins : Bool) (L : Layout κ) (parent rest : List κ)
    (types : List (κ × List κ)) : Prop where
  passage : ∀ s, s ≠ [] → s <+: rest → ¬ L.FileAt wins (parent ++ s)
  ending : parent ++ rest ∈ L.folder → L.Below (parent ++ rest)
  types : L.TypesSafe wins (parent ++ rest) types

/-! ### One piece at a time -/

theorem addFiles_nil (L : Layout κ) (p : List κ) : L.addFiles p [] = L := by
  simp [addFiles]

theorem addFiles_cons (L : Layout κ) (p : List κ) (n : κ) (names : List κ) :
    L.addFiles p (n :: names) = (L.addFile (p ++ [n])).addFiles p names := by
  simp only [addFiles, addFile, Layout.mk.injEq, true_and]
  ext q
  simp only [List.mem_cons, or_and_right, exists_or, exists_eq_left, Set.mem_union,
    Set.mem_ofPred_eq, Set.mem_insert_iff]
  tauto

theorem addTypes_nil (L : Layout κ) (p : List κ) : L.addTypes p [] = L := by
  simp [addTypes]

theorem addTypes_cons (L : Layout κ) (p : List κ) (t : κ × List κ) (types : List (κ × List κ)) :
    L.addTypes p (t :: types) =
      ((L.addType (p ++ [t.1])).addFiles (p ++ [t.1]) t.2).addTypes p types := by
  simp only [addTypes, addFiles, addType, Layout.mk.injEq, true_and]
  constructor
  · ext q
    simp only [List.mem_cons, or_and_right, exists_or, exists_eq_left, Set.mem_union,
      Set.mem_ofPred_eq, Set.mem_insert_iff]
    tauto
  · ext q
    simp only [List.mem_cons, or_and_right, exists_or, exists_eq_left, Set.mem_union,
      Set.mem_ofPred_eq]
    exact or_assoc.symm

/-- Files below a resource-type folder keep the demands closed. -/
theorem Closed.addFiles (h : L.Closed) (hp : p ∈ L.rtype) (names : List κ) :
    (L.addFiles p names).Closed := by
  induction names generalizing L with
  | nil => rwa [addFiles_nil]
  | cons n names ih =>
    rw [addFiles_cons]
    exact ih (h.addFile hp) hp

/-- Files leave the classes of paths that do not pass through them. -/
theorem kind_addFiles_elsewhere {r : List κ} (names : List κ)
    (hr : ∀ n ∈ names, ¬ p ++ [n] <+: r) : (L.addFiles p names).kind wins r = L.kind wins r := by
  induction names generalizing L with
  | nil => rw [addFiles_nil]
  | cons n names ih =>
    rw [addFiles_cons, ih fun m hm => hr m (List.mem_cons_of_mem _ hm)]
    exact kind_addFile_elsewhere (hr n (List.mem_cons_self ..))

/-- The last piece ends the path. -/
theorem demand_last (L : Layout κ) (parent : List κ) (piece : κ) (types : List (κ × List κ)) :
    L.demand parent [piece] types =
      (L.addDevice (parent ++ [piece])).addTypes (parent ++ [piece]) types := by
  simp only [demand, addTypes, addDevice, Layout.mk.injEq, and_self, and_true]
  ext q
  simp only [Set.mem_union, Set.mem_ofPred_eq, Set.mem_insert_iff]
  constructor
  · rintro (hq | ⟨s, hs, hpre, rfl⟩)
    · exact Or.inr hq
    · rcases List.prefix_concat_iff.mp (show _ <+: [] ++ [piece] from hpre) with rfl | hnil
      · exact Or.inl rfl
      · exact absurd (List.prefix_nil.mp hnil) hs
  · rintro (rfl | hq)
    · exact Or.inr ⟨[piece], by simp, List.prefix_rfl, rfl⟩
    · exact Or.inl hq

/-- A piece on the way asks for its folder. -/
theorem demand_cons (L : Layout κ) (parent : List κ) (piece : κ) (rest : List κ)
    (types : List (κ × List κ)) :
    L.demand parent (piece :: rest) types =
      (L.addFolder (parent ++ [piece])).demand (parent ++ [piece]) rest types := by
  have hpath : parent ++ piece :: rest = parent ++ [piece] ++ rest := by simp
  simp only [demand, addFolder, Layout.mk.injEq, hpath, and_self, and_true]
  ext q
  simp only [Set.mem_union, Set.mem_ofPred_eq, Set.mem_insert_iff]
  constructor
  · rintro (hq | ⟨s, hs, hpre, rfl⟩)
    · exact Or.inl (Or.inr hq)
    · obtain ⟨s, rfl, htail⟩ := (List.prefix_cons_iff.mp hpre).resolve_left hs
      by_cases hs' : s = []
      · exact Or.inl (Or.inl (by rw [hs']))
      · exact Or.inr ⟨s, hs', htail, by simp⟩
  · rintro ((rfl | hq) | ⟨s, hs, hpre, rfl⟩)
    · exact Or.inr ⟨[piece], by simp, by simp, rfl⟩
    · exact Or.inl hq
    · exact Or.inr ⟨piece :: s, by simp, by simpa using hpre, by simp⟩

/-- A visible path is found as a file exactly when a file is there. -/
theorem kind_eq_file (hh : ¬ L.Hidden wins q) :
    L.kind wins q = some .OICFile ↔ L.FileAt wins q := by
  refine ⟨fileAt_of_kind, fun hf => ?_⟩
  simp only [kind, hh, hf, if_false, if_true]

/-- The first piece must not be a file, the rest is judged with its folder in place. -/
theorem safe_cons {parent rest : List κ} {piece : κ} {types : List (κ × List κ)}
    (hh : ¬ L.Hidden wins (parent ++ [piece])) (hrest : rest ≠ []) :
    L.Safe wins parent (piece :: rest) types ↔
      L.kind wins (parent ++ [piece]) ≠ some .OICFile ∧
        (L.addFolder (parent ++ [piece])).Safe wins (parent ++ [piece]) rest types := by
  have hpath : parent ++ piece :: rest = parent ++ [piece] ++ rest := by simp
  have hne : parent ++ [piece] ++ rest ≠ parent ++ [piece] := by simpa using hrest
  have hnet (t : κ) : parent ++ [piece] ++ rest ++ [t] ≠ parent ++ [piece] := by simp
  rw [Ne, kind_eq_file hh]
  constructor
  · rintro ⟨hpass, hend, htypes⟩
    have hq : ¬ L.FileAt wins (parent ++ [piece]) := hpass [piece] (by simp) (by simp)
    rw [hpath] at hend htypes
    refine ⟨hq, ⟨fun s hs hpre => ?_, fun hm => ?_, fun t ht => ?_⟩⟩
    · rw [fileAt_addFolder hq, List.append_assoc]
      exact hpass ([piece] ++ s) (by simp) (by simpa using hpre)
    · exact hend (hm.resolve_left hne)
    · rw [fileAt_addFolder hq]
      exact ⟨(htypes t ht).1, fun hm => (htypes t ht).2 (hm.resolve_left (hnet t.1))⟩
  · rintro ⟨hq, hpass, hend, htypes⟩
    refine ⟨fun s hs hpre => ?_, fun hm => ?_, fun t ht => ?_⟩
    · obtain ⟨s, rfl, htail⟩ := (List.prefix_cons_iff.mp hpre).resolve_left hs
      by_cases hs' : s = []
      · rwa [hs']
      · have hp := hpass s hs' htail
        rw [fileAt_addFolder hq] at hp
        simpa using hp
    · rw [hpath] at hm ⊢
      exact hend (Or.inr hm)
    · have ht' := htypes t ht
      rw [fileAt_addFolder hq] at ht'
      rw [hpath]
      exact ⟨ht'.1, fun hm => ht'.2 (Or.inr hm)⟩

/-- The last piece must be a folder the end can use. -/
theorem Closed.safe_last (h : L.Closed) {parent : List κ} {piece : κ}
    {types : List (κ × List κ)} (hh : ¬ L.Hidden wins (parent ++ [piece])) :
    L.Safe wins parent [piece] types ↔
      (∀ c, L.kind wins (parent ++ [piece]) = some c → c.isA .OICFolder = true) ∧
        (L.addDevice (parent ++ [piece])).TypesSafe wins (parent ++ [piece]) types := by
  have hnet (t : κ) : parent ++ [piece] ++ [t] ≠ parent ++ [piece] := by simp
  have hfiles (hq : ¬ L.FileAt wins (parent ++ [piece])) (s : List κ) :
      (L.addDevice (parent ++ [piece])).FileAt wins s ↔ L.FileAt wins s :=
    fileAt_addFolder hq s
  constructor
  · rintro ⟨hpass, hend, htypes⟩
    have hq : ¬ L.FileAt wins (parent ++ [piece]) := hpass [piece] (by simp) List.prefix_rfl
    refine ⟨fun c hc => ?_, fun t ht => ?_⟩
    · cases c with
      | OICFolder | OICRTFolder => rfl
      | OICFile => exact absurd (fileAt_of_kind hc) hq
      | IoTFolder =>
        obtain ⟨-, -, -, hplain, hbelow⟩ := kind_eq_IoTFolder.mp hc
        exact absurd (hend (hplain.resolve_left (by simp))) hbelow
    · rw [hfiles hq]
      exact ⟨(htypes t ht).1, fun hm => (htypes t ht).2 (hm.resolve_left (hnet t.1))⟩
  · rintro ⟨hclass, htypes⟩
    have hq : ¬ L.FileAt wins (parent ++ [piece]) := by
      intro hf
      cases hclass _ ((kind_eq_file hh).mpr hf)
    refine ⟨fun s hs hpre => ?_, fun hm => ?_, fun t ht => ?_⟩
    · rcases List.prefix_concat_iff.mp (show _ <+: [] ++ [piece] from hpre) with rfl | hnil
      · exact hq
      · exact absurd (List.prefix_nil.mp hnil) hs
    · cases hk : L.kind wins (parent ++ [piece]) with
      | none => exact absurd (Or.inr (Or.inl hm)) (untouched_of_kind_none hh hk)
      | some c =>
        have hc := hclass c hk
        refine (h.below_iff hk ?_).mpr ?_
        · rintro rfl
          cases hc
        · rintro rfl
          cases hc
    · have ht' := htypes t ht
      rw [hfiles hq] at ht'
      exact ⟨ht'.1, fun hm => ht'.2 (Or.inr hm)⟩

/-- The first type must find nothing or a folder of a type, and the others are judged
with its folder and files in place. -/
theorem typesSafe_cons {t : κ × List κ} {types : List (κ × List κ)}
    (hh : ¬ L.Hidden wins (p ++ [t.1])) : L.TypesSafe wins p (t :: types) ↔
      (∀ c, L.kind wins (p ++ [t.1]) = some c → c = .OICRTFolder) ∧
        ((L.addType (p ++ [t.1])).addFiles (p ++ [t.1]) t.2).TypesSafe wins p types := by
  have hfiles (hq : ¬ L.FileAt wins (p ++ [t.1])) (n : κ) :
      ((L.addType (p ++ [t.1])).addFiles (p ++ [t.1]) t.2).FileAt wins (p ++ [n]) ↔
        L.FileAt wins (p ++ [n]) := by
    rw [← fileAt_addType hq]
    refine and_congr_left fun _ => or_iff_left ?_
    rintro ⟨m, -, hm⟩
    have hl := congrArg List.length hm
    simp at hl
  have htypes (hq : ¬ L.FileAt wins (p ++ [t.1])) (u : κ × List κ) :
      (p ++ [t.1] ∈ L.folder → p ++ [t.1] ∈ L.rtype) →
      ((¬ L.FileAt wins (p ++ [u.1]) ∧ (p ++ [u.1] ∈ L.folder → p ++ [u.1] ∈ L.rtype)) ↔
        (¬ L.FileAt wins (p ++ [u.1]) ∧
          (p ++ [u.1] ∈ L.folder → p ++ [u.1] ∈ insert (p ++ [t.1]) L.rtype))) := by
    intro hfirst
    refine and_congr_right fun _ => ⟨fun h hm => Or.inr (h hm), fun h hm => ?_⟩
    rcases h hm with he | hmem
    · rw [he] at hm ⊢
      exact hfirst hm
    · exact hmem
  constructor
  · intro h
    obtain ⟨hq, hfirst⟩ := h t (List.mem_cons_self ..)
    refine ⟨fun c hc => ?_, fun u hu => ?_⟩
    · cases c with
      | OICRTFolder => rfl
      | OICFile => exact absurd (fileAt_of_kind hc) hq
      | IoTFolder | OICFolder =>
        obtain ⟨hvis, hnf⟩ := visible_of_folder hc (by decide)
        have hrt : p ++ [t.1] ∉ L.rtype := by
          intro hrt
          rw [kind_eq_type.mpr ⟨hvis, hnf, hrt⟩] at hc
          cases hc
        have hnone : p ++ [t.1] ∉ L.folder := fun hf => hrt (hfirst hf)
        simp [kind, hvis, hnf, hrt, hnone] at hc
    · rw [hfiles hq]
      exact (htypes hq u hfirst).mp (h u (List.mem_cons_of_mem _ hu))
  · rintro ⟨hclass, hrest⟩
    have hq : ¬ L.FileAt wins (p ++ [t.1]) := by
      intro hf
      cases hclass _ ((kind_eq_file hh).mpr hf)
    have hfirst : p ++ [t.1] ∈ L.folder → p ++ [t.1] ∈ L.rtype := by
      intro hf
      cases hk : L.kind wins (p ++ [t.1]) with
      | none => exact absurd (Or.inr (Or.inl hf)) (untouched_of_kind_none hh hk)
      | some c =>
        obtain rfl := hclass c hk
        exact (kind_eq_type.mp hk).2.2
    intro u hu
    rcases List.mem_cons.mp hu with rfl | hu
    · exact ⟨hq, hfirst⟩
    · have hu' := hrest u hu
      rw [hfiles hq] at hu'
      exact (htypes hq u hfirst).mpr hu'

end IoTFS.Layout
