import Mathlib.Data.List.Basic
import Mathlib.Logic.ExistsUnique

/-!
# Absolute paths as text

An absolute path is cut at its separators; empty components and `.` stay where they are,
`..` goes up. A list of names is looked up through its text exactly as written as long as
none of the names means something else there.
-/

namespace IoTFS

/-- A name a lookup takes as it is: not empty, without a separator, and neither `.` nor
`..`. -/
structure ProperName (name : List Char) : Prop where
  nonempty : name ≠ []
  unseparated : '/' ∉ name
  not_here : name ≠ ['.']
  not_up : name ≠ ['.', '.']

theorem properName_iff (name : List Char) : ProperName name ↔
    name ≠ [] ∧ '/' ∉ name ∧ name ≠ ['.'] ∧ name ≠ ['.', '.'] :=
  ⟨fun h => ⟨h.1, h.2, h.3, h.4⟩, fun h => ⟨h.1, h.2.1, h.2.2.1, h.2.2.2⟩⟩

instance (name : List Char) : Decidable (ProperName name) :=
  decidable_of_iff _ (properName_iff name).symm

/-- The text of an absolute path. -/
def absolute (names : List (List Char)) : List Char := '/' :: ['/'].intercalate names

/-- One component of a lookup. -/
def descend (path : List (List Char)) (name : List Char) : List (List Char) :=
  if name = [] ∨ name = ['.'] then path
  else if name = ['.', '.'] then path.dropLast
  else path ++ [name]

/-- Where the text of a path leads, from the root. -/
def resolve (text : List Char) : List (List Char) := (text.splitOn '/').foldl descend []

theorem descend_proper {name : List Char} (h : ProperName name) (path : List (List Char)) :
    descend path name = path ++ [name] := by
  rw [descend, if_neg, if_neg h.not_up]
  rintro (hn | hn)
  · exact h.nonempty hn
  · exact h.not_here hn

theorem foldl_descend {names : List (List Char)} (h : ∀ n ∈ names, ProperName n)
    (path : List (List Char)) : names.foldl descend path = path ++ names := by
  induction names generalizing path with
  | nil => rw [List.foldl_nil, List.append_nil]
  | cons n names ih =>
    rw [List.foldl_cons, descend_proper (h n (List.mem_cons_self ..)),
      ih fun m hm => h m (List.mem_cons_of_mem _ hm), List.append_assoc, List.singleton_append]

/-- Proper names are looked up as they are. -/
theorem resolve_absolute {names : List (List Char)} (h : ∀ n ∈ names, ProperName n) :
    resolve (absolute names) = names := by
  have hcut : (absolute names).splitOn '/' = [] :: (['/'].intercalate names).splitOn '/' :=
    List.splitOn_append_cons_self [] _
  rw [resolve, hcut, List.foldl_cons, descend, if_pos (Or.inl rfl)]
  cases hn : names with
  | nil => rfl
  | cons n rest =>
    rw [← hn, List.splitOn_intercalate '/' (fun n hn => (h n hn).unseparated) (by simp [hn]),
      foldl_descend h, List.nil_append]

/-- The text of an absolute path whose components are looked up as they are. -/
def Canonical (text : List Char) : Prop :=
  ∃ names, (∀ n ∈ names, ProperName n) ∧ text = absolute names

/-- Proper names have one such text. -/
theorem existsUnique_canonical {names : List (List Char)} (h : ∀ n ∈ names, ProperName n) :
    ∃! text, Canonical text ∧ resolve text = names := by
  refine ⟨absolute names, ⟨⟨names, h, rfl⟩, resolve_absolute h⟩, ?_⟩
  rintro text ⟨⟨names', h', rfl⟩, hresolve⟩
  rw [resolve_absolute h'] at hresolve
  rw [hresolve]

end IoTFS
