import IoTFS.Core.Exec
import IoTFS.Oic.Discovery

/-!
# The path of a resource

The recursion of `createFolderByUri` visits the pieces of the identifier between the
separators, one level of the tree for each piece, which is named by its C string. Splitting
loses nothing, so distinct texts without a NUL have distinct paths.
-/

namespace IoTFS.Oic

open Exec

variable {ι : Type}

/-- The pieces of a uri between its separators, empty ones kept. -/
def pieces (uri : Str) : Path := uri.splitOn '/'

theorem pieces_ne_nil (uri : Str) : pieces uri ≠ [] := List.splitOn_ne_nil _ _

/-- Joining the pieces by the separator gives the uri back. -/
theorem intercalate_pieces (uri : Str) : ['/'].intercalate (pieces uri) = uri :=
  List.intercalate_splitOn _

/-- Distinct texts have distinct pieces. -/
theorem pieces_injective : Function.Injective pieces := by
  intro a b h
  rw [← intercalate_pieces a, h, intercalate_pieces]

/-- The names of the folders of a uri: its pieces as C strings. -/
def folderNames (uri : Str) : Path := (pieces uri).map cStr

theorem folderNames_ne_nil (uri : Str) : folderNames uri ≠ [] := by
  rw [folderNames, Ne, List.map_eq_nil_iff]
  exact pieces_ne_nil uri

/-- A character of a list is one of the lists joined. -/
theorem mem_intercalate {α : Type} {sep : List α} {ls : List (List α)} {l : List α} {c : α}
    (hl : l ∈ ls) (hc : c ∈ l) : c ∈ sep.intercalate ls := by
  induction ls with
  | nil => cases hl
  | cons x ls ih =>
    by_cases h : ls = []
    · subst h
      rw [List.mem_singleton] at hl
      rwa [List.intercalate_singleton, ← hl]
    · rw [List.intercalate_cons_of_ne_nil h, List.mem_append, List.mem_append]
      rcases List.mem_cons.mp hl with rfl | hl
      · exact Or.inl (Or.inl hc)
      · exact Or.inr (ih hl)

/-- The folders of a uri without a NUL are named by its pieces as they are. -/
theorem folderNames_eq_pieces {uri : Str} (h : nul ∉ uri) : folderNames uri = pieces uri := by
  refine map_cStr_eq_self fun piece hp hmem => h ?_
  rw [← intercalate_pieces uri]
  exact mem_intercalate hp hmem

/-- Without a separator the uri is its only piece. -/
theorem pieces_of_findIdx?_none {uri : Str} (h : uri.findIdx? (· = '/') = none) :
    pieces uri = [uri] := by
  rw [List.findIdx?_eq_none_iff] at h
  exact List.splitOn_eq_singleton fun hc => by simpa using h _ hc

/-- The first separator ends the first piece. -/
theorem pieces_of_findIdx?_some {uri : Str} {pos : Nat}
    (h : uri.findIdx? (· = '/') = some pos) :
    pieces uri = uri.take pos :: pieces (uri.drop (pos + 1)) := by
  obtain ⟨hlt, hsep, hbefore⟩ := List.findIdx?_eq_some_iff_getElem.mp h
  have hcut : uri = uri.take pos ++ '/' :: uri.drop (pos + 1) := by
    have hc : uri[pos] = '/' := by simpa using hsep
    rw [← hc, List.getElem_cons_drop, List.take_append_drop]
  have hclean : ∀ c ∈ uri.take pos, (c == '/') = false := by
    intro c hc
    obtain ⟨i, hi, rfl⟩ := List.mem_take_iff_getElem.mp hc
    have hn := hbefore i (by omega)
    simpa using hn
  calc pieces uri = (uri.take pos ++ '/' :: uri.drop (pos + 1)).splitOn '/' := by
        rw [← hcut, pieces]
    _ = uri.take pos :: pieces (uri.drop (pos + 1)) := by
        rw [List.splitOn_eq_splitOnP,
          List.splitOnP_append_cons_of_forall_mem hclean _ (by simp), pieces,
          List.splitOn_eq_splitOnP]

/-- A step from a folder to its child under a C string. -/
def stepTo (P : Platform ι) (a : Announcement ι) (this : Path) (name : Str) : Build ι Path := do
  if ((← get).tree.entry this).map Entry.cls = some .IoTFolder then
    findOrAdd P a .ioTFolder .IoTFolder this name
  else findOrAdd P a .oicFolder .OICFolder this name

/-- The recursion of `createFolderByUri` on the folder names of its uri. -/
def walk (P : Platform ι) (a : Announcement ι) (parent : Path) : List Str → Build ι Unit
  | [] => pure ()
  | [name] => do
    let folder ← findOrAdd P a .oicFolder .OICFolder parent name
    OICFolder.createResourceTypeFolder P a folder
  | name :: rest => do
    let step ← stepTo P a parent name
    walk P a step rest

theorem walk_cons (P : Platform ι) (a : Announcement ι) (parent : Path) (name : Str)
    {rest : List Str} (h : rest ≠ []) :
    walk P a parent (name :: rest) =
      (stepTo P a parent name >>= fun step => walk P a step rest) := by
  cases rest with
  | nil => exact absurd rfl h
  | cons s rest => rfl

/-- `createFolderByUri` walks the folder names of its uri. -/
theorem createFolderByUri_eq_walk (P : Platform ι) (a : Announcement ι) (parent : Path)
    (uri : Str) : createFolderByUri P a parent uri = walk P a parent (folderNames uri) := by
  fun_induction createFolderByUri P a parent uri with
  | case1 parent uri h =>
    rw [folderNames, pieces_of_findIdx?_none h]
    rfl
  | case2 parent uri pos h ih =>
    have hnames : folderNames uri = cStr (uri.take pos) :: folderNames (uri.drop (pos + 1)) := by
      rw [folderNames, pieces_of_findIdx?_some h, List.map_cons, folderNames]
    rw [hnames, walk_cons _ _ _ _ (folderNames_ne_nil _)]
    exact bind_congr fun step => ih step

/-- The provider once the identifier of `a` is recorded, before its folders are built. -/
def Provider.record (w : Provider ι) (a : Announcement ι) : Provider ι :=
  { w with resources := w.resources ++ [(a.resource.uniqueIdentifier, a.resource)], calls := 0 }

/-- The identifier of `a` is a key of `_resources`. -/
def Provider.Knows (w : Provider ι) (a : Announcement ι) : Prop :=
  a.resource.uniqueIdentifier ∈ w.resources.map Prod.fst

namespace Announcement

/-- The folder path of the announced resource. -/
def path (P : Platform ι) (a : Announcement ι) : Path :=
  folderNames (P.stream a.resource.uniqueIdentifier)

theorem path_ne_nil (P : Platform ι) (a : Announcement ι) : a.path P ≠ [] :=
  folderNames_ne_nil _

end Announcement

section Announce

variable [DecidableEq ι] {P : Platform ι} {w : Provider ι} {a : Announcement ι}

instance : Decidable (w.Knows a) := inferInstanceAs (Decidable (_ ∈ _))

/-- What the daemon keeps of the outcome of building a path: a standard exception is
swallowed, a dereferenced null is not survived. -/
def survive : EStateM.Result Fault (Provider ι) Unit → Option (Provider ι)
  | .ok _ w => some w
  | .error .exception w => some w
  | .error .nullCast _ => none

/-- An announcement, on the names of its path. -/
theorem announce_eq : announce P w a =
    if w.Knows a then some w else survive (walk P a [] (a.path P) (w.record a)) := by
  unfold announce foundResource
  rw [tryCatch_apply, handleResource, bind_apply, get_apply]
  by_cases hk : w.Knows a
  · have hmem : a.resource.uniqueIdentifier ∈ w.resources.map Prod.fst := hk
    simp only [hmem, not_true_eq_false, if_false, if_pos hk, pure_apply]
  · have hmem : a.resource.uniqueIdentifier ∉ w.resources.map Prod.fst := hk
    simp only [hmem, not_false_eq_true, if_true, if_neg hk, bind_apply, modify_apply,
      createFolderByUri_eq_walk]
    change _ = survive (walk P a [] (a.path P) (w.record a))
    rw [Provider.record, Announcement.path]
    cases walk P a [] (folderNames (P.stream a.resource.uniqueIdentifier)) _ with
    | ok _ t => rfl
    | error e t => cases e <;> rfl

/-- A recorded identifier is ignored. -/
theorem announce_known (h : w.Knows a) : announce P w a = some w := by
  rw [announce_eq, if_pos h]

/-- A new identifier is recorded and its path walked. -/
theorem announce_fresh (h : ¬ w.Knows a) :
    announce P w a = survive (walk P a [] (a.path P) (w.record a)) := by
  rw [announce_eq, if_neg h]

/-- A run of announcements, on the names of their paths. -/
theorem discover_eq (as : List (Announcement ι)) : discover P as =
    Machine.exec (fun w a =>
      if w.Knows a then some w else survive (walk P a [] (a.path P) (w.record a)))
      .initial as := by
  have hstep : announce P = fun w a =>
      if w.Knows a then some w else survive (walk P a [] (a.path P) (w.record a)) :=
    funext fun _ => funext fun _ => announce_eq
  rw [discover, hstep]

end Announce

/-- The folder path of a resource. -/
def OCResource.path (P : Platform ι) (r : OCResource ι) : Path :=
  folderNames (P.stream r.uniqueIdentifier)

/-- The text of the identifier is a C string. -/
def OCResource.NulFree (P : Platform ι) (r : OCResource ι) : Prop :=
  nul ∉ P.stream r.uniqueIdentifier

/-- Then its path is cut from the text as it is. -/
theorem OCResource.NulFree.path_eq {P : Platform ι} {r : OCResource ι} (h : r.NulFree P) :
    r.path P = pieces (P.stream r.uniqueIdentifier) := folderNames_eq_pieces h

/-- Resources with different identifiers have different paths once identifiers stream to
distinct C strings. -/
theorem OCResource.path_injective {P : Platform ι} (hinj : Function.Injective P.stream)
    {r r' : OCResource ι} (h : r.NulFree P) (h' : r'.NulFree P) (hp : r.path P = r'.path P) :
    r.uniqueIdentifier = r'.uniqueIdentifier := by
  rw [h.path_eq, h'.path_eq] at hp
  exact hinj (pieces_injective hp)

/-! ### A sample deployment -/

/-- A platform whose identifiers are the text they stream to. -/
def samplePlatform : Platform Str := ⟨id, sampleInterfaces, true⟩

/-- A reply listing one integer attribute. -/
def sampleReply (eCode : Int) (name : String) : Reply :=
  ⟨eCode, OCRepresentation.empty.setValue name.toList (.integer 0)⟩

/-- An undisturbed announcement of a resource with the default interface, every type of
which answers with the same reply. -/
def sampleAnnouncement (id : String) (types : List String) (reply : Reply) :
    Announcement Str where
  resource := ⟨id.toList, types.map String.toList, [sampleInterfaces.DEFAULT_INTERFACE]⟩
  replies _ := reply
  throws _ := false
  memory _ := 0

theorem sampleAnnouncement_calm (id : String) (types : List String) (reply : Reply) :
    (sampleAnnouncement id types reply).Calm := fun _ => rfl

/-- A file discovery makes for an attribute of a resource with the given interfaces. -/
def sampleCreated (interfaces : List Str) (v : AttributeValue) : OICFile Str :=
  newFile samplePlatform ⟨0, ⟨[], [], interfaces⟩⟩ 0 (['p'], v)

end IoTFS.Oic
