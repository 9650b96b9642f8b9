import Mathlib.Data.List.Basic
import Mathlib.Data.List.Infix

/-!
# Directory trees as maps from absolute paths

A tree maps each absolute path to at most one entry, and carries the proofs that
its root is a directory and that every entry lies in a directory. Adding under an
absent name stores one entry; adding under a taken name replaces the entry
together with everything below it.
-/

namespace IoTFS

/-- A directory tree with names `κ` and entries `α`; `isDir` tells the entries
that may hold others. -/
structure DirTree (κ : Type*) {α : Type*} (isDir : α → Bool) where
  /-- The entry stored at an absolute path. -/
  entry : List κ → Option α
  /-- The root is a directory. -/
  root : (entry []).any isDir = true
  /-- Every entry below the root lies in a directory. -/
  parent : ∀ p n, (entry (p ++ [n])).isSome → (entry p).any isDir = true

namespace DirTree

variable {κ α : Type*} {isDir : α → Bool}

/-- The tree holding nothing but its root directory. -/
def single (e : α) (h : isDir e = true) [DecidableEq κ] : DirTree κ isDir where
  entry q := if q = [] then some e else none
  root := by simpa using h
  parent p n hs := by simp at hs

/-- Looking a name up in the directory at `p`. -/
def find (t : DirTree κ isDir) (p : List κ) (n : κ) : Option α := t.entry (p ++ [n])

/-- Every proper prefix of an existing path is a directory. -/
theorem isDir_above (t : DirTree κ isDir) {p : List κ} (r : List κ) (hr : r ≠ [])
    (h : (t.entry (p ++ r)).isSome) : (t.entry p).any isDir = true := by
  induction r using List.reverseRecOn with
  | nil => exact absurd rfl hr
  | append_singleton r n ih =>
    rw [← List.append_assoc] at h
    have hd := t.parent _ _ h
    by_cases hn : r = []
    · simpa only [hn, List.append_nil] using hd
    · apply ih hn
      cases he : t.entry (p ++ r) with
      | none => simp [he] at hd
      | some e => rfl

/-- Nothing lies below an absent entry or below a plain file. -/
theorem entry_below (t : DirTree κ isDir) {p q : List κ}
    (hp : ¬ (t.entry p).any isDir = true) (hq : p <+: q) (hne : q ≠ p) :
    t.entry q = none := by
  obtain ⟨r, rfl⟩ := hq
  have hr : r ≠ [] := by
    intro h
    exact hne (by rw [h, List.append_nil])
  by_contra h
  exact hp (t.isDir_above r hr (Option.isSome_iff_ne_none.mpr h))

/-- A child's path is never a prefix of its parent's. -/
theorem not_prefix_parent (p : List κ) (n : κ) : ¬ p ++ [n] <+: p := by
  intro h
  have hl := h.length_le
  simp only [List.length_append, List.length_singleton] at hl
  omega

/-- The entry map after storing `e` under `n` in the directory at `p`. -/
def putEntry [DecidableEq κ] (t : DirTree κ isDir) (p : List κ) (n : κ) (e : α)
    (q : List κ) : Option α :=
  if (t.entry p).any isDir then
    if q = p ++ [n] then some e else if p ++ [n] <+: q then none else t.entry q
  else t.entry q

section Put

variable [DecidableEq κ]

private theorem putEntry_elsewhere (t : DirTree κ isDir) {p q : List κ} {n : κ} {e : α}
    (hq : ¬ p ++ [n] <+: q) : t.putEntry p n e q = t.entry q := by
  have hne : q ≠ p ++ [n] := by
    intro h
    exact hq (h ▸ List.prefix_rfl)
  simp [putEntry, hq, hne]

/-- Store `e` under `n` in the directory at `p`, dropping what was there before.
A path that is not a directory is left alone. -/
def put (t : DirTree κ isDir) (p : List κ) (n : κ) (e : α) : DirTree κ isDir where
  entry := t.putEntry p n e
  root := by
    rw [putEntry_elsewhere t (by simp)]
    exact t.root
  parent q m hs := by
    by_cases hp : (t.entry p).any isDir = true
    · by_cases hq : q ++ [m] = p ++ [n]
      · obtain ⟨rfl, -⟩ := List.append_inj' hq rfl
        rwa [putEntry_elsewhere t (not_prefix_parent _ _)]
      · by_cases hb : p ++ [n] <+: q ++ [m]
        · simp [putEntry, hp, hq, hb] at hs
        · have hq' : ¬ p ++ [n] <+: q := fun h => hb (h.trans (List.prefix_append _ _))
          rw [putEntry_elsewhere t hb] at hs
          rw [putEntry_elsewhere t hq']
          exact t.parent _ _ hs
    · simp only [putEntry, hp] at hs ⊢
      exact t.parent _ _ hs

variable {t : DirTree κ isDir} {p q : List κ} {n : κ} {e : α}

/-- What is found after storing into a directory. -/
theorem entry_put (hp : (t.entry p).any isDir = true) (q : List κ) :
    (t.put p n e).entry q =
      if q = p ++ [n] then some e else if p ++ [n] <+: q then none else t.entry q := if_pos hp

/-- The stored entry is the one read back. -/
theorem entry_put_self (hp : (t.entry p).any isDir = true) :
    (t.put p n e).entry (p ++ [n]) = some e := by
  simp [put, putEntry, hp]

/-- Paths that do not pass through the stored name are untouched. -/
theorem entry_put_elsewhere (hq : ¬ p ++ [n] <+: q) :
    (t.put p n e).entry q = t.entry q := putEntry_elsewhere t hq

/-- What lay below the stored name is gone. -/
theorem entry_put_below (hp : (t.entry p).any isDir = true) (hq : p ++ [n] <+: q)
    (hne : q ≠ p ++ [n]) : (t.put p n e).entry q = none := by
  simp [put, putEntry, hp, hq, hne]

/-- Storing under an absent name changes exactly that path. -/
theorem entry_put_absent (hp : (t.entry p).any isDir = true)
    (hn : t.entry (p ++ [n]) = none) (q : List κ) :
    (t.put p n e).entry q = if q = p ++ [n] then some e else t.entry q := by
  by_cases hq : q = p ++ [n]
  · subst hq
    rw [entry_put_self hp, if_pos rfl]
  · rw [if_neg hq]
    by_cases hb : p ++ [n] <+: q
    · rw [entry_put_below hp hb hq, t.entry_below (by simp [hn]) hb hq]
    · exact entry_put_elsewhere hb

/-- What was there before stays when the name was absent. -/
theorem entry_put_kept (hp : (t.entry p).any isDir = true) (hn : t.entry (p ++ [n]) = none)
    {x : α} (hq : t.entry q = some x) : (t.put p n e).entry q = some x := by
  have hne : q ≠ p ++ [n] := by
    rintro rfl
    rw [hn] at hq
    cases hq
  rw [entry_put_absent hp hn, if_neg hne, hq]

/-- An entry read after storing is the stored one, or it was there before and so was
everything above it. -/
theorem entry_put_cases (hp : (t.entry p).any isDir = true) {x : α}
    (hx : (t.put p n e).entry q = some x) :
    (q = p ++ [n] ∧ x = e) ∨
      (t.entry q = some x ∧ ∀ r, r <+: q → (t.put p n e).entry r = t.entry r) := by
  by_cases hq : q = p ++ [n]
  · subst hq
    rw [entry_put_self hp] at hx
    exact Or.inl ⟨rfl, (Option.some.inj hx).symm⟩
  · by_cases hb : p ++ [n] <+: q
    · rw [entry_put_below hp hb hq] at hx
      cases hx
    · refine Or.inr ⟨by rwa [entry_put_elsewhere hb] at hx, fun r hr => ?_⟩
      exact entry_put_elsewhere fun h => hb (h.trans hr)

/-- The directory written to is itself unchanged. -/
theorem entry_put_parent : (t.put p n e).entry p = t.entry p :=
  entry_put_elsewhere (not_prefix_parent p n)

end Put

section Modify

variable [DecidableEq κ]

/-- Change the entry at `p`, which stays a directory or stays none. -/
def modify (t : DirTree κ isDir) (p : List κ) (f : α → α) (hf : ∀ e, isDir (f e) = isDir e) :
    DirTree κ isDir where
  entry q := if q = p then (t.entry q).map f else t.entry q
  root := by
    have hroot := t.root
    split
    · rw [Option.any_map]
      simpa only [hf] using hroot
    · exact hroot
  parent q n hs := by
    have hq : (t.entry q).any isDir = true := by
      apply t.parent q n
      split at hs
      · rwa [Option.isSome_map] at hs
      · exact hs
    split
    · rw [Option.any_map]
      simpa only [hf] using hq
    · exact hq

variable {t : DirTree κ isDir} {p q : List κ} {f : α → α} {hf : ∀ e, isDir (f e) = isDir e}

theorem entry_modify (q : List κ) :
    (t.modify p f hf).entry q = if q = p then (t.entry q).map f else t.entry q := rfl

end Modify

end DirTree

end IoTFS
