import IoTFS.Discovery.Refinement

/-!
# What a run of discovery builds

The tree of a run is the one the layout of its demands describes, path by path, and only the
first announcement of each identifier makes demands.
-/

namespace IoTFS.Oic

variable {ι : Type} {P : Platform ι} {es as : List (Announcement ι)}

theorem announced_append {bs : List (Announcement ι)} {a : Announcement ι} :
    Announced (es ++ bs) a ↔ Announced es a ∨ Announced bs a := by
  simp only [Announced, List.map_append, List.mem_append]

/-- An element of a list is its head, or lies in the rest. -/
theorem exists_split_cons {α : Type} {p : List α → Prop} {a e : α} {as : List α} :
    (∃ pre post, a :: as = pre ++ e :: post ∧ p pre) ↔
      (e = a ∧ p []) ∨ ∃ pre post, as = pre ++ e :: post ∧ p (a :: pre) := by
  constructor
  · rintro ⟨pre, post, has, hp⟩
    cases pre with
    | nil =>
      cases has
      exact .inl ⟨rfl, hp⟩
    | cons b pre =>
      cases has
      exact .inr ⟨pre, post, rfl, hp⟩
  · rintro (⟨rfl, hp⟩ | ⟨pre, post, rfl, hp⟩)
    · exact ⟨[], as, rfl, hp⟩
    · exact ⟨a :: pre, post, rfl, hp⟩

variable [DecidableEq ι]

/-- The announcements that find their identifier new, after those of `es`. -/
def firstsFrom : List (Announcement ι) → List (Announcement ι) → List (Announcement ι)
  | es, [] => es
  | es, a :: as => firstsFrom (if Announced es a then es else es ++ [a]) as

/-- The first announcement of each identifier. -/
def firsts (as : List (Announcement ι)) : List (Announcement ι) := firstsFrom [] as

/-- From a provider built so far, a calm run builds the demands of the new identifiers. -/
theorem Built.of_exec {w w' : Provider ι} (h : Built P es w) (hcalm : ∀ a ∈ as, a.Calm)
    (hrun : Machine.exec (announce P) w as = some w') : Built P (firstsFrom es as) w' := by
  induction as generalizing es w with
  | nil =>
    cases hrun
    exact h
  | cons a as ih =>
    have hrest : ∀ b ∈ as, b.Calm := fun b hb => hcalm b (List.mem_cons_of_mem _ hb)
    obtain ⟨v, hv, hrun⟩ := Option.bind_eq_some_iff.mp hrun
    rw [firstsFrom]
    by_cases hk : w.Knows a
    · rw [announce_known hk] at hv
      cases hv
      rw [if_pos ((h.knows_iff a).mp hk)]
      exact ih h hrest hrun
    · rw [if_neg fun hm => hk ((h.knows_iff a).mpr hm)]
      exact ih (h.of_announce (hcalm a (List.mem_cons_self ..)) hk hv).2 hrest hrun

/-- The new announcements are those before which their identifier was not announced. -/
theorem mem_firstsFrom {e : Announcement ι} : e ∈ firstsFrom es as ↔
    e ∈ es ∨ ∃ pre post, as = pre ++ e :: post ∧ ¬ Announced (es ++ pre) e := by
  induction as generalizing es with
  | nil => simp [firstsFrom]
  | cons a as ih =>
    rw [firstsFrom, ih, exists_split_cons (p := fun pre => ¬ Announced (es ++ pre) e)]
    by_cases ha : Announced es a
    · have hsame (pre : List (Announcement ι)) :
          Announced (es ++ a :: pre) e ↔ Announced (es ++ pre) e := by
        rw [← List.singleton_append, announced_append, announced_append, announced_append]
        constructor
        · rintro (hes | hea | hpre)
          · exact .inl hes
          · have hid : e.resource.uniqueIdentifier = a.resource.uniqueIdentifier :=
              List.mem_singleton.mp hea
            left
            rw [Announced, hid]
            exact ha
          · exact .inr hpre
        · rintro (hes | hpre)
          · exact .inl hes
          · exact .inr (.inr hpre)
      have hhead : ¬ (e = a ∧ ¬ Announced (es ++ []) e) := by
        rintro ⟨rfl, hne⟩
        rw [List.append_nil] at hne
        exact hne ha
      simp only [if_pos ha, hsame, hhead, false_or]
    · have hhead : e = a ∧ ¬ Announced (es ++ []) e ↔ e = a := by
        refine and_iff_left_of_imp ?_
        rintro rfl
        rwa [List.append_nil]
      rw [if_neg ha, hhead, List.mem_append, List.mem_singleton, or_assoc]
      simp only [List.append_assoc, List.singleton_append]

/-- No identifier is new twice. -/
theorem nodup_firstsFrom (h : (es.map fun e => e.resource.uniqueIdentifier).Nodup) :
    ((firstsFrom es as).map fun e => e.resource.uniqueIdentifier).Nodup := by
  induction as generalizing es with
  | nil => exact h
  | cons a as ih =>
    rw [firstsFrom]
    refine ih ?_
    split
    · exact h
    · rename_i hnew
      rw [List.map_append, List.nodup_append]
      refine ⟨h, List.nodup_singleton _, ?_⟩
      rintro x hx y hy rfl
      rw [List.map_singleton, List.mem_singleton] at hy
      exact hnew (by rwa [hy] at hx)

/-- In every undisturbed run of announcements that the daemon survives, in any order and with
any repetitions, the class of the entry at each path, or that there is none, is what the
layout of the demands of the first announcements says, and these are the resources known. -/
theorem discovery_refines_layout (P : Platform ι) (as : List (Announcement ι))
    (hcalm : ∀ a ∈ as, a.Calm) (w : Provider ι) (h : discover P as = some w) :
    (∀ q, (w.tree.entry q).map Entry.cls = (demands P (firsts as)).kind P.overwrites q) ∧
      w.resources = (firsts as).map (fun e => (e.resource.uniqueIdentifier, e.resource)) ∧
      (w.resources.map Prod.fst).Nodup ∧
      ∀ e, e ∈ firsts as ↔ ∃ pre post, as = pre ++ e :: post ∧ ¬ Announced pre e := by
  have hbuilt : Built P (firsts as) w := (built_initial P).of_exec hcalm h
  refine ⟨hbuilt.shows_demands, hbuilt.recorded, ?_, fun e => ?_⟩
  · rw [hbuilt.recorded, List.map_map]
    exact nodup_firstsFrom List.nodup_nil
  · rw [firsts, mem_firstsFrom]
    simp only [List.not_mem_nil, false_or, List.nil_append]

/-- The lamp is announced twice, the second time with another attribute. -/
def sampleTwice : List (Announcement Str) :=
  [sampleAnnouncement "hall/a/light" ["core.light"] (sampleReply OC_STACK_OK "power"),
    sampleAnnouncement "hall/a/light" ["core.light"] (sampleReply OC_STACK_OK "state")]

/-- Only the first announcement makes demands. -/
theorem discovery_refines_layout_sampleTwice : ∃ w : Provider Str,
    w.resources.length = 1 ∧
      (w.tree.entry (pieces "hall/a/light/core.light/state".toList)).map Entry.cls =
        (demands samplePlatform (firsts sampleTwice)).kind true
          (pieces "hall/a/light/core.light/state".toList) := by
  have hrun : (discover samplePlatform sampleTwice).any fun w => w.resources.length = 1 := by
    rw [discover_eq]
    decide +kernel
  obtain ⟨w, hw, hlen⟩ := (Option.any_eq_true _ _).mp hrun
  have hcalm : ∀ a ∈ sampleTwice, a.Calm := by
    intro a ha
    simp only [sampleTwice, List.mem_cons, List.not_mem_nil, or_false] at ha
    rcases ha with rfl | rfl <;> exact sampleAnnouncement_calm _ _ _
  exact ⟨w, of_decide_eq_true hlen,
    (discovery_refines_layout samplePlatform sampleTwice hcalm w hw).1 _⟩

end IoTFS.Oic
