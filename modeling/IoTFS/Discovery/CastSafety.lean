import IoTFS.Discovery.Refinement

/-!
# When every cast succeeds

Over whole runs, the daemon survives exactly the orders of announcement in which each
new resource is safe against the demands of those announced before it. An end of a path
announced after a resource below it is not: its folder is already a plain `IoTFolder`.
-/

namespace IoTFS.Oic

variable {ι : Type} [DecidableEq ι] {P : Platform ι}

/-- Each announcement that finds its identifier new is safe against the demands of the
earlier ones, of which `es` are known at the start. -/
def SafeOrder (P : Platform ι) : List (Announcement ι) → List (Announcement ι) → Prop
  | _, [] => True
  | es, a :: as =>
    if Announced es a then SafeOrder P es as
    else (demands P es).Safe P.overwrites [] (a.path P) a.types ∧ SafeOrder P (es ++ [a]) as

/-- From a provider built so far, a calm run survives exactly the safe orders. -/
theorem Built.survives_iff {es : List (Announcement ι)} {w : Provider ι} (h : Built P es w)
    (as : List (Announcement ι)) (hcalm : ∀ a ∈ as, a.Calm) :
    (Machine.exec (announce P) w as).isSome ↔ SafeOrder P es as := by
  induction as generalizing es w with
  | nil => simp [SafeOrder]
  | cons a as ih =>
    have hrest : ∀ b ∈ as, b.Calm := fun b hb => hcalm b (List.mem_cons_of_mem _ hb)
    rw [Machine.exec_cons, SafeOrder]
    by_cases hk : w.Knows a
    · rw [announce_known hk, if_pos ((h.knows_iff a).mp hk)]
      exact ih h hrest
    · rw [if_neg fun hm => hk ((h.knows_iff a).mpr hm)]
      obtain ⟨hok, herr⟩ := h.announce_fresh (hcalm a (List.mem_cons_self ..)) hk
      by_cases hs : (demands P es).Safe P.overwrites [] (a.path P) a.types
      · obtain ⟨w', hw, hbuilt⟩ := hok hs
        rw [hw, Option.bind_some, ih hbuilt hrest, and_iff_right hs]
      · rw [herr hs]
        simp [hs]

/-- No cast fails along a run of announcements, whatever the identifiers, types and
replies, if and only if each new resource was safe when it was announced. -/
theorem casts_succeed_iff (P : Platform ι) (as : List (Announcement ι))
    (hcalm : ∀ a ∈ as, a.Calm) : (discover P as).isSome ↔ SafeOrder P [] as :=
  (built_initial P).survives_iff as hcalm

/-- A resource announced before the one whose path it extends. -/
def sampleNested : List (Announcement Str) :=
  [sampleAnnouncement "hall/a/light" ["core.light"] (sampleReply OC_STACK_OK "power"),
    sampleAnnouncement "hall/a" ["core.hub"] (sampleReply OC_STACK_OK "count")]

theorem casts_succeed_iff_sampleNested :
    ((discover samplePlatform sampleNested).isSome ↔ SafeOrder samplePlatform [] sampleNested) ∧
      (discover samplePlatform sampleNested.reverse).isSome = true := by
  refine ⟨casts_succeed_iff samplePlatform sampleNested ?_, ?_⟩
  · intro a ha
    simp only [sampleNested, List.mem_cons, List.not_mem_nil, or_false] at ha
    rcases ha with rfl | rfl <;> exact sampleAnnouncement_calm _ _ _
  · rw [discover_eq]
    decide +kernel

/-- The folder `a` is an `IoTFolder` by the time it is cast to an `OICFolder`. -/
theorem cast_fails_sampleNested :
    (∀ a ∈ sampleNested, a.Calm) ∧ discover samplePlatform sampleNested = none := by
  constructor
  · intro a ha
    simp only [sampleNested, List.mem_cons, List.not_mem_nil, or_false] at ha
    rcases ha with rfl | rfl <;> exact sampleAnnouncement_calm _ _ _
  · rw [← Option.isNone_iff_eq_none, discover_eq]
    decide +kernel

end IoTFS.Oic
