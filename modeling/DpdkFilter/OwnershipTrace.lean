import Mathlib.Data.List.Forall2
import Mathlib.Data.List.Flatten
import Mathlib.Data.List.Pairwise

/-!
# Objects handed on one after the other

A trace deals with a list of objects in turn: each has a stretch of events that
use no other object, and the last event of the stretch, and no other, releases
it. Then every object is released exactly once and none is used afterwards.
-/

namespace OwnershipTrace

universe u v
variable {E : Type u} {K : Type v} (uses releases : E → Option K)

/-- The stretch of events that belongs to `k`. -/
structure Segment (k : K) (seg : List E) : Prop where
  only : ∀ e ∈ seg, ∀ k', uses e = some k' → k' = k
  released_last : ∃ before e, seg = before ++ [e] ∧ releases e = some k ∧
    ∀ e' ∈ before, releases e' = none

/-- No event uses what an earlier event has released. -/
def NoUseAfterRelease (events : List E) : Prop :=
  events.Pairwise fun e e' => ∀ k, releases e = some k → uses e' ≠ some k

variable {uses releases} {k : K} {seg : List E} {ks : List K} {segs : List (List E)}

theorem Segment.last {e : E} (only : ∀ k', uses e = some k' → k' = k) (he : releases e = some k) :
    Segment uses releases k [e] where
  only := by
    intro e' h k' hk
    cases List.mem_singleton.mp h
    exact only k' hk
  released_last := ⟨[], e, rfl, he, by simp⟩

/-- Events that use no other object and release none may stand in front. -/
theorem Segment.prepend {es : List E} (h : Segment uses releases k seg)
    (only : ∀ e ∈ es, ∀ k', uses e = some k' → k' = k) (none : ∀ e ∈ es, releases e = none) :
    Segment uses releases k (es ++ seg) where
  only := fun e he => (List.mem_append.mp he).elim (only e) (h.only e)
  released_last := by
    obtain ⟨before, e, rfl, he, quiet⟩ := h.released_last
    refine ⟨es ++ before, e, (List.append_assoc _ _ _).symm, he, fun e' he' => ?_⟩
    exact (List.mem_append.mp he').elim (none e') (quiet e')

theorem Segment.released (h : Segment uses releases k seg) : seg.filterMap releases = [k] := by
  obtain ⟨before, e, rfl, he, none⟩ := h.released_last
  have hb : before.filterMap releases = [] := List.filterMap_eq_nil_iff.mpr none
  simp [List.filterMap_append, hb, he]

theorem Segment.noUseAfterRelease (h : Segment uses releases k seg) :
    NoUseAfterRelease uses releases seg := by
  obtain ⟨before, e, rfl, _, none⟩ := h.released_last
  refine List.pairwise_append.mpr ⟨?_, List.pairwise_singleton _ _, ?_⟩
  · refine List.pairwise_of_forall_mem_list fun a ha b _ k hk => ?_
    exact absurd hk (by simp [none a ha])
  · intro a ha b _ k hk
    exact absurd hk (by simp [none a ha])

theorem released_flatten (h : List.Forall₂ (Segment uses releases) ks segs) :
    segs.flatten.filterMap releases = ks := by
  induction h with
  | nil => rfl
  | cons hseg _ ih => simp [List.filterMap_append, hseg.released, ih]

theorem uses_mem_flatten (h : List.Forall₂ (Segment uses releases) ks segs) {e : E} {k : K}
    (he : e ∈ segs.flatten) (hk : uses e = some k) : k ∈ ks := by
  induction h with
  | nil => simp at he
  | cons hseg _ ih =>
    rcases List.mem_append.mp (List.flatten_cons ▸ he) with here | later
    · exact hseg.only e here k hk ▸ List.mem_cons_self
    · exact List.mem_cons_of_mem _ (ih later)

theorem releases_mem_segment (h : Segment uses releases k seg) {e : E} {k' : K} (he : e ∈ seg)
    (hk : releases e = some k') : k' = k := by
  have hmem : k' ∈ seg.filterMap releases := List.mem_filterMap.mpr ⟨e, he, hk⟩
  rw [h.released] at hmem
  exact List.mem_singleton.mp hmem

theorem noUseAfterRelease_flatten (distinct : ks.Nodup)
    (h : List.Forall₂ (Segment uses releases) ks segs) :
    NoUseAfterRelease uses releases segs.flatten := by
  induction h with
  | nil => exact List.Pairwise.nil
  | cons hseg hrest ih =>
    obtain ⟨fresh, distinct⟩ := List.nodup_cons.mp distinct
    rw [List.flatten_cons]
    refine List.pairwise_append.mpr ⟨hseg.noUseAfterRelease, ih distinct, ?_⟩
    intro a ha b hb k hk used
    have hkey := releases_mem_segment hseg ha hk
    exact fresh (hkey ▸ uses_mem_flatten hrest hb used)

end OwnershipTrace
