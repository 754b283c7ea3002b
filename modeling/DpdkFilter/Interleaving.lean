import Mathlib.Logic.Relation

/-!
# Runs of a step relation

A system is a set of initial states and a step relation; several parties acting
in any order are one relation whose steps are the steps of each. Invariants are
proved of one step and hold of every run, and a projection that maps steps to
steps maps runs to runs.
-/

namespace Interleaving

universe u v
variable {σ : Type u} {τ : Type v}

structure System (σ : Type u) where
  Init : σ → Prop
  Step : σ → σ → Prop

namespace System

def Reachable (S : System σ) (s : σ) : Prop :=
  ∃ s₀, S.Init s₀ ∧ Relation.ReflTransGen S.Step s₀ s

theorem Reachable.init {S : System σ} {s : σ} (h : S.Init s) : S.Reachable s :=
  ⟨s, h, .refl⟩

theorem Reachable.step {S : System σ} {s t : σ} (hs : S.Reachable s) (h : S.Step s t) :
    S.Reachable t := by
  obtain ⟨s₀, h₀, run⟩ := hs
  exact ⟨s₀, h₀, run.tail h⟩

/-- What holds at the start and survives a step holds in every reachable state. -/
theorem Reachable.invariant {S : System σ} {I : σ → Prop} (start : ∀ s, S.Init s → I s)
    (step : ∀ s t, I s → S.Step s t → I t) {s : σ} (hs : S.Reachable s) : I s := by
  obtain ⟨s₀, h₀, run⟩ := hs
  induction run with
  | refl => exact start s₀ h₀
  | tail _ h ih => exact step _ _ ih h

/-- A projection under which every step is a step or no change maps reachable
states to reachable states. -/
theorem Reachable.map {S : System σ} {T : System τ} (f : σ → τ)
    (start : ∀ s, S.Init s → T.Init (f s))
    (step : ∀ s t, S.Step s t → f t = f s ∨ T.Step (f s) (f t))
    {s : σ} (hs : S.Reachable s) : T.Reachable (f s) := by
  refine hs.invariant (I := fun s => T.Reachable (f s)) (fun s h => .init (start s h)) ?_
  intro s t hr h
  rcases step s t h with same | move
  · exact same ▸ hr
  · exact hr.step move

/-- Runs stay runs when more steps are allowed. -/
theorem Reachable.mono {S T : System σ} (start : ∀ s, S.Init s → T.Init s)
    (step : ∀ s t, S.Step s t → T.Step s t) {s : σ} (hs : S.Reachable s) : T.Reachable s :=
  hs.map id start (fun s t h => Or.inr (step s t h))

/-- A relation that every step of one system carries over to a step of the other, or to
none, relates each reachable state to a reachable one. -/
theorem Reachable.simulated {S : System σ} {T : System τ} (R : σ → τ → Prop)
    (start : ∀ s, S.Init s → ∃ t, T.Init t ∧ R s t)
    (step : ∀ s s' t, R s t → S.Step s s' → ∃ t', (t' = t ∨ T.Step t t') ∧ R s' t')
    {s : σ} (hs : S.Reachable s) : ∃ t, T.Reachable t ∧ R s t := by
  refine hs.invariant (I := fun s => ∃ t, T.Reachable t ∧ R s t) ?_ ?_
  · intro s h
    obtain ⟨t, ht, hR⟩ := start s h
    exact ⟨t, .init ht, hR⟩
  · rintro s s' ⟨t, ht, hR⟩ h
    obtain ⟨t', same | move, hR'⟩ := step s s' t hR h
    · exact ⟨t', same ▸ ht, hR'⟩
    · exact ⟨t', ht.step move, hR'⟩

/-- Follow a list of labels with an executable step function. -/
def follow {L : Type v} (exec : L → σ → Option σ) : List L → σ → Option σ
  | [], s => some s
  | l :: ls, s => (exec l s).bind (follow exec ls)

theorem Reachable.follow {L : Type v} {S : System σ} {exec : L → σ → Option σ}
    (sound : ∀ l s t, exec l s = some t → S.Step s t) {ls : List L} {s t : σ}
    (hs : S.Reachable s) (h : System.follow exec ls s = some t) : S.Reachable t := by
  induction ls generalizing s with
  | nil =>
    cases h
    exact hs
  | cons l ls ih =>
    obtain ⟨u, hu, rest⟩ := Option.bind_eq_some_iff.mp h
    exact ih (hs.step (sound l s u hu)) rest

end System

end Interleaving
