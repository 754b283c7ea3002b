import Mathlib.Algebra.BigOperators.Group.Finset.Basic
import Mathlib.Algebra.Order.BigOperators.Group.Finset
import Mathlib.Data.Fintype.Card
import Mathlib.Tactic.Abel

/-!
# What several parties hold together

Each of finitely many parties holds a part of something. When one of them acts, the whole
changes as its part does; and the parts of two of them are not more than the whole.
-/

namespace Shares

universe u v w
variable {T : Type u} {M : Type v} [Fintype T] [DecidableEq T]

section
variable [AddCommMonoid M]

/-- The whole changes as one part does where the other parts stay. -/
theorem sum_changed {f g : T → M} {t : T} (others : ∀ u, u ≠ t → f u = g u) :
    ∑ u, f u + g t = ∑ u, g u + f t := by
  have rest : ∑ u ∈ Finset.univ.erase t, f u = ∑ u ∈ Finset.univ.erase t, g u :=
    Finset.sum_congr rfl fun u hu => others u (Finset.ne_of_mem_erase hu)
  rw [← Finset.add_sum_erase Finset.univ f (Finset.mem_univ t), rest,
    ← Finset.add_sum_erase Finset.univ g (Finset.mem_univ t)]
  abel

theorem sum_update {γ : Type w} (f : γ → M) (g : T → γ) (t : T) (x : γ) :
    ∑ u, f (Function.update g t x u) + f (g t) = ∑ u, f (g u) + f x := by
  have changed := sum_changed (f := fun u => f (Function.update g t x u))
    (g := fun u => f (g u)) (t := t) fun u hu => by rw [Function.update_of_ne hu]
  rwa [Function.update_self] at changed

end

theorem add_le_sum (f : T → Nat) {t u : T} (other : t ≠ u) : f t + f u ≤ ∑ v, f v := by
  have rest := Finset.single_le_sum (fun v _ => Nat.zero_le (f v))
    (Finset.mem_erase.mpr ⟨Ne.symm other, Finset.mem_univ u⟩)
  have split := Finset.add_sum_erase Finset.univ f (Finset.mem_univ t)
  omega

omit [DecidableEq T] in
theorem le_sum (f : T → Nat) (t : T) : f t ≤ ∑ v, f v :=
  Finset.single_le_sum (fun v _ => Nat.zero_le (f v)) (Finset.mem_univ t)

end Shares
