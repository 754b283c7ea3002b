import DpdkFilter.Interleaving
import Mathlib.Logic.Function.Basic

/-!
# Positions taken in order and given back in order

A party takes the next positions after the head, works on them, and gives them back
when the tail has come to the first of them. Any number of parties hold positions at
a time; what two of them hold never overlaps.
-/

namespace Tickets

universe u
variable {T : Type u}

/-- `holds t` is the first position that `t` has taken, and how many. -/
structure Counter (T : Type u) where
  tail : Nat
  head : Nat
  holds : T → Option (Nat × Nat)

namespace Counter

structure Ok (s : Counter T) : Prop where
  ordered : s.tail ≤ s.head
  positive : ∀ t a n, s.holds t = some (a, n) → 0 < n
  within : ∀ t a n, s.holds t = some (a, n) → s.tail ≤ a ∧ a + n ≤ s.head
  apart : ∀ t u a n b m, t ≠ u → s.holds t = some (a, n) → s.holds u = some (b, m) →
    a + n ≤ b ∨ b + m ≤ a
  covered : ∀ q, s.tail ≤ q → q < s.head → ∃ t a n, s.holds t = some (a, n) ∧ a ≤ q ∧ q < a + n

theorem Ok.start {tail : Nat} : (⟨tail, tail, fun _ => none⟩ : Counter T).Ok where
  ordered := Nat.le_refl _
  positive _ _ _ h := by cases h
  within _ _ _ h := by cases h
  apart _ _ _ _ _ _ _ h := by cases h
  covered _ hq hq' := False.elim (Nat.not_lt_of_le hq hq')

/-- Where positions are out, someone holds those at the tail. -/
theorem Ok.at_tail {s : Counter T} (ok : s.Ok) (out : s.tail < s.head) :
    ∃ t n, s.holds t = some (s.tail, n) := by
  obtain ⟨t, a, n, held, before, _⟩ := ok.covered s.tail (Nat.le_refl _) out
  have first : a = s.tail := Nat.le_antisymm before (ok.within t a n held).1
  exact ⟨t, n, first ▸ held⟩

/-- Where nobody holds positions, none are out. -/
theorem Ok.at_rest {s : Counter T} (ok : s.Ok) (rest : ∀ t, s.holds t = none) :
    s.tail = s.head := by
  by_contra out
  obtain ⟨t, n, held⟩ := ok.at_tail (Nat.lt_of_le_of_ne ok.ordered out)
  rw [rest t] at held
  cases held

variable [DecidableEq T]

/-- Take the next `n` positions. -/
def take (s : Counter T) (t : T) (n : Nat) : Counter T where
  tail := s.tail
  head := s.head + n
  holds := Function.update s.holds t (some (s.head, n))

/-- Give back `n` positions, which are those at the tail. -/
def giveBack (s : Counter T) (t : T) (n : Nat) : Counter T where
  tail := s.tail + n
  head := s.head
  holds := Function.update s.holds t none

/-- What is held after a take was held before, or is what was taken. -/
theorem holds_take {s : Counter T} {t u : T} {n a m : Nat}
    (h : (s.take t n).holds u = some (a, m)) :
    (u = t ∧ a = s.head ∧ m = n) ∨ (u ≠ t ∧ s.holds u = some (a, m)) := by
  by_cases hu : u = t
  · subst hu
    simp only [take, Function.update_self, Option.some.injEq, Prod.mk.injEq] at h
    exact Or.inl ⟨rfl, h.1.symm, h.2.symm⟩
  · simp only [take, Function.update_of_ne hu] at h
    exact Or.inr ⟨hu, h⟩

theorem holds_giveBack {s : Counter T} {t u : T} {n a m : Nat}
    (h : (s.giveBack t n).holds u = some (a, m)) : u ≠ t ∧ s.holds u = some (a, m) := by
  by_cases hu : u = t
  · subst hu
    simp only [giveBack, Function.update_self] at h
    cases h
  · simp only [giveBack, Function.update_of_ne hu] at h
    exact ⟨hu, h⟩

theorem Ok.take {s : Counter T} (ok : s.Ok) {t : T} {n : Nat} (free : s.holds t = none)
    (hn : 0 < n) : (s.take t n).Ok := by
  obtain ⟨ordered, positive, within, apart, covered⟩ := ok
  constructor
  · exact Nat.le_trans ordered (Nat.le_add_right _ _)
  · intro u a m h
    rcases holds_take h with ⟨_, _, rfl⟩ | ⟨_, hu⟩
    · exact hn
    · exact positive u a m hu
  · intro u a m h
    rcases holds_take h with ⟨_, rfl, rfl⟩ | ⟨_, hu⟩
    · exact ⟨ordered, Nat.le_refl _⟩
    · have inside := within u a m hu
      exact ⟨inside.1, Nat.le_trans inside.2 (Nat.le_add_right _ _)⟩
  · intro u v a m b k hne hu hv
    rcases holds_take hu with ⟨rfl, rfl, rfl⟩ | ⟨_, hu'⟩
    · rcases holds_take hv with ⟨same, _⟩ | ⟨_, hv'⟩
      · exact False.elim (hne same.symm)
      · exact Or.inr (within v b k hv').2
    · rcases holds_take hv with ⟨_, rfl, rfl⟩ | ⟨_, hv'⟩
      · exact Or.inl (within u a m hu').2
      · exact apart u v a m b k hne hu' hv'
  · intro q hq hq'
    by_cases old : q < s.head
    · obtain ⟨u, a, m, hu, haq, hqm⟩ := covered q hq old
      have other : u ≠ t := by
        rintro rfl
        rw [free] at hu
        cases hu
      exact ⟨u, a, m, (Function.update_of_ne other _ _).trans hu, haq, hqm⟩
    · exact ⟨t, s.head, n, Function.update_self _ _ _, Nat.le_of_not_lt old, hq'⟩

theorem Ok.giveBack {s : Counter T} (ok : s.Ok) {t : T} {n : Nat}
    (held : s.holds t = some (s.tail, n)) : (s.giveBack t n).Ok := by
  obtain ⟨ordered, positive, within, apart, covered⟩ := ok
  constructor
  · exact (within t _ n held).2
  · intro u a m h
    exact positive u a m (holds_giveBack h).2
  · intro u a m h
    obtain ⟨hne, hu⟩ := holds_giveBack h
    have inside := within u a m hu
    have filled := positive u a m hu
    refine ⟨?_, inside.2⟩
    -- positions before those given back would lie before the tail
    rcases apart t u _ n a m (Ne.symm hne) held hu with before | after
    · exact before
    · omega
  · intro u v a m b k hne hu hv
    exact apart u v a m b k hne (holds_giveBack hu).2 (holds_giveBack hv).2
  · intro q hq hq'
    obtain ⟨u, a, m, hu, haq, hqm⟩ := covered q (Nat.le_trans (Nat.le_add_right _ _) hq) hq'
    have other : u ≠ t := by
      rintro rfl
      rw [held] at hu
      cases hu
      exact Nat.not_lt_of_le hq hqm
    exact ⟨u, a, m, (Function.update_of_ne other _ _).trans hu, haq, hqm⟩

end Counter

end Tickets
