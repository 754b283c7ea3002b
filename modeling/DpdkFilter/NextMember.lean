import Mathlib.Order.Interval.Finset.Nat

/-!
# Scans for the next member

A scan from `p` stops at the least member that is not below `p`, or at the bound `n`.
Counting the stops of repeated scans counts the members.
-/

namespace NextMember

variable {P Q : Nat → Prop} {n p q r : Nat}

/-- `q` is where a scan for members of `P` below `n` stops that starts at `p`. -/
structure IsNext (P : Nat → Prop) (n p q : Nat) : Prop where
  le : p ≤ q
  below : q ≤ n
  none_before : ∀ i, p ≤ i → i < q → ¬ P i
  member : q < n → P q

theorem IsNext.at_bound (P : Nat → Prop) (n : Nat) : IsNext P n n n where
  le := Nat.le_refl n
  below := Nat.le_refl n
  none_before := by omega
  member := by omega

theorem IsNext.here (h : P p) (lt : p < n) : IsNext P n p p where
  le := Nat.le_refl p
  below := Nat.le_of_lt lt
  none_before := by omega
  member := fun _ => h

/-- A start that is no member is passed over. -/
theorem IsNext.skip (h : ¬ P p) (next : IsNext P n (p + 1) q) : IsNext P n p q where
  le := Nat.le_of_succ_le next.le
  below := next.below
  none_before := by
    intro i hi lt
    by_cases first : i = p
    · exact first ▸ h
    · exact next.none_before i (by omega) lt
  member := next.member

/-- A scan of a larger set stops at a member of the smaller one first if it stops there. -/
theorem IsNext.of_superset (sub : ∀ i, P i → Q i) (next : IsNext Q n p q) (h : q < n → P q) :
    IsNext P n p q where
  le := next.le
  below := next.below
  none_before := fun i hi lt hp => next.none_before i hi lt (sub i hp)
  member := h

/-- A stop of the larger scan that is no member of the smaller set is passed over. -/
theorem IsNext.resume (sub : ∀ i, P i → Q i) (next : IsNext Q n p q) (h : ¬ P q)
    (rest : IsNext P n (q + 1) r) : IsNext P n p r where
  le := next.le.trans (Nat.le_of_succ_le rest.le)
  below := rest.below
  none_before := by
    intro i hi lt hp
    by_cases before : i < q
    · exact next.none_before i hi before (sub i hp)
    · by_cases stop : i = q
      · exact h (stop ▸ hp)
      · exact rest.none_before i (by omega) lt hp
  member := rest.member

variable [DecidablePred P]

theorem IsNext.filter_empty (next : IsNext P n p n) : (Finset.Ico p n).filter P = ∅ := by
  apply Finset.filter_eq_empty_iff.mpr
  intro i hi
  rw [Finset.mem_Ico] at hi
  exact next.none_before i hi.1 hi.2

theorem IsNext.card_succ (next : IsNext P n p q) (lt : q < n) :
    ((Finset.Ico p n).filter P).card = ((Finset.Ico (q + 1) n).filter P).card + 1 := by
  have parts : (Finset.Ico p n).filter P = insert q ((Finset.Ico (q + 1) n).filter P) := by
    ext i
    simp only [Finset.mem_filter, Finset.mem_Ico, Finset.mem_insert]
    constructor
    · rintro ⟨⟨low, high⟩, member⟩
      by_cases stop : i = q
      · exact Or.inl stop
      · have after : ¬ i < q := fun before => next.none_before i low before member
        exact Or.inr ⟨⟨by omega, high⟩, member⟩
    · rintro (rfl | ⟨⟨low, high⟩, member⟩)
      · exact ⟨⟨next.le, lt⟩, next.member lt⟩
      · have start := next.le
        exact ⟨⟨by omega, high⟩, member⟩
  rw [parts, Finset.card_insert_of_notMem]
  simp only [Finset.mem_filter, Finset.mem_Ico]
  omega

/-- Being below the number of members means being a member for every number exactly if the
members have no hole before them. -/
theorem lt_card_iff_member (bounded : ∀ i, P i → i < n) :
    (∀ i, i < ((Finset.Ico 0 n).filter P).card ↔ P i) ↔ ∀ i j, i < j → P j → P i := by
  constructor
  · intro agree i j lt member
    have below := (agree j).mpr member
    exact (agree i).mp (by omega)
  · intro lower i
    constructor
    · intro lt
      by_contra missing
      have few : (Finset.Ico 0 n).filter P ⊆ Finset.range i := by
        intro j hj
        rw [Finset.mem_filter] at hj
        rw [Finset.mem_range]
        by_contra far
        by_cases same : j = i
        · exact missing (same ▸ hj.2)
        · exact missing (lower i j (by omega) hj.2)
      have size := Finset.card_le_card few
      rw [Finset.card_range] at size
      omega
    · intro member
      have many : Finset.range (i + 1) ⊆ (Finset.Ico 0 n).filter P := by
        intro j hj
        rw [Finset.mem_range] at hj
        have inside : P j := by
          by_cases same : j = i
          · exact same ▸ member
          · exact lower j i (by omega) member
        rw [Finset.mem_filter, Finset.mem_Ico]
        exact ⟨⟨Nat.zero_le j, bounded j inside⟩, inside⟩
      have size := Finset.card_le_card many
      rw [Finset.card_range] at size
      omega

end NextMember
