import Mathlib.Data.List.Basic
import Mathlib.Data.List.Induction

/-!
# Decimal numerals

A numeral is a nonempty list of digits; its value is read from the left. A canonical
numeral has no leading zero and is the only spelling of its value.
-/

namespace Decimal

def Numeral (s : List Char) : Prop := s ≠ [] ∧ ∀ c ∈ s, c.isDigit = true

instance (s : List Char) : Decidable (Numeral s) :=
  have : Decidable (∀ c ∈ s, c.isDigit = true) := List.decidableBAll _ s
  inferInstanceAs (Decidable (s ≠ [] ∧ ∀ c ∈ s, c.isDigit = true))

def value (s : List Char) : Nat := Nat.ofDigitChars 10 s 0

def Canonical (s : List Char) : Prop := Numeral s ∧ (s.length = 1 ∨ s.head? ≠ some '0')

theorem value_append_digit (s : List Char) (c : Char) :
    value (s ++ [c]) = 10 * value s + (c.toNat - 48) := by
  rw [value, Nat.ofDigitChars_append, Nat.ofDigitChars_cons, Nat.ofDigitChars_nil]
  rfl

theorem digit_bounds {c : Char} (h : c.isDigit = true) : 48 ≤ c.toNat ∧ c.toNat ≤ 57 := by
  simp only [Char.isDigit, Bool.and_eq_true, decide_eq_true_eq] at h
  constructor
  · exact h.1
  · exact h.2

theorem digitChar_digit {c : Char} (h : c.isDigit = true) : Nat.digitChar (c.toNat - 48) = c := by
  obtain ⟨low, high⟩ := digit_bounds h
  apply Char.toNat_inj.mp
  rw [Nat.toNat_digitChar_of_lt_ten (by omega)]
  omega

theorem toDigits_head_ne_zero {n : Nat} (pos : 0 < n) : (Nat.toDigits 10 n).head? ≠ some '0' := by
  induction n using Nat.strongRecOn with
  | ind n ih =>
    by_cases small : n < 10
    · intro h
      rw [Nat.toDigits_of_lt_base small, List.head?_cons, Option.some.injEq] at h
      have same := congrArg Char.toNat h
      rw [Nat.toNat_digitChar_of_lt_ten small] at same
      change 48 + n = 48 at same
      omega
    · rw [Nat.toDigits_of_base_le (by decide) (by omega),
        List.head?_append_of_ne_nil _ Nat.toDigits_ne_nil]
      exact ih (n / 10) (by omega) (by omega)

theorem canonical_toDigits (n : Nat) : Canonical (Nat.toDigits 10 n) := by
  constructor
  · constructor
    · exact Nat.toDigits_ne_nil
    · intro c hc
      exact Nat.isDigit_of_mem_toDigits (by decide) (by decide) hc
  · by_cases small : n < 10
    · apply Or.inl
      rw [Nat.toDigits_of_lt_base small, List.length_singleton]
    · exact Or.inr (toDigits_head_ne_zero (by omega))

theorem value_toDigits (n : Nat) : value (Nat.toDigits 10 n) = n :=
  Nat.ofDigitChars_ten_toDigits

/-- A canonical numeral is the spelling of its value. -/
theorem toDigits_value {s : List Char} (h : Canonical s) : Nat.toDigits 10 (value s) = s := by
  induction s using List.reverseRecOn with
  | nil => exact absurd rfl h.1.1
  | append_singleton s c ih =>
    obtain ⟨⟨_, digits⟩, lead⟩ := h
    have digit := digits c (by simp)
    obtain ⟨low, high⟩ := digit_bounds digit
    rw [value_append_digit]
    by_cases first : s = []
    · subst first
      change Nat.toDigits 10 (10 * 0 + (c.toNat - 48)) = [c]
      rw [Nat.toDigits_of_lt_base (by omega)]
      simp [digitChar_digit digit]
    · -- more than one digit, so the first of them is not zero
      have head : s.head? ≠ some '0' := by
        rcases lead with one | head
        · rw [List.length_append, List.length_singleton] at one
          exact absurd (List.length_eq_zero_iff.mp (by omega)) first
        · rwa [List.head?_append_of_ne_nil _ first] at head
      have front := ih ⟨⟨first, fun d hd => digits d (by simp [hd])⟩, Or.inr head⟩
      have pos : 0 < value s := by
        apply Nat.pos_of_ne_zero
        intro zero
        rw [zero, Nat.toDigits_zero] at front
        exact head (by rw [← front]; rfl)
      rw [← Nat.toDigits_append_toDigits (by decide) pos (by omega), front,
        Nat.toDigits_of_lt_base (by omega), digitChar_digit digit]

/-- One value has one canonical numeral. -/
theorem canonical_iff {s : List Char} {n : Nat} :
    Canonical s ∧ value s = n ↔ s = Nat.toDigits 10 n := by
  constructor
  · rintro ⟨canonical, rfl⟩
    exact (toDigits_value canonical).symm
  · rintro rfl
    exact ⟨canonical_toDigits n, value_toDigits n⟩

/-! ## Parts of a text -/

/-- A text splits at a separator into given parts exactly if it is their join. -/
theorem splitOn_eq_iff {x : Char} {s : List Char} {parts : List (List Char)} (some_ : parts ≠ [])
    (clean : ∀ p ∈ parts, x ∉ p) : s.splitOn x = parts ↔ s = [x].intercalate parts := by
  constructor
  · rintro rfl
    exact (List.intercalate_splitOn x).symm
  · rintro rfl
    exact List.splitOn_intercalate x clean some_

theorem Numeral.not_mem {s : List Char} (h : Numeral s) {x : Char} (other : x.isDigit = false) :
    x ∉ s := by
  intro hx
  have digit := h.2 x hx
  rw [other] at digit
  cases digit

end Decimal
