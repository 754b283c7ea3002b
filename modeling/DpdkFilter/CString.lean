import Mathlib.Data.List.Basic

/-!
# C strings

A C string is the list of its characters before the terminating NUL.
-/

namespace CString

abbrev CStr := List Char

/-- The sign of `strncmp` and its zero are all its callers use; the value is the
difference of the first characters that differ, the end of a string counting as 0. -/
def strncmp : CStr → CStr → Nat → Int
  | _, _, 0 => 0
  | [], [], _ + 1 => 0
  | a :: _, [], _ + 1 => a.toNat
  | [], b :: _, _ + 1 => -b.toNat
  | a :: s, b :: t, n + 1 =>
    if a = b then strncmp s t n else (a.toNat : Int) - b.toNat

theorem toNat_sub_ne_zero {a b : Char} (h : a ≠ b) : (a.toNat : Int) - b.toNat ≠ 0 := by
  intro hz
  exact h (Char.toNat_inj.mp (by omega))

/-- With no NUL inside, comparing as many characters as the second string has
tests whether it is a prefix of the first. -/
theorem strncmp_length_eq_zero (s t : CStr) (ht : ∀ c ∈ t, c.toNat ≠ 0) :
    strncmp s t t.length = 0 ↔ t <+: s := by
  induction t generalizing s with
  | nil => simp [strncmp]
  | cons b t ih =>
    cases s with
    | nil =>
      have hb := ht b List.mem_cons_self
      simp only [List.length_cons, strncmp, List.prefix_nil, reduceCtorEq, iff_false]
      omega
    | cons a s =>
      simp only [List.length_cons, strncmp, List.cons_prefix_cons]
      by_cases hab : a = b
      · simpa [hab] using ih s (fun c hc => ht c (List.mem_cons_of_mem b hc))
      · simp only [hab, if_false, Ne.symm hab, false_and, iff_false]
        exact toNat_sub_ne_zero hab

end CString
