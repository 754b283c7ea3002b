import DpdkFilter.Decimal
import DpdkFilter.Options
import Mathlib.Data.List.TakeDrop
import Mathlib.Data.List.TakeWhile

/-!
# What an `ip:port` argument denotes

The C library's readers against the texts they are meant for: `inet_pton` takes the
dotted quads and nothing else, `atoi` takes any text.
-/

namespace IpPort

open ByteOrder CString Decimal FilterRules Mbuf Options

/-- The address `a.b.c.d`. -/
def dottedQuad (a b c d : UInt8) : CStr :=
  ['.'].intercalate [Nat.toDigits 10 a.toNat, Nat.toDigits 10 b.toNat, Nat.toDigits 10 c.toNat,
    Nat.toDigits 10 d.toNat]

/-- The argument `a.b.c.d:port`. -/
def ipPort (a b c d : UInt8) (port : CStr) : CStr := dottedQuad a b c d ++ ':' :: port

theorem isDigit_eq (c : Char) : Options.isDigit c = c.isDigit := by
  apply Bool.eq_iff_iff.mpr
  simp only [Options.isDigit, Char.isDigit, decide_eq_true_eq, Bool.and_eq_true]
  exact Iff.rfl

theorem digitsFrom_digits {s : CStr} (h : ∀ c ∈ s, c.isDigit = true) (n : Nat) :
    digitsFrom n s = Nat.ofDigitChars 10 s n := by
  induction s generalizing n with
  | nil => rfl
  | cons c s ih =>
    rw [digitsFrom, isDigit_eq, if_pos (h c List.mem_cons_self),
      ih (fun d hd => h d (List.mem_cons_of_mem _ hd)), Nat.ofDigitChars_cons, Nat.mul_comm]
    rfl

theorem digitsFrom_numeral {s : CStr} (h : Numeral s) : digitsFrom 0 s = value s :=
  digitsFrom_digits h.2 0

theorem strtol_numeral {s : CStr} (h : Numeral s) : strtol s = min (value s : Int) (2 ^ 63 - 1) := by
  match s, h with
  | c :: rest, h =>
    obtain ⟨low, high⟩ := digit_bounds (h.2 c List.mem_cons_self)
    have space : isSpace c = false := by
      simp only [isSpace, decide_eq_false_iff_not]
      omega
    have minus : c ≠ '-' := by
      rintro rfl
      exact absurd low (by decide)
    have plus : c ≠ '+' := by
      rintro rfl
      exact absurd low (by decide)
    rw [strtol, List.dropWhile_cons_of_neg (by simp [space])]
    simp only [minus, plus, if_false, digitsFrom_numeral h]

/-- `atoi` keeps the low 32 bits of what fits `long`. -/
theorem atoi_numeral {s : CStr} (h : Numeral s) :
    atoi s = (min (value s : Int) (2 ^ 63 - 1)).bmod (2 ^ 32) := by
  rw [atoi, strtol_numeral h]

theorem atoi_small {s : CStr} (h : Numeral s) (small : value s < 65536) : atoi s = value s := by
  rw [atoi_numeral h, Int.min_eq_left (by omega)]
  exact Int.bmod_eq_of_le (by omega) (by omega)

theorem toUint16_toNat (i : Int) : ((toUint16 i).toNat : Int) = i % 65536 := by
  rw [toUint16, UInt16.toNat_ofNat']
  omega

/-- A numeral goes through `atoi` and the cast unharmed exactly if it fits 16 bits. -/
theorem toUint16_atoi_iff {s : CStr} (h : Numeral s) :
    (toUint16 (atoi s)).toNat = value s ↔ value s < 65536 := by
  constructor
  · intro kept
    rw [← kept]
    exact UInt16.toNat_lt _
  · intro small
    have cast := toUint16_toNat (atoi s)
    rw [atoi_small h small] at cast ⊢
    omega

theorem octet_iff {s : CStr} {b : UInt8} : octet s = some b ↔ s = Nat.toDigits 10 b.toNat := by
  have digits : s.all Options.isDigit = true ↔ ∀ c ∈ s, c.isDigit = true := by
    simp only [List.all_eq_true, isDigit_eq]
  rw [← canonical_iff, octet]
  constructor
  · intro h
    split at h
    · rename_i accepted
      obtain ⟨nonempty, all, lead, small⟩ := accepted
      have numeral : Numeral s := ⟨nonempty, digits.mp all⟩
      rw [digitsFrom_numeral numeral] at h small
      cases h
      refine ⟨⟨numeral, lead⟩, ?_⟩
      rw [UInt8.toNat_ofNat', Nat.mod_eq_of_lt (by omega)]
    · cases h
  · rintro ⟨⟨numeral, lead⟩, val⟩
    have small : value s ≤ 255 := by
      rw [val]
      exact Nat.le_of_lt_succ b.toNat_lt
    rw [digitsFrom_numeral numeral, if_pos ⟨numeral.1, digits.mpr numeral.2, lead, small⟩, val,
      UInt8.ofNat_toNat]

/-- `inet_pton` accepts the dotted quads, each as the word with its bytes in memory. -/
theorem inetPton_iff {s : CStr} {w : UInt32} :
    inetPton s = some w ↔ ∃ a b c d, s = dottedQuad a b c d ∧ w = le32 a b c d := by
  have clean : ∀ a b c d : UInt8, ∀ p ∈ [Nat.toDigits 10 a.toNat, Nat.toDigits 10 b.toNat,
      Nat.toDigits 10 c.toNat, Nat.toDigits 10 d.toNat], '.' ∉ p := by
    intro a b c d p hp
    have numeral : Numeral p := by
      simp only [List.mem_cons, List.not_mem_nil, or_false] at hp
      rcases hp with rfl | rfl | rfl | rfl <;> exact (canonical_toDigits _).1
    exact numeral.not_mem (by decide)
  constructor
  · intro h
    unfold inetPton at h
    split at h
    · rename_i a b c d parts
      obtain ⟨pa, pb, pc, pd, hs, ha, hb, hc, hd⟩ :
          ∃ pa pb pc pd, s.splitOn '.' = [pa, pb, pc, pd] ∧ octet pa = some a ∧
            octet pb = some b ∧ octet pc = some c ∧ octet pd = some d := by
        simp only [List.map_eq_cons_iff, List.map_eq_nil_iff] at parts
        obtain ⟨pa, _, hs, ha, pb, _, rfl, hb, pc, _, rfl, hc, pd, _, rfl, hd, rfl⟩ := parts
        exact ⟨pa, pb, pc, pd, hs, ha, hb, hc, hd⟩
      rw [octet_iff.mp ha, octet_iff.mp hb, octet_iff.mp hc, octet_iff.mp hd] at hs
      refine ⟨a, b, c, d, ?_, (Option.some.inj h).symm⟩
      exact (splitOn_eq_iff (List.cons_ne_nil _ _) (clean a b c d)).mp hs
    · cases h
  · rintro ⟨a, b, c, d, rfl, rfl⟩
    have parts := (splitOn_eq_iff (List.cons_ne_nil _ _) (clean a b c d)).mpr rfl
    unfold inetPton
    rw [dottedQuad, parts]
    simp only [List.map_cons, List.map_nil, octet_iff.mpr rfl]

/-- `strchr` finds the first colon. -/
theorem strchrColon_iff {s before after : CStr} :
    strchrColon s = some (before, after) ↔ s = before ++ ':' :: after ∧ ':' ∉ before := by
  rw [strchrColon, List.span_eq_takeWhile_dropWhile]
  constructor
  · intro h
    have whole := List.takeWhile_append_dropWhile (p := fun c => decide (c ≠ ':')) (l := s)
    generalize hrest : s.dropWhile (· ≠ ':') = rest at h whole
    cases rest with
    | nil => cases h
    | cons x rest =>
      cases h
      have stops := List.head_dropWhile_not (fun c => decide (c ≠ ':')) (l := s)
        (by rw [hrest]; exact List.cons_ne_nil _ _)
      have colon : x = ':' := by
        have head : decide (x ≠ ':') = false := by simpa only [hrest, List.head_cons] using stops
        exact not_not.mp (of_decide_eq_false head)
      subst colon
      refine ⟨whole.symm, fun hmem => ?_⟩
      exact absurd (List.mem_takeWhile_imp hmem) (by simp)
  · rintro ⟨rfl, clean⟩
    have all : ∀ c ∈ before, decide (c ≠ ':') = true := by
      intro c hc
      exact decide_eq_true fun same => clean (same ▸ hc)
    rw [List.takeWhile_append_of_pos all, List.dropWhile_append_of_pos all]
    simp

theorem colon_not_mem_dottedQuad (a b c d : UInt8) : ':' ∉ dottedQuad a b c d := by
  have clean (n : Nat) : ':' ∉ Nat.toDigits 10 n :=
    (canonical_toDigits n).1.not_mem (by decide)
  simp [dottedQuad, List.intercalate, clean]

theorem strchrColon_ipPort (a b c d : UInt8) (port : CStr) :
    strchrColon (ipPort a b c d port) = some (dottedQuad a b c d, port) :=
  strchrColon_iff.mpr ⟨rfl, colon_not_mem_dottedQuad a b c d⟩

theorem inetPton_dottedQuad (a b c d : UInt8) :
    inetPton (dottedQuad a b c d) = some (le32 a b c d) :=
  inetPton_iff.mpr ⟨a, b, c, d, rfl, rfl⟩

/-- An argument determines its address and its port text. -/
theorem ipPort_inj {a b c d a' b' c' d' : UInt8} {port port' : CStr}
    (h : ipPort a b c d port = ipPort a' b' c' d' port') :
    le32 a b c d = le32 a' b' c' d' ∧ port = port' := by
  have split := strchrColon_ipPort a b c d port
  rw [h, strchrColon_ipPort a' b' c' d' port', Option.some.injEq, Prod.mk.injEq] at split
  obtain ⟨quad, rfl⟩ := split
  refine ⟨?_, rfl⟩
  have addr := inetPton_dottedQuad a b c d
  rw [← quad, inetPton_dottedQuad, Option.some.injEq] at addr
  exact addr.symm

/-- What the two rule options accept: an address and a text that `atoi` takes to a port. -/
theorem parseIpPort_iff {ruleType : UInt8} {s : CStr} {arg : FilterRuleArg} :
    parseIpPort ruleType s = some arg ↔
      ∃ a b c d port, s = ipPort a b c d port ∧ 1 ≤ atoi port ∧ atoi port ≤ 65535 ∧
        arg = { ruleType := ruleType
                ip := le32 a b c d
                port := rteCpuToBe16 (toUint16 (atoi port)) } := by
  constructor
  · intro h
    unfold parseIpPort at h
    split at h
    · cases h
    · rename_i before after hcolon
      split at h
      · cases h
      · rename_i addr haddr
        dsimp only at h
        split at h
        · cases h
        · rename_i range
          obtain ⟨a, b, c, d, rfl, rfl⟩ := inetPton_iff.mp haddr
          exact ⟨a, b, c, d, after, (strchrColon_iff.mp hcolon).1, by omega, by omega,
            (Option.some.inj h).symm⟩
  · rintro ⟨a, b, c, d, port, rfl, low, high, rfl⟩
    have range : ¬ (atoi port ≤ 0 ∨ atoi port > 65535) := by omega
    simp only [parseIpPort, strchrColon_ipPort, inetPton_dottedQuad, if_neg range]

end IpPort
