import Mathlib.Algebra.Order.Ring.Int
import Mathlib.Data.List.Basic

/-!
# Words and their bytes

A little-endian machine loads the bytes `b0 b1` of a header as a word whose low
byte is `b0`; the protocol reads the same bytes with `b0` as the high byte. A
byte swap turns one reading into the other. Nothing here names a header.
-/

namespace ByteOrder

/-- The word a little-endian machine loads from two consecutive bytes. -/
def le16 (b0 b1 : UInt8) : UInt16 :=
  UInt16.ofNat (b0.toNat + 256 * b1.toNat)

def le32 (b0 b1 b2 b3 : UInt8) : UInt32 :=
  UInt32.ofNat (b0.toNat + 256 * b1.toNat + 65536 * b2.toNat + 16777216 * b3.toNat)

/-- The number two consecutive bytes denote in network byte order. -/
def be16 (b0 b1 : UInt8) : Nat :=
  256 * b0.toNat + b1.toNat

def be32 (b0 b1 b2 b3 : UInt8) : Nat :=
  16777216 * b0.toNat + 65536 * b1.toNat + 256 * b2.toNat + b3.toNat

def bswap16 (w : UInt16) : UInt16 :=
  UInt16.ofNat (256 * (w.toNat % 256) + w.toNat / 256)

def bswap32 (w : UInt32) : UInt32 :=
  UInt32.ofNat (16777216 * (w.toNat % 256) + 65536 * (w.toNat / 256 % 256) +
    256 * (w.toNat / 256 / 256 % 256) + w.toNat / 256 / 256 / 256)

@[simp] theorem le16_toNat (b0 b1 : UInt8) :
    (le16 b0 b1).toNat = b0.toNat + 256 * b1.toNat := by
  have h0 := b0.toNat_lt
  have h1 := b1.toNat_lt
  simp only [le16, UInt16.toNat_ofNat']
  omega

@[simp] theorem le32_toNat (b0 b1 b2 b3 : UInt8) :
    (le32 b0 b1 b2 b3).toNat =
      b0.toNat + 256 * b1.toNat + 65536 * b2.toNat + 16777216 * b3.toNat := by
  have h0 := b0.toNat_lt
  have h1 := b1.toNat_lt
  have h2 := b2.toNat_lt
  have h3 := b3.toNat_lt
  simp only [le32, UInt32.toNat_ofNat']
  omega

@[simp] theorem bswap16_toNat (w : UInt16) :
    (bswap16 w).toNat = 256 * (w.toNat % 256) + w.toNat / 256 := by
  have h := w.toNat_lt
  simp only [bswap16, UInt16.toNat_ofNat']
  omega

@[simp] theorem bswap32_toNat (w : UInt32) :
    (bswap32 w).toNat = 16777216 * (w.toNat % 256) + 65536 * (w.toNat / 256 % 256) +
      256 * (w.toNat / 256 / 256 % 256) + w.toNat / 256 / 256 / 256 := by
  have h := w.toNat_lt
  simp only [bswap32, UInt32.toNat_ofNat']
  omega

/-- Swapping the loaded word gives the number of the protocol. -/
theorem bswap16_le16 (b0 b1 : UInt8) : (bswap16 (le16 b0 b1)).toNat = be16 b0 b1 := by
  have h0 := b0.toNat_lt
  simp only [bswap16_toNat, le16_toNat, be16]
  omega

theorem le16_eq_iff (b0 b1 c0 c1 : UInt8) :
    le16 b0 b1 = le16 c0 c1 ↔ b0 = c0 ∧ b1 = c1 := by
  have h0 := b0.toNat_lt
  have h1 := c0.toNat_lt
  constructor
  · intro h
    have hn := congrArg UInt16.toNat h
    simp only [le16_toNat] at hn
    exact ⟨UInt8.toNat_inj.mp (by omega), UInt8.toNat_inj.mp (by omega)⟩
  · rintro ⟨rfl, rfl⟩
    rfl

/-- A stored word equals a loaded one exactly when, read in network byte order,
both are the same number. -/
theorem eq_le16_iff (w : UInt16) (b0 b1 : UInt8) :
    w = le16 b0 b1 ↔ (bswap16 w).toNat = be16 b0 b1 := by
  have hw := w.toNat_lt
  have h0 := b0.toNat_lt
  have h1 := b1.toNat_lt
  rw [← UInt16.toNat_inj]
  simp only [bswap16_toNat, le16_toNat, be16]
  constructor <;> intro h <;> omega

/-- The low digit of a number in base 256 and the rest are determined by it. -/
theorem digit_unique {a b c d : Nat} (ha : a < 256) (hc : c < 256)
    (h : a + 256 * b = c + 256 * d) : a = c ∧ b = d := by
  omega

theorem eq_le32_iff (w : UInt32) (b0 b1 b2 b3 : UInt8) :
    w = le32 b0 b1 b2 b3 ↔ (bswap32 w).toNat = be32 b0 b1 b2 b3 := by
  have hw := w.toNat_lt
  have h0 := b0.toNat_lt
  have h1 := b1.toNat_lt
  have h2 := b2.toNat_lt
  have h3 := b3.toNat_lt
  rw [← UInt32.toNat_inj]
  simp only [bswap32_toNat, le32_toNat, be32]
  constructor
  · intro h
    rw [h]
    omega
  · -- the digits of both sides are compared from the lowest one up
    intro h
    have low : w.toNat / 256 / 256 / 256 < 256 := by omega
    obtain ⟨e3, h⟩ := digit_unique (d := b2.toNat + 256 * (b1.toNat + 256 * b0.toNat))
      (b := w.toNat / 256 / 256 % 256 + 256 * (w.toNat / 256 % 256 + 256 * (w.toNat % 256)))
      low h3 (by omega)
    obtain ⟨e2, h⟩ := digit_unique (by omega) h2 h
    obtain ⟨e1, e0⟩ := digit_unique (by omega) h1 h
    omega

/-- The `i`-th byte of a word in memory order. -/
def byte16 (w : UInt16) (i : Nat) : UInt8 := UInt8.ofNat (w.toNat / 256 ^ i)

def byte32 (w : UInt32) (i : Nat) : UInt8 := UInt8.ofNat (w.toNat / 256 ^ i)

theorem eq_le16_iff_bytes (w : UInt16) (b0 b1 : UInt8) :
    w = le16 b0 b1 ↔ b0 = byte16 w 0 ∧ b1 = byte16 w 1 := by
  have hw := w.toNat_lt
  have h0 := b0.toNat_lt
  have h1 := b1.toNat_lt
  rw [← UInt16.toNat_inj, ← UInt8.toNat_inj, ← UInt8.toNat_inj]
  simp only [byte16, le16_toNat, UInt8.toNat_ofNat']
  constructor
  · intro h
    omega
  · rintro ⟨e0, e1⟩
    omega

theorem eq_le32_iff_bytes (w : UInt32) (b0 b1 b2 b3 : UInt8) :
    w = le32 b0 b1 b2 b3 ↔
      b0 = byte32 w 0 ∧ b1 = byte32 w 1 ∧ b2 = byte32 w 2 ∧ b3 = byte32 w 3 := by
  have hw := w.toNat_lt
  have h0 := b0.toNat_lt
  have h1 := b1.toNat_lt
  have h2 := b2.toNat_lt
  have h3 := b3.toNat_lt
  rw [← UInt32.toNat_inj, ← UInt8.toNat_inj, ← UInt8.toNat_inj, ← UInt8.toNat_inj,
    ← UInt8.toNat_inj]
  simp only [byte32, le32_toNat, UInt8.toNat_ofNat']
  constructor
  · intro h
    omega
  · rintro ⟨e0, e1, e2, e3⟩
    omega

theorem le32_inj {a b c d a' b' c' d' : UInt8} (h : le32 a b c d = le32 a' b' c' d') :
    a = a' ∧ b = b' ∧ c = c' ∧ d = d' := by
  obtain ⟨ha, hb, hc, hd⟩ := (eq_le32_iff_bytes (le32 a b c d) a b c d).mp rfl
  obtain ⟨ha', hb', hc', hd'⟩ := (eq_le32_iff_bytes (le32 a b c d) a' b' c' d').mp h
  exact ⟨ha.trans ha'.symm, hb.trans hb'.symm, hc.trans hc'.symm, hd.trans hd'.symm⟩

end ByteOrder
