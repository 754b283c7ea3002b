import Mathlib.Algebra.Order.Ring.Int
import Mathlib.Data.List.Basic
import Mathlib.Logic.Function.Basic

/-!
# Circular buffers with one slot kept free

Positions run through `0 .. N-1` and wrap. The elements that stand in the buffer
are those from the read position up to, and without, the write position; a buffer
whose positions are equal is empty, so at most `N - 1` elements stand in it.
-/

namespace RingBuffer

universe u
variable {α : Type u} {N r w : Nat}

def next (N i : Nat) : Nat := if i + 1 = N then 0 else i + 1

/-- How many elements stand between two positions. -/
def dist (N r w : Nat) : Nat := if r ≤ w then w - r else N - r + w

/-- The position `i` places after `r`. -/
def slot (N r i : Nat) : Nat := if r + i < N then r + i else r + i - N

/-- What stands in the buffer, oldest first. -/
def contents (N : Nat) (buf : Nat → α) (r w : Nat) : List α :=
  (List.range (dist N r w)).map fun i => buf (slot N r i)

theorem next_eq_slot (hw : w < N) : next N w = slot N w 1 := by
  unfold next slot
  split <;> split <;> omega

theorem slot_lt {i : Nat} (hr : r < N) (hi : i ≤ N) : slot N r i < N := by
  unfold slot
  split <;> omega

theorem next_lt (hw : w < N) : next N w < N := by
  rw [next_eq_slot hw]
  exact slot_lt hw (by omega)

/-- On a power of two, masking the successor is what wraps it. -/
theorem and_mask_eq_next {k : Nat} (hw : w < 2 ^ k) : (w + 1) &&& (2 ^ k - 1) = next (2 ^ k) w := by
  rw [Nat.and_two_pow_sub_one_eq_mod]
  unfold next
  split
  · rename_i h
    rw [h, Nat.mod_self]
  · exact Nat.mod_eq_of_lt (by omega)

@[simp] theorem dist_self : dist N r r = 0 := by simp [dist]

theorem dist_lt (hr : r < N) (hw : w < N) : dist N r w < N := by
  unfold dist
  split <;> omega

theorem dist_eq_zero_iff (hr : r < N) : dist N r w = 0 ↔ r = w := by
  unfold dist
  split <;> omega

/-- The buffer is full where the next write position would be the read position. -/
theorem next_eq_iff_full (hr : r < N) (hw : w < N) : next N w = r ↔ dist N r w + 1 = N := by
  unfold dist next
  split <;> split <;> omega

@[simp] theorem slot_zero (hr : r < N) : slot N r 0 = r := by simp [slot, hr]

theorem slot_slot {i j : Nat} (hr : r < N) (hij : i + j < N) :
    slot N (slot N r i) j = slot N r (i + j) := by
  unfold slot
  split <;> split <;> split <;> omega

theorem slot_inj {i j : Nat} (hi : i < N) (hj : j < N)
    (h : slot N r i = slot N r j) : i = j := by
  unfold slot at h
  split at h <;> split at h <;> omega

theorem slot_dist (hr : r < N) (hw : w < N) : slot N r (dist N r w) = w := by
  unfold slot dist
  split <;> split <;> omega

/-- The slots from the write position on are the ones after those that stand. -/
theorem slot_write {i : Nat} (hr : r < N) (hw : w < N) (room : dist N r w + i < N) :
    slot N w i = slot N r (dist N r w + i) := by
  rw [← slot_slot hr room, slot_dist hr hw]

theorem dist_slot (hr : r < N) {i : Nat} (hi : i < N) : dist N r (slot N r i) = i := by
  unfold dist slot
  split <;> split <;> omega

theorem dist_advance_write {i : Nat} (hr : r < N) (hw : w < N) (room : dist N r w + i < N) :
    dist N r (slot N w i) = dist N r w + i := by
  rw [slot_write hr hw room, dist_slot hr room]

theorem dist_advance_read {k : Nat} (hw : w < N) (hk : k ≤ dist N r w) (hr : r < N) :
    dist N (slot N r k) w + k = dist N r w := by
  unfold dist slot at *
  split at hk <;> split <;> split <;> omega

@[simp] theorem contents_self (buf : Nat → α) : contents N buf r r = [] := by
  simp [contents]

@[simp] theorem contents_length (buf : Nat → α) :
    (contents N buf r w).length = dist N r w := by
  simp [contents]

/-- Only the slots from `r` up to `w` decide what stands in the buffer. -/
theorem contents_congr {buf buf' : Nat → α}
    (same : ∀ i, i < dist N r w → buf' (slot N r i) = buf (slot N r i)) :
    contents N buf' r w = contents N buf r w := by
  apply List.map_congr_left
  intro i hi
  exact same i (List.mem_range.mp hi)

/-- Advancing the write position appends what its slots hold. -/
theorem contents_advance_write (buf : Nat → α) {i : Nat} (hr : r < N) (hw : w < N)
    (room : dist N r w + i < N) :
    contents N buf r (slot N w i) =
      contents N buf r w ++ (List.range i).map fun j => buf (slot N w j) := by
  simp only [contents, dist_advance_write hr hw room, List.range_add, List.map_append,
    List.map_map]
  congr 1
  apply List.map_congr_left
  intro j hj
  have hj := List.mem_range.mp hj
  simp only [Function.comp, slot_write hr hw (show dist N r w + j < N by omega)]

/-- Advancing the read position removes what its slots hold. -/
theorem contents_advance_read (buf : Nat → α) {k : Nat} (hr : r < N) (hw : w < N)
    (hk : k ≤ dist N r w) :
    contents N buf r w =
      ((List.range k).map fun j => buf (slot N r j)) ++ contents N buf (slot N r k) w := by
  have hd := dist_advance_read hw hk hr
  have hlt := dist_lt hr hw
  simp only [contents]
  rw [← hd, Nat.add_comm, List.range_add, List.map_append, List.map_map]
  congr 1
  apply List.map_congr_left
  intro j hj
  have hj := List.mem_range.mp hj
  simp only [Function.comp, slot_slot hr (show k + j < N by omega)]

/-- A store into a slot past those that stand changes nothing that stands. -/
theorem contents_update_free (buf : Nat → α) (x : α) {i : Nat} (hr : r < N) (hw : w < N)
    (room : dist N r w + i < N) :
    contents N (Function.update buf (slot N w i) x) r w = contents N buf r w := by
  apply contents_congr
  intro j hj
  apply Function.update_of_ne
  rw [slot_write hr hw room]
  intro h
  have := slot_inj (by omega) room h
  omega

/-- Storing at the write position and then advancing it appends the element. -/
theorem contents_push (buf : Nat → α) (x : α) (hr : r < N) (hw : w < N) (room : next N w ≠ r) :
    contents N (Function.update buf w x) r (next N w) = contents N buf r w ++ [x] := by
  have hfull : dist N r w + 1 < N := by
    have hlt := dist_lt hr hw
    have hne := (next_eq_iff_full hr hw).not.mp room
    omega
  have hkeep := contents_update_free buf x hr hw (show dist N r w + 0 < N by omega)
  rw [slot_zero hw] at hkeep
  rw [next_eq_slot hw, contents_advance_write _ hr hw hfull, hkeep]
  simp [slot_zero hw]

theorem contents_pop (buf : Nat → α) (hr : r < N) (hw : w < N) (some : r ≠ w) :
    contents N buf r w = buf r :: contents N buf (next N r) w := by
  have hpos : 1 ≤ dist N r w := by
    have := (dist_eq_zero_iff (w := w) hr).not.mpr some
    omega
  rw [contents_advance_read buf hr hw hpos, next_eq_slot hr]
  simp [slot_zero hr]

end RingBuffer
