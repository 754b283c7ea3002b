import Mathlib.Data.List.Basic

/-!
# Reading and writing stretches of memory

A stretch is read as a list and written from one. A write is read back, and what lies apart
from it is as before.
-/

namespace ByteMemory

universe u
variable {B : Type u}

/-- The `n` bytes from `a` on. -/
def bytes (mem : Nat → B) (a n : Nat) : List B := (List.range n).map fun i => mem (a + i)

def write (mem : Nat → B) (a : Nat) (data : List B) : Nat → B :=
  fun x => if a ≤ x then data[x - a]?.getD (mem x) else mem x

@[simp] theorem length_bytes (mem : Nat → B) (a n : Nat) : (bytes mem a n).length = n := by
  rw [bytes, List.length_map, List.length_range]

theorem bytes_getElem? (mem : Nat → B) (a : Nat) {n i : Nat} (h : i < n) :
    (bytes mem a n)[i]? = some (mem (a + i)) := by
  rw [bytes, List.getElem?_map, List.getElem?_range h, Option.map_some]

@[simp] theorem bytes_zero (mem : Nat → B) (a : Nat) : bytes mem a 0 = [] := rfl

theorem bytes_congr {mem mem' : Nat → B} {a n : Nat} (h : ∀ i < n, mem (a + i) = mem' (a + i)) :
    bytes mem a n = bytes mem' a n :=
  List.map_congr_left fun i hi => h i (List.mem_range.mp hi)

theorem bytes_add (mem : Nat → B) (a m n : Nat) :
    bytes mem a (m + n) = bytes mem a m ++ bytes mem (a + m) n := by
  rw [bytes, List.range_add, List.map_append, List.map_map]
  refine congrArg _ (List.map_congr_left fun i _ => ?_)
  exact congrArg mem (Nat.add_assoc a m i).symm

theorem take_bytes (mem : Nat → B) (a : Nat) {n k : Nat} (h : k ≤ n) :
    (bytes mem a n).take k = bytes mem a k := by
  obtain ⟨r, rfl⟩ := Nat.exists_eq_add_of_le h
  rw [bytes_add, List.take_left' (length_bytes mem a k)]

theorem drop_bytes (mem : Nat → B) (a : Nat) {n k : Nat} (h : k ≤ n) :
    (bytes mem a n).drop k = bytes mem (a + k) (n - k) := by
  obtain ⟨r, rfl⟩ := Nat.exists_eq_add_of_le h
  rw [bytes_add, List.drop_left' (length_bytes mem a k), Nat.add_sub_cancel_left]

theorem write_before (mem : Nat → B) {a x : Nat} (data : List B) (h : x < a) :
    write mem a data x = mem x :=
  if_neg (Nat.not_le_of_gt h)

theorem write_after (mem : Nat → B) {a x : Nat} {data : List B} (h : a + data.length ≤ x) :
    write mem a data x = mem x := by
  rw [write, if_pos (by omega), List.getElem?_eq_none (by omega), Option.getD_none]

/-- A write is read back. -/
theorem bytes_write (mem : Nat → B) (a : Nat) (data : List B) :
    bytes (write mem a data) a data.length = data := by
  apply List.ext_getElem?
  intro i
  by_cases inside : i < data.length
  · rw [bytes_getElem? _ _ inside, write, if_pos (Nat.le_add_right a i), Nat.add_sub_cancel_left,
      List.getElem?_eq_getElem inside, Option.getD_some]
  · rw [List.getElem?_eq_none (by rw [length_bytes]; omega), List.getElem?_eq_none (by omega)]

/-- What lies apart from a write is as before. -/
theorem bytes_write_apart (mem : Nat → B) {a b n : Nat} {data : List B}
    (apart : b + n ≤ a ∨ a + data.length ≤ b) :
    bytes (write mem a data) b n = bytes mem b n := by
  refine bytes_congr fun i hi => ?_
  rcases apart with before | after
  · exact write_before mem data (by omega)
  · exact write_after mem (by omega)

/-- A write of a list and then of another one after it. -/
theorem write_append (mem : Nat → B) (a : Nat) (xs ys : List B) :
    write mem a (xs ++ ys) = write (write mem a xs) (a + xs.length) ys := by
  funext x
  simp only [write]
  by_cases first : x - a < xs.length
  · split
    · rw [List.getElem?_append_left first, if_neg (by omega)]
    · rw [if_neg (by omega)]
  · split
    · rw [List.getElem?_append_right (Nat.le_of_not_gt first), if_pos (by omega), Nat.sub_sub,
        List.getElem?_eq_none (Nat.le_of_not_gt first), Option.getD_none]
    · rw [if_neg (by omega)]

end ByteMemory
