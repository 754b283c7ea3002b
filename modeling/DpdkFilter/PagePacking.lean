import Mathlib.Algebra.Order.Ring.Int

/-!
# Packing blocks into pages

Blocks of one size are laid one after the other, each moved to the next page where it would
cross a boundary. The blocks before a boundary are those of the part before it, and a start
anywhere costs less than one block of the room that is needed from a boundary.
-/

namespace PagePacking

variable {page size : Nat}

def ceil (pos page : Nat) : Nat := (pos + (page - 1)) / page * page

/-- The first and the last byte of the block are in different pages. -/
def Crosses (page size pos : Nat) : Prop := pos / page ≠ (pos + (size - 1)) / page

instance (page size pos : Nat) : Decidable (Crosses page size pos) :=
  inferInstanceAs (Decidable (_ ≠ _))

/-- Where the next block goes. -/
def start (page size pos : Nat) : Nat := if Crosses page size pos then ceil pos page else pos

/-- At most `n` blocks from `pos` on, none of them beyond `limit`. -/
def pack (page size limit : Nat) : Nat → Nat → List Nat
  | 0, _ => []
  | n + 1, pos =>
    if start page size pos + size ≤ limit then
      start page size pos :: pack page size limit n (start page size pos + size)
    else []

/-- The room for blocks laid from a boundary on, with as many in a page as it can hold. -/
def room (page size : Nat) : Nat → Nat
  | 0 => 0
  | n + 1 => n / (page / size) * page + (n % (page / size) + 1) * size

theorem le_ceil (pos : Nat) (positive : 0 < page) : pos ≤ ceil pos page := by
  have h := Nat.div_add_mod (pos + (page - 1)) page
  have small := Nat.mod_lt (pos + (page - 1)) positive
  rw [ceil, Nat.mul_comm]
  omega

theorem dvd_ceil (pos page : Nat) : page ∣ ceil pos page := Nat.dvd_mul_left _ _

theorem ceil_le {pos b : Nat} (positive : 0 < page) (boundary : page ∣ b) (h : pos ≤ b) :
    ceil pos page ≤ b := by
  obtain ⟨k, rfl⟩ := boundary
  have below : (pos + (page - 1)) / page < k + 1 := by
    rw [Nat.div_lt_iff_lt_mul positive, Nat.add_mul, Nat.mul_comm k]
    omega
  rw [ceil, Nat.mul_comm page]
  exact Nat.mul_le_mul_right page (Nat.le_of_lt_succ below)

theorem ceil_of_dvd {b : Nat} (positive : 0 < page) (boundary : page ∣ b) : ceil b page = b :=
  Nat.le_antisymm (ceil_le positive boundary (Nat.le_refl b)) (le_ceil b positive)

/-- A block that crosses a boundary reaches the next one. -/
theorem ceil_lt_of_crosses {pos : Nat} (positive : 0 < page) (nonempty : 0 < size)
    (crosses : Crosses page size pos) : ceil pos page < pos + size := by
  have later : pos / page + 1 ≤ (pos + (size - 1)) / page :=
    Nat.lt_of_le_of_ne (Nat.div_le_div_right (Nat.le_add_right ..)) crosses
  have reach := Nat.mul_le_of_le_div page _ _ later
  have next : ceil pos page ≤ (pos / page + 1) * page := by
    refine ceil_le positive (Nat.dvd_mul_left _ _) ?_
    have h := Nat.div_add_mod pos page
    have small := Nat.mod_lt pos positive
    rw [Nat.add_mul, Nat.one_mul, Nat.mul_comm (pos / page)]
    omega
  omega

theorem not_crosses_boundary {b : Nat} (boundary : page ∣ b) (nonempty : 0 < size)
    (fits : size ≤ page) : ¬ Crosses page size b := by
  obtain ⟨k, rfl⟩ := boundary
  intro crosses
  apply crosses
  have positive : 0 < page := by omega
  rw [Nat.mul_div_cancel_left k positive, Nat.mul_add_div positive,
    Nat.div_eq_of_lt (by omega), Nat.add_zero]

theorem start_zero (size pos : Nat) : start 0 size pos = pos := by
  simp [start, Crosses]

theorem le_start (page size pos : Nat) : pos ≤ start page size pos := by
  rcases Nat.eq_zero_or_pos page with rfl | positive
  · exact Nat.le_of_eq (start_zero size pos).symm
  unfold start
  split
  · exact le_ceil pos positive
  · exact Nat.le_refl pos

theorem start_whole (pos : Nat) (nonempty : 0 < size) (fits : size ≤ page) :
    ¬ Crosses page size (start page size pos) := by
  unfold start
  split
  · exact not_crosses_boundary (dvd_ceil pos page) nonempty fits
  · rename_i whole
    exact whole

theorem start_boundary {b : Nat} (boundary : page ∣ b) (nonempty : 0 < size)
    (fits : size ≤ page) : start page size b = b :=
  if_neg (not_crosses_boundary boundary nonempty fits)

/-- A block that would go beyond a boundary starts there. -/
theorem start_eq_boundary {pos b : Nat} (boundary : page ∣ b) (nonempty : 0 < size)
    (fits : size ≤ page) (before : pos ≤ b) (beyond : b < start page size pos + size) :
    start page size pos = b := by
  have positive : 0 < page := by omega
  have upper : start page size pos ≤ b := by
    unfold start
    split
    · exact ceil_le positive boundary before
    · exact before
  have lower : b ≤ start page size pos := by
    by_contra inside
    apply start_whole pos nonempty fits
    obtain ⟨k, rfl⟩ := boundary
    have first : start page size pos / page < k := by
      rw [Nat.div_lt_iff_lt_mul positive, Nat.mul_comm]
      omega
    have last : k ≤ (start page size pos + (size - 1)) / page := by
      rw [Nat.le_div_iff_mul_le positive, Nat.mul_comm]
      omega
    unfold Crosses
    omega
  exact Nat.le_antisymm upper lower

/-- Without pages, blocks need only their own room. -/
theorem length_pack_zero {limit n pos : Nat} (enough : pos + n * size ≤ limit) :
    (pack 0 size limit n pos).length = n := by
  induction n generalizing pos with
  | zero => rfl
  | succ n ih =>
    rw [Nat.add_mul, Nat.one_mul] at enough
    rw [pack, start_zero, if_pos (by omega), List.length_cons, ih (by omega)]

/-- Where the next block goes is all that matters of a position. -/
theorem pack_congr {limit n pos pos' : Nat} (h : start page size pos = start page size pos') :
    pack page size limit n pos = pack page size limit n pos' := by
  cases n with
  | zero => rfl
  | succ n => rw [pack, pack, h]

/-- The blocks up to a boundary, and then those from there on. -/
theorem pack_split {limit n pos b : Nat} (boundary : page ∣ b) (nonempty : 0 < size)
    (fits : size ≤ page) (before : pos ≤ b) (inside : b ≤ limit) :
    pack page size limit n pos = pack page size b n pos ++
      pack page size limit (n - (pack page size b n pos).length) b := by
  induction n generalizing pos with
  | zero => rfl
  | succ n ih =>
    by_cases short : start page size pos + size ≤ b
    · have kept : pack page size b (n + 1) pos = start page size pos ::
          pack page size b n (start page size pos + size) := by
        rw [pack, if_pos short]
      rw [kept, pack, if_pos (by omega), ih short, List.length_cons, Nat.add_sub_add_right,
        List.cons_append]
    · have none : pack page size b (n + 1) pos = [] := by rw [pack, if_neg short]
      have here := start_eq_boundary boundary nonempty fits before (by omega)
      rw [none, List.nil_append, List.length_nil, Nat.sub_zero]
      exact pack_congr (here.trans (start_boundary boundary nonempty fits).symm)

theorem room_at {q r : Nat} (inside : r < page / size) :
    room page size (page / size * q + r + 1) = q * page + (r + 1) * size := by
  have many : 0 < page / size := by omega
  rw [room, Nat.mul_add_div many, Nat.div_eq_of_lt inside, Nat.add_zero, Nat.mul_add_mod,
    Nat.mod_eq_of_lt inside]

/-- A number of blocks, by the full pages before the last one. -/
theorem exists_pages (n : Nat) (nonempty : 0 < size) (fits : size ≤ page) :
    ∃ q r, r < page / size ∧ n = page / size * q + r :=
  ⟨n / (page / size), n % (page / size), Nat.mod_lt n (Nat.div_pos fits nonempty),
    (Nat.div_add_mod n (page / size)).symm⟩

theorem room_add_size_le (n : Nat) (nonempty : 0 < size) (fits : size ≤ page) :
    room page size n + size ≤ room page size (n + 1) := by
  have whole := Nat.div_mul_le_self page size
  cases n with
  | zero => simp [room]
  | succ n =>
    obtain ⟨q, r, inside, rfl⟩ := exists_pages n nonempty fits
    rw [room_at inside]
    by_cases last : r + 1 < page / size
    · rw [Nat.add_assoc _ r 1, room_at last, Nat.add_mul (r + 1) 1]
      omega
    · have full : r + 1 = page / size := by omega
      have next : page / size * q + r + 1 + 1 = page / size * (q + 1) + 0 + 1 := by
        rw [Nat.mul_add]
        omega
      rw [next, room_at (q := q + 1) (r := 0) (by omega), full, Nat.add_mul q 1]
      omega

theorem room_add_page (n : Nat) (nonempty : 0 < size) (fits : size ≤ page) :
    room page size (page / size + (n + 1)) = page + room page size (n + 1) := by
  obtain ⟨q, r, inside, rfl⟩ := exists_pages n nonempty fits
  have next : page / size + (page / size * q + r + 1) = page / size * (q + 1) + r + 1 := by
    rw [Nat.mul_add]
    omega
  rw [next, room_at inside, room_at inside, Nat.add_mul q 1]
  omega

theorem room_mono {n m : Nat} (nonempty : 0 < size) (fits : size ≤ page) (h : n ≤ m) :
    room page size n ≤ room page size m := by
  induction h with
  | refl => exact Nat.le_refl _
  | @step m _ ih =>
    have more := room_add_size_le m nonempty fits
    exact Nat.le_trans ih (Nat.le_trans (Nat.le_add_right _ size) more)

/-- After a page boundary and some blocks, the room for all of them holds the rest. -/
theorem length_pack_boundary {limit n b i : Nat} (nonempty : 0 < size) (fits : size ≤ page)
    (boundary : page ∣ b) (inside : i < page / size) (enough : b + room page size (i + n) ≤ limit) :
    (pack page size limit n (b + i * size)).length = n := by
  induction n generalizing b i with
  | zero => rfl
  | succ n ih =>
    have whole := Nat.div_mul_le_self page size
    have block : (i + 1) * size ≤ page :=
      Nat.le_trans (Nat.mul_le_mul_right size inside) whole
    rw [Nat.add_mul, Nat.one_mul] at block
    have here : start page size (b + i * size) = b + i * size := by
      obtain ⟨k, rfl⟩ := boundary
      refine if_neg (not_not.mpr ?_)
      rw [Nat.add_assoc, Nat.mul_add_div (by omega), Nat.mul_add_div (by omega),
        Nat.div_eq_of_lt (by omega), Nat.div_eq_of_lt (by omega)]
    have first : room page size (i + 1) ≤ room page size (i + (n + 1)) :=
      room_mono nonempty fits (by omega)
    have first' : room page size (i + 1) = i * size + size := by
      have one := room_at (q := 0) inside
      rwa [Nat.mul_zero, Nat.zero_add, Nat.zero_mul, Nat.zero_add, Nat.add_mul i 1,
        Nat.one_mul] at one
    rw [pack, here, if_pos (by omega), List.length_cons]
    congr 1
    by_cases next : i + 1 < page / size
    · have rest := ih boundary next (by rwa [Nat.add_right_comm, Nat.add_assoc])
      rwa [Nat.add_mul i 1, Nat.one_mul, ← Nat.add_assoc] at rest
    · cases n with
      | zero => rfl
      | succ n =>
        have full : i + 1 = page / size := by omega
        have boundary' : page ∣ b + page := Nat.dvd_add boundary (Nat.dvd_refl page)
        -- no other block goes into this page
        have beyond : page < i * size + size + size := by
          have h := Nat.lt_mul_div_succ page nonempty
          rw [← full, Nat.mul_comm, Nat.add_mul (i + 1) 1, Nat.add_mul i 1, Nat.one_mul] at h
          exact h
        have ahead := le_start page size (b + i * size + size)
        have moved : start page size (b + i * size + size) =
            start page size (b + page + 0 * size) := by
          rw [Nat.zero_mul, Nat.add_zero, start_boundary boundary' nonempty fits]
          exact start_eq_boundary boundary' nonempty fits (by omega) (by omega)
        have all := room_add_page n nonempty fits
        rw [pack_congr moved]
        refine ih boundary' (by omega) ?_
        rw [Nat.zero_add]
        rw [show i + (n + 1 + 1) = page / size + (n + 1) by omega, all] at enough
        omega

/-- Wherever the blocks begin, less than one more block is needed. -/
theorem length_pack {limit n pos : Nat} (nonempty : 0 < size) (fits : size ≤ page)
    (enough : pos + room page size n + (size - 1) ≤ limit) :
    (pack page size limit n pos).length = n := by
  induction n generalizing pos with
  | zero => rfl
  | succ n ih =>
    have more := room_add_size_le n nonempty fits
    by_cases crosses : Crosses page size pos
    · have here : start page size pos = ceil pos page := if_pos crosses
      have near := ceil_lt_of_crosses (by omega) nonempty crosses
      have same : start page size pos = start page size (ceil pos page + 0 * size) := by
        rw [Nat.zero_mul, Nat.add_zero, start_boundary (dvd_ceil pos page) nonempty fits, here]
      rw [pack_congr same]
      exact length_pack_boundary nonempty fits (dvd_ceil pos page) (Nat.div_pos fits nonempty)
        (by rw [Nat.zero_add]; omega)
    · have here : start page size pos = pos := if_neg crosses
      rw [pack, here, if_pos (by omega), List.length_cons, ih (by omega)]

end PagePacking
