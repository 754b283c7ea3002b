import DpdkFilter.SpscRing

/-!
# The FIFOs between application and kernel

Positions are 32-bit and wrap by masking, so a FIFO has a power of two as its
length; that and the bounds of the positions are carried by the type. Put and get
are those of a list, and what they do is what their accesses do one by one.
-/

namespace KniFifo

open RingBuffer SpscRing

universe u
variable {α : Type u}

def kniFifoCountMax : Nat := 1024

structure RteKniFifo (α : Type u) where
  write : Nat
  read : Nat
  len : Nat
  buffer : Nat → α
  sized : ∃ k, 0 < k ∧ k < 32 ∧ len = 2 ^ k
  write_lt : write < len
  read_lt : read < len

/-- `(i + 1) & (len - 1)` on 32 bits. -/
def advance (len i : Nat) : Nat := ((i + 1) % 2 ^ 32) &&& (len - 1)

/-- The loop of `kni_fifo_put`: the buffer, `fifo_write` and the count it ends with. -/
def putLoop (len fifoRead : Nat) : List α → Nat → (Nat → α) → (Nat → α) × Nat × Nat
  | [], fifoWrite, buffer => (buffer, fifoWrite, 0)
  | x :: data, fifoWrite, buffer =>
    let newWrite := advance len fifoWrite
    if newWrite = fifoRead then (buffer, fifoWrite, 0)
    else
      let (buffer, fifoWrite, i) :=
        putLoop len fifoRead data newWrite (Function.update buffer fifoWrite x)
      (buffer, fifoWrite, i + 1)

/-- The loop of `kni_fifo_get`: the elements read and `new_read`. -/
def getLoop (len fifoWrite : Nat) (buffer : Nat → α) : Nat → Nat → List α × Nat
  | 0, newRead => ([], newRead)
  | num + 1, newRead =>
    if newRead = fifoWrite then ([], newRead)
    else
      let (data, read) := getLoop len fifoWrite buffer num (advance len newRead)
      (buffer newRead :: data, read)

/-- `(len + write - read) & (len - 1)` on 32 bits; a FIFO has a positive length. -/
def fifoCount (len write read : Nat) : Nat :=
  match len with
  | 0 => 0
  | mask + 1 => ((mask + 1 + write + (2 ^ 32 - read)) % 2 ^ 32) &&& mask

/-- `(read - write - 1) & (len - 1)` on 32 bits. -/
def fifoFreeCount (len write read : Nat) : Nat :=
  match len with
  | 0 => 0
  | mask + 1 => ((read + (2 ^ 32 - write) + (2 ^ 32 - 1)) % 2 ^ 32) &&& mask

theorem fifoCount_eq {len : Nat} (h : 0 < len) (write read : Nat) :
    fifoCount len write read = ((len + write + (2 ^ 32 - read)) % 2 ^ 32) &&& (len - 1) := by
  cases len with
  | zero => omega
  | succ mask => rfl

theorem fifoFreeCount_eq {len : Nat} (h : 0 < len) (write read : Nat) :
    fifoFreeCount len write read =
      ((read + (2 ^ 32 - write) + (2 ^ 32 - 1)) % 2 ^ 32) &&& (len - 1) := by
  cases len with
  | zero => omega
  | succ mask => rfl

theorem advance_eq_next {k i : Nat} (hk : k < 32) (hi : i < 2 ^ k) :
    advance (2 ^ k) i = next (2 ^ k) i := by
  have hle : 2 ^ k ≤ 2 ^ 31 := Nat.pow_le_pow_right (by decide) (by omega)
  rw [advance, Nat.mod_eq_of_lt (by omega)]
  exact and_mask_eq_next hi

namespace RteKniFifo

/-- What stands in the FIFO, oldest first. -/
def standing (f : RteKniFifo α) : List α := contents f.len f.buffer f.read f.write

theorem advance_eq (f : RteKniFifo α) {i : Nat} (hi : i < f.len) :
    advance f.len i = next f.len i := by
  obtain ⟨k, _, hk, hlen⟩ := f.sized
  rw [hlen] at hi ⊢
  exact advance_eq_next hk hi

@[simp] theorem standing_length (f : RteKniFifo α) :
    f.standing.length = dist f.len f.read f.write :=
  contents_length f.buffer

/-- What the loop of a put leaves, from any write position on. -/
theorem putLoop_spec (f : RteKniFifo α) (data : List α) {w : Nat} (hw : w < f.len)
    (buffer : Nat → α) :
    let r := putLoop f.len f.read data w buffer
    r.2.1 < f.len ∧
      contents f.len r.1 f.read r.2.1 = contents f.len buffer f.read w ++ data.take r.2.2 ∧
      r.2.2 = min data.length (f.len - 1 - dist f.len f.read w) := by
  induction data generalizing w buffer with
  | nil => simp [putLoop, hw]
  | cons x data ih =>
    have hd := dist_lt f.read_lt hw
    simp only [putLoop, f.advance_eq hw]
    by_cases full : next f.len w = f.read
    · have := (next_eq_iff_full f.read_lt hw).mp full
      simp only [full, if_true, List.take_zero, List.append_nil, true_and]
      exact ⟨hw, by omega⟩
    · have room := (next_eq_iff_full f.read_lt hw).not.mp full
      have grown : dist f.len f.read (next f.len w) = dist f.len f.read w + 1 := by
        rw [next_eq_slot hw, dist_advance_write f.read_lt hw (by omega)]
      obtain ⟨hlt, hcontents, hcount⟩ := ih (next_lt hw) (Function.update buffer w x)
      simp only [full, if_false]
      refine ⟨hlt, ?_, ?_⟩
      · rw [hcontents, contents_push buffer x f.read_lt hw full, List.take_succ_cons,
          List.append_assoc]
        rfl
      · rw [hcount, grown, List.length_cons]
        omega

theorem getLoop_spec (f : RteKniFifo α) (num : Nat) {r : Nat} (hr : r < f.len) :
    let g := getLoop f.len f.write f.buffer num r
    g.2 < f.len ∧
      contents f.len f.buffer r f.write = g.1 ++ contents f.len f.buffer g.2 f.write ∧
      g.1.length = min num (dist f.len r f.write) := by
  induction num generalizing r with
  | zero => simp [getLoop, hr]
  | succ num ih =>
    simp only [getLoop, f.advance_eq hr]
    by_cases empty : r = f.write
    · simp [empty, f.write_lt]
    · obtain ⟨hlt, hcontents, hcount⟩ := ih (next_lt hr)
      have pop := contents_pop f.buffer hr f.write_lt empty
      have shrunk := congrArg List.length pop
      simp only [contents_length, List.length_cons] at shrunk
      simp only [empty, if_false]
      refine ⟨hlt, ?_, ?_⟩
      · rw [pop, hcontents]
        rfl
      · rw [List.length_cons, hcount, shrunk]
        omega

end RteKniFifo

/-- Add the elements of `data` and tell how many were added. -/
def kniFifoPut (f : RteKniFifo α) (data : List α) : RteKniFifo α × Nat :=
  let r := putLoop f.len f.read data f.write f.buffer
  ({ f with buffer := r.1, write := r.2.1, write_lt := (f.putLoop_spec data f.write_lt f.buffer).1 },
    r.2.2)

/-- Get up to `num` elements. -/
def kniFifoGet (f : RteKniFifo α) (num : Nat) : RteKniFifo α × List α :=
  let g := getLoop f.len f.write f.buffer num f.read
  ({ f with read := g.2, read_lt := (f.getLoop_spec num f.read_lt).1 }, g.1)

def kniFifoCount (f : RteKniFifo α) : Nat := fifoCount f.len f.write f.read

def kniFifoFreeCount (f : RteKniFifo α) : Nat := fifoFreeCount f.len f.write f.read

/-- `kni_fifo_init`; other sizes than powers of two panic. -/
def kniFifoInit (size : Nat) (sized : ∃ k, 0 < k ∧ k < 32 ∧ size = 2 ^ k) (buffer : Nat → α) :
    RteKniFifo α where
  write := 0
  read := 0
  len := size
  buffer := buffer
  sized := sized
  write_lt := by
    obtain ⟨k, _, _, rfl⟩ := sized
    exact Nat.two_pow_pos k
  read_lt := by
    obtain ⟨k, _, _, rfl⟩ := sized
    exact Nat.two_pow_pos k

@[simp] theorem kniFifoInit_standing (size : Nat) (sized : ∃ k, 0 < k ∧ k < 32 ∧ size = 2 ^ k)
    (buffer : Nat → α) : (kniFifoInit size sized buffer).standing = [] :=
  contents_self buffer

theorem kniFifoPut_standing (f : RteKniFifo α) (data : List α) :
    (kniFifoPut f data).1.standing = f.standing ++ data.take (kniFifoPut f data).2 :=
  (f.putLoop_spec data f.write_lt f.buffer).2.1

/-- As many elements are added as there is room for. -/
theorem kniFifoPut_count (f : RteKniFifo α) (data : List α) :
    (kniFifoPut f data).2 = min data.length (f.len - 1 - f.standing.length) := by
  rw [f.standing_length]
  exact (f.putLoop_spec data f.write_lt f.buffer).2.2

theorem kniFifoGet_standing (f : RteKniFifo α) (num : Nat) :
    f.standing = (kniFifoGet f num).2 ++ (kniFifoGet f num).1.standing :=
  (f.getLoop_spec num f.read_lt).2.1

theorem kniFifoGet_count (f : RteKniFifo α) (num : Nat) :
    (kniFifoGet f num).2.length = min num f.standing.length := by
  rw [f.standing_length]
  exact (f.getLoop_spec num f.read_lt).2.2

section
variable {k : Nat} (hk : k < 32)
include hk

theorem two_pow_le_half : 2 ^ k ≤ 2 ^ 31 := Nat.pow_le_pow_right (by decide) (by omega)

theorem wrap_eq : (2 ^ 32 : Nat) = 2 ^ k * 2 ^ (32 - k) := by
  rw [← Nat.pow_add]
  congr 1
  omega

/-- Wrapping at 32 bits does not show after the mask. -/
theorem wrap_mod (a : Nat) : a % 2 ^ 32 % 2 ^ k = a % 2 ^ k := by
  rw [wrap_eq hk, Nat.mod_mul_right_mod]

theorem add_wrap_mod (a : Nat) : (a + 2 ^ 32) % 2 ^ k = a % 2 ^ k := by
  rw [wrap_eq hk, Nat.add_mul_mod_self_left]

end

theorem kniFifoCount_eq (f : RteKniFifo α) : kniFifoCount f = f.standing.length := by
  obtain ⟨k, _, hk, hlen⟩ := f.sized
  have hw := f.write_lt
  have hr := f.read_lt
  have half := two_pow_le_half hk
  rw [kniFifoCount, fifoCount_eq (by omega), f.standing_length, hlen,
    Nat.and_two_pow_sub_one_eq_mod, wrap_mod hk]
  rw [hlen] at hw hr
  unfold RingBuffer.dist
  split
  · have : 2 ^ k + f.write + (2 ^ 32 - f.read) = f.write - f.read + 2 ^ k + 2 ^ 32 := by omega
    rw [this, add_wrap_mod hk, Nat.add_mod_right, Nat.mod_eq_of_lt (by omega)]
  · have : 2 ^ k + f.write + (2 ^ 32 - f.read) = 2 ^ k - f.read + f.write + 2 ^ 32 := by omega
    rw [this, add_wrap_mod hk, Nat.mod_eq_of_lt (by omega)]

theorem kniFifoFreeCount_eq (f : RteKniFifo α) :
    kniFifoFreeCount f = f.len - 1 - f.standing.length := by
  obtain ⟨k, _, hk, hlen⟩ := f.sized
  have hw := f.write_lt
  have hr := f.read_lt
  have half := two_pow_le_half hk
  rw [kniFifoFreeCount, fifoFreeCount_eq (by omega), f.standing_length, hlen,
    Nat.and_two_pow_sub_one_eq_mod, wrap_mod hk]
  rw [hlen] at hw hr
  unfold RingBuffer.dist
  split
  · -- 2^32 - 2^k is a multiple of the length as well
    have : f.read + (2 ^ 32 - f.write) + (2 ^ 32 - 1) + 2 ^ k =
        2 ^ k - 1 - (f.write - f.read) + 2 ^ 32 + 2 ^ 32 := by omega
    rw [← Nat.add_mod_right, this, add_wrap_mod hk, add_wrap_mod hk, Nat.mod_eq_of_lt (by omega)]
  · have : f.read + (2 ^ 32 - f.write) + (2 ^ 32 - 1) =
        2 ^ k - 1 - (2 ^ k - f.read + f.write) + 2 ^ 32 + 2 ^ 32 := by omega
    rw [this, add_wrap_mod hk, add_wrap_mod hk, Nat.mod_eq_of_lt (by omega)]

/-! ## The calls are their accesses -/

/-- The three words the parties share. -/
def RteKniFifo.words (f : RteKniFifo α) : Words α := ⟨f.write, f.read, f.buffer⟩

theorem putLoop_runs (f : RteKniFifo α) (all data : List α) {w i : Nat} (hw : w < f.len)
    (hdata : all.drop i = data) (words : Words α) :
    let r := putLoop f.len f.read data w words.buffer
    PutPc.Runs f.len words (.store all i w f.read)
      { words with buffer := r.1, write := r.2.1 } (i + r.2.2) := by
  induction data generalizing w i words with
  | nil =>
    have hi : all[i]? = none := List.getElem?_eq_none (List.drop_eq_nil_iff.mp hdata)
    exact .more (PutPc.step_end words w f.read hi) (.done rfl)
  | cons x data ih =>
    have hi : all[i]? = some x := by
      rw [← List.head?_drop, hdata]
      rfl
    simp only [putLoop, f.advance_eq hw]
    by_cases full : next f.len w = f.read
    · simp only [full, if_true]
      exact .more (PutPc.step_full words hi full) (.done rfl)
    · have rest : all.drop (i + 1) = data := by
        rw [← List.drop_drop, hdata]
        rfl
      simp only [full, if_false]
      have run := ih (next_lt hw) rest { words with buffer := Function.update words.buffer w x }
      dsimp only at run
      rw [Nat.add_assoc, Nat.add_comm 1] at run
      exact .more (PutPc.step_store words hi full) run

/-- A `kni_fifo_put` is the put of the ring, run without interruption. -/
theorem kniFifoPut_runs (f : RteKniFifo α) (data : List α) :
    PutPc.Runs f.len f.words (.loadWrite data) (kniFifoPut f data).1.words
      (kniFifoPut f data).2 := by
  have run := putLoop_runs f data data f.write_lt (List.drop_zero) f.words
  dsimp only at run
  rw [Nat.zero_add] at run
  exact .more rfl (.more rfl run)

theorem getLoop_runs (f : RteKniFifo α) (num : Nat) (got : List α) {r : Nat} (hr : r < f.len)
    (words : Words α) (same : words.buffer = f.buffer) :
    let g := getLoop f.len f.write f.buffer num r
    GetPc.Runs f.len words (.load (got.length + num) r f.write got) { words with read := g.2 }
      (got ++ g.1) := by
  induction num generalizing r got with
  | zero =>
    simp only [getLoop, List.append_nil]
    exact .more (GetPc.step_stop words (Or.inl (Nat.add_zero _).symm)) (.done rfl)
  | succ num ih =>
    simp only [getLoop, f.advance_eq hr]
    by_cases empty : r = f.write
    · simp only [empty, if_true, List.append_nil]
      exact .more (GetPc.step_stop words (Or.inr rfl)) (.done rfl)
    · have run := ih (got ++ [f.buffer r]) (next_lt hr)
      dsimp only at run
      rw [List.length_append, List.length_singleton, Nat.add_assoc, Nat.add_comm 1,
        List.append_assoc, ← same] at run
      have more : ¬ (got.length = got.length + (num + 1) ∨ r = f.write) := by omega
      simp only [empty, if_false, ← same]
      exact .more (GetPc.step_load words more) run

theorem kniFifoGet_runs (f : RteKniFifo α) (num : Nat) :
    GetPc.Runs f.len f.words (.loadRead num) (kniFifoGet f num).1.words
      (kniFifoGet f num).2 := by
  have run := getLoop_runs f num [] f.read_lt f.words rfl
  dsimp only at run
  rw [List.length_nil, Nat.zero_add, List.nil_append] at run
  exact .more rfl (.more rfl run)

end KniFifo
