import DpdkFilter.PacketOperations

/-!
# Reading a stretch of a packet

A reader asks for bytes by their offset and gets a pointer, a copy where they are in several
segments, or nothing where the packet is too short. Offset and length are added in 32 bits, and
a reader at the end of a packet looks for one more segment.
-/

namespace PacketChains

open ByteMemory

universe u
variable {M : Type u}

/-- The answer of `rte_pktmbuf_read`; a fault is an access through the null pointer after the
last segment. -/
inductive ReadResult where
  | null
  | pointer (addr : Nat)
  | copied (data : List UInt8)
  | fault
deriving DecidableEq

/-- The loop that skips leading segments. -/
def skipSegs : Nat → List (Segment M) → Option (Nat × Segment M × List (Segment M))
  | _, [] => none
  | off, seg :: rest =>
    if off ≥ seg.dataLen then skipSegs (off - seg.dataLen) rest else some (off, seg, rest)

section
variable (b : Buffers M)

/-- The loop that copies from several segments. -/
def copySegs (mem : Nat → UInt8) : Nat → Nat → List (Segment M) → Option (List UInt8)
  | _, len, [] => if len = 0 then some [] else none
  | off, len, seg :: rest =>
    if len = 0 then some []
    else
      let copyLen := min (seg.dataLen - off) len
      (copySegs mem 0 (len - copyLen) rest).map
        (bytes mem (rtePktmbufMtodOffset b seg off) copyLen ++ ·)

/-- `__rte_pktmbuf_read` -/
def pktmbufRead (mem : Nat → UInt8) (m : Pktmbuf M) (off len : Nat) : ReadResult :=
  if (off + len) % 2 ^ 32 > m.pktLen then .null
  else
    match skipSegs off m.segs with
    | none => .fault
    | some (off, seg, rest) =>
      if (off + len) % 2 ^ 32 ≤ seg.dataLen then .pointer (rtePktmbufMtodOffset b seg off)
      else
        match copySegs b mem off len (seg :: rest) with
        | none => .fault
        | some data => .copied data

def rtePktmbufRead (mem : Nat → UInt8) (m : Pktmbuf M) (off len : Nat) : ReadResult :=
  if (off + len) % 2 ^ 32 ≤ m.head.dataLen then .pointer (rtePktmbufMtodOffset b m.head off)
  else pktmbufRead b mem m off len

/-- A pointer or copy is for the bytes of the packet, and nothing is for a packet that is too
short. -/
def Answers (mem : Nat → UInt8) (m : Pktmbuf M) (off len : Nat) : ReadResult → Prop
  | .null => m.pktLen < off + len
  | .pointer a => off + len ≤ m.pktLen ∧ bytes mem a len = ((m.data b mem).drop off).take len
  | .copied data => off + len ≤ m.pktLen ∧ data = ((m.data b mem).drop off).take len
  | .fault => False

end

variable {b : Buffers M}

theorem skipSegs_inside {off : Nat} {segs : List (Segment M)}
    (inside : off < (segs.map Segment.dataLen).sum) :
    ∃ pre off' seg rest, skipSegs off segs = some (off', seg, rest) ∧ segs = pre ++ seg :: rest ∧
      off = (pre.map Segment.dataLen).sum + off' ∧ off' < seg.dataLen := by
  induction segs generalizing off with
  | nil => cases inside
  | cons seg rest ih =>
    rw [List.map_cons, List.sum_cons] at inside
    rw [skipSegs]
    by_cases later : off ≥ seg.dataLen
    · obtain ⟨pre, off', seg', rest', found, split, place, within⟩ :=
        ih (show off - seg.dataLen < (rest.map Segment.dataLen).sum by omega)
      refine ⟨seg :: pre, off', seg', rest', ?_, ?_, ?_, within⟩
      · rw [if_pos later, found]
      · rw [split, List.cons_append]
      · rw [List.map_cons, List.sum_cons]
        omega
    · exact ⟨[], off, seg, rest, if_neg later, rfl, (Nat.zero_add off).symm, Nat.lt_of_not_ge later⟩

theorem skipSegs_beyond {off : Nat} {segs : List (Segment M)}
    (beyond : (segs.map Segment.dataLen).sum ≤ off) : skipSegs off segs = none := by
  induction segs generalizing off with
  | nil => rfl
  | cons seg rest ih =>
    rw [List.map_cons, List.sum_cons] at beyond
    rw [skipSegs, if_pos (by omega), ih (by omega)]

/-- The bytes of a segment from an offset on, and then those of the others. -/
theorem slice_cons (b : Buffers M) (mem : Nat → UInt8) {off len : Nat} {seg : Segment M}
    {rest : List (Segment M)} (within : off ≤ seg.dataLen) :
    (((seg :: rest).flatMap (Segment.data b mem)).drop off).take len =
      bytes mem (rtePktmbufMtodOffset b seg off) (min (seg.dataLen - off) len) ++
        (rest.flatMap (Segment.data b mem)).take (len - min (seg.dataLen - off) len) := by
  have here : (seg.data b mem).drop off =
      bytes mem (rtePktmbufMtodOffset b seg off) (seg.dataLen - off) := drop_bytes mem _ within
  rw [List.flatMap_cons, List.drop_append_of_le_length (by rwa [length_data]), here,
    List.take_append, length_bytes]
  congr 1
  · by_cases short : len ≤ seg.dataLen - off
    · rw [take_bytes mem _ short, Nat.min_eq_right short]
    · rw [List.take_of_length_le (by rw [length_bytes]; omega), Nat.min_eq_left (by omega)]
  · congr 1
    omega

theorem copySegs_spec (mem : Nat → UInt8) {off len : Nat} {seg : Segment M}
    {rest : List (Segment M)} (within : off ≤ seg.dataLen)
    (enough : off + len ≤ ((seg :: rest).map Segment.dataLen).sum) :
    copySegs b mem off len (seg :: rest) =
      some ((((seg :: rest).flatMap (Segment.data b mem)).drop off).take len) := by
  induction rest generalizing off len seg with
  | nil =>
    rw [List.map_cons, List.map_nil, List.sum_cons, List.sum_nil] at enough
    rw [slice_cons b mem within, copySegs]
    split
    · rename_i none
      subst none
      simp
    · have all : len - min (seg.dataLen - off) len = 0 := by omega
      simp only [all, copySegs, if_true, Option.map_some, List.flatMap_nil, List.take_nil]
  | cons next rest ih =>
    rw [List.map_cons, List.sum_cons] at enough
    rw [slice_cons b mem within, copySegs]
    split
    · rename_i none
      subst none
      simp
    · simp only
      rw [ih (Nat.zero_le _) (by omega), List.drop_zero, Option.map_some]

theorem bytes_eq_slice (mem : Nat → UInt8) {off len : Nat} {seg : Segment M}
    {rest : List (Segment M)} (within : off + len ≤ seg.dataLen) :
    bytes mem (rtePktmbufMtodOffset b seg off) len =
      (((seg :: rest).flatMap (Segment.data b mem)).drop off).take len := by
  rw [slice_cons b mem (by omega), Nat.min_eq_right (by omega), Nat.sub_self, List.take_zero,
    List.append_nil]

/-- `rte_pktmbuf_read` is right exactly if the sum of offset and length does not wrap to one
within the packet, and it is not a read of nothing at the end of a packet that goes on after its
first segment. -/
theorem read_right_iff {m : Pktmbuf M} (wf : m.WellFormed b) (mem : Nat → UInt8) {off len : Nat}
    (off_lt : off < 2 ^ 32) (len_lt : len < 2 ^ 32) :
    Answers b mem m off len (rtePktmbufRead b mem m off len) ↔
      ¬ (2 ^ 32 ≤ off + len ∧ off + len - 2 ^ 32 ≤ m.pktLen) ∧
        ¬ (len = 0 ∧ off = m.pktLen ∧ m.head.dataLen < m.pktLen) := by
  have whole := wf.pktLen_le
  have sum := wf.pktLen
  have first : m.head.dataLen ≤ m.pktLen := by
    rw [sum, Pktmbuf.segs, List.map_cons, List.sum_cons]
    exact Nat.le_add_right _ _
  by_cases wraps : 2 ^ 32 ≤ off + len
  · have wrapped : (off + len) % 2 ^ 32 = off + len - 2 ^ 32 := by omega
    by_cases seen : off + len - 2 ^ 32 ≤ m.pktLen
    · -- whatever is answered, it is not that the packet is too short
      have answered : rtePktmbufRead b mem m off len ≠ .null := by
        rw [rtePktmbufRead, pktmbufRead, wrapped]
        split
        · exact ReadResult.noConfusion
        rw [if_neg (Nat.not_lt_of_ge seen)]
        split
        · exact ReadResult.noConfusion
        split
        · exact ReadResult.noConfusion
        split <;> exact ReadResult.noConfusion
      refine ⟨fun right => ?_, fun free => absurd ⟨wraps, seen⟩ free.1⟩
      generalize rtePktmbufRead b mem m off len = r at right answered
      cases r with
      | null => exact absurd rfl answered
      | pointer a => exact absurd right.1 (by omega)
      | copied data => exact absurd right.1 (by omega)
      | fault => exact right.elim
    · rw [rtePktmbufRead, pktmbufRead, wrapped, if_neg (by omega), if_pos (by omega)]
      refine ⟨fun _ => ⟨fun h => seen h.2, fun h => ?_⟩, fun _ => ?_⟩
      · omega
      · change m.pktLen < off + len
        omega
  · have plain : (off + len) % 2 ^ 32 = off + len := Nat.mod_eq_of_lt (by omega)
    have unwrapped : ¬ (2 ^ 32 ≤ off + len ∧ off + len - 2 ^ 32 ≤ m.pktLen) := fun h => wraps h.1
    rw [rtePktmbufRead, pktmbufRead, plain]
    by_cases near : off + len ≤ m.head.dataLen
    · rw [if_pos near]
      refine ⟨fun _ => ⟨unwrapped, by omega⟩, fun _ => ⟨by omega, ?_⟩⟩
      exact bytes_eq_slice mem near
    rw [if_neg near]
    by_cases short : off + len > m.pktLen
    · rw [if_pos short]
      exact ⟨fun _ => ⟨unwrapped, by omega⟩, fun _ => short⟩
    rw [if_neg short]
    by_cases inside : off < m.pktLen
    · obtain ⟨pre, off', seg, rest, found, split, place, within⟩ :=
        skipSegs_inside (show off < (m.segs.map Segment.dataLen).sum from sum ▸ inside)
      have data : (m.data b mem).drop off =
          ((seg :: rest).flatMap (Segment.data b mem)).drop off' := by
        rw [Pktmbuf.data, split, List.flatMap_append, place,
          ← length_flatMap_data b mem pre, List.drop_length_add_append]
      have rest_len : off' + len ≤ ((seg :: rest).map Segment.dataLen).sum := by
        rw [split, List.map_append, List.sum_append] at sum
        omega
      have plain' : (off' + len) % 2 ^ 32 = off' + len := Nat.mod_eq_of_lt (by omega)
      refine ⟨fun _ => ⟨unwrapped, by omega⟩, fun _ => ?_⟩
      simp only [found, plain']
      split
      · rename_i one
        exact ⟨by omega, by rw [data]; exact bytes_eq_slice mem one⟩
      · rw [copySegs_spec mem (Nat.le_of_lt within) rest_len]
        exact ⟨by omega, by rw [data]⟩
    · rw [skipSegs_beyond (by omega)]
      exact ⟨fun h => h.elim, fun h => absurd ⟨by omega, by omega, by omega⟩ h.2⟩

/-- Two bytes in one mbuf and one in another. -/
def twoAndOne : Pktmbuf Bool := ⟨⟨true, 128, 2⟩, [⟨false, 128, 1⟩], 3, 2⟩

theorem twoAndOne_wellFormed : twoAndOne.WellFormed smallBuffers where
  fits := by decide
  nbSegs := rfl
  few := by decide
  pktLen := rfl

/-- The last two bytes can be read, but not the nothing after them. -/
theorem read_right_iff_twoAndOne : let mem : Nat → UInt8 := fun _ => 0
    Answers smallBuffers mem twoAndOne 1 2 (rtePktmbufRead smallBuffers mem twoAndOne 1 2) ∧
      ¬ Answers smallBuffers mem twoAndOne 3 0 (rtePktmbufRead smallBuffers mem twoAndOne 3 0) := by
  intro mem
  refine ⟨(read_right_iff twoAndOne_wellFormed mem (by decide) (by decide)).mpr (by decide),
    fun right => ?_⟩
  have free := (read_right_iff twoAndOne_wellFormed mem (by decide) (by decide)).mp right
  exact free.2 (by decide)

end PacketChains
