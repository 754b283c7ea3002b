import DpdkFilter.PacketChains
import DpdkFilter.Shares
import Mathlib.Algebra.Order.BigOperators.Group.List
import Mathlib.Algebra.Order.Group.Multiset

/-!
# Operations on packets are operations on byte strings

Each call changes the bytes of its packet as its name says, writes nowhere but into the buffers
of this packet, and leaves every header as the check of the library wants it. So it is after
any sequence of calls, and no mbuf is lost or in two places.
-/

namespace PacketChains

open ByteMemory Interleaving Shares

universe u v
variable {M : Type u} {P : Type v} {b : Buffers M}

/-! ## Headers -/

structure Pktmbuf.WellFormed (b : Buffers M) (m : Pktmbuf M) : Prop where
  fits : ∀ s ∈ m.segs, s.dataOff + s.dataLen ≤ b.bufLen s.mbuf
  nbSegs : m.nbSegs = m.segs.length
  few : m.nbSegs ≤ rteMbufMaxNbSegs
  pktLen : m.pktLen = (m.segs.map Segment.dataLen).sum

theorem sum_dataLen_le {segs : List (Segment M)}
    (fits : ∀ s ∈ segs, s.dataOff + s.dataLen ≤ b.bufLen s.mbuf) :
    (segs.map Segment.dataLen).sum ≤ segs.length * 65535 := by
  have each : ∀ n ∈ segs.map Segment.dataLen, n ≤ 65535 := by
    intro n hn
    obtain ⟨s, hs, rfl⟩ := List.mem_map.mp hn
    have inside := fits s hs
    have small := b.small s.mbuf
    omega
  have all := List.sum_le_card_nsmul _ _ each
  rw [List.length_map] at all
  exact all

/-- The number of segments keeps the length of a packet from wrapping. -/
theorem Pktmbuf.WellFormed.pktLen_le {m : Pktmbuf M} (wf : m.WellFormed b) :
    m.pktLen ≤ 65535 * 65535 := by
  have all := sum_dataLen_le wf.fits
  have few := wf.few
  rw [← wf.pktLen, ← wf.nbSegs] at all
  exact Nat.le_trans all (Nat.mul_le_mul_right 65535 few)

theorem checkLoop_eq_none {segs : List (Segment M)} {pktLen : Nat}
    (fits : ∀ s ∈ segs, s.dataOff + s.dataLen ≤ b.bufLen s.mbuf) (few : segs.length < 2 ^ 32)
    (len : pktLen = (segs.map Segment.dataLen).sum) (small : pktLen < 2 ^ 32) :
    checkLoop b segs.length pktLen segs = none := by
  induction segs generalizing pktLen with
  | nil =>
    subst len
    rfl
  | cons s rest ih =>
    obtain ⟨here, later⟩ := List.forall_mem_cons.mp fits
    rw [List.map_cons, List.sum_cons] at len
    rw [List.length_cons] at few ⊢
    have number : (rest.length + 1 + 2 ^ 32 - 1) % 2 ^ 32 = rest.length := by omega
    have length : (pktLen + 2 ^ 32 - s.dataLen) % 2 ^ 32 = (rest.map Segment.dataLen).sum := by
      omega
    rw [checkLoop, if_neg (by omega), if_neg (by omega), number, length]
    exact ih later (by omega) rfl (by omega)

theorem Pktmbuf.WellFormed.check {m : Pktmbuf M} (wf : m.WellFormed b) :
    rteMbufCheck b m = none := by
  have few := wf.few
  have len := wf.pktLen
  have small := wf.pktLen_le
  simp only [rteMbufMaxNbSegs] at few
  rw [rteMbufCheck, if_neg, wf.nbSegs]
  · exact checkLoop_eq_none wf.fits (by rw [← wf.nbSegs]; omega) len (by omega)
  · rw [Pktmbuf.segs, List.map_cons, List.sum_cons] at len
    omega

/-! ## Bytes -/

/-- A stretch of memory within the buffer of an mbuf. -/
def Buffers.Holds (b : Buffers M) (x : M) (a n : Nat) : Prop :=
  b.bufAddr x ≤ a ∧ a + n ≤ b.bufAddr x + b.bufLen x

theorem length_data (b : Buffers M) (mem : Nat → UInt8) (s : Segment M) :
    (s.data b mem).length = s.dataLen :=
  length_bytes _ _ _

theorem length_flatMap_data (b : Buffers M) (mem : Nat → UInt8) (segs : List (Segment M)) :
    (segs.flatMap (Segment.data b mem)).length = (segs.map Segment.dataLen).sum := by
  rw [List.length_flatMap]
  exact congrArg List.sum (List.map_congr_left fun s _ => length_data b mem s)

theorem Pktmbuf.WellFormed.length_data {m : Pktmbuf M} (wf : m.WellFormed b)
    (mem : Nat → UInt8) : (m.data b mem).length = m.pktLen :=
  (length_flatMap_data b mem m.segs).trans wf.pktLen.symm

theorem data_write_other (mem : Nat → UInt8) {s : Segment M} {x : M} {a : Nat}
    {data : List UInt8} (fits : s.dataOff + s.dataLen ≤ b.bufLen s.mbuf) (other : s.mbuf ≠ x)
    (inside : b.Holds x a data.length) :
    s.data b (write mem a data) = s.data b mem := by
  refine bytes_write_apart mem ?_
  obtain ⟨lower, upper⟩ := inside
  unfold rtePktmbufMtodOffset
  rcases b.apart s.mbuf x other with before | after
  · exact .inl (by omega)
  · exact .inr (by omega)

theorem flatMap_data_write_other (mem : Nat → UInt8) {segs : List (Segment M)} {x : M}
    {a : Nat} {data : List UInt8}
    (fits : ∀ s ∈ segs, s.dataOff + s.dataLen ≤ b.bufLen s.mbuf)
    (others : x ∉ segs.map Segment.mbuf) (inside : b.Holds x a data.length) :
    segs.flatMap (Segment.data b (write mem a data)) = segs.flatMap (Segment.data b mem) := by
  refine List.flatMap_congr fun s hs => data_write_other mem (fits s hs) ?_ inside
  rintro rfl
  exact others (List.mem_map_of_mem hs)

/-- The segments before the last one, and the last one as it is and as it is changed. -/
theorem exists_last (f : Segment M → Segment M) (s : Segment M) (rest : List (Segment M)) :
    ∃ init, s :: rest = init ++ [rtePktmbufLastseg s rest] ∧
      (onLast f s rest).1 :: (onLast f s rest).2 = init ++ [f (rtePktmbufLastseg s rest)] := by
  induction rest generalizing s with
  | nil => exact ⟨[], rfl, rfl⟩
  | cons t rest ih =>
    obtain ⟨init, before, after⟩ := ih t
    refine ⟨s :: init, ?_, ?_⟩
    · rw [rtePktmbufLastseg, before, List.cons_append]
    · simp only [onLast, rtePktmbufLastseg, after, List.cons_append]

/-! ## Each call by itself -/

section
variable {m m' : Pktmbuf M} {a : Nat}

theorem reset_spec (b : Buffers M) (mem : Nat → UInt8) (x : M) :
    (rtePktmbufReset b x).WellFormed b ∧ (rtePktmbufReset b x).mbufs = [x] ∧
      (rtePktmbufReset b x).data b mem = [] := by
  refine ⟨⟨?_, rfl, Nat.le_of_ble_eq_true rfl, rfl⟩, rfl, rfl⟩
  intro s hs
  rw [List.mem_singleton.mp hs]
  exact Nat.min_le_right _ _

/-- One segment changes, and the length of the packet with it. -/
theorem Pktmbuf.WellFormed.change (wf : m.WellFormed b) {t t' : Segment M}
    {pre post : List (Segment M)} (before : m.segs = pre ++ t :: post)
    (after : m'.segs = pre ++ t' :: post) (same : t'.mbuf = t.mbuf)
    (fits : t'.dataOff + t'.dataLen ≤ b.bufLen t'.mbuf) (number : m'.nbSegs = m.nbSegs)
    (len : m'.pktLen + t.dataLen = m.pktLen + t'.dataLen) :
    m'.WellFormed b ∧ m'.mbufs = m.mbufs := by
  have all := wf.fits
  have sum := wf.pktLen
  have count := wf.nbSegs
  rw [before] at all sum count
  simp only [List.map_append, List.map_cons, List.sum_append, List.sum_cons] at sum
  rw [List.length_append, List.length_cons] at count
  obtain ⟨first, others⟩ := List.forall_mem_append.mp all
  obtain ⟨here, last⟩ := List.forall_mem_cons.mp others
  refine ⟨⟨?_, ?_, number ▸ wf.few, ?_⟩, ?_⟩
  · rw [after]
    exact List.forall_mem_append.mpr ⟨first, List.forall_mem_cons.mpr ⟨fits, last⟩⟩
  · rw [after, number, List.length_append, List.length_cons]
    exact count
  · rw [after]
    simp only [List.map_append, List.map_cons, List.sum_append, List.sum_cons]
    omega
  · rw [Pktmbuf.mbufs, Pktmbuf.mbufs, before, after]
    simp only [List.map_append, List.map_cons, same]

/-- A write into the buffer of one segment leaves the bytes of the others. -/
theorem data_change (wf : m.WellFormed b) (nodup : m.mbufs.Nodup) {t t' : Segment M}
    {pre post : List (Segment M)} (before : m.segs = pre ++ t :: post)
    (after : m'.segs = pre ++ t' :: post) (mem : Nat → UInt8) {data : List UInt8}
    (inside : b.Holds t.mbuf a data.length) :
    m'.data b (write mem a data) = pre.flatMap (Segment.data b mem) ++
      (t'.data b (write mem a data) ++ post.flatMap (Segment.data b mem)) := by
  have all := wf.fits
  rw [before] at all
  rw [Pktmbuf.mbufs, before, List.map_append, List.map_cons] at nodup
  obtain ⟨first, others⟩ := List.forall_mem_append.mp all
  obtain ⟨-, last⟩ := List.forall_mem_cons.mp others
  obtain ⟨-, later, apart⟩ := List.nodup_append.mp nodup
  have outside : t.mbuf ∉ pre.map Segment.mbuf := fun h => apart _ h _ List.mem_cons_self rfl
  rw [Pktmbuf.data, after, List.flatMap_append, List.flatMap_cons,
    flatMap_data_write_other mem first outside inside,
    flatMap_data_write_other mem last (List.nodup_cons.mp later).1 inside]

theorem prepend_data (mem : Nat → UInt8) {t t' : Segment M} {data : List UInt8}
    (same : t'.mbuf = t.mbuf) (off : t'.dataOff + data.length = t.dataOff)
    (len : t'.dataLen = data.length + t.dataLen) :
    t'.data b (write mem (rtePktmbufMtodOffset b t' 0) data) = data ++ t.data b mem := by
  have next : rtePktmbufMtodOffset b t' 0 + data.length = rtePktmbufMtodOffset b t 0 := by
    simp only [rtePktmbufMtodOffset, same]
    omega
  rw [Segment.data, len, bytes_add, bytes_write, next, bytes_write_apart mem (.inr (by omega))]
  rfl

theorem append_data (mem : Nat → UInt8) {t t' : Segment M} {data : List UInt8}
    (same : t'.mbuf = t.mbuf) (off : t'.dataOff = t.dataOff)
    (len : t'.dataLen = t.dataLen + data.length) :
    t'.data b (write mem (rtePktmbufMtodOffset b t t.dataLen) data) = t.data b mem ++ data := by
  have start : rtePktmbufMtodOffset b t' 0 = rtePktmbufMtodOffset b t 0 := by
    simp only [rtePktmbufMtodOffset, same, off]
  have next : rtePktmbufMtodOffset b t 0 + t.dataLen = rtePktmbufMtodOffset b t t.dataLen := rfl
  rw [Segment.data, len, start, bytes_add, next, bytes_write,
    bytes_write_apart mem (.inl (Nat.le_of_eq next))]
  rfl

theorem prepend_spec (wf : m.WellFormed b) (nodup : m.mbufs.Nodup) {data : List UInt8}
    (h : rtePktmbufPrepend b m data.length = some (a, m')) (mem : Nat → UInt8) :
    m'.WellFormed b ∧ m'.mbufs = m.mbufs ∧
      (∃ x ∈ m.mbufs, b.Holds x a data.length) ∧
      m'.data b (write mem a data) = data ++ m.data b mem := by
  rw [rtePktmbufPrepend] at h
  split at h
  · cases h
  rename_i room
  simp only [rtePktmbufHeadroom, gt_iff_lt, not_lt] at room
  obtain ⟨here, -⟩ := List.forall_mem_cons.mp wf.fits
  have size := b.small m.head.mbuf
  have whole := wf.pktLen_le
  have off : (m.head.dataOff + 2 ^ 16 - data.length) % 2 ^ 16 = m.head.dataOff - data.length := by
    omega
  have len : (m.head.dataLen + data.length) % 2 ^ 16 = data.length + m.head.dataLen := by omega
  have total : (m.pktLen + data.length) % 2 ^ 32 = m.pktLen + data.length := by omega
  simp only [off, len, total, Option.some.injEq, Prod.mk.injEq] at h
  obtain ⟨rfl, new⟩ := h
  generalize place : Segment.mk m.head.mbuf (m.head.dataOff - data.length)
    (data.length + m.head.dataLen) = t at new ⊢
  have same : t.mbuf = m.head.mbuf := by rw [← place]
  have start : t.dataOff + data.length = m.head.dataOff := by
    rw [← place]
    exact Nat.sub_add_cancel room
  have longer : t.dataLen = data.length + m.head.dataLen := by rw [← place]
  have before : m.segs = [] ++ m.head :: m.rest := rfl
  have after : m'.segs = [] ++ t :: m.rest := by
    rw [← new]
    rfl
  have inside : b.Holds m.head.mbuf (rtePktmbufMtodOffset b t 0) data.length := by
    simp only [Buffers.Holds, rtePktmbufMtodOffset, same]
    omega
  obtain ⟨wf', mbufs⟩ := wf.change before after same (by rw [same]; omega) (by rw [← new])
    (by rw [← new, longer]; simp only; omega)
  refine ⟨wf', mbufs, ⟨m.head.mbuf, List.mem_cons_self, inside⟩, ?_⟩
  rw [data_change wf nodup before after mem inside, prepend_data mem same start longer]
  exact List.append_assoc ..

theorem tailroom_eq {s : Segment M} (fits : s.dataOff + s.dataLen ≤ b.bufLen s.mbuf) :
    rtePktmbufTailroom b s = b.bufLen s.mbuf - (s.dataOff + s.dataLen) := by
  have size := b.small s.mbuf
  simp only [rtePktmbufTailroom, rtePktmbufHeadroom]
  omega

theorem append_spec (wf : m.WellFormed b) (nodup : m.mbufs.Nodup) {data : List UInt8}
    (h : rtePktmbufAppend b m data.length = some (a, m')) (mem : Nat → UInt8) :
    m'.WellFormed b ∧ m'.mbufs = m.mbufs ∧
      (∃ x ∈ m.mbufs, b.Holds x a data.length) ∧
      m'.data b (write mem a data) = m.data b mem ++ data := by
  simp only [rtePktmbufAppend] at h
  split at h
  · cases h
  rename_i room
  obtain ⟨init, before, after⟩ := exists_last
    (fun s => { s with dataLen := (s.dataLen + data.length) % 2 ^ 16 }) m.head m.rest
  generalize rtePktmbufLastseg m.head m.rest = t at *
  have fits : t.dataOff + t.dataLen ≤ b.bufLen t.mbuf :=
    wf.fits t (by rw [Pktmbuf.segs, before]; exact List.mem_append_right _ (.head _))
  rw [tailroom_eq fits] at room
  have size := b.small t.mbuf
  have whole := wf.pktLen_le
  have len : (t.dataLen + data.length) % 2 ^ 16 = t.dataLen + data.length := by omega
  have total : (m.pktLen + data.length) % 2 ^ 32 = m.pktLen + data.length := by omega
  simp only [total, Option.some.injEq, Prod.mk.injEq] at h
  obtain ⟨rfl, new⟩ := h
  have after' : m'.segs = init ++ [{ t with dataLen := t.dataLen + data.length }] := by
    rw [← new, Pktmbuf.segs, after, len]
  have inside : b.Holds t.mbuf (rtePktmbufMtodOffset b t t.dataLen) data.length := by
    unfold Buffers.Holds
    simp only [rtePktmbufMtodOffset]
    omega
  obtain ⟨wf', mbufs⟩ := wf.change before after' rfl (by simp only; omega) (by rw [← new])
    (by rw [← new]; simp only; omega)
  have own : t.mbuf ∈ m.mbufs := by
    rw [Pktmbuf.mbufs, Pktmbuf.segs, before, List.map_append]
    exact List.mem_append_right _ (.head _)
  have grown : Segment.data b (write mem (rtePktmbufMtodOffset b t t.dataLen) data)
      { t with dataLen := t.dataLen + data.length } = t.data b mem ++ data :=
    append_data mem rfl rfl rfl
  refine ⟨wf', mbufs, ⟨t.mbuf, own, inside⟩, ?_⟩
  rw [data_change wf nodup before after' mem inside, grown, Pktmbuf.data, Pktmbuf.segs, before,
    List.flatMap_append]
  simp only [List.flatMap_cons, List.flatMap_nil, List.append_nil, List.append_assoc]

theorem adj_spec (wf : m.WellFormed b) {len : Nat} (h : rtePktmbufAdj m len = some m')
    (mem : Nat → UInt8) :
    m'.WellFormed b ∧ m'.mbufs = m.mbufs ∧ m'.data b mem = (m.data b mem).drop len := by
  rw [rtePktmbufAdj] at h
  split at h
  · cases h
  rename_i enough
  obtain ⟨here, -⟩ := List.forall_mem_cons.mp wf.fits
  have size := b.small m.head.mbuf
  have whole := wf.pktLen_le
  have sum := wf.pktLen
  rw [Pktmbuf.segs, List.map_cons, List.sum_cons] at sum
  have dataLen : (m.head.dataLen + 2 ^ 16 - len) % 2 ^ 16 = m.head.dataLen - len := by omega
  have off : (m.head.dataOff + len) % 2 ^ 16 = m.head.dataOff + len := by omega
  have total : (m.pktLen + 2 ^ 32 - len) % 2 ^ 32 = m.pktLen - len := by omega
  simp only [dataLen, off, total, Option.some.injEq] at h
  have before : m.segs = [] ++ m.head :: m.rest := rfl
  have after : m'.segs = [] ++ { m.head with
      dataLen := m.head.dataLen - len, dataOff := m.head.dataOff + len } :: m.rest := by
    rw [← h]
    rfl
  obtain ⟨wf', mbufs⟩ := wf.change before after rfl (by simp only; omega) (by rw [← h])
    (by rw [← h]; simp only; omega)
  refine ⟨wf', mbufs, ?_⟩
  have first : (m.head.data b mem).drop len = bytes mem (rtePktmbufMtodOffset b m.head 0 + len)
      (m.head.dataLen - len) := drop_bytes mem _ (by omega)
  rw [Pktmbuf.data, after, Pktmbuf.data, Pktmbuf.segs, List.nil_append, List.flatMap_cons,
    List.flatMap_cons, List.drop_append_of_le_length (by rw [length_data]; omega), first]
  congr 1
  simp only [Segment.data, rtePktmbufMtodOffset]
  congr 1
  omega

theorem trim_spec (wf : m.WellFormed b) {len : Nat} (h : rtePktmbufTrim m len = some m')
    (mem : Nat → UInt8) :
    m'.WellFormed b ∧ m'.mbufs = m.mbufs ∧
      m'.data b mem = (m.data b mem).take ((m.data b mem).length - len) := by
  simp only [rtePktmbufTrim] at h
  split at h
  · cases h
  rename_i enough
  obtain ⟨init, before, after⟩ := exists_last
    (fun s => { s with dataLen := (s.dataLen + 2 ^ 16 - len) % 2 ^ 16 }) m.head m.rest
  generalize rtePktmbufLastseg m.head m.rest = t at *
  have fits : t.dataOff + t.dataLen ≤ b.bufLen t.mbuf :=
    wf.fits t (by rw [Pktmbuf.segs, before]; exact List.mem_append_right _ (.head _))
  have size := b.small t.mbuf
  have whole := wf.pktLen_le
  have sum := wf.pktLen
  rw [Pktmbuf.segs, before, List.map_append, List.sum_append, List.map_cons, List.sum_cons] at sum
  have dataLen : (t.dataLen + 2 ^ 16 - len) % 2 ^ 16 = t.dataLen - len := by omega
  have total : (m.pktLen + 2 ^ 32 - len) % 2 ^ 32 = m.pktLen - len := by omega
  simp only [total, Option.some.injEq] at h
  have after' : m'.segs = init ++ [{ t with dataLen := t.dataLen - len }] := by
    rw [← h, Pktmbuf.segs, after, dataLen]
  obtain ⟨wf', mbufs⟩ := wf.change before after' rfl (by simp only; omega) (by rw [← h])
    (by rw [← h]; simp only; omega)
  refine ⟨wf', mbufs, ?_⟩
  have last : (t.data b mem).take (t.dataLen - len) =
      bytes mem (rtePktmbufMtodOffset b t 0) (t.dataLen - len) := take_bytes mem _ (by omega)
  have all : m.data b mem = init.flatMap (Segment.data b mem) ++ t.data b mem := by
    rw [Pktmbuf.data, Pktmbuf.segs, before, List.flatMap_append, List.flatMap_singleton]
  have number : (m.data b mem).length - len =
      (init.flatMap (Segment.data b mem)).length + (t.dataLen - len) := by
    rw [all, List.length_append, length_data]
    omega
  rw [number, all, List.take_length_add_append, last, Pktmbuf.data, after',
    List.flatMap_append, List.flatMap_singleton]
  rfl

theorem chain_spec {n : Pktmbuf M} (wf : m.WellFormed b) (wf' : n.WellFormed b)
    (h : rtePktmbufChain m n = some m') (mem : Nat → UInt8) :
    m'.WellFormed b ∧ m'.mbufs = m.mbufs ++ n.mbufs ∧
      m'.data b mem = m.data b mem ++ n.data b mem := by
  rw [rtePktmbufChain] at h
  split at h
  · cases h
  rename_i room
  have whole := wf.pktLen_le
  have whole' := wf'.pktLen_le
  have sum := wf.pktLen
  have sum' := wf'.pktLen
  have number := wf.nbSegs
  have number' := wf'.nbSegs
  simp only [rteMbufMaxNbSegs, gt_iff_lt, not_lt] at room
  have count : (m.nbSegs + n.nbSegs) % 2 ^ 16 = m.nbSegs + n.nbSegs := by omega
  have fits : ∀ s ∈ m.segs ++ n.segs, s.dataOff + s.dataLen ≤ b.bufLen s.mbuf :=
    List.forall_mem_append.mpr ⟨wf.fits, wf'.fits⟩
  have both := sum_dataLen_le fits
  rw [List.length_append, List.map_append, List.sum_append] at both
  have most := Nat.mul_le_mul_right 65535 room
  have total : (m.pktLen + n.pktLen) % 2 ^ 32 = m.pktLen + n.pktLen := by
    rw [number, number'] at most
    omega
  simp only [count, total, Option.some.injEq] at h
  subst h
  refine ⟨⟨fits, ?_, room, ?_⟩, ?_, ?_⟩
  · rw [number, number']
    change _ = (m.segs ++ n.segs).length
    exact List.length_append.symm
  · rw [sum, sum', ← List.sum_append, ← List.map_append]
    rfl
  · change (m.segs ++ n.segs).map Segment.mbuf = _
    exact List.map_append
  · change (m.segs ++ n.segs).flatMap (Segment.data b mem) = _
    exact List.flatMap_append

/-- The loop writes the bytes of the later segments one after the other. -/
theorem linearizeLoop_spec (mem : Nat → UInt8) {x : M} {buffer : Nat} {rest : List (Segment M)}
    (fits : ∀ s ∈ rest, s.dataOff + s.dataLen ≤ b.bufLen s.mbuf)
    (others : x ∉ rest.map Segment.mbuf)
    (inside : b.Holds x buffer (rest.map Segment.dataLen).sum) :
    linearizeLoop b mem buffer rest =
      (write mem buffer (rest.flatMap (Segment.data b mem)), rest.map Segment.mbuf) := by
  induction rest generalizing mem buffer with
  | nil =>
    refine Prod.ext (funext fun x => ?_) rfl
    simp [linearizeLoop, write]
  | cons s rest ih =>
    obtain ⟨here, later⟩ := List.forall_mem_cons.mp fits
    obtain ⟨other, apart⟩ := not_or.mp (mt List.mem_cons.mpr others)
    rw [List.map_cons, List.sum_cons] at inside
    obtain ⟨lower, upper⟩ := inside
    have part : b.Holds x buffer (s.data b mem).length := by
      rw [length_data]
      exact ⟨lower, by omega⟩
    rw [linearizeLoop, ih _ later apart ⟨by omega, by omega⟩, List.flatMap_cons, write_append,
      length_data, flatMap_data_write_other mem later apart part]
    rfl

theorem linearize_spec {mem mem' : Nat → UInt8} {freed : List M} (wf : m.WellFormed b)
    (nodup : m.mbufs.Nodup) (h : rtePktmbufLinearize b mem m = some (mem', m', freed)) :
    m'.WellFormed b ∧ m.mbufs = m'.mbufs ++ freed ∧
      (∃ x ∈ m.mbufs, ∃ a data, mem' = write mem a data ∧ b.Holds x a data.length) ∧
      m'.data b mem' = m.data b mem := by
  rw [rtePktmbufLinearize] at h
  split at h
  · cases h
    refine ⟨wf, (List.append_nil _).symm, ?_, rfl⟩
    refine ⟨m.head.mbuf, List.mem_cons_self, b.bufAddr m.head.mbuf, [], ?_, Nat.le_refl _, ?_⟩
    · funext x
      simp [write]
    · exact Nat.le_add_right _ _
  rename_i several
  simp only at h
  split at h
  · cases h
  rename_i room
  obtain ⟨here, later⟩ := List.forall_mem_cons.mp wf.fits
  have size := b.small m.head.mbuf
  have whole := wf.pktLen_le
  have sum := wf.pktLen
  rw [Pktmbuf.segs, List.map_cons, List.sum_cons] at sum
  rw [tailroom_eq here] at room
  have len : m.pktLen % 2 ^ 16 = m.pktLen := by omega
  have new : m.head.mbuf ∉ m.rest.map Segment.mbuf := (List.nodup_cons.mp nodup).1
  have inside : b.Holds m.head.mbuf (rtePktmbufMtodOffset b m.head m.head.dataLen)
      (m.rest.map Segment.dataLen).sum := by
    unfold Buffers.Holds
    simp only [rtePktmbufMtodOffset]
    omega
  rw [linearizeLoop_spec mem later new inside, len, Option.some.injEq, Prod.mk.injEq,
    Prod.mk.injEq] at h
  obtain ⟨rfl, rfl, rfl⟩ := h
  have bytesLen := length_flatMap_data b mem m.rest
  refine ⟨⟨?_, rfl, ?_, ?_⟩, rfl,
    ⟨m.head.mbuf, List.mem_cons_self, _, _, rfl, bytesLen ▸ inside⟩, ?_⟩
  · intro s hs
    rw [List.mem_singleton.mp hs]
    simp only
    omega
  · exact Nat.le_of_ble_eq_true rfl
  · exact (Nat.add_zero _).symm
  · have longer : m.pktLen =
        m.head.dataLen + (m.rest.flatMap (Segment.data b mem)).length := by rw [bytesLen, sum]
    rw [Pktmbuf.data, Pktmbuf.segs, List.flatMap_singleton]
    exact append_data mem (t := m.head) rfl rfl longer

end

/-! ## Any sequence of calls -/

section
variable [Fintype P] [DecidableEq P] {mbufs : Multiset M}

def held (o : Option (Pktmbuf M)) : Multiset M := o.elim 0 fun m => m.mbufs

/-- Every mbuf is in the pool or in one packet, and all headers are right. -/
structure State.Inv (b : Buffers M) (mbufs : Multiset M) (s : State P M) : Prop where
  conserved : s.pool + ∑ p, held (s.pkts p) = mbufs
  wf : ∀ p m, s.pkts p = some m → m.WellFormed b

omit [DecidableEq P] in
theorem State.Inv.start (b : Buffers M) (mem : Nat → UInt8) (mbufs : Multiset M) :
    (State.populated P mem mbufs).Inv b mbufs := by
  refine ⟨?_, fun p m h => by cases h⟩
  have none : ∑ p, held ((State.populated P mem mbufs).pkts p) = 0 :=
    Finset.sum_eq_zero fun _ _ => rfl
  rw [none, add_zero]
  rfl

omit [DecidableEq P] in
theorem State.Inv.nodup {s : State P M} (inv : s.Inv b mbufs) (distinct : mbufs.Nodup) {p : P}
    {m : Pktmbuf M} (at_p : s.pkts p = some m) : m.mbufs.Nodup := by
  have part : held (s.pkts p) ≤ mbufs := by
    rw [← inv.conserved]
    exact le_add_left (Finset.single_le_sum (fun _ _ => Multiset.zero_le _) (Finset.mem_univ p))
  rw [at_p] at part
  exact Multiset.coe_nodup.mp (Multiset.nodup_of_le part distinct)

/-- The mbufs of one packet are not in another. -/
theorem State.Inv.apart [DecidableEq M] {s : State P M} (inv : s.Inv b mbufs)
    (distinct : mbufs.Nodup) {p q : P} {m n : Pktmbuf M} (at_p : s.pkts p = some m)
    (at_q : s.pkts q = some n) (other : p ≠ q) {x : M} (own : x ∈ m.mbufs) : x ∉ n.mbufs := by
  intro foreign
  have once := Multiset.nodup_iff_count_le_one.mp distinct x
  rw [← inv.conserved, Multiset.count_add, Multiset.count_sum'] at once
  have both := add_le_sum (fun p => (held (s.pkts p)).count x) other
  have first : 1 ≤ (held (s.pkts p)).count x := by
    rw [at_p]
    exact Multiset.one_le_count_iff_mem.mpr own
  have second : 1 ≤ (held (s.pkts q)).count x := by
    rw [at_q]
    exact Multiset.one_le_count_iff_mem.mpr foreign
  omega

/-- One packet changes, or comes or goes, with what the pool takes or gives for it, and the
bytes of the others stay. -/
theorem State.Inv.set {s : State P M} (inv : s.Inv b mbufs) (p : P) (o : Option (Pktmbuf M))
    (pool : Multiset M) (mem : Nat → UInt8) (wf : ∀ m, o = some m → m.WellFormed b)
    (same : pool + held o = s.pool + held (s.pkts p))
    (frame : ∀ q n, q ≠ p → s.pkts q = some n → n.data b mem = n.data b s.mem) :
    (State.mk mem pool (Function.update s.pkts p o)).Inv b mbufs ∧
      (State.mk mem pool (Function.update s.pkts p o)).view b =
        Function.update (s.view b) p (o.map (Pktmbuf.data b mem)) := by
  refine ⟨⟨?_, fun q m hq => ?_⟩, funext fun q => ?_⟩
  · have changed := sum_update held s.pkts p o
    have both : pool + ∑ q, held (Function.update s.pkts p o q) + held (s.pkts p) =
        s.pool + ∑ q, held (s.pkts q) + held (s.pkts p) := by
      rw [add_assoc, changed, add_comm (∑ q, held (s.pkts q)), ← add_assoc, same, add_right_comm]
    exact (add_right_cancel both).trans inv.conserved
  · change Function.update s.pkts p o q = some m at hq
    by_cases here : q = p
    · subst here
      rw [Function.update_self] at hq
      exact wf m hq
    · rw [Function.update_of_ne here] at hq
      exact inv.wf q m hq
  · by_cases here : q = p
    · subst here
      simp only [State.view, Function.update_self]
    · simp only [State.view, Function.update_of_ne here]
      cases at_q : s.pkts q with
      | none => rfl
      | some n => exact congrArg some (frame q n here at_q)

theorem State.Inv.replaced {s : State P M} (inv : s.Inv b mbufs) {p : P} {m m' : Pktmbuf M}
    (at_p : s.pkts p = some m) (wf : m'.WellFormed b) (own : m'.mbufs = m.mbufs)
    (mem : Nat → UInt8)
    (frame : ∀ q n, q ≠ p → s.pkts q = some n → n.data b mem = n.data b s.mem) :
    (State.mk mem s.pool (Function.update s.pkts p (some m'))).Inv b mbufs ∧
      (State.mk mem s.pool (Function.update s.pkts p (some m'))).view b =
        Function.update (s.view b) p (some (m'.data b mem)) := by
  refine inv.set p (some m') s.pool mem (fun n hn => Option.some.inj hn ▸ wf) ?_ frame
  rw [at_p]
  exact congrArg (fun l : List M => s.pool + (l : Multiset M)) own

/-- A write into the buffers of one packet leaves the bytes of the others. -/
theorem State.Inv.frame [DecidableEq M] {s : State P M} (inv : s.Inv b mbufs)
    (distinct : mbufs.Nodup) {p : P} {m : Pktmbuf M} (at_p : s.pkts p = some m) {x : M}
    (own : x ∈ m.mbufs) {a : Nat} {data : List UInt8} (inside : b.Holds x a data.length) :
    ∀ q n, q ≠ p → s.pkts q = some n → n.data b (write s.mem a data) = n.data b s.mem :=
  fun q n other at_q => flatMap_data_write_other s.mem (inv.wf q n at_q).fits
    (inv.apart distinct at_p at_q (Ne.symm other) own) inside

omit [Fintype P] [DecidableEq P] in
theorem view_eq {s : State P M} {p : P} {m : Pktmbuf M} (at_p : s.pkts p = some m) :
    s.view b p = some (m.data b s.mem) :=
  congrArg (Option.map _) at_p

/-- A call that is not refused does to the packets what it does to byte strings. -/
theorem exec_refines [DecidableEq M] {s s' : State P M} {op : Op P M} (inv : s.Inv b mbufs)
    (distinct : mbufs.Nodup) (h : exec b s op = some s') :
    s'.Inv b mbufs ∧ s'.view b = op.spec (s.view b) := by
  cases op with
  | alloc p x =>
    simp only [exec] at h
    split at h
    · rename_i ready
      cases h
      obtain ⟨wf, -, empty⟩ := reset_spec b s.mem x
      have taken := inv.set p (some (rtePktmbufReset b x)) (s.pool.erase x) s.mem
        (fun m hm => Option.some.inj hm ▸ wf) (by
          rw [ready.1, add_comm]
          exact (Multiset.cons_erase ready.2).trans (add_zero s.pool).symm) fun _ _ _ _ => rfl
      refine ⟨taken.1, taken.2.trans ?_⟩
      rw [Option.map_some, empty]
      rfl
    · cases h
  | prepend p data small =>
    obtain ⟨m, at_p, called⟩ := Option.bind_eq_some_iff.mp h
    obtain ⟨⟨a, m'⟩, done, rfl⟩ := Option.map_eq_some_iff.mp called
    obtain ⟨wf, own, ⟨x, here, inside⟩, bytes⟩ :=
      prepend_spec (inv.wf p m at_p) (inv.nodup distinct at_p) done s.mem
    have written := inv.replaced at_p wf own _ (inv.frame distinct at_p here inside)
    refine ⟨written.1, written.2.trans ?_⟩
    rw [bytes, Op.spec, view_eq at_p]
    rfl
  | append p data small =>
    obtain ⟨m, at_p, called⟩ := Option.bind_eq_some_iff.mp h
    obtain ⟨⟨a, m'⟩, done, rfl⟩ := Option.map_eq_some_iff.mp called
    obtain ⟨wf, own, ⟨x, here, inside⟩, bytes⟩ :=
      append_spec (inv.wf p m at_p) (inv.nodup distinct at_p) done s.mem
    have written := inv.replaced at_p wf own _ (inv.frame distinct at_p here inside)
    refine ⟨written.1, written.2.trans ?_⟩
    rw [bytes, Op.spec, view_eq at_p]
    rfl
  | adj p len small =>
    obtain ⟨m, at_p, called⟩ := Option.bind_eq_some_iff.mp h
    obtain ⟨m', done, rfl⟩ := Option.map_eq_some_iff.mp called
    obtain ⟨wf, own, bytes⟩ := adj_spec (inv.wf p m at_p) done s.mem
    have cut := inv.replaced at_p wf own s.mem fun _ _ _ _ => rfl
    refine ⟨cut.1, cut.2.trans ?_⟩
    rw [bytes, Op.spec, view_eq at_p]
    rfl
  | trim p len small =>
    obtain ⟨m, at_p, called⟩ := Option.bind_eq_some_iff.mp h
    obtain ⟨m', done, rfl⟩ := Option.map_eq_some_iff.mp called
    obtain ⟨wf, own, bytes⟩ := trim_spec (inv.wf p m at_p) done s.mem
    have cut := inv.replaced at_p wf own s.mem fun _ _ _ _ => rfl
    refine ⟨cut.1, cut.2.trans ?_⟩
    rw [bytes, Op.spec, view_eq at_p]
    rfl
  | chain p q other =>
    obtain ⟨m, at_p, called⟩ := Option.bind_eq_some_iff.mp h
    obtain ⟨n, at_q, called⟩ := Option.bind_eq_some_iff.mp called
    obtain ⟨m', done, rfl⟩ := Option.map_eq_some_iff.mp called
    obtain ⟨wf, own, bytes⟩ := chain_spec (inv.wf p m at_p) (inv.wf q n at_q) done s.mem
    -- as if the second packet went to the pool and the first one took its mbufs from there
    obtain ⟨between, left⟩ := inv.set q none (s.pool + held (some n)) s.mem
      (fun _ hm => by cases hm) (by rw [at_q]; exact add_zero _) fun _ _ _ _ => rfl
    have still : Function.update s.pkts q none p = some m := by
      rw [Function.update_of_ne other, at_p]
    obtain ⟨after, joined⟩ := between.set p (some m') s.pool s.mem
      (fun _ hm => Option.some.inj hm ▸ wf) (by
        change s.pool + held (some m') = s.pool + held (some n) +
          held (Function.update s.pkts q none p)
        rw [still, add_assoc]
        congr 1
        exact (congrArg (fun l : List M => (l : Multiset M)) own).trans
          ((Multiset.coe_add _ _).symm.trans (add_comm _ _))) fun _ _ _ _ => rfl
    refine ⟨after, joined.trans ?_⟩
    rw [left, Option.map_some, bytes, Op.spec, view_eq at_p, view_eq at_q]
    rfl
  | linearize p =>
    obtain ⟨m, at_p, called⟩ := Option.bind_eq_some_iff.mp h
    obtain ⟨⟨mem, m', freed⟩, done, rfl⟩ := Option.map_eq_some_iff.mp called
    obtain ⟨wf, own, ⟨x, here, a, data, rfl, inside⟩, bytes⟩ :=
      linearize_spec (inv.wf p m at_p) (inv.nodup distinct at_p) done
    obtain ⟨after, same⟩ := inv.set p (some m') (s.pool + (freed : Multiset M))
      (write s.mem a data) (fun _ hm => Option.some.inj hm ▸ wf) (by
        rw [at_p, add_assoc]
        congr 1
        exact (add_comm _ _).trans ((Multiset.coe_add _ _).trans
          (congrArg (fun l : List M => (l : Multiset M)) own.symm)))
      (inv.frame distinct at_p here inside)
    refine ⟨after, same.trans ?_⟩
    rw [Option.map_some, bytes, Op.spec, ← view_eq at_p]
    exact Function.update_eq_self p (s.view b)
  | free p =>
    obtain ⟨m, at_p, rfl⟩ := Option.map_eq_some_iff.mp h
    exact inv.set p none (s.pool + held (some m)) s.mem (fun _ hm => by cases hm)
      (by rw [at_p]; exact add_zero _) fun _ _ _ _ => rfl

/-- A run keeps the invariant and comes to the same on byte strings. -/
theorem follow_refines [DecidableEq M] {s s' : State P M} {ops : List (Op P M)}
    (distinct : mbufs.Nodup) (inv : s.Inv b mbufs)
    (h : System.follow (fun op s => exec b s op) ops s = some s') :
    s'.Inv b mbufs ∧ s'.view b = ops.foldl Op.spec (s.view b) := by
  induction ops generalizing s with
  | nil =>
    cases h
    exact ⟨inv, rfl⟩
  | cons op ops ih =>
    obtain ⟨t, first, rest⟩ := Option.bind_eq_some_iff.mp h
    obtain ⟨inv', one⟩ := exec_refines inv distinct first
    rw [List.foldl_cons, ← one]
    exact ih inv' rest

/-- After any sequence of calls the packets hold what the calls come to on byte strings, the
check of the library finds nothing wrong with any header, and every mbuf is in the pool or in
one packet. -/
theorem run_refines [DecidableEq M] {s : State P M} {ops : List (Op P M)} {mem : Nat → UInt8}
    (distinct : mbufs.Nodup)
    (h : System.follow (fun op s => exec b s op) ops (State.populated P mem mbufs) = some s) :
    s.view b = ops.foldl Op.spec (fun _ => none) ∧
      (∀ p m, s.pkts p = some m → rteMbufCheck b m = none) ∧
      s.pool + ∑ p, held (s.pkts p) = mbufs := by
  obtain ⟨inv, same⟩ := follow_refines distinct (State.Inv.start b mem mbufs) h
  exact ⟨same, fun p m at_p => (inv.wf p m at_p).check, inv.conserved⟩

end

/-- Two buffers that lie one after the other. -/
def smallBuffers : Buffers Bool where
  bufAddr m := if m then 1256 else 1000
  bufLen _ := 256
  small _ := by
    change 256 < 65536
    decide
  apart m n other := by
    cases m <;> cases n <;> first | exact absurd rfl other | decide

/-- Two packets are filled and joined, and the bytes moved into one mbuf. -/
def joined : Option (State Bool Bool) :=
  System.follow (fun op s => exec smallBuffers s op)
    [.alloc true true, .append true [1, 2] (by decide), .alloc false false,
      .append false [3, 4] (by decide), .prepend true [9] (by decide),
      .chain true false (by decide), .linearize true, .adj true 2 (by decide),
      .trim true 1 (by decide)]
    (.populated Bool (fun _ => 0) {false, true})

theorem joined_runs : joined.isSome = true := by
  decide +kernel

theorem run_refines_joined : ∃ s, joined = some s ∧ s.view smallBuffers true = some [2, 3] ∧
    ∀ p m, s.pkts p = some m → rteMbufCheck smallBuffers m = none := by
  obtain ⟨s, hs⟩ := Option.isSome_iff_exists.mp joined_runs
  obtain ⟨bytes, checked, -⟩ := run_refines (by decide) hs
  exact ⟨s, hs, by rw [bytes]; rfl, checked⟩

end PacketChains
