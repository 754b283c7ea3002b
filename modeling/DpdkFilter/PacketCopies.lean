import DpdkFilter.PacketReads

/-!
# Copying a stretch of a packet into other mbufs

The bytes go into mbufs from a pool, each filled before the next one is chained. What comes out
has the bytes that were asked for, unless the pool has too little room for them; its header
counts the segments in 16 bits.
-/

namespace PacketChains

open ByteMemory

universe u
variable {M : Type u}

/-- The copy while it is made: the mbufs before the last one, and the last one. -/
structure Copying (M : Type u) where
  mem : Nat → UInt8
  pool : List M
  full : List (Segment M)
  last : Segment M
  nbSegs : Nat
  pktLen : Nat

def Copying.segs (c : Copying M) : List (Segment M) := c.full ++ [c.last]

/-- The copy is `mc` with `mc->nb_segs` and `mc->pkt_len`. -/
def Copying.packet (c : Copying M) : Pktmbuf M :=
  match c.full with
  | [] => ⟨c.last, [], c.pktLen, c.nbSegs⟩
  | head :: rest => ⟨head, rest ++ [c.last], c.pktLen, c.nbSegs⟩

/-- No copy and the mempool, or a copy with the memory and the mempool; a fault is an access
through the null pointer after the last segment. -/
inductive CopyResult (M : Type u) where
  | null (pool : List M)
  | copied (mem : Nat → UInt8) (mc : Pktmbuf M) (pool : List M)
  | fault
  | unfinished

section
variable (b : Buffers M)

/-- Chain a new mbuf if the last one is full. -/
def Copying.chainNew (c : Copying M) : Option (Copying M) :=
  if rtePktmbufTailroom b c.last = 0 then
    match c.pool with
    | [] => none
    | x :: pool => some { c with
        pool := pool
        full := c.full ++ [c.last]
        last := (rtePktmbufReset b x).head
        nbSegs := (c.nbSegs + 1) % 2 ^ 16 }
  else some c

/-- Append `copyLen` bytes of a segment to the last mbuf. -/
def Copying.appendFrom (c : Copying M) (seg : Segment M) (off copyLen : Nat) : Copying M :=
  { c with
    mem := write c.mem (rtePktmbufMtodOffset b c.last c.last.dataLen)
      (bytes c.mem (rtePktmbufMtodOffset b seg off) copyLen)
    last := { c.last with dataLen := (c.last.dataLen + copyLen) % 2 ^ 16 }
    pktLen := (c.pktLen + copyLen) % 2 ^ 32 }

/-- One round of the loop of `rte_pktmbuf_copy`: its result where it ends, or else the copy with
what is still to be copied. -/
def copyRound (c : Copying M) (off len : Nat) (segs : List (Segment M)) :
    Except (CopyResult M) (Copying M × Nat × Nat × List (Segment M)) :=
  if len = 0 then .error (.copied c.mem c.packet c.pool)
  else
    match skipSegs off segs with
    | none => .error .fault
    | some (off, seg, rest) =>
      match c.chainNew b with
      | none => .error (.null (rtePktmbufFree c.packet ++ c.pool))
      | some c =>
        let copyLen := min (min (seg.dataLen - off) len) (rtePktmbufTailroom b c.last)
        .ok (c.appendFrom b seg off copyLen, off + copyLen, len - copyLen, seg :: rest)

def copyLoop : Nat → Copying M → Nat → Nat → List (Segment M) → CopyResult M
  | 0, _, _, _, _ => .unfinished
  | fuel + 1, c, off, len, segs =>
    match copyRound b c off len segs with
    | .error r => r
    | .ok (c, off, len, segs) => copyLoop fuel c off len segs

/-- The mempool gives its mbufs in the order of the list. -/
def rtePktmbufCopy (mem : Nat → UInt8) (m : Pktmbuf M) (pool : List M) (off len : Nat) :
    CopyResult M :=
  if off ≥ m.pktLen then .null pool
  else
    match pool with
    | [] => .null []
    | x :: pool =>
      let len := if len > m.pktLen - off then m.pktLen - off else len
      copyLoop b (len + pool.length + 1) ⟨mem, pool, [], (rtePktmbufReset b x).head, 1, 0⟩ off len
        m.segs

/-- What an mbuf that is allocated has room for. -/
def allocRoom (x : M) : Nat := b.bufLen x - min rtePktmbufHeadroomSize (b.bufLen x)

/-- At the head of the loop: what is copied and what is still to be copied is what was asked
for, the packet is as it was, and all mbufs before the last one are full. -/
structure Copying.Ok (m : Pktmbuf M) (before : Nat → UInt8) (mbufs : List M)
    (target : List UInt8) (c : Copying M) (off len : Nat) (segs : List (Segment M)) : Prop where
  suffix : ∃ pre, m.segs = pre ++ segs
  enough : off + len ≤ (segs.map Segment.dataLen).sum
  same : m.data b c.mem = m.data b before
  sofar : c.segs.flatMap (Segment.data b c.mem) ++
    ((segs.flatMap (Segment.data b c.mem)).drop off).take len = target
  own : c.segs.map Segment.mbuf ++ c.pool = mbufs
  fresh : ∀ s ∈ c.segs, s.dataOff = min rtePktmbufHeadroomSize (b.bufLen s.mbuf) ∧
    s.dataOff + s.dataLen ≤ b.bufLen s.mbuf
  filled : ∀ s ∈ c.full, s.dataLen = allocRoom b s.mbuf
  number : c.nbSegs = c.segs.length % 2 ^ 16
  length : c.pktLen = (c.segs.map Segment.dataLen).sum

end

variable {b : Buffers M}

theorem Copying.packet_segs (c : Copying M) : c.packet.segs = c.segs := by
  unfold Copying.packet Copying.segs
  cases c.full <;> rfl

theorem Copying.packet_header (c : Copying M) :
    c.packet.pktLen = c.pktLen ∧ c.packet.nbSegs = c.nbSegs := by
  unfold Copying.packet
  cases c.full <;> exact ⟨rfl, rfl⟩

section
variable {m : Pktmbuf M} {before : Nat → UInt8} {mbufs : List M} {target : List UInt8}
  {c : Copying M} {off len : Nat} {segs : List (Segment M)}

theorem Copying.Ok.last_fits (ok : c.Ok b m before mbufs target off len segs) :
    c.last.dataOff = min rtePktmbufHeadroomSize (b.bufLen c.last.mbuf) ∧
      c.last.dataOff + c.last.dataLen ≤ b.bufLen c.last.mbuf :=
  ok.fresh c.last (List.mem_append_right _ (.head _))

/-- The length of the copy and what is to come. -/
theorem Copying.Ok.total (ok : c.Ok b m before mbufs target off len segs) :
    c.pktLen + len = target.length := by
  have enough := ok.enough
  rw [← ok.sofar, List.length_append, length_flatMap_data, List.length_take, List.length_drop,
    length_flatMap_data, ← ok.length]
  omega

theorem Copying.Ok.skip (ok : c.Ok b m before mbufs target off len segs) (more : len ≠ 0) :
    ∃ off' seg rest, skipSegs off segs = some (off', seg, rest) ∧ off' < seg.dataLen ∧
      c.Ok b m before mbufs target off' len (seg :: rest) := by
  have enough := ok.enough
  obtain ⟨pre, off', seg, rest, found, split, place, within⟩ :=
    skipSegs_inside (show off < (segs.map Segment.dataLen).sum by omega)
  obtain ⟨first, whole⟩ := ok.suffix
  refine ⟨off', seg, rest, found, within, { ok with
    suffix := ⟨first ++ pre, by rw [whole, split, List.append_assoc]⟩
    enough := ?_
    sofar := ?_ }⟩
  · rw [split, List.map_append, List.sum_append] at enough
    omega
  · have sofar := ok.sofar
    rwa [split, List.flatMap_append, place, ← length_flatMap_data b c.mem pre,
      List.drop_length_add_append] at sofar

theorem Copying.Ok.chained (ok : c.Ok b m before mbufs target off len segs) {x : M}
    {pool : List M} (none : rtePktmbufTailroom b c.last = 0) (some : c.pool = x :: pool) :
    Copying.Ok b m before mbufs target { c with
      pool := pool
      full := c.full ++ [c.last]
      last := (rtePktmbufReset b x).head
      nbSegs := (c.nbSegs + 1) % 2 ^ 16 } off len segs := by
  obtain ⟨start, fits⟩ := ok.last_fits
  have full := tailroom_eq fits
  have number := ok.number
  have own := ok.own
  rw [some] at own
  refine ⟨ok.suffix, ok.enough, ok.same, ?_, ?_, ?_, ?_, ?_, ?_⟩
  · rw [← ok.sofar]
    congr 1
    change (c.segs ++ [_]).flatMap _ = _
    rw [List.flatMap_append]
    exact List.append_nil _
  · rw [← own]
    change (c.segs ++ [_]).map _ ++ pool = _
    rw [List.map_append, List.append_assoc]
    rfl
  · refine List.forall_mem_append.mpr ⟨ok.fresh, List.forall_mem_singleton.mpr ⟨rfl, ?_⟩⟩
    exact Nat.min_le_right _ _
  · refine List.forall_mem_append.mpr ⟨ok.filled, List.forall_mem_singleton.mpr ?_⟩
    unfold allocRoom
    omega
  · change (c.nbSegs + 1) % 2 ^ 16 = (c.segs ++ [_]).length % 2 ^ 16
    rw [number, List.length_append, List.length_singleton]
    omega
  · change c.pktLen = ((c.segs ++ [_]).map _).sum
    rw [List.map_append, List.sum_append, ← ok.length]
    rfl

theorem Copying.Ok.appended {seg : Segment M} {rest : List (Segment M)} {k : Nat}
    (wf : m.WellFormed b) (nodup : (m.mbufs ++ mbufs).Nodup) (small : target.length < 2 ^ 32)
    (ok : c.Ok b m before mbufs target off len (seg :: rest)) (here : k ≤ seg.dataLen - off)
    (within : off < seg.dataLen) (wanted : k ≤ len) (room : k ≤ rtePktmbufTailroom b c.last) :
    (c.appendFrom b seg off k).Ok b m before mbufs target (off + k) (len - k) (seg :: rest) := by
  obtain ⟨start, fits⟩ := ok.last_fits
  obtain ⟨pre, whole⟩ := ok.suffix
  have size := b.small c.last.mbuf
  have total := ok.total
  rw [tailroom_eq fits] at room
  have grown : (c.last.dataLen + k) % 2 ^ 16 = c.last.dataLen + k := by omega
  have longer : (c.pktLen + k) % 2 ^ 32 = c.pktLen + k := by omega
  have dataLen : (bytes c.mem (rtePktmbufMtodOffset b seg off) k).length = k := length_bytes ..
  have inside : b.Holds c.last.mbuf (rtePktmbufMtodOffset b c.last c.last.dataLen)
      (bytes c.mem (rtePktmbufMtodOffset b seg off) k).length := by
    rw [dataLen]
    simp only [Buffers.Holds, rtePktmbufMtodOffset]
    omega
  -- the last mbuf is not one of the packet, nor one of those before it
  obtain ⟨-, fromPool, apart⟩ := List.nodup_append.mp nodup
  rw [← ok.own] at fromPool apart
  have foreign : c.last.mbuf ∉ m.mbufs := fun h => apart _ h _ (List.mem_append_left _
    (List.mem_map_of_mem (List.mem_append_right _ (.head _)))) rfl
  have new : c.last.mbuf ∉ c.full.map Segment.mbuf := by
    have own := (List.nodup_append.mp fromPool).1
    rw [Copying.segs, List.map_append] at own
    exact fun h => (List.nodup_append.mp own).2.2 _ h _ (.head _) rfl
  have source : (seg :: rest).flatMap (Segment.data b (c.appendFrom b seg off k).mem) =
      (seg :: rest).flatMap (Segment.data b c.mem) := by
    refine flatMap_data_write_other c.mem (fun s hs => wf.fits s ?_) (fun h => foreign ?_) inside
    · rw [whole]
      exact List.mem_append_right _ hs
    · rw [Pktmbuf.mbufs, whole, List.map_append]
      exact List.mem_append_right _ h
  have copied : (c.appendFrom b seg off k).segs.flatMap
      (Segment.data b (c.appendFrom b seg off k).mem) =
        c.segs.flatMap (Segment.data b c.mem) ++
          bytes c.mem (rtePktmbufMtodOffset b seg off) k := by
    have fullFits : ∀ s ∈ c.full, s.dataOff + s.dataLen ≤ b.bufLen s.mbuf := fun s hs =>
      (ok.fresh s (List.mem_append_left _ hs)).2
    have last : Segment.data b (c.appendFrom b seg off k).mem
        { c.last with dataLen := c.last.dataLen + k } =
          c.last.data b c.mem ++ bytes c.mem (rtePktmbufMtodOffset b seg off) k :=
      append_data c.mem rfl rfl (by rw [dataLen])
    rw [Copying.segs, Copying.segs, List.flatMap_append, List.flatMap_append,
      List.flatMap_singleton,
      List.flatMap_singleton, List.append_assoc, ← last]
    congr 1
    · exact flatMap_data_write_other c.mem fullFits new inside
    · simp only [Copying.appendFrom, grown]
  refine ⟨ok.suffix, ?_, ?_, ?_, ?_, ?_, ok.filled, ?_, ?_⟩
  · have enough := ok.enough
    omega
  · exact (flatMap_data_write_other c.mem wf.fits foreign inside).trans ok.same
  · have rest : k + (len - k) = len := by omega
    rw [source, copied, List.append_assoc, ← ok.sofar, bytes_eq_slice c.mem (by omega)]
    congr 1
    rw [← List.drop_drop, ← List.take_add, rest]
  · rw [← ok.own]
    congr 1
    rw [Copying.segs, Copying.segs, List.map_append, List.map_append]
    rfl
  · refine List.forall_mem_append.mpr ⟨fun s hs => ok.fresh s (List.mem_append_left _ hs),
      List.forall_mem_singleton.mpr ⟨start, ?_⟩⟩
    simp only [Copying.appendFrom, grown]
    omega
  · have number := ok.number
    rw [Copying.segs, List.length_append, List.length_singleton] at number ⊢
    exact number
  · have length := ok.length
    rw [Copying.segs, List.map_append, List.sum_append, List.map_singleton, List.sum_singleton]
      at length ⊢
    simp only [Copying.appendFrom, grown, longer]
    omega

end

/-! ## The whole copy -/

/-- The check of the library counts the segments. -/
theorem checkLoop_count {segs : List (Segment M)} {nbSegs pktLen : Nat}
    (few : segs.length < 2 ^ 32) (small : nbSegs < 2 ^ 32)
    (h : checkLoop b nbSegs pktLen segs = none) : nbSegs = segs.length := by
  induction segs generalizing nbSegs pktLen with
  | nil =>
    rw [checkLoop] at h
    split at h
    · cases h
    · rename_i none
      exact not_not.mp none
  | cons s rest ih =>
    rw [List.length_cons] at few ⊢
    rw [checkLoop] at h
    split at h
    · cases h
    split at h
    · cases h
    have rest := ih (by omega) (by omega) h
    omega

/-- Nothing is copied only if the packet ends before the offset or the mbufs have too little
room, and then they are all in the pool again. A copy has the bytes asked for, the packet has
what it had, and the check of the library accepts the copy unless it has too many segments. -/
def CopyAnswers (b : Buffers M) (m : Pktmbuf M) (before : Nat → UInt8) (mbufs : List M)
    (off : Nat) (target : List UInt8) : CopyResult M → Prop
  | .null pool => pool = mbufs ∧
      (m.pktLen ≤ off ∨ mbufs = [] ∨ (mbufs.map (allocRoom b)).sum < target.length)
  | .copied mem mc pool => mc.data b mem = target ∧ m.data b mem = m.data b before ∧
      mc.mbufs ++ pool = mbufs ∧
      (off < m.pktLen ∧ target.length ≤ (mbufs.map (allocRoom b)).sum) ∧
      (rteMbufCheck b mc = none ↔ mc.segs.length ≤ rteMbufMaxNbSegs)
  | .fault => False
  | .unfinished => False

section
variable {m : Pktmbuf M} {before : Nat → UInt8} {mbufs : List M} {target : List UInt8}
  {c : Copying M} {off len : Nat} {segs : List (Segment M)}

theorem Copying.Ok.finished (ok : c.Ok b m before mbufs target off 0 segs)
    (count : mbufs.length < 2 ^ 32) {start : Nat}
    (started : start < m.pktLen) :
    CopyAnswers b m before mbufs start target (.copied c.mem c.packet c.pool) := by
  have bytes := ok.sofar
  rw [List.take_zero, List.append_nil] at bytes
  have number := ok.number
  have own := ok.own
  have segsLt : c.segs.length < 2 ^ 32 := by
    have part := congrArg List.length own
    rw [List.length_append, List.length_map] at part
    omega
  have room : (c.segs.map Segment.dataLen).sum ≤ (mbufs.map (allocRoom b)).sum := by
    have each : (c.segs.map Segment.dataLen).sum ≤
        (c.segs.map fun s => allocRoom b s.mbuf).sum := by
      refine List.sum_le_sum fun s hs => ?_
      obtain ⟨start, fits⟩ := ok.fresh s hs
      unfold allocRoom
      omega
    rw [← own, List.map_append, List.map_map, List.sum_append]
    exact Nat.le_trans each (Nat.le_add_right _ _)
  refine ⟨?_, ok.same, ?_, ⟨started, ?_⟩, fun checked => ?_, fun few => ?_⟩
  · rw [Pktmbuf.data, c.packet_segs]
    exact bytes
  · rw [Pktmbuf.mbufs, c.packet_segs]
    exact own
  · have total := ok.total
    rw [ok.length] at total
    omega
  · rw [rteMbufCheck, c.packet_segs, c.packet_header.1, c.packet_header.2] at checked
    split at checked
    · cases checked
    have counted := checkLoop_count segsLt (by omega) checked
    rw [c.packet_segs, rteMbufMaxNbSegs]
    omega
  · rw [c.packet_segs, rteMbufMaxNbSegs] at few
    have header := c.packet_header
    refine Pktmbuf.WellFormed.check ⟨?_, ?_, ?_, ?_⟩
    · rw [c.packet_segs]
      exact fun s hs => (ok.fresh s hs).2
    · rw [c.packet_segs, header.2]
      omega
    · rw [header.2, rteMbufMaxNbSegs]
      omega
    · rw [c.packet_segs, header.1]
      exact ok.length

/-- Every mbuf is full, and there is no other. -/
theorem Copying.Ok.refused (ok : c.Ok b m before mbufs target off len segs) (more : len ≠ 0)
    (h : c.chainNew b = none) (start : Nat) :
    CopyAnswers b m before mbufs start target (.null (rtePktmbufFree c.packet ++ c.pool)) := by
  obtain ⟨full, empty⟩ : rtePktmbufTailroom b c.last = 0 ∧ c.pool = [] := by
    unfold Copying.chainNew at h
    split at h
    · rename_i full
      split at h
      · exact ⟨full, ‹_›⟩
      · cases h
    · cases h
  obtain ⟨off, fits⟩ := ok.last_fits
  rw [tailroom_eq fits] at full
  have own := ok.own
  have each : (c.segs.map Segment.dataLen).sum = (mbufs.map (allocRoom b)).sum := by
    rw [← own, empty, List.append_nil, List.map_map]
    refine congrArg List.sum (List.map_congr_left fun s hs => ?_)
    rcases List.mem_append.mp hs with earlier | last
    · exact ok.filled s earlier
    · rw [List.mem_singleton.mp last]
      simp only [Function.comp_apply, allocRoom]
      omega
  refine ⟨?_, .inr (.inr ?_)⟩
  · rw [rtePktmbufFree, Pktmbuf.mbufs, c.packet_segs]
    exact own
  · have total := ok.total
    rw [ok.length, each] at total
    omega

/-- There is room in the last mbuf, or one has been taken from the pool. -/
theorem Copying.Ok.chainedNew (ok : c.Ok b m before mbufs target off len segs) {c' : Copying M}
    (h : c.chainNew b = some c') :
    c'.Ok b m before mbufs target off len segs ∧
      (rtePktmbufTailroom b c'.last ≠ 0 ∧ c'.pool.length = c.pool.length ∨
        c'.pool.length < c.pool.length) := by
  unfold Copying.chainNew at h
  split at h
  · rename_i full
    split at h
    · cases h
    · rename_i x pool taken
      cases h
      refine ⟨ok.chained full taken, .inr ?_⟩
      rw [taken]
      exact Nat.lt_succ_self _
  · rename_i room
    cases h
    exact ⟨ok, .inl ⟨room, rfl⟩⟩

/-- A round that is not the last one copies a byte or takes an mbuf from the pool. -/
theorem copyRound_spec (wf : m.WellFormed b) (nodup : (m.mbufs ++ mbufs).Nodup)
    (small : target.length < 2 ^ 32) (count : mbufs.length < 2 ^ 32) {start : Nat}
    (started : start < m.pktLen) (ok : c.Ok b m before mbufs target off len segs) :
    match copyRound b c off len segs with
    | .error r => CopyAnswers b m before mbufs start target r
    | .ok (c', off', len', segs') => c'.Ok b m before mbufs target off' len' segs' ∧
        len' + c'.pool.length < len + c.pool.length := by
  unfold copyRound
  by_cases done : len = 0
  · subst done
    rw [if_pos rfl]
    exact ok.finished count started
  obtain ⟨off', seg, rest, found, within, ok'⟩ := ok.skip done
  rw [if_neg done, found]
  cases chained : c.chainNew b with
  | none => exact ok'.refused done chained start
  | some c' =>
    obtain ⟨ok'', taken⟩ := ok'.chainedNew chained
    refine ⟨ok''.appended wf nodup small (by omega) within (by omega) (by omega), ?_⟩
    change _ + c'.pool.length < _
    omega

theorem copyLoop_spec (wf : m.WellFormed b) (nodup : (m.mbufs ++ mbufs).Nodup)
    (small : target.length < 2 ^ 32) (count : mbufs.length < 2 ^ 32) {start : Nat}
    (started : start < m.pktLen) {fuel : Nat}
    (ok : c.Ok b m before mbufs target off len segs) (enough : len + c.pool.length < fuel) :
    CopyAnswers b m before mbufs start target (copyLoop b fuel c off len segs) := by
  induction fuel generalizing c off len segs with
  | zero => omega
  | succ fuel ih =>
    have round := copyRound_spec wf nodup small count started ok
    rw [copyLoop]
    split
    · rename_i r ended
      rwa [ended] at round
    · rename_i c' off' len' segs' more
      rw [more] at round
      exact ih round.1 (by omega)

/-- `rte_pktmbuf_copy` for any packet, offset, length and mempool. -/
theorem copy_right (wf : m.WellFormed b) (nodup : (m.mbufs ++ mbufs).Nodup)
    (count : mbufs.length < 2 ^ 32) (mem : Nat → UInt8) (off len : Nat) :
    CopyAnswers b m mem mbufs off (((m.data b mem).drop off).take len)
      (rtePktmbufCopy b mem m mbufs off len) := by
  have whole := wf.pktLen_le
  have length := wf.length_data mem
  unfold rtePktmbufCopy
  by_cases beyond : off ≥ m.pktLen
  · rw [if_pos beyond]
    exact ⟨rfl, .inl beyond⟩
  rw [if_neg beyond]
  cases mbufs with
  | nil => exact ⟨rfl, .inr (.inl rfl)⟩
  | cons x pool =>
    simp only
    have cut : ((m.data b mem).drop off).take
        (if len > m.pktLen - off then m.pktLen - off else len) =
          ((m.data b mem).drop off).take len := by
      split
      · rw [List.take_of_length_le (by rw [List.length_drop]; omega),
          List.take_of_length_le (by rw [List.length_drop]; omega)]
      · rfl
    have within : (if len > m.pktLen - off then m.pktLen - off else len) ≤ m.pktLen - off := by
      split <;> omega
    generalize (if len > m.pktLen - off then m.pktLen - off else len) = wanted at cut within
    have size : (((m.data b mem).drop off).take len).length < 2 ^ 32 := by
      rw [List.length_take, List.length_drop]
      omega
    refine copyLoop_spec wf nodup size count (Nat.lt_of_not_ge beyond) ?_ (Nat.lt_succ_self _)
    refine ⟨⟨[], rfl⟩, ?_, rfl, cut, rfl, ?_, fun s hs => absurd hs List.not_mem_nil, rfl, rfl⟩
    · rw [← wf.pktLen]
      omega
    · exact List.forall_mem_singleton.mpr ⟨rfl, Nat.min_le_right _ _⟩

end

def threeBuffers : Buffers (Option Bool) where
  bufAddr m := m.elim 1000 fun m => if m then 1512 else 1256
  bufLen _ := 256
  small _ := by
    change 256 < 65536
    decide
  apart m n other := by
    rcases m with _ | _ | _ <;> rcases n with _ | _ | _ <;>
      first | exact absurd rfl other | decide

/-- Two bytes in one mbuf and one in another, with a third one to copy into. -/
def someTwoAndOne : Pktmbuf (Option Bool) :=
  ⟨⟨some true, 128, 2⟩, [⟨some false, 128, 1⟩], 3, 2⟩

theorem copy_right_someTwoAndOne : ∃ mem mc,
    rtePktmbufCopy threeBuffers (fun _ => 7) someTwoAndOne [none] 1 5 = .copied mem mc [] ∧
      mc.data threeBuffers mem = [7, 7] ∧ rteMbufCheck threeBuffers mc = none := by
  have wf : someTwoAndOne.WellFormed threeBuffers := ⟨by decide, rfl, by decide, rfl⟩
  have right := copy_right wf (show (someTwoAndOne.mbufs ++ [none]).Nodup by decide) (by decide)
    (fun _ => 7) 1 5
  cases copy : rtePktmbufCopy threeBuffers (fun _ => 7) someTwoAndOne [none] 1 5 with
  | null pool =>
    rw [copy] at right
    exact absurd right.2 (by decide)
  | copied mem mc pool =>
    rw [copy] at right
    obtain ⟨bytes, -, own, -, checked⟩ := right
    have number := congrArg List.length own
    rw [List.length_append, Pktmbuf.mbufs, List.length_map, List.length_singleton,
      Pktmbuf.segs, List.length_cons] at number
    obtain rfl := List.length_eq_zero_iff.mp (show pool.length = 0 by omega)
    refine ⟨mem, mc, rfl, bytes, checked.mpr ?_⟩
    rw [Pktmbuf.segs, List.length_cons, rteMbufMaxNbSegs]
    omega
  | fault => exact (copy ▸ right : CopyAnswers _ _ _ _ _ _ .fault).elim
  | unfinished => exact (copy ▸ right : CopyAnswers _ _ _ _ _ _ .unfinished).elim

end PacketChains
