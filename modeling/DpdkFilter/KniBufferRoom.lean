import DpdkFilter.Interleaving
import DpdkFilter.Kni
import DpdkFilter.Startup

/-!
# The room in the buffers given to the kernel

The headers of the mbufs beside the queues they move through. The kernel bounds what it
stores by the packet size of the interface, the pool bounds what a buffer can take.
-/

namespace KniBufferRoom

open CString Interleaving Kni KniFifo Mbuf Startup

/-! ## Headers -/

/-- `buf_len` and `data_off` of an mbuf. -/
structure BufHdr where
  bufLen : UInt16
  dataOff : UInt16
deriving DecidableEq

/-- `RTE_MIN(RTE_PKTMBUF_HEADROOM, buf_len)`. -/
def headroomIn (bufLen : UInt16) : UInt16 := UInt16.ofNat (min rtePktmbufHeadroom bufLen.toNat)

/-- `rte_pktmbuf_init` in a pool of this data room size. -/
def rtePktmbufInit (dataRoomSize : UInt16) : BufHdr where
  bufLen := dataRoomSize
  dataOff := headroomIn dataRoomSize

/-- `rte_pktmbuf_reset_headroom`, which `rte_pktmbuf_alloc` calls. -/
def rtePktmbufResetHeadroom (h : BufHdr) : BufHdr := { h with dataOff := headroomIn h.bufLen }

/-- The headers after the allocation of these mbufs. -/
def resetAllocated (pkts : List RteMbuf) (hdr : Nat → BufHdr) (a : Nat) : BufHdr :=
  if a ∈ pkts.map RteMbuf.addr then rtePktmbufResetHeadroom (hdr a) else hdr a

/-- How many bytes from `data_off` on `kni_net_tx` writes for an skb. -/
def storedBytes (skb : List UInt8) : Nat := max skb.length ethZlen

/-- What `kni_net_tx` stores ends inside the buffer. -/
def Fits (h : BufHdr) (skb : List UInt8) : Prop :=
  h.dataOff.toNat + storedBytes skb ≤ h.bufLen.toNat

instance (h : BufHdr) (skb : List UInt8) : Decidable (Fits h skb) :=
  inferInstanceAs (Decidable (_ ≤ _))

/-! ## The buffers on their way -/

/-- `held` are the mbufs of the application, the port and its driver. -/
structure State where
  kni : RteKni
  pool : List RteMbuf
  held : List RteMbuf
  hdr : Nat → BufHdr

/-- The mbufs that `kni_allocate_mbufs` takes from the pool. -/
def allocated (s : State) : List RteMbuf :=
  (allocLoop (min (kniFifoFreeCount s.kni.allocQ) maxMbufBurstNum) s.pool).1

def allocate (s : State) : State :=
  let r := kniAllocateMbufs s.kni s.pool
  { s with kni := r.1, pool := r.2, hdr := resetAllocated (allocated s) s.hdr }

def rxBurst (s : State) (num : Nat) : State :=
  let r := rteKniRxBurst s.kni s.pool num
  { kni := r.1
    pool := r.2.1
    held := r.2.2 ++ s.held
    hdr := if r.2.2.length ≠ 0 then resetAllocated (allocated s) s.hdr else s.hdr }

def txBurst (s : State) (mbufs rest : List RteMbuf) : State :=
  let r := rteKniTxBurst s.kni s.pool mbufs
  { s with kni := r.1, pool := r.2.1, held := mbufs.drop r.2.2 ++ rest }

/-- Who holds a buffer may write its data and move `data_off`; nobody changes `buf_len`. -/
inductive Step : State → State → Prop
  | kniAllocateMbufs (s : State) : Step s (allocate s)
  | rteKniRxBurst (s : State) (num : Nat) : Step s (rxBurst s num)
  | rteKniTxBurst (s : State) (mbufs rest : List RteMbuf) (own : s.held.Perm (mbufs ++ rest)) :
      Step s (txBurst s mbufs rest)
  | take (s : State) (m : RteMbuf) (pool : List RteMbuf) (h : s.pool.Perm (m :: pool)) :
      Step s { s with pool := pool, held := m :: s.held }
  | rtePktmbufFree (s : State) (m : RteMbuf) (rest : List RteMbuf) (own : s.held.Perm (m :: rest)) :
      Step s { s with pool := rtePktmbufFree s.pool m, held := rest }
  | rewrite (s : State) (m m' : RteMbuf) (rest : List RteMbuf) (own : s.held.Perm (m :: rest))
      (same : m'.addr = m.addr) : Step s { s with held := m' :: rest }
  | adjust (s : State) (m : RteMbuf) (dataOff : UInt16) (own : m ∈ s.held) :
      Step s { s with
        hdr := Function.update s.hdr m.addr { s.hdr m.addr with dataOff := dataOff } }
  | kniNetTx (s : State) (skb : List UInt8) : Step s { s with kni := (kniNetTx s.kni skb).1 }
  | kniNetRxNormal (s : State) : Step s { s with kni := kniNetRxNormal s.kni }

/-- A pool just created, and an interface for packets of `mbufSize` bytes. -/
structure Created (dataRoomSize : UInt16) (mbufSize : Nat) (s : State) : Prop where
  kni : ∃ ops syncAddr sync memory words,
    s.kni = kniCreated ops mbufSize syncAddr sync memory words
  pool : (s.pool.map RteMbuf.addr).Nodup
  held : s.held = []
  hdr : ∀ a, s.hdr a = rtePktmbufInit dataRoomSize

def buffers (dataRoomSize : UInt16) (mbufSize : Nat) : System State where
  Init := Created dataRoomSize mbufSize
  Step := Step

/-! ## Every buffer is in one place -/

theorem tally_perm (a : Nat) {ms ms' : List RteMbuf} (perm : ms.Perm ms') :
    tally a ms = tally a ms' :=
  (perm.map RteMbuf.addr).count_eq a

theorem tally_pos {m : RteMbuf} {ms : List RteMbuf} (mem : m ∈ ms) : 0 < tally m.addr ms :=
  List.count_pos_iff.mpr (List.mem_map_of_mem mem)

def State.places (s : State) (a : Nat) : Nat := s.kni.tally a + tally a s.pool + tally a s.held

theorem step_places {s t : State} (h : Step s t) (a : Nat) : t.places a = s.places a := by
  cases h with
  | kniAllocateMbufs =>
    have kept := kniAllocateMbufs_tally a s.kni s.pool
    simp only [State.places, allocate]
    omega
  | rteKniRxBurst num =>
    have kept := rteKniRxBurst_tally a s.kni s.pool num
    simp only [State.places, rxBurst, tally_append]
    omega
  | rteKniTxBurst mbufs rest own =>
    have kept := rteKniTxBurst_tally a s.kni s.pool mbufs
    have owned := tally_perm a own
    rw [tally_append] at owned
    dsimp only at kept
    simp only [State.places, txBurst, tally_append]
    omega
  | take m pool h =>
    have taken := tally_perm a h
    rw [tally_cons] at taken
    simp only [State.places]
    rw [tally_cons a m s.held]
    omega
  | rtePktmbufFree m rest own =>
    have owned := tally_perm a own
    rw [tally_cons] at owned
    simp only [State.places, Kni.rtePktmbufFree]
    rw [tally_cons a m s.pool]
    omega
  | rewrite m m' rest own same =>
    have owned := tally_perm a own
    rw [tally_cons] at owned
    have addr := tally_congr a same
    simp only [State.places]
    rw [tally_cons a m' rest]
    omega
  | adjust m dataOff own => rfl
  | kniNetTx skb => simp only [State.places, kniNetTx_tally]
  | kniNetRxNormal => simp only [State.places, kniNetRxNormal_tally]

/-! ## What the calls do to alloc_q -/

/-- What stands on alloc_q after an allocation stood there or has just been allocated. -/
theorem mem_allocateUpTo {n : Nat} {kni : RteKni} {pool : List RteMbuf} {m : RteMbuf}
    (h : m ∈ (allocateUpTo n kni pool).1.allocQ.standing) :
    m ∈ kni.allocQ.standing ∨ m ∈ (allocLoop n pool).1 := by
  unfold allocateUpTo at h
  generalize allocLoop n pool = loop at h ⊢
  obtain ⟨pkts, rest⟩ := loop
  dsimp only at h ⊢
  split at h
  · exact Or.inl h
  · rw [kniFifoPut_standing] at h
    rcases List.mem_append.mp h with old | new
    · exact Or.inl old
    · exact Or.inr (List.mem_of_mem_take new)

theorem mem_rxBurst {s : State} {num : Nat} {m : RteMbuf}
    (h : m ∈ (rxBurst s num).kni.allocQ.standing) :
    m ∈ s.kni.allocQ.standing ∨
      m ∈ allocated s ∧ (rxBurst s num).hdr = resetAllocated (allocated s) s.hdr := by
  unfold rxBurst rteKniRxBurst at h ⊢
  generalize kniFifoGet s.kni.txQ num = get at h ⊢
  obtain ⟨txQ, mbufs⟩ := get
  dsimp only at h ⊢
  by_cases got : mbufs.length ≠ 0
  · rw [if_pos got] at h
    rcases mem_allocateUpTo h with old | new
    · exact Or.inl old
    · refine Or.inr ⟨new, ?_⟩
      simp only [if_pos got]
  · rw [if_neg got] at h
    exact Or.inl h

theorem rteKniTxBurst_kept (kni : RteKni) (pool mbufs : List RteMbuf) :
    (rteKniTxBurst kni pool mbufs).1.allocQ = kni.allocQ ∧
      (rteKniTxBurst kni pool mbufs).1.mbufSize = kni.mbufSize := by
  obtain ⟨num, rxQ, _, _, heq⟩ := rteKniTxBurst_spec kni pool mbufs
  rw [heq]
  exact ⟨rfl, rfl⟩

theorem rteKniRxBurst_mbufSize (kni : RteKni) (pool : List RteMbuf) (num : Nat) :
    (rteKniRxBurst kni pool num).1.mbufSize = kni.mbufSize := by
  obtain ⟨txQ, allocQ, _, frame⟩ := rteKniRxBurst_frame kni pool num
  rw [frame]

/-! ## Headers over a run -/

section
variable {dataRoomSize : UInt16} {mbufSize : Nat} {pkts : List RteMbuf} {hdr : Nat → BufHdr}

theorem reset_eq_init {h : BufHdr} (bufLen : h.bufLen = dataRoomSize) :
    rtePktmbufResetHeadroom h = rtePktmbufInit dataRoomSize := by
  subst bufLen
  rfl

theorem resetAllocated_bufLen (pkts : List RteMbuf) (hdr : Nat → BufHdr) (a : Nat) :
    (resetAllocated pkts hdr a).bufLen = (hdr a).bufLen := by
  unfold resetAllocated
  split <;> rfl

/-- Allocated or as initialised before, the header is as initialised. -/
theorem resetAllocated_init (bufLen : ∀ a, (hdr a).bufLen = dataRoomSize) {m : RteMbuf}
    (h : hdr m.addr = rtePktmbufInit dataRoomSize ∨ m ∈ pkts) :
    resetAllocated pkts hdr m.addr = rtePktmbufInit dataRoomSize := by
  unfold resetAllocated
  split
  · exact reset_eq_init (bufLen m.addr)
  · rename_i other
    exact h.resolve_right fun mem => other (List.mem_map_of_mem mem)

/-- The invariant: buffers are nowhere twice, `buf_len` is the data room, and on alloc_q
`data_off` stands where `rte_pktmbuf_init` put it. -/
structure Laid (dataRoomSize : UInt16) (mbufSize : Nat) (s : State) : Prop where
  once : ∀ a, s.places a ≤ 1
  bufLen : ∀ a, (s.hdr a).bufLen = dataRoomSize
  given : ∀ m ∈ s.kni.allocQ.standing, s.hdr m.addr = rtePktmbufInit dataRoomSize
  mbufSize : s.kni.mbufSize = mbufSize

theorem created_laid {s : State} (h : Created dataRoomSize mbufSize s) :
    Laid dataRoomSize mbufSize s := by
  obtain ⟨ops, syncAddr, sync, memory, words, hkni⟩ := h.kni
  constructor
  · intro a
    have pool : tally a s.pool ≤ 1 := List.nodup_iff_count.mp h.pool a
    have empty : s.kni.tally a = 0 := by
      rw [hkni]
      simp [RteKni.tally, kniCreated]
    rw [State.places, h.held, empty, tally_nil]
    omega
  · intro a
    rw [h.hdr]
    rfl
  · intro m mem
    exact h.hdr m.addr
  · rw [hkni]
    rfl

theorem step_laid {s t : State} (laid : Laid dataRoomSize mbufSize s) (h : Step s t) :
    Laid dataRoomSize mbufSize t := by
  have once : ∀ a, t.places a ≤ 1 := by
    intro a
    rw [step_places h a]
    exact laid.once a
  cases h with
  | kniAllocateMbufs =>
    refine ⟨once, ?_, ?_, ?_⟩
    · intro a
      exact (resetAllocated_bufLen _ _ a).trans (laid.bufLen a)
    · intro m mem
      apply resetAllocated_init laid.bufLen
      exact (mem_allocateUpTo mem).imp (laid.given m) id
    · obtain ⟨allocQ, frame⟩ := kniAllocateMbufs_frame s.kni s.pool
      rw [allocate]
      dsimp only
      rw [frame]
      exact laid.mbufSize
  | rteKniRxBurst num =>
    have hdr : (rxBurst s num).hdr = s.hdr ∨
        (rxBurst s num).hdr = resetAllocated (allocated s) s.hdr := by
      unfold rxBurst
      dsimp only
      split
      · exact Or.inr rfl
      · exact Or.inl rfl
    refine ⟨once, ?_, ?_, ?_⟩
    · intro a
      rcases hdr with same | reset
      · rw [same]
        exact laid.bufLen a
      · rw [reset, resetAllocated_bufLen]
        exact laid.bufLen a
    · intro m mem
      rcases mem_rxBurst mem with old | ⟨new, reset⟩
      · rcases hdr with same | reset
        · rw [same]
          exact laid.given m old
        · rw [reset]
          exact resetAllocated_init laid.bufLen (Or.inl (laid.given m old))
      · rw [reset]
        exact resetAllocated_init laid.bufLen (Or.inr new)
    · exact (rteKniRxBurst_mbufSize s.kni s.pool num).trans laid.mbufSize
  | rteKniTxBurst mbufs rest own =>
    obtain ⟨allocQ, size⟩ := rteKniTxBurst_kept s.kni s.pool mbufs
    refine ⟨once, laid.bufLen, ?_, size.trans laid.mbufSize⟩
    intro m mem
    rw [txBurst] at mem
    dsimp only at mem
    rw [allocQ] at mem
    exact laid.given m mem
  | take m pool h => exact ⟨once, laid.bufLen, laid.given, laid.mbufSize⟩
  | rtePktmbufFree m rest own => exact ⟨once, laid.bufLen, laid.given, laid.mbufSize⟩
  | rewrite m m' rest own same => exact ⟨once, laid.bufLen, laid.given, laid.mbufSize⟩
  | adjust m dataOff own =>
    refine ⟨once, ?_, ?_, laid.mbufSize⟩
    · intro a
      dsimp only
      by_cases same : a = m.addr
      · rw [same, Function.update_self]
        exact laid.bufLen m.addr
      · rw [Function.update_of_ne same]
        exact laid.bufLen a
    · intro m' mem
      -- a buffer that is held is not on alloc_q
      have other : m'.addr ≠ m.addr := by
        intro same
        have held := tally_pos own
        have queued : 0 < tally m'.addr s.kni.allocQ.standing := tally_pos mem
        have single := laid.once m.addr
        rw [same] at queued
        rw [State.places, RteKni.tally] at single
        omega
      dsimp only
      rw [Function.update_of_ne other]
      exact laid.given m' mem
  | kniNetTx skb =>
    rcases kniNetTx_spec s.kni skb with ⟨_, same⟩ | ⟨m, allocQ, txQ, front, _, heq⟩
    · refine ⟨once, laid.bufLen, ?_, ?_⟩
      · rw [same]
        exact laid.given
      · rw [same]
        exact laid.mbufSize
    · refine ⟨once, laid.bufLen, ?_, ?_⟩
      · rw [heq]
        intro m' mem
        exact laid.given m' (by rw [front]; exact List.mem_cons_of_mem m mem)
      · rw [heq]
        exact laid.mbufSize
  | kniNetRxNormal =>
    obtain ⟨rxQ, freeQ, frame⟩ := kniNetRxNormal_frame s.kni
    refine ⟨once, laid.bufLen, ?_, ?_⟩
    · rw [frame]
      exact laid.given
    · rw [frame]
      exact laid.mbufSize

theorem reachable_laid {s : State} (reach : (buffers dataRoomSize mbufSize).Reachable s) :
    Laid dataRoomSize mbufSize s :=
  reach.invariant (fun _ => created_laid) (fun _ _ => step_laid)

end

/-! ## The guard -/

/-- The kernel stores into a buffer that stands on alloc_q. -/
theorem stored_in_given {kni : RteKni} {skb : List UInt8} {pkt : RteMbuf}
    (h : (kniNetTx kni skb).2 = some pkt) : ∃ m ∈ kni.allocQ.standing, pkt = storeSkb m skb := by
  rcases kniNetTx_spec kni skb with ⟨none, _⟩ | ⟨m, allocQ, txQ, front, _, heq⟩
  · cases none.symm.trans h
  · rw [heq, Option.some.injEq] at h
    refine ⟨m, ?_, h.symm⟩
    rw [front]
    exact List.mem_cons_self

/-- A store fits if the headroom leaves enough of the data room. -/
theorem init_fits_iff (dataRoomSize : UInt16) (skb : List UInt8) :
    Fits (rtePktmbufInit dataRoomSize) skb ↔
      min rtePktmbufHeadroom dataRoomSize.toNat + storedBytes skb ≤ dataRoomSize.toNat := by
  have size := dataRoomSize.toNat_lt
  have off : (headroomIn dataRoomSize).toNat = min rtePktmbufHeadroom dataRoomSize.toNat := by
    rw [headroomIn, UInt16.toNat_ofNat']
    exact Nat.mod_eq_of_lt (by omega)
  rw [Fits, rtePktmbufInit]
  dsimp only
  rw [off]

/-- In every state of a run with the numbers `main` uses and for every buffer given to the
kernel: an skb is dropped or ends in the buffer, except one whose length lies between the
data room without its headroom and the data room. -/
theorem guard_protects_iff {portId : UInt16} {kniName : CStr} {s : State}
    (reach : (buffers (UInt16.ofNat rteMbufDefaultBufSize)
      (kniConf portId kniName).mbufSize).Reachable s)
    {m : RteMbuf} (given : m ∈ s.kni.allocQ.standing) (skb : List UInt8) :
    (skb.length ≤ s.kni.mbufSize → Fits (s.hdr m.addr) skb) ↔
      skb.length ≤ rteMbufDefaultBufSize - rtePktmbufHeadroom ∨
        rteMbufDefaultBufSize < skb.length := by
  have laid := reachable_laid reach
  have guard : s.kni.mbufSize = rteMbufDefaultBufSize := laid.mbufSize
  have room : Fits (s.hdr m.addr) skb ↔
      skb.length ≤ rteMbufDefaultBufSize - rtePktmbufHeadroom := by
    rw [laid.given m given, init_fits_iff]
    simp only [storedBytes, rteMbufDefaultBufSize, rtePktmbufHeadroom, ethZlen, UInt16.toNat_ofNat']
    omega
  rw [guard, room]
  constructor
  · intro h
    by_cases admitted : skb.length ≤ rteMbufDefaultBufSize
    · exact Or.inl (h admitted)
    · exact Or.inr (Nat.not_le.mp admitted)
  · rintro (short | dropped) admitted
    · exact short
    · exact absurd admitted (Nat.not_le.mpr dropped)

/-- A pool of one mbuf, given to the kernel. -/
def oneGiven : State :=
  let m : RteMbuf := ⟨0, 0, 0, fun _ => 0⟩
  allocate
    { kni := kniCreated ⟨0, none, none, none, none, none⟩ rteMbufDefaultBufSize 1
        ⟨0, [], false, 0⟩ (fun _ => m) fun _ => 0
      pool := [m]
      held := []
      hdr := fun _ => rtePktmbufInit (UInt16.ofNat rteMbufDefaultBufSize) }

theorem oneGiven_reachable : (buffers (UInt16.ofNat rteMbufDefaultBufSize)
    (kniConf 0 []).mbufSize).Reachable oneGiven := by
  refine System.Reachable.step (System.Reachable.init ?_) (Step.kniAllocateMbufs _)
  exact ⟨⟨_, _, _, _, _, rfl⟩, by simp, rfl, fun _ => rfl⟩

theorem oneGiven_standing : oneGiven.kni.allocQ.standing = [⟨0, 0, 0, fun _ => 0⟩] := rfl

/-- A frame of the usual largest size has room. -/
theorem oneGiven_largest_frame : Fits (oneGiven.hdr 0) (List.replicate 1514 0) := by
  have given : (⟨0, 0, 0, fun _ => 0⟩ : RteMbuf) ∈ oneGiven.kni.allocQ.standing :=
    oneGiven_standing ▸ List.mem_singleton_self _
  apply (guard_protects_iff oneGiven_reachable given (List.replicate 1514 0)).mpr
  · rw [List.length_replicate]
    exact Or.inl (by decide)
  · rw [List.length_replicate]
    decide

/-- An skb of 2049 bytes is let through and ends one byte past the buffer. -/
theorem guard_lets_through : ∃ s m, (buffers (UInt16.ofNat rteMbufDefaultBufSize)
    (kniConf 0 []).mbufSize).Reachable s ∧ m ∈ s.kni.allocQ.standing ∧
      ¬ (2049 ≤ s.kni.mbufSize → Fits (s.hdr m.addr) (List.replicate 2049 0)) := by
  refine ⟨oneGiven, ⟨0, 0, 0, fun _ => 0⟩, oneGiven_reachable, ?_, ?_⟩
  · exact oneGiven_standing ▸ List.mem_singleton_self _
  · intro protects
    have fits := protects (by decide)
    rw [Fits, storedBytes, List.length_replicate] at fits
    revert fits
    decide

end KniBufferRoom
