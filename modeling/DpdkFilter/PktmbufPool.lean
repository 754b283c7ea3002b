import DpdkFilter.MempoolPlacement
import DpdkFilter.PacketOperations

/-!
# The mbufs of a pool and the device

A pool is created with room for an mbuf, its private data and its buffer in each object, and
populated. A device reads a packet at the IO addresses of its segments, and gets what the
application put there.
-/

namespace PktmbufPool

open ByteMemory Interleaving MempoolLayout PacketChains

universe v

/-- `sizeof(struct rte_mbuf)`. -/
def sizeofRteMbuf : Nat := 128

/-- `RTE_MBUF_PRIV_ALIGN`. -/
def rteMbufPrivAlign : Nat := 8

/-- What there is of memory channels, their ranks, and pages. The number of channels times that
of ranks does not wrap to zero, with which the search for a size would end at one cache line. -/
structure Hardware where
  nchannel : Nat
  nrank : Nat
  minPgShift : Nat
  slots : 0 < memorySlots nchannel nrank
  pages : 6 ≤ minPgShift

/-- `rte_mempool_create_empty`, as far as it goes into the placement, for elements whose sizes do
not wrap. Objects that are not aligned to cache lines are not spread. -/
def rteMempoolCreateEmpty (hw : Hardware) {eltSize : Nat} (small : eltSize + 2048 ≤ 2 ^ 32)
    (noCacheAlign noSpread noIovaContig : Bool) : Placement where
  sz := rteMempoolCalcObjSize (memorySlots hw.nchannel hw.nrank) eltSize noCacheAlign
    (noCacheAlign || noSpread)
  minPgShift := hw.minPgShift
  noCacheAlign := noCacheAlign
  noIovaContig := noIovaContig
  positive := (calcObjSize_whole hw.slots (memorySlots_lt ..) small ..).1
  whole := (calcObjSize_whole hw.slots (memorySlots_lt ..) small ..).2
  aligned := calcObjSize_aligned ..
  pages := hw.pages

/-- The sizes of mbufs are far from wrapping. -/
theorem pktmbuf_small (privSize dataRoomSize : UInt16) :
    sizeofRteMbuf + privSize.toNat + dataRoomSize.toNat + 2048 ≤ 2 ^ 32 := by
  have private_lt := privSize.toNat_lt
  have room_lt := dataRoomSize.toNat_lt
  rw [sizeofRteMbuf]
  omega

/-- `rte_pktmbuf_pool_create_by_ops` up to the empty mempool. -/
def rtePktmbufPoolCreate (hw : Hardware) (privSize dataRoomSize : UInt16) : Option Placement :=
  if rteAlignCeil privSize.toNat rteMbufPrivAlign ≠ privSize.toNat then none
  else some (rteMempoolCreateEmpty hw (pktmbuf_small privSize dataRoomSize) false false false)

theorem calcObjSize_eltSize (slots : Nat) {eltSize : Nat} (small : eltSize + 2048 ≤ 2 ^ 32)
    (noCacheAlign noSpread : Bool) :
    eltSize ≤ (rteMempoolCalcObjSize slots eltSize noCacheAlign noSpread).eltSize := by
  simp only [rteMempoolCalcObjSize]
  omega

theorem poolCreate_spec {hw : Hardware} {privSize dataRoomSize : UInt16} {mp : Placement}
    (h : rtePktmbufPoolCreate hw privSize dataRoomSize = some mp) :
    sizeofRteMbuf + privSize.toNat + dataRoomSize.toNat ≤ mp.sz.eltSize ∧
      mp.noIovaContig = false := by
  rw [rtePktmbufPoolCreate] at h
  split at h
  · cases h
  · cases h
    exact ⟨calcObjSize_eltSize _ (pktmbuf_small ..) .., rfl⟩

/-- A pool of mbufs in zones that lie apart. -/
structure Pool (getIova : Nat → Option Nat) (reserve : Nat → Bool → Nat → Reserved) where
  hw : Hardware
  privSize : UInt16
  dataRoomSize : UInt16
  size : Nat
  mp : Placement
  chunks : List (Zone × List Obj)
  created : rtePktmbufPoolCreate hw privSize dataRoomSize = some mp
  populated : rteMempoolPopulateDefault mp getIova reserve size = some chunks
  zones : ZonesApart chunks

section
variable {getIova : Nat → Option Nat} {reserve : Nat → Bool → Nat → Reserved}

def Pool.objs (pool : Pool getIova reserve) : List Obj := pool.chunks.flatMap Prod.snd

abbrev Pool.Mbuf (pool : Pool getIova reserve) : Type := {o // o ∈ pool.objs}

def Pool.mbufSize (pool : Pool getIova reserve) : Nat := sizeofRteMbuf + pool.privSize.toNat

theorem Pool.apart (pool : Pool getIova reserve) : pool.objs.Pairwise (Apart pool.mp.sz) :=
  populated_apart pool.populated pool.zones

/-- Where `rte_pktmbuf_init` puts the buffers, after each mbuf and its private data. -/
def Pool.buffers (pool : Pool getIova reserve) : Buffers pool.Mbuf where
  bufAddr o := o.1.addr + pool.mbufSize
  bufLen _ := pool.dataRoomSize.toNat
  small _ := pool.dataRoomSize.toNat_lt
  apart o p other := by
    have symm : Std.Symm (Apart pool.mp.sz) := ⟨fun _ _ => Or.symm⟩
    have apart := pool.apart.forall o.2 p.2 fun same => other (Subtype.ext same)
    have fits := (poolCreate_spec pool.created).1
    unfold Apart ObjSize.total at apart
    unfold Pool.mbufSize
    omega

/-- Every object is an mbuf in the pool. -/
def Pool.mbufs (pool : Pool getIova reserve) : Multiset pool.Mbuf :=
  (pool.objs.attach : List pool.Mbuf)

theorem Pool.nodup (pool : Pool getIova reserve) : pool.mbufs.Nodup := by
  refine Multiset.coe_nodup.mpr (List.nodup_attach.mpr (pool.apart.imp fun {a b} apart => ?_))
  rintro rfl
  have positive := pool.mp.positive
  unfold Apart at apart
  omega

/-- `rte_mbuf_data_iova`, from the `buf_iova` that `rte_pktmbuf_init` gives, or none where the
object has no IO address. -/
def rteMbufDataIova (pool : Pool getIova reserve) (seg : Segment pool.Mbuf) : Option Nat :=
  seg.mbuf.1.iova.map fun iova => iova + pool.mbufSize + seg.dataOff

/-- What a device reads of IO memory for a packet, segment after segment. -/
def deviceRead (pool : Pool getIova reserve) (io : Nat → UInt8) (m : Pktmbuf pool.Mbuf) :
    List UInt8 :=
  m.segs.flatMap fun seg => (rteMbufDataIova pool seg).elim [] fun iova => bytes io iova seg.dataLen

/-- Zones that must be contiguous are so in IO memory. -/
def ContiguousZones (getIova : Nat → Option Nat) (reserve : Nat → Bool → Nat → Reserved) : Prop :=
  ∀ mzId size mz, reserve mzId true size = .zone mz →
    ∀ i < mz.len, getIova (mz.addr + i) = mz.iova.map (· + i)

/-- The IO addresses of a segment go on from that of its first byte. -/
theorem iova_right {pool : Pool getIova reserve} (pageWise : PageWise getIova pool.mp.pgSz)
    (contiguous : ContiguousZones getIova reserve) {seg : Segment pool.Mbuf}
    (fits : seg.dataOff + seg.dataLen ≤ pool.buffers.bufLen seg.mbuf) {i : Nat}
    (below : i < seg.dataLen) :
    getIova (rtePktmbufMtodOffset pool.buffers seg 0 + i) =
      (rteMbufDataIova pool seg).map (· + i) := by
  obtain ⟨room, contig⟩ := poolCreate_spec pool.created
  obtain ⟨base, here, iova, follows⟩ :=
    populated_contiguous contig pageWise contiguous pool.populated seg.mbuf.2
  have data : pool.buffers.bufLen seg.mbuf = pool.dataRoomSize.toNat := rfl
  have place : rtePktmbufMtodOffset pool.buffers seg 0 =
      seg.mbuf.1.addr + pool.mbufSize + seg.dataOff := rfl
  have header : pool.mbufSize = sizeofRteMbuf + pool.privSize.toNat := rfl
  have byte := follows (pool.mp.sz.headerSize + (pool.mbufSize + seg.dataOff + i))
    (by unfold ObjSize.total; omega)
  rw [rteMbufDataIova, iova, place, here, Option.map_map, Option.map_map]
  have left : base + pool.mp.sz.headerSize + pool.mbufSize + seg.dataOff + i =
      base + (pool.mp.sz.headerSize + (pool.mbufSize + seg.dataOff + i)) := by omega
  rw [left, byte]
  refine congrArg (Option.map · (getIova base)) (funext fun x => ?_)
  simp only [Function.comp_apply]
  omega

/-- A device that sees the memory reads of a packet what the application does. -/
theorem deviceRead_eq {pool : Pool getIova reserve} (pageWise : PageWise getIova pool.mp.pgSz)
    (contiguous : ContiguousZones getIova reserve) (addressed : ∀ o ∈ pool.objs, o.iova ≠ none)
    {io mem : Nat → UInt8} (seen : ∀ a x, getIova a = some x → io x = mem a)
    {m : Pktmbuf pool.Mbuf} (wf : m.WellFormed pool.buffers) :
    deviceRead pool io m = m.data pool.buffers mem := by
  refine List.flatMap_congr fun seg hs => ?_
  obtain ⟨iova, first⟩ := Option.ne_none_iff_exists'.mp (addressed _ seg.mbuf.2)
  have start : rteMbufDataIova pool seg = some (iova + pool.mbufSize + seg.dataOff) := by
    rw [rteMbufDataIova, first, Option.map_some]
  rw [start, Option.elim_some, Segment.data]
  refine List.map_congr_left fun i hi => seen _ _ ?_
  rw [iova_right pageWise contiguous (wf.fits seg hs) (List.mem_range.mp hi), start,
    Option.map_some]

/-- After any sequence of calls, a device that sees the memory reads for every packet what the
calls come to on byte strings. -/
theorem device_reads_right {P : Type v} [Fintype P] [DecidableEq P] {pool : Pool getIova reserve}
    (pageWise : PageWise getIova pool.mp.pgSz) (contiguous : ContiguousZones getIova reserve)
    (addressed : ∀ o ∈ pool.objs, o.iova ≠ none) {mem io : Nat → UInt8}
    {ops : List (Op P pool.Mbuf)} {s : State P pool.Mbuf}
    (h : System.follow (fun op s => exec pool.buffers s op) ops
      (State.populated P mem pool.mbufs) = some s)
    (seen : ∀ a x, getIova a = some x → io x = s.mem a) (p : P) :
    (s.pkts p).map (deviceRead pool io) = ops.foldl Op.spec (fun _ => none) p := by
  obtain ⟨inv, same⟩ := follow_refines pool.nodup (State.Inv.start pool.buffers mem pool.mbufs) h
  have start : (State.populated P mem pool.mbufs).view pool.buffers = fun _ => none := rfl
  rw [← start, ← same, State.view]
  cases at_p : s.pkts p with
  | none => rfl
  | some m =>
    exact congrArg some (deviceRead_eq pageWise contiguous addressed seen (inv.wf p m at_p))

end

/-- Pages that lie apart in IO memory. -/
def scattered (a : Nat) : Option Nat := some (a / 4096 * 8192 + a % 4096)

/-- A zone in one page if it must be contiguous, and else one with too little of the first page
for an object. -/
def scatteredZone (_ : Nat) (contig : Bool) (size : Nat) : Reserved :=
  if contig then .zone ⟨4096, min size 4096, scattered 4096⟩ else .zone ⟨8064, size, scattered 8064⟩

/-- Mbufs with buffers of 256 bytes. -/
def smallMbufs : Placement :=
  { spread with
    sz := ⟨64, 384, 0⟩
    positive := by decide
    whole := by decide
    aligned := by decide }

def fourChannels : Hardware := ⟨4, 1, spread.minPgShift, by decide, spread.pages⟩

theorem smallMbufs_size : rteMempoolCalcObjSize 4 384 false false = ⟨64, 384, 0⟩ := by
  have units : spreadLoop 4 (2 ^ 32) 7 = 7 := by
    rw [show (2 : Nat) ^ 32 = 2 ^ 32 - 1 + 1 from rfl, spreadLoop, getGcd_eq, if_neg (by decide)]
  unfold rteMempoolCalcObjSize archMemObjectAlign
  generalize spreadLoop = loop at units ⊢
  simp [rteAlignCeil, rteMempoolAlign] at units ⊢
  rw [units]

theorem smallMbufs_created : rtePktmbufPoolCreate fourChannels 0 256 = some smallMbufs := by
  rw [rtePktmbufPoolCreate, if_neg (by decide)]
  refine congrArg some ?_
  have slots : memorySlots fourChannels.nchannel fourChannels.nrank = 4 := rfl
  have elt : sizeofRteMbuf + (0 : UInt16).toNat + (256 : UInt16).toNat = 384 := rfl
  simp only [rteMempoolCreateEmpty, slots, elt, Bool.or_self, smallMbufs_size]
  rfl

def twoMbufs : Pool scattered scatteredZone where
  hw := fourChannels
  privSize := 0
  dataRoomSize := 256
  size := 2
  mp := smallMbufs
  chunks := [(⟨8064, 1343, some 12160⟩, [⟨8256, some 16448⟩, ⟨8704, some 16896⟩])]
  created := smallMbufs_created
  populated := by decide +kernel
  zones := List.pairwise_singleton ..

/-- A packet of both mbufs. -/
def twoSegments : Option (State Bool twoMbufs.Mbuf) :=
  System.follow (fun op s => exec twoMbufs.buffers s op)
    [.alloc false ⟨⟨8256, some 16448⟩, by decide⟩, .append false [5, 6] (by decide),
      .alloc true ⟨⟨8704, some 16896⟩, by decide⟩, .append true [7] (by decide),
      .chain false true Bool.false_ne_true, .prepend false [4] (by decide)]
    (.populated Bool (fun _ => 0) twoMbufs.mbufs)

theorem twoSegments_runs : twoSegments.isSome = true := by
  decide +kernel

theorem device_reads_right_twoSegments : ∃ s, twoSegments = some s ∧
    (s.pkts false).map (deviceRead twoMbufs fun x => s.mem (x / 8192 * 4096 + x % 8192)) =
      some [4, 5, 6, 7] := by
  obtain ⟨s, hs⟩ := Option.isSome_iff_exists.mp twoSegments_runs
  refine ⟨s, hs, ?_⟩
  refine device_reads_right (fun a i same => ?_) (fun mzId size mz got i below => ?_) (by decide)
    hs (fun a x translated => ?_) false
  · rw [show twoMbufs.mp.pgSz = 4096 by decide] at same
    simp only [scattered, Option.map_some, Option.some.injEq]
    omega
  · rw [scatteredZone, if_pos rfl] at got
    cases got
    simp only [scattered, Option.map_some, Option.some.injEq] at below ⊢
    omega
  · cases translated
    exact congrArg s.mem (by omega)

end PktmbufPool
