import DpdkFilter.KniFifo
import DpdkFilter.Mbuf

/-!
# A KNI interface

The calls of the application's library and those of the kernel module, each on the
FIFOs it uses. The mbuf pool is the list of the buffers it can give out; a call
that allocates or frees takes the pool and returns it.
-/

namespace Kni

open ByteOrder KniFifo Mbuf

/-- `MAX_MBUF_BURST_NUM`, and `MBUF_BURST_SZ` of the kernel module. -/
def maxMbufBurstNum : Nat := 32

def ethZlen : Nat := 60

def einval : Int := 22

def ebusy : Int := 16

def etime : Int := 62

def enodata : Int := 61

def kniReqChangeMtu : UInt32 := 1

def kniReqCfgNetworkIf : UInt32 := 2

def kniReqChangeMacAddr : UInt32 := 3

def kniReqChangePromisc : UInt32 := 4

def kniReqChangeAllmulti : UInt32 := 5

/-- `payload` holds the six bytes of the union. -/
structure RteKniRequest where
  reqId : UInt32
  payload : List UInt8
  async : Bool
  result : Int

def RteKniRequest.newMtu (r : RteKniRequest) : UInt32 :=
  le32 (r.payload.getD 0 0) (r.payload.getD 1 0) (r.payload.getD 2 0) (r.payload.getD 3 0)

/-- `if_up`, `promiscusity` and `allmulti` are the first byte of the union. -/
def RteKniRequest.flag (r : RteKniRequest) : UInt8 := r.payload.getD 0 0

structure RteKniOps where
  portId : UInt16
  changeMtu : Option (UInt16 → UInt32 → Int)
  configNetworkIf : Option (UInt16 → UInt8 → Int)
  configMacAddress : Option (UInt16 → List UInt8 → Int)
  configPromiscusity : Option (UInt16 → UInt8 → Int)
  configAllmulticast : Option (UInt16 → UInt8 → Int)

/-- What the default callbacks ask of the Ethernet device. -/
structure EthControl where
  isValidPort : UInt16 → Bool
  defaultMacAddrSet : UInt16 → List UInt8 → Int
  promiscuousEnable : UInt16 → Int
  promiscuousDisable : UInt16 → Int
  allmulticastEnable : UInt16 → Int
  allmulticastDisable : UInt16 → Int

/-- The words of one interface that application and kernel share, with the callbacks.
`sync` stands at `syncAddr`, which is what the request FIFOs hold. -/
structure RteKni where
  txQ : RteKniFifo RteMbuf
  rxQ : RteKniFifo RteMbuf
  allocQ : RteKniFifo RteMbuf
  freeQ : RteKniFifo RteMbuf
  reqQ : RteKniFifo Nat
  respQ : RteKniFifo Nat
  syncAddr : Nat
  sync : RteKniRequest
  mbufSize : Nat
  ops : RteKniOps

/-- The interface as `rte_kni_alloc` sets it up, before it gives buffers to the kernel.
`memory` and `words` are what the FIFOs' slots hold before they are used. -/
def kniCreated (ops : RteKniOps) (mbufSize syncAddr : Nat) (sync : RteKniRequest)
    (memory : Nat → RteMbuf) (words : Nat → Nat) : RteKni where
  txQ := kniFifoInit kniFifoCountMax ⟨10, by decide⟩ memory
  rxQ := kniFifoInit kniFifoCountMax ⟨10, by decide⟩ memory
  allocQ := kniFifoInit kniFifoCountMax ⟨10, by decide⟩ memory
  freeQ := kniFifoInit kniFifoCountMax ⟨10, by decide⟩ memory
  reqQ := kniFifoInit kniFifoCountMax ⟨10, by decide⟩ words
  respQ := kniFifoInit kniFifoCountMax ⟨10, by decide⟩ words
  syncAddr := syncAddr
  sync := sync
  mbufSize := mbufSize
  ops := ops

/-! ## The pool -/

def rtePktmbufFree (pool : List RteMbuf) (m : RteMbuf) : List RteMbuf := m :: pool

/-- `rte_pktmbuf_alloc`: a reset buffer, or NULL when the pool is empty. -/
def rtePktmbufAlloc : List RteMbuf → Option RteMbuf × List RteMbuf
  | [] => (none, [])
  | m :: pool => (some { m with dataLen := 0, pktLen := 0 }, pool)

/-- The allocation loop of `kni_allocate_mbufs`. -/
def allocLoop : Nat → List RteMbuf → List RteMbuf × List RteMbuf
  | 0, pool => ([], pool)
  | n + 1, pool =>
    match rtePktmbufAlloc pool with
    | (none, pool) => ([], pool)
    | (some m, pool) =>
      let (pkts, pool) := allocLoop n pool
      (m :: pkts, pool)

/-! ## The application's side -/

def kniFreeMbufs (kni : RteKni) (pool : List RteMbuf) : RteKni × List RteMbuf :=
  let (freeQ, pkts) := kniFifoGet kni.freeQ maxMbufBurstNum
  ({ kni with freeQ := freeQ }, pkts.foldl rtePktmbufFree pool)

/-- `kni_allocate_mbufs` once `allocq_free` is computed. -/
def allocateUpTo (allocqFree : Nat) (kni : RteKni) (pool : List RteMbuf) :
    RteKni × List RteMbuf :=
  let (pkts, pool) := allocLoop allocqFree pool
  if pkts.length = 0 then (kni, pool)
  else
    let (allocQ, ret) := kniFifoPut kni.allocQ pkts
    ({ kni with allocQ := allocQ }, (pkts.drop ret).foldl rtePktmbufFree pool)

def kniAllocateMbufs (kni : RteKni) (pool : List RteMbuf) : RteKni × List RteMbuf :=
  allocateUpTo (min (kniFifoFreeCount kni.allocQ) maxMbufBurstNum) kni pool

/-- `rte_kni_tx_burst` once `num` is computed; the number accepted comes last. -/
def offer (num : Nat) (kni : RteKni) (pool mbufs : List RteMbuf) :
    RteKni × List RteMbuf × Nat :=
  let (rxQ, ret) := kniFifoPut kni.rxQ (mbufs.take num)
  let (kni, pool) := kniFreeMbufs { kni with rxQ := rxQ } pool
  (kni, pool, ret)

def rteKniTxBurst (kni : RteKni) (pool mbufs : List RteMbuf) : RteKni × List RteMbuf × Nat :=
  offer (min (kniFifoFreeCount kni.rxQ) mbufs.length) kni pool mbufs

def rteKniRxBurst (kni : RteKni) (pool : List RteMbuf) (num : Nat) :
    RteKni × List RteMbuf × List RteMbuf :=
  let (txQ, mbufs) := kniFifoGet kni.txQ num
  if mbufs.length ≠ 0 then
    let refilled := kniAllocateMbufs { kni with txQ := txQ } pool
    (refilled.1, refilled.2, mbufs)
  else ({ kni with txQ := txQ }, pool, mbufs)

def kniConfigMacAddress (dev : EthControl) (portId : UInt16) (macAddr : List UInt8) : Int :=
  if dev.isValidPort portId then dev.defaultMacAddrSet portId macAddr else -einval

/-- The common shape of the two switches the default callbacks turn. -/
def kniConfigSwitch (dev : EthControl) (enable disable : UInt16 → Int) (portId : UInt16)
    (toOn : UInt8) : Int :=
  if dev.isValidPort portId then (if toOn ≠ 0 then enable portId else disable portId)
  else -einval

def kniConfigPromiscusity (dev : EthControl) (portId : UInt16) (toOn : UInt8) : Int :=
  kniConfigSwitch dev dev.promiscuousEnable dev.promiscuousDisable portId toOn

def kniConfigAllmulticast (dev : EthControl) (portId : UInt16) (toOn : UInt8) : Int :=
  kniConfigSwitch dev dev.allmulticastEnable dev.allmulticastDisable portId toOn

/-- A callback, else the default one unless the port is `UINT16_MAX`, else the old result. -/
def callOrDefault {β : Type} (callback : Option (UInt16 → β → Int)) (default : UInt16 → β → Int)
    (portId : UInt16) (arg : β) (result : Int) : Int :=
  match callback with
  | some f => f portId arg
  | none => if portId ≠ 0xFFFF then default portId arg else result

/-- The `switch` of `rte_kni_handle_request`: the result it leaves in the request. -/
def requestResult (dev : EthControl) (ops : RteKniOps) (req : RteKniRequest) : Int :=
  if req.reqId = kniReqChangeMtu then
    match ops.changeMtu with
    | some f => f ops.portId req.newMtu
    | none => req.result
  else if req.reqId = kniReqCfgNetworkIf then
    match ops.configNetworkIf with
    | some f => f ops.portId req.flag
    | none => req.result
  else if req.reqId = kniReqChangeMacAddr then
    callOrDefault ops.configMacAddress (kniConfigMacAddress dev) ops.portId req.payload req.result
  else if req.reqId = kniReqChangePromisc then
    callOrDefault ops.configPromiscusity (kniConfigPromiscusity dev) ops.portId req.flag req.result
  else if req.reqId = kniReqChangeAllmulti then
    callOrDefault ops.configAllmulticast (kniConfigAllmulticast dev) ops.portId req.flag req.result
  else -einval

def rteKniHandleRequest (dev : EthControl) (kni : RteKni) : RteKni × Int :=
  match kniFifoGet kni.reqQ 1 with
  | (reqQ, [req]) =>
    let kni := { kni with reqQ := reqQ }
    if req ≠ kni.syncAddr then (kni, -1)
    else
      let kni := { kni with sync := { kni.sync with result := requestResult dev kni.ops kni.sync } }
      if kni.sync.async then (kni, 0)
      else
        let (respQ, ret) := kniFifoPut kni.respQ [req]
        ({ kni with respQ := respQ }, if ret ≠ 1 then -1 else 0)
  | (reqQ, _) => ({ kni with reqQ := reqQ }, 0)

/-! ## The kernel's side -/

/-- The packet `kni_net_tx` builds in a buffer, padded to the Ethernet minimum. -/
def storeSkb (m : RteMbuf) (skb : List UInt8) : RteMbuf :=
  let len := if skb.length < ethZlen then ethZlen else skb.length
  { addr := m.addr
    dataLen := UInt16.ofNat len
    pktLen := UInt32.ofNat len
    data := fun i => if i < skb.length then skb.getD i 0 else if i < len then 0 else m.data i }

/-- The second component is the packet queued, if the skb is not dropped. -/
def kniNetTx (kni : RteKni) (skb : List UInt8) : RteKni × Option RteMbuf :=
  if skb.length > kni.mbufSize then (kni, none)
  else if kniFifoFreeCount kni.txQ = 0 ∨ kniFifoCount kni.allocQ = 0 then (kni, none)
  else
    match kniFifoGet kni.allocQ 1 with
    | (allocQ, [m]) =>
      let pkt := storeSkb m skb
      let (txQ, ret) := kniFifoPut kni.txQ [pkt]
      ({ kni with allocQ := allocQ, txQ := txQ }, if ret ≠ 1 then none else some pkt)
    | (allocQ, _) => ({ kni with allocQ := allocQ }, none)

/-- `kni_net_rx_normal` once `num_rx` is computed. -/
def deliver (numRx : Nat) (kni : RteKni) : RteKni :=
  let (rxQ, va) := kniFifoGet kni.rxQ numRx
  if va.length = 0 then { kni with rxQ := rxQ }
  else { kni with rxQ := rxQ, freeQ := (kniFifoPut kni.freeQ va).1 }

def kniNetRxNormal (kni : RteKni) : RteKni :=
  let numFq := kniFifoFreeCount kni.freeQ
  if numFq = 0 then kni else deliver (min numFq maxMbufBurstNum) kni

/-- The first half of `kni_net_process_request`; `false` where req_q is full. -/
def kniNetSendRequest (kni : RteKni) (req : RteKniRequest) : RteKni × Bool :=
  let (reqQ, num) := kniFifoPut kni.reqQ [kni.syncAddr]
  ({ kni with sync := req, reqQ := reqQ }, num ≥ 1)

/-- The second half, once the wait is over: the answer, and what the call returns. -/
def kniNetTakeResponse (kni : RteKni) (req : RteKniRequest) : RteKni × RteKniRequest × Int :=
  if kniFifoCount kni.respQ = 0 then (kni, req, -etime)
  else
    match kniFifoGet kni.respQ 1 with
    | (respQ, [resp]) =>
      if resp ≠ kni.syncAddr then ({ kni with respQ := respQ }, req, -enodata)
      else ({ kni with respQ := respQ }, kni.sync, 0)
    | (respQ, _) => ({ kni with respQ := respQ }, req, -enodata)

/-- `kni_net_process_request` for a synchronous request; `wait` is what happens to the
interface in the three seconds it waits. -/
def kniNetProcessRequest (wait : RteKni → RteKni) (kni : RteKni) (req : RteKniRequest) :
    RteKni × RteKniRequest × Int :=
  match kniNetSendRequest kni req with
  | (kni, false) => (kni, req, -ebusy)
  | (kni, true) => kniNetTakeResponse (wait kni) req

/-! ## Buffers move and none is lost

`tally a` counts the places of a list that hold the buffer at address `a`. Every call
keeps the sum over pool, FIFOs and what it hands over. -/

def tally (a : Nat) (ms : List RteMbuf) : Nat := (ms.map RteMbuf.addr).count a

@[simp] theorem tally_nil (a : Nat) : tally a [] = 0 := rfl

theorem tally_cons (a : Nat) (m : RteMbuf) (ms : List RteMbuf) :
    tally a (m :: ms) = tally a [m] + tally a ms := by
  simp only [tally, List.map_cons, List.map_nil, List.count_cons, List.count_nil, Nat.zero_add]
  exact Nat.add_comm _ _

@[simp] theorem tally_append (a : Nat) (ms ms' : List RteMbuf) :
    tally a (ms ++ ms') = tally a ms + tally a ms' := by
  simp [tally]

theorem tally_congr (a : Nat) {m m' : RteMbuf} (h : m.addr = m'.addr) :
    tally a [m] = tally a [m'] := by
  simp [tally, h]

def RteKni.tally (kni : RteKni) (a : Nat) : Nat :=
  Kni.tally a kni.txQ.standing + Kni.tally a kni.rxQ.standing +
    Kni.tally a kni.allocQ.standing + Kni.tally a kni.freeQ.standing

theorem tally_free (a : Nat) (pkts pool : List RteMbuf) :
    tally a (pkts.foldl rtePktmbufFree pool) = tally a pkts + tally a pool := by
  induction pkts generalizing pool with
  | nil => simp
  | cons m pkts ih =>
    rw [List.foldl_cons, ih, rtePktmbufFree, tally_cons a m pool, tally_cons a m pkts]
    omega

theorem tally_allocLoop (a n : Nat) (pool : List RteMbuf) :
    tally a (allocLoop n pool).1 + tally a (allocLoop n pool).2 = tally a pool := by
  induction n generalizing pool with
  | zero => simp [allocLoop]
  | succ n ih =>
    cases pool with
    | nil => simp [allocLoop, rtePktmbufAlloc]
    | cons m pool =>
      have reset : tally a [{ m with dataLen := 0, pktLen := 0 }] = tally a [m] :=
        tally_congr a rfl
      have rest := ih pool
      simp only [allocLoop, rtePktmbufAlloc]
      rw [tally_cons, reset, tally_cons a m pool]
      omega

theorem tally_put (a : Nat) (f : RteKniFifo RteMbuf) (data : List RteMbuf) :
    tally a (kniFifoPut f data).1.standing + tally a (data.drop (kniFifoPut f data).2) =
      tally a f.standing + tally a data := by
  have split := congrArg (tally a) (List.take_append_drop (kniFifoPut f data).2 data)
  rw [tally_append] at split
  rw [kniFifoPut_standing, tally_append]
  omega

theorem tally_get (a : Nat) (f : RteKniFifo RteMbuf) (num : Nat) :
    tally a (kniFifoGet f num).2 + tally a (kniFifoGet f num).1.standing = tally a f.standing := by
  rw [← tally_append, ← kniFifoGet_standing]

theorem kniFreeMbufs_tally (a : Nat) (kni : RteKni) (pool : List RteMbuf) :
    (kniFreeMbufs kni pool).1.tally a + tally a (kniFreeMbufs kni pool).2 =
      kni.tally a + tally a pool := by
  have got := tally_get a kni.freeQ maxMbufBurstNum
  simp only [kniFreeMbufs, RteKni.tally, tally_free]
  omega

theorem allocateUpTo_tally (a n : Nat) (kni : RteKni) (pool : List RteMbuf) :
    (allocateUpTo n kni pool).1.tally a + tally a (allocateUpTo n kni pool).2 =
      kni.tally a + tally a pool := by
  have allocated := tally_allocLoop a n pool
  have put := tally_put a kni.allocQ (allocLoop n pool).1
  unfold allocateUpTo
  generalize allocLoop n pool = loop at allocated put ⊢
  obtain ⟨pkts, rest⟩ := loop
  dsimp only at allocated put ⊢
  split
  · rename_i none
    rw [List.eq_nil_of_length_eq_zero none, tally_nil] at allocated
    dsimp only
    omega
  · simp only [RteKni.tally, tally_free]
    omega

/-- Giving buffers to the kernel changes alloc_q only. -/
theorem kniAllocateMbufs_frame (kni : RteKni) (pool : List RteMbuf) :
    ∃ allocQ, (kniAllocateMbufs kni pool).1 = { kni with allocQ := allocQ } := by
  have upTo : ∀ n, ∃ allocQ, (allocateUpTo n kni pool).1 = { kni with allocQ := allocQ } := by
    intro n
    unfold allocateUpTo
    generalize allocLoop n pool = loop
    dsimp only
    split
    · exact ⟨kni.allocQ, rfl⟩
    · exact ⟨_, rfl⟩
  exact upTo _

theorem kniAllocateMbufs_tally (a : Nat) (kni : RteKni) (pool : List RteMbuf) :
    (kniAllocateMbufs kni pool).1.tally a + tally a (kniAllocateMbufs kni pool).2 =
      kni.tally a + tally a pool :=
  allocateUpTo_tally a _ kni pool

/-- As much is accepted as there is room for; the rest stays with the caller. -/
theorem rteKniTxBurst_spec (kni : RteKni) (pool mbufs : List RteMbuf) :
    ∃ num rxQ, rxQ.standing = kni.rxQ.standing ++ mbufs.take num ∧
      num = min (kni.rxQ.len - 1 - kni.rxQ.standing.length) mbufs.length ∧
      rteKniTxBurst kni pool mbufs =
        ((kniFreeMbufs { kni with rxQ := rxQ } pool).1,
          (kniFreeMbufs { kni with rxQ := rxQ } pool).2, num) := by
  rw [rteKniTxBurst, kniFifoFreeCount_eq]
  have room := kniFifoPut_count kni.rxQ (mbufs.take
    (min (kni.rxQ.len - 1 - kni.rxQ.standing.length) mbufs.length))
  generalize hnum : min (kni.rxQ.len - 1 - kni.rxQ.standing.length) mbufs.length = num at room ⊢
  have count : (kniFifoPut kni.rxQ (mbufs.take num)).2 = num := by
    rw [room, List.length_take]
    omega
  refine ⟨num, (kniFifoPut kni.rxQ (mbufs.take num)).1, ?_, rfl, ?_⟩
  · rw [kniFifoPut_standing, count, List.take_take, Nat.min_self]
  · rw [offer]
    simp only [count]

theorem rteKniTxBurst_tally (a : Nat) (kni : RteKni) (pool mbufs : List RteMbuf) :
    let r := rteKniTxBurst kni pool mbufs
    r.1.tally a + tally a r.2.1 + tally a (mbufs.drop r.2.2) =
      kni.tally a + tally a pool + tally a mbufs := by
  obtain ⟨num, rxQ, put, _, heq⟩ := rteKniTxBurst_spec kni pool mbufs
  have freed := kniFreeMbufs_tally a { kni with rxQ := rxQ } pool
  have split := congrArg (tally a) (List.take_append_drop num mbufs)
  rw [tally_append] at split
  rw [heq]
  dsimp only
  rw [freed]
  simp only [RteKni.tally, put, tally_append]
  omega

/-- The oldest packets are taken; buffers for more are given only when there were some. -/
theorem rteKniRxBurst_spec (kni : RteKni) (pool : List RteMbuf) (num : Nat) :
    ∃ txQ mbufs kni' pool', kni.txQ.standing = mbufs ++ txQ.standing ∧
      mbufs.length = min num kni.txQ.standing.length ∧
      (mbufs = [] ∧ (kni', pool') = ({ kni with txQ := txQ }, pool) ∨
        kniAllocateMbufs { kni with txQ := txQ } pool = (kni', pool')) ∧
      rteKniRxBurst kni pool num = (kni', pool', mbufs) := by
  have front := kniFifoGet_standing kni.txQ num
  have count := kniFifoGet_count kni.txQ num
  unfold rteKniRxBurst
  generalize kniFifoGet kni.txQ num = get at front count ⊢
  obtain ⟨txQ, mbufs⟩ := get
  dsimp only at front count ⊢
  obtain ⟨refilled, hrefilled⟩ : ∃ r, kniAllocateMbufs { kni with txQ := txQ } pool = r := ⟨_, rfl⟩
  rw [hrefilled]
  by_cases none : mbufs.length = 0
  · refine ⟨txQ, mbufs, _, _, front, count, Or.inl ⟨List.eq_nil_of_length_eq_zero none, rfl⟩, ?_⟩
    exact if_neg (not_not.mpr none)
  · exact ⟨txQ, mbufs, refilled.1, refilled.2, front, count, Or.inr hrefilled, if_pos none⟩

/-- Taking packets changes tx_q and alloc_q only. -/
theorem rteKniRxBurst_frame (kni : RteKni) (pool : List RteMbuf) (num : Nat) :
    ∃ txQ allocQ, kni.txQ.standing = (rteKniRxBurst kni pool num).2.2 ++ txQ.standing ∧
      (rteKniRxBurst kni pool num).1 = { kni with txQ := txQ, allocQ := allocQ } := by
  obtain ⟨txQ, mbufs, kni', pool', front, _, rest, heq⟩ := rteKniRxBurst_spec kni pool num
  rw [heq]
  rcases rest with ⟨_, same⟩ | refilled
  · cases same
    exact ⟨txQ, kni.allocQ, front, rfl⟩
  · obtain ⟨allocQ, frame⟩ := kniAllocateMbufs_frame { kni with txQ := txQ } pool
    rw [refilled] at frame
    exact ⟨txQ, allocQ, front, frame⟩

/-- A burst of one packet is the packet that is looked at. -/
theorem rteKniRxBurst_one (kni : RteKni) (pool : List RteMbuf) :
    (rteKniRxBurst kni pool 1).2.2.head?.toList = (rteKniRxBurst kni pool 1).2.2 := by
  obtain ⟨_, mbufs, _, _, _, few, _, heq⟩ := rteKniRxBurst_spec kni pool 1
  rw [heq]
  match mbufs, few with
  | [], _ => rfl
  | [m], _ => rfl
  | _ :: _ :: _, few => simp only [List.length_cons] at few; omega

theorem rteKniRxBurst_tally (a : Nat) (kni : RteKni) (pool : List RteMbuf) (num : Nat) :
    (rteKniRxBurst kni pool num).1.tally a + tally a (rteKniRxBurst kni pool num).2.1 +
      tally a (rteKniRxBurst kni pool num).2.2 = kni.tally a + tally a pool := by
  obtain ⟨txQ, mbufs, kni', pool', front, _, rest, heq⟩ := rteKniRxBurst_spec kni pool num
  have taken := congrArg (tally a) front
  rw [tally_append] at taken
  rw [heq]
  rcases rest with ⟨none, same⟩ | refilled
  · cases same
    rw [none, tally_nil] at taken ⊢
    simp only [RteKni.tally]
    omega
  · have kept := kniAllocateMbufs_tally a { kni with txQ := txQ } pool
    rw [refilled] at kept
    simp only [RteKni.tally] at kept ⊢
    omega

/-- A packet is queued only in a buffer the application gave. -/
theorem kniNetTx_spec (kni : RteKni) (skb : List UInt8) :
    ((kniNetTx kni skb).2 = none ∧ (kniNetTx kni skb).1 = kni) ∨
    ∃ m allocQ txQ, kni.allocQ.standing = m :: allocQ.standing ∧
      txQ.standing = kni.txQ.standing ++ [storeSkb m skb] ∧
      kniNetTx kni skb = ({ kni with allocQ := allocQ, txQ := txQ }, some (storeSkb m skb)) := by
  unfold kniNetTx
  rw [kniFifoFreeCount_eq, kniFifoCount_eq]
  split
  · exact Or.inl ⟨rfl, rfl⟩
  · split
    · exact Or.inl ⟨rfl, rfl⟩
    · rename_i room
      right
      have front := kniFifoGet_standing kni.allocQ 1
      have one : (kniFifoGet kni.allocQ 1).2.length = 1 := by
        rw [kniFifoGet_count]
        omega
      obtain ⟨m, hm⟩ := List.length_eq_one_iff.mp one
      have stored : (kniFifoPut kni.txQ [storeSkb m skb]).2 = 1 := by
        rw [kniFifoPut_count, List.length_singleton]
        omega
      have queued := kniFifoPut_standing kni.txQ [storeSkb m skb]
      rw [stored] at queued
      refine ⟨m, (kniFifoGet kni.allocQ 1).1, (kniFifoPut kni.txQ [storeSkb m skb]).1, ?_,
        queued, ?_⟩
      · rw [front, hm]
        rfl
      · rcases hget : kniFifoGet kni.allocQ 1 with ⟨allocQ, got⟩
        rw [hget] at hm
        cases hm
        simp [stored]

theorem kniNetTx_tally (a : Nat) (kni : RteKni) (skb : List UInt8) :
    (kniNetTx kni skb).1.tally a = kni.tally a := by
  rcases kniNetTx_spec kni skb with ⟨_, same⟩ | ⟨m, allocQ, txQ, taken, put, heq⟩
  · rw [same]
  · have addr : tally a [storeSkb m skb] = tally a [m] := tally_congr a rfl
    rw [heq]
    simp only [RteKni.tally, taken, put, tally_append, addr]
    rw [tally_cons a m allocQ.standing]
    omega

/-- What is taken from rx_q fits into free_q. -/
theorem deliver_tally (a : Nat) (kni : RteKni) {numRx : Nat}
    (room : numRx ≤ kni.freeQ.len - 1 - kni.freeQ.standing.length) :
    (deliver numRx kni).tally a = kni.tally a := by
  have got := tally_get a kni.rxQ numRx
  have few := kniFifoGet_count kni.rxQ numRx
  have count := kniFifoPut_count kni.freeQ (kniFifoGet kni.rxQ numRx).2
  have put := tally_put a kni.freeQ (kniFifoGet kni.rxQ numRx).2
  rw [List.drop_eq_nil_iff.mpr (by omega), tally_nil] at put
  unfold deliver
  generalize kniFifoGet kni.rxQ numRx = get at got put ⊢
  obtain ⟨rxQ, va⟩ := get
  dsimp only at got put ⊢
  split
  · rename_i none
    rw [List.eq_nil_of_length_eq_zero none, tally_nil] at got
    simp only [RteKni.tally]
    omega
  · simp only [RteKni.tally]
    omega

/-- The kernel's receive thread changes rx_q and free_q only. -/
theorem kniNetRxNormal_frame (kni : RteKni) :
    ∃ rxQ freeQ, kniNetRxNormal kni = { kni with rxQ := rxQ, freeQ := freeQ } := by
  have delivered : ∀ n, ∃ rxQ freeQ, deliver n kni = { kni with rxQ := rxQ, freeQ := freeQ } := by
    intro n
    unfold deliver
    generalize kniFifoGet kni.rxQ n = get
    dsimp only
    split
    · exact ⟨_, kni.freeQ, rfl⟩
    · exact ⟨_, _, rfl⟩
  unfold kniNetRxNormal
  dsimp only
  split
  · exact ⟨kni.rxQ, kni.freeQ, rfl⟩
  · exact delivered _

theorem kniNetRxNormal_tally (a : Nat) (kni : RteKni) :
    (kniNetRxNormal kni).tally a = kni.tally a := by
  rw [kniNetRxNormal, kniFifoFreeCount_eq]
  split
  · rfl
  · exact deliver_tally a kni (Nat.min_le_left _ _)

end Kni
