import DpdkFilter.LinkedChains
import Mathlib.Algebra.Order.Ring.Int
import Mathlib.Data.List.Flatten

/-!
# Packets of several segments between application and kernel

The application links the segments by virtual addresses, the kernel by physical ones. The
application rewrites the links when it puts a packet on rx_q; the kernel rewrites them back
while it copies the packet, and hands it back on free_q to be freed. Where IO addresses are not
physical, the kernel translates them for the first segment's data and not for the others'.
-/

namespace KniSegments

open LinkedChains

/-- What neither side changes of an mbuf; `byte` is its data from `data_off` on, as the
application has written it. -/
structure RteKniMbuf where
  bufAddr : UInt64
  bufIova : UInt64
  dataOff : UInt16
  nbSegs : UInt16
  pktLen : UInt32
  dataLen : UInt16
  byte : Nat → UInt8

def RteKniMbuf.data (m : RteKniMbuf) (len : Nat) : List UInt8 := (List.range len).map m.byte

/-- The links, `mbuf->next`, are apart; an mbuf is named by its virtual address. -/
abbrev Links := UInt64 → UInt64

section
variable (mbuf : UInt64 → RteKniMbuf)

/-- The library's `va2pa`. -/
def va2pa (m : UInt64) : UInt64 := m - ((mbuf m).bufAddr - (mbuf m).bufIova)

/-- The loop of `va2pa_all`; a chain without an end uses up the fuel. -/
def va2paAll : Nat → Links → UInt64 → Option Links
  | 0, _, _ => none
  | fuel + 1, next, m =>
    if next m = 0 then some next
    else va2paAll fuel (Function.update next m (va2pa mbuf (next m))) (next m)

/-- What `rte_kni_tx_burst` puts on rx_q. -/
def vaToPa (fuel : Nat) : Links → List UInt64 → Option (Links × List UInt64)
  | next, [] => some (next, [])
  | next, m :: mbufs =>
    (va2paAll mbuf fuel next m).bind fun next =>
      (vaToPa fuel next mbufs).map fun r => (r.1, va2pa mbuf m :: r.2)

/-! The kernel's side. `getKva` finds the mbuf at an IO address. -/

/-- The memory at physical addresses, with `iova_to_phys` if `iova_mode` is 1. -/
structure KernelMemory where
  iovaToPhys : Option (UInt64 → UInt64)
  byte : UInt64 → UInt8

def KernelMemory.read (mem : KernelMemory) (pa : UInt64) (len : Nat) : List UInt8 :=
  (List.range len).map fun i => mem.byte (pa + UInt64.ofNat i)

/-- The physical address behind the `kva2data_kva` of an mbuf: its IO address is taken for one. -/
def kva2dataKva (m : RteKniMbuf) : UInt64 := m.bufIova + m.dataOff.toUInt64

def getDataKva (mem : KernelMemory) (m : RteKniMbuf) : UInt64 :=
  match mem.iovaToPhys with
  | some iovaToPhys => iovaToPhys m.bufIova + m.dataOff.toUInt64
  | none => kva2dataKva m

variable (getKva : UInt64 → UInt64) (mem : KernelMemory)

/-- The kernel's `pa2va`. -/
def pa2va (pa : UInt64) (kva : UInt64) : UInt64 := pa + (mbuf kva).bufAddr - (mbuf kva).bufIova

/-- The loop over the segments in `kni_net_rx_normal`, with what it puts into the skb. -/
def copySegs : Nat → Links → UInt64 → UInt64 → List UInt8 → Links × List UInt8
  | 0, next, _, _, skb => (next, skb)
  | n + 1, next, kva, dataKva, skb =>
    let skb := skb ++ mem.read dataKva (mbuf kva).dataLen.toNat
    if next kva = 0 then (next, skb)
    else
      let after := getKva (next kva)
      copySegs n (Function.update next kva (pa2va mbuf (next kva) after)) after
        (kva2dataKva (mbuf after)) skb

/-- One packet of `kni_net_rx_normal`: its virtual address, and the skb if there is one. -/
def rxNormal (allocated : Bool) (next : Links) (pa : UInt64) :
    Links × UInt64 × Option (List UInt8) :=
  let kva := getKva pa
  let dataKva := getDataKva mem (mbuf kva)
  let va := pa2va mbuf pa kva
  if ¬ allocated then (next, va, none)
  else if (mbuf kva).nbSegs = 1 then
    (next, va, some (mem.read dataKva (mbuf kva).pktLen.toNat))
  else
    let r := copySegs mbuf getKva mem (mbuf kva).nbSegs.toNat next kva dataKva []
    (r.1, va, some r.2)

/-- The packets of a burst, each with whether its skb can be allocated. -/
def rxBurst : Links → List (UInt64 × Bool) → Links × List (UInt64 × Option (List UInt8)) :=
  eachInTurn fun p next => rxNormal mbuf getKva mem p.2 next p.1

/-- The loop over the segments in `kni_fifo_trans_pa2va`. -/
def transSegs : Nat → Links → UInt64 → Links
  | 0, next, _ => next
  | n + 1, next, kva =>
    if next kva = 0 then next
    else
      let after := getKva (next kva)
      transSegs n (Function.update next kva (pa2va mbuf (next kva) after)) after

/-- One packet of `kni_fifo_trans_pa2va`. -/
def transPa2va (next : Links) (pa : UInt64) : Links × UInt64 :=
  let kva := getKva pa
  (transSegs mbuf getKva (mbuf kva).nbSegs.toNat next kva, pa2va mbuf pa kva)

def transBurst : Links → List UInt64 → Links × List UInt64 :=
  eachInTurn fun pa next => transPa2va mbuf getKva next pa

end

/-! ## There and back -/

section
variable {mbuf : UInt64 → RteKniMbuf} {getKva : UInt64 → UInt64}

/-- The kernel finds the mbuf where the application says that it is. -/
def Mapped (mbuf : UInt64 → RteKniMbuf) (getKva : UInt64 → UInt64) (m : UInt64) : Prop :=
  getKva (va2pa mbuf m) = m ∧ va2pa mbuf m ≠ 0

theorem pa2va_va2pa (mbuf : UInt64 → RteKniMbuf) (m : UInt64) :
    pa2va mbuf (va2pa mbuf m) m = m := by
  simp only [pa2va, va2pa]
  generalize (mbuf m).bufAddr = a
  generalize (mbuf m).bufIova = b
  grind

/-- All links of a chain are rewritten. -/
theorem va2paAll_spec {fuel : Nat} {next : Links} {v : UInt64} {rest : List UInt64}
    (chain : IsChain 0 next v rest) (nodup : (v :: rest).Nodup) (enough : rest.length < fuel) :
    va2paAll mbuf fuel next v = some (relink (va2pa mbuf) next v rest) := by
  induction rest generalizing fuel next v with
  | nil =>
    obtain ⟨fuel, rfl⟩ := Nat.exists_eq_add_one_of_ne_zero (Nat.ne_of_gt enough)
    have last : next v = 0 := chain
    simp only [va2paAll, relink, last, if_true]
  | cons w rest ih =>
    obtain ⟨fuel, rfl⟩ := Nat.exists_eq_add_one_of_ne_zero (Nat.ne_of_gt (Nat.zero_lt_of_lt enough))
    obtain ⟨rfl, some, tail⟩ := chain
    obtain ⟨new, later⟩ := List.nodup_cons.mp nodup
    rw [va2paAll, if_neg some, relink]
    refine ih (tail.congr fun u hu => Function.update_of_ne ?_ _ _) later
      (Nat.lt_of_succ_lt_succ enough)
    rintro rfl
    exact new hu

/-- Rewriting back the first link. -/
theorem relink_back {next : Links} {v w : UInt64} {rest : List UInt64} (link : next v = w)
    (new : v ∉ w :: rest) (mapped : Mapped mbuf getKva w) :
    relink (va2pa mbuf) next v (w :: rest) v = va2pa mbuf w ∧
      Function.update (relink (va2pa mbuf) next v (w :: rest)) v
        (pa2va mbuf (va2pa mbuf w) (getKva (va2pa mbuf w))) =
          relink (va2pa mbuf) next w rest := by
  rw [relink_cons new, mapped.1, pa2va_va2pa, Function.update_self, Function.update_idem]
  refine ⟨rfl, Function.update_eq_self_iff.mpr ?_⟩
  rw [relink_of_notMem new, link]

/-- All links are rewritten back. -/
theorem transSegs_relink {n : Nat} {next : Links} {v : UInt64} {rest : List UInt64}
    (chain : IsChain 0 next v rest) (nodup : (v :: rest).Nodup)
    (mapped : ∀ w ∈ rest, Mapped mbuf getKva w) (enough : rest.length < n) :
    transSegs mbuf getKva n (relink (va2pa mbuf) next v rest) v = next := by
  induction rest generalizing n v with
  | nil =>
    obtain ⟨n, rfl⟩ := Nat.exists_eq_add_one_of_ne_zero (Nat.ne_of_gt enough)
    have last : next v = 0 := chain
    simp only [transSegs, relink, last, if_true]
  | cons w rest ih =>
    obtain ⟨n, rfl⟩ := Nat.exists_eq_add_one_of_ne_zero (Nat.ne_of_gt (Nat.zero_lt_of_lt enough))
    obtain ⟨link, _, tail⟩ := chain
    obtain ⟨new, later⟩ := List.nodup_cons.mp nodup
    obtain ⟨here, others⟩ := List.forall_mem_cons.mp mapped
    obtain ⟨physical, back⟩ := relink_back link new here
    simp only [transSegs]
    rw [physical, if_neg here.2, back, here.1]
    exact ih tail later others (Nat.lt_of_succ_lt_succ enough)

/-- The copy does to the links what a release does. -/
theorem copySegs_links (mem : KernelMemory) (n : Nat) (next : Links) (kva dataKva : UInt64)
    (skb : List UInt8) :
    (copySegs mbuf getKva mem n next kva dataKva skb).1 = transSegs mbuf getKva n next kva := by
  induction n generalizing next kva dataKva skb with
  | zero => rfl
  | succ n ih =>
    simp only [transSegs, copySegs]
    split
    · rfl
    · exact ih ..

/-- What the kernel takes for the data of a segment after the first. -/
def laterData (mbuf : UInt64 → RteKniMbuf) (mem : KernelMemory) (m : UInt64) : List UInt8 :=
  mem.read (kva2dataKva (mbuf m)) (mbuf m).dataLen.toNat

theorem copySegs_skb {mem : KernelMemory} {n : Nat} {next : Links} {v dataKva : UInt64}
    {rest : List UInt64} {skb : List UInt8} (chain : IsChain 0 next v rest)
    (nodup : (v :: rest).Nodup) (mapped : ∀ w ∈ rest, Mapped mbuf getKva w)
    (enough : rest.length < n) :
    (copySegs mbuf getKva mem n (relink (va2pa mbuf) next v rest) v dataKva skb).2 =
      skb ++ mem.read dataKva (mbuf v).dataLen.toNat ++ rest.flatMap (laterData mbuf mem) := by
  induction rest generalizing n v dataKva skb with
  | nil =>
    obtain ⟨n, rfl⟩ := Nat.exists_eq_add_one_of_ne_zero (Nat.ne_of_gt enough)
    have last : next v = 0 := chain
    simp only [copySegs, relink, last, if_true, List.flatMap_nil, List.append_nil]
  | cons w rest ih =>
    obtain ⟨n, rfl⟩ := Nat.exists_eq_add_one_of_ne_zero (Nat.ne_of_gt (Nat.zero_lt_of_lt enough))
    obtain ⟨link, _, tail⟩ := chain
    obtain ⟨new, later⟩ := List.nodup_cons.mp nodup
    obtain ⟨here, others⟩ := List.forall_mem_cons.mp mapped
    obtain ⟨physical, back⟩ := relink_back link new here
    simp only [copySegs]
    rw [physical, if_neg here.2, back, here.1, ih tail later others (Nat.lt_of_succ_lt_succ enough)]
    simp only [laterData, List.flatMap_cons, List.append_assoc]

/-- A packet by its first mbuf and the others, and whether the kernel can allocate an skb. -/
abbrev Packet := (UInt64 × List UInt64) × Bool

/-- All of its data. -/
def payload (mbuf : UInt64 → RteKniMbuf) (c : UInt64 × List UInt64) : List UInt8 :=
  (c.1 :: c.2).flatMap fun m => (mbuf m).data (mbuf m).dataLen.toNat

/-- What `rte_mbuf_check` asks of a packet, and that the kernel finds its mbufs. -/
structure WellFormed (mbuf : UInt64 → RteKniMbuf) (getKva : UInt64 → UInt64) (next : Links)
    (c : UInt64 × List UInt64) : Prop where
  chain : IsChain 0 next c.1 c.2
  segs : (mbuf c.1).nbSegs.toNat = c.2.length + 1
  len : (mbuf c.1).pktLen.toNat = (payload mbuf c).length
  mapped : ∀ m ∈ c.1 :: c.2, Mapped mbuf getKva m

/-- Where `get_data_kva` looks for the data of an mbuf, the kernel finds what the application has
written. -/
def Readable (mbuf : UInt64 → RteKniMbuf) (mem : KernelMemory) (m : UInt64) : Prop :=
  ∀ i < (mbuf m).dataLen.toNat,
    mem.byte (getDataKva mem (mbuf m) + UInt64.ofNat i) = (mbuf m).byte i

theorem Readable.read {mem : KernelMemory} {m : UInt64} (h : Readable mbuf mem m) :
    mem.read (getDataKva mem (mbuf m)) (mbuf m).dataLen.toNat =
      (mbuf m).data (mbuf m).dataLen.toNat :=
  List.map_congr_left fun i hi => h i (List.mem_range.mp hi)

/-- What the kernel copies of a packet. -/
def received (mbuf : UInt64 → RteKniMbuf) (mem : KernelMemory) (c : UInt64 × List UInt64) :
    List UInt8 :=
  (mbuf c.1).data (mbuf c.1).dataLen.toNat ++ c.2.flatMap (laterData mbuf mem)

theorem RteKniMbuf.data_length (m : RteKniMbuf) (len : Nat) : (m.data len).length = len := by
  rw [data, List.length_map, List.length_range]

theorem laterData_length (mem : KernelMemory) (m : UInt64) :
    (laterData mbuf mem m).length = (mbuf m).dataLen.toNat := by
  rw [laterData, KernelMemory.read, List.length_map, List.length_range]

/-- A packet arrives as it is exactly if its later segments' data stand at their IO addresses. -/
theorem received_eq_iff {mem : KernelMemory} {c : UInt64 × List UInt64} :
    received mbuf mem c = payload mbuf c ↔
      ∀ m ∈ c.2, laterData mbuf mem m = (mbuf m).data (mbuf m).dataLen.toNat := by
  rw [received, payload, List.flatMap_cons, List.append_cancel_left_eq]
  induction c.2 with
  | nil => simp
  | cons m rest ih =>
    have lengths : (laterData mbuf mem m).length =
        ((mbuf m).data (mbuf m).dataLen.toNat).length := by
      rw [laterData_length, RteKniMbuf.data_length]
    rw [List.flatMap_cons, List.flatMap_cons, List.forall_mem_cons, ← ih]
    exact ⟨fun h => List.append_inj h lengths, fun h => by rw [h.1, h.2]⟩

/-- With physical addresses they do. -/
theorem received_physical {mem : KernelMemory} {c : UInt64 × List UInt64}
    (physical : mem.iovaToPhys = none) (readable : ∀ m ∈ c.2, Readable mbuf mem m) :
    received mbuf mem c = payload mbuf c := by
  refine received_eq_iff.mpr fun m hm => ?_
  rw [← (readable m hm).read, getDataKva, physical]
  rfl

/-- More segments than a chain can have. -/
def maxSegs : Nat := 2 ^ 16

theorem WellFormed.short {next : Links} {c : UInt64 × List UInt64}
    (wf : WellFormed mbuf getKva next c) : c.2.length < maxSegs := by
  have segs := wf.segs
  have lt := (mbuf c.1).nbSegs.toNat_lt
  simp only [maxSegs]
  omega

/-- The application rewrites the links of all packets. -/
theorem vaToPa_spec {next : Links} {cs : List (UInt64 × List UInt64)}
    (wf : ∀ c ∈ cs, WellFormed mbuf getKva next c) (nodup : (records cs).Nodup) :
    vaToPa mbuf maxSegs next (cs.map Prod.fst) =
      some (relinkAll (va2pa mbuf) next cs, cs.map fun c => va2pa mbuf c.1) := by
  induction cs generalizing next with
  | nil => rfl
  | cons c cs ih =>
    obtain ⟨here, later⟩ := List.forall_mem_cons.mp wf
    have apart := List.disjoint_of_nodup_append nodup
    obtain ⟨own, rest, _⟩ := List.nodup_append.mp nodup
    have still : ∀ d ∈ cs, WellFormed mbuf getKva (relink (va2pa mbuf) next c.1 c.2) d := by
      intro d hd
      refine { later d hd with chain := (later d hd).chain.congr fun u hu => ?_ }
      exact relink_of_notMem fun h => apart h (List.mem_flatMap.mpr ⟨d, hd, hu⟩)
    rw [List.map_cons, vaToPa, va2paAll_spec here.chain own here.short, Option.bind_some,
      ih still rest, Option.map_some]
    rfl

/-- A packet whose skb is allocated is copied, and its links are as the application had them;
without an skb nothing happens to them. -/
theorem rxNormal_spec {mem : KernelMemory} {next : Links} {c : UInt64 × List UInt64}
    (wf : WellFormed mbuf getKva next c) (readable : Readable mbuf mem c.1)
    (nodup : (c.1 :: c.2).Nodup) (allocated : Bool) :
    rxNormal mbuf getKva mem allocated (relink (va2pa mbuf) next c.1 c.2) (va2pa mbuf c.1) =
      (if allocated then next else relink (va2pa mbuf) next c.1 c.2, c.1,
        if allocated then some (received mbuf mem c) else none) := by
  obtain ⟨here, others⟩ := List.forall_mem_cons.mp wf.mapped
  have enough : c.2.length < (mbuf c.1).nbSegs.toNat := by
    rw [wf.segs]
    exact Nat.lt_succ_self _
  simp only [rxNormal, here.1, pa2va_va2pa]
  cases allocated with
  | false => rfl
  | true =>
    simp only [not_true, if_false, if_true]
    split
    · rename_i one
      have segs := wf.segs
      rw [one] at segs
      have alone : c.2 = [] := List.eq_nil_of_length_eq_zero (Nat.succ.inj segs).symm
      have whole : payload mbuf c = (mbuf c.1).data (mbuf c.1).dataLen.toNat := by
        rw [payload, alone, List.flatMap_cons, List.flatMap_nil, List.append_nil]
      rw [wf.len, whole, RteKniMbuf.data_length, readable.read, received, alone, relink,
        List.flatMap_nil, List.append_nil]
    · rw [copySegs_links, transSegs_relink wf.chain nodup others enough,
        copySegs_skb wf.chain nodup others enough, readable.read]
      rfl

theorem transPa2va_spec {next : Links} {c : UInt64 × List UInt64}
    (wf : WellFormed mbuf getKva next c) (nodup : (c.1 :: c.2).Nodup) :
    transPa2va mbuf getKva (relink (va2pa mbuf) next c.1 c.2) (va2pa mbuf c.1) = (next, c.1) := by
  obtain ⟨here, others⟩ := List.forall_mem_cons.mp wf.mapped
  simp only [transPa2va, here.1, pa2va_va2pa]
  rw [transSegs_relink wf.chain nodup others (by
    rw [wf.segs]
    exact Nat.lt_succ_self _)]

/-- A burst of packets that the kernel receives: each skb has the packet's data, `pkt_len`
bytes of it, exactly if the data of its later segments stand at their IO addresses, as they do
where these are physical; the packets come back under the addresses they had; and their links
are as before exactly if no packet without an skb has a segment whose two addresses differ. -/
theorem burst_returned {mem : KernelMemory} {next : Links} {ps : List Packet}
    (wf : ∀ p ∈ ps, WellFormed mbuf getKva next p.1)
    (readable : ∀ p ∈ ps, ∀ m ∈ p.1.1 :: p.1.2, Readable mbuf mem m)
    (nodup : (records (ps.map Prod.fst)).Nodup) :
    ∃ phys pas, vaToPa mbuf maxSegs next (ps.map fun p => p.1.1) = some (phys, pas) ∧
      (rxBurst mbuf getKva mem phys (pas.zip (ps.map Prod.snd))).2 =
        ps.map (fun p => (p.1.1, if p.2 then some (received mbuf mem p.1) else none)) ∧
      (∀ p ∈ ps, (payload mbuf p.1).length = (mbuf p.1.1).pktLen.toNat ∧
        (received mbuf mem p.1 = payload mbuf p.1 ↔
          ∀ m ∈ p.1.2, laterData mbuf mem m = (mbuf m).data (mbuf m).dataLen.toNat) ∧
        (mem.iovaToPhys = none → received mbuf mem p.1 = payload mbuf p.1)) ∧
      ((rxBurst mbuf getKva mem phys (pas.zip (ps.map Prod.snd))).1 = next ↔
        ∀ p ∈ ps, p.2 = false → ∀ m ∈ p.1.2, va2pa mbuf m = m) := by
  have chains : ∀ c ∈ ps.map Prod.fst, WellFormed mbuf getKva next c := by
    intro c hc
    obtain ⟨p, hp, rfl⟩ := List.mem_map.mp hc
    exact wf p hp
  have separate : ∀ p ∈ ps, (p.1.1 :: p.1.2).Nodup := fun p hp =>
    (List.nodup_flatMap.mp nodup).1 p.1 (List.mem_map_of_mem hp)
  have sent := vaToPa_spec chains nodup
  rw [List.map_map, List.map_map] at sent
  refine ⟨_, _, sent, ?_⟩
  have received := eachInTurn_relinkAll (f := va2pa mbuf)
    (fun p next => rxNormal mbuf getKva mem p.2 next p.1)
    (fun p : Packet => (va2pa mbuf p.1.1, p.2))
    (fun p : Packet => (p.1.1, if p.2 then some (received mbuf mem p.1) else none))
    (fun p hp next chain => rxNormal_spec { wf p hp with chain := chain }
      (readable p hp p.1.1 List.mem_cons_self) (separate p hp) p.2)
    (fun p hp => (wf p hp).chain) nodup
  have items : ((ps.map ((fun c => va2pa mbuf c.1) ∘ Prod.fst)).zip (ps.map Prod.snd)) =
      ps.map fun p : Packet => (va2pa mbuf p.1.1, p.2) := by
    rw [List.zip_map']
    rfl
  rw [items, rxBurst, received]
  refine ⟨rfl, fun p hp => ⟨(wf p hp).len.symm, received_eq_iff, fun physical => ?_⟩, ?_⟩
  · exact received_physical physical fun m hm => readable p hp m (List.mem_cons_of_mem _ hm)
  have kept : ∀ c ∈ (ps.filter fun p => !p.2).map Prod.fst, IsChain 0 next c.1 c.2 := by
    intro c hc
    obtain ⟨p, hp, rfl⟩ := List.mem_map.mp hc
    exact (wf p (List.mem_of_mem_filter hp)).chain
  have apart : (records ((ps.filter fun p => !p.2).map Prod.fst)).Nodup := by
    have sub : (ps.filter fun p => !p.2).Sublist ps := List.filter_sublist
    exact nodup.sublist ((sub.map Prod.fst).flatMap _)
  rw [relinkAll_eq_self_iff kept apart]
  constructor
  · intro all p hp failed
    refine all p.1 (List.mem_map_of_mem (List.mem_filter.mpr ⟨hp, ?_⟩))
    rw [failed]
    rfl
  · intro all c hc
    obtain ⟨p, hp, rfl⟩ := List.mem_map.mp hc
    obtain ⟨there, failed⟩ := List.mem_filter.mp hp
    exact all p there (by simpa using failed)

end

/-- Mbufs that the kernel finds 2048 below their virtual addresses. -/
def lowMbuf (m : UInt64) : RteKniMbuf where
  bufAddr := m + 128
  bufIova := m + 128 - 2048
  dataOff := 128
  nbSegs := if m = 4096 then 2 else 1
  pktLen := if m = 4096 then 3 else 1
  dataLen := if m = 4096 then 2 else 1
  byte i := UInt8.ofNat i

def lowKva (pa : UInt64) : UInt64 := pa + 2048

/-- A packet of two segments. -/
def twoSegs : UInt64 × List UInt64 := (4096, [8192])

def twoSegsLinks (m : UInt64) : UInt64 := if m = 4096 then 8192 else 0

theorem twoSegs_wellFormed : WellFormed lowMbuf lowKva twoSegsLinks twoSegs where
  chain := ⟨rfl, by decide, rfl⟩
  segs := rfl
  len := rfl
  mapped := by
    intro m hm
    simp only [twoSegs, List.mem_cons, List.not_mem_nil, or_false] at hm
    rcases hm with rfl | rfl <;> exact ⟨rfl, by decide⟩

/-- The data of the two segments stand 256 bytes into their mbufs; in memory they lie further on if
IO addresses are translated. -/
def lowMemory (translated : Bool) : KernelMemory where
  iovaToPhys := if translated then some (· + 65536) else none
  byte pa :=
    let pa := if translated then pa - 65536 else pa
    if pa = 2304 ∨ pa = 6400 then 0 else if pa = 2305 then 1 else 255

theorem lowMemory_readable (translated : Bool) :
    ∀ m ∈ [(4096 : UInt64), 8192], Readable lowMbuf (lowMemory translated) m := by
  intro m hm i hi
  simp only [List.mem_cons, List.not_mem_nil, or_false] at hm
  have short : i < 2 := hi.trans_le (by rcases hm with rfl | rfl <;> decide)
  obtain rfl | rfl : i = 0 ∨ i = 1 := by omega
  all_goals rcases hm with rfl | rfl <;> cases translated <;> revert hi <;> decide

/-- Where IO addresses are translated, the byte of the second segment is lost; without an skb the
packet comes back with a physical address in its link. -/
theorem burst_returned_twoSegs : (∃ phys pas,
    vaToPa lowMbuf maxSegs twoSegsLinks [4096] = some (phys, pas) ∧
      (rxBurst lowMbuf lowKva (lowMemory false) phys (pas.zip [false])).1 ≠ twoSegsLinks) ∧
    received lowMbuf (lowMemory false) twoSegs = [0, 1, 0] ∧
    received lowMbuf (lowMemory true) twoSegs ≠ [0, 1, 0] := by
  have whole : payload lowMbuf twoSegs = [0, 1, 0] := by decide
  have wf : ∀ sent : Bool, ∀ p ∈ [(twoSegs, sent)], WellFormed lowMbuf lowKva twoSegsLinks p.1 :=
    fun _ => List.forall_mem_singleton.mpr twoSegs_wellFormed
  have readable : ∀ translated sent : Bool, ∀ p ∈ [(twoSegs, sent)], ∀ m ∈ p.1.1 :: p.1.2,
      Readable lowMbuf (lowMemory translated) m :=
    fun translated _ => List.forall_mem_singleton.mpr (lowMemory_readable translated)
  obtain ⟨phys, pas, sent, _, data, same⟩ :=
    burst_returned (wf false) (readable false false) (by decide)
  obtain ⟨_, _, _, _, translated, _⟩ := burst_returned (wf true) (readable true true) (by decide)
  refine ⟨⟨phys, pas, sent, fun h => ?_⟩, ?_, fun h => ?_⟩
  · exact absurd (same.mp h _ List.mem_cons_self rfl 8192 List.mem_cons_self) (by decide)
  · exact ((data _ List.mem_cons_self).2.2 rfl).trans whole
  · have last := (translated _ List.mem_cons_self).2.1.mp (h.trans whole.symm) 8192
      List.mem_cons_self
    exact absurd last (by decide)

section
variable {mbuf : UInt64 → RteKniMbuf} {getKva : UInt64 → UInt64}

/-- Packets that the kernel gives back when it releases an interface have all their links as
the application had them. -/
theorem trans_returned {next : Links} {cs : List (UInt64 × List UInt64)}
    (wf : ∀ c ∈ cs, WellFormed mbuf getKva next c) (nodup : (records cs).Nodup) :
    ∃ phys pas, vaToPa mbuf maxSegs next (cs.map Prod.fst) = some (phys, pas) ∧
      transBurst mbuf getKva phys pas = (next, cs.map Prod.fst) := by
  refine ⟨_, _, vaToPa_spec wf nodup, ?_⟩
  have marked : (cs.map fun c => (c, true)).map Prod.fst = cs := by
    rw [List.map_map]
    exact List.map_id cs
  have none : (cs.map fun c => (c, true)).filter (fun c => !c.2) = [] := by
    simp [List.filter_map, Function.comp_def]
  have own : ∀ c ∈ cs.map (fun c => (c, true)), WellFormed mbuf getKva next c.1 ∧
      (c.1.1 :: c.1.2).Nodup ∧ c.2 = true := by
    intro c hc
    obtain ⟨d, hd, rfl⟩ := List.mem_map.mp hc
    exact ⟨wf d hd, (List.nodup_flatMap.mp nodup).1 d hd, rfl⟩
  have returned := eachInTurn_relinkAll (f := va2pa mbuf)
    (fun pa next => transPa2va mbuf getKva next pa)
    (fun c : Packet => va2pa mbuf c.1.1) (fun c : Packet => c.1.1)
    (fun c hc next chain => by
      obtain ⟨formed, distinct, back⟩ := own c hc
      rw [back]
      exact transPa2va_spec { formed with chain := chain } distinct)
    (fun c hc => (own c hc).1.chain) (by
      rw [marked]
      exact nodup)
  rw [marked, none, List.map_map, List.map_map] at returned
  exact returned

theorem trans_returned_twoSegs : ∃ phys pas,
    vaToPa lowMbuf maxSegs twoSegsLinks [4096] = some (phys, pas) ∧
      transBurst lowMbuf lowKva phys pas = (twoSegsLinks, [4096]) := by
  have wf : ∀ c ∈ [twoSegs], WellFormed lowMbuf lowKva twoSegsLinks c :=
    List.forall_mem_singleton.mpr twoSegs_wellFormed
  exact trans_returned wf (by decide)

end

end KniSegments
