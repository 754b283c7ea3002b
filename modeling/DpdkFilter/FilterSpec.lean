import DpdkFilter.ForwardInterface
import DpdkFilter.LcoreRuns

/-!
# The filter specification

What the filter is for, said about frames as byte strings and fields as numbers
in network byte order: which frames the rules select, and what leaves the program
for each. On well-formed traffic a run of the packet loop does exactly that.
-/

namespace FilterSpec

open ByteOrder CString Mbuf FilterRules LcoreMain LcoreRuns ForwardInterface

abbrev Frame := List UInt8

def byteAt (f : Frame) (i : Nat) : UInt8 := f.getD i 0

def be16At (f : Frame) (i : Nat) : Nat := be16 (byteAt f i) (byteAt f (i + 1))

def be32At (f : Frame) (i : Nat) : Nat :=
  be32 (byteAt f i) (byteAt f (i + 1)) (byteAt f (i + 2)) (byteAt f (i + 3))

/-- The IP header length in bytes. -/
def headerLength (f : Frame) : Nat := 4 * ((byteAt f 14).toNat % 16)

def ipVersion (f : Frame) : Nat := (byteAt f 14).toNat / 16

def datagramLength (f : Frame) : Nat := be16At f 16

def fragmentOffset (f : Frame) : Nat := be16At f 20 % 8192

def IsIpv4 (f : Frame) : Prop := be16At f 12 = 0x0800

def IsTcpUdp (f : Frame) : Prop := byteAt f 23 = 6 ∨ byteAt f 23 = 17

def srcPort (f : Frame) : Nat := be16At f (14 + headerLength f)

def dstPort (f : Frame) : Nat := be16At f (14 + headerLength f + 2)

/-- The IP datagram, without the Ethernet header and without padding. -/
def datagram (f : Frame) : List UInt8 := (f.drop 14).take (datagramLength f)

/-- A rule names an address and a port: of the destination when its type is 0, of
the source otherwise. -/
def Names (r : FilterRuleEntry) (f : Frame) : Prop :=
  if r.key.ruleType = 0 then
    (bswap32 r.key.ip).toNat = be32At f 30 ∧ (bswap16 r.key.port).toNat = dstPort f
  else
    (bswap32 r.key.ip).toNat = be32At f 26 ∧ (bswap16 r.key.port).toNat = srcPort f

def Selected (rules : List FilterRuleEntry) (f : Frame) : Prop :=
  IsIpv4 f ∧ IsTcpUdp f ∧ ∃ r ∈ rules, Names r f

instance (f : Frame) : Decidable (IsIpv4 f) := inferInstanceAs (Decidable (_ = _))

instance (f : Frame) : Decidable (IsTcpUdp f) := inferInstanceAs (Decidable (_ ∨ _))

instance (r : FilterRuleEntry) (f : Frame) : Decidable (Names r f) :=
  inferInstanceAs (Decidable (ite _ _ _))

instance (rules : List FilterRuleEntry) (f : Frame) : Decidable (Selected rules f) :=
  inferInstanceAs (Decidable (IsIpv4 f ∧ IsTcpUdp f ∧ ∃ r ∈ rules, Names r f))

/-- An IPv4 frame holds a whole datagram, possibly padded; if it is TCP or UDP, the
datagram starts its transport header, so it is no later fragment. -/
structure WellFormed (f : Frame) : Prop where
  ethernet : 14 ≤ f.length
  header : IsIpv4 f → 34 ≤ f.length ∧ ipVersion f = 4 ∧ 20 ≤ headerLength f
  whole : IsIpv4 f → headerLength f ≤ datagramLength f ∧ 14 + datagramLength f ≤ f.length
  transport : IsIpv4 f → IsTcpUdp f → fragmentOffset f = 0 ∧ headerLength f + 4 ≤ datagramLength f

inductive Output where
  | offer (f : Frame)
  | write (data : List UInt8)
  | sendto (data : List UInt8)
deriving DecidableEq

/-- What leaves the program for the frames in order of arrival; `indices` holds the
results of `if_nametoindex`, one for each selected frame that goes to a socket. -/
def specRun (rules : List FilterRuleEntry) (name : CStr) (kni : Bool) :
    List Frame → List UInt32 → List Output
  | [], _ => []
  | f :: fs, indices =>
    if Selected rules f then
      if tun <+: name then .write (datagram f) :: specRun rules name kni fs indices
      else if indices.head? = some 0 then specRun rules name kni fs indices.tail
      else .sendto f :: specRun rules name kni fs indices.tail
    else if kni then .offer f :: specRun rules name kni fs indices
    else specRun rules name kni fs indices

/-- What an event puts out. -/
def output : Event → Option Output
  | .rteKniTxBurst m _ => some (.offer (frame m))
  | .write _ data _ => some (.write data)
  | .sendto _ data _ => some (.sendto data)
  | _ => none

def nametoindexRet : Event → Option UInt32
  | .ifNametoindex ret => some ret
  | _ => none

/-! ## Header fields read from the mbuf are those of the frame -/

theorem byteAt_frame (m : RteMbuf) {i : Nat} (h : i < m.dataLen.toNat) :
    byteAt (frame m) i = m.data i := by
  simp [byteAt, List.getD_eq_getElem?_getD, frame_getElem? m h]

theorem load16_frame (m : RteMbuf) {o : Nat} (h : o + 1 < m.dataLen.toNat) (w : UInt16) :
    w = load16 m o ↔ (bswap16 w).toNat = be16At (frame m) o := by
  rw [be16At, byteAt_frame m (by omega), byteAt_frame m (by omega)]
  exact eq_le16_iff w _ _

theorem load32_frame (m : RteMbuf) {o : Nat} (h : o + 3 < m.dataLen.toNat) (w : UInt32) :
    w = load32 m o ↔ (bswap32 w).toNat = be32At (frame m) o := by
  rw [be32At, byteAt_frame m (by omega), byteAt_frame m (by omega), byteAt_frame m (by omega),
    byteAt_frame m (by omega)]
  exact eq_le32_iff w _ _ _ _

theorem etherType_iff (m : RteMbuf) (h : 14 ≤ m.dataLen.toNat) :
    etherType m = rteCpuToBe16 rteEtherTypeIpv4 ↔ IsIpv4 (frame m) := by
  have swapped : (bswap16 (rteCpuToBe16 rteEtherTypeIpv4)).toNat = 0x0800 := by decide
  rw [eq_comm, etherType, load16_frame m (by omega), swapped, IsIpv4, eq_comm]

theorem isTcpUdp_iff (m : RteMbuf) (h : 24 ≤ m.dataLen.toNat) :
    (nextProtoId m = ipprotoTcp ∨ nextProtoId m = ipprotoUdp) ↔ IsTcpUdp (frame m) := by
  rw [IsTcpUdp, byteAt_frame m (by omega)]
  rfl

theorem l4Offset_eq (m : RteMbuf) (h : 15 ≤ m.dataLen.toNat) :
    l4Offset m = 14 + headerLength (frame m) := by
  have low : (versionIhl m &&& 0x0F).toNat = (versionIhl m).toNat % 16 := by
    rw [UInt8.toNat_and]
    exact Nat.and_two_pow_sub_one_eq_mod _ 4
  rw [l4Offset, low, headerLength, byteAt_frame m (by omega)]
  simp only [versionIhl, rteEtherHdrSize]
  omega

theorem totalLength_eq (m : RteMbuf) (h : 18 ≤ m.dataLen.toNat) :
    (rteBeToCpu16 (totalLength m)).toNat = datagramLength (frame m) := by
  rw [datagramLength, be16At, byteAt_frame m (by omega), byteAt_frame m (by omega)]
  exact bswap16_le16 _ _

/-- The word comparison of a rule is the comparison of the numbers it stands for. -/
theorem matches_iff (m : RteMbuf) (r : FilterRuleEntry) (h : 34 ≤ m.dataLen.toNat)
    (hports : l4Offset m + 4 ≤ m.dataLen.toNat) :
    r.key.Matches (srcAddr m) (dstAddr m) (hdrPorts m (l4Offset m)).1 (hdrPorts m (l4Offset m)).2 ↔
      Names r (frame m) := by
  have hl4 := l4Offset_eq m (by omega)
  have hsrc := load32_frame m (o := 26) (by omega) r.key.ip
  have hdst := load32_frame m (o := 30) (by omega) r.key.ip
  have hsport := load16_frame m (o := l4Offset m) (by omega) r.key.port
  have hdport := load16_frame m (o := l4Offset m + 2) (by omega) r.key.port
  rw [hl4] at hsport hdport
  simp only [FilterKey.Matches, Names, srcAddr, dstAddr, hdrPorts, rteEtherHdrSize, srcPort,
    dstPort,
    hl4, hsrc, hdst, hsport, hdport]

/-- Where every header read stays inside the packet, the verdict of the header
inspection is that of the rules. -/
theorem branch_forward_iff_selected (rules : List FilterRuleEntry) (m : RteMbuf)
    (ether : 14 ≤ m.dataLen.toNat) (header : IsIpv4 (frame m) → 34 ≤ m.dataLen.toNat)
    (ports : IsIpv4 (frame m) → IsTcpUdp (frame m) → l4Offset m + 4 ≤ m.dataLen.toNat) :
    branch rules m = .forward ↔ Selected rules (frame m) := by
  rw [branch_forward_iff, Selected, etherType_iff m ether]
  refine and_congr_right fun ipv4 => ?_
  have h34 := header ipv4
  rw [isTcpUdp_iff m (by omega)]
  refine and_congr_right fun transport => ?_
  exact exists_congr fun r => and_congr_right fun _ => matches_iff m r h34 (ports ipv4 transport)

theorem WellFormed.branch_forward_iff (rules : List FilterRuleEntry) {m : RteMbuf}
    (wf : WellFormed (frame m)) : branch rules m = .forward ↔ Selected rules (frame m) := by
  have len := frame_length m
  refine branch_forward_iff_selected rules m (len ▸ wf.ethernet)
    (fun ipv4 => len ▸ (wf.header ipv4).1) fun ipv4 transport => ?_
  have h34 := (wf.header ipv4).1
  have hport := (wf.transport ipv4 transport).2
  have hwhole := (wf.whole ipv4).2
  have hl4 := l4Offset_eq m (by omega)
  omega

/-- What `forward_to_tun` writes is the datagram. -/
theorem bytes_datagram (m : RteMbuf) (wf : WellFormed (frame m)) (ipv4 : IsIpv4 (frame m)) :
    bytes m 14 (rteBeToCpu16 (totalLength m)).toNat = datagram (frame m) := by
  have h34 := (wf.header ipv4).1
  have hwhole := (wf.whole ipv4).2
  rw [frame_length] at h34 hwhole
  rw [totalLength_eq m (by omega)]
  exact bytes_eq_slice m hwhole

/-- What `forward_to_nic` sends is the frame. -/
theorem bytes_pktLen (m : RteMbuf) (single : SingleSegment m) :
    bytes m 0 m.pktLen.toUInt16.toNat = frame m := by
  have hlt := m.dataLen.toNat_lt
  have hlen : m.pktLen.toUInt16.toNat = m.dataLen.toNat := by
    rw [UInt32.toNat_toUInt16, single]
    omega
  rw [hlen]
  rfl

/-! ## One frame, one pass, one run -/

/-- The events do for the frames what the specification says, whatever comes after. -/
def Meets (rules : List FilterRuleEntry) (name : CStr) (kni : Bool) (fs : List Frame)
    (events : List Event) : Prop :=
  ∀ later indices,
    specRun rules name kni (fs ++ later) (events.filterMap nametoindexRet ++ indices) =
      events.filterMap output ++ specRun rules name kni later indices

theorem Meets.nil (rules : List FilterRuleEntry) (name : CStr) (kni : Bool) :
    Meets rules name kni [] [] :=
  fun _ _ => rfl

theorem Meets.append {rules : List FilterRuleEntry} {name : CStr} {kni : Bool}
    {fs fs' : List Frame} {es es' : List Event} (h : Meets rules name kni fs es)
    (h' : Meets rules name kni fs' es') : Meets rules name kni (fs ++ fs') (es ++ es') := by
  intro later indices
  simp only [List.filterMap_append, List.append_assoc]
  rw [h, h']

theorem loads_silent {es : List Event} (h : ∀ e ∈ es, ∃ m o n, e = .load m o n) :
    es.filterMap output = [] ∧ es.filterMap nametoindexRet = [] := by
  constructor <;>
  · refine List.filterMap_eq_nil_iff.mpr fun e he => ?_
    obtain ⟨m, o, n, rfl⟩ := h e he
    rfl

section
variable {σ : Type} (W : World σ)

theorem kniOrFree_meets (rules : List FilterRuleEntry) (name : CStr) (kni : Bool) (m : RteMbuf)
    (w : σ) (c : Counters) (unselected : ¬ Selected rules (frame m)) :
    Meets rules name kni [frame m] (kniOrFree W kni m w c).events := by
  intro later indices
  rcases kniOrFree_cases W kni m w c with ⟨rfl, he, _⟩ | ⟨rfl, he, _⟩ | ⟨rfl, he, _⟩ <;>
    simp [he, specRun, unselected, List.filterMap_cons, output, nametoindexRet]

theorem forwardPacket_meets {env : ForwardEnv} {name : CStr} {g : Globals}
    (opened : Opened env name g) (m : RteMbuf) (w : σ) (c : Counters)
    (wf : WellFormed (frame m)) (single : SingleSegment m)
    (selected : Selected g.filterRules (frame m)) :
    Meets g.filterRules name g.kni [frame m] (forwardPacket W g m w c).events := by
  intro later indices
  by_cases hname : tun <+: name
  · have hfd := opened.tunFd_nonneg hname
    have hcmp := (strncmp_tun_iff name).mpr hname
    rcases forwardToTun_cases W g m w with ⟨closed, _⟩ | ⟨_, n, he⟩
    · omega
    · rw [bytes_datagram m wf selected.1] at he
      simp [forwardPacket, opened.ifname, hcmp, finishForward, he, specRun, selected, hname,
        List.filterMap_cons, output, nametoindexRet]
  · have hfd := opened.rawSock_nonneg hname
    have hcmp : ¬ strncmp name tun 3 = 0 := fun he => hname ((strncmp_tun_iff name).mp he)
    rcases forwardToNic_cases W g name m w with ⟨closed, _⟩ | ⟨_, he, _⟩ | ⟨_, i, n, hi, he⟩
    · omega
    · simp [forwardPacket, opened.ifname, hcmp, finishForward, he, specRun, selected, hname,
        List.filterMap_cons, output, nametoindexRet]
    · rw [bytes_pktLen m single] at he
      simp [forwardPacket, opened.ifname, hcmp, finishForward, he, specRun, selected, hname,
        List.filterMap_cons, output, nametoindexRet, hi]

theorem processPacket_meets {env : ForwardEnv} {name : CStr} {g : Globals}
    (opened : Opened env name g) (m : RteMbuf) (w : σ) (c : Counters)
    (wf : WellFormed (frame m)) (single : SingleSegment m) :
    Meets g.filterRules name g.kni [frame m] (processPacket W g m w c).events := by
  obtain ⟨quiet, none⟩ := loads_silent fun e he =>
    ⟨m, loads_are_loads g.filterRules m e he⟩
  have verdict := wf.branch_forward_iff g.filterRules
  rw [processPacket_eq]
  intro later indices
  simp only [Out.prepend, List.filterMap_append, quiet, none, List.nil_append]
  split
  · exact forwardPacket_meets W opened m w c wf single (verdict.mp ‹_›) later indices
  · exact kniOrFree_meets W g.filterRules name g.kni m w c (fun h => ‹¬ _› (verdict.mpr h)) later
      indices

/-- A frame as the receive path is meant for. -/
def Regular (m : RteMbuf) : Prop := SingleSegment m ∧ WellFormed (frame m)

theorem segments_meet {rules : List FilterRuleEntry} {name : CStr} {kni : Bool}
    {ms : List RteMbuf} {segs : List (List Event)} (regular : ∀ m ∈ ms, Regular m)
    (h : List.Forall₂ (fun m seg => Regular m → Meets rules name kni [frame m] seg) ms segs) :
    Meets rules name kni (ms.map frame) segs.flatten := by
  induction h with
  | nil => exact .nil rules name kni
  | cons hseg _ ih =>
    exact (hseg (regular _ List.mem_cons_self)).append
      (ih fun m hm => regular m (List.mem_cons_of_mem _ hm))

theorem lcorePass_meets {env : ForwardEnv} {name : CStr} {g : Globals}
    (opened : Opened env name g) (h : Head σ)
    (regular : ∀ m ∈ (lcorePass W g h).1.burst.mbufs, Regular m) :
    Meets g.filterRules name g.kni ((lcorePass W g h).1.burst.mbufs.map frame)
      (lcorePass W g h).1.events := by
  obtain ⟨segs, hp, he⟩ := lcorePass_segments W g
    (P := fun m seg => Regular m → Meets g.filterRules name g.kni [frame m] seg)
    (fun m w c hm => processPacket_meets W opened m w c hm.2 hm.1) h
  rw [he]
  split
  · rename_i received
    rw [received]
    exact fun _ _ => rfl
  · exact segments_meet regular hp

end

def outputs (passes : List Pass) : List Output := (events passes).filterMap output

def indices (passes : List Pass) : List UInt32 := (events passes).filterMap nametoindexRet

theorem passes_meet {σ : Type} (W : World σ) {env : ForwardEnv} {name : CStr} {g : Globals}
    (opened : Opened env name g) (ps : List Pass) (made : ∀ p ∈ ps, ∃ h, p = (lcorePass W g h).1)
    (regular : ∀ m ∈ received ps, Regular m) :
    Meets g.filterRules name g.kni ((received ps).map frame) (events ps) := by
  induction ps with
  | nil => exact .nil _ _ _
  | cons p ps ih =>
    obtain ⟨h, rfl⟩ := made p List.mem_cons_self
    simp only [received_cons, events_cons, List.map_append] at regular ⊢
    refine (lcorePass_meets W opened h fun m hm => ?_).append
      (ih (fun q hq => made q (List.mem_cons_of_mem _ hq)) fun m hm => ?_)
    · exact regular m (List.mem_append_left _ hm)
    · exact regular m (List.mem_append_right _ hm)

/-- A run of the packet loop on well-formed frames puts out what the specification
says, frame by frame in order of arrival. -/
theorem lcoreMain_refines_specRun {σ : Type} (W : World σ) {env : ForwardEnv} {name : CStr}
    {g : Globals} (opened : Opened env name g) (fuel : Nat) (h : Head σ)
    (regular : ∀ m ∈ received (lcoreMain W g fuel h).1, Regular m) :
    outputs (lcoreMain W g fuel h).1 =
      specRun g.filterRules name g.kni ((received (lcoreMain W g fuel h).1).map frame)
        (indices (lcoreMain W g fuel h).1) := by
  have meets := passes_meet W opened _ (lcoreMain_pass W g fuel h) regular [] []
  simpa [specRun, outputs, indices] using meets.symm

/-- A UDP datagram of 30 bytes to 192.168.182.128:7777, padded to a minimal frame. -/
def udpFrame : Frame :=
  [2, 0, 0, 0, 0, 1, 2, 0, 0, 0, 0, 2, 0x08, 0x00,
    0x45, 0, 0, 30, 0, 0, 0, 0, 64, 17, 0, 0, 192, 168, 182, 1, 192, 168, 182, 128,
    0x22, 0x30, 0x1e, 0x61, 0, 10, 0, 0, 1, 2] ++ List.replicate 16 0

def udpMbuf : RteMbuf := RteMbuf.ofFrame 1 udpFrame fun _ => 0

def udpRule : FilterRuleEntry where
  key := { ruleType := 0, ip := le32 192 168 182 128, port := le16 0x1e 0x61 }
  action := 1

def tunGlobals : Globals where
  filterRules := [udpRule]
  portId := 0
  kni := true
  forwardIfname := some ['t', 'u', 'n', '0']
  tunFd := 5
  rawSock := -1

theorem udpMbuf_regular : Regular udpMbuf :=
  ⟨by decide, by decide, by decide, by decide, by decide⟩

/-- Two bursts of that datagram are two writes of its 30 bytes. -/
theorem tun_run_writes_datagrams :
    outputs (lcoreMain (World.always ⟨[udpMbuf], by decide⟩) tunGlobals 2 ⟨(), 0, 0, 0⟩).1 =
      [.write (datagram udpFrame), .write (datagram udpFrame)] :=
  (lcoreMain_refines_specRun (World.always ⟨[udpMbuf], by decide⟩)
    (show Opened ⟨5, 0, 0, 0, 0⟩ ['t', 'u', 'n', '0'] tunGlobals from ⟨rfl, by decide⟩) 2
    ⟨(), 0, 0, 0⟩ (fun m hm => by
      have hm : m ∈ [udpMbuf, udpMbuf] := hm
      simp only [List.mem_cons, List.not_mem_nil, or_false, or_self] at hm
      exact hm ▸ udpMbuf_regular)).trans (by decide)

end FilterSpec
