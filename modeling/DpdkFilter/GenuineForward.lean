import DpdkFilter.FilterSpec

/-!
# Which forwarded packets are genuine

The header inspection compares words at fixed places and at 14 + 4·IHL without
looking at version, IHL, total length or fragment offset. So a forwarded packet
is one a rule names, and it is an IPv4 packet with ports exactly where these
fields happen to be sane.
-/

namespace GenuineForward

open ByteOrder Mbuf FilterRules LcoreMain LcoreRuns FilterSpec

/-- An IPv4 header that can be believed: what it describes has been received and
covers both port words. -/
structure SaneHeader (f : Frame) : Prop where
  version : ipVersion f = 4
  ihl : 20 ≤ headerLength f
  covers : headerLength f + 4 ≤ datagramLength f
  received : 14 + datagramLength f ≤ f.length
  first : fragmentOffset f = 0

instance (f : Frame) : Decidable (SaneHeader f) :=
  decidable_of_iff (ipVersion f = 4 ∧ 20 ≤ headerLength f ∧ headerLength f + 4 ≤ datagramLength f ∧
    14 + datagramLength f ≤ f.length ∧ fragmentOffset f = 0)
    ⟨fun ⟨hv, hi, hc, hr, hf⟩ => ⟨hv, hi, hc, hr, hf⟩, fun ⟨hv, hi, hc, hr, hf⟩ => ⟨hv, hi, hc, hr, hf⟩⟩

/-- A TCP or UDP packet that some rule names by its address and port. -/
structure Genuine (rules : List FilterRuleEntry) (f : Frame) : Prop where
  ipv4 : IsIpv4 f
  header : SaneHeader f
  transport : IsTcpUdp f
  rule : ∃ r ∈ rules, Names r f

/-- What is forwarded is genuine. -/
def ForwardsGenuine (rules : List FilterRuleEntry) (m : RteMbuf) : Prop :=
  branch rules m = .forward → Genuine rules (frame m)

/-- No header field lies beyond 78 bytes. -/
theorem branch_forward_iff_of_long (rules : List FilterRuleEntry) (m : RteMbuf)
    (long : 78 ≤ m.dataLen.toNat) : branch rules m = .forward ↔ Selected rules (frame m) := by
  have hl4 := l4Offset_le m
  exact branch_forward_iff_selected rules m (by omega) (fun _ => by omega) fun _ _ => by omega

/-- A destination rule made of the words that stand where the ports are looked for. -/
def ruleFor (m : RteMbuf) : FilterRuleEntry where
  key := { ruleType := 0, ip := dstAddr m, port := load16 m (l4Offset m + 2) }
  action := 1

theorem names_ruleFor (m : RteMbuf) (long : 78 ≤ m.dataLen.toNat) : Names (ruleFor m) (frame m) := by
  have hl4 := l4Offset_le m
  refine (matches_iff m (ruleFor m) (by omega) (by omega)).mp ?_
  simp [FilterKey.Matches, ruleFor, hdrPorts]

/-- For given rules the verdict is right exactly when the rules do not select the
frame or its header is sane; for all rules at once, exactly when a frame that shows
IPv4 and TCP or UDP has a sane header. -/
theorem forwardsGenuine_iff (m : RteMbuf) (long : 78 ≤ m.dataLen.toNat) :
    (∀ rules, ForwardsGenuine rules m ↔ (Selected rules (frame m) → SaneHeader (frame m))) ∧
    ((∀ rules, ForwardsGenuine rules m) ↔
      (IsIpv4 (frame m) → IsTcpUdp (frame m) → SaneHeader (frame m))) := by
  have each : ∀ rules,
      ForwardsGenuine rules m ↔ (Selected rules (frame m) → SaneHeader (frame m)) := by
    intro rules
    rw [ForwardsGenuine, branch_forward_iff_of_long rules m long]
    constructor
    · exact fun h selected => (h selected).header
    · exact fun h selected => ⟨selected.1, h selected, selected.2.1, selected.2.2⟩
  refine ⟨each, fun all ipv4 transport => ?_, fun sane rules => ?_⟩
  · refine (each [ruleFor m]).mp (all _) ⟨ipv4, transport, ruleFor m, ?_, names_ruleFor m long⟩
    exact List.mem_singleton.mpr rfl
  · exact (each rules).mpr fun selected => sane selected.1 selected.2.1

/-- A later fragment of a UDP datagram whose payload starts with the bytes of port
7777 where a first fragment has its destination port. -/
def laterFragment : RteMbuf :=
  RteMbuf.ofFrame 1 ([2, 0, 0, 0, 0, 1, 2, 0, 0, 0, 0, 2, 0x08, 0x00,
    0x45, 0, 0, 64, 0, 7, 0, 185, 64, 17, 0, 0, 192, 168, 182, 1, 192, 168, 182, 128,
    0x22, 0x30, 0x1e, 0x61] ++ List.replicate 40 0) fun _ => 0

theorem laterFragment_long : 78 ≤ laterFragment.dataLen.toNat := by decide

theorem laterFragment_forwarded :
    SingleSegment laterFragment ∧ branch [udpRule] laterFragment = .forward ∧
      ¬ ForwardsGenuine [udpRule] laterFragment :=
  ⟨by decide, by decide, fun h => absurd (h (by decide)).header.first (by decide)⟩

theorem laterFragment_decided :
    ¬ ∀ rules, ForwardsGenuine rules laterFragment :=
  fun all => absurd ((forwardsGenuine_iff laterFragment laterFragment_long).2.mp all
    (by decide) (by decide)) (by decide)

end GenuineForward
