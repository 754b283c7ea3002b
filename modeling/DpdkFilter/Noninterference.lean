import DpdkFilter.FilterSpec
import Mathlib.Data.Finset.Range
import Mathlib.Data.Finset.Card

/-!
# What the verdict and the output depend on

Two memory states that hold the same packet may differ behind it. The loop body
does the same in both exactly when the bytes received decide every test it makes
and, for a TUN device, cover the total length. Nothing in the code compares a
header field with `data_len`.
-/

namespace Noninterference

open ByteOrder CString Mbuf FilterRules LcoreMain LcoreRuns ForwardInterface FilterSpec

/-- The byte strings handed to `write` and `sendto`. -/
def handed : Event → Option Output
  | .write _ data _ => some (.write data)
  | .sendto _ data _ => some (.sendto data)
  | _ => none

/-- The loop body takes the same branch and hands out the same bytes. -/
def SamePass (g : Globals) (m₁ m₂ : RteMbuf) : Prop :=
  branch g.filterRules m₁ = branch g.filterRules m₂ ∧
  ∀ (σ : Type) (W : World σ) (w : σ) (c : Counters),
    (processPacket W g m₁ w c).events.filterMap handed =
      (processPacket W g m₂ w c).events.filterMap handed

/-- The packet in the single segment of `m` is `f`. -/
structure Holds (m : RteMbuf) (f : Frame) : Prop where
  single : SingleSegment m
  frame : frame m = f

/-- Whatever stands behind the packet, the loop body does the same. -/
def DependsOnFrameOnly (g : Globals) (f : Frame) : Prop :=
  ∀ m₁ m₂ : RteMbuf, m₁.addr = m₂.addr → Holds m₁ f → Holds m₂ f → SamePass g m₁ m₂

/-- Matching packets are written to a TUN device. -/
def WritesTun (g : Globals) : Prop :=
  ∃ name, g.forwardIfname = some name ∧ tun <+: name ∧ 0 ≤ g.tunFd

/-- The bytes a rule compares and the values it wants, the ports standing at `o`. -/
def wants (k : FilterKey) (o : Nat) : List (Nat × UInt8) :=
  if k.ruleType = 0 then
    [(30, byte32 k.ip 0), (31, byte32 k.ip 1), (32, byte32 k.ip 2), (33, byte32 k.ip 3),
      (o + 2, byte16 k.port 0), (o + 3, byte16 k.port 1)]
  else
    [(26, byte32 k.ip 0), (27, byte32 k.ip 1), (28, byte32 k.ip 2), (29, byte32 k.ip 3),
      (o, byte16 k.port 0), (o + 1, byte16 k.port 1)]

def wantsIn (r : FilterRuleEntry) (f : Frame) : List (Nat × UInt8) :=
  wants r.key (14 + headerLength f)

/-- All a rule wants has been received. -/
def Sure (r : FilterRuleEntry) (f : Frame) : Prop :=
  ∀ p ∈ wantsIn r f, f[p.1]? = some p.2

instance (r : FilterRuleEntry) (f : Frame) : Decidable (Sure r f) :=
  inferInstanceAs (Decidable (∀ p ∈ wantsIn r f, f[p.1]? = some p.2))

/-- Something a rule wants is contradicted by a received byte, or by the rule itself
where the ports overlap the addresses. -/
def Excluded (r : FilterRuleEntry) (f : Frame) : Prop :=
  ∃ p ∈ wantsIn r f, (∃ b, f[p.1]? = some b ∧ b ≠ p.2) ∨ ∃ q ∈ wantsIn r f, q.1 = p.1 ∧ q.2 ≠ p.2

/-- The bytes received decide every test and cover what is written. -/
inductive Readable (g : Globals) (f : Frame) : Prop where
  | etherHigh {b : UInt8} (received : f[12]? = some b) (other : b ≠ 0x08)
  | etherLow {b : UInt8} (received : f[13]? = some b) (other : b ≠ 0x00)
  | protocol {p : UInt8} (received : f[23]? = some p) (other : p ≠ 6 ∧ p ≠ 17)
  | unmatched (received : 24 ≤ f.length) (excluded : ∀ r ∈ g.filterRules, Excluded r f)
  | matched (received : 24 ≤ f.length) (sure : ∃ r ∈ g.filterRules, Sure r f)
      (whole : WritesTun g → 14 + datagramLength f ≤ f.length)

/-! ## Header tests as tests on bytes -/

theorem isIpv4_bytes (m : RteMbuf) :
    etherType m = rteCpuToBe16 rteEtherTypeIpv4 ↔ m.data 12 = 0x08 ∧ m.data 13 = 0x00 := by
  have word : rteCpuToBe16 rteEtherTypeIpv4 = le16 0x08 0x00 := by decide
  rw [word]
  exact le16_eq_iff _ _ _ _

theorem matches_iff_wants (m : RteMbuf) (k : FilterKey) :
    k.Matches (srcAddr m) (dstAddr m) (hdrPorts m (l4Offset m)).1 (hdrPorts m (l4Offset m)).2 ↔
      ∀ p ∈ wants k (l4Offset m), m.data p.1 = p.2 := by
  by_cases ht : k.ruleType = 0 <;>
    simp [FilterKey.Matches, wants, ht, srcAddr, dstAddr, hdrPorts, load16, load32,
      rteEtherHdrSize, eq_le16_iff_bytes, eq_le32_iff_bytes, and_assoc]

theorem Holds.data {m : RteMbuf} {f : Frame} (h : Holds m f) {i : Nat} {b : UInt8}
    (hi : f[i]? = some b) : m.data i = b := by
  obtain ⟨hlt, _⟩ := List.getElem?_eq_some_iff.mp hi
  rw [← h.frame, frame_length] at hlt
  have hread := frame_getElem? m hlt
  rw [h.frame, hi] at hread
  exact (Option.some.inj hread).symm

theorem Holds.length {m : RteMbuf} {f : Frame} (h : Holds m f) : m.dataLen.toNat = f.length := by
  rw [← h.frame, frame_length]

theorem Holds.l4Offset {m : RteMbuf} {f : Frame} (h : Holds m f) (h24 : 24 ≤ f.length) :
    l4Offset m = 14 + headerLength f := by
  rw [l4Offset_eq m (by rw [h.length]; omega), h.frame]

/-- With the ports placed by a received byte, a packet is forwarded when it shows
IPv4, TCP or UDP, and all the bytes some rule wants. -/
theorem Holds.branch_forward_iff {m : RteMbuf} {f : Frame} (h : Holds m f) (h24 : 24 ≤ f.length)
    (rules : List FilterRuleEntry) :
    branch rules m = .forward ↔ (m.data 12 = 0x08 ∧ m.data 13 = 0x00) ∧
      (m.data 23 = 6 ∨ m.data 23 = 17) ∧ ∃ r ∈ rules, ∀ p ∈ wantsIn r f, m.data p.1 = p.2 := by
  rw [LcoreRuns.branch_forward_iff, isIpv4_bytes]
  refine and_congr_right fun _ => and_congr Iff.rfl ?_
  refine exists_congr fun r => and_congr_right fun _ => ?_
  rw [matches_iff_wants, h.l4Offset h24]
  rfl

/-! ## The output of one packet -/

theorem loads_not_handed (rules : List FilterRuleEntry) (m : RteMbuf) :
    (loads rules m).filterMap handed = [] := by
  refine List.filterMap_eq_nil_iff.mpr fun e he => ?_
  obtain ⟨o, n, rfl⟩ := loads_are_loads rules m e he
  rfl

section
variable {σ : Type} (W : World σ)

theorem kniOrFree_handed (kni : Bool) (m : RteMbuf) (w : σ) (c : Counters) :
    (kniOrFree W kni m w c).events.filterMap handed = [] := by
  rcases kniOrFree_cases W kni m w c with ⟨_, he, _⟩ | ⟨_, he, _⟩ | ⟨_, he, _⟩ <;>
    simp [he, List.filterMap_cons, handed]

theorem processPacket_handed (g : Globals) (m : RteMbuf) (w : σ) (c : Counters) :
    (processPacket W g m w c).events.filterMap handed =
      if branch g.filterRules m = .forward then (forwardPacket W g m w c).events.filterMap handed
      else [] := by
  rw [processPacket_eq]
  simp only [Out.prepend, List.filterMap_append, loads_not_handed, List.nil_append]
  split
  · rfl
  · exact kniOrFree_handed W g.kni m w c

/-- On a TUN device the bytes from the IP header on go out, as many as it says. -/
theorem forwardPacket_writes {g : Globals} (h : WritesTun g) (m : RteMbuf) (w : σ) (c : Counters) :
    (forwardPacket W g m w c).events.filterMap handed =
      [.write (bytes m 14 (rteBeToCpu16 (totalLength m)).toNat)] := by
  obtain ⟨name, hname, hpre, hfd⟩ := h
  have hcmp := (strncmp_tun_iff name).mpr hpre
  rcases forwardToTun_cases W g m w with ⟨closed, _⟩ | ⟨_, n, he⟩
  · omega
  · simp [forwardPacket, hname, hcmp, finishForward, he, List.filterMap_cons, handed]

/-- Elsewhere at most the packet itself goes out. -/
theorem forwardPacket_sends {g : Globals} (h : ¬ WritesTun g) {m₁ m₂ : RteMbuf} {f : Frame}
    (h₁ : Holds m₁ f) (h₂ : Holds m₂ f) (w : σ) (c : Counters) :
    (forwardPacket W g m₁ w c).events.filterMap handed =
      (forwardPacket W g m₂ w c).events.filterMap handed := by
  have sent : ∀ m, Holds m f → bytes m 0 m.pktLen.toUInt16.toNat = f :=
    fun m hm => (bytes_pktLen m hm.single).trans hm.frame
  have same : bytes m₁ 0 m₁.pktLen.toUInt16.toNat = bytes m₂ 0 m₂.pktLen.toUInt16.toNat := by
    rw [sent m₁ h₁, sent m₂ h₂]
  unfold forwardPacket
  cases hname : g.forwardIfname with
  | none => rfl
  | some name =>
    by_cases hcmp : strncmp name tun 3 = 0
    · have closed : g.tunFd < 0 := by
        refine not_le.mp fun hfd => h ⟨name, hname, (strncmp_tun_iff name).mp hcmp, hfd⟩
      simp [hcmp, finishForward, forwardToTun, closed, List.filterMap_cons, handed]
    · by_cases hsock : g.rawSock < 0
      · simp [hcmp, finishForward, forwardToNic, hsock, List.filterMap_cons, handed]
      · by_cases hi : (W.ifNametoindex name w).1 = 0
        · simp [hcmp, finishForward, forwardToNic, hsock, hi, List.filterMap_cons, handed]
        · simp only [hcmp, finishForward, forwardToNic, hsock, hi, if_false]
          simp only [List.filterMap_cons, handed, same, List.cons_append, List.nil_append,
            List.filterMap_nil]

end

/-! ## Readable packets -/

theorem Sure.found {r : FilterRuleEntry} {f : Frame} {m : RteMbuf} (hm : Holds m f)
    (h : Sure r f) : ∀ p ∈ wantsIn r f, m.data p.1 = p.2 :=
  fun p hp => hm.data (h p hp)

theorem Excluded.missed {r : FilterRuleEntry} {f : Frame} {m : RteMbuf} (hm : Holds m f)
    (h : Excluded r f) : ¬ ∀ p ∈ wantsIn r f, m.data p.1 = p.2 := by
  intro found
  obtain ⟨p, hp, ⟨b, hb, hne⟩ | ⟨q, hq, hpq, hne⟩⟩ := h
  · exact hne ((hm.data hb).symm.trans (found p hp))
  · exact hne ((found q hq).symm.trans (hpq ▸ found p hp))

theorem Holds.agree {m₁ m₂ : RteMbuf} {f : Frame} (h₁ : Holds m₁ f) (h₂ : Holds m₂ f) {i : Nat}
    (hi : i < f.length) : m₁.data i = m₂.data i := by
  have hb := List.getElem?_eq_getElem hi
  rw [h₁.data hb, h₂.data hb]

theorem Holds.notIpv4 {m : RteMbuf} (rules : List FilterRuleEntry)
    (h : m.data 12 ≠ 0x08 ∨ m.data 13 ≠ 0x00) : branch rules m = .notIpv4 := by
  rw [branch_notIpv4_iff, ne_eq, isIpv4_bytes, not_and_or]
  exact h

theorem SamePass.of_silent {g : Globals} {m₁ m₂ : RteMbuf}
    (same : branch g.filterRules m₁ = branch g.filterRules m₂)
    (silent : branch g.filterRules m₁ ≠ .forward) : SamePass g m₁ m₂ := by
  refine ⟨same, fun σ W w c => ?_⟩
  rw [processPacket_handed, processPacket_handed, if_neg silent, if_neg (same ▸ silent)]

/-- Once the protocol byte is received, only the rules and the total length can make
two passes differ. -/
theorem branch_agree {m₁ m₂ : RteMbuf} {f : Frame} (h₁ : Holds m₁ f) (h₂ : Holds m₂ f)
    (h24 : 24 ≤ f.length) (rules : List FilterRuleEntry)
    (rule : branch rules m₁ = .forward ↔ branch rules m₂ = .forward) :
    branch rules m₁ = branch rules m₂ := by
  have e12 := h₁.agree h₂ (i := 12) (by omega)
  have e13 := h₁.agree h₂ (i := 13) (by omega)
  have e23 : nextProtoId m₁ = nextProtoId m₂ := h₁.agree h₂ (i := 23) (by omega)
  refine branch_congr rules ?_ ?_ rule
  · rw [branch_notIpv4_iff, branch_notIpv4_iff, ne_eq, ne_eq, isIpv4_bytes, isIpv4_bytes, e12, e13]
  · rw [branch_notTcpUdp_iff, branch_notTcpUdp_iff, isIpv4_bytes, isIpv4_bytes, e12, e13, e23]

theorem Readable.dependsOnFrameOnly {g : Globals} {f : Frame} (h : Readable g f) :
    DependsOnFrameOnly g f := by
  intro m₁ m₂ _ h₁ h₂
  have nowhere : ∀ m, branch g.filterRules m = .notIpv4 → branch g.filterRules m ≠ .forward :=
    fun m hm hf => by simp [hm] at hf
  cases h with
  | etherHigh received other =>
    have e₁ := Holds.notIpv4 g.filterRules (Or.inl (h₁.data received ▸ other))
    have e₂ := Holds.notIpv4 g.filterRules (Or.inl (h₂.data received ▸ other))
    exact .of_silent (e₁.trans e₂.symm) (nowhere m₁ e₁)
  | etherLow received other =>
    have e₁ := Holds.notIpv4 g.filterRules (Or.inr (h₁.data received ▸ other))
    have e₂ := Holds.notIpv4 g.filterRules (Or.inr (h₂.data received ▸ other))
    exact .of_silent (e₁.trans e₂.symm) (nowhere m₁ e₁)
  | protocol received other =>
    obtain ⟨hlt, _⟩ := List.getElem?_eq_some_iff.mp received
    have never : ∀ m, Holds m f → branch g.filterRules m ≠ .forward := by
      intro m hm forward
      have transport := ((hm.branch_forward_iff (by omega) _).mp forward).2.1
      rw [hm.data received] at transport
      exact transport.elim other.1 other.2
    have same := branch_agree h₁ h₂ (by omega) g.filterRules
      (iff_of_false (never m₁ h₁) (never m₂ h₂))
    exact .of_silent same (never m₁ h₁)
  | unmatched received excluded =>
    have never : ∀ m, Holds m f → branch g.filterRules m ≠ .forward := by
      intro m hm forward
      obtain ⟨r, hr, found⟩ := ((hm.branch_forward_iff received _).mp forward).2.2
      exact (excluded r hr).missed hm found
    have same := branch_agree h₁ h₂ received g.filterRules
      (iff_of_false (never m₁ h₁) (never m₂ h₂))
    exact .of_silent same (never m₁ h₁)
  | matched received sure whole =>
    obtain ⟨r, hr, sure⟩ := sure
    have forward : branch g.filterRules m₁ = .forward ↔ branch g.filterRules m₂ = .forward := by
      rw [h₁.branch_forward_iff received, h₂.branch_forward_iff received,
        h₁.agree h₂ (i := 12) (by omega), h₁.agree h₂ (i := 13) (by omega),
        h₁.agree h₂ (i := 23) (by omega)]
      exact and_congr_right fun _ => and_congr_right fun _ =>
        iff_of_true ⟨r, hr, sure.found h₁⟩ ⟨r, hr, sure.found h₂⟩
    have same := branch_agree h₁ h₂ received g.filterRules forward
    by_cases hfwd : branch g.filterRules m₁ = .forward
    · refine ⟨same, fun σ W w c => ?_⟩
      rw [processPacket_handed, processPacket_handed, if_pos hfwd, if_pos (forward.mp hfwd)]
      by_cases htun : WritesTun g
      · have written : ∀ m, Holds m f →
            bytes m 14 (rteBeToCpu16 (totalLength m)).toNat = datagram f := by
          intro m hm
          have len := hm.length
          have cover := whole htun
          rw [totalLength_eq m (by omega), hm.frame, bytes_eq_slice m (by omega), hm.frame]
          rfl
        rw [forwardPacket_writes W htun, forwardPacket_writes W htun, written m₁ h₁, written m₂ h₂]
      · exact forwardPacket_sends W htun h₁ h₂ w c
    · exact .of_silent same hfwd

/-! ## Packets that are not readable -/

/-- The packet `f` with given bytes behind it. -/
def fill (f : Frame) (after : Nat → UInt8) : RteMbuf := RteMbuf.ofFrame 1 f after

theorem fill_holds {f : Frame} (hf : f.length < 65536) (after : Nat → UInt8) :
    Holds (fill f after) f :=
  ⟨ofFrame_singleSegment 1 f after hf, frame_ofFrame 1 f after hf⟩

theorem fill_after {f : Frame} {i : Nat} (hi : f[i]? = none) (after : Nat → UInt8) :
    (fill f after).data i = after i := by
  have hlen := List.getElem?_eq_none_iff.mp hi
  simp [fill, RteMbuf.ofFrame, Nat.not_lt.mpr hlen]

/-- A byte that no received byte contradicts can be had. -/
theorem fill_data {f : Frame} (hf : f.length < 65536) {i : Nat} {b : UInt8}
    (hi : ∀ c, f[i]? = some c → c = b) (after : Nat → UInt8) (ha : after i = b) :
    (fill f after).data i = b := by
  cases hc : f[i]? with
  | none => rw [fill_after hc, ha]
  | some c => rw [(fill_holds hf after).data hc, hi c hc]

/-- Fewer than 256 bytes leave one out. -/
theorem exists_fresh (bs : List UInt8) (h : bs.length < 256) : ∃ v, v ∉ bs := by
  have few : ((bs.map UInt8.toNat).toFinset).card < (Finset.range 256).card := by
    have hle := List.toFinset_card_le (bs.map UInt8.toNat)
    rw [List.length_map] at hle
    rw [Finset.card_range]
    omega
  obtain ⟨n, hn, fresh⟩ := Finset.exists_mem_notMem_of_card_lt_card few
  refine ⟨UInt8.ofNat n, fun hmem => fresh ?_⟩
  have hlt := Finset.mem_range.mp hn
  have hval : (UInt8.ofNat n).toNat = n := by
    rw [UInt8.toNat_ofNat']
    omega
  exact List.mem_toFinset.mpr (List.mem_map.mpr ⟨_, hmem, hval⟩)

/-- A rule that wants a byte not received is missed by all fillings but one. -/
theorem missed_but_one {f : Frame} (hf : f.length < 65536) {r : FilterRuleEntry}
    (unsure : ¬ Sure r f) :
    ∃ u, ∀ v, v ≠ u → ¬ ∀ p ∈ wantsIn r f, (fill f fun _ => v).data p.1 = p.2 := by
  rw [Sure] at unsure
  simp only [not_forall] at unsure
  obtain ⟨p, hp, hne⟩ := unsure
  refine ⟨p.2, fun v hv found => ?_⟩
  have hdata := found p hp
  cases hc : f[p.1]? with
  | none =>
    rw [fill_after hc] at hdata
    exact hv hdata
  | some c =>
    rw [(fill_holds hf _).data hc] at hdata
    exact hne (hdata ▸ hc)

theorem exists_unmatched {f : Frame} (hf : f.length < 65536) (rules : List FilterRuleEntry)
    (few : rules.length ≤ maxFilterRules) (unsure : ∀ r ∈ rules, ¬ Sure r f) :
    ∃ v, ∀ r ∈ rules, ¬ ∀ p ∈ wantsIn r f, (fill f fun _ => v).data p.1 = p.2 := by
  choose! u hu using fun r (h : ¬ Sure r f) => missed_but_one hf h
  obtain ⟨v, hv⟩ := exists_fresh (rules.map u) (by
    rw [List.length_map]
    exact Nat.lt_of_le_of_lt few (by decide))
  refine ⟨v, fun r hr => hu r (unsure r hr) v fun heq => hv ?_⟩
  exact heq ▸ List.mem_map_of_mem hr

/-- A rule nothing contradicts can be made to match. -/
theorem exists_matched {f : Frame} (hf : f.length < 65536) {r : FilterRuleEntry}
    (possible : ¬ Excluded r f) :
    ∃ after, ∀ p ∈ wantsIn r f, (fill f after).data p.1 = p.2 := by
  rw [Excluded] at possible
  simp only [not_exists, not_and_or, not_or, not_not] at possible
  refine ⟨fun i => ((wantsIn r f).find? fun p => p.1 = i).elim 0 Prod.snd, fun p hp => ?_⟩
  obtain ⟨agree, alike⟩ := (possible p).resolve_left (not_not.mpr hp)
  refine fill_data hf (fun c hc => (agree c).resolve_left (not_not.mpr hc)) _ ?_
  have hfound : ((wantsIn r f).find? fun q => q.1 = p.1).isSome := by
    rw [List.find?_isSome]
    exact ⟨p, hp, by simp⟩
  obtain ⟨q, hq⟩ := Option.isSome_iff_exists.mp hfound
  have hpos : q.1 = p.1 := by simpa using List.find?_some hq
  have hval := ((alike q).resolve_left (not_not.mpr (List.mem_of_find?_eq_some hq))).resolve_left
    (not_not.mpr hpos)
  simpa [hq] using hval

/-- Two memories with one verdict and one output whenever the header tests cannot
tell them apart; used below with fillings that a test does tell apart. -/
theorem DependsOnFrameOnly.branch_eq {g : Globals} {f : Frame} (h : DependsOnFrameOnly g f)
    (hf : f.length < 65536) (after after' : Nat → UInt8) :
    branch g.filterRules (fill f after) = branch g.filterRules (fill f after') :=
  (h (fill f after) (fill f after') rfl (fill_holds hf after) (fill_holds hf after')).1

/-- The ether type has been received, unless its first byte already rules IPv4 out. -/
theorem DependsOnFrameOnly.etherType_received {g : Globals} {f : Frame} (h : DependsOnFrameOnly g f)
    (hf : f.length < 65536) (high : ∀ c, f[12]? = some c → c = 0x08)
    (low : ∀ c, f[13]? = some c → c = 0x00) : f[13]? = some 0x00 := by
  cases hc : f[13]? with
  | some c => rw [low c hc]
  | none =>
    exfalso
    have same := h.branch_eq hf (fun i => if i = 12 then 0x08 else 0x00)
      fun i => if i = 12 then 0x08 else 0x01
    have other : branch g.filterRules (fill f fun i => if i = 12 then 0x08 else 0x01) = .notIpv4 :=
      Holds.notIpv4 _ (Or.inr (by simp [fill_after hc]))
    rw [other, branch_notIpv4_iff, ne_eq, isIpv4_bytes] at same
    exact same ⟨fill_data hf high _ rfl, by simp [fill_after hc]⟩

theorem DependsOnFrameOnly.protocol_received {g : Globals} {f : Frame} (h : DependsOnFrameOnly g f)
    (hf : f.length < 65536) (high : f[12]? = some 0x08) (low : f[13]? = some 0x00) :
    ∃ p, f[23]? = some p := by
  cases hc : f[23]? with
  | some p => exact ⟨p, rfl⟩
  | none =>
    exfalso
    have ipv4 : ∀ after, etherType (fill f after) = rteCpuToBe16 rteEtherTypeIpv4 := by
      intro after
      rw [isIpv4_bytes]
      exact ⟨(fill_holds hf after).data high, (fill_holds hf after).data low⟩
    have same := h.branch_eq hf (fun _ => 6) fun _ => 0
    have proto : ∀ v, nextProtoId (fill f fun _ => v) = v := fun v => fill_after hc _
    have other : branch g.filterRules (fill f fun _ => 0) = .notTcpUdp := by
      rw [branch_notTcpUdp_iff, proto]
      exact ⟨ipv4 _, by decide, by decide⟩
    rw [other, branch_notTcpUdp_iff, proto] at same
    exact same.2.1 rfl

/-- If no rule is sure to match, no rule can match. -/
theorem DependsOnFrameOnly.excluded {g : Globals} {f : Frame} (h : DependsOnFrameOnly g f)
    (hf : f.length < 65536) (few : g.filterRules.length ≤ maxFilterRules)
    (high : f[12]? = some 0x08) (low : f[13]? = some 0x00)
    (proto : f[23]? = some 6 ∨ f[23]? = some 17) (h24 : 24 ≤ f.length)
    (unsure : ∀ r ∈ g.filterRules, ¬ Sure r f) : ∀ r ∈ g.filterRules, Excluded r f := by
  intro r hr
  by_contra possible
  obtain ⟨after, found⟩ := exists_matched hf possible
  obtain ⟨v, missed⟩ := exists_unmatched hf g.filterRules few unsure
  have hm := fill_holds hf after
  have forward : branch g.filterRules (fill f after) = .forward := by
    refine (hm.branch_forward_iff h24 _).mpr ⟨⟨hm.data high, hm.data low⟩, ?_, r, hr, found⟩
    exact proto.imp hm.data hm.data
  rw [h.branch_eq hf after fun _ => v, (fill_holds hf _).branch_forward_iff h24] at forward
  obtain ⟨_, _, r', hr', found'⟩ := forward
  exact missed r' hr' found'

/-- What is written to a TUN device has been received. -/
theorem DependsOnFrameOnly.whole {g : Globals} {f : Frame} (h : DependsOnFrameOnly g f)
    (hf : f.length < 65536) (high : f[12]? = some 0x08) (low : f[13]? = some 0x00)
    (proto : f[23]? = some 6 ∨ f[23]? = some 17) (h24 : 24 ≤ f.length)
    (sure : ∃ r ∈ g.filterRules, Sure r f) (htun : WritesTun g) :
    14 + datagramLength f ≤ f.length := by
  by_contra short
  obtain ⟨r, hr, sure⟩ := sure
  have forward : ∀ after, branch g.filterRules (fill f after) = .forward := by
    intro after
    have hm := fill_holds hf after
    refine (hm.branch_forward_iff h24 _).mpr
      ⟨⟨hm.data high, hm.data low⟩, proto.imp hm.data hm.data, r, hr, sure.found hm⟩
  have length : ∀ after, (rteBeToCpu16 (totalLength (fill f after))).toNat = datagramLength f := by
    intro after
    have hm := fill_holds hf after
    rw [totalLength_eq _ (by rw [hm.length]; omega), hm.frame]
  have same := (h (fill f fun _ => 0) (fill f fun _ => 1) rfl (fill_holds hf _)
    (fill_holds hf _)).2 Unit (World.always ⟨[], by decide⟩) () ⟨0, 0, 0⟩
  simp only [processPacket_handed, forward, if_true, forwardPacket_writes _ htun, length,
    List.cons.injEq, Output.write.injEq, and_true] at same
  -- the first byte behind the packet is in both strings
  have behind : f.length - 14 < datagramLength f := by omega
  have byte := congrArg (fun s : List UInt8 => s[f.length - 14]?) same
  simp only [bytes_getElem? _ _ _ _ behind, show 14 + (f.length - 14) = f.length by omega,
    fill_after (List.getElem?_eq_none (Nat.le_refl f.length))] at byte
  exact absurd byte (by decide)

/-- One pass depends on the packet alone exactly when the bytes received decide every
test it makes and cover what it writes. -/
theorem dependsOnFrameOnly_iff_readable (g : Globals) (f : Frame) (hf : f.length < 65536)
    (few : g.filterRules.length ≤ maxFilterRules) : DependsOnFrameOnly g f ↔ Readable g f := by
  refine ⟨fun h => ?_, fun h => h.dependsOnFrameOnly⟩
  by_cases other0 : ∃ b, f[12]? = some b ∧ b ≠ 0x08
  · obtain ⟨b, hb, hne⟩ := other0
    exact .etherHigh hb hne
  by_cases other1 : ∃ b, f[13]? = some b ∧ b ≠ 0x00
  · obtain ⟨b, hb, hne⟩ := other1
    exact .etherLow hb hne
  have high : ∀ c, f[12]? = some c → c = 0x08 :=
    fun c hc => not_not.mp fun hne => other0 ⟨c, hc, hne⟩
  have low := h.etherType_received hf high fun c hc => not_not.mp fun hne => other1 ⟨c, hc, hne⟩
  obtain ⟨h13, _⟩ := List.getElem?_eq_some_iff.mp low
  have high : f[12]? = some 0x08 := by
    have hget := List.getElem?_eq_getElem (l := f) (i := 12) (by omega)
    rw [hget, high _ hget]
  obtain ⟨p, hp⟩ := h.protocol_received hf high low
  obtain ⟨h23, _⟩ := List.getElem?_eq_some_iff.mp hp
  by_cases hproto : p ≠ 6 ∧ p ≠ 17
  · exact .protocol hp hproto
  rw [not_and_or, not_not, not_not] at hproto
  have proto : f[23]? = some 6 ∨ f[23]? = some 17 := by
    rw [hp]
    exact hproto.imp (congrArg some) (congrArg some)
  by_cases sure : ∃ r ∈ g.filterRules, Sure r f
  · exact .matched (by omega) sure (h.whole hf high low proto (by omega) sure)
  · have unsure : ∀ r ∈ g.filterRules, ¬ Sure r f := fun r hr hs => sure ⟨r, hr, hs⟩
    exact .unmatched (by omega) (h.excluded hf few high low proto (by omega) unsure)

theorem udpFrame_dependsOnFrameOnly : DependsOnFrameOnly tunGlobals udpFrame :=
  (dependsOnFrameOnly_iff_readable tunGlobals udpFrame (by decide) (by decide)).mpr
    (.matched (by decide) ⟨udpRule, List.mem_singleton.mpr rfl, by decide⟩ fun _ => by decide)

/-- The same frame with a total length of 47, one more than was received. -/
def longClaim : Frame := udpFrame.set 17 47

/-- The byte behind the packet is written to the TUN device. -/
theorem longClaim_leaks : ¬ DependsOnFrameOnly tunGlobals longClaim := by
  intro h
  have len : longClaim.length < 65536 := by decide
  have same := (h (fill longClaim fun _ => 0) (fill longClaim fun _ => 1) rfl (fill_holds len _)
    (fill_holds len _)).2 Unit (World.always ⟨[], by decide⟩) () ⟨0, 0, 0⟩
  exact absurd same (by decide)

end Noninterference
