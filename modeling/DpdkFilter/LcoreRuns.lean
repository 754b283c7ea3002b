import DpdkFilter.LcoreMain
import Mathlib.Data.List.Forall2

/-!
# What one packet does, and what a run is made of

Each function of the loop gets one lemma that says everything it can do. A run is
then taken apart in two steps: its passes are passes from some head, and the
events of a pass are the stretches of its packets in burst order.
-/

namespace LcoreRuns

open CString Mbuf FilterRules LcoreMain

/-- The verdict of the header inspection. -/
def branch (filterRules : List FilterRuleEntry) (m : RteMbuf) : Branch :=
  (inspect filterRules m).2

/-- The packet accesses of the header inspection. -/
def loads (filterRules : List FilterRuleEntry) (m : RteMbuf) : List Event :=
  (inspect filterRules m).1

theorem loads_are_loads (filterRules : List FilterRuleEntry) (m : RteMbuf) :
    ∀ e ∈ loads filterRules m, ∃ o n, e = .load m o n := by
  unfold loads inspect
  split
  · simp
  · split <;> simp

/-- The verdict, with one reading of the ports: both transport headers start with them. -/
theorem branch_eq (filterRules : List FilterRuleEntry) (m : RteMbuf) :
    branch filterRules m =
      if etherType m ≠ rteCpuToBe16 rteEtherTypeIpv4 then .notIpv4
      else if nextProtoId m ≠ ipprotoTcp ∧ nextProtoId m ≠ ipprotoUdp then .notTcpUdp
      else if matchFilterRule (srcAddr m) (dstAddr m) (hdrPorts m (l4Offset m)).1
        (hdrPorts m (l4Offset m)).2 filterRules then .forward
      else .toKni := by
  have ports : (if nextProtoId m = ipprotoTcp then tcpPorts m else udpPorts m) =
      hdrPorts m (l4Offset m) := ite_self _
  unfold branch inspect
  simp only [ports]
  split
  · rfl
  · split <;> rfl

theorem branch_notIpv4_iff (filterRules : List FilterRuleEntry) (m : RteMbuf) :
    branch filterRules m = .notIpv4 ↔ etherType m ≠ rteCpuToBe16 rteEtherTypeIpv4 := by
  rw [branch_eq]
  split
  · simp [*]
  · split
    · simp [*]
    · split <;> simp [*]

theorem branch_notTcpUdp_iff (filterRules : List FilterRuleEntry) (m : RteMbuf) :
    branch filterRules m = .notTcpUdp ↔ etherType m = rteCpuToBe16 rteEtherTypeIpv4 ∧
      nextProtoId m ≠ ipprotoTcp ∧ nextProtoId m ≠ ipprotoUdp := by
  rw [branch_eq]
  split
  · simp [*]
  · rename_i ipv4
    split
    · exact iff_of_true rfl ⟨not_not.mp ipv4, ‹_›⟩
    · rename_i transport
      split <;> simp [transport]

theorem branch_forward_iff (filterRules : List FilterRuleEntry) (m : RteMbuf) :
    branch filterRules m = .forward ↔
      etherType m = rteCpuToBe16 rteEtherTypeIpv4 ∧
      (nextProtoId m = ipprotoTcp ∨ nextProtoId m = ipprotoUdp) ∧
      ∃ r ∈ filterRules, r.key.Matches (srcAddr m) (dstAddr m) (hdrPorts m (l4Offset m)).1
        (hdrPorts m (l4Offset m)).2 := by
  rw [← matchFilterRule_iff, branch_eq]
  split
  · simp [*]
  · rename_i ipv4
    rw [not_not] at ipv4
    split
    · rename_i other
      simp [other]
    · rename_i transport
      rw [not_and_or, not_not, not_not] at transport
      split <;> simp [*]

/-- The verdict is decided by three tests. -/
theorem branch_congr (filterRules : List FilterRuleEntry) {m₁ m₂ : RteMbuf}
    (ether : branch filterRules m₁ = .notIpv4 ↔ branch filterRules m₂ = .notIpv4)
    (proto : branch filterRules m₁ = .notTcpUdp ↔ branch filterRules m₂ = .notTcpUdp)
    (rule : branch filterRules m₁ = .forward ↔ branch filterRules m₂ = .forward) :
    branch filterRules m₁ = branch filterRules m₂ := by
  cases h₁ : branch filterRules m₁ <;> cases h₂ : branch filterRules m₂ <;> simp_all

section
variable {σ : Type} (W : World σ)

/-- Everything the block that offers to the KNI can do. -/
theorem kniOrFree_cases (kni : Bool) (m : RteMbuf) (w : σ) (c : Counters) :
    (kni = true ∧ (kniOrFree W kni m w c).events = [.rteKniTxBurst m true] ∧
      (kniOrFree W kni m w c).counters = { c with kniPackets := c.kniPackets + 1 }) ∨
    (kni = true ∧ (kniOrFree W kni m w c).events = [.rteKniTxBurst m false, .rtePktmbufFree m] ∧
      (kniOrFree W kni m w c).counters = c) ∨
    (kni = false ∧ (kniOrFree W kni m w c).events = [.rtePktmbufFree m] ∧
      (kniOrFree W kni m w c).counters = c) := by
  cases kni with
  | false => simp [kniOrFree]
  | true =>
    cases hb : (W.rteKniTxBurst m w).1 <;> simp [kniOrFree, hb]

/-- `forward_to_tun` writes once, unless the descriptor is closed. -/
theorem forwardToTun_cases (g : Globals) (m : RteMbuf) (w : σ) :
    (g.tunFd < 0 ∧ (forwardToTun W g m w).events = [] ∧ (forwardToTun W g m w).ret = -1) ∨
    (0 ≤ g.tunFd ∧ ∃ n, (forwardToTun W g m w).events =
      [.load m 16 2, .write m (bytes m 14 (rteBeToCpu16 (totalLength m)).toNat) n]) := by
  by_cases h : g.tunFd < 0
  · exact Or.inl ⟨h, by simp [forwardToTun, h], by simp [forwardToTun, h]⟩
  · exact Or.inr ⟨by omega, _, by simp only [forwardToTun, h, if_false, rteEtherHdrSize]; rfl⟩

/-- `forward_to_nic` sends once, unless the socket is closed or the name has no index. -/
theorem forwardToNic_cases (g : Globals) (name : CStr) (m : RteMbuf) (w : σ) :
    (g.rawSock < 0 ∧ (forwardToNic W g name m w).events = [] ∧
      (forwardToNic W g name m w).ret = -1) ∨
    (0 ≤ g.rawSock ∧ (forwardToNic W g name m w).events = [.loadPktLen m, .ifNametoindex 0] ∧
      (forwardToNic W g name m w).ret = -1) ∨
    (0 ≤ g.rawSock ∧ ∃ i n, i ≠ 0 ∧ (forwardToNic W g name m w).events =
      [.loadPktLen m, .ifNametoindex i, .sendto m (bytes m 0 m.pktLen.toUInt16.toNat) n]) := by
  by_cases h : g.rawSock < 0
  · exact Or.inl ⟨h, by simp [forwardToNic, h], by simp [forwardToNic, h]⟩
  · by_cases hi : (W.ifNametoindex name w).1 = 0
    · exact Or.inr (Or.inl ⟨by omega, by simp [forwardToNic, h, hi], by simp [forwardToNic, h, hi]⟩)
    · refine Or.inr (Or.inr ⟨by omega, (W.ifNametoindex name w).1,
        (W.sendto g.rawSock (bytes m 0 m.pktLen.toUInt16.toNat) (W.ifNametoindex name w).2).1,
        hi, ?_⟩)
      simp [forwardToNic, h, hi]

/-- The loop body is its header accesses followed by the block the verdict selects. -/
theorem processPacket_eq (g : Globals) (m : RteMbuf) (w : σ) (c : Counters) :
    processPacket W g m w c =
      (if branch g.filterRules m = .forward then forwardPacket W g m w c
        else kniOrFree W g.kni m w c).prepend (loads g.filterRules m) := by
  unfold processPacket branch loads
  rcases inspect g.filterRules m with ⟨es, b⟩
  cases b <;> rfl

/-- The events of a burst are the stretches of its packets, in burst order. -/
theorem processBurst_segments (g : Globals) {P : RteMbuf → List Event → Prop}
    (packet : ∀ m w c, P m (processPacket W g m w c).events) (bufs : List RteMbuf) (w : σ)
    (c : Counters) :
    ∃ segs, (processBurst W g bufs w c).events = segs.flatten ∧ List.Forall₂ P bufs segs := by
  induction bufs generalizing w c with
  | nil => exact ⟨[], rfl, .nil⟩
  | cons m bufs ih =>
    obtain ⟨segs, hs, hp⟩ := ih (processPacket W g m w c).world (processPacket W g m w c).counters
    refine ⟨(processPacket W g m w c).events :: segs, ?_, .cons (packet m w c) hp⟩
    simp only [processBurst, Out.prepend, List.flatten_cons, hs]

theorem lcorePass_eq (g : Globals) (h : Head σ) :
    ∃ handler burst w, lcorePass W g h = processReceived W g handler burst w h.counters :=
  ⟨_, _, _, rfl⟩

/-- The first part of a pass. -/
def handlerPart (g : Globals) (w : σ) : List HandlerEvent × σ :=
  if g.kni then kniRequestHandler W g w else ([], w)

/-- Everything the first part of a pass can do. -/
theorem handlerPart_cases (g : Globals) (w : σ) :
    handlerPart W g w = ([], w) ∨
    ((W.rteKniRxBurst w).1 = none ∧
      handlerPart W g w = ([.rteKniRxBurst none], (W.rteKniRxBurst w).2)) ∨
    ∃ m, (W.rteKniRxBurst w).1 = some m ∧
      let sent := W.rteEthTxBurst g.portId m (W.rteKniRxBurst w).2
      (sent.1 = true ∧ handlerPart W g w =
        ([.rteKniRxBurst (some m), .rteEthTxBurst m true], sent.2)) ∨
      (sent.1 = false ∧ handlerPart W g w =
        ([.rteKniRxBurst (some m), .rteEthTxBurst m false, .rtePktmbufFree .pointerVariable],
          W.rtePktmbufFree .pointerVariable sent.2)) := by
  unfold handlerPart
  cases g.kni with
  | false => exact Or.inl rfl
  | true =>
    simp only [if_true, kniRequestHandler]
    generalize W.rteKniRxBurst w = got
    obtain ⟨handed, w₁⟩ := got
    cases handed with
    | none => exact Or.inr (Or.inl ⟨rfl, rfl⟩)
    | some m =>
      refine Or.inr (Or.inr ⟨m, rfl, ?_⟩)
      dsimp only
      generalize W.rteEthTxBurst g.portId m w₁ = sent
      obtain ⟨nbTx, w₂⟩ := sent
      cases nbTx with
      | true => exact Or.inl ⟨rfl, rfl⟩
      | false => exact Or.inr ⟨rfl, rfl⟩

theorem lcorePass_handler (g : Globals) (h : Head σ) :
    (lcorePass W g h).1.handler = (handlerPart W g h.world).1 := by
  unfold lcorePass
  change Pass.handler (Prod.fst (processReceived W g (handlerPart W g h.world).1 _ _ _)) = _
  unfold processReceived
  split <;> rfl

/-- A pass that received nothing only pauses. -/
theorem lcorePass_segments (g : Globals) {P : RteMbuf → List Event → Prop}
    (packet : ∀ m w c, P m (processPacket W g m w c).events) (h : Head σ) :
    ∃ segs, List.Forall₂ P (lcorePass W g h).1.burst.mbufs segs ∧
      (lcorePass W g h).1.events =
        if (lcorePass W g h).1.burst.mbufs = [] then [.rtePause] else segs.flatten := by
  obtain ⟨handler, burst, w, heq⟩ := lcorePass_eq W g h
  rw [heq]
  by_cases received : burst.mbufs = []
  · exact ⟨[], by simp [processReceived, received], by simp [processReceived, received]⟩
  · have hlen : burst.mbufs.length ≠ 0 := fun h0 => received (List.eq_nil_of_length_eq_zero h0)
    obtain ⟨segs, hs, hp⟩ := processBurst_segments W g packet burst.mbufs w
      { h.counters with
        totalPackets := h.counters.totalPackets + UInt64.ofNat burst.mbufs.length }
    refine ⟨segs, ?_, ?_⟩
    · simpa only [processReceived, hlen, if_false] using hp
    · simpa only [processReceived, hlen, received, if_false] using hs

/-- A pass counts what it received and then what its packets count. -/
theorem lcorePass_counters (g : Globals) (h : Head σ) :
    ∃ w, (lcorePass W g h).2.counters =
      (processBurst W g (lcorePass W g h).1.burst.mbufs w { h.counters with
        totalPackets := h.counters.totalPackets +
          UInt64.ofNat (lcorePass W g h).1.burst.mbufs.length }).counters ∧
      ((lcorePass W g h).1.burst.mbufs ≠ [] → (lcorePass W g h).1.events =
        (processBurst W g (lcorePass W g h).1.burst.mbufs w { h.counters with
          totalPackets := h.counters.totalPackets +
            UInt64.ofNat (lcorePass W g h).1.burst.mbufs.length }).events) := by
  obtain ⟨handler, burst, w, heq⟩ := lcorePass_eq W g h
  refine ⟨w, ?_⟩
  rw [heq]
  by_cases received : burst.mbufs = []
  · simp [processReceived, received, processBurst]
  · have hlen : burst.mbufs.length ≠ 0 := fun h0 => received (List.eq_nil_of_length_eq_zero h0)
    simp [processReceived, hlen]

theorem lcoreMain_passes_grow (g : Globals) {k fuel : Nat} (hk : k ≤ fuel) (h : Head σ) :
    (lcoreMain W g k h).1 <+: (lcoreMain W g fuel h).1 := by
  induction fuel generalizing k h with
  | zero =>
    cases Nat.le_zero.mp hk
    exact List.prefix_refl _
  | succ fuel ih =>
    cases k with
    | zero => exact List.nil_prefix
    | succ k =>
      simp only [lcoreMain]
      split
      · exact List.prefix_refl _
      · exact (List.prefix_cons_inj _).mpr (ih (Nat.le_of_succ_le_succ hk) _)

/-- Every pass of a run is a pass from some head. -/
theorem lcoreMain_pass (g : Globals) (fuel : Nat) (h : Head σ) :
    ∀ p ∈ (lcoreMain W g fuel h).1, ∃ h', p = (lcorePass W g h').1 := by
  induction fuel generalizing h with
  | zero => simp [lcoreMain]
  | succ fuel ih =>
    intro p hp
    simp only [lcoreMain] at hp
    split at hp
    · simp at hp
    · rcases List.mem_cons.mp hp with here | later
      · exact ⟨h, here⟩
      · exact ih _ p later

/-- An invariant that depends on the mbufs the loop holds, and what each call of the
loop does to it. -/
structure Holding (I : List RteMbuf → σ → Prop) : Prop where
  received : ∀ port w, I [] w →
    I (W.rteEthRxBurst port w).1.mbufs (W.rteEthRxBurst port w).2
  accepted : ∀ m held w, I (m :: held) w → (W.rteKniTxBurst m w).1 = true →
    I held (W.rteKniTxBurst m w).2
  refused : ∀ m held w, I (m :: held) w → (W.rteKniTxBurst m w).1 = false →
    I (m :: held) (W.rteKniTxBurst m w).2
  freed : ∀ m held w, I (m :: held) w → I held (W.rtePktmbufFree (.mbuf m) w)
  write : ∀ fd data held w, I held w → I held (W.write fd data w).2
  ifNametoindex : ∀ name held w, I held w → I held (W.ifNametoindex name w).2
  sendto : ∀ fd data held w, I held w → I held (W.sendto fd data w).2
  paused : ∀ w, I [] w → I [] (W.rtePause w)

section
variable {W} {I : List RteMbuf → σ → Prop} (calls : Holding W I)
include calls

theorem kniOrFree_holding (kni : Bool) {m : RteMbuf} {held : List RteMbuf} {w : σ} (c : Counters)
    (h : I (m :: held) w) : I held (kniOrFree W kni m w c).world := by
  cases kni with
  | false => exact calls.freed m held w h
  | true =>
    cases hb : (W.rteKniTxBurst m w).1 with
    | true => simpa [kniOrFree, hb] using calls.accepted m held w h hb
    | false => simpa [kniOrFree, hb] using calls.freed m held _ (calls.refused m held w h hb)

theorem forwardToTun_holding (g : Globals) (m : RteMbuf) {held : List RteMbuf} {w : σ}
    (h : I held w) : I held (forwardToTun W g m w).world := by
  by_cases closed : g.tunFd < 0
  · simpa [forwardToTun, closed] using h
  · simpa [forwardToTun, closed] using calls.write _ _ held w h

theorem forwardToNic_holding (g : Globals) (name : CStr) (m : RteMbuf) {held : List RteMbuf}
    {w : σ} (h : I held w) : I held (forwardToNic W g name m w).world := by
  by_cases closed : g.rawSock < 0
  · simpa [forwardToNic, closed] using h
  · have index := calls.ifNametoindex name held w h
    by_cases hi : (W.ifNametoindex name w).1 = 0
    · simpa [forwardToNic, closed, hi] using index
    · simpa [forwardToNic, closed, hi] using calls.sendto _ _ held _ index

theorem forwardPacket_holding (g : Globals) {m : RteMbuf} {held : List RteMbuf} {w : σ}
    (c : Counters) (h : I (m :: held) w) : I held (forwardPacket W g m w c).world := by
  unfold forwardPacket
  cases g.forwardIfname with
  | none => exact calls.freed m held w h
  | some name =>
    dsimp only
    split
    · exact calls.freed m held _ (forwardToTun_holding calls g m h)
    · exact calls.freed m held _ (forwardToNic_holding calls g name m h)

/-- After a packet the loop holds the rest of the burst. -/
theorem processPacket_holding (g : Globals) {m : RteMbuf} {held : List RteMbuf} {w : σ}
    (c : Counters) (h : I (m :: held) w) : I held (processPacket W g m w c).world := by
  rw [processPacket_eq]
  split
  · exact forwardPacket_holding calls g c h
  · exact kniOrFree_holding calls g.kni c h

theorem processBurst_holding (g : Globals) {bufs : List RteMbuf} {w : σ} (c : Counters)
    (h : I bufs w) : I [] (processBurst W g bufs w c).world := by
  induction bufs generalizing w c with
  | nil => exact h
  | cons m bufs ih => exact ih _ (processPacket_holding calls g c h)

/-- A pass that starts its receive holding nothing ends holding nothing. -/
theorem lcorePass_holding (g : Globals) (h : Head σ)
    (handled : I [] (handlerPart W g h.world).2) : I [] (lcorePass W g h).2.world := by
  have received := calls.received g.portId _ handled
  unfold handlerPart at received
  unfold lcorePass
  generalize (if g.kni then kniRequestHandler W g h.world else ([], h.world)) = start at received ⊢
  unfold processReceived
  dsimp only
  split
  · rename_i none
    rw [List.eq_nil_of_length_eq_zero none] at received
    exact calls.paused _ received
  · exact processBurst_holding calls g _ received

end

end

/-- The mbufs a run has received, in order. -/
def received (passes : List Pass) : List RteMbuf := passes.flatMap fun p => p.burst.mbufs

def events (passes : List Pass) : List Event := passes.flatMap fun p => p.events

@[simp] theorem received_nil : received [] = [] := rfl

@[simp] theorem received_cons (p : Pass) (ps : List Pass) :
    received (p :: ps) = p.burst.mbufs ++ received ps := rfl

@[simp] theorem events_nil : events [] = [] := rfl

@[simp] theorem events_cons (p : Pass) (ps : List Pass) :
    events (p :: ps) = p.events ++ events ps := rfl

end LcoreRuns
