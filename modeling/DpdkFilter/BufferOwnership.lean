import DpdkFilter.LcoreRuns
import DpdkFilter.OwnershipTrace
import Mathlib.Data.List.Nodup

/-!
# Who owns a received buffer

Every mbuf the loop receives leaves it in the same pass, accepted by the KNI or
freed, and is not touched afterwards. The statistics are the tally of the same
events, so they are one ledger with the disposal of the buffers.
-/

namespace BufferOwnership

open Mbuf FilterRules LcoreMain LcoreRuns OwnershipTrace

/-- The mbuf an event reads or hands on, by its address. -/
def uses : Event → Option Nat
  | .load m _ _ => some m.addr
  | .loadPktLen m => some m.addr
  | .rteKniTxBurst m _ => some m.addr
  | .write m _ _ => some m.addr
  | .sendto m _ _ => some m.addr
  | .rtePktmbufFree m => some m.addr
  | .ifNametoindex _ => none
  | .forwardRet _ _ => none
  | .rtePause => none

/-- The mbuf the KNI has taken. -/
def accepts : Event → Option Nat
  | .rteKniTxBurst m true => some m.addr
  | _ => none

def frees : Event → Option Nat
  | .rtePktmbufFree m => some m.addr
  | _ => none

def releases (e : Event) : Option Nat := (accepts e).or (frees e)

/-- A packet that matched a rule and whose forward function returned 0. -/
def forwards (rules : List FilterRuleEntry) : Event → Bool
  | .forwardRet m ret => decide (ret = 0 ∧ branch rules m = .forward)
  | _ => false

def kniCount (es : List Event) : Nat := es.countP fun e => (accepts e).isSome

def forwardCount (rules : List FilterRuleEntry) (es : List Event) : Nat :=
  es.countP (forwards rules)

@[simp] theorem kniCount_append (es es' : List Event) :
    kniCount (es ++ es') = kniCount es + kniCount es' := by
  simp [kniCount]

@[simp] theorem forwardCount_append (rules : List FilterRuleEntry) (es es' : List Event) :
    forwardCount rules (es ++ es') = forwardCount rules es + forwardCount rules es' := by
  simp [forwardCount]

/-- Add to the three counters, each modulo 2^64. -/
def advance (c : Counters) (total forwarded kni : Nat) : Counters where
  totalPackets := c.totalPackets + UInt64.ofNat total
  forwardedPackets := c.forwardedPackets + UInt64.ofNat forwarded
  kniPackets := c.kniPackets + UInt64.ofNat kni

@[simp] theorem advance_zero (c : Counters) : advance c 0 0 0 = c := by
  simp [advance]

@[simp] theorem advance_advance (c : Counters) (t f k t' f' k' : Nat) :
    advance (advance c t f k) t' f' k' = advance c (t + t') (f + f') (k + k') := by
  simp [advance, UInt64.ofNat_add, UInt64.add_assoc]

/-- An event that at most reads `m` and changes nothing in the ledger. -/
structure Reads (m : RteMbuf) (e : Event) : Prop where
  only : ∀ k, uses e = some k → k = m.addr
  kept : releases e = none
  uncounted : ∀ rules, forwards rules e = false

theorem Reads.load (m : RteMbuf) (o n : Nat) : Reads m (.load m o n) :=
  ⟨fun _ h => (Option.some.inj h).symm, rfl, fun _ => rfl⟩

theorem accepts_none {e : Event} (h : releases e = none) : accepts e = none :=
  (Option.or_eq_none_iff.mp h).1

theorem kniCount_reads {m : RteMbuf} {es : List Event} (h : ∀ e ∈ es, Reads m e) :
    kniCount es = 0 := by
  refine List.countP_eq_zero.mpr fun e he => ?_
  simp [accepts_none (h e he).kept]

theorem forwardCount_reads {m : RteMbuf} {es : List Event} (rules : List FilterRuleEntry)
    (h : ∀ e ∈ es, Reads m e) : forwardCount rules es = 0 := by
  refine List.countP_eq_zero.mpr fun e he => ?_
  simp [(h e he).uncounted rules]

/-- What the loop body does for one mbuf: its stretch of events ends with the
release, and the counters move by what the stretch shows. -/
structure PacketDone {σ : Type} (rules : List FilterRuleEntry) (m : RteMbuf) (c : Counters)
    (o : Out σ) : Prop where
  segment : Segment uses releases m.addr o.events
  counted : o.counters = advance c 0 (forwardCount rules o.events) (kniCount o.events)
  at_most_one : forwardCount rules o.events + kniCount o.events ≤ 1

theorem PacketDone.prepend {σ : Type} {rules : List FilterRuleEntry} {m : RteMbuf} {c : Counters}
    {o : Out σ} {es : List Event} (h : PacketDone rules m c o) (reads : ∀ e ∈ es, Reads m e) :
    PacketDone rules m c (o.prepend es) where
  segment := h.segment.prepend (fun e he => (reads e he).only) fun e he => (reads e he).kept
  counted := by
    simpa [Out.prepend, kniCount_reads reads, forwardCount_reads rules reads] using h.counted
  at_most_one := by
    simpa [Out.prepend, kniCount_reads reads, forwardCount_reads rules reads] using h.at_most_one

theorem segment_free (m : RteMbuf) : Segment uses releases m.addr [.rtePktmbufFree m] :=
  .last (fun _ h => (Option.some.inj h).symm) rfl

theorem segment_read_free {m : RteMbuf} {e : Event} (h : Reads m e) :
    Segment uses releases m.addr [e, .rtePktmbufFree m] := by
  change Segment uses releases m.addr ([e] ++ [.rtePktmbufFree m])
  refine (segment_free m).prepend ?_ ?_
  · exact fun _ he => List.mem_singleton.mp he ▸ h.only
  · exact fun _ he => List.mem_singleton.mp he ▸ h.kept

section
variable {σ : Type} (W : World σ)

theorem kniOrFree_done (rules : List FilterRuleEntry) (kni : Bool) (m : RteMbuf) (w : σ)
    (c : Counters) : PacketDone rules m c (kniOrFree W kni m w c) := by
  rcases kniOrFree_cases W kni m w c with ⟨_, he, hc⟩ | ⟨_, he, hc⟩ | ⟨_, he, hc⟩
  · refine ⟨he ▸ .last (fun _ h => (Option.some.inj h).symm) rfl, ?_, ?_⟩
    · rw [hc, he]
      simp [advance, forwardCount, forwards, kniCount, accepts]
    · rw [he]
      simp [forwardCount, forwards, kniCount, accepts]
  · have refused : Reads m (.rteKniTxBurst m false) :=
      ⟨fun _ h => (Option.some.inj h).symm, rfl, fun _ => rfl⟩
    refine ⟨he ▸ segment_read_free refused, ?_, ?_⟩
    · rw [hc, he]
      simp [forwardCount, forwards, kniCount, accepts]
    · rw [he]
      simp [forwardCount, forwards, kniCount, accepts]
  · refine ⟨he ▸ segment_free m, ?_, ?_⟩
    · rw [hc, he]
      simp [forwardCount, forwards, kniCount, accepts]
    · rw [he]
      simp [forwardCount, forwards, kniCount, accepts]

theorem forwardToTun_reads (g : Globals) (m : RteMbuf) (w : σ) :
    ∀ e ∈ (forwardToTun W g m w).events, Reads m e := by
  rcases forwardToTun_cases W g m w with ⟨_, he, _⟩ | ⟨_, n, he⟩ <;> rw [he]
  · simp
  · intro e hmem
    rcases List.mem_cons.mp hmem with rfl | hmem
    · exact .load m 16 2
    · cases List.mem_singleton.mp hmem
      exact ⟨fun _ h => (Option.some.inj h).symm, rfl, fun _ => rfl⟩

theorem forwardToNic_reads (g : Globals) (name : CString.CStr) (m : RteMbuf) (w : σ) :
    ∀ e ∈ (forwardToNic W g name m w).events, Reads m e := by
  have len : Reads m (.loadPktLen m) := ⟨fun _ h => (Option.some.inj h).symm, rfl, fun _ => rfl⟩
  have index : ∀ i, Reads m (.ifNametoindex i) := fun i =>
    ⟨fun _ h => (Option.some_ne_none _ h.symm).elim, rfl, fun _ => rfl⟩
  rcases forwardToNic_cases W g name m w with ⟨_, he, _⟩ | ⟨_, he, _⟩ | ⟨_, i, n, _, he⟩ <;> rw [he]
  · simp
  · simp [len, index]
  · have sent : ∀ data, Reads m (.sendto m data n) :=
      fun data => ⟨fun _ h => (Option.some.inj h).symm, rfl, fun _ => rfl⟩
    simp [len, index, sent]

theorem finishForward_done {rules : List FilterRuleEntry} {m : RteMbuf} (c : Counters)
    {f : Forwarded σ} (matched : branch rules m = .forward) (reads : ∀ e ∈ f.events, Reads m e) :
    PacketDone rules m c (finishForward W m c f) := by
  have fwd : forwardCount rules (finishForward W m c f).events = if f.ret = 0 then 1 else 0 := by
    rw [finishForward, forwardCount_append, forwardCount_reads rules reads]
    by_cases hret : f.ret = 0 <;> simp [forwardCount, forwards, matched, hret]
  have kni : kniCount (finishForward W m c f).events = 0 := by
    rw [finishForward, kniCount_append, kniCount_reads reads]
    simp [kniCount, accepts]
  refine ⟨?_, ?_, ?_⟩
  · refine Segment.prepend ?_ (fun e he => (reads e he).only) fun e he => (reads e he).kept
    change Segment uses releases m.addr ([.forwardRet m f.ret] ++ [.rtePktmbufFree m])
    exact (segment_free m).prepend (by simp [uses]) (by simp [releases, accepts, frees])
  · rw [fwd, kni]
    by_cases hret : f.ret = 0 <;> simp [finishForward, hret, advance]
  · rw [fwd, kni]
    split <;> omega

theorem forwardPacket_done (g : Globals) (m : RteMbuf) (w : σ) (c : Counters)
    (matched : branch g.filterRules m = .forward) :
    PacketDone g.filterRules m c (forwardPacket W g m w c) := by
  unfold forwardPacket
  cases g.forwardIfname with
  | none =>
    refine ⟨segment_free m, ?_, ?_⟩ <;> simp [forwardCount, forwards, kniCount, accepts]
  | some name =>
    by_cases htun : CString.strncmp name tun 3 = 0
    · simpa only [htun, if_true] using
        finishForward_done W c matched (forwardToTun_reads W g m w)
    · simpa only [htun, if_false] using
        finishForward_done W c matched (forwardToNic_reads W g name m w)

theorem processPacket_done (g : Globals) (m : RteMbuf) (w : σ) (c : Counters) :
    PacketDone g.filterRules m c (processPacket W g m w c) := by
  have reads : ∀ e ∈ loads g.filterRules m, Reads m e := by
    intro e he
    obtain ⟨o, n, rfl⟩ := loads_are_loads g.filterRules m e he
    exact .load m o n
  rw [processPacket_eq]
  split
  · exact (forwardPacket_done W g m w c ‹_›).prepend reads
  · exact (kniOrFree_done W g.filterRules g.kni m w c).prepend reads

theorem processBurst_counted (g : Globals) (ms : List RteMbuf) (w : σ) (c : Counters) :
    let o := processBurst W g ms w c
    o.counters = advance c 0 (forwardCount g.filterRules o.events) (kniCount o.events) ∧
      forwardCount g.filterRules o.events + kniCount o.events ≤ ms.length := by
  induction ms generalizing w c with
  | nil => simp [processBurst, forwardCount, kniCount]
  | cons m ms ih =>
    have packet := processPacket_done W g m w c
    obtain ⟨counted, bounded⟩ := ih (processPacket W g m w c).world (processPacket W g m w c).counters
    have first := packet.at_most_one
    refine ⟨?_, ?_⟩
    · simp only [processBurst, Out.prepend, forwardCount_append, kniCount_append]
      rw [counted, packet.counted]
      simp
    · simp only [processBurst, Out.prepend, forwardCount_append, kniCount_append, List.length_cons]
      omega

/-- How a pass disposes of the mbufs it received. -/
structure Disposed (p : Pass) : Prop where
  released : p.events.filterMap releases = p.burst.mbufs.map RteMbuf.addr
  own : ∀ e ∈ p.events, ∀ k, uses e = some k → k ∈ p.burst.mbufs.map RteMbuf.addr
  once : (p.burst.mbufs.map RteMbuf.addr).Nodup → ∀ m ∈ p.burst.mbufs,
    ((p.events.filterMap accepts).count m.addr = 1 ∧ (p.events.filterMap frees).count m.addr = 0) ∨
    ((p.events.filterMap accepts).count m.addr = 0 ∧ (p.events.filterMap frees).count m.addr = 1)
  untouched : (p.burst.mbufs.map RteMbuf.addr).Nodup → NoUseAfterRelease uses releases p.events

theorem count_releases (es : List Event) (k : Nat) :
    (es.filterMap releases).count k =
      (es.filterMap accepts).count k + (es.filterMap frees).count k := by
  induction es with
  | nil => rfl
  | cons e es ih =>
    have apart : accepts e = none ∨ frees e = none := by
      cases e <;> simp [accepts, frees]
    rcases apart with h | h
    · cases hf : frees e <;>
        simp [releases, h, hf, ih, List.count_cons, Nat.add_assoc]
    · cases ha : accepts e <;>
        simp [releases, h, ha, ih, List.count_cons, Nat.add_right_comm]

theorem lcorePass_disposed (g : Globals) (h : Head σ) : Disposed (lcorePass W g h).1 := by
  obtain ⟨segs, hsegs, hev⟩ := lcorePass_segments W g
    (P := fun m seg => Segment uses releases m.addr seg)
    (fun m w c => (processPacket_done W g m w c).segment) h
  have keyed : List.Forall₂ (Segment uses releases)
      ((lcorePass W g h).1.burst.mbufs.map RteMbuf.addr) segs :=
    List.forall₂_map_left_iff.mpr hsegs
  have released : (lcorePass W g h).1.events.filterMap releases =
      (lcorePass W g h).1.burst.mbufs.map RteMbuf.addr := by
    rw [hev]
    split
    · simp [‹(lcorePass W g h).1.burst.mbufs = []›, releases, accepts, frees]
    · exact released_flatten keyed
  refine ⟨released, ?_, ?_, ?_⟩
  · intro e he k hk
    rw [hev] at he
    split at he
    · cases List.mem_singleton.mp he
      cases hk
    · exact uses_mem_flatten keyed he hk
  · intro distinct m hm
    have one : ((lcorePass W g h).1.events.filterMap releases).count m.addr = 1 := by
      rw [released]
      exact List.count_eq_one_of_mem distinct (List.mem_map_of_mem hm)
    rw [count_releases] at one
    omega
  · intro distinct
    rw [hev]
    split
    · exact List.pairwise_singleton _ _
    · exact noUseAfterRelease_flatten distinct keyed

theorem lcorePass_counted (g : Globals) (h : Head σ) :
    (lcorePass W g h).2.counters = advance h.counters (lcorePass W g h).1.burst.mbufs.length
        (forwardCount g.filterRules (lcorePass W g h).1.events)
        (kniCount (lcorePass W g h).1.events) ∧
      forwardCount g.filterRules (lcorePass W g h).1.events + kniCount (lcorePass W g h).1.events ≤
        (lcorePass W g h).1.burst.mbufs.length := by
  obtain ⟨w, hc, he⟩ := lcorePass_counters W g h
  by_cases empty : (lcorePass W g h).1.burst.mbufs = []
  · obtain ⟨segs, _, hev⟩ := lcorePass_segments W g (P := fun _ _ => True) (fun _ _ _ => trivial) h
    rw [hc, hev]
    simp [empty, processBurst, forwardCount, forwards, kniCount, accepts, advance]
  · obtain ⟨counted, bounded⟩ := processBurst_counted W g (lcorePass W g h).1.burst.mbufs w
      (advance h.counters (lcorePass W g h).1.burst.mbufs.length 0 0)
    rw [he empty, hc]
    refine ⟨?_, ?_⟩
    · simpa [advance] using counted
    · simpa [advance] using bounded

theorem lcoreMain_counted (g : Globals) (fuel : Nat) (h : Head σ) :
    let run := lcoreMain W g fuel h
    run.2.counters = advance h.counters (received run.1).length
        (forwardCount g.filterRules (events run.1)) (kniCount (events run.1)) ∧
      forwardCount g.filterRules (events run.1) + kniCount (events run.1) ≤
        (received run.1).length := by
  induction fuel generalizing h with
  | zero => simp [lcoreMain, forwardCount, kniCount]
  | succ fuel ih =>
    simp only [lcoreMain]
    split
    · simp [forwardCount, kniCount]
    · obtain ⟨counted, bounded⟩ := lcorePass_counted W g h
      obtain ⟨countedRest, boundedRest⟩ := ih (lcorePass W g h).2
      refine ⟨?_, ?_⟩
      · rw [countedRest, counted]
        simp
      · simp only [events_cons, received_cons, forwardCount_append, kniCount_append,
          List.length_append]
        omega

end

/-- The addresses of the mbufs received and not yet released. -/
def owned (passes : List Pass) : List Nat :=
  ((received passes).map RteMbuf.addr).diff ((events passes).filterMap releases)

/-- The counters at a head of the loop, against the run that led there. -/
structure Ledger (rules : List FilterRuleEntry) (passes : List Pass) (c : Counters) : Prop where
  total : c.totalPackets = UInt64.ofNat (received passes).length
  kni : c.kniPackets = UInt64.ofNat (kniCount (events passes))
  forwarded : c.forwardedPackets = UInt64.ofNat (forwardCount rules (events passes))
  within : (received passes).length < 2 ^ 64 →
    c.forwardedPackets.toNat + c.kniPackets.toNat ≤ c.totalPackets.toNat

theorem diff_self (l : List Nat) : l.diff l = [] := by
  induction l with
  | nil => rfl
  | cons a l ih => simpa using ih

theorem released_received (passes : List Pass) (h : ∀ p ∈ passes, Disposed p) :
    (events passes).filterMap releases = (received passes).map RteMbuf.addr := by
  induction passes with
  | nil => rfl
  | cons p ps ih =>
    simp [(h p List.mem_cons_self).released, ih fun q hq => h q (List.mem_cons_of_mem _ hq)]

/-- At every head of the loop all buffers received so far are disposed of, none is
owned, and the counters are the tally of the run. -/
theorem lcoreMain_ledger {σ : Type} (W : World σ) (g : Globals) (fuel : Nat) (w : σ) :
    let run := lcoreMain W g fuel ⟨w, ⟨0, 0, 0⟩⟩
    (∀ p ∈ run.1, Disposed p) ∧ owned run.1 = [] ∧ Ledger g.filterRules run.1 run.2.counters := by
  intro run
  have disposed : ∀ p ∈ run.1, Disposed p := by
    intro p hp
    obtain ⟨h, rfl⟩ := lcoreMain_pass W g fuel _ p hp
    exact lcorePass_disposed W g h
  obtain ⟨counted, bounded⟩ := lcoreMain_counted W g fuel ⟨w, ⟨0, 0, 0⟩⟩
  refine ⟨disposed, ?_, ?_⟩
  · rw [owned, released_received run.1 disposed]
    exact diff_self _
  · refine ⟨by simp [run, counted, advance], by simp [run, counted, advance],
      by simp [run, counted, advance], fun small => ?_⟩
    have ht : (received run.1).length % 2 ^ 64 = (received run.1).length := Nat.mod_eq_of_lt small
    simp only [run, counted, advance, UInt64.zero_add, UInt64.toNat_ofNat']
    rw [ht]
    exact Nat.le_trans (Nat.add_le_add (Nat.mod_le _ _) (Nat.mod_le _ _)) bounded

end BufferOwnership
