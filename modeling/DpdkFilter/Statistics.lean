import DpdkFilter.Interleaving
import Mathlib.Algebra.BigOperators.Group.Finset.Basic

/-!
# The statistics of several lcores

The three counters are plain 64-bit globals and `counter += k` is a load followed
by a store of the sum. The lcores that run the packet loop are tallied apart, each
event when it happens; what `main` prints is compared with the sum of the tallies.
-/

namespace Statistics

open Interleaving

inductive Counter where
  | totalPackets
  | forwardedPackets
  | kniPackets
deriving DecidableEq

/-- An lcore in the packet loop. `left` packets of the burst are still to be processed;
`load` and `store` are the two accesses of an update by `k`. -/
inductive Lcore where
  | head
  | load (c : Counter) (k left : Nat)
  | store (c : Counter) (k left : Nat) (loaded : UInt64)
  | packets (left : Nat)
  | stopped

/-- What becomes of a packet: its forward function returned 0, the KNI accepted it, or
it was freed without being counted. -/
inductive Fate where
  | forwarded
  | accepted
  | dropped

structure Env where
  forceQuit : Bool
  nbRx : Nat
  fate : Fate

def burstSize : Nat := 32

structure State where
  counter : Counter → UInt64
  lcore : Nat → Lcore
  tally : Nat → Counter → Nat
  printed : Option (Counter → UInt64)

/-- Record an event of lcore `i` that counts `k` on `c`, and begin the update. -/
def State.count (s : State) (i : Nat) (c : Counter) (k left : Nat) : State :=
  { s with
    lcore := Function.update s.lcore i (.load c k left)
    tally := Function.update s.tally i (Function.update (s.tally i) c (s.tally i c + k)) }

def State.goto (s : State) (i : Nat) (l : Lcore) : State :=
  { s with lcore := Function.update s.lcore i l }

def lcoreStep (e : Env) (i : Nat) (s : State) : Option State :=
  match s.lcore i with
  | .head =>
    if e.forceQuit then some (s.goto i .stopped)
    else if burstSize < e.nbRx then none
    else if e.nbRx = 0 then some s
    else some (s.count i .totalPackets e.nbRx e.nbRx)
  | .load c k left => some (s.goto i (.store c k left (s.counter c)))
  | .store c k left loaded =>
    some { s.goto i (.packets left) with
      counter := Function.update s.counter c (loaded + UInt64.ofNat k) }
  | .packets 0 => some (s.goto i .head)
  | .packets (left + 1) =>
    match e.fate with
    | .forwarded => some (s.count i .forwardedPackets 1 left)
    | .accepted => some (s.count i .kniPackets 1 left)
    | .dropped => some (s.goto i (.packets left))
  | .stopped => none

/-- `print` is `main` after it has waited for all lcores. -/
inductive Move where
  | lcore (i : Nat) (e : Env)
  | print

def exec (n : Nat) : Move → State → Option State
  | .lcore i e, s => if i < n then lcoreStep e i s else none
  | .print, s =>
    if s.printed.isNone ∧ (List.range n).all fun i => (s.lcore i) matches .stopped then
      some { s with printed := some s.counter }
    else none

structure Launch (s : State) : Prop where
  counter : ∀ c, s.counter c = 0
  lcore : ∀ i, s.lcore i = .head
  tally : ∀ i c, s.tally i c = 0
  printed : s.printed = none

def running (n : Nat) : System State where
  Init := Launch
  Step := fun s t => ∃ mv, exec n mv s = some t

/-- The events of all lcores. -/
def total (n : Nat) (s : State) (c : Counter) : Nat := ∑ i ∈ Finset.range n, s.tally i c

/-- What is printed is, modulo 2^64, what happened. -/
def Exact (n : Nat) (s : State) : Prop :=
  ∀ p, s.printed = some p → ∀ c, p c = UInt64.ofNat (total n s c)

/-! ## One lcore -/

/-- What an lcore has still to add to a counter. -/
def Lcore.pending (c : Counter) : Lcore → Nat
  | .load c' k _ => if c' = c then k else 0
  | .store c' k _ _ => if c' = c then k else 0
  | _ => 0

/-- With one lcore a loaded counter is not changed before the sum is stored. -/
structure Settled (s : State) : Prop where
  exact : ∀ c, s.counter c + UInt64.ofNat ((s.lcore 0).pending c) = UInt64.ofNat (s.tally 0 c)
  loaded : ∀ c k left v, s.lcore 0 = .store c k left v → v = s.counter c
  printed : ∀ p, s.printed = some p → p = s.counter ∧ s.lcore 0 = .stopped

theorem Launch.settled {s : State} (h : Launch s) : Settled s where
  exact := by simp [h.counter, h.lcore, h.tally, Lcore.pending]
  loaded := by simp [h.lcore]
  printed := by simp [h.printed]

/-- An event keeps the books: what is tallied is what is still to be added. -/
theorem Settled.count {s : State} (h : Settled s) (quiet : ∀ c, (s.lcore 0).pending c = 0)
    (running : s.lcore 0 ≠ .stopped) (c : Counter) (k left : Nat) :
    Settled (s.count 0 c k left) := by
  refine ⟨fun c' => ?_, by simp [State.count], fun p hp => absurd (h.printed p hp).2 running⟩
  have before : s.counter c' = UInt64.ofNat (s.tally 0 c') := by simpa [quiet c'] using h.exact c'
  by_cases hc : c' = c
  · subst hc
    simp [State.count, Lcore.pending, before]
  · simp [State.count, Lcore.pending, before, hc, Ne.symm hc]

theorem Settled.goto {s : State} (h : Settled s) {l : Lcore}
    (same : ∀ c, l.pending c = (s.lcore 0).pending c) (running : s.lcore 0 ≠ .stopped)
    (loaded : ∀ c k left v, l = .store c k left v → v = s.counter c) : Settled (s.goto 0 l) := by
  refine ⟨fun c => ?_, ?_, fun p hp => absurd (h.printed p hp).2 running⟩
  · simpa [State.goto, same] using h.exact c
  · simpa [State.goto] using loaded

theorem Settled.lcoreStep {s t : State} {e : Env} (h : Settled s)
    (hstep : Statistics.lcoreStep e 0 s = some t) : Settled t := by
  unfold Statistics.lcoreStep at hstep
  split at hstep
  · rename_i hl
    have quiet : ∀ c, (s.lcore 0).pending c = 0 := fun c => by rw [hl]; rfl
    have run : s.lcore 0 ≠ .stopped := by simp [hl]
    split at hstep
    · cases hstep
      exact h.goto (fun c => (quiet c).symm) run (by simp)
    · split at hstep
      · cases hstep
      · split at hstep <;> cases hstep
        · exact h
        · exact h.count quiet run _ _ _
  · rename_i c k left hl
    cases hstep
    refine h.goto (fun c' => by rw [hl]; rfl) (by simp [hl]) ?_
    rintro c' k' left' v ⟨⟩
    rfl
  · -- the sum is stored while the counter is still the one loaded
    rename_i c k left loaded hl
    cases hstep
    refine ⟨fun c' => ?_, by simp [State.goto],
      fun p hp => absurd (h.printed p hp).2 (by simp [hl])⟩
    have before := h.exact c'
    rw [hl] at before
    by_cases hc : c' = c
    · subst hc
      simpa [State.goto, Lcore.pending, h.loaded _ _ _ _ hl] using before
    · simpa [State.goto, Lcore.pending, hc, Ne.symm hc] using before
  · rename_i hl
    cases hstep
    exact h.goto (fun c => by rw [hl]; rfl) (by simp [hl]) (by simp)
  · rename_i left hl
    have quiet : ∀ c, (s.lcore 0).pending c = 0 := fun c => by rw [hl]; rfl
    have run : s.lcore 0 ≠ .stopped := by simp [hl]
    split at hstep <;> cases hstep
    · exact h.count quiet run _ _ _
    · exact h.count quiet run _ _ _
    · exact h.goto (fun c => (quiet c).symm) run (by simp)
  · cases hstep

theorem Settled.exec {s t : State} {mv : Move} (h : Settled s)
    (hstep : Statistics.exec 1 mv s = some t) : Settled t := by
  cases mv with
  | lcore i e =>
    simp only [Statistics.exec] at hstep
    split at hstep
    · obtain rfl : i = 0 := by omega
      exact h.lcoreStep hstep
    · cases hstep
  | print =>
    simp only [Statistics.exec] at hstep
    split at hstep
    · rename_i waited
      cases hstep
      refine ⟨h.exact, h.loaded, ?_⟩
      rintro p ⟨⟩
      have stopped := waited.2
      simp only [List.range_one, List.all_cons, List.all_nil, Bool.and_true] at stopped
      exact ⟨rfl, by split at stopped <;> simp_all⟩
    · cases hstep

theorem reachable_settled {s : State} (h : (running 1).Reachable s) : Settled s := by
  refine h.invariant (I := Settled) (fun _ => Launch.settled) ?_
  rintro s t inv ⟨mv, hmv⟩
  exact inv.exec hmv

theorem Settled.exact_one {s : State} (h : Settled s) : Exact 1 s := by
  intro p hp c
  obtain ⟨rfl, stopped⟩ := h.printed p hp
  simpa [total, stopped, Lcore.pending] using h.exact c

/-! ## Two lcores -/

def launch : State where
  counter _ := 0
  lcore _ := .head
  tally _ _ := 0
  printed := none

theorem launch_launch : Launch launch :=
  ⟨fun _ => rfl, fun _ => rfl, fun _ _ => rfl, rfl⟩

def quit : Env := { forceQuit := true, nbRx := 0, fate := .dropped }

def receive : Env := { forceQuit := false, nbRx := 1, fate := .dropped }

/-- Both lcores receive a packet and load `total_packets` before either stores. -/
def race : List (Nat × Env) :=
  [(0, receive), (1, receive), (0, receive), (1, receive), (0, receive), (1, receive),
    (0, receive), (0, receive), (0, quit), (1, receive), (1, receive), (1, quit)]

def execLcore (n : Nat) (m : Nat × Env) : State → Option State := exec n (.lcore m.1 m.2)

/-- What the race leaves: two packets received, one counted, both lcores done. -/
structure Raced (s : State) : Prop where
  counter : s.counter .totalPackets = 1
  tally : s.tally 0 .totalPackets = 1 ∧ s.tally 1 .totalPackets = 1
  stopped : s.lcore 0 = .stopped ∧ s.lcore 1 = .stopped
  rest : ∀ i, 2 ≤ i → s.lcore i = .head ∧ s.tally i .totalPackets = 0
  printed : s.printed = none

theorem race_runs : ∃ s, System.follow (execLcore 2) race launch = some s ∧ Raced s := by
  refine ⟨_, rfl, rfl, ⟨rfl, rfl⟩, ⟨rfl, rfl⟩, fun i hi => ?_, rfl⟩
  have h0 : i ≠ 0 := by omega
  have h1 : i ≠ 1 := by omega
  simp [State.goto, State.count, launch, h0, h1]

/-- A step of an lcore stays one when there are more lcores. -/
theorem execLcore_step {n k : Nat} {m : Nat × Env} (hle : n ≤ k) {s t : State}
    (h : execLcore n m s = some t) : (running k).Step s t := by
  refine ⟨.lcore m.1 m.2, ?_⟩
  simp only [execLcore, exec] at h ⊢
  split at h
  · rwa [if_pos (by omega)]
  · cases h

/-- The lcores that took no part may stop one after the other. -/
theorem Raced.stop_rest {n : Nat} {s : State} (reach : (running n).Reachable s) (raced : Raced s)
    (k : Nat) (hk : k ≤ n) :
    ∃ t, (running n).Reachable t ∧ t.counter = s.counter ∧ t.tally = s.tally ∧
      t.printed = none ∧ (∀ i < k, t.lcore i = .stopped) ∧ ∀ i, k ≤ i → t.lcore i = s.lcore i := by
  induction k with
  | zero => exact ⟨s, reach, rfl, rfl, raced.printed, by omega, fun _ _ => rfl⟩
  | succ k ih =>
    obtain ⟨t, reach, counter, tally, printed, stopped, rest⟩ := ih (by omega)
    by_cases hdone : s.lcore k = .stopped
    · refine ⟨t, reach, counter, tally, printed, fun i hi => ?_, fun i hi => rest i (by omega)⟩
      rcases Nat.lt_succ_iff_lt_or_eq.mp hi with h | rfl
      · exact stopped i h
      · exact (rest i (Nat.le_refl i)).trans hdone
    · have hhead : t.lcore k = .head := by
        rw [rest k (Nat.le_refl k)]
        rcases Nat.lt_or_ge k 2 with h | h
        · have : k = 0 ∨ k = 1 := by omega
          rcases this with rfl | rfl
          · exact absurd raced.stopped.1 hdone
          · exact absurd raced.stopped.2 hdone
        · exact (raced.rest k h).1
      refine ⟨t.goto k .stopped, reach.step ⟨.lcore k quit, ?_⟩, counter, tally, printed, ?_, ?_⟩
      · simp [exec, lcoreStep, hhead, quit, show k < n by omega]
      · intro i hi
        by_cases h : i = k
        · simp [State.goto, h]
        · simpa [State.goto, h] using stopped i (by omega)
      · intro i hi
        simpa [State.goto, show i ≠ k by omega] using rest i (by omega)

theorem Raced.total {n : Nat} (hn : 2 ≤ n) {s : State} (raced : Raced s) :
    Statistics.total n s .totalPackets = 2 := by
  have first : ∑ i ∈ Finset.range 2, s.tally i .totalPackets = 2 := by
    simp [Finset.sum_range_succ, raced.tally.1, raced.tally.2]
  rw [← first, Statistics.total]
  symm
  refine Finset.sum_subset (Finset.range_subset_range.mpr hn) fun i _ hi => ?_
  rw [Finset.mem_range] at hi
  exact (raced.rest i (by omega)).2

/-- Whatever the number of lcores beyond the first, a run prints 1 where 2 packets came. -/
theorem prints_too_few {n : Nat} (hn : 2 ≤ n) :
    ∃ s p, (running n).Reachable s ∧ s.printed = some p ∧ p .totalPackets = 1 ∧
      total n s .totalPackets = 2 := by
  obtain ⟨s, hrun, raced⟩ := race_runs
  have init : (running n).Reachable launch := .init launch_launch
  have reach := init.follow (fun _ _ _ h => execLcore_step hn h) hrun
  obtain ⟨t, reach, counter, tally, printed, stopped, _⟩ := raced.stop_rest reach n (Nat.le_refl n)
  refine ⟨{ t with printed := some t.counter }, t.counter, reach.step ⟨.print, ?_⟩, rfl, ?_, ?_⟩
  · simp [exec, printed]
    intro i hi
    rw [stopped i hi]
  · rw [counter, raced.counter]
  · have sum := raced.total hn
    simp only [Statistics.total] at sum ⊢
    rw [← sum]
    simp [tally]

/-- The printed statistics are exact in every run exactly when one lcore runs the
packet loop. -/
theorem exact_iff_one_lcore (n : Nat) (hn : 1 ≤ n) :
    (∀ s, (running n).Reachable s → Exact n s) ↔ n = 1 := by
  constructor
  · intro exact
    by_contra hne
    obtain ⟨s, p, reach, printed, one, two⟩ := prints_too_few (n := n) (by omega)
    have h := exact s reach p printed .totalPackets
    rw [one, two] at h
    exact absurd h (by decide)
  · rintro rfl s reach
    exact (reachable_settled reach).exact_one

theorem one_lcore_exact : (∀ s, (running 1).Reachable s → Exact 1 s) ∧
    ¬ ∀ s, (running 2).Reachable s → Exact 2 s := by
  constructor
  · exact (exact_iff_one_lcore 1 (by decide)).mpr rfl
  · intro exact
    exact absurd ((exact_iff_one_lcore 2 (by decide)).mp exact) (by decide)

/-- Two lcores that load `total_packets` before either stores it lose a packet. -/
theorem two_lcores_not_exact : ∃ s, (running 2).Reachable s ∧ ¬ Exact 2 s := by
  obtain ⟨s, p, reach, printed, one, two⟩ := prints_too_few (n := 2) (by decide)
  refine ⟨s, reach, fun exact => ?_⟩
  have h := exact p printed .totalPackets
  rw [one, two] at h
  exact absurd h (by decide)

end Statistics
