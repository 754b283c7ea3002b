import DpdkFilter.Interleaving
import DpdkFilter.Shares
import Mathlib.Algebra.Order.Group.Multiset

/-!
# The pool of the mbufs and its caches

Each lcore keeps a cache in front of the ring that all of them share. A put fills the
cache and flushes what is too much; a get takes from the cache, refills it, or goes to
the ring. A put does not look at what the ring returns to it.
-/

namespace Mempool

open Interleaving Shares

universe u v
variable {T : Type u} {α : Type v}

def rteMempoolCacheMaxSize : Nat := 512

/-- What `rte_mempool_create_empty` checks of the sizes; `capacity` is that of the ring. -/
structure PoolSize where
  size : Nat
  cacheSize : Nat
  capacity : Nat
  cache_le : cacheSize ≤ rteMempoolCacheMaxSize
  flush_le : cacheSize * 3 / 2 ≤ size
  size_le : size ≤ capacity

/-- `CALC_CACHE_FLUSHTHRESH` -/
def PoolSize.flushthresh (m : PoolSize) : Nat := m.cacheSize * 3 / 2

/-- `common_ring_mp_enqueue`: all of the objects or, with an error, none. -/
def opsEnqueueBulk (capacity : Nat) (ring objs : List α) : List α × Bool :=
  if 0 < objs.length ∧ ring.length + objs.length ≤ capacity then (ring ++ objs, true)
  else (ring, false)

/-- `common_ring_mc_dequeue` -/
def opsDequeueBulk (ring : List α) (n : Nat) : List α × Option (List α) :=
  if 0 < n ∧ n ≤ ring.length then (ring.drop n, some (ring.take n)) else (ring, none)

/-- `rte_mempool_do_generic_put`; a cache is the objects in it, the last on top. -/
def doGenericPut (m : PoolSize) (cache : Option (List α)) (ring objs : List α) :
    Option (List α) × List α :=
  match cache with
  | none => (none, (opsEnqueueBulk m.capacity ring objs).1)
  | some cacheObjs =>
    if objs.length > rteMempoolCacheMaxSize then
      (some cacheObjs, (opsEnqueueBulk m.capacity ring objs).1)
    else
      let filled := cacheObjs ++ objs
      if filled.length ≥ m.flushthresh then
        (some (filled.take m.cacheSize),
          (opsEnqueueBulk m.capacity ring (filled.drop m.cacheSize)).1)
      else (some filled, ring)

/-- `rte_mempool_do_generic_get` before its first access to the ring, and at the label
`ring_dequeue`. -/
inductive GetPc where
  | start (n : Nat)
  | ringDequeue (n : Nat)

/-- Fill in the response from the top of the cache. -/
def serve (cacheObjs ring : List α) (n : Nat) :
    Option (List α) × List α × (GetPc ⊕ Option (List α)) :=
  (some (cacheObjs.take (cacheObjs.length - n)), ring,
    .inr (some (cacheObjs.drop (cacheObjs.length - n)).reverse))

/-- Up to the next access to the ring, or to the return. -/
def GetPc.step (m : PoolSize) (cache : Option (List α)) (ring : List α) :
    GetPc → Option (List α) × List α × (GetPc ⊕ Option (List α))
  | .start n =>
    match cache with
    | none => (none, ring, .inl (.ringDequeue n))
    | some cacheObjs =>
      if n ≥ m.cacheSize then (some cacheObjs, ring, .inl (.ringDequeue n))
      else if cacheObjs.length < n then
        match opsDequeueBulk ring (n + (m.cacheSize - cacheObjs.length)) with
        | (ring, some got) => serve (cacheObjs ++ got) ring n
        | (ring, none) => (some cacheObjs, ring, .inl (.ringDequeue n))
      else serve cacheObjs ring n
  | .ringDequeue n =>
    match opsDequeueBulk ring n with
    | (ring, got) => (cache, ring, .inr got)

/-! ## Any number of threads

Each cache belongs to one thread; a thread that is no lcore has none. `held` are the
objects that have been given out, wherever they are. -/

structure State (T : Type u) (α : Type v) where
  ring : List α
  caches : T → Option (List α)
  get : T → Option GetPc
  held : List α

section
variable [DecidableEq T]

def State.put (m : PoolSize) (s : State T α) (t : T) (objs rest : List α) : State T α where
  ring := (doGenericPut m (s.caches t) s.ring objs).2
  caches := Function.update s.caches t (doGenericPut m (s.caches t) s.ring objs).1
  get := s.get
  held := rest

def State.getAccess (m : PoolSize) (s : State T α) (t : T) (pc : GetPc) : State T α where
  ring := (pc.step m (s.caches t) s.ring).2.1
  caches := Function.update s.caches t (pc.step m (s.caches t) s.ring).1
  get := Function.update s.get t ((pc.step m (s.caches t) s.ring).2.2.elim some fun _ => none)
  held := s.held ++ (pc.step m (s.caches t) s.ring).2.2.elim (fun _ => []) fun got => got.getD []

/-- Objects are put back by whoever holds them; a get asks for at least one. -/
inductive Step (m : PoolSize) : State T α → State T α → Prop where
  | put (s : State T α) (t : T) (objs rest : List α) (idle : s.get t = none)
      (filled : 0 < objs.length) (holds : s.held.Perm (objs ++ rest)) :
      Step m s (s.put m t objs rest)
  | getCall (s : State T α) (t : T) (n : Nat) (idle : s.get t = none) (filled : 0 < n) :
      Step m s { s with get := Function.update s.get t (some (.start n)) }
  | getStep (s : State T α) (t : T) (pc : GetPc) (at_pc : s.get t = some pc) :
      Step m s (s.getAccess m t pc)

/-- `rte_mempool_populate_default` has put all objects into the ring; the caches are empty. -/
def State.populated (cached : T → Bool) (objects : List α) : State T α where
  ring := objects
  caches t := if cached t then some [] else none
  get _ := none
  held := []

def pool (m : PoolSize) (cached : T → Bool) (objects : List α) : System (State T α) where
  Init s := objects.length = m.size ∧ s = .populated cached objects
  Step := Step m

inductive Move (T : Type u) (α : Type v) where
  | put (t : T) (objs rest : List α)
  | getCall (t : T) (n : Nat)
  | getStep (t : T)

def exec [DecidableEq α] (m : PoolSize) (s : State T α) : Move T α → Option (State T α)
  | .put t objs rest =>
    if (s.get t).isNone ∧ 0 < objs.length ∧ s.held.Perm (objs ++ rest) then
      some (s.put m t objs rest)
    else none
  | .getCall t n =>
    if (s.get t).isNone ∧ 0 < n then
      some { s with get := Function.update s.get t (some (.start n)) }
    else none
  | .getStep t => (s.get t).map (s.getAccess m t)

theorem exec_step [DecidableEq α] {m : PoolSize} {s s' : State T α} {mv : Move T α}
    (h : exec m s mv = some s') : Step m s s' := by
  cases mv with
  | put t objs rest =>
    simp only [exec, Option.isNone_iff_eq_none] at h
    split at h
    · rename_i ready
      cases h
      exact .put s t objs rest ready.1 ready.2.1 ready.2.2
    · cases h
  | getCall t n =>
    simp only [exec, Option.isNone_iff_eq_none] at h
    split at h
    · rename_i ready
      cases h
      exact .getCall s t n ready.1 ready.2
    · cases h
  | getStep t =>
    obtain ⟨pc, at_pc, rfl⟩ := Option.map_eq_some_iff.mp h
    exact .getStep s t pc at_pc

theorem follow_reachable [DecidableEq α] {m : PoolSize} {cached : T → Bool} {objects : List α}
    {moves : List (Move T α)} {s : State T α} (amount : objects.length = m.size)
    (h : System.follow (fun mv s => exec m s mv) moves (.populated cached objects) = some s) :
    (pool m cached objects).Reachable s :=
  (System.Reachable.init (S := pool m cached objects) ⟨amount, rfl⟩).follow
    (fun _ _ _ => exec_step) h

end

/-! ## Nothing is lost -/

theorem opsEnqueueBulk_room {capacity : Nat} {ring objs : List α}
    (room : ring.length + objs.length ≤ capacity) :
    (opsEnqueueBulk capacity ring objs).1 = ring ++ objs := by
  unfold opsEnqueueBulk
  split
  · rfl
  · rename_i h
    have none : objs.length = 0 := by omega
    rw [List.eq_nil_of_length_eq_zero none, List.append_nil]

theorem opsDequeueBulk_eq (ring : List α) (n : Nat) :
    ring = (opsDequeueBulk ring n).2.getD [] ++ (opsDequeueBulk ring n).1 := by
  unfold opsDequeueBulk
  split
  · exact (List.take_append_drop n ring).symm
  · rfl

/-- What a put leaves in cache and ring is what was there and what was put. -/
theorem doGenericPut_spec (m : PoolSize) (cache : Option (List α)) (ring objs : List α)
    (room : (cache.getD []).length + ring.length + objs.length ≤ m.capacity) :
    (((doGenericPut m cache ring objs).1.getD [] : List α) +
      (doGenericPut m cache ring objs).2 : Multiset α) =
        (cache.getD [] : List α) + ring + objs := by
  cases cache with
  | none =>
    rw [Option.getD_none, List.length_nil] at room
    simp only [doGenericPut]
    rw [opsEnqueueBulk_room (by omega), ← Multiset.coe_add, add_assoc]
  | some cacheObjs =>
    rw [Option.getD_some] at room
    simp only [doGenericPut]
    split
    · simp only [Option.getD_some]
      rw [opsEnqueueBulk_room (by omega), ← Multiset.coe_add, add_assoc]
    · split
      · have short : ((cacheObjs ++ objs).drop m.cacheSize).length ≤
            cacheObjs.length + objs.length := by
          rw [List.length_drop, List.length_append]
          omega
        have whole := List.take_append_drop m.cacheSize (cacheObjs ++ objs)
        simp only [Option.getD_some]
        rw [opsEnqueueBulk_room (by omega)]
        -- the parts kept and flushed are the cache and what was put
        calc (((cacheObjs ++ objs).take m.cacheSize : List α) +
              (ring ++ (cacheObjs ++ objs).drop m.cacheSize : List α) : Multiset α)
            = ((cacheObjs ++ objs).take m.cacheSize ++ (cacheObjs ++ objs).drop m.cacheSize :
                List α) + ring := by
              rw [← Multiset.coe_add, ← Multiset.coe_add, add_comm (ring : Multiset α), add_assoc]
          _ = (cacheObjs + ring + objs : Multiset α) := by
              rw [whole, ← Multiset.coe_add, add_right_comm]
      · simp only [Option.getD_some]
        rw [← Multiset.coe_add, add_right_comm]

theorem serve_spec (cacheObjs ring : List α) (n : Nat) :
    (((serve cacheObjs ring n).1.getD [] : List α) + (serve cacheObjs ring n).2.1 +
      ((serve cacheObjs ring n).2.2.elim (fun _ => []) (fun got => got.getD []) : List α) :
      Multiset α) = cacheObjs + ring := by
  have whole := List.take_append_drop (cacheObjs.length - n) cacheObjs
  simp only [serve, Option.getD_some, Sum.elim_inr]
  rw [Multiset.coe_reverse, add_right_comm, Multiset.coe_add, whole]

/-- What a get hands out was in the cache or in the ring. -/
theorem getStep_spec (m : PoolSize) (cache : Option (List α)) (ring : List α) (pc : GetPc) :
    (((pc.step m cache ring).1.getD [] : List α) + (pc.step m cache ring).2.1 +
      ((pc.step m cache ring).2.2.elim (fun _ => []) (fun got => got.getD []) : List α) :
      Multiset α) = (cache.getD [] : List α) + ring := by
  cases pc with
  | start n =>
    cases cache with
    | none => simp [GetPc.step]
    | some cacheObjs =>
      simp only [GetPc.step]
      split
      · simp
      · split
        · have split := opsDequeueBulk_eq ring (n + (m.cacheSize - cacheObjs.length))
          generalize opsDequeueBulk ring (n + (m.cacheSize - cacheObjs.length)) = r at split ⊢
          obtain ⟨left, _ | got⟩ := r
          · simp only [Option.getD_none, List.nil_append] at split
            simp [split]
          · simp only [Option.getD_some] at split
            simp only [Option.getD_some]
            rw [serve_spec, split, ← Multiset.coe_add, ← Multiset.coe_add, add_assoc]
        · exact serve_spec cacheObjs ring n
  | ringDequeue n =>
    have split := opsDequeueBulk_eq ring n
    simp only [GetPc.step]
    generalize opsDequeueBulk ring n = r at split ⊢
    obtain ⟨left, got⟩ := r
    simp only [Sum.elim_inr] at split ⊢
    rw [split, ← Multiset.coe_add, add_assoc, add_comm (left : Multiset α)]

/-- The most objects that a cache is left with. -/
def PoolSize.cacheMax (m : PoolSize) : Nat := max m.cacheSize (m.flushthresh - 1)

theorem doGenericPut_cache (m : PoolSize) {cache : Option (List α)} (ring objs : List α)
    (small : ∀ c, cache = some c → c.length ≤ m.cacheMax) {c : List α}
    (h : (doGenericPut m cache ring objs).1 = some c) : c.length ≤ m.cacheMax := by
  cases cache with
  | none => cases h
  | some cacheObjs =>
    simp only [doGenericPut] at h
    split at h
    · cases h
      exact small _ rfl
    · split at h
      · cases h
        rw [List.length_take]
        exact Nat.le_trans (Nat.min_le_left _ _) (Nat.le_max_left _ _)
      · rename_i below
        cases h
        exact Nat.le_trans (Nat.le_sub_one_of_lt (Nat.lt_of_not_le below)) (Nat.le_max_right _ _)

theorem opsDequeueBulk_length {ring left got : List α} {n : Nat}
    (h : opsDequeueBulk ring n = (left, some got)) : got.length = n := by
  unfold opsDequeueBulk at h
  split at h
  · rename_i there
    cases h
    exact List.length_take_of_le there.2
  · cases h

/-- A get leaves a cache as it was or no fuller than its size, and where it goes to the ring
for a number below the size, its cache has less than that. -/
theorem getStep_cache (m : PoolSize) {cache : Option (List α)} (ring : List α) (pc : GetPc)
    (small : ∀ c, cache = some c → c.length ≤ m.cacheMax) {c : List α}
    (h : (pc.step m cache ring).1 = some c) :
    c.length ≤ m.cacheMax ∧ ∀ n, (pc.step m cache ring).2.2 = .inl (.ringDequeue n) →
      n < m.cacheSize → c.length < n := by
  cases pc with
  | start n =>
    cases cache with
    | none => cases h
    | some cacheObjs =>
      have before := small cacheObjs rfl
      simp only [GetPc.step] at h ⊢
      split at h
      · rename_i large
        rw [if_pos large]
        cases h
        refine ⟨before, fun k hk => ?_⟩
        cases hk
        omega
      · rename_i large
        rw [if_neg large]
        split at h
        · rename_i few
          rw [if_pos few]
          cases got : opsDequeueBulk ring (n + (m.cacheSize - cacheObjs.length)) with
          | mk left more =>
            rw [got] at h
            cases more with
            | none =>
              cases h
              refine ⟨before, fun k hk _ => ?_⟩
              cases hk
              exact few
            | some more =>
              have length := opsDequeueBulk_length got
              cases h
              refine ⟨Nat.le_trans ?_ (Nat.le_max_left _ _), fun k hk => by cases hk⟩
              simp only [List.length_take, List.length_append]
              omega
        · rename_i enough
          rw [if_neg enough]
          cases h
          refine ⟨Nat.le_trans ?_ before, fun k hk => by cases hk⟩
          rw [List.length_take]
          omega
  | ringDequeue n => exact ⟨small c h, fun k hk => by cases hk⟩

section
variable [Fintype T] [DecidableEq T]

/-- All objects, wherever they are. -/
def State.objects (s : State T α) : Multiset α :=
  s.ring + ∑ t, ((s.caches t).getD [] : Multiset α) + s.held

structure Inv (m : PoolSize) (objects : List α) (s : State T α) : Prop where
  conserved : s.objects = objects
  small : ∀ t c, s.caches t = some c → c.length ≤ m.cacheMax
  asks : ∀ t n, s.get t = some (.start n) ∨ s.get t = some (.ringDequeue n) → 0 < n
  short : ∀ t n c, s.get t = some (.ringDequeue n) → n < m.cacheSize → s.caches t = some c →
    c.length < n

omit [DecidableEq T] in
theorem Inv.start (m : PoolSize) (cached : T → Bool) (objects : List α) :
    Inv m objects (State.populated cached objects) := by
  constructor
  · have empty : ∀ t, ((State.populated cached objects).caches t).getD [] = [] := by
      intro t
      simp only [State.populated]
      split <;> rfl
    simp only [State.objects, empty]
    simp [State.populated]
  · intro t c h
    simp only [State.populated] at h
    split at h
    · cases h
      exact Nat.zero_le _
    · cases h
  · rintro t n (h | h) <;> cases h
  · intro t n c h
    cases h

omit [DecidableEq T] in
/-- The objects of one cache, of the ring and of the holders are among all of them. -/
theorem Inv.room {m : PoolSize} {objects : List α} {s : State T α} (inv : Inv m objects s)
    (t : T) : ((s.caches t).getD []).length + s.ring.length + s.held.length ≤ objects.length := by
  have all := congrArg Multiset.card inv.conserved
  have one := Finset.single_le_sum (fun u _ => Nat.zero_le ((s.caches u).getD []).length)
    (Finset.mem_univ t)
  simp only [State.objects, Multiset.card_add, Multiset.card_sum, Multiset.coe_card] at all
  omega

theorem Inv.put {m : PoolSize} {objects : List α} {s : State T α} (inv : Inv m objects s)
    (fits : objects.length ≤ m.capacity) {t : T} {objs rest : List α} (idle : s.get t = none)
    (holds : s.held.Perm (objs ++ rest)) : Inv m objects (s.put m t objs rest) := by
  have amount := holds.length_eq
  rw [List.length_append] at amount
  have room := inv.room t
  have kept := doGenericPut_spec m (s.caches t) s.ring objs (by omega)
  constructor
  · have moved := sum_update (fun c : Option (List α) => (c.getD [] : Multiset α)) s.caches t
      (doGenericPut m (s.caches t) s.ring objs).1
    have held : (s.held : Multiset α) = objs + rest := by
      rw [Multiset.coe_eq_coe.mpr holds, Multiset.coe_add]
    rw [← inv.conserved]
    simp only [State.objects, State.put]
    rw [held]
    -- both sides with the objects of the old cache added
    apply add_right_cancel (b := ((s.caches t).getD [] : Multiset α))
    calc _ = (∑ u, ((Function.update s.caches t (doGenericPut m (s.caches t) s.ring objs).1
            u).getD [] : Multiset α) + ((s.caches t).getD [] : Multiset α)) +
            (doGenericPut m (s.caches t) s.ring objs).2 + rest := by abel
      _ = ∑ u, ((s.caches u).getD [] : Multiset α) +
            (((doGenericPut m (s.caches t) s.ring objs).1.getD [] : List α) +
              (doGenericPut m (s.caches t) s.ring objs).2) + rest := by
          rw [moved]
          abel
      _ = _ := by
          rw [kept]
          abel
  · intro u c h
    by_cases same : u = t
    · subst same
      simp only [State.put, Function.update_self] at h
      exact doGenericPut_cache m s.ring objs (inv.small u) h
    · simp only [State.put, Function.update_of_ne same] at h
      exact inv.small u c h
  · exact inv.asks
  · intro u n c at_pc below h
    have other : u ≠ t := by
      rintro rfl
      rw [show (s.put m u objs rest).get = s.get from rfl, idle] at at_pc
      cases at_pc
    simp only [State.put, Function.update_of_ne other] at h
    exact inv.short u n c at_pc below h

theorem Inv.getCall {m : PoolSize} {objects : List α} {s : State T α} (inv : Inv m objects s)
    {t : T} {n : Nat} (filled : 0 < n) :
    Inv m objects { s with get := Function.update s.get t (some (.start n)) } := by
  refine ⟨inv.conserved, inv.small, fun u k h => ?_, fun u k c h below hc => ?_⟩
  · by_cases same : u = t
    · subst same
      simp only [Function.update_self] at h
      rcases h with h | h
      · cases h
        exact filled
      · cases h
    · simp only [Function.update_of_ne same] at h
      exact inv.asks u k h
  · by_cases same : u = t
    · subst same
      simp only [Function.update_self] at h
      cases h
    · simp only [Function.update_of_ne same] at h
      exact inv.short u k c h below hc

/-- A get that goes on asks the ring for the number it was called with. -/
theorem getStep_goes_on (m : PoolSize) (cache : Option (List α)) (ring : List α) (pc : GetPc)
    {next : GetPc} (h : (pc.step m cache ring).2.2 = .inl next) :
    ∃ n, pc = .start n ∧ next = .ringDequeue n := by
  cases pc with
  | start n =>
    refine ⟨n, rfl, ?_⟩
    cases cache with
    | none =>
      cases h
      rfl
    | some cacheObjs =>
      simp only [GetPc.step] at h
      split at h
      · cases h
        rfl
      · split at h
        · split at h
          · cases h
          · cases h
            rfl
        · cases h
  | ringDequeue n => cases h

theorem Inv.getStep {m : PoolSize} {objects : List α} {s : State T α} (inv : Inv m objects s)
    {t : T} {pc : GetPc} (at_pc : s.get t = some pc) : Inv m objects (s.getAccess m t pc) := by
  have kept := getStep_spec m (s.caches t) s.ring pc
  have goesOn : ∀ next, (s.getAccess m t pc).get t = some next →
      (pc.step m (s.caches t) s.ring).2.2 = .inl next := by
    intro next h
    simp only [State.getAccess, Function.update_self] at h
    cases r : (pc.step m (s.caches t) s.ring).2.2 with
    | inl pc' =>
      rw [r] at h
      cases h
      rfl
    | inr got =>
      rw [r] at h
      cases h
  constructor
  · have moved := sum_update (fun c : Option (List α) => (c.getD [] : Multiset α)) s.caches t
      (pc.step m (s.caches t) s.ring).1
    rw [← inv.conserved]
    simp only [State.objects, State.getAccess]
    rw [← Multiset.coe_add (s.held)]
    apply add_right_cancel (b := ((s.caches t).getD [] : Multiset α))
    calc _ = (∑ u, ((Function.update s.caches t (pc.step m (s.caches t) s.ring).1
            u).getD [] : Multiset α) + ((s.caches t).getD [] : Multiset α)) +
            ((pc.step m (s.caches t) s.ring).2.1 + ((pc.step m (s.caches t) s.ring).2.2.elim
              (fun _ => []) (fun got => got.getD []) : List α)) + s.held := by abel
      _ = ∑ u, ((s.caches u).getD [] : Multiset α) +
            (((pc.step m (s.caches t) s.ring).1.getD [] : List α) +
              (pc.step m (s.caches t) s.ring).2.1 + ((pc.step m (s.caches t) s.ring).2.2.elim
                (fun _ => []) (fun got => got.getD []) : List α)) + s.held := by
          rw [moved]
          abel
      _ = _ := by
          rw [kept]
          abel
  · intro u c h
    by_cases same : u = t
    · subst same
      simp only [State.getAccess, Function.update_self] at h
      exact (getStep_cache m s.ring pc (inv.small u) h).1
    · simp only [State.getAccess, Function.update_of_ne same] at h
      exact inv.small u c h
  · intro u n h
    by_cases same : u = t
    · subst same
      rcases h with h | h
      · obtain ⟨k, _, there⟩ := getStep_goes_on m _ _ pc (goesOn _ h)
        cases there
      · obtain ⟨k, rfl, there⟩ := getStep_goes_on m _ _ pc (goesOn _ h)
        cases there
        exact inv.asks u n (.inl at_pc)
    · simp only [State.getAccess, Function.update_of_ne same] at h
      exact inv.asks u n h
  · intro u n c h below hc
    by_cases same : u = t
    · subst same
      have next := goesOn _ h
      simp only [State.getAccess, Function.update_self] at hc
      exact (getStep_cache m s.ring pc (inv.small u) hc).2 n next below
    · simp only [State.getAccess, Function.update_of_ne same] at h hc
      exact inv.short u n c h below hc

theorem reachable_inv {m : PoolSize} {cached : T → Bool} {objects : List α} {s : State T α}
    (h : (pool m cached objects).Reachable s) : Inv m objects s := by
  obtain ⟨s₀, ⟨amount, _⟩, _⟩ := id h
  have fits : objects.length ≤ m.capacity := amount ▸ m.size_le
  refine h.invariant (I := Inv m objects) ?_ ?_
  · rintro s ⟨_, rfl⟩
    exact Inv.start m cached objects
  · intro s s' inv step
    cases step with
    | put t objs rest idle filled holds => exact inv.put fits idle holds
    | getCall t n idle filled => exact inv.getCall filled
    | getStep t pc at_pc => exact inv.getStep at_pc

end

/-- Four objects, and caches of two. -/
def fourObjects : PoolSize := ⟨4, 2, 7, by decide, by decide, by decide⟩

/-- The first thread gets an object and fills its cache, the second gets the last one of the
ring and asks for another, and the first puts its object back. -/
def secondStarves : List (Move (Fin 2) Nat) :=
  [.getCall 0 1, .getStep 0, .getCall 1 1, .getStep 1, .getStep 1, .getCall 1 1, .getStep 1]

def starvedPool : Option (State (Fin 2) Nat) :=
  System.follow (fun mv s => exec fourObjects s mv) secondStarves
    (.populated (fun _ => true) [1, 2, 3, 4])

theorem starvedPool_reachable {s : State (Fin 2) Nat} (h : starvedPool = some s) :
    (pool fourObjects (fun _ => true) [1, 2, 3, 4]).Reachable s :=
  follow_reachable rfl h

theorem secondStarves_runs : starvedPool.map (fun s =>
    s.ring.isEmpty && s.held = [3, 4] && s.caches 0 = some [1, 2] && s.caches 1 = some [] &&
      match s.get 1 with
      | some (.ringDequeue 1) => true
      | _ => false) = some true := by
  decide +kernel

section
variable [Fintype T] [DecidableEq T]

/-- Every object is in the ring, in one cache or given out, and in no two of these: no put
has been refused by the ring. -/
theorem objects_conserved {m : PoolSize} {cached : T → Bool} {objects : List α} {s : State T α}
    (h : (pool m cached objects).Reachable s) :
    (s.ring + ∑ t, ((s.caches t).getD [] : Multiset α) + s.held : Multiset α) = objects ∧
      s.ring.length ≤ m.capacity := by
  have inv := reachable_inv h
  obtain ⟨s₀, ⟨amount, _⟩, _⟩ := h
  refine ⟨inv.conserved, ?_⟩
  have all := congrArg Multiset.card inv.conserved
  have size := m.size_le
  simp only [State.objects, Multiset.card_add, Multiset.coe_card] at all
  omega

/-- The caches and the holders have the four objects. -/
theorem objects_conserved_secondStarves : ∃ s, starvedPool = some s ∧
    (s.ring + ∑ t, ((s.caches t).getD [] : Multiset Nat) + s.held : Multiset Nat) =
      [1, 2, 3, 4] ∧ s.ring.length ≤ 7 := by
  obtain ⟨s, hs, _⟩ := Option.map_eq_some_iff.mp secondStarves_runs
  exact ⟨s, hs, objects_conserved (starvedPool_reachable hs)⟩

/-- Neither the objects that a put adds to a cache nor those with which a get refills it go
beyond the array of the cache. -/
theorem cache_array {m : PoolSize} {cached : T → Bool} {objects : List α} {s : State T α}
    (h : (pool m cached objects).Reachable s) {t : T} {c : List α} (hc : s.caches t = some c) :
    (∀ n ≤ rteMempoolCacheMaxSize, c.length + n ≤ rteMempoolCacheMaxSize * 3) ∧
      ∀ n < m.cacheSize, c.length < n →
        c.length + (n + (m.cacheSize - c.length)) ≤ rteMempoolCacheMaxSize * 3 := by
  have small := (reachable_inv h).small t c hc
  have size := m.cache_le
  simp only [PoolSize.cacheMax, PoolSize.flushthresh, rteMempoolCacheMaxSize] at small size ⊢
  constructor
  · intro n hn
    omega
  · intro n hn few
    omega

theorem cache_array_secondStarves : ∃ s, starvedPool = some s ∧
    ∀ n ≤ rteMempoolCacheMaxSize, [1, 2].length + n ≤ rteMempoolCacheMaxSize * 3 := by
  obtain ⟨s, hs, facts⟩ := Option.map_eq_some_iff.mp secondStarves_runs
  simp only [Bool.and_eq_true, decide_eq_true_eq] at facts
  exact ⟨s, hs, (cache_array (starvedPool_reachable hs) facts.1.1.2).1⟩

/-- The other threads' caches keep at most so many objects from a get that fails. -/
theorem get_fails {m : PoolSize} {cached : T → Bool} {objects : List α} {s : State T α}
    (h : (pool m cached objects).Reachable s) {t : T} {n : Nat}
    (at_ring : s.get t = some (.ringDequeue n))
    (fails : (GetPc.step m (s.caches t) s.ring (.ringDequeue n)).2.2 = .inr none) :
    objects.length ≤ s.held.length + (Fintype.card T - 1) * m.cacheMax +
      if n < m.cacheSize then 2 * (n - 1) else m.cacheMax + (n - 1) := by
  have inv := reachable_inv h
  have positive := inv.asks t n (.inr at_ring)
  have all := congrArg Multiset.card inv.conserved
  simp only [State.objects, Multiset.card_add, Multiset.card_sum, Multiset.coe_card] at all
  have few : s.ring.length < n := by
    by_contra enough
    simp [GetPc.step, opsDequeueBulk, positive, Nat.le_of_not_lt enough] at fails
  have others : ∑ u ∈ Finset.univ.erase t, ((s.caches u).getD []).length ≤
      (Fintype.card T - 1) * m.cacheMax := by
    calc _ ≤ (Finset.univ.erase t).card • m.cacheMax := by
          apply Finset.sum_le_card_nsmul
          intro u _
          cases hu : s.caches u with
          | none => exact Nat.zero_le _
          | some c => exact inv.small u c hu
      _ = _ := by rw [Finset.card_erase_of_mem (Finset.mem_univ t), Finset.card_univ,
        Nat.nsmul_eq_mul]
  have whole := Finset.add_sum_erase Finset.univ (fun u => ((s.caches u).getD []).length)
    (Finset.mem_univ t)
  have own : ((s.caches t).getD []).length ≤ if n < m.cacheSize then n - 1 else m.cacheMax := by
    cases hc : s.caches t with
    | none => exact Nat.zero_le _
    | some c =>
      split
      · rename_i below
        exact Nat.le_sub_one_of_lt (inv.short t n c at_ring below hc)
      · exact inv.small t c hc
  split at own
  · rename_i below
    rw [if_pos below]
    omega
  · rename_i below
    rw [if_neg below]
    omega

/-- Two of the four objects stay in the cache of the first thread. -/
theorem get_fails_secondStarves : ∃ s, starvedPool = some s ∧
    [1, 2, 3, 4].length ≤ s.held.length + (Fintype.card (Fin 2) - 1) * fourObjects.cacheMax +
      if 1 < fourObjects.cacheSize then 2 * (1 - 1) else fourObjects.cacheMax + (1 - 1) := by
  obtain ⟨s, hs, facts⟩ := Option.map_eq_some_iff.mp secondStarves_runs
  simp only [Bool.and_eq_true, decide_eq_true_eq, List.isEmpty_iff] at facts
  obtain ⟨⟨⟨⟨empty, _⟩, _⟩, own⟩, at_pc⟩ := facts
  have at_ring : s.get 1 = some (.ringDequeue 1) := by
    split at at_pc
    · assumption
    · cases at_pc
  refine ⟨s, hs, get_fails (starvedPool_reachable hs) at_ring ?_⟩
  rw [empty]
  rfl

end

end Mempool
