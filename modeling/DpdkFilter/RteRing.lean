import DpdkFilter.BulkQueue
import DpdkFilter.Tickets
import Mathlib.Algebra.Order.Ring.Int

/-!
# The ring behind the mbuf pool

Any number of threads enqueue and dequeue without a lock. A call reserves its slots by
a compare and swap of a head, copies, waits until the tail has come to its first slot
and moves the tail on. Heads and tails are 32-bit and wrap; slots are found by masking.
The generic implementation is modelled, for several producers and several consumers.
-/

namespace RteRing

open Interleaving Tickets BulkQueue

universe u v w
variable {P : Type u} {C : Type v} {α : Type w}

/-- `size` and `capacity` of a ring, as `rte_ring_init` sets them. -/
structure RingSize where
  size : UInt32
  capacity : UInt32
  sized : ∃ k, k < 32 ∧ size.toNat = 2 ^ k
  capacity_lt : capacity.toNat < size.toNat

def RingSize.mask (g : RingSize) : UInt32 := g.size - 1

/-- The words the threads share. -/
structure Ring (α : Type w) where
  prodHead : UInt32
  prodTail : UInt32
  consHead : UInt32
  consTail : UInt32
  ring : Nat → α

/-- Where `__rte_ring_enqueue_elems` and `__rte_ring_dequeue_elems` put and find the
`i`-th of `n` elements. -/
def elemSlot (g : RingSize) (head : UInt32) (n i : Nat) : Nat :=
  let idx := (head &&& g.mask).toNat
  if idx + n < g.size.toNat then idx + i
  else if idx + i < g.size.toNat then idx + i
  -- start at the beginning
  else i - (g.size.toNat - idx)

/-- `n` as the head is moved by: 0 where a fixed number does not fit. -/
def granted (b : Behavior) (n entries : Nat) : Nat :=
  if n > entries then
    match b with
    | .exactly => 0
    | .upTo => entries
  else n

/-- An enqueue between two of its accesses. From `store` on, `objs` are the elements there
is room for, and `i` of them are stored. -/
inductive EnqPc (α : Type w) where
  | loadHead (b : Behavior) (objs : List α)
  | loadTail (b : Behavior) (objs : List α) (oldHead : UInt32)
  | cmpset (b : Behavior) (objs : List α) (oldHead : UInt32) (n : Nat)
  | store (objs : List α) (oldHead : UInt32) (i : Nat)
  | waitTail (objs : List α) (oldHead : UInt32)
  | storeTail (objs : List α) (oldHead : UInt32)
  deriving DecidableEq

/-- A dequeue between two of its accesses; `got` is what it has read so far. -/
inductive DeqPc (α : Type w) where
  | loadHead (b : Behavior) (num : Nat)
  | loadTail (b : Behavior) (num : Nat) (oldHead : UInt32)
  | cmpset (b : Behavior) (num : Nat) (oldHead : UInt32) (n : Nat)
  | load (n : Nat) (oldHead : UInt32) (got : List α)
  | waitTail (oldHead : UInt32) (got : List α)
  | storeTail (oldHead : UInt32) (got : List α)
  deriving DecidableEq

/-- One access of `__rte_ring_do_enqueue_elem`, with what it has accepted once it returns. -/
def EnqPc.step (g : RingSize) (r : Ring α) : EnqPc α → Ring α × (EnqPc α ⊕ List α)
  | .loadHead b objs => (r, .inl (.loadTail b objs r.prodHead))
  | .loadTail b objs oldHead =>
    let freeEntries := g.capacity + r.consTail - oldHead
    let n := granted b objs.length freeEntries.toNat
    if n = 0 then (r, .inr []) else (r, .inl (.cmpset b objs oldHead n))
  | .cmpset b objs oldHead n =>
    if r.prodHead = oldHead then
      ({ r with prodHead := oldHead + UInt32.ofNat n }, .inl (.store (objs.take n) oldHead 0))
    else (r, .inl (.loadHead b objs))
  | .store objs oldHead i =>
    match objs[i]? with
    | some x =>
      ({ r with ring := Function.update r.ring (elemSlot g oldHead objs.length i) x },
        .inl (.store objs oldHead (i + 1)))
    | none => (r, .inl (.waitTail objs oldHead))
  | .waitTail objs oldHead =>
    if r.prodTail = oldHead then (r, .inl (.storeTail objs oldHead))
    else (r, .inl (.waitTail objs oldHead))
  | .storeTail objs oldHead =>
    ({ r with prodTail := oldHead + UInt32.ofNat objs.length }, .inr objs)

/-- One access of `__rte_ring_do_dequeue_elem`, with what it hands out once it returns. -/
def DeqPc.step (g : RingSize) (r : Ring α) : DeqPc α → Ring α × (DeqPc α ⊕ List α)
  | .loadHead b num => (r, .inl (.loadTail b num r.consHead))
  | .loadTail b num oldHead =>
    let entries := r.prodTail - oldHead
    let n := granted b num entries.toNat
    if n = 0 then (r, .inr []) else (r, .inl (.cmpset b num oldHead n))
  | .cmpset b num oldHead n =>
    if r.consHead = oldHead then
      ({ r with consHead := oldHead + UInt32.ofNat n }, .inl (.load n oldHead []))
    else (r, .inl (.loadHead b num))
  | .load n oldHead got =>
    if got.length < n then
      (r, .inl (.load n oldHead (got ++ [r.ring (elemSlot g oldHead n got.length)])))
    else (r, .inl (.waitTail oldHead got))
  | .waitTail oldHead got =>
    if r.consTail = oldHead then (r, .inl (.storeTail oldHead got))
    else (r, .inl (.waitTail oldHead got))
  | .storeTail oldHead got =>
    ({ r with consTail := oldHead + UInt32.ofNat got.length }, .inr got)

/-! ## Any number of calls at a time

Beside the words, the state counts what the 32-bit positions stand for: `entered` are the
elements in the order in which they were given slots, of which `published` are visible,
`claimed` are given to dequeues and `released` are read. A call keeps the count its old
head stands for. -/

structure State (P : Type u) (C : Type v) (α : Type w) where
  ring : Ring α
  enq : P → Option (EnqPc α × Nat)
  deq : C → Option (DeqPc α × Nat)
  history : List (Event P C α)
  entered : List α
  published : Nat
  claimed : Nat
  released : Nat

/-- What the next access of an enqueue gives slots to. -/
def EnqPc.enters (r : Ring α) : EnqPc α → List α
  | .cmpset _ objs oldHead n => if r.prodHead = oldHead then objs.take n else []
  | _ => []

def EnqPc.publishes : EnqPc α → Nat
  | .storeTail objs _ => objs.length
  | _ => 0

def DeqPc.claims (r : Ring α) : DeqPc α → Nat
  | .cmpset _ _ oldHead n => if r.consHead = oldHead then n else 0
  | _ => 0

def DeqPc.releases : DeqPc α → Nat
  | .storeTail _ got => got.length
  | _ => 0

/-- The count of the old head after an access. -/
def EnqPc.counted (count pos : Nat) : EnqPc α → Nat
  | .loadHead _ _ => count
  | _ => pos

def DeqPc.counted (count pos : Nat) : DeqPc α → Nat
  | .loadHead _ _ => count
  | _ => pos

/-- Between the load of a head and the compare and swap of it, fewer than `2 ^ 32` elements
pass: the head has not come round to the value that was loaded. -/
def EnqPc.Timely (count pos : Nat) : EnqPc α → Prop
  | .cmpset _ _ _ _ => count < pos + 2 ^ 32
  | _ => True

def DeqPc.Timely (count pos : Nat) : DeqPc α → Prop
  | .cmpset _ _ _ _ => count < pos + 2 ^ 32
  | _ => True

section
variable [DecidableEq P] [DecidableEq C]

/-- The enqueue `p` makes its next access. -/
def State.enqAccess (g : RingSize) (s : State P C α) (p : P) (pc : EnqPc α) (pos : Nat) :
    State P C α :=
  { s with
    ring := (pc.step g s.ring).1
    enq := Function.update s.enq p ((pc.step g s.ring).2.elim
      (fun pc' => some (pc', pc.counted s.entered.length pos)) fun _ => none)
    history := s.history ++ (pc.step g s.ring).2.elim (fun _ => []) fun got => [.enqueued p got]
    entered := s.entered ++ pc.enters s.ring
    published := s.published + pc.publishes }

def State.deqAccess (g : RingSize) (s : State P C α) (c : C) (pc : DeqPc α) (pos : Nat) :
    State P C α :=
  { s with
    ring := (pc.step g s.ring).1
    deq := Function.update s.deq c ((pc.step g s.ring).2.elim
      (fun pc' => some (pc', pc.counted s.claimed pos)) fun _ => none)
    history := s.history ++ (pc.step g s.ring).2.elim (fun _ => []) fun got => [.dequeued c got]
    claimed := s.claimed + pc.claims s.ring
    released := s.released + pc.releases }

def State.enqBegin (s : State P C α) (p : P) (b : Behavior) (objs : List α) : State P C α :=
  { s with
    enq := Function.update s.enq p (some (.loadHead b objs, 0))
    history := s.history ++ [.enqueue p b objs] }

def State.deqBegin (s : State P C α) (c : C) (b : Behavior) (num : Nat) : State P C α :=
  { s with
    deq := Function.update s.deq c (some (.loadHead b num, 0))
    history := s.history ++ [.dequeue c b num] }

/-- The number of elements of a call is an `unsigned int`. Runs are those in which every compare
and swap is timely, which the source takes for granted: a head that has come round to the value
that was loaded gives a call slots that are in use. -/
inductive Step (g : RingSize) : State P C α → State P C α → Prop where
  | enqCall (s : State P C α) (p : P) (b : Behavior) (objs : List α) (idle : s.enq p = none)
      (small : objs.length < 2 ^ 32) : Step g s (s.enqBegin p b objs)
  | enqStep (s : State P C α) (p : P) (pc : EnqPc α) (pos : Nat)
      (at_pc : s.enq p = some (pc, pos)) (timely : pc.Timely s.entered.length pos) :
      Step g s (s.enqAccess g p pc pos)
  | deqCall (s : State P C α) (c : C) (b : Behavior) (num : Nat) (idle : s.deq c = none)
      (small : num < 2 ^ 32) : Step g s (s.deqBegin c b num)
  | deqStep (s : State P C α) (c : C) (pc : DeqPc α) (pos : Nat)
      (at_pc : s.deq c = some (pc, pos)) (timely : pc.Timely s.claimed pos) :
      Step g s (s.deqAccess g c pc pos)

/-- A call begins, or one in progress makes its next access. -/
inductive Move (P : Type u) (C : Type v) (α : Type w) where
  | enqCall (p : P) (b : Behavior) (objs : List α)
  | enqStep (p : P)
  | deqCall (c : C) (b : Behavior) (num : Nat)
  | deqStep (c : C)

instance (count pos : Nat) (pc : EnqPc α) : Decidable (pc.Timely count pos) :=
  match pc with
  | .cmpset _ _ _ _ => inferInstanceAs (Decidable (_ < _))
  | .loadHead _ _ | .loadTail _ _ _ => isTrue trivial
  | .store _ _ _ | .waitTail _ _ | .storeTail _ _ => isTrue trivial

instance (count pos : Nat) (pc : DeqPc α) : Decidable (pc.Timely count pos) :=
  match pc with
  | .cmpset _ _ _ _ => inferInstanceAs (Decidable (_ < _))
  | .loadHead _ _ | .loadTail _ _ _ => isTrue trivial
  | .load _ _ _ | .waitTail _ _ | .storeTail _ _ => isTrue trivial

def exec (g : RingSize) (s : State P C α) : Move P C α → Option (State P C α)
  | .enqCall p b objs =>
    if (s.enq p).isNone ∧ objs.length < 2 ^ 32 then some (s.enqBegin p b objs) else none
  | .enqStep p =>
    match s.enq p with
    | some (pc, pos) =>
      if pc.Timely s.entered.length pos then some (s.enqAccess g p pc pos) else none
    | none => none
  | .deqCall c b num =>
    if (s.deq c).isNone ∧ num < 2 ^ 32 then some (s.deqBegin c b num) else none
  | .deqStep c =>
    match s.deq c with
    | some (pc, pos) => if pc.Timely s.claimed pos then some (s.deqAccess g c pc pos) else none
    | none => none

theorem exec_step {g : RingSize} {s t : State P C α} {mv : Move P C α}
    (h : exec g s mv = some t) : Step g s t := by
  cases mv with
  | enqCall p b objs =>
    simp only [exec, Option.isNone_iff_eq_none] at h
    split at h
    · rename_i ready
      cases h
      exact .enqCall s p b objs ready.1 ready.2
    · cases h
  | enqStep p =>
    simp only [exec] at h
    split at h
    · rename_i pc pos at_pc
      split at h
      · rename_i timely
        cases h
        exact .enqStep s p pc pos at_pc timely
      · cases h
    · cases h
  | deqCall c b num =>
    simp only [exec, Option.isNone_iff_eq_none] at h
    split at h
    · rename_i ready
      cases h
      exact .deqCall s c b num ready.1 ready.2
    · cases h
  | deqStep c =>
    simp only [exec] at h
    split at h
    · rename_i pc pos at_pc
      split at h
      · rename_i timely
        cases h
        exact .deqStep s c pc pos at_pc timely
      · cases h
    · cases h

/-- A ring just initialised; `memory` is what its slots hold. -/
def State.initial (memory : Nat → α) : State P C α where
  ring := ⟨0, 0, 0, 0, memory⟩
  enq _ := none
  deq _ := none
  history := []
  entered := []
  published := 0
  claimed := 0
  released := 0

variable (P C α) in
def rteRing (g : RingSize) : System (State P C α) where
  Init s := ∃ memory, s = .initial memory
  Step := Step g

/-- What a list of moves leads to is reachable. -/
theorem follow_reachable {g : RingSize} {moves : List (Move P C α)} {memory : Nat → α}
    {s : State P C α}
    (h : System.follow (fun mv s => exec g s mv) moves (.initial memory) = some s) :
    (rteRing P C α g).Reachable s :=
  (System.Reachable.init (S := rteRing P C α g) ⟨memory, rfl⟩).follow
    (fun _ _ _ => exec_step) h

end

/-! ## Positions and slots -/

theorem ofNat_inj_of_near {a b : Nat} (h : UInt32.ofNat a = UInt32.ofNat b) (hab : a ≤ b)
    (near : b < a + 2 ^ 32) : a = b := by
  have same := congrArg UInt32.toNat h
  simp only [UInt32.toNat_ofNat'] at same
  omega

/-- A difference of positions on 32 bits is at most the true one. -/
theorem sub_toNat_le {a b : Nat} (h : b ≤ a) : (UInt32.ofNat a - UInt32.ofNat b).toNat ≤ a - b := by
  rw [← UInt32.ofNat_sub h, UInt32.toNat_ofNat']
  exact Nat.mod_le _ _

theorem freeEntries_le (g : RingSize) {tail pos : Nat} (h : pos ≤ tail + g.capacity.toNat) :
    (g.capacity + UInt32.ofNat tail - UInt32.ofNat pos).toNat ≤
      tail + g.capacity.toNat - pos := by
  have whole : g.capacity + UInt32.ofNat tail = UInt32.ofNat (tail + g.capacity.toNat) := by
    rw [UInt32.ofNat_add, UInt32.ofNat_toNat, UInt32.add_comm]
  rw [whole]
  exact sub_toNat_le h

theorem granted_le (b : Behavior) (n entries : Nat) : granted b n entries ≤ entries := by
  unfold granted
  split
  · cases b with
    | exactly => exact Nat.zero_le _
    | upTo => exact Nat.le_refl _
  · omega

theorem granted_allows (b : Behavior) (n entries : Nat) (some : granted b n entries ≠ 0) :
    b.Allows n (granted b n entries) := by
  unfold granted at some ⊢
  split at some <;> rename_i h
  · rw [if_pos h]
    cases b with
    | exactly => exact False.elim (some rfl)
    | upTo => exact Nat.le_of_lt h
  · rw [if_neg h]
    cases b with
    | exactly => exact rfl
    | upTo => exact Nat.le_refl _

theorem granted_none {b : Behavior} {n entries k : Nat} (none : granted b n entries = 0)
    (some : 0 < k) (allowed : b.Allows n k) : entries < k := by
  have le := allowed.le
  unfold granted at none
  split at none <;> rename_i h
  · cases b with
    | exactly =>
      have same : k = n := allowed
      omega
    | upTo =>
      have zero : entries = 0 := none
      omega
  · omega

/-- A difference of positions that is below `2 ^ 32` is the true one. -/
theorem sub_toNat_eq {a b : Nat} (h : b ≤ a) (near : a < b + 2 ^ 32) :
    (UInt32.ofNat a - UInt32.ofNat b).toNat = a - b := by
  rw [← UInt32.ofNat_sub h, UInt32.toNat_ofNat']
  exact Nat.mod_eq_of_lt (by omega)

theorem freeEntries_eq (g : RingSize) {tail pos : Nat} (h : pos ≤ tail + g.capacity.toNat)
    (near : tail + g.capacity.toNat < pos + 2 ^ 32) :
    (g.capacity + UInt32.ofNat tail - UInt32.ofNat pos).toNat =
      tail + g.capacity.toNat - pos := by
  have whole : g.capacity + UInt32.ofNat tail = UInt32.ofNat (tail + g.capacity.toNat) := by
    rw [UInt32.ofNat_add, UInt32.ofNat_toNat, UInt32.add_comm]
  rw [whole]
  exact sub_toNat_eq h near

theorem mask_eq (g : RingSize) (pos : Nat) :
    (UInt32.ofNat pos &&& g.mask).toNat = pos % g.size.toNat := by
  obtain ⟨k, hk, hsize⟩ := g.sized
  have one : (1 : UInt32) ≤ g.size := by
    rw [UInt32.le_iff_toNat_le, hsize]
    exact Nat.two_pow_pos k
  have mask : g.mask.toNat = 2 ^ k - 1 := by
    rw [RingSize.mask, UInt32.toNat_sub_of_le _ _ one, hsize]
    rfl
  rw [UInt32.toNat_and, mask, UInt32.toNat_ofNat', Nat.and_two_pow_sub_one_eq_mod, hsize]
  exact Nat.mod_mod_of_dvd _ (Nat.pow_dvd_pow 2 (Nat.le_of_lt hk))

/-- Both branches of the copy loops go through the slots in order. -/
theorem elemSlot_eq (g : RingSize) (pos : Nat) {n i : Nat} (hi : i < n)
    (hn : n ≤ g.size.toNat) : elemSlot g (UInt32.ofNat pos) n i = (pos + i) % g.size.toNat := by
  have lt := Nat.mod_lt pos (Nat.lt_of_lt_of_le (Nat.lt_of_le_of_lt (Nat.zero_le i) hi) hn)
  have sum : (pos + i) % g.size.toNat = (pos % g.size.toNat + i) % g.size.toNat :=
    (Nat.mod_add_mod _ _ _).symm
  rw [elemSlot, mask_eq, sum]
  generalize pos % g.size.toNat = base at lt
  by_cases wraps : base + i < g.size.toNat
  · rw [Nat.mod_eq_of_lt wraps, if_pos wraps, ite_self]
  · have back : base + i - g.size.toNat < g.size.toNat := by omega
    rw [if_neg (by omega), if_neg wraps, Nat.mod_eq_sub_mod (by omega), Nat.mod_eq_of_lt back]
    omega

/-- Positions less than a ring apart have different slots. -/
theorem slot_ne {size a b : Nat} (hne : a ≠ b) (hab : a < b + size) (hba : b < a + size) :
    a % size ≠ b % size := by
  intro same
  rcases Nat.lt_or_gt_of_ne hne with less | more
  · have zero := Nat.sub_mod_eq_zero_of_mod_eq same.symm
    rw [Nat.mod_eq_of_lt (by omega)] at zero
    omega
  · have zero := Nat.sub_mod_eq_zero_of_mod_eq same
    rw [Nat.mod_eq_of_lt (by omega)] at zero
    omega

end RteRing
