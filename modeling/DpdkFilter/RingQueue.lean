import DpdkFilter.RingCalls

/-!
# A ring is a queue

A call takes effect when its compare and swap succeeds: from then on an enqueue's
elements stand in the queue, and what a dequeue will hand out does not. So the ring
shows its callers nothing that a queue with one call at a time would not show them.
-/

namespace RteRing

open Interleaving Tickets BulkQueue

universe u v w
variable {P : Type u} {C : Type v} {α : Type w} {g : RingSize} {s : State P C α}

def EnqPc.call : EnqPc α → EnqCall α
  | .loadHead b objs => .called b objs
  | .loadTail b objs _ => .called b objs
  | .cmpset b objs _ _ => .called b objs
  | .store objs _ _ => .done objs
  | .waitTail objs _ => .done objs
  | .storeTail objs _ => .done objs

/-- A dequeue that is still reading will hand out what was entered at its slots. -/
def DeqPc.call (entered : List α) (pos : Nat) : DeqPc α → DeqCall α
  | .loadHead b num => .called b num
  | .loadTail b num _ => .called b num
  | .cmpset b num _ _ => .called b num
  | .load n _ _ => .done ((entered.drop pos).take n)
  | .waitTail _ got => .done got
  | .storeTail _ got => .done got

structure Abstracts (g : RingSize) (s : State P C α) (q : BulkQueue.State P C α) : Prop where
  inv : Inv g s
  queue : q.queue = s.entered.drop s.claimed
  enq : q.enq = fun p => (s.enq p).map fun call => call.1.call
  deq : q.deq = fun c => (s.deq c).map fun call => call.1.call s.entered call.2
  history : q.history = s.history

theorem map_update {T : Type u} [DecidableEq T] {γ δ : Type w} (f : T → Option γ) (part : γ → δ)
    (t : T) (x : Option γ) :
    (fun u => (Function.update f t x u).map part) =
      Function.update (fun u => (f u).map part) t (x.map part) := by
  funext u
  exact Function.apply_update (fun _ o => Option.map part o) f t x u

theorem map_update_same {T : Type u} [DecidableEq T] {γ δ : Type w} (f : T → Option γ)
    (part : γ → δ) (t : T) (x : Option γ) (same : x.map part = (f t).map part) :
    (fun u => (Function.update f t x u).map part) = fun u => (f u).map part := by
  rw [map_update, same]
  exact Function.update_eq_self t _

/-- Entering more elements does not change what the dequeues in progress will hand out. -/
theorem Inv.promised (inv : Inv g s) (more : List α) :
    (fun c => (s.deq c).map fun call => call.1.call (s.entered ++ more) call.2) =
      fun c => (s.deq c).map fun call => call.1.call s.entered call.2 := by
  funext c
  cases at_pc : s.deq c with
  | none => rfl
  | some call =>
    obtain ⟨pc, pos⟩ := call
    cases pc with
    | load n oldHead got =>
      obtain ⟨_, _, last⟩ := inv.consumer_within at_pc rfl
      have there := inv.there
      have ordered := inv.producers.ordered
      simp only [State.producers] at ordered
      simp only [Option.map_some, DeqPc.call]
      rw [List.drop_append, List.take_append_of_le_length]
      rw [List.length_drop]
      omega
    | _ => rfl

/-- A call whose access shows nothing outside. -/
theorem Abstracts.enq_silent [DecidableEq P] {q : BulkQueue.State P C α}
    (abs : Abstracts g s q) {p : P} {pc pc' : EnqPc α} {pos pos' : Nat}
    (at_pc : s.enq p = some (pc, pos)) (same : pc'.call = pc.call) :
    q.enq = fun r => (Function.update s.enq p (some (pc', pos')) r).map
      fun call => call.1.call := by
  rw [map_update_same _ _ _ _ (by rw [at_pc, Option.map_some, Option.map_some, same])]
  exact abs.enq

theorem Abstracts.deq_silent [DecidableEq C] {q : BulkQueue.State P C α}
    (abs : Abstracts g s q) {c : C} {pc pc' : DeqPc α} {pos pos' : Nat}
    (at_pc : s.deq c = some (pc, pos)) (same : pc'.call s.entered pos' = pc.call s.entered pos) :
    q.deq = fun r => (Function.update s.deq c (some (pc', pos')) r).map
      fun call => call.1.call s.entered call.2 := by
  rw [map_update_same _ _ _ _ (by rw [at_pc, Option.map_some, Option.map_some, same])]
  exact abs.deq

section
variable [DecidableEq P] [DecidableEq C]

theorem Abstracts.enqStep {q : BulkQueue.State P C α} (abs : Abstracts g s q)
    {p : P} {pc : EnqPc α} {pos : Nat} (at_pc : s.enq p = some (pc, pos))
    (timely : pc.Timely s.entered.length pos) :
    ∃ q', (q' = q ∨ BulkQueue.Step g.capacity.toNat q q') ∧
      Abstracts g (s.enqAccess g p pc pos) q' := by
  have inv := abs.inv
  have inv' := inv.enqStep at_pc timely
  have called : q.enq p = some pc.call := by
    simp only [abs.enq, at_pc, Option.map_some]
  cases pc with
  | loadHead b objs =>
    refine ⟨q, Or.inl rfl, inv', ?_, abs.enq_silent at_pc rfl, ?_, ?_⟩
    · simpa [State.enqAccess, EnqPc.enters] using abs.queue
    · simpa [State.enqAccess, EnqPc.enters] using abs.deq
    · simpa [State.enqAccess, EnqPc.step] using abs.history
  | loadTail b objs oldHead =>
    by_cases none : granted b objs.length (g.capacity + s.ring.consTail - oldHead).toNat = 0
    · refine ⟨_, Or.inr (.enqRefuse q p b objs called), inv', ?_, ?_, ?_, ?_⟩
      · simpa [State.enqAccess, EnqPc.enters] using abs.queue
      · simp only [State.enqAccess, EnqPc.step, none, if_true, Sum.elim_inr, map_update, abs.enq,
          Option.map_none]
      · simpa [State.enqAccess, EnqPc.enters] using abs.deq
      · simp only [State.enqAccess, EnqPc.step, none, if_true, Sum.elim_inr, abs.history]
    · refine ⟨q, Or.inl rfl, inv', ?_, ?_, ?_, ?_⟩
      · simpa [State.enqAccess, EnqPc.enters] using abs.queue
      · simp only [State.enqAccess, EnqPc.step, none, if_false, Sum.elim_inl]
        exact abs.enq_silent at_pc rfl
      · simpa [State.enqAccess, EnqPc.enters] using abs.deq
      · simp only [State.enqAccess, EnqPc.step, none, if_false, Sum.elim_inl, List.append_nil,
          abs.history]
  | cmpset b objs oldHead n =>
    obtain ⟨old, le, filled, allows, fits⟩ := inv.enq_ok p _ pos at_pc
    by_cases same : s.ring.prodHead = oldHead
    · have room : q.queue.length + n ≤ g.capacity.toNat := by
        have reserved := inv'.room
        have ordered := inv.consumers.ordered
        have there := inv.there
        have visible := inv.producers.ordered
        simp only [State.consumers] at ordered
        simp only [State.producers] at visible
        simp only [State.enqAccess, EnqPc.enters, if_pos same, List.length_append,
          List.length_take] at reserved
        have few := allows.le
        rw [abs.queue, List.length_drop]
        omega
      refine ⟨_, Or.inr (.enqEffect q p b objs n called allows room), inv', ?_, ?_, ?_, ?_⟩
      · have claimed : s.claimed ≤ s.entered.length :=
          Nat.le_trans inv.there inv.producers.ordered
        simp only [State.enqAccess, EnqPc.enters, if_pos same, abs.queue]
        rw [List.drop_append_of_le_length claimed]
      · simp only [State.enqAccess, EnqPc.step, if_pos same, Sum.elim_inl, map_update, abs.enq,
          Option.map_some,
          EnqPc.call]
      · simp only [State.enqAccess, EnqPc.enters, if_pos same, abs.deq]
        exact (inv.promised _).symm
      · simp only [State.enqAccess, EnqPc.step, if_pos same, Sum.elim_inl, List.append_nil,
          abs.history]
    · refine ⟨q, Or.inl rfl, inv', ?_, ?_, ?_, ?_⟩
      · simpa [State.enqAccess, EnqPc.enters, same] using abs.queue
      · simp only [State.enqAccess, EnqPc.step, if_neg same, Sum.elim_inl]
        exact abs.enq_silent at_pc rfl
      · simpa [State.enqAccess, EnqPc.enters, same] using abs.deq
      · simp only [State.enqAccess, EnqPc.step, if_neg same, Sum.elim_inl, List.append_nil,
          abs.history]
  | store objs oldHead i =>
    refine ⟨q, Or.inl rfl, inv', ?_, ?_, ?_, ?_⟩
    · simpa [State.enqAccess, EnqPc.enters] using abs.queue
    · cases hx : objs[i]? <;> simp only [State.enqAccess, EnqPc.step, hx, Sum.elim_inl] <;>
        exact abs.enq_silent at_pc rfl
    · simpa [State.enqAccess, EnqPc.enters] using abs.deq
    · cases hx : objs[i]? <;>
        simp only [State.enqAccess, EnqPc.step, hx, Sum.elim_inl, List.append_nil, abs.history]
  | waitTail objs oldHead =>
    refine ⟨q, Or.inl rfl, inv', ?_, ?_, ?_, ?_⟩
    · simpa [State.enqAccess, EnqPc.enters] using abs.queue
    · by_cases turn : s.ring.prodTail = oldHead
      · simp only [State.enqAccess, EnqPc.step, if_pos turn, Sum.elim_inl]
        exact abs.enq_silent at_pc rfl
      · simp only [State.enqAccess, EnqPc.step, if_neg turn, Sum.elim_inl]
        exact abs.enq_silent at_pc rfl
    · simpa [State.enqAccess, EnqPc.enters] using abs.deq
    · by_cases turn : s.ring.prodTail = oldHead <;>
        simp only [State.enqAccess, EnqPc.step, turn, if_true, if_false, Sum.elim_inl,
          List.append_nil, abs.history]
  | storeTail objs oldHead =>
    refine ⟨_, Or.inr (.enqReturn q p objs called), inv', ?_, ?_, ?_, ?_⟩
    · simpa [State.enqAccess, EnqPc.enters] using abs.queue
    · simp only [State.enqAccess, EnqPc.step, Sum.elim_inr, map_update, abs.enq, Option.map_none]
    · simpa [State.enqAccess, EnqPc.enters] using abs.deq
    · simp only [State.enqAccess, EnqPc.step, Sum.elim_inr, abs.history]

theorem Abstracts.deqStep {q : BulkQueue.State P C α} (abs : Abstracts g s q)
    {c : C} {pc : DeqPc α} {pos : Nat} (at_pc : s.deq c = some (pc, pos))
    (timely : pc.Timely s.claimed pos) :
    ∃ q', (q' = q ∨ BulkQueue.Step g.capacity.toNat q q') ∧
      Abstracts g (s.deqAccess g c pc pos) q' := by
  have inv := abs.inv
  have inv' := inv.deqStep at_pc timely
  have called : q.deq c = some (pc.call s.entered pos) := by
    simp only [abs.deq, at_pc, Option.map_some]
  cases pc with
  | loadHead b num =>
    refine ⟨q, Or.inl rfl, inv', abs.queue, abs.enq, abs.deq_silent at_pc rfl, ?_⟩
    simpa [State.deqAccess, DeqPc.step] using abs.history
  | loadTail b num oldHead =>
    by_cases none : granted b num (s.ring.prodTail - oldHead).toNat = 0
    · refine ⟨_, Or.inr (.deqRefuse q c b num called), inv', abs.queue, abs.enq, ?_, ?_⟩
      · simp only [State.deqAccess, DeqPc.step, none, if_true, Sum.elim_inr, map_update, abs.deq,
          Option.map_none]
      · simp only [State.deqAccess, DeqPc.step, none, if_true, Sum.elim_inr, abs.history]
    · refine ⟨q, Or.inl rfl, inv', abs.queue, abs.enq, ?_, ?_⟩
      · simp only [State.deqAccess, DeqPc.step, none, if_false, Sum.elim_inl]
        exact abs.deq_silent at_pc rfl
      · simp only [State.deqAccess, DeqPc.step, none, if_false, Sum.elim_inl, List.append_nil,
          abs.history]
  | cmpset b num oldHead n =>
    obtain ⟨old, le, filled, allows, fits⟩ := inv.deq_ok c _ pos at_pc
    by_cases same : s.ring.consHead = oldHead
    · have here : pos = s.claimed := by
        rw [inv.consHead, old] at same
        exact ofNat_inj_of_near same.symm le timely
      have there : n ≤ q.queue.length := by
        have ordered := inv.producers.ordered
        simp only [State.producers] at ordered
        rw [abs.queue, List.length_drop]
        omega
      refine ⟨_, Or.inr (.deqEffect q c b num n called allows there), inv', ?_, abs.enq, ?_, ?_⟩
      · simp only [State.deqAccess, DeqPc.claims, if_pos same, abs.queue, List.drop_drop]
      · simp only [State.deqAccess, DeqPc.step, if_pos same, Sum.elim_inl, map_update, abs.deq,
          Option.map_some,
          DeqPc.call, DeqPc.counted, abs.queue, here]
      · simp only [State.deqAccess, DeqPc.step, if_pos same, Sum.elim_inl, List.append_nil,
          abs.history]
    · refine ⟨q, Or.inl rfl, inv', ?_, abs.enq, ?_, ?_⟩
      · simpa [State.deqAccess, DeqPc.claims, same] using abs.queue
      · simp only [State.deqAccess, DeqPc.step, if_neg same, Sum.elim_inl]
        exact abs.deq_silent at_pc rfl
      · simp only [State.deqAccess, DeqPc.step, if_neg same, Sum.elim_inl, List.append_nil,
          abs.history]
  | load n oldHead got =>
    obtain ⟨old, few, given⟩ := inv.deq_ok c _ pos at_pc
    by_cases more : got.length < n
    · refine ⟨q, Or.inl rfl, inv', abs.queue, abs.enq, ?_, ?_⟩
      · simp only [State.deqAccess, DeqPc.step, if_pos more, Sum.elim_inl]
        exact abs.deq_silent at_pc rfl
      · simp only [State.deqAccess, DeqPc.step, if_pos more, Sum.elim_inl, List.append_nil,
          abs.history]
    · have all : got.length = n := Nat.le_antisymm few (Nat.le_of_not_lt more)
      refine ⟨q, Or.inl rfl, inv', abs.queue, abs.enq, ?_, ?_⟩
      · simp only [State.deqAccess, DeqPc.step, if_neg more, Sum.elim_inl]
        -- what was read is what was promised
        exact abs.deq_silent at_pc (congrArg DeqCall.done (all ▸ given))
      · simp only [State.deqAccess, DeqPc.step, if_neg more, Sum.elim_inl, List.append_nil,
          abs.history]
  | waitTail oldHead got =>
    refine ⟨q, Or.inl rfl, inv', abs.queue, abs.enq, ?_, ?_⟩
    · by_cases turn : s.ring.consTail = oldHead
      · simp only [State.deqAccess, DeqPc.step, if_pos turn, Sum.elim_inl]
        exact abs.deq_silent at_pc rfl
      · simp only [State.deqAccess, DeqPc.step, if_neg turn, Sum.elim_inl]
        exact abs.deq_silent at_pc rfl
    · by_cases turn : s.ring.consTail = oldHead <;>
        simp only [State.deqAccess, DeqPc.step, turn, if_true, if_false, Sum.elim_inl,
          List.append_nil, abs.history]
  | storeTail oldHead got =>
    refine ⟨_, Or.inr (.deqReturn q c got called), inv', abs.queue, abs.enq, ?_, ?_⟩
    · simp only [State.deqAccess, DeqPc.step, Sum.elim_inr, map_update, abs.deq, Option.map_none]
    · simp only [State.deqAccess, DeqPc.step, Sum.elim_inr, abs.history]

theorem Abstracts.step {q : BulkQueue.State P C α} (abs : Abstracts g s q) {t : State P C α}
    (h : Step g s t) :
    ∃ q', (q' = q ∨ BulkQueue.Step g.capacity.toNat q q') ∧ Abstracts g t q' := by
  have inv' := abs.inv.step h
  cases h with
  | enqCall p b objs idle small =>
    have unused : q.enq p = none := by
      simp only [abs.enq, idle, Option.map_none]
    refine ⟨_, Or.inr (.enqCall q p b objs unused), inv', abs.queue, ?_, abs.deq, ?_⟩
    · simp only [State.enqBegin, map_update, abs.enq, Option.map_some, EnqPc.call]
    · simp only [State.enqBegin, abs.history]
  | enqStep p pc pos at_pc timely => exact abs.enqStep at_pc timely
  | deqCall c b num idle small =>
    have unused : q.deq c = none := by
      simp only [abs.deq, idle, Option.map_none]
    refine ⟨_, Or.inr (.deqCall q c b num unused), inv', abs.queue, abs.enq, ?_, ?_⟩
    · simp only [State.deqBegin, map_update, abs.deq, Option.map_some, DeqPc.call]
    · simp only [State.deqBegin, abs.history]
  | deqStep c pc pos at_pc timely => exact abs.deqStep at_pc timely

theorem reachable_abstracts (h : (rteRing P C α g).Reachable s) :
    ∃ q, (bulkQueue P C α g.capacity.toNat).Reachable q ∧ Abstracts g s q := by
  refine h.simulated (Abstracts g) ?_ fun s t q abs step => abs.step step
  rintro s ⟨memory, rfl⟩
  exact ⟨.initial, rfl, initial_inv g memory, rfl, rfl, rfl, rfl⟩

end

/-! ## What stands in the ring -/

/-- The elements between the consumers' tail and the producers' tail, oldest first. -/
def Ring.standing (g : RingSize) (r : Ring α) : List α :=
  (List.range (r.prodTail - r.consTail).toNat).map fun i =>
    r.ring ((r.consTail + UInt32.ofNat i) &&& g.mask).toNat

theorem Inv.standing_eq (inv : Inv g s) : s.ring.standing g =
    (s.entered.drop s.released).take (s.published - s.released) := by
  have visible := inv.producers.ordered
  have ordered := inv.consumers.ordered
  have there := inv.there
  have room := inv.room
  have small := g.capacity.toNat_lt
  simp only [State.producers] at visible
  simp only [State.consumers] at ordered
  have count : (s.ring.prodTail - s.ring.consTail).toNat = s.published - s.released := by
    rw [inv.prodTail, inv.consTail, ← UInt32.ofNat_sub (by omega), UInt32.toNat_ofNat',
      Nat.mod_eq_of_lt (by omega)]
  rw [Ring.standing, count]
  apply List.ext_getElem?
  intro i
  by_cases hi : i < s.published - s.released
  · rw [List.getElem?_map, List.getElem?_range hi, List.getElem?_take, if_pos hi,
      List.getElem?_drop, inv.stored _ (by omega) (by omega), inv.consTail, Option.map_some,
      ← UInt32.ofNat_add, mask_eq]
  · rw [List.getElem?_eq_none (by simpa using hi), List.getElem?_take, if_neg hi]

/-- The slot an enqueue is about to store into. -/
def EnqPc.storesInto (g : RingSize) : EnqPc α → Option Nat
  | .store objs oldHead i =>
    if i < objs.length then some (elemSlot g oldHead objs.length i) else none
  | _ => none

def DeqPc.loadsFrom (g : RingSize) : DeqPc α → Option Nat
  | .load n oldHead got =>
    if got.length < n then some (elemSlot g oldHead n got.length) else none
  | _ => none

theorem Inv.stores (inv : Inv g s) {p : P} {pc : EnqPc α} {pos k : Nat}
    (at_pc : s.enq p = some (pc, pos)) (h : pc.storesInto g = some k) :
    ∃ q n, pc.reserved pos = some (pos, n) ∧ pos ≤ q ∧ q < pos + n ∧ k = q % g.size.toNat := by
  cases pc with
  | store objs oldHead i =>
    obtain ⟨old, _, _, _⟩ := inv.enq_ok p _ pos at_pc
    obtain ⟨_, first, last⟩ := inv.producer_within at_pc rfl
    have room := inv.room
    have ordered := inv.consumers.ordered
    have there := inv.there
    have small := g.capacity_lt
    simp only [State.consumers] at ordered
    simp only [EnqPc.storesInto] at h
    split at h
    · rename_i hi
      rw [old, elemSlot_eq g pos hi (by omega)] at h
      exact ⟨pos + i, objs.length, rfl, Nat.le_add_right _ _, Nat.add_lt_add_left hi pos,
        (Option.some.inj h).symm⟩
    · cases h
  | _ => cases h

theorem Inv.loads (inv : Inv g s) {c : C} {pc : DeqPc α} {pos k : Nat}
    (at_pc : s.deq c = some (pc, pos)) (h : pc.loadsFrom g = some k) :
    ∃ q n, pc.reserved pos = some (pos, n) ∧ pos ≤ q ∧ q < pos + n ∧ k = q % g.size.toNat := by
  cases pc with
  | load n oldHead got =>
    obtain ⟨old, _, _⟩ := inv.deq_ok c _ pos at_pc
    obtain ⟨_, first, last⟩ := inv.consumer_within at_pc rfl
    have room := inv.room
    have ordered := inv.producers.ordered
    have there := inv.there
    have small := g.capacity_lt
    simp only [State.producers] at ordered
    simp only [DeqPc.loadsFrom] at h
    split at h
    · rename_i hi
      rw [old, elemSlot_eq g pos hi (by omega)] at h
      exact ⟨pos + got.length, n, rfl, Nat.le_add_right _ _, Nat.add_lt_add_left hi pos,
        (Option.some.inj h).symm⟩
    · cases h
  | _ => cases h

/-- Whose turn it is among the enqueues has still to store, or to move the tail. -/
theorem Inv.enqueue_at_turn (inv : Inv g s) (out : s.published < s.entered.length) :
    ∃ q objs, (∃ i, s.enq q = some (.store objs s.ring.prodTail i, s.published)) ∨
      s.enq q = some (.waitTail objs s.ring.prodTail, s.published) ∨
      s.enq q = some (.storeTail objs s.ring.prodTail, s.published) := by
  obtain ⟨q, n, held⟩ := inv.producers.at_tail out
  simp only [State.producers, Option.bind_eq_some_iff] at held
  obtain ⟨⟨pc, pos⟩, at_pc, reserved⟩ := held
  have ok := inv.enq_ok q pc pos at_pc
  cases pc with
  | store objs old i =>
    cases reserved
    exact ⟨q, objs, Or.inl ⟨i, inv.prodTail.trans ok.1.symm ▸ at_pc⟩⟩
  | waitTail objs old =>
    cases reserved
    exact ⟨q, objs, Or.inr (Or.inl (inv.prodTail.trans ok.1.symm ▸ at_pc))⟩
  | storeTail objs old =>
    cases reserved
    exact ⟨q, objs, Or.inr (Or.inr (inv.prodTail.trans ok.1.symm ▸ at_pc))⟩
  | _ => cases reserved

theorem Inv.dequeue_at_turn (inv : Inv g s) (out : s.released < s.claimed) :
    ∃ d got, (∃ n, s.deq d = some (.load n s.ring.consTail got, s.released)) ∨
      s.deq d = some (.waitTail s.ring.consTail got, s.released) ∨
      s.deq d = some (.storeTail s.ring.consTail got, s.released) := by
  obtain ⟨d, n, held⟩ := inv.consumers.at_tail out
  simp only [State.consumers, Option.bind_eq_some_iff] at held
  obtain ⟨⟨pc, pos⟩, at_pc, reserved⟩ := held
  have ok := inv.deq_ok d pc pos at_pc
  cases pc with
  | load m old got =>
    cases reserved
    exact ⟨d, got, Or.inl ⟨n, inv.consTail.trans ok.1.symm ▸ at_pc⟩⟩
  | waitTail old got =>
    cases reserved
    exact ⟨d, got, Or.inr (Or.inl (inv.consTail.trans ok.1.symm ▸ at_pc))⟩
  | storeTail old got =>
    cases reserved
    exact ⟨d, got, Or.inr (Or.inr (inv.consTail.trans ok.1.symm ▸ at_pc))⟩
  | _ => cases reserved

/-! ## Three runs -/

/-- A ring of four slots, of which three can be used. -/
def ringOfFour : RingSize := ⟨4, 3, ⟨2, by decide, rfl⟩, by decide⟩

def run (moves : List (Move Bool Unit Nat)) : Option (State Bool Unit Nat) :=
  System.follow (fun mv s => exec ringOfFour s mv) moves (.initial fun _ => 0)

theorem run_reachable {moves : List (Move Bool Unit Nat)} {s : State Bool Unit Nat}
    (h : run moves = some s) : (rteRing Bool Unit Nat ringOfFour).Reachable s :=
  follow_reachable h

/-- One producer puts in two elements, and the consumer takes the first of them. -/
def putTwoTakeOne : List (Move Bool Unit Nat) :=
  .enqCall false .exactly [7, 8] :: List.replicate 8 (.enqStep false) ++
    .deqCall () .upTo 1 :: List.replicate 7 (.deqStep ())

theorem putTwoTakeOne_runs : (run putTwoTakeOne).map (fun s =>
    (s.enq false).isNone && (s.enq true).isNone && (s.deq ()).isNone &&
      s.ring.standing ringOfFour = [8]) = some true := by
  decide +kernel

/-- One producer has reserved two slots; the next has stored into a third one and waits. -/
def secondWaits : List (Move Bool Unit Nat) :=
  .enqCall false .exactly [7, 8] :: List.replicate 3 (.enqStep false) ++
    .enqCall true .exactly [9] :: List.replicate 5 (.enqStep true)

theorem secondWaits_runs : (run secondWaits).map (fun s =>
    s.enq true = some (.waitTail [9] 2, 2) && s.ring.prodTail = 0) = some true := by
  decide +kernel

/-- Both producers have reserved slots, and have not stored yet. -/
def bothStore : List (Move Bool Unit Nat) :=
  .enqCall false .exactly [7, 8] :: List.replicate 3 (.enqStep false) ++
    .enqCall true .exactly [9] :: List.replicate 3 (.enqStep true)

theorem bothStore_runs : (run bothStore).map (fun s =>
    s.enq false = some (.store [7, 8] 0 0, 0) && s.enq true = some (.store [9] 2 0, 2)) =
      some true := by
  decide +kernel

/-! ## What callers can rely on -/

section
variable [DecidableEq P] [DecidableEq C]

/-- What callers see of the ring is what they would see of a bounded queue that does each
call at one moment, whatever the order of the accesses of any number of threads. -/
theorem linearizable (h : (rteRing P C α g).Reachable s) :
    ∃ q, (bulkQueue P C α g.capacity.toNat).Reachable q ∧ q.history = s.history := by
  obtain ⟨q, hq, abs⟩ := reachable_abstracts h
  exact ⟨q, hq, abs.history⟩

/-- Both calls of the run are those of a queue. -/
theorem linearizable_putTwoTakeOne : ∃ s, run putTwoTakeOne = some s ∧
    ∃ q, (bulkQueue Bool Unit Nat 3).Reachable q ∧ q.history = s.history := by
  obtain ⟨s, hs, _⟩ := Option.map_eq_some_iff.mp putTwoTakeOne_runs
  exact ⟨s, hs, linearizable (run_reachable hs)⟩

/-- When no call is in progress, each producer's elements have gone, in its order, into one
sequence; what each consumer got has come, in its order, from the front of it; and the rest
is what stands in the slots. -/
theorem fifo_when_idle (h : (rteRing P C α g).Reachable s) (enqIdle : ∀ p, s.enq p = none)
    (deqIdle : ∀ c, s.deq c = none) :
    ∃ inserted removed, (∀ p, entriesOf p inserted = acceptedFrom p s.history) ∧
      (∀ c, entriesOf c removed = handedTo c s.history) ∧
      elements inserted = elements removed ++ s.ring.standing g := by
  obtain ⟨q, hq, abs⟩ := reachable_abstracts h
  have past := BulkQueue.reachable_inv hq
  have inv := abs.inv
  have nobody : q.enq = fun _ => none := by
    funext p
    simp only [abs.enq, enqIdle, Option.map_none]
  have noone : q.deq = fun _ => none := by
    funext c
    simp only [abs.deq, deqIdle, Option.map_none]
  refine ⟨q.inserted, q.removed, fun p => ?_, fun c => ?_, ?_⟩
  · simpa [nobody, abs.history] using past.accepted p
  · simpa [noone, abs.history] using past.handed c
  · have visible : s.published = s.entered.length :=
      inv.producers.at_rest fun p => by simp only [State.producers, enqIdle, Option.bind_none]
    have read : s.released = s.claimed :=
      inv.consumers.at_rest fun c => by simp only [State.consumers, deqIdle, Option.bind_none]
    rw [past.fifo, abs.queue, inv.standing_eq, visible, read]
    congr 1
    rw [List.take_of_length_le (by rw [List.length_drop])]

theorem fifo_when_idle_putTwoTakeOne : ∃ s, run putTwoTakeOne = some s ∧
    ∃ inserted removed, (∀ p, entriesOf p inserted = acceptedFrom p s.history) ∧
      (∀ c, entriesOf c removed = handedTo c s.history) ∧
      elements inserted = elements removed ++ [8] := by
  obtain ⟨s, hs, facts⟩ := Option.map_eq_some_iff.mp putTwoTakeOne_runs
  simp only [Bool.and_eq_true, Option.isNone_iff_eq_none, decide_eq_true_eq] at facts
  obtain ⟨⟨⟨first, second⟩, taken⟩, standing⟩ := facts
  have rest := fifo_when_idle (run_reachable hs) (fun | false => first | true => second)
    (fun | () => taken)
  rw [standing] at rest
  exact ⟨s, hs, rest⟩

/-- Two calls never work on one slot at the same time. -/
theorem slots_exclusive (h : (rteRing P C α g).Reachable s) :
    (∀ p q pc pc' pos pos' k, p ≠ q → s.enq p = some (pc, pos) → s.enq q = some (pc', pos') →
      pc.storesInto g = some k → pc'.storesInto g ≠ some k) ∧
    (∀ c d pc pc' pos pos' k, c ≠ d → s.deq c = some (pc, pos) → s.deq d = some (pc', pos') →
      pc.loadsFrom g = some k → pc'.loadsFrom g ≠ some k) ∧
    ∀ p c pc pc' pos pos' k, s.enq p = some (pc, pos) → s.deq c = some (pc', pos') →
      pc.storesInto g = some k → pc'.loadsFrom g ≠ some k := by
  have inv := reachable_inv h
  have visible := inv.producers.ordered
  have ordered := inv.consumers.ordered
  have there := inv.there
  have room := inv.room
  have small := g.capacity_lt
  simp only [State.producers] at visible
  simp only [State.consumers] at ordered
  refine ⟨?_, ?_, ?_⟩
  · intro p q pc pc' pos pos' k hne hp hq hk hk'
    obtain ⟨x, n, held, hx, hx', rfl⟩ := inv.stores hp hk
    obtain ⟨y, m, held', hy, hy', same⟩ := inv.stores hq hk'
    have inside := inv.producer_within hp held
    have inside' := inv.producer_within hq held'
    have apart := inv.producers_apart hne hp held hq held'
    exact slot_ne (by omega) (by omega) (by omega) same
  · intro c d pc pc' pos pos' k hne hc hd hk hk'
    obtain ⟨x, n, held, hx, hx', rfl⟩ := inv.loads hc hk
    obtain ⟨y, m, held', hy, hy', same⟩ := inv.loads hd hk'
    have inside := inv.consumer_within hc held
    have inside' := inv.consumer_within hd held'
    have apart := inv.consumers_apart hne hc held hd held'
    exact slot_ne (by omega) (by omega) (by omega) same
  · intro p c pc pc' pos pos' k hp hc hk hk'
    obtain ⟨x, n, held, hx, hx', rfl⟩ := inv.stores hp hk
    obtain ⟨y, m, held', hy, hy', same⟩ := inv.loads hc hk'
    have inside := inv.producer_within hp held
    have inside' := inv.consumer_within hc held'
    exact slot_ne (by omega) (by omega) (by omega) same

theorem slots_exclusive_bothStore : ∃ s, run bothStore = some s ∧
    s.enq false = some (.store [7, 8] 0 0, 0) ∧ s.enq true = some (.store [9] 2 0, 2) ∧
    (EnqPc.store [7, 8] 0 0).storesInto ringOfFour = some 0 ∧
      (EnqPc.store [9] 2 0).storesInto ringOfFour ≠ some 0 := by
  obtain ⟨s, hs, facts⟩ := Option.map_eq_some_iff.mp bothStore_runs
  simp only [Bool.and_eq_true, decide_eq_true_eq] at facts
  obtain ⟨first, second⟩ := facts
  have into : (EnqPc.store [7, 8] 0 0).storesInto ringOfFour = some 0 := rfl
  exact ⟨s, hs, first, second, into, (slots_exclusive (run_reachable hs)).1 false true _ _ _ _ 0
    (by decide) first second into⟩

/-- Nobody waits for a tail that nobody will move: the slots at the tail belong to another
call, which still copies or at whose turn it is. -/
theorem waits_on_other (h : (rteRing P C α g).Reachable s) :
    (∀ p objs oldHead pos, s.enq p = some (.waitTail objs oldHead, pos) →
      s.ring.prodTail ≠ oldHead →
      ∃ q objs', q ≠ p ∧ ((∃ i, s.enq q = some (.store objs' s.ring.prodTail i, s.published)) ∨
        s.enq q = some (.waitTail objs' s.ring.prodTail, s.published) ∨
        s.enq q = some (.storeTail objs' s.ring.prodTail, s.published))) ∧
    ∀ c oldHead got pos, s.deq c = some (.waitTail oldHead got, pos) →
      s.ring.consTail ≠ oldHead →
      ∃ d got', d ≠ c ∧ ((∃ n, s.deq d = some (.load n s.ring.consTail got', s.released)) ∨
        s.deq d = some (.waitTail s.ring.consTail got', s.released) ∨
        s.deq d = some (.storeTail s.ring.consTail got', s.released)) := by
  have inv := reachable_inv h
  constructor
  · intro p objs oldHead pos waits late
    obtain ⟨filled, first, last⟩ := inv.producer_within waits rfl
    obtain ⟨q, objs', turn⟩ := inv.enqueue_at_turn (by omega)
    refine ⟨q, objs', ?_, turn⟩
    rintro rfl
    rw [waits] at turn
    rcases turn with ⟨i, same⟩ | same | same <;> cases same
    exact late rfl
  · intro c oldHead got pos waits late
    obtain ⟨filled, first, last⟩ := inv.consumer_within waits rfl
    obtain ⟨d, got', turn⟩ := inv.dequeue_at_turn (by omega)
    refine ⟨d, got', ?_, turn⟩
    rintro rfl
    rw [waits] at turn
    rcases turn with ⟨n, same⟩ | same | same <;> cases same
    exact late rfl

theorem waits_on_other_secondWaits : ∃ s, run secondWaits = some s ∧
    ∃ q objs', q ≠ true ∧ ((∃ i, s.enq q = some (.store objs' s.ring.prodTail i, s.published)) ∨
      s.enq q = some (.waitTail objs' s.ring.prodTail, s.published) ∨
      s.enq q = some (.storeTail objs' s.ring.prodTail, s.published)) := by
  obtain ⟨s, hs, facts⟩ := Option.map_eq_some_iff.mp secondWaits_runs
  simp only [Bool.and_eq_true, decide_eq_true_eq] at facts
  refine ⟨s, hs, (waits_on_other (run_reachable hs)).1 true [9] 2 2 facts.1 ?_⟩
  rw [facts.2]
  decide

/-- A call that comes back with nothing has read the other tail at a moment at which no
number of elements that it would have been content with had room, or was there. -/
theorem refused_rightly (h : (rteRing P C α g).Reachable s) :
    (∀ p b objs oldHead pos got, s.enq p = some (.loadTail b objs oldHead, pos) →
      s.released + g.capacity.toNat < pos + 2 ^ 32 →
      ((EnqPc.loadTail b objs oldHead).step g s.ring).2 = .inr got →
      ∀ n, 0 < n → b.Allows objs.length n →
        s.released + g.capacity.toNat < s.entered.length + n) ∧
    ∀ c b num oldHead pos got, s.deq c = some (.loadTail b num oldHead, pos) →
      s.published < pos + 2 ^ 32 →
      ((DeqPc.loadTail b num oldHead).step g s.ring).2 = .inr got →
      ∀ n, 0 < n → b.Allows num n → s.published < s.claimed + n := by
  have inv := reachable_inv h
  have room := inv.room
  have there := inv.there
  constructor
  · intro p b objs oldHead pos got at_pc near refused n some allowed
    obtain ⟨old, le⟩ := inv.enq_ok p _ pos at_pc
    simp only [EnqPc.step, inv.consTail, old] at refused
    rw [freeEntries_eq g (by omega) near] at refused
    split at refused
    · rename_i none
      have less := granted_none none some allowed
      omega
    · cases refused
  · intro c b num oldHead pos got at_pc near refused n some allowed
    obtain ⟨old, le⟩ := inv.deq_ok c _ pos at_pc
    simp only [DeqPc.step, inv.prodTail, old] at refused
    rw [sub_toNat_eq (by omega) near] at refused
    split at refused
    · rename_i none
      have less := granted_none none some allowed
      omega
    · cases refused

/-- Four elements at once are too many for a ring that has room for three. -/
def fourAtOnce : List (Move Bool Unit Nat) := [.enqCall false .exactly [6, 7, 8, 9], .enqStep false]

theorem fourAtOnce_runs : (run fourAtOnce).map (fun s =>
    s.enq false = some (.loadTail .exactly [6, 7, 8, 9] 0, 0) && s.released = 0 &&
      s.ring.consTail = 0 && s.entered.isEmpty) = some true := by
  decide +kernel

theorem refused_rightly_fourAtOnce : ∃ s, run fourAtOnce = some s ∧
    s.released + 3 < s.entered.length + 4 := by
  obtain ⟨s, hs, facts⟩ := Option.map_eq_some_iff.mp fourAtOnce_runs
  simp only [Bool.and_eq_true, decide_eq_true_eq] at facts
  obtain ⟨⟨⟨at_pc, released⟩, tail⟩, _⟩ := facts
  refine ⟨s, hs, (refused_rightly (run_reachable hs)).1 false .exactly [6, 7, 8, 9] 0 0 [] at_pc
    ?_ ?_ 4 (by decide) rfl⟩
  · rw [released]
    decide
  · simp only [EnqPc.step, tail]
    rfl

end

end RteRing
