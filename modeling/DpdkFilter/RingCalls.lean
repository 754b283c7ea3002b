import DpdkFilter.RteRing

/-!
# What the calls of a ring leave each other

A call that has reserved slots relies on no other call touching them, and on the tail
not passing them; every access of every call keeps that. It holds in every order of the
accesses, and when the 32-bit positions wrap.
-/

namespace RteRing

open Interleaving Tickets BulkQueue

universe u v w
variable {P : Type u} {C : Type v} {α : Type w}

/-- The slots that a call has reserved, once it has. -/
def EnqPc.reserved (pos : Nat) : EnqPc α → Option (Nat × Nat)
  | .store objs _ _ => some (pos, objs.length)
  | .waitTail objs _ => some (pos, objs.length)
  | .storeTail objs _ => some (pos, objs.length)
  | _ => none

def DeqPc.reserved (pos : Nat) : DeqPc α → Option (Nat × Nat)
  | .load n _ _ => some (pos, n)
  | .waitTail _ got => some (pos, got.length)
  | .storeTail _ got => some (pos, got.length)
  | _ => none

def State.producers (s : State P C α) : Counter P where
  tail := s.published
  head := s.entered.length
  holds p := (s.enq p).bind fun call => call.1.reserved call.2

def State.consumers (s : State P C α) : Counter C where
  tail := s.released
  head := s.claimed
  holds c := (s.deq c).bind fun call => call.1.reserved call.2

/-- The slots of the positions from `a` up to `b` hold what was entered there. -/
def State.Stored (g : RingSize) (s : State P C α) (a b : Nat) : Prop :=
  ∀ q, a ≤ q → q < b → s.entered[q]? = some (s.ring.ring (q % g.size.toNat))

def EnqPc.Ok (g : RingSize) (s : State P C α) (pos : Nat) : EnqPc α → Prop
  | .loadHead _ _ => True
  | .loadTail _ _ oldHead => oldHead = UInt32.ofNat pos ∧ pos ≤ s.entered.length
  | .cmpset b objs oldHead n =>
    oldHead = UInt32.ofNat pos ∧ pos ≤ s.entered.length ∧ 0 < n ∧ b.Allows objs.length n ∧
      pos + n ≤ s.released + g.capacity.toNat
  | .store objs oldHead i =>
    oldHead = UInt32.ofNat pos ∧ objs = (s.entered.drop pos).take objs.length ∧
      i ≤ objs.length ∧ s.Stored g pos (pos + i)
  | .waitTail objs oldHead =>
    oldHead = UInt32.ofNat pos ∧ objs = (s.entered.drop pos).take objs.length ∧
      s.Stored g pos (pos + objs.length)
  | .storeTail objs oldHead =>
    oldHead = UInt32.ofNat pos ∧ objs = (s.entered.drop pos).take objs.length ∧
      s.Stored g pos (pos + objs.length) ∧ pos = s.published

def DeqPc.Ok (s : State P C α) (pos : Nat) : DeqPc α → Prop
  | .loadHead _ _ => True
  | .loadTail _ _ oldHead => oldHead = UInt32.ofNat pos ∧ pos ≤ s.claimed
  | .cmpset b num oldHead n =>
    oldHead = UInt32.ofNat pos ∧ pos ≤ s.claimed ∧ 0 < n ∧ b.Allows num n ∧ pos + n ≤ s.published
  | .load n oldHead got =>
    oldHead = UInt32.ofNat pos ∧ got.length ≤ n ∧ got = (s.entered.drop pos).take got.length
  | .waitTail oldHead got =>
    oldHead = UInt32.ofNat pos ∧ got = (s.entered.drop pos).take got.length
  | .storeTail oldHead got =>
    oldHead = UInt32.ofNat pos ∧ got = (s.entered.drop pos).take got.length ∧ pos = s.released

structure Inv (g : RingSize) (s : State P C α) : Prop where
  prodHead : s.ring.prodHead = UInt32.ofNat s.entered.length
  prodTail : s.ring.prodTail = UInt32.ofNat s.published
  consHead : s.ring.consHead = UInt32.ofNat s.claimed
  consTail : s.ring.consTail = UInt32.ofNat s.released
  producers : s.producers.Ok
  consumers : s.consumers.Ok
  there : s.claimed ≤ s.published
  room : s.entered.length ≤ s.released + g.capacity.toNat
  stored : s.Stored g s.released s.published
  enq_ok : ∀ p pc pos, s.enq p = some (pc, pos) → pc.Ok g s pos
  deq_ok : ∀ c pc pos, s.deq c = some (pc, pos) → pc.Ok s pos

/-- What a step of another call leaves of the ring to a call that has reserved `interval`. -/
structure Keeps (g : RingSize) (s t : State P C α) (interval : Option (Nat × Nat)) : Prop where
  entered : ∃ more, t.entered = s.entered ++ more
  claimed : s.claimed ≤ t.claimed
  released : s.released ≤ t.released
  published : s.published ≤ t.published
  slots : ∀ a n, interval = some (a, n) → ∀ q, a ≤ q → q < a + n → q < s.entered.length →
    t.ring.ring (q % g.size.toNat) = s.ring.ring (q % g.size.toNat)
  prodTail : ∀ a n, interval = some (a, n) → s.published = a → t.published = a
  consTail : ∀ a n, interval = some (a, n) → s.released = a → t.released = a

theorem Stored.keeps {g : RingSize} {s t : State P C α} {interval : Option (Nat × Nat)}
    (keeps : Keeps g s t interval) {a b n : Nat} (h : interval = some (a, n)) (hb : b ≤ a + n)
    (stored : s.Stored g a b) : t.Stored g a b := by
  intro q haq hqb
  have before := stored q haq hqb
  obtain ⟨more, heq⟩ := keeps.entered
  have inside : q < s.entered.length := by
    by_contra beyond
    rw [List.getElem?_eq_none (Nat.le_of_not_lt beyond)] at before
    cases before
  rw [heq, List.getElem?_append_left inside, before,
    keeps.slots a n h q haq (Nat.lt_of_lt_of_le hqb hb) inside]

/-- What stands from a position on stays when more is entered. -/
theorem taken_append {entered more objs : List α} {pos : Nat}
    (h : objs = (entered.drop pos).take objs.length) :
    objs = ((entered ++ more).drop pos).take objs.length := by
  have short : objs.length ≤ (entered.drop pos).length := by
    have := congrArg List.length h
    rw [List.length_take] at this
    omega
  rw [List.drop_append, List.take_append_of_le_length short]
  exact h

theorem EnqPc.Ok.keeps {g : RingSize} {s t : State P C α} {pos : Nat} {pc : EnqPc α}
    (ok : pc.Ok g s pos) (keeps : Keeps g s t (pc.reserved pos)) : pc.Ok g t pos := by
  obtain ⟨more, heq⟩ := keeps.entered
  have longer : s.entered.length ≤ t.entered.length := by
    rw [heq, List.length_append]
    exact Nat.le_add_right _ _
  cases pc with
  | loadHead b objs => trivial
  | loadTail b objs oldHead => exact ⟨ok.1, Nat.le_trans ok.2 longer⟩
  | cmpset b objs oldHead n =>
    obtain ⟨old, le, some, allows, fits⟩ := ok
    have := keeps.released
    exact ⟨old, Nat.le_trans le longer, some, allows, by omega⟩
  | store objs oldHead i =>
    obtain ⟨old, given, hi, stored⟩ := ok
    exact ⟨old, heq ▸ taken_append given, hi, Stored.keeps keeps rfl (by omega) stored⟩
  | waitTail objs oldHead =>
    obtain ⟨old, given, stored⟩ := ok
    exact ⟨old, heq ▸ taken_append given, Stored.keeps keeps rfl (Nat.le_refl _) stored⟩
  | storeTail objs oldHead =>
    obtain ⟨old, given, stored, first⟩ := ok
    exact ⟨old, heq ▸ taken_append given, Stored.keeps keeps rfl (Nat.le_refl _) stored,
      (keeps.prodTail pos _ rfl first.symm).symm⟩

theorem DeqPc.Ok.keeps {g : RingSize} {s t : State P C α} {pos : Nat} {pc : DeqPc α}
    (ok : pc.Ok s pos) (keeps : Keeps g s t (pc.reserved pos)) : pc.Ok t pos := by
  obtain ⟨more, heq⟩ := keeps.entered
  cases pc with
  | loadHead b num => trivial
  | loadTail b num oldHead => exact ⟨ok.1, Nat.le_trans ok.2 keeps.claimed⟩
  | cmpset b num oldHead n =>
    obtain ⟨old, le, some, allows, there⟩ := ok
    exact ⟨old, Nat.le_trans le keeps.claimed, some, allows, Nat.le_trans there keeps.published⟩
  | load n oldHead got =>
    obtain ⟨old, few, given⟩ := ok
    exact ⟨old, few, heq ▸ taken_append given⟩
  | waitTail oldHead got =>
    obtain ⟨old, given⟩ := ok
    exact ⟨old, heq ▸ taken_append given⟩
  | storeTail oldHead got =>
    obtain ⟨old, given, first⟩ := ok
    exact ⟨old, heq ▸ taken_append given, (keeps.consTail pos _ rfl first.symm).symm⟩

/-! ## Every access keeps the invariant -/

theorem Keeps.same {g : RingSize} {s t : State P C α} {interval : Option (Nat × Nat)}
    (ring : t.ring.ring = s.ring.ring) (entered : t.entered = s.entered)
    (published : t.published = s.published) (claimed : t.claimed = s.claimed)
    (released : t.released = s.released) : Keeps g s t interval where
  entered := ⟨[], by rw [entered, List.append_nil]⟩
  claimed := Nat.le_of_eq claimed.symm
  released := Nat.le_of_eq released.symm
  published := Nat.le_of_eq published.symm
  slots _ _ _ _ _ _ _ := by rw [ring]
  prodTail _ _ _ h := published.trans h
  consTail _ _ _ h := released.trans h

section
variable {g : RingSize} {s t : State P C α}

theorem Inv.producer_within (inv : Inv g s) {p : P} {pc : EnqPc α} {pos a n : Nat}
    (at_pc : s.enq p = some (pc, pos)) (h : pc.reserved pos = some (a, n)) :
    0 < n ∧ s.published ≤ a ∧ a + n ≤ s.entered.length := by
  have held : s.producers.holds p = some (a, n) := by
    simp only [State.producers, at_pc, Option.bind_some, h]
  exact ⟨inv.producers.positive p a n held, inv.producers.within p a n held⟩

theorem Inv.consumer_within (inv : Inv g s) {c : C} {pc : DeqPc α} {pos a n : Nat}
    (at_pc : s.deq c = some (pc, pos)) (h : pc.reserved pos = some (a, n)) :
    0 < n ∧ s.released ≤ a ∧ a + n ≤ s.claimed := by
  have held : s.consumers.holds c = some (a, n) := by
    simp only [State.consumers, at_pc, Option.bind_some, h]
  exact ⟨inv.consumers.positive c a n held, inv.consumers.within c a n held⟩

theorem Inv.producers_apart (inv : Inv g s) {p q : P} {pc pc' : EnqPc α} {pos pos' a n b m : Nat}
    (hne : p ≠ q) (hp : s.enq p = some (pc, pos)) (h : pc.reserved pos = some (a, n))
    (hq : s.enq q = some (pc', pos')) (h' : pc'.reserved pos' = some (b, m)) :
    a + n ≤ b ∨ b + m ≤ a := by
  apply inv.producers.apart p q a n b m hne
  · simp only [State.producers, hp, Option.bind_some, h]
  · simp only [State.producers, hq, Option.bind_some, h']

theorem Inv.consumers_apart (inv : Inv g s) {c d : C} {pc pc' : DeqPc α} {pos pos' a n b m : Nat}
    (hne : c ≠ d) (hc : s.deq c = some (pc, pos)) (h : pc.reserved pos = some (a, n))
    (hd : s.deq d = some (pc', pos')) (h' : pc'.reserved pos' = some (b, m)) :
    a + n ≤ b ∨ b + m ≤ a := by
  apply inv.consumers.apart c d a n b m hne
  · simp only [State.consumers, hc, Option.bind_some, h]
  · simp only [State.consumers, hd, Option.bind_some, h']

/-- A slot that is read holds what was entered there. -/
theorem Inv.deq_load (inv : Inv g s) {c : C} {n pos : Nat} {oldHead : UInt32} {got : List α}
    (at_pc : s.deq c = some (.load n oldHead got, pos)) (more : got.length < n) :
    got ++ [s.ring.ring (elemSlot g oldHead n got.length)] =
      (s.entered.drop pos).take (got.length + 1) := by
  obtain ⟨old, _, given⟩ := inv.deq_ok c _ pos at_pc
  obtain ⟨_, first, last⟩ := inv.consumer_within at_pc rfl
  have there := inv.there
  have room := inv.room
  have ordered := inv.producers.ordered
  have small := g.capacity_lt
  simp only [State.producers] at ordered
  rw [old, elemSlot_eq g pos more (by omega), List.take_add_one, ← given, List.getElem?_drop,
    inv.stored (pos + got.length) (by omega) (by omega)]
  rfl

theorem holds_update {T : Type u} [DecidableEq T] {γ : Type v} (f : T → Option γ)
    (part : γ → Option (Nat × Nat)) (t : T) (x : Option γ) :
    (fun u => (Function.update f t x u).bind part) =
      Function.update (fun u => (f u).bind part) t (x.bind part) := by
  funext u
  exact Function.apply_update (fun _ o => Option.bind o part) f t x u

section enqueue
variable [DecidableEq P]

/-- A step of the enqueue `p` leaves the other calls what they rely on. -/
theorem Inv.enq_calls (inv : Inv g s) {p : P} {next : Option (EnqPc α × Nat)}
    (henq : t.enq = Function.update s.enq p next) (hdeq : t.deq = s.deq)
    (own : ∀ pc pos, next = some (pc, pos) → pc.Ok g t pos)
    (others : ∀ q pc pos, p ≠ q → s.enq q = some (pc, pos) → Keeps g s t (pc.reserved pos))
    (dequeues : ∀ c pc pos, s.deq c = some (pc, pos) → Keeps g s t (pc.reserved pos)) :
    (∀ q pc pos, t.enq q = some (pc, pos) → pc.Ok g t pos) ∧
      ∀ c pc pos, t.deq c = some (pc, pos) → pc.Ok t pos := by
  constructor
  · intro q pc pos h
    rw [henq] at h
    by_cases hq : q = p
    · subst hq
      rw [Function.update_self] at h
      exact own pc pos h
    · rw [Function.update_of_ne hq] at h
      exact (inv.enq_ok q pc pos h).keeps (others q pc pos (Ne.symm hq) h)
  · intro c pc pos h
    rw [hdeq] at h
    exact (inv.deq_ok c pc pos h).keeps (dequeues c pc pos h)

theorem producers_take {p : P} {pc : EnqPc α} {pos n : Nat}
    (henq : t.enq = Function.update s.enq p (some (pc, pos)))
    (published : t.published = s.published)
    (entered : t.entered.length = s.entered.length + n)
    (reserved : pc.reserved pos = some (s.entered.length, n)) :
    t.producers = s.producers.take p n := by
  simp only [State.producers, Counter.take, henq, holds_update, Option.bind_some, reserved,
    published, entered]

theorem producers_giveBack {p : P} {n : Nat} (henq : t.enq = Function.update s.enq p none)
    (published : t.published = s.published + n) (entered : t.entered = s.entered) :
    t.producers = s.producers.giveBack p n := by
  simp only [State.producers, Counter.giveBack, henq, holds_update, Option.bind_none, published,
    entered]

theorem producers_same {p : P} {pc : EnqPc α} {pos : Nat} {next : Option (EnqPc α × Nat)}
    (at_pc : s.enq p = some (pc, pos)) (henq : t.enq = Function.update s.enq p next)
    (published : t.published = s.published) (entered : t.entered = s.entered)
    (same : (next.bind fun call => call.1.reserved call.2) = pc.reserved pos) :
    t.producers = s.producers := by
  have held : s.producers.holds p = pc.reserved pos := by
    simp only [State.producers, at_pc, Option.bind_some]
  rw [← held] at same
  simp only [State.producers] at same
  simp only [State.producers, henq, holds_update, published, entered, same]
  congr 1
  exact Function.update_eq_self p _

/-- An access that changes no word. -/
theorem Inv.enq_quiet (inv : Inv g s) (p : P) (next : Option (EnqPc α × Nat))
    (history : List (Event P C α))
    (same : (next.bind fun call => call.1.reserved call.2) = s.producers.holds p)
    (own : ∀ pc pos, next = some (pc, pos) → pc.Ok g s pos) :
    Inv g { s with enq := Function.update s.enq p next, history := history } := by
  have keeps : ∀ interval, Keeps g s
      { s with enq := Function.update s.enq p next, history := history } interval :=
    fun _ => .same rfl rfl rfl rfl rfl
  obtain ⟨enq_ok, deq_ok⟩ := inv.enq_calls (t := { s with
      enq := Function.update s.enq p next, history := history }) rfl rfl
    (fun pc pos h => (own pc pos h).keeps (keeps _)) (fun _ _ _ _ _ => keeps _)
    (fun _ _ _ _ => keeps _)
  have producers : ({ s with enq := Function.update s.enq p next, history := history } :
      State P C α).producers = s.producers := by
    simp only [State.producers, holds_update, same]
    congr 1
    exact Function.update_eq_self p _
  exact ⟨inv.prodHead, inv.prodTail, inv.consHead, inv.consTail, producers ▸ inv.producers,
    inv.consumers, inv.there, inv.room, inv.stored, enq_ok, deq_ok⟩

/-! ### What an enqueue does to the ring -/

def State.enqReserve (s : State P C α) (p : P) (objs : List α) (oldHead : UInt32) (n pos : Nat) :
    State P C α :=
  { s with
    ring := { s.ring with prodHead := oldHead + UInt32.ofNat n }
    enq := Function.update s.enq p (some (.store (objs.take n) oldHead 0, pos))
    entered := s.entered ++ objs.take n }

def State.enqStore (s : State P C α) (p : P) (objs : List α) (oldHead : UInt32) (i pos slot : Nat)
    (x : α) : State P C α :=
  { s with
    ring := { s.ring with ring := Function.update s.ring.ring slot x }
    enq := Function.update s.enq p (some (.store objs oldHead (i + 1), pos)) }

def State.enqPublish (s : State P C α) (p : P) (objs : List α) (oldHead : UInt32) : State P C α :=
  { s with
    ring := { s.ring with prodTail := oldHead + UInt32.ofNat objs.length }
    enq := Function.update s.enq p none
    history := s.history ++ [.enqueued p objs]
    published := s.published + objs.length }

/-- The compare and swap of the producers' head succeeds. -/
theorem Inv.enq_reserve (inv : Inv g s) {p : P} {b : Behavior} {objs : List α} {oldHead : UInt32}
    {n pos : Nat} (at_pc : s.enq p = some (.cmpset b objs oldHead n, pos))
    (timely : s.entered.length < pos + 2 ^ 32) (same : s.ring.prodHead = oldHead) :
    Inv g (s.enqReserve p objs oldHead n pos) := by
  obtain ⟨old, le, filled, allows, fits⟩ := inv.enq_ok p _ pos at_pc
  have here : pos = s.entered.length := by
    rw [inv.prodHead, old] at same
    exact ofNat_inj_of_near same.symm le timely
  have short : (objs.take n).length = n := by
    rw [List.length_take]
    exact Nat.min_eq_left allows.le
  have keeps : ∀ interval, Keeps g s (s.enqReserve p objs oldHead n pos) interval := fun _ =>
    ⟨⟨objs.take n, rfl⟩, Nat.le_refl _, Nat.le_refl _, Nat.le_refl _, fun _ _ _ _ _ _ _ => rfl,
      fun _ _ _ h => h, fun _ _ _ h => h⟩
  have own : (EnqPc.store (objs.take n) oldHead 0).Ok g
      (s.enqReserve p objs oldHead n pos) pos := by
    refine ⟨old, ?_, Nat.zero_le _, fun q hq hq' => ?_⟩
    · simp only [State.enqReserve, here, List.drop_left, List.take_length]
    · omega
  obtain ⟨enq_ok, deq_ok⟩ := inv.enq_calls (t := s.enqReserve p objs oldHead n pos) rfl rfl
    (fun _ _ h => by cases h; exact own) (fun _ _ _ _ _ => keeps _) (fun _ _ _ _ => keeps _)
  have taken : (s.enqReserve p objs oldHead n pos).producers = s.producers.take p n :=
    producers_take rfl rfl (by simp only [State.enqReserve, List.length_append, short])
      (by simp only [EnqPc.reserved, short, here])
  refine ⟨?_, inv.prodTail, inv.consHead, inv.consTail, ?_, inv.consumers, inv.there, ?_, ?_,
    enq_ok, deq_ok⟩
  · simp only [State.enqReserve, List.length_append, short, UInt32.ofNat_add, old, here]
  · rw [taken]
    apply inv.producers.take _ filled
    simp only [State.producers, at_pc, Option.bind_some, EnqPc.reserved]
  · simp only [State.enqReserve, List.length_append, short]
    omega
  · exact Stored.keeps (keeps (some (s.released, s.published))) rfl (Nat.le_add_left _ _) inv.stored

/-- An element is stored into a slot that no other call has reserved. -/
theorem Inv.enq_store (inv : Inv g s) {p : P} {objs : List α} {oldHead : UInt32} {i pos : Nat}
    {x : α} (at_pc : s.enq p = some (.store objs oldHead i, pos)) (hx : objs[i]? = some x) :
    Inv g (s.enqStore p objs oldHead i pos (elemSlot g oldHead objs.length i) x) := by
  obtain ⟨old, given, _, stored⟩ := inv.enq_ok p _ pos at_pc
  obtain ⟨_, first, last⟩ := inv.producer_within at_pc rfl
  have hi : i < objs.length := (List.getElem?_eq_some_iff.mp hx).1
  have room := inv.room
  have ordered := inv.consumers.ordered
  have there := inv.there
  have small := g.capacity_lt
  simp only [State.consumers] at ordered
  rw [old, elemSlot_eq g pos hi (by omega)]
  have entered : s.entered[pos + i]? = some x := by
    rw [given, List.getElem?_take, if_pos hi, List.getElem?_drop] at hx
    exact hx
  -- a slot changes only for the position that is stored
  have elsewhere : ∀ q, s.released ≤ q → q < s.released + g.capacity.toNat → q ≠ pos + i →
      Function.update s.ring.ring ((pos + i) % g.size.toNat) x (q % g.size.toNat) =
        s.ring.ring (q % g.size.toNat) := by
    intro q hq hq' hne
    exact Function.update_of_ne (slot_ne hne (by omega) (by omega)) _ _
  have keeps : ∀ interval, (∀ a n, interval = some (a, n) → s.released ≤ a ∧
      (pos + i < a ∨ a + n ≤ pos + i)) → Keeps g s
        (s.enqStore p objs (UInt32.ofNat pos) i pos ((pos + i) % g.size.toNat) x) interval := by
    intro interval apart
    refine ⟨⟨[], (List.append_nil _).symm⟩, Nat.le_refl _, Nat.le_refl _, Nat.le_refl _, ?_,
      fun _ _ _ h => h, fun _ _ _ h => h⟩
    intro a n h q haq hqn inside
    obtain ⟨after, outside⟩ := apart a n h
    exact elsewhere q (by omega) (by omega) (by omega)
  have own : (EnqPc.store objs (UInt32.ofNat pos) (i + 1)).Ok g
      (s.enqStore p objs (UInt32.ofNat pos) i pos ((pos + i) % g.size.toNat) x) pos := by
    refine ⟨rfl, given, hi, fun q hq hq' => ?_⟩
    by_cases new : q = pos + i
    · subst new
      simp only [State.enqStore, Function.update_self]
      exact entered
    · simp only [State.enqStore]
      rw [elsewhere q (by omega) (by omega) new]
      exact stored q hq (by omega)
  obtain ⟨enq_ok, deq_ok⟩ := inv.enq_calls
    (t := s.enqStore p objs (UInt32.ofNat pos) i pos ((pos + i) % g.size.toNat) x) rfl rfl
    (fun _ _ h => by cases h; exact own)
    (by
      intro q pc' pos' hne hq
      apply keeps
      intro a n h
      obtain ⟨_, first', last'⟩ := inv.producer_within hq h
      have apart := inv.producers_apart hne at_pc rfl hq h
      omega)
    (by
      intro c pc' pos' hc
      apply keeps
      intro a n h
      obtain ⟨_, first', last'⟩ := inv.consumer_within hc h
      omega)
  have held : (s.enqStore p objs (UInt32.ofNat pos) i pos ((pos + i) % g.size.toNat) x).producers =
      s.producers := producers_same at_pc rfl rfl rfl rfl
  refine ⟨inv.prodHead, inv.prodTail, inv.consHead, inv.consTail, ?_, inv.consumers, inv.there,
    inv.room, ?_, enq_ok, deq_ok⟩
  · rw [held]
    exact inv.producers
  · intro q hq hq'
    simp only [State.enqStore] at hq hq' ⊢
    rw [elsewhere q hq (by omega) (by omega)]
    exact inv.stored q hq hq'

/-- The tail of the producers moves over the slots of the call whose turn it is. -/
theorem Inv.enq_publish (inv : Inv g s) {p : P} {objs : List α} {oldHead : UInt32} {pos : Nat}
    (at_pc : s.enq p = some (.storeTail objs oldHead, pos)) :
    Inv g (s.enqPublish p objs oldHead) := by
  obtain ⟨old, given, stored, first⟩ := inv.enq_ok p _ pos at_pc
  obtain ⟨filled, _, last⟩ := inv.producer_within at_pc rfl
  have there := inv.there
  have keeps : ∀ interval, (∀ a n, interval = some (a, n) → s.published ≠ a) →
      Keeps g s (s.enqPublish p objs oldHead) interval := fun _ elsewhere =>
    ⟨⟨[], (List.append_nil _).symm⟩, Nat.le_refl _, Nat.le_refl _, Nat.le_add_right _ _,
      fun _ _ _ _ _ _ _ => rfl, fun a n h here => False.elim (elsewhere a n h here),
      fun _ _ _ h => h⟩
  obtain ⟨enq_ok, deq_ok⟩ := inv.enq_calls (t := s.enqPublish p objs oldHead) rfl rfl
    (fun _ _ h => by cases h)
    (by
      intro q pc' pos' hne hq
      apply keeps
      intro a n h
      obtain ⟨filled', first', last'⟩ := inv.producer_within hq h
      have apart := inv.producers_apart hne at_pc rfl hq h
      omega)
    (by
      intro c pc' pos' hc
      apply keeps
      intro a n h
      obtain ⟨filled', first', last'⟩ := inv.consumer_within hc h
      omega)
  have back : (s.enqPublish p objs oldHead).producers = s.producers.giveBack p objs.length :=
    producers_giveBack rfl rfl rfl
  refine ⟨inv.prodHead, ?_, inv.consHead, inv.consTail, ?_, inv.consumers,
    Nat.le_trans there (Nat.le_add_right _ _), inv.room, ?_, enq_ok, deq_ok⟩
  · simp only [State.enqPublish, UInt32.ofNat_add, old, first]
  · rw [back]
    apply inv.producers.giveBack
    simp only [State.producers, at_pc, Option.bind_some, EnqPc.reserved, first]
  · intro q hq hq'
    by_cases before : q < s.published
    · exact inv.stored q hq before
    · exact stored q (by omega) (by simp only [State.enqPublish] at hq'; omega)

theorem Inv.enqStep (inv : Inv g s) {p : P} {pc : EnqPc α} {pos : Nat}
    (at_pc : s.enq p = some (pc, pos)) (timely : pc.Timely s.entered.length pos) :
    Inv g (s.enqAccess g p pc pos) := by
  have ok := inv.enq_ok p pc pos at_pc
  have held : s.producers.holds p = pc.reserved pos := by
    simp only [State.producers, at_pc, Option.bind_some]
  cases pc with
  | loadHead b objs =>
    simp only [State.enqAccess, EnqPc.step, EnqPc.enters, EnqPc.publishes, EnqPc.counted,
      Sum.elim_inl,
      List.append_nil, Nat.add_zero]
    refine inv.enq_quiet p _ _ held.symm ?_
    intro pc' pos' h
    cases h
    exact ⟨inv.prodHead, Nat.le_refl _⟩
  | loadTail b objs oldHead =>
    obtain ⟨old, le⟩ := ok
    have room := inv.room
    have free := freeEntries_le g (show pos ≤ s.released + g.capacity.toNat by omega)
    simp only [State.enqAccess, EnqPc.step, EnqPc.enters, EnqPc.publishes, EnqPc.counted,
      List.append_nil,
      Nat.add_zero, inv.consTail, old]
    generalize (g.capacity + UInt32.ofNat s.released - UInt32.ofNat pos).toNat = entries at free
    by_cases none : granted b objs.length entries = 0
    · simp only [none, if_true, Sum.elim_inr]
      exact inv.enq_quiet p _ _ held.symm (fun _ _ h => by cases h)
    · simp only [none, if_false, Sum.elim_inl, List.append_nil]
      refine inv.enq_quiet p _ _ held.symm ?_
      intro pc' pos' h
      cases h
      have few := granted_le b objs.length entries
      exact ⟨rfl, le, Nat.pos_of_ne_zero none, granted_allows b _ _ none, by omega⟩
  | cmpset b objs oldHead n =>
    simp only [State.enqAccess, EnqPc.step, EnqPc.enters, EnqPc.publishes, EnqPc.counted,
      Nat.add_zero]
    by_cases same : s.ring.prodHead = oldHead
    · simp only [same, if_true, Sum.elim_inl, List.append_nil]
      exact inv.enq_reserve at_pc timely same
    · simp only [same, if_false, Sum.elim_inl, List.append_nil]
      exact inv.enq_quiet p _ _ held.symm (fun _ _ h => by cases h; trivial)
  | store objs oldHead i =>
    obtain ⟨old, given, hi, stored⟩ := ok
    simp only [State.enqAccess, EnqPc.step, EnqPc.enters, EnqPc.publishes, EnqPc.counted,
      List.append_nil,
      Nat.add_zero]
    cases hx : objs[i]? with
    | some x =>
      simp only [Sum.elim_inl, List.append_nil]
      exact inv.enq_store at_pc hx
    | none =>
      simp only [Sum.elim_inl, List.append_nil]
      refine inv.enq_quiet p _ _ held.symm ?_
      intro pc' pos' h
      cases h
      have all : objs.length ≤ i := List.getElem?_eq_none_iff.mp hx
      exact ⟨old, given, fun q hq hq' => stored q hq (by omega)⟩
  | waitTail objs oldHead =>
    obtain ⟨old, given, stored⟩ := ok
    obtain ⟨_, first, last⟩ := inv.producer_within at_pc rfl
    have ordered := inv.consumers.ordered
    have there := inv.there
    have room := inv.room
    have small := g.capacity.toNat_lt
    simp only [State.consumers] at ordered
    simp only [State.enqAccess, EnqPc.step, EnqPc.enters, EnqPc.publishes, EnqPc.counted,
      List.append_nil,
      Nat.add_zero]
    by_cases turn : s.ring.prodTail = oldHead
    · simp only [turn, if_true, Sum.elim_inl, List.append_nil]
      refine inv.enq_quiet p _ _ held.symm ?_
      intro pc' pos' h
      cases h
      rw [inv.prodTail, old] at turn
      exact ⟨old, given, stored, (ofNat_inj_of_near turn first (by omega)).symm⟩
    · simp only [turn, if_false, Sum.elim_inl, List.append_nil]
      refine inv.enq_quiet p _ _ held.symm ?_
      intro pc' pos' h
      cases h
      exact ⟨old, given, stored⟩
  | storeTail objs oldHead =>
    simp only [State.enqAccess, EnqPc.step, EnqPc.enters, EnqPc.publishes, Sum.elim_inr,
      List.append_nil]
    exact inv.enq_publish at_pc

end enqueue

section dequeue
variable [DecidableEq C]

theorem Inv.deq_calls (inv : Inv g s) {c : C} {next : Option (DeqPc α × Nat)}
    (henq : t.enq = s.enq) (hdeq : t.deq = Function.update s.deq c next)
    (own : ∀ pc pos, next = some (pc, pos) → pc.Ok t pos)
    (enqueues : ∀ p pc pos, s.enq p = some (pc, pos) → Keeps g s t (pc.reserved pos))
    (others : ∀ d pc pos, c ≠ d → s.deq d = some (pc, pos) → Keeps g s t (pc.reserved pos)) :
    (∀ p pc pos, t.enq p = some (pc, pos) → pc.Ok g t pos) ∧
      ∀ d pc pos, t.deq d = some (pc, pos) → pc.Ok t pos := by
  constructor
  · intro p pc pos h
    rw [henq] at h
    exact (inv.enq_ok p pc pos h).keeps (enqueues p pc pos h)
  · intro d pc pos h
    rw [hdeq] at h
    by_cases hd : d = c
    · subst hd
      rw [Function.update_self] at h
      exact own pc pos h
    · rw [Function.update_of_ne hd] at h
      exact (inv.deq_ok d pc pos h).keeps (others d pc pos (Ne.symm hd) h)

theorem Inv.deq_quiet (inv : Inv g s) (c : C) (next : Option (DeqPc α × Nat))
    (history : List (Event P C α))
    (same : (next.bind fun call => call.1.reserved call.2) = s.consumers.holds c)
    (own : ∀ pc pos, next = some (pc, pos) → pc.Ok s pos) :
    Inv g { s with deq := Function.update s.deq c next, history := history } := by
  have keeps : ∀ interval, Keeps g s
      { s with deq := Function.update s.deq c next, history := history } interval :=
    fun _ => .same rfl rfl rfl rfl rfl
  obtain ⟨enq_ok, deq_ok⟩ := inv.deq_calls (t := { s with
      deq := Function.update s.deq c next, history := history }) rfl rfl
    (fun pc pos h => (own pc pos h).keeps (keeps _)) (fun _ _ _ _ => keeps _)
    (fun _ _ _ _ _ => keeps _)
  have consumers : ({ s with deq := Function.update s.deq c next, history := history } :
      State P C α).consumers = s.consumers := by
    simp only [State.consumers, holds_update, same]
    congr 1
    exact Function.update_eq_self c _
  exact ⟨inv.prodHead, inv.prodTail, inv.consHead, inv.consTail, inv.producers,
    consumers ▸ inv.consumers, inv.there, inv.room, inv.stored, enq_ok, deq_ok⟩

theorem consumers_take {c : C} {pc : DeqPc α} {pos n : Nat}
    (hdeq : t.deq = Function.update s.deq c (some (pc, pos))) (released : t.released = s.released)
    (claimed : t.claimed = s.claimed + n) (reserved : pc.reserved pos = some (s.claimed, n)) :
    t.consumers = s.consumers.take c n := by
  simp only [State.consumers, Counter.take, hdeq, holds_update, Option.bind_some, reserved,
    released, claimed]

theorem consumers_giveBack {c : C} {n : Nat} (hdeq : t.deq = Function.update s.deq c none)
    (released : t.released = s.released + n) (claimed : t.claimed = s.claimed) :
    t.consumers = s.consumers.giveBack c n := by
  simp only [State.consumers, Counter.giveBack, hdeq, holds_update, Option.bind_none, released,
    claimed]

/-! ### What a dequeue does to the ring -/

def State.deqReserve (s : State P C α) (c : C) (oldHead : UInt32) (n pos : Nat) : State P C α :=
  { s with
    ring := { s.ring with consHead := oldHead + UInt32.ofNat n }
    deq := Function.update s.deq c (some (.load n oldHead [], pos))
    claimed := s.claimed + n }

def State.deqRelease (s : State P C α) (c : C) (oldHead : UInt32) (got : List α) : State P C α :=
  { s with
    ring := { s.ring with consTail := oldHead + UInt32.ofNat got.length }
    deq := Function.update s.deq c none
    history := s.history ++ [.dequeued c got]
    released := s.released + got.length }

/-- The compare and swap of the consumers' head succeeds. -/
theorem Inv.deq_reserve (inv : Inv g s) {c : C} {b : Behavior} {num : Nat} {oldHead : UInt32}
    {n pos : Nat} (at_pc : s.deq c = some (.cmpset b num oldHead n, pos))
    (timely : s.claimed < pos + 2 ^ 32) (same : s.ring.consHead = oldHead) :
    Inv g (s.deqReserve c oldHead n pos) := by
  obtain ⟨old, le, filled, allows, there⟩ := inv.deq_ok c _ pos at_pc
  have here : pos = s.claimed := by
    rw [inv.consHead, old] at same
    exact ofNat_inj_of_near same.symm le timely
  have keeps : ∀ interval, Keeps g s (s.deqReserve c oldHead n pos) interval := fun _ =>
    ⟨⟨[], (List.append_nil _).symm⟩, Nat.le_add_right _ _, Nat.le_refl _, Nat.le_refl _,
      fun _ _ _ _ _ _ _ => rfl, fun _ _ _ h => h, fun _ _ _ h => h⟩
  have own : (DeqPc.load n oldHead []).Ok (s.deqReserve c oldHead n pos) pos :=
    ⟨old, Nat.zero_le _, by simp⟩
  obtain ⟨enq_ok, deq_ok⟩ := inv.deq_calls (t := s.deqReserve c oldHead n pos) rfl rfl
    (fun _ _ h => by cases h; exact own) (fun _ _ _ _ => keeps _) (fun _ _ _ _ _ => keeps _)
  have taken : (s.deqReserve c oldHead n pos).consumers = s.consumers.take c n :=
    consumers_take rfl rfl rfl (by simp only [DeqPc.reserved, here])
  refine ⟨inv.prodHead, inv.prodTail, ?_, inv.consTail, inv.producers, ?_, ?_, inv.room,
    inv.stored, enq_ok, deq_ok⟩
  · simp only [State.deqReserve, UInt32.ofNat_add, old, here]
  · rw [taken]
    apply inv.consumers.take _ filled
    simp only [State.consumers, at_pc, Option.bind_some, DeqPc.reserved]
  · simp only [State.deqReserve]
    omega

/-- The tail of the consumers moves over the slots of the call whose turn it is. -/
theorem Inv.deq_release (inv : Inv g s) {c : C} {oldHead : UInt32} {got : List α} {pos : Nat}
    (at_pc : s.deq c = some (.storeTail oldHead got, pos)) :
    Inv g (s.deqRelease c oldHead got) := by
  obtain ⟨old, given, first⟩ := inv.deq_ok c _ pos at_pc
  obtain ⟨filled, _, last⟩ := inv.consumer_within at_pc rfl
  have there := inv.there
  have keeps : ∀ interval, (∀ a n, interval = some (a, n) → s.released ≠ a) →
      Keeps g s (s.deqRelease c oldHead got) interval := fun _ elsewhere =>
    ⟨⟨[], (List.append_nil _).symm⟩, Nat.le_refl _, Nat.le_add_right _ _, Nat.le_refl _,
      fun _ _ _ _ _ _ _ => rfl, fun _ _ _ h => h,
      fun a n h here => False.elim (elsewhere a n h here)⟩
  obtain ⟨enq_ok, deq_ok⟩ := inv.deq_calls (t := s.deqRelease c oldHead got) rfl rfl
    (fun _ _ h => by cases h)
    (by
      intro p pc' pos' hp
      apply keeps
      intro a n h
      obtain ⟨filled', first', last'⟩ := inv.producer_within hp h
      omega)
    (by
      intro d pc' pos' hne hd
      apply keeps
      intro a n h
      obtain ⟨filled', first', last'⟩ := inv.consumer_within hd h
      have apart := inv.consumers_apart hne at_pc rfl hd h
      omega)
  have back : (s.deqRelease c oldHead got).consumers = s.consumers.giveBack c got.length :=
    consumers_giveBack rfl rfl rfl
  refine ⟨inv.prodHead, inv.prodTail, inv.consHead, ?_, inv.producers, ?_, there, ?_, ?_,
    enq_ok, deq_ok⟩
  · simp only [State.deqRelease, UInt32.ofNat_add, old, first]
  · rw [back]
    apply inv.consumers.giveBack
    simp only [State.consumers, at_pc, Option.bind_some, DeqPc.reserved, first]
  · have room := inv.room
    simp only [State.deqRelease]
    omega
  · intro q hq hq'
    simp only [State.deqRelease] at hq
    exact inv.stored q (by omega) hq'

theorem Inv.deqStep (inv : Inv g s) {c : C} {pc : DeqPc α} {pos : Nat}
    (at_pc : s.deq c = some (pc, pos)) (timely : pc.Timely s.claimed pos) :
    Inv g (s.deqAccess g c pc pos) := by
  have ok := inv.deq_ok c pc pos at_pc
  have held : s.consumers.holds c = pc.reserved pos := by
    simp only [State.consumers, at_pc, Option.bind_some]
  cases pc with
  | loadHead b num =>
    simp only [State.deqAccess, DeqPc.step, DeqPc.claims, DeqPc.releases, DeqPc.counted,
      Sum.elim_inl,
      List.append_nil, Nat.add_zero]
    refine inv.deq_quiet c _ _ held.symm ?_
    intro pc' pos' h
    cases h
    exact ⟨inv.consHead, Nat.le_refl _⟩
  | loadTail b num oldHead =>
    obtain ⟨old, le⟩ := ok
    have seen := sub_toNat_le (Nat.le_trans le inv.there)
    simp only [State.deqAccess, DeqPc.step, DeqPc.claims, DeqPc.releases, DeqPc.counted,
      Nat.add_zero, inv.prodTail,
      old]
    generalize (UInt32.ofNat s.published - UInt32.ofNat pos).toNat = entries at seen
    by_cases none : granted b num entries = 0
    · simp only [none, if_true, Sum.elim_inr]
      exact inv.deq_quiet c _ _ held.symm (fun _ _ h => by cases h)
    · simp only [none, if_false, Sum.elim_inl, List.append_nil]
      refine inv.deq_quiet c _ _ held.symm ?_
      intro pc' pos' h
      cases h
      have few := granted_le b num entries
      have there := inv.there
      exact ⟨rfl, le, Nat.pos_of_ne_zero none, granted_allows b _ _ none, by omega⟩
  | cmpset b num oldHead n =>
    simp only [State.deqAccess, DeqPc.step, DeqPc.claims, DeqPc.releases, DeqPc.counted,
      Nat.add_zero]
    by_cases same : s.ring.consHead = oldHead
    · simp only [same, if_true, Sum.elim_inl, List.append_nil]
      exact inv.deq_reserve at_pc timely same
    · simp only [same, if_false, Sum.elim_inl, List.append_nil, Nat.add_zero]
      exact inv.deq_quiet c _ _ held.symm (fun _ _ h => by cases h; trivial)
  | load n oldHead got =>
    obtain ⟨old, few, given⟩ := ok
    simp only [State.deqAccess, DeqPc.step, DeqPc.claims, DeqPc.releases, DeqPc.counted,
      Nat.add_zero]
    by_cases more : got.length < n
    · simp only [more, if_true, Sum.elim_inl, List.append_nil]
      refine inv.deq_quiet c _ _ held.symm ?_
      intro pc' pos' h
      cases h
      have next := inv.deq_load at_pc more
      refine ⟨old, ?_, ?_⟩
      · rw [List.length_append]
        exact more
      · rw [List.length_append]
        exact next
    · have all : got.length = n := by omega
      simp only [more, if_false, Sum.elim_inl, List.append_nil]
      refine inv.deq_quiet c _ _ ?_ ?_
      · rw [held]
        simp only [Option.bind_some, DeqPc.reserved, all]
      · intro pc' pos' h
        cases h
        exact ⟨old, given⟩
  | waitTail oldHead got =>
    obtain ⟨old, given⟩ := ok
    obtain ⟨_, first, last⟩ := inv.consumer_within at_pc rfl
    have ordered := inv.producers.ordered
    have there := inv.there
    have room := inv.room
    have small := g.capacity.toNat_lt
    simp only [State.producers] at ordered
    simp only [State.deqAccess, DeqPc.step, DeqPc.claims, DeqPc.releases, DeqPc.counted,
      Nat.add_zero]
    by_cases turn : s.ring.consTail = oldHead
    · simp only [turn, if_true, Sum.elim_inl, List.append_nil]
      refine inv.deq_quiet c _ _ held.symm ?_
      intro pc' pos' h
      cases h
      rw [inv.consTail, old] at turn
      exact ⟨old, given, (ofNat_inj_of_near turn first (by omega)).symm⟩
    · simp only [turn, if_false, Sum.elim_inl, List.append_nil]
      refine inv.deq_quiet c _ _ held.symm ?_
      intro pc' pos' h
      cases h
      exact ⟨old, given⟩
  | storeTail oldHead got =>
    simp only [State.deqAccess, DeqPc.step, DeqPc.claims, DeqPc.releases, Sum.elim_inr,
      Nat.add_zero]
    exact inv.deq_release at_pc

end dequeue
end

/-! ## Every run -/

theorem initial_inv (g : RingSize) (memory : Nat → α) :
    Inv g (State.initial memory : State P C α) where
  prodHead := rfl
  prodTail := rfl
  consHead := rfl
  consTail := rfl
  producers := .start
  consumers := .start
  there := Nat.le_refl _
  room := Nat.zero_le _
  stored _ _ h := False.elim (Nat.not_lt_zero _ h)
  enq_ok _ _ _ h := by cases h
  deq_ok _ _ _ h := by cases h

section
variable [DecidableEq P] [DecidableEq C] {g : RingSize} {s : State P C α}

theorem Inv.step {t : State P C α} (inv : Inv g s) (h : Step g s t) : Inv g t := by
  cases h with
  | enqCall p b objs idle small =>
    refine inv.enq_quiet p _ _ ?_ (fun _ _ h => by cases h; trivial)
    simp only [State.producers, idle, Option.bind_some, Option.bind_none, EnqPc.reserved]
  | enqStep p pc pos at_pc timely => exact inv.enqStep at_pc timely
  | deqCall c b num idle small =>
    refine inv.deq_quiet c _ _ ?_ (fun _ _ h => by cases h; trivial)
    simp only [State.consumers, idle, Option.bind_some, Option.bind_none, DeqPc.reserved]
  | deqStep c pc pos at_pc timely => exact inv.deqStep at_pc timely

theorem reachable_inv (h : (rteRing P C α g).Reachable s) : Inv g s := by
  refine h.invariant (I := Inv g) ?_ fun s t inv step => inv.step step
  rintro s ⟨memory, rfl⟩
  exact initial_inv g memory

end

end RteRing
