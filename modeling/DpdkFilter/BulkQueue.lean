import DpdkFilter.Interleaving
import Mathlib.Data.List.Basic
import Mathlib.Logic.Function.Basic

/-!
# A bounded queue of which several elements are taken or put at once

Calls overlap, but each takes effect at one moment between call and return: it puts
elements at the end of the queue or takes them from the front, or is refused and
returns with nothing. This is what a concurrent queue is compared with.
-/

namespace BulkQueue

open Interleaving

universe u v w
variable {P : Type u} {C : Type v} {α : Type w}

/-- Whether a call insists on the number of elements it asked for. -/
inductive Behavior where
  | exactly
  | upTo
  deriving DecidableEq

def Behavior.Allows : Behavior → Nat → Nat → Prop
  | .exactly, asked, n => n = asked
  | .upTo, asked, n => n ≤ asked

theorem Behavior.Allows.le {b : Behavior} {asked n : Nat} (h : b.Allows asked n) : n ≤ asked := by
  cases b with
  | exactly => exact Nat.le_of_eq h
  | upTo => exact h

/-- What callers see: the calls and the elements accepted or handed out on return. -/
inductive Event (P : Type u) (C : Type v) (α : Type w) where
  | enqueue (p : P) (b : Behavior) (objs : List α)
  | enqueued (p : P) (accepted : List α)
  | dequeue (c : C) (b : Behavior) (num : Nat)
  | dequeued (c : C) (got : List α)

inductive EnqCall (α : Type w) where
  | called (b : Behavior) (objs : List α)
  | done (accepted : List α)

inductive DeqCall (α : Type w) where
  | called (b : Behavior) (num : Nat)
  | done (got : List α)

/-- `inserted` and `removed` list the calls in the order in which they took effect. -/
structure State (P : Type u) (C : Type v) (α : Type w) where
  queue : List α
  enq : P → Option (EnqCall α)
  deq : C → Option (DeqCall α)
  history : List (Event P C α)
  inserted : List (P × List α)
  removed : List (C × List α)

variable [DecidableEq P] [DecidableEq C]

/-- A call may be refused whatever the queue holds, and one that may do fewer than asked may do
any number of them: this is about what calls do, not about when they do nothing. -/
inductive Step (capacity : Nat) : State P C α → State P C α → Prop where
  | enqCall (s : State P C α) (p : P) (b : Behavior) (objs : List α) (idle : s.enq p = none) :
      Step capacity s { s with
        enq := Function.update s.enq p (some (.called b objs))
        history := s.history ++ [.enqueue p b objs] }
  | enqRefuse (s : State P C α) (p : P) (b : Behavior) (objs : List α)
      (called : s.enq p = some (.called b objs)) :
      Step capacity s { s with
        enq := Function.update s.enq p none
        history := s.history ++ [.enqueued p []] }
  | enqEffect (s : State P C α) (p : P) (b : Behavior) (objs : List α) (n : Nat)
      (called : s.enq p = some (.called b objs)) (allowed : b.Allows objs.length n)
      (room : s.queue.length + n ≤ capacity) :
      Step capacity s { s with
        queue := s.queue ++ objs.take n
        enq := Function.update s.enq p (some (.done (objs.take n)))
        inserted := s.inserted ++ [(p, objs.take n)] }
  | enqReturn (s : State P C α) (p : P) (accepted : List α)
      (done : s.enq p = some (.done accepted)) :
      Step capacity s { s with
        enq := Function.update s.enq p none
        history := s.history ++ [.enqueued p accepted] }
  | deqCall (s : State P C α) (c : C) (b : Behavior) (num : Nat) (idle : s.deq c = none) :
      Step capacity s { s with
        deq := Function.update s.deq c (some (.called b num))
        history := s.history ++ [.dequeue c b num] }
  | deqRefuse (s : State P C α) (c : C) (b : Behavior) (num : Nat)
      (called : s.deq c = some (.called b num)) :
      Step capacity s { s with
        deq := Function.update s.deq c none
        history := s.history ++ [.dequeued c []] }
  | deqEffect (s : State P C α) (c : C) (b : Behavior) (num n : Nat)
      (called : s.deq c = some (.called b num)) (allowed : b.Allows num n)
      (there : n ≤ s.queue.length) :
      Step capacity s { s with
        queue := s.queue.drop n
        deq := Function.update s.deq c (some (.done (s.queue.take n)))
        removed := s.removed ++ [(c, s.queue.take n)] }
  | deqReturn (s : State P C α) (c : C) (got : List α) (done : s.deq c = some (.done got)) :
      Step capacity s { s with
        deq := Function.update s.deq c none
        history := s.history ++ [.dequeued c got] }

/-- An empty queue that nobody has called. -/
def State.initial : State P C α := ⟨[], fun _ => none, fun _ => none, [], [], []⟩

variable (P C α) in
def bulkQueue (capacity : Nat) : System (State P C α) where
  Init s := s = .initial
  Step := Step capacity

/-! ## Nothing is lost, doubled or reordered -/

def elements {T : Type u} (log : List (T × List α)) : List α := log.flatMap Prod.snd

theorem elements_append {T : Type u} (log : List (T × List α)) (t : T) (xs : List α) :
    elements (log ++ [(t, xs)]) = elements log ++ xs := by
  simp [elements]

/-- The non-empty entries of one party. -/
def entriesOf {T : Type u} [DecidableEq T] (t : T) (log : List (T × List α)) : List α :=
  elements (log.filter fun e => e.1 = t)

theorem entriesOf_append {T : Type u} [DecidableEq T] (t u : T) (log : List (T × List α))
    (xs : List α) :
    entriesOf t (log ++ [(u, xs)]) = entriesOf t log ++ if u = t then xs else [] := by
  by_cases h : u = t
  · simp [entriesOf, h, elements]
  · simp [entriesOf, h]

/-- What the returned calls of a producer put in, in order. -/
def acceptedFrom (p : P) (history : List (Event P C α)) : List α :=
  history.flatMap fun e =>
    match e with
    | .enqueued p' accepted => if p' = p then accepted else []
    | _ => []

def handedTo (c : C) (history : List (Event P C α)) : List α :=
  history.flatMap fun e =>
    match e with
    | .dequeued c' got => if c' = c then got else []
    | _ => []

/-- What a call in progress has put in already. -/
def EnqCall.inserted : EnqCall α → List α
  | .called _ _ => []
  | .done accepted => accepted

def DeqCall.removed : DeqCall α → List α
  | .called _ _ => []
  | .done got => got

structure Inv (capacity : Nat) (s : State P C α) : Prop where
  bounded : s.queue.length ≤ capacity
  fifo : elements s.inserted = elements s.removed ++ s.queue
  accepted : ∀ p, entriesOf p s.inserted =
    acceptedFrom p s.history ++ (s.enq p).elim [] EnqCall.inserted
  handed : ∀ c, entriesOf c s.removed =
    handedTo c s.history ++ (s.deq c).elim [] DeqCall.removed

/-- A call's part of the log and of the history move together. -/
theorem balanced {T : Type u} [DecidableEq T] {γ : Type v} (f : T → Option γ) (part : γ → List α)
    (log past : T → List α) (t : T) (x : Option γ) (logged said : List α)
    (before : ∀ u, log u = past u ++ (f u).elim [] part)
    (same : (f t).elim [] part ++ logged = said ++ x.elim [] part) (u : T) :
    log u ++ (if t = u then logged else []) =
      (past u ++ if t = u then said else []) ++ (Function.update f t x u).elim [] part := by
  by_cases h : t = u
  · subst h
    rw [if_pos rfl, if_pos rfl, Function.update_self, before, List.append_assoc, same,
      List.append_assoc]
  · rw [if_neg h, if_neg h, Function.update_of_ne (Ne.symm h), before, List.append_nil,
      List.append_nil]

theorem Inv.step {capacity : Nat} {s t : State P C α} (inv : Inv capacity s)
    (h : Step capacity s t) : Inv capacity t := by
  obtain ⟨bounded, fifo, accepted, handed⟩ := inv
  cases h with
  | enqCall p b objs idle =>
    refine ⟨bounded, fifo, fun q => ?_, fun c => ?_⟩
    · have := balanced s.enq EnqCall.inserted _ _ p (some (.called b objs)) [] [] accepted
        (by simp [idle, EnqCall.inserted]) q
      simpa [acceptedFrom] using this
    · simpa [handedTo] using handed c
  | enqRefuse p b objs called =>
    refine ⟨bounded, fifo, fun q => ?_, fun c => ?_⟩
    · have := balanced s.enq EnqCall.inserted _ _ p none [] [] accepted
        (by simp [called, EnqCall.inserted]) q
      simpa [acceptedFrom] using this
    · simpa [handedTo] using handed c
  | enqEffect p b objs n called allowed room =>
    have short : (objs.take n).length = n := by
      rw [List.length_take]
      exact Nat.min_eq_left allowed.le
    refine ⟨?_, ?_, fun q => ?_, handed⟩
    · simp only [List.length_append, short]
      exact room
    · rw [elements_append, fifo, List.append_assoc]
    · have := balanced s.enq EnqCall.inserted _ _ p (some (.done (objs.take n))) (objs.take n) []
        accepted (by simp [called, EnqCall.inserted]) q
      simpa [entriesOf_append] using this
  | enqReturn p got done =>
    refine ⟨bounded, fifo, fun q => ?_, fun c => ?_⟩
    · have := balanced s.enq EnqCall.inserted _ _ p none [] got accepted
        (by simp [done, EnqCall.inserted]) q
      simpa [acceptedFrom] using this
    · simpa [handedTo] using handed c
  | deqCall c b num idle =>
    refine ⟨bounded, fifo, fun p => ?_, fun d => ?_⟩
    · simpa [acceptedFrom] using accepted p
    · have := balanced s.deq DeqCall.removed _ _ c (some (.called b num)) [] [] handed
        (by simp [idle, DeqCall.removed]) d
      simpa [handedTo] using this
  | deqRefuse c b num called =>
    refine ⟨bounded, fifo, fun p => ?_, fun d => ?_⟩
    · simpa [acceptedFrom] using accepted p
    · have := balanced s.deq DeqCall.removed _ _ c none [] [] handed
        (by simp [called, DeqCall.removed]) d
      simpa [handedTo] using this
  | deqEffect c b num n called allowed there =>
    refine ⟨?_, ?_, accepted, fun d => ?_⟩
    · simp only [List.length_drop]
      omega
    · rw [elements_append, fifo, List.append_assoc, List.take_append_drop]
    · have := balanced s.deq DeqCall.removed _ _ c (some (.done (s.queue.take n)))
        (s.queue.take n) [] handed (by simp [called, DeqCall.removed]) d
      simpa [entriesOf_append] using this
  | deqReturn c got done =>
    refine ⟨bounded, fifo, fun p => ?_, fun d => ?_⟩
    · simpa [acceptedFrom] using accepted p
    · have := balanced s.deq DeqCall.removed _ _ c none [] got handed
        (by simp [done, DeqCall.removed]) d
      simpa [handedTo] using this

theorem reachable_inv {capacity : Nat} {s : State P C α}
    (h : (bulkQueue P C α capacity).Reachable s) : Inv capacity s := by
  refine h.invariant (I := Inv capacity) ?_ fun s t inv step => inv.step step
  rintro s rfl
  exact ⟨Nat.zero_le _, rfl, fun _ => rfl, fun _ => rfl⟩

end BulkQueue
