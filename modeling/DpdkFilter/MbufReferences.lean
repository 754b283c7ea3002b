import DpdkFilter.Interleaving
import DpdkFilter.Shares
import Mathlib.Data.Finset.Prod
import Mathlib.Data.Multiset.Bind

/-!
# Reference counts of mbufs

Threads share mbufs, attach mbufs to the data of others and free them, each access to a
count a step of its own. A count that is read as one is written without an atomic
instruction, since whoever reads it is taken to be the only holder. Pools of pinned external
buffers are left out.
-/

namespace MbufReferences

open Interleaving Shares

universe u v w
variable {T : Type u} {M : Type v} {E : Type w}

/-- What has a reference count: an mbuf, or the shared info of an external buffer. -/
inductive Owner (M : Type v) (E : Type w) where
  | mbuf (m : M)
  | shinfo (e : E)
deriving DecidableEq

/-- Where `rte_mbuf_refcnt_update` and `rte_mbuf_ext_refcnt_update` are called from. `zeroed`
says that the mbuf to be freed was the last reference by a subtraction, not by a read of one. -/
inductive Caller (M : Type v) where
  | share (m : M)
  | attach (mi m : M)
  | detach (m : M) (zeroed : Bool)
deriving DecidableEq

/-- The value added, as a `uint16_t`. -/
def Caller.value : Caller M → Nat
  | .share _ => 1
  | .attach _ _ => 1
  | .detach _ _ => 65535

/-- Between its accesses a thread is in `rte_mbuf_refcnt_update`, `one` if it has read a
count of one; in `rte_pktmbuf_attach`; or in `rte_pktmbuf_free_seg` and what that calls. -/
inductive Pc (M : Type v) (E : Type w) where
  | idle
  | update (c : Owner M E) (one : Bool) (k : Caller M)
  | attach (mi m : M) (c : Owner M E)
  | prefree (m : M)
  | last (m : M) (zeroed : Bool)
  | freeOwner (c : Owner M E) (m : M) (zeroed : Bool)
  | rawFree (m : M) (k : Option (M × Bool))
  | detach (m : M) (zeroed : Bool)
  | unlink (m : M) (zeroed : Bool)
deriving DecidableEq

/-- `attached m` is the owner of the data of an mbuf that is not direct. `extBufs` are the
external buffers in the hands of the application, `held` the pointers each thread has. -/
structure State (T : Type u) (M : Type v) (E : Type w) where
  refcnt : Owner M E → Nat
  attached : M → Option (Owner M E)
  next : M → Option M
  nbSegs : M → Nat
  pool : Multiset M
  extBufs : Multiset E
  held : T → Multiset M
  pc : T → Pc M E

/-- `rte_mbuf_from_indirect`, or the shared info. -/
def State.owner (s : State T M E) (m : M) : Owner M E := (s.attached m).getD (.mbuf m)

/-- What `rte_mbuf_refcnt_update` writes once it has read the count. -/
def rteMbufRefcntUpdate (one : Bool) (refcnt value : Nat) : Nat :=
  if one then (value + 1) % 2 ^ 16 else (refcnt + value) % 2 ^ 16

/-- Where the caller goes on with the value returned to it. -/
def Caller.resume (c : Owner M E) (v : Nat) : Caller M → Pc M E
  | .share _ => .idle
  | .attach mi m => .attach mi m c
  | .detach m zeroed => if v = 0 then .freeOwner c m zeroed else .detach m zeroed

/-- What the caller holds when its call ends here. -/
def Caller.back : Caller M → Multiset M
  | .share m => m ::ₘ {m}
  | .attach _ _ => 0
  | .detach _ _ => 0

/-- The rest of a detach, where the data of the freed mbuf belonged to another one. -/
def afterFree : Option (M × Bool) → Pc M E
  | none => .idle
  | some (m, zeroed) => .detach m zeroed

section
variable [DecidableEq T] [DecidableEq M] [DecidableEq E]

def State.goto (s : State T M E) (t : T) (pc : Pc M E) : State T M E :=
  { s with pc := Function.update s.pc t pc }

def State.store (s : State T M E) (c : Owner M E) (v : Nat) : State T M E :=
  { s with refcnt := Function.update s.refcnt c v }

def State.give (s : State T M E) (t : T) (ms : Multiset M) : State T M E :=
  { s with held := Function.update s.held t (s.held t + ms) }

def State.take (s : State T M E) (t : T) (ms : Multiset M) : State T M E :=
  { s with held := Function.update s.held t (s.held t - ms) }

def State.attach (s : State T M E) (m : M) (c : Option (Owner M E)) : State T M E :=
  { s with attached := Function.update s.attached m c }

def State.link (s : State T M E) (m : M) (next : Option M) (nbSegs : Nat) : State T M E :=
  { s with
    next := Function.update s.next m next
    nbSegs := Function.update s.nbSegs m nbSegs }

/-- The next access of a thread. -/
def State.access (s : State T M E) (t : T) : Pc M E → State T M E
  | .idle => s
  | .update c one k =>
    let v := rteMbufRefcntUpdate one (s.refcnt c) k.value
    ((s.store c v).goto t (k.resume c v)).give t k.back
  | .attach mi m _ =>
    (((s.attach mi (some (s.owner m))).link mi none 1).goto t .idle).give t (mi ::ₘ {m})
  | .prefree m =>
    let v := rteMbufRefcntUpdate false (s.refcnt (.mbuf m)) 65535
    (s.store (.mbuf m) v).goto t (if v = 0 then .last m true else .idle)
  | .last m zeroed =>
    match s.attached m with
    | none => s.goto t (.unlink m zeroed)
    | some c => s.goto t (.update c (s.refcnt c == 1) (.detach m zeroed))
  | .freeOwner (.mbuf md) m zeroed =>
    ((s.link md none 1).store (.mbuf md) 1).goto t (.rawFree md (some (m, zeroed)))
  | .freeOwner (.shinfo e) m zeroed =>
    { s with extBufs := e ::ₘ s.extBufs }.goto t (.detach m zeroed)
  | .rawFree m k => { s with pool := m ::ₘ s.pool }.goto t (afterFree k)
  | .detach m zeroed => (s.attach m none).goto t (.unlink m zeroed)
  | .unlink m zeroed =>
    let s' := s.link m none 1
    (if zeroed then s'.store (.mbuf m) 1 else s').goto t (.rawFree m none)

/-- Whoever holds a pointer may pass it on, share it, attach to its data or free it. An mbuf
is written, and attached, only by a holder who reads a count of one. With `alone`, whoever
attaches to an mbuf that is not direct is its only holder. -/
inductive Step (alone : Bool) : State T M E → State T M E → Prop where
  | alloc (s : State T M E) (t : T) (m : M) (idle : s.pc t = .idle) (there : m ∈ s.pool) :
      Step alone s ({ s with pool := s.pool.erase m }.give t {m})
  | hand (s : State T M E) (t u : T) (m : M) (idle : s.pc t = .idle) (holds : m ∈ s.held t) :
      Step alone s ((s.take t {m}).give u {m})
  | write (s : State T M E) (t : T) (m : M) (next : Option M) (nbSegs : Nat)
      (idle : s.pc t = .idle) (holds : m ∈ s.held t) (only : s.refcnt (.mbuf m) = 1) :
      Step alone s (s.link m next nbSegs)
  | share (s : State T M E) (t : T) (m : M) (idle : s.pc t = .idle) (holds : m ∈ s.held t) :
      Step alone s ((s.take t {m}).goto t
        (.update (.mbuf m) (s.refcnt (.mbuf m) == 1) (.share m)))
  | attach (s : State T M E) (t : T) (mi m : M) (idle : s.pc t = .idle)
      (holds : mi ::ₘ {m} ≤ s.held t) (direct : s.attached mi = none)
      (only : s.refcnt (.mbuf mi) = 1)
      (sole : alone = true → s.attached m = none ∨ s.refcnt (.mbuf m) = 1) :
      Step alone s ((s.take t (mi ::ₘ {m})).goto t
        (.update (s.owner m) (s.refcnt (s.owner m) == 1) (.attach mi m)))
  | attachExtbuf (s : State T M E) (t : T) (m : M) (e : E) (idle : s.pc t = .idle)
      (holds : m ∈ s.held t) (direct : s.attached m = none) (only : s.refcnt (.mbuf m) = 1)
      (own : e ∈ s.extBufs) :
      Step alone s (({ s with extBufs := s.extBufs.erase e }.store (.shinfo e) 1).attach m
        (some (.shinfo e)))
  | free (s : State T M E) (t : T) (m : M) (idle : s.pc t = .idle) (holds : m ∈ s.held t) :
      Step alone s ((s.take t {m}).goto t
        (if s.refcnt (.mbuf m) = 1 then .last m false else .prefree m))
  | access (s : State T M E) (t : T) (busy : s.pc t ≠ .idle) :
      Step alone s (s.access t (s.pc t))

end

/-! ## The references

A pointer held, an mbuf attached to the data and an mbuf lying in its pool each count once. -/

/-- The reference to an mbuf under way to be freed, unless it is already subtracted. -/
def kept (m : M) (zeroed : Bool) : Multiset (Owner M E) := if zeroed then 0 else {.mbuf m}

/-- An mbuf whose count was brought to zero and is not yet set again. -/
def unset (m : M) (zeroed : Bool) : Multiset (Owner M E) := if zeroed then {.mbuf m} else 0

/-- The references of the call that a thread is in. -/
def Pc.refs : Pc M E → Multiset (Owner M E)
  | .idle => 0
  | .update _ _ (.share m) => {.mbuf m}
  | .update _ _ (.attach mi m) => .mbuf mi ::ₘ {.mbuf m}
  | .update _ _ (.detach m zeroed) => kept m zeroed
  | .attach mi m c => c ::ₘ .mbuf mi ::ₘ {.mbuf m}
  | .prefree m => {.mbuf m}
  | .last m zeroed => kept m zeroed
  | .freeOwner _ m zeroed => kept m zeroed
  | .rawFree m k => .mbuf m ::ₘ k.elim 0 fun x => kept x.1 x.2
  | .detach m zeroed => kept m zeroed
  | .unlink m zeroed => kept m zeroed

/-- What the thread alone has, at a count of zero. -/
def Pc.zeros : Pc M E → Multiset (Owner M E)
  | .idle => 0
  | .update _ _ (.share _) => 0
  | .update _ _ (.attach _ _) => 0
  | .update _ _ (.detach m zeroed) => unset m zeroed
  | .attach _ _ _ => 0
  | .prefree _ => 0
  | .last m zeroed => unset m zeroed
  | .freeOwner c m zeroed => c ::ₘ unset m zeroed
  | .rawFree _ k => k.elim 0 fun x => unset x.1 x.2
  | .detach m zeroed => unset m zeroed
  | .unlink m zeroed => unset m zeroed

def ownerRefs : Option (Owner M E) → Multiset (Owner M E)
  | none => 0
  | some c => {c}

/-- The mbuf that still points to its owner but has given up its reference. -/
def Pc.left : Pc M E → Option M
  | .idle => none
  | .update _ _ _ => none
  | .attach _ _ _ => none
  | .prefree _ => none
  | .last _ _ => none
  | .freeOwner _ m _ => some m
  | .rawFree _ k => k.map Prod.fst
  | .detach m _ => some m
  | .unlink _ _ => none

section
variable [Fintype T] [DecidableEq M]

/-- The owner on which an mbuf has a reference. -/
def State.live (s : State T M E) (m : M) : Option (Owner M E) :=
  if ∃ t, (s.pc t).left = some m then none else s.attached m

def State.threadRefs (s : State T M E) (t : T) : Multiset (Owner M E) :=
  (s.held t).map .mbuf + (s.pc t).refs

def State.references [Fintype M] (s : State T M E) : Multiset (Owner M E) :=
  ∑ t, s.threadRefs t + ∑ m, ownerRefs (s.live m) + s.pool.map .mbuf

variable [Fintype M] [DecidableEq T] [DecidableEq E]

/-- There are no more references than the sixteen bits of a count can tell, which the source
leaves to its callers. -/
def State.Fits (s : State T M E) : Prop := ∀ c, s.references.count c < 2 ^ 16

/-- `rte_pktmbuf_init` of each mbuf, all in the pool. The shared info of an external buffer
is set when it is attached. -/
def State.populated (T : Type u) (M : Type v) (E : Type w) [Fintype M] [Fintype E] :
    State T M E where
  refcnt
    | .mbuf _ => 1
    | .shinfo _ => 0
  attached _ := none
  next _ := none
  nbSegs _ := 1
  pool := (Finset.univ : Finset M).val
  extBufs := (Finset.univ : Finset E).val
  held _ := 0
  pc _ := .idle

/-- Runs in which no count comes to `2 ^ 16`, where it would wrap. -/
def sharing (T : Type u) (M : Type v) (E : Type w) [Fintype T] [Fintype M] [Fintype E]
    [DecidableEq T] [DecidableEq M] [DecidableEq E] (alone : Bool) : System (State T M E) where
  Init s := s = .populated T M E
  Step s s' := Step alone s s' ∧ s'.Fits

end

/-! ## Running it -/

inductive Move (T : Type u) (M : Type v) (E : Type w) where
  | alloc (t : T) (m : M)
  | hand (t u : T) (m : M)
  | write (t : T) (m : M) (next : Option M) (nbSegs : Nat)
  | share (t : T) (m : M)
  | attach (t : T) (mi m : M)
  | attachExtbuf (t : T) (m : M) (e : E)
  | free (t : T) (m : M)
  | access (t : T)

section
variable [Fintype T] [Fintype M] [Fintype E] [DecidableEq T] [DecidableEq M] [DecidableEq E]

instance (s : State T M E) : Decidable s.Fits :=
  decidable_of_iff ((∀ m, s.references.count (.mbuf m) < 2 ^ 16) ∧
      ∀ e, s.references.count (.shinfo e) < 2 ^ 16)
    ⟨fun h c => by cases c with | mbuf m => exact h.1 m | shinfo e => exact h.2 e,
      fun h => ⟨fun m => h (.mbuf m), fun e => h (.shinfo e)⟩⟩

/-- The state after a move, if the move can be made. -/
def moved (alone : Bool) (s : State T M E) : Move T M E → Option (State T M E)
  | .alloc t m =>
    if s.pc t = .idle ∧ m ∈ s.pool then
      some ({ s with pool := s.pool.erase m }.give t {m})
    else none
  | .hand t u m =>
    if s.pc t = .idle ∧ m ∈ s.held t then some ((s.take t {m}).give u {m}) else none
  | .write t m next nbSegs =>
    if s.pc t = .idle ∧ m ∈ s.held t ∧ s.refcnt (.mbuf m) = 1 then some (s.link m next nbSegs)
    else none
  | .share t m =>
    if s.pc t = .idle ∧ m ∈ s.held t then
      some ((s.take t {m}).goto t (.update (.mbuf m) (s.refcnt (.mbuf m) == 1) (.share m)))
    else none
  | .attach t mi m =>
    if s.pc t = .idle ∧ mi ::ₘ {m} ≤ s.held t ∧ s.attached mi = none ∧
        s.refcnt (.mbuf mi) = 1 ∧
        (alone = true → s.attached m = none ∨ s.refcnt (.mbuf m) = 1) then
      some ((s.take t (mi ::ₘ {m})).goto t
        (.update (s.owner m) (s.refcnt (s.owner m) == 1) (.attach mi m)))
    else none
  | .attachExtbuf t m e =>
    if s.pc t = .idle ∧ m ∈ s.held t ∧ s.attached m = none ∧ s.refcnt (.mbuf m) = 1 ∧
        e ∈ s.extBufs then
      some (({ s with extBufs := s.extBufs.erase e }.store (.shinfo e) 1).attach m
        (some (.shinfo e)))
    else none
  | .free t m =>
    if s.pc t = .idle ∧ m ∈ s.held t then
      some ((s.take t {m}).goto t
        (if s.refcnt (.mbuf m) = 1 then .last m false else .prefree m))
    else none
  | .access t => if s.pc t ≠ .idle then some (s.access t (s.pc t)) else none

def exec (alone : Bool) (s : State T M E) (mv : Move T M E) : Option (State T M E) :=
  (moved alone s mv).filter fun s' => s'.Fits

omit [Fintype T] [Fintype M] [Fintype E] in
theorem moved_step {alone : Bool} {s s' : State T M E} {mv : Move T M E}
    (h : moved alone s mv = some s') : Step alone s s' := by
  cases mv
  all_goals
    simp only [moved] at h
    split at h
    rotate_left
    · cases h
    rename_i ready
    cases h
  case alloc t m => exact .alloc s t m ready.1 ready.2
  case hand t u m => exact .hand s t u m ready.1 ready.2
  case write t m next nbSegs => exact .write s t m next nbSegs ready.1 ready.2.1 ready.2.2
  case share t m => exact .share s t m ready.1 ready.2
  case attach t mi m =>
    obtain ⟨idle, holds, direct, only, sole⟩ := ready
    exact .attach s t mi m idle holds direct only sole
  case attachExtbuf t m e =>
    obtain ⟨idle, holds, direct, only, own⟩ := ready
    exact .attachExtbuf s t m e idle holds direct only own
  case free t m => exact .free s t m ready.1 ready.2
  case access t => exact .access s t ready

theorem follow_reachable {alone : Bool} {moves : List (Move T M E)} {s : State T M E}
    (h : System.follow (fun mv s => exec alone s mv) moves (.populated T M E) = some s) :
    (sharing T M E alone).Reachable s := by
  refine (System.Reachable.init (S := sharing T M E alone) rfl).follow (fun mv s t step => ?_) h
  obtain ⟨moved, fits⟩ := Option.filter_eq_some_iff.mp step
  exact ⟨moved_step moved, of_decide_eq_true fits⟩

end

end MbufReferences
