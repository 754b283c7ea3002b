import DpdkFilter.MbufHolders

/-!
# The references under each access

The count of an owner is the number of references to it before and after each access: what a
call takes from the hands of its thread, adds to a count or subtracts from it is accounted for.
-/

namespace MbufReferences

open Interleaving Shares

universe u v w
variable {T : Type u} {M : Type v} {E : Type w}

section
variable [Fintype T] [DecidableEq M] [DecidableEq E] [Fintype M] [DecidableEq T]
variable {s s' : State T M E} {t u : T}

/-! ## What a step does to the references -/

theorem references_changed {m : M} (threads : ∀ u, u ≠ t → s'.threadRefs u = s.threadRefs u)
    (live : ∀ n, n ≠ m → s'.live n = s.live n) (c : Owner M E) :
    s'.references.count c + ((s.threadRefs t).count c + (ownerRefs (s.live m)).count c +
        (s.pool.map .mbuf).count c) =
      s.references.count c + ((s'.threadRefs t).count c + (ownerRefs (s'.live m)).count c +
        (s'.pool.map .mbuf).count c) := by
  have first := congrArg (Multiset.count c) (sum_changed threads)
  have second := congrArg (Multiset.count c) (sum_changed (f := fun n => ownerRefs (s'.live n))
    (g := fun n => ownerRefs (s.live n)) (t := m) fun n hn => by rw [live n hn])
  simp only [Multiset.count_add] at first second
  rw [count_references_eq, count_references_eq]
  omega

omit [Fintype M] in
theorem zeros_changed (others : ∀ u, u ≠ t → s'.pc u = s.pc u) (c : Owner M E) :
    s'.zeros.count c + (s.pc t).zeros.count c = s.zeros.count c + (s'.pc t).zeros.count c := by
  have changed := congrArg (Multiset.count c) (sum_changed (f := fun u => (s'.pc u).zeros)
    (g := fun u => (s.pc u).zeros) (t := t) fun u hu => by rw [others u hu])
  simp only [Multiset.count_add] at changed
  exact changed

omit [Fintype M] [DecidableEq T] [DecidableEq E] in
theorem live_same (left : ∀ u, (s'.pc u).left = (s.pc u).left)
    (attached : s'.attached = s.attached) : s'.live = s.live := by
  funext m
  simp only [State.live, left, attached]

omit [DecidableEq T] [Fintype M] [DecidableEq E] in
theorem live_self {m : M} (stays : ∀ u, (s.pc u).left ≠ some m) : s.live m = s.attached m := by
  unfold State.live
  rw [if_neg fun ⟨u, gone⟩ => stays u gone]

omit [DecidableEq T] [Fintype M] [DecidableEq E] in
theorem live_other {m n : M} (left : ∀ u, (s'.pc u).left = some n ↔ (s.pc u).left = some n)
    {x : Option (Owner M E)} (attached : s'.attached = Function.update s.attached m x)
    (apart : n ≠ m) : s'.live n = s.live n := by
  simp only [State.live, left, attached, Function.update_of_ne apart]

/-- A step that moves references within the calls and the hands of threads. -/
theorem State.Moves.rearranged (moves : s.Moves s' t) (inv : s.Inv)
    (threads : ∑ u, s'.threadRefs u = ∑ u, s.threadRefs u) (zeros : s'.zeros = s.zeros)
    (live : s'.live = s.live) (pool : s'.pool = s.pool) (extBufs : s'.extBufs = s.extBufs)
    (refcnt : s'.refcnt = s.refcnt) (own : s'.PcInv (s'.pc t)) : s'.Inv := by
  have references : s'.references = s.references := by
    rw [State.references, State.references, threads, live, pool]
  refine moves.inv inv (fun c => ?_) (fun c => ?_) (fun m md h => ?_) (fun m h => ?_) own
    fun c => ?_
  · rw [refcnt, references, inv.counted]
  · rw [zeros, extBufs, refcnt, inv.zeroed]
  · exact .inl (live ▸ h)
  · exact .inl (pool ▸ h)
  · rw [references]
    exact inv.fits c

/-- What the step of a thread can change of the references, beside one mbuf's to its owner. -/
def State.near (s : State T M E) (t : T) (m : M) : Multiset (Owner M E) :=
  s.threadRefs t + ownerRefs (s.live m) + s.pool.map .mbuf

theorem near_changed {m : M} (others : ∀ u, u ≠ t → s'.pc u = s.pc u)
    (held : ∀ u, u ≠ t → s'.held u = s.held u) (live : ∀ n, n ≠ m → s'.live n = s.live n)
    (c : Owner M E) :
    s'.references.count c + (s.near t m).count c =
      s.references.count c + (s'.near t m).count c := by
  have threads : ∀ u, u ≠ t → s'.threadRefs u = s.threadRefs u := by
    intro u hu
    rw [State.threadRefs, State.threadRefs, held u hu, others u hu]
  simpa only [State.near, Multiset.count_add] using references_changed threads live c

/-- A step that counts what it does to the references. -/
theorem State.Moves.recounted (moves : s.Moves s' t) (inv : s.Inv) {m : M}
    (held : ∀ u, u ≠ t → s'.held u = s.held u) (live : ∀ n, n ≠ m → s'.live n = s.live n)
    (counts : ∀ c, s'.refcnt c + (s.near t m).count c = s.refcnt c + (s'.near t m).count c)
    (zeros : ∀ c, (s'.pc t).zeros.count c + (s'.extBufs.map .shinfo).count c +
        (1 - s.refcnt c) =
      (s.pc t).zeros.count c + (s.extBufs.map .shinfo).count c + (1 - s'.refcnt c))
    (direct : ∀ md, s'.live m = some (.mbuf md) →
      s.live m = some (.mbuf md) ∨ s'.attached md = none)
    (pooled : ∀ m ∈ s'.pool, m ∈ s.pool ∨ s'.Ready m)
    (own : s'.PcInv (s'.pc t)) (fits : s'.Fits) : s'.Inv := by
  refine moves.inv inv (fun c => ?_) (fun c => ?_) (fun n md h => ?_) pooled own fits
  · have all := near_changed moves.others held live c
    have before := inv.counted c
    have changed := counts c
    omega
  · have all := zeros_changed moves.others c
    have before := inv.zeroed c
    have changed := zeros c
    omega
  · by_cases same : n = m
    · subst same
      exact direct md h
    · exact .inl (live n same ▸ h)

/-! ## Each step keeps the invariant -/

/-- A pointer taken from the hands of a thread into the call it makes. -/
theorem State.Inv.called (inv : s.Inv) (idle : s.pc t = .idle) {ms : Multiset M} {p : Pc M E}
    (holds : ms ≤ s.held t) (refs : p.refs = ms.map .mbuf) (zeros : p.zeros = 0)
    (left : p.left = none) (own : ((s.take t ms).goto t p).PcInv p) :
    ((s.take t ms).goto t p).Inv := by
  have others : ∀ u, u ≠ t → ((s.take t ms).goto t p).pc u = s.pc u := fun u hu =>
    Function.update_of_ne hu ..
  have here : ((s.take t ms).goto t p).pc t = p := Function.update_self ..
  have moves : s.Moves ((s.take t ms).goto t p) t :=
    ⟨others, fun c => .inl rfl, fun m => .inl ⟨rfl, rfl, rfl⟩⟩
  refine moves.rearranged inv (Finset.sum_congr rfl fun u _ => ?_)
    (Finset.sum_congr rfl fun u _ => ?_) (live_same (fun u => ?_) rfl) rfl rfl rfl
    (here.symm ▸ own)
  all_goals by_cases same : u = t
  · subst same
    have split : s.held u - ms + ms = s.held u := tsub_add_cancel_of_le holds
    rw [State.threadRefs, here, refs]
    simp only [State.threadRefs, State.goto, State.take, Function.update_self, idle, Pc.refs]
    rw [← Multiset.map_add, split, add_zero]
  · rw [State.threadRefs, others u same]
    simp only [State.threadRefs, State.goto, State.take, Function.update_of_ne same]
  · rw [same, here, zeros, idle]
    rfl
  · rw [others u same]
  · rw [same, here, left, idle]
    rfl
  · rw [others u same]

theorem State.Inv.share (inv : s.Inv) {m : M} (idle : s.pc t = .idle) (holds : m ∈ s.held t) :
    ((s.take t {m}).goto t
      (.update (.mbuf m) (s.refcnt (.mbuf m) == 1) (.share m))).Inv :=
  inv.called idle (Multiset.singleton_le.mpr holds) rfl rfl rfl ⟨rfl, fun h => eq_of_beq h⟩

theorem State.Inv.attach (inv : s.Inv) {mi m : M} (idle : s.pc t = .idle)
    (holds : mi ::ₘ {m} ≤ s.held t) (direct : s.attached mi = none)
    (only : s.refcnt (.mbuf mi) = 1)
    (sole : s.attached m = none ∨ s.refcnt (.mbuf m) = 1) :
    ((s.take t (mi ::ₘ {m})).goto t
      (.update (s.owner m) (s.refcnt (s.owner m) == 1) (.attach mi m))).Inv :=
  inv.called idle holds rfl rfl rfl ⟨direct, only, rfl, sole, fun h => eq_of_beq h⟩

theorem State.Inv.free (inv : s.Inv) {m : M} (idle : s.pc t = .idle) (holds : m ∈ s.held t) :
    ((s.take t {m}).goto t
      (if s.refcnt (.mbuf m) = 1 then .last m false else .prefree m)).Inv := by
  split
  · rename_i one
    exact inv.called idle (Multiset.singleton_le.mpr holds) rfl rfl rfl one
  · exact inv.called idle (Multiset.singleton_le.mpr holds) rfl rfl rfl trivial

theorem State.Inv.hand (inv : s.Inv) {m : M} (idle : s.pc t = .idle) (holds : m ∈ s.held t) :
    ((s.take t {m}).give u {m}).Inv := by
  have moves : s.Moves ((s.take t {m}).give u {m}) t :=
    ⟨fun v _ => rfl, fun c => .inl rfl, fun m => .inl ⟨rfl, rfl, rfl⟩⟩
  refine moves.rearranged inv ?_ rfl (live_same (fun v => rfl) rfl) rfl rfl rfl
    (show State.PcInv _ (s.pc t) by rw [idle]; trivial)
  have taken : ∑ v, ((s.take t {m}).held v).map (Owner.mbuf (E := E)) + (s.held t).map .mbuf =
      ∑ v, (s.held v).map .mbuf + (s.held t - {m}).map .mbuf :=
    sum_update (Multiset.map (Owner.mbuf (E := E))) s.held t _
  have given : ∑ v, (((s.take t {m}).give u {m}).held v).map (Owner.mbuf (E := E)) +
        ((s.take t {m}).held u).map .mbuf =
      ∑ v, ((s.take t {m}).held v).map .mbuf + ((s.take t {m}).held u + {m}).map .mbuf :=
    sum_update (Multiset.map (Owner.mbuf (E := E))) (s.take t {m}).held u _
  have whole : (s.held t).map (Owner.mbuf (E := E)) =
      (s.held t - {m}).map .mbuf + Multiset.map .mbuf {m} := by
    rw [← Multiset.map_add, tsub_add_cancel_of_le (Multiset.singleton_le.mpr holds)]
  have refs : ∑ v, (((s.take t {m}).give u {m}).held v).map (Owner.mbuf (E := E)) =
      ∑ v, (s.held v).map .mbuf := by
    rw [Multiset.map_add] at given
    ext c
    have first := congrArg (Multiset.count c) taken
    have second := congrArg (Multiset.count c) given
    have third := congrArg (Multiset.count c) whole
    simp only [Multiset.count_add] at first second third
    omega
  simp only [State.threadRefs, Finset.sum_add_distrib]
  rw [refs]
  rfl

theorem State.Inv.write (inv : s.Inv) {m : M} {next : Option M} {nbSegs : Nat}
    (idle : s.pc t = .idle) (holds : m ∈ s.held t) (only : s.refcnt (.mbuf m) = 1) :
    (s.link m next nbSegs).Inv := by
  have moves : s.Moves (s.link m next nbSegs) t := by
    refine ⟨fun v _ => rfl, fun c => .inl rfl, fun n => ?_⟩
    by_cases same : n = m
    · subst same
      exact .inr ⟨holds_held holds, only.le⟩
    · exact .inl ⟨rfl, Function.update_of_ne same .., Function.update_of_ne same ..⟩
  refine moves.rearranged inv rfl rfl (live_same (fun v => rfl) rfl) rfl rfl rfl ?_
  change State.PcInv _ (s.pc t)
  rw [idle]
  trivial

theorem State.Inv.alloc (inv : s.Inv) {m : M} (idle : s.pc t = .idle) (there : m ∈ s.pool)
    (fits : ({ s with pool := s.pool.erase m }.give t {m}).Fits) :
    ({ s with pool := s.pool.erase m }.give t {m}).Inv := by
  have moves : s.Moves ({ s with pool := s.pool.erase m }.give t {m}) t :=
    ⟨fun v _ => rfl, fun c => .inl rfl, fun m => .inl ⟨rfl, rfl, rfl⟩⟩
  have live : ({ s with pool := s.pool.erase m }.give t {m}).live = s.live :=
    live_same (fun v => rfl) rfl
  refine moves.recounted inv (m := m) (fun u hu => Function.update_of_ne hu ..)
    (fun n _ => by rw [live]) (fun c => ?_) (fun c => rfl) (fun md h => .inl (live ▸ h))
    (fun n h => .inl (Multiset.mem_of_mem_erase h)) ?_ fits
  · have whole := congrArg (fun pool => (pool.map (Owner.mbuf (E := E))).count c)
      (Multiset.cons_erase there)
    simp only [Multiset.map_cons, Multiset.count_cons] at whole
    rw [State.near, State.near, live]
    simp only [State.threadRefs, State.give, Function.update_self, Multiset.map_add,
      Multiset.map_singleton, Multiset.count_add, Multiset.count_singleton]
    omega
  · change State.PcInv _ (s.pc t)
    rw [idle]
    trivial

theorem State.Inv.attachExtbuf (inv : s.Inv) {m : M} {e : E} (idle : s.pc t = .idle)
    (holds : m ∈ s.held t) (direct : s.attached m = none) (only : s.refcnt (.mbuf m) = 1)
    (own : e ∈ s.extBufs)
    (fits : (({ s with extBufs := s.extBufs.erase e }.store (.shinfo e) 1).attach m
      (some (.shinfo e))).Fits) :
    (({ s with extBufs := s.extBufs.erase e }.store (.shinfo e) 1).attach m
      (some (.shinfo e))).Inv := by
  have stays : ∀ u, (s.pc u).left ≠ some m :=
    inv.not_left (holds_held holds) (by rw [idle]; exact (Option.some_ne_none m).symm)
  have before : s.live m = none := (live_self stays).trans direct
  have new : (({ s with extBufs := s.extBufs.erase e }.store (.shinfo e) 1).attach m
      (some (.shinfo e))).live m = some (.shinfo e) := by
    rw [live_self]
    · exact Function.update_self ..
    · exact stays
  have none : s.refcnt (.shinfo e) = 0 := inv.unowned own
  refine State.Moves.recounted (s := s) (t := t) (m := m)
    ⟨fun _ _ => rfl, fun c => ?_, fun n => ?_⟩ inv
    (fun _ _ => rfl) (fun n hn => live_other (s := s) (fun _ => Iff.rfl) rfl hn) (fun c => ?_)
    (fun c => ?_) (fun md h => ?_) (fun n h => .inl h) ?_ fits
  · by_cases same : c = .shinfo e
    · exact .inr (.inr ⟨e, own, same⟩)
    · exact .inl (Function.update_of_ne same ..)
  · by_cases same : n = m
    · subst same
      exact .inr ⟨holds_held holds, only.le⟩
    · exact .inl ⟨Function.update_of_ne same .., rfl, rfl⟩
  · rw [State.near, State.near, new, before]
    simp only [State.threadRefs, State.attach, State.store, ownerRefs, Multiset.count_add,
      Multiset.count_singleton, Multiset.count_zero]
    by_cases same : c = .shinfo e
    · subst same
      rw [Function.update_self, if_pos rfl]
      omega
    · rw [Function.update_of_ne same, if_neg same]
  · have whole := congrArg (fun ext => (ext.map (Owner.shinfo (M := M))).count c)
      (Multiset.cons_erase own)
    simp only [Multiset.map_cons, Multiset.count_cons] at whole
    simp only [State.attach, State.store]
    by_cases same : c = .shinfo e
    · subst same
      rw [if_pos rfl] at whole
      rw [Function.update_self, none]
      omega
    · rw [if_neg same] at whole
      rw [Function.update_of_ne same]
      omega
  · rw [new] at h
    cases h
  · change State.PcInv _ (s.pc t)
    rw [idle]
    trivial

omit [Fintype T] [DecidableEq M] [Fintype M] [DecidableEq T] [DecidableEq E] in
theorem holds_refs {c : Owner M E} (h : c ∈ (s.pc t).refs) : s.Holds t c :=
  .inl (Multiset.mem_add.mpr (.inr h))

omit [Fintype T] [DecidableEq M] [Fintype M] [DecidableEq T] [DecidableEq E] in
theorem holds_freed (m : M) (zeroed : Bool) (inRefs : kept m zeroed ≤ (s.pc t).refs)
    (inZeros : unset m zeroed ≤ (s.pc t).zeros) : s.Holds t (.mbuf m) := by
  cases zeroed
  · exact holds_refs (Multiset.mem_of_le inRefs (Multiset.mem_singleton_self _))
  · exact .inr (Multiset.mem_of_le inZeros (Multiset.mem_singleton_self _))

theorem rteMbufRefcntUpdate_add {one : Bool} {refcnt : Nat} (read : one = true → refcnt = 1)
    (room : refcnt + 1 < 2 ^ 16) : rteMbufRefcntUpdate one refcnt 1 = refcnt + 1 := by
  unfold rteMbufRefcntUpdate
  split
  · rename_i h
    rw [read h]
    rfl
  · exact Nat.mod_eq_of_lt room

theorem rteMbufRefcntUpdate_sub {one : Bool} {refcnt : Nat} (read : one = true → refcnt = 1)
    (positive : 0 < refcnt) (small : refcnt < 2 ^ 16) :
    rteMbufRefcntUpdate one refcnt 65535 = refcnt - 1 := by
  unfold rteMbufRefcntUpdate
  split
  · rename_i h
    rw [read h]
    rfl
  · omega

omit [DecidableEq T] in
theorem State.Inv.zeros_le (inv : s.Inv) (t : T) (c : Owner M E) :
    (s.pc t).zeros.count c ≤ 1 := by
  have all : (s.pc t).zeros.count c ≤ s.zeros.count c := by
    rw [State.zeros, Multiset.count_sum']
    exact le_sum (fun u => (s.pc u).zeros.count c) t
  have once := inv.zeroed c
  omega

omit [DecidableEq T] in
theorem State.Inv.refs_le (inv : s.Inv) (t : T) (c : Owner M E) :
    (s.pc t).refs.count c ≤ s.refcnt c := by
  have parts := count_references_eq s c
  have all := count_threadRefs_le s t c
  have counted := inv.counted c
  rw [State.threadRefs, Multiset.count_add] at all
  omega

omit [DecidableEq T] in
theorem State.Inv.refs_positive (inv : s.Inv) {c : Owner M E} (h : c ∈ (s.pc t).refs) :
    0 < s.refcnt c :=
  Nat.lt_of_lt_of_le (Multiset.count_pos.mpr h) (inv.refs_le t c)

omit [DecidableEq T] in
theorem State.Inv.live_positive (inv : s.Inv) {c : Owner M E} {m : M} (h : s.live m = some c) :
    0 < s.refcnt c := by
  have parts := count_references_eq s c
  have first := live_le h
  have counted := inv.counted c
  omega

omit [DecidableEq T] in
theorem State.Inv.small (inv : s.Inv) (c : Owner M E) : s.refcnt c < 2 ^ 16 :=
  inv.counted c ▸ inv.fits c

/-- A thread goes on to `p` and is given back `ms`; pool and owners are as before. -/
structure State.Goes (s s' : State T M E) (t : T) (p : Pc M E) (ms : Multiset M) : Prop where
  pc : s'.pc = Function.update s.pc t p
  held : s'.held = Function.update s.held t (s.held t + ms)
  attached : s'.attached = s.attached
  pool : s'.pool = s.pool
  extBufs : s'.extBufs = s.extBufs
  left : p.left = (s.pc t).left

section
variable {p : Pc M E} {ms : Multiset M}

omit [Fintype T] [DecidableEq M] [Fintype M] [DecidableEq E] in
theorem State.Goes.here (goes : s.Goes s' t p ms) : s'.pc t = p := by
  rw [goes.pc, Function.update_self]

omit [Fintype T] [DecidableEq M] [Fintype M] [DecidableEq E] in
theorem State.Goes.others (goes : s.Goes s' t p ms) (other : u ≠ t) : s'.pc u = s.pc u := by
  rw [goes.pc, Function.update_of_ne other]

omit [Fintype M] [DecidableEq E] in
theorem State.Goes.live (goes : s.Goes s' t p ms) : s'.live = s.live := by
  refine live_same (fun u => ?_) goes.attached
  by_cases same : u = t
  · rw [same, goes.here, goes.left]
  · rw [goes.others same]

theorem State.Goes.references (goes : s.Goes s' t p ms) (d : Owner M E) :
    s'.references.count d + (s.pc t).refs.count d =
      s.references.count d + ((ms.map .mbuf).count d + p.refs.count d) := by
  have threads : ∀ u, u ≠ t → s'.threadRefs u = s.threadRefs u := by
    intro u hu
    rw [State.threadRefs, State.threadRefs, goes.others hu, goes.held, Function.update_of_ne hu]
  have changed := congrArg (Multiset.count d) (sum_changed threads)
  rw [count_references_eq, count_references_eq, goes.live, goes.pool]
  have after : s'.threadRefs t = (s.held t).map .mbuf + ms.map .mbuf + p.refs := by
    rw [State.threadRefs, goes.here, goes.held, Function.update_self, Multiset.map_add]
  rw [after, State.threadRefs] at changed
  simp only [Multiset.count_add] at changed
  omega

/-- A step that stores a count and moves references between the call and the hands of its
thread. -/
theorem State.Goes.stored (goes : s.Goes s' t p ms) (inv : s.Inv) {c : Owner M E} {v : Nat}
    (refcnt : s'.refcnt = Function.update s.refcnt c v) (reach : s.Touches t c)
    (fields : ∀ m, (s'.next m = s.next m ∧ s'.nbSegs m = s.nbSegs m) ∨
      s.Holds t (.mbuf m) ∧ s.refcnt (.mbuf m) ≤ 1)
    (refs : ∀ d, (ms.map .mbuf).count d + p.refs.count d + (if d = c then s.refcnt c else 0) =
      (s.pc t).refs.count d + if d = c then v else 0)
    (zeros : ∀ d, p.zeros.count d + (if d = c then 1 - s.refcnt c else 0) =
      (s.pc t).zeros.count d + if d = c then 1 - v else 0)
    (own : s'.PcInv p) (fits : s'.Fits) : s'.Inv := by
  have moves : s.Moves s' t := by
    refine ⟨fun u hu => goes.others hu, fun d => ?_, fun m => ?_⟩
    · by_cases same : d = c
      · exact .inr (.inl (same ▸ reach))
      · exact .inl (by rw [refcnt, Function.update_of_ne same])
    · exact (fields m).imp_left fun same => ⟨by rw [goes.attached], same⟩
  refine moves.inv inv (fun d => ?_) (fun d => ?_) (fun m md h => .inl (goes.live ▸ h))
    (fun m h => .inl (goes.pool ▸ h)) (goes.here.symm ▸ own) fits
  · have all := goes.references d
    have before := inv.counted d
    have changed := refs d
    rw [refcnt]
    by_cases same : d = c
    · subst same
      rw [if_pos rfl, if_pos rfl] at changed
      rw [Function.update_self]
      omega
    · rw [if_neg same, if_neg same] at changed
      rw [Function.update_of_ne same]
      omega
  · have all := zeros_changed moves.others d
    have before := inv.zeroed d
    have changed := zeros d
    rw [goes.here] at all
    rw [refcnt, goes.extBufs]
    by_cases same : d = c
    · subst same
      rw [if_pos rfl, if_pos rfl] at changed
      rw [Function.update_self]
      omega
    · rw [if_neg same, if_neg same] at changed
      rw [Function.update_of_ne same]
      omega

/-- An update that adds one, whose caller then has one reference more. -/
theorem State.Goes.raised (goes : s.Goes s' t p ms) (inv : s.Inv) {c : Owner M E} {one : Bool}
    (refcnt : s'.refcnt =
      Function.update s.refcnt c (rteMbufRefcntUpdate one (s.refcnt c) 1))
    (reach : s.Touches t c) (read : one = true → s.refcnt c = 1) (positive : 0 < s.refcnt c)
    (fields : s'.next = s.next ∧ s'.nbSegs = s.nbSegs)
    (refs : ms.map .mbuf + p.refs = c ::ₘ (s.pc t).refs) (zeros : p.zeros = (s.pc t).zeros)
    (own : s'.refcnt = Function.update s.refcnt c (s.refcnt c + 1) → s'.PcInv p)
    (fits : s'.Fits) : s'.Inv := by
  have count : ∀ d, (ms.map .mbuf).count d + p.refs.count d =
      (s.pc t).refs.count d + if d = c then 1 else 0 := by
    intro d
    rw [← Multiset.count_add, refs, Multiset.count_cons]
  have room : s.refcnt c + 1 < 2 ^ 16 := by
    have most := fits c
    have all := goes.references c
    have more := count c
    rw [if_pos rfl] at more
    rw [← inv.counted] at all
    omega
  rw [rteMbufRefcntUpdate_add read room] at refcnt
  refine goes.stored inv refcnt reach (fun n => .inl ?_) (fun d => ?_) (fun d => ?_)
    (own refcnt) fits
  · rw [fields.1, fields.2]
    exact ⟨rfl, rfl⟩
  · have more := count d
    split at more
    · rename_i same
      rw [if_pos same, if_pos same]
      omega
    · rename_i same
      rw [if_neg same, if_neg same]
      omega
  · rw [zeros]
    split <;> omega

end

theorem State.Inv.updateShare (inv : s.Inv) {c : Owner M E} {one : Bool} {m : M}
    (at_pc : s.pc t = .update c one (.share m))
    (fits : (s.access t (.update c one (.share m))).Fits) :
    (s.access t (.update c one (.share m))).Inv := by
  have known := inv.at_pc t
  rw [at_pc] at known
  obtain ⟨rfl, read⟩ := known
  have here : Owner.mbuf m ∈ (s.pc t).refs := by
    rw [at_pc]
    exact Multiset.mem_singleton_self _
  have goes : s.Goes (s.access t (.update (.mbuf m) one (.share m))) t .idle (m ::ₘ {m}) :=
    ⟨rfl, rfl, rfl, rfl, rfl, by rw [at_pc]; rfl⟩
  refine goes.raised inv rfl (.inl (holds_refs here)) read (inv.refs_positive here) ⟨rfl, rfl⟩ ?_
    (by rw [at_pc]; rfl) (fun _ => trivial) fits
  rw [at_pc]
  simp [Pc.refs]

/-- What is attached to is not the mbuf that is being attached. -/
theorem State.Inv.owner_ne (inv : s.Inv) {mi m : M} (only : s.refcnt (.mbuf mi) = 1)
    (refs : .mbuf mi ::ₘ {.mbuf m} ≤ (s.pc t).refs) (stays : (s.pc t).left = none) :
    m ≠ mi ∧ s.owner m ≠ .mbuf mi := by
  have apart : m ≠ mi := by
    rintro rfl
    have twice := le_trans (Multiset.count_le_of_le (.mbuf m) refs) (inv.refs_le t (.mbuf m))
    rw [Multiset.count_cons_self, Multiset.count_singleton_self] at twice
    omega
  refine ⟨apart, fun same => ?_⟩
  have hmi := holds_refs (Multiset.mem_of_le refs (Multiset.mem_cons_self _ _))
  have hm := holds_refs (Multiset.mem_of_le refs
    (Multiset.mem_cons_of_mem (Multiset.mem_singleton_self _)))
  cases points : s.attached m with
  | none =>
    rw [State.owner, points] at same
    cases same
    exact apart rfl
  | some c =>
    rw [State.owner, points] at same
    have live : s.live m = some (.mbuf mi) := by
      rw [inv.live_eq hm (by rw [stays]; exact (Option.some_ne_none m).symm), points]
      exact congrArg some same
    have shared := inv.holds_live hmi live
    omega

/-- The owner that an mbuf at hand leads to can be reached, and its count is not zero. -/
theorem State.Inv.owner_reached (inv : s.Inv) {m : M} (hm : .mbuf m ∈ (s.pc t).refs)
    (stays : (s.pc t).left = none) (sole : s.attached m = none ∨ s.refcnt (.mbuf m) = 1) :
    s.Touches t (s.owner m) ∧ 0 < s.refcnt (s.owner m) := by
  cases points : s.attached m with
  | none =>
    rw [State.owner, points]
    exact ⟨.inl (holds_refs hm), inv.refs_positive hm⟩
  | some c =>
    have one := sole.resolve_left (by rw [points]; exact Option.some_ne_none c)
    have live : s.live m = some c := by
      rw [inv.live_eq (holds_refs hm) (by rw [stays]; exact (Option.some_ne_none m).symm), points]
    rw [State.owner, points]
    exact ⟨.inr ⟨m, holds_refs hm, one.le, live⟩, inv.live_positive live⟩

theorem State.Inv.updateAttach (inv : s.Inv) {c : Owner M E} {one : Bool} {mi m : M}
    (at_pc : s.pc t = .update c one (.attach mi m))
    (fits : (s.access t (.update c one (.attach mi m))).Fits) :
    (s.access t (.update c one (.attach mi m))).Inv := by
  have known := inv.at_pc t
  rw [at_pc] at known
  obtain ⟨direct, only, rfl, sole, read⟩ := known
  have stays : (s.pc t).left = none := by rw [at_pc]; rfl
  obtain ⟨reach, positive⟩ := inv.owner_reached (by simp [at_pc, Pc.refs]) stays sole
  obtain ⟨-, other⟩ := inv.owner_ne only (by rw [at_pc]; rfl) stays
  have goes : s.Goes (s.access t (.update (s.owner m) one (.attach mi m))) t
      (.attach mi m (s.owner m)) 0 :=
    ⟨rfl, rfl, rfl, rfl, rfl, by rw [at_pc]; rfl⟩
  refine goes.raised inv rfl reach read positive ⟨rfl, rfl⟩ ?_ (by rw [at_pc]; rfl)
    (fun stored => ⟨direct, ?_, rfl⟩) fits
  · rw [at_pc, Multiset.map_zero, zero_add]
    rfl
  · rw [stored, Function.update_of_ne other.symm, only]

omit [Fintype M] [DecidableEq T] [DecidableEq E] in
theorem live_left {m : M} (gone : (s.pc t).left = some m) : s.live m = none := by
  unfold State.live
  rw [if_pos ⟨t, gone⟩]

/-- The reference of an mbuf to its owner is given up. -/
theorem State.Inv.updateDetach (inv : s.Inv) {c : Owner M E} {one : Bool} {m : M} {zeroed : Bool}
    (at_pc : s.pc t = .update c one (.detach m zeroed))
    (fits : (s.access t (.update c one (.detach m zeroed))).Fits) :
    (s.access t (.update c one (.detach m zeroed))).Inv := by
  have known := inv.at_pc t
  rw [at_pc] at known
  obtain ⟨ends, points, read⟩ := known
  have stays : (s.pc t).left ≠ some m := by
    rw [at_pc]
    exact (Option.some_ne_none m).symm
  have holds : s.Holds t (.mbuf m) :=
    holds_freed m zeroed (by rw [at_pc]; rfl) (by rw [at_pc]; rfl)
  have live : s.live m = some c := (inv.live_eq holds stays).trans points
  have positive := inv.live_positive live
  have value := rteMbufRefcntUpdate_sub read positive (inv.small c)
  have itself : c ≠ .mbuf m := by
    rintro rfl
    have none := inv.direct m m live
    rw [points] at none
    cases none
  generalize after : s.access t (.update c one (.detach m zeroed)) = s' at fits ⊢
  have refcnt : s'.refcnt = Function.update s.refcnt c (s.refcnt c - 1) := by
    rw [← after, ← value]
    rfl
  have here : s'.pc t = if s.refcnt c - 1 = 0 then .freeOwner c m zeroed
      else .detach m zeroed := by
    rw [← after, ← value]
    exact Function.update_self ..
  have others : ∀ u, u ≠ t → s'.pc u = s.pc u := by
    intro u hu
    rw [← after]
    exact Function.update_of_ne hu ..
  have held : s'.held = s.held := by
    rw [← after]
    exact (congrArg (Function.update s.held t) (add_zero _)).trans
      (Function.update_eq_self t s.held)
  have attached : s'.attached = s.attached := by
    rw [← after]
    rfl
  have pool : s'.pool = s.pool := by
    rw [← after]
    rfl
  have extBufs : s'.extBufs = s.extBufs := by
    rw [← after]
    rfl
  have new : s'.live m = none := live_left (t := t) (by rw [here]; split <;> rfl)
  have refs : (s'.pc t).refs = (s.pc t).refs := by
    rw [here, at_pc]
    split <;> rfl
  have ends' : s'.Ends m zeroed := by
    rw [State.Ends, refcnt, Function.update_of_ne itself.symm]
    exact ends
  refine State.Moves.recounted (s := s) (t := t) (m := m) ⟨others, fun d => ?_, fun n => ?_⟩ inv
    (fun u _ => by rw [held]) (fun n hn => ?_) (fun d => ?_) (fun d => ?_)
    (fun md h => by rw [new] at h; cases h) (fun n h => .inl (pool ▸ h)) ?_ fits
  · by_cases same : d = c
    · exact .inr (.inl (same ▸ .inr ⟨m, holds, ends.le, live⟩))
    · exact .inl (by rw [refcnt, Function.update_of_ne same])
  · refine .inl ⟨by rw [attached], ?_⟩
    rw [← after]
    exact ⟨rfl, rfl⟩
  · refine live_other (x := s.attached m) (fun u => ?_)
      (by rw [attached, Function.update_eq_self]) hn
    by_cases same : u = t
    · have apart : some m ≠ some n := fun h => hn (Option.some.inj h).symm
      have gone : (s'.pc t).left = some m := by rw [here]; split <;> rfl
      rw [same, gone, at_pc]
      exact iff_of_false apart (Option.some_ne_none n).symm
    · rw [others u same]
  · rw [State.near, State.near, State.threadRefs, State.threadRefs, held, refs, new, live, pool,
      refcnt]
    simp only [ownerRefs, Multiset.count_add, Multiset.count_singleton, Multiset.count_zero]
    by_cases same : d = c
    · subst same
      rw [Function.update_self, if_pos rfl]
      omega
    · rw [Function.update_of_ne same, if_neg same]
  · rw [here, at_pc, extBufs, refcnt]
    by_cases same : d = c
    · subst same
      rw [Function.update_self]
      split
      · simp only [Pc.zeros, Multiset.count_cons_self]
        omega
      · simp only [Pc.zeros]
        omega
    · rw [Function.update_of_ne same]
      split
      · simp only [Pc.zeros, Multiset.count_cons_of_ne same]
      · rfl
  · rw [here]
    split
    · rename_i none
      refine ⟨ends', by rw [refcnt, Function.update_self, none], fun md h => ?_⟩
      rw [attached]
      exact inv.direct m md (h ▸ live)
    · exact ends'

/-- The mbuf takes over the reference that was counted for it. -/
theorem State.Inv.attached (inv : s.Inv) {c : Owner M E} {mi m : M}
    (at_pc : s.pc t = .attach mi m c) (fits : (s.access t (.attach mi m c)).Fits) :
    (s.access t (.attach mi m c)).Inv := by
  have known := inv.at_pc t
  rw [at_pc] at known
  obtain ⟨direct, only, rfl⟩ := known
  have stays : (s.pc t).left = none := by rw [at_pc]; rfl
  have refs : .mbuf mi ::ₘ {.mbuf m} ≤ (s.pc t).refs := by
    rw [at_pc]
    exact Multiset.le_cons_self _ _
  obtain ⟨apart, other⟩ := inv.owner_ne only refs stays
  have hmi := holds_refs (Multiset.mem_of_le refs (Multiset.mem_cons_self _ _))
  have hm := holds_refs (Multiset.mem_of_le refs
    (Multiset.mem_cons_of_mem (Multiset.mem_singleton_self _)))
  have unleft : ∀ n, (s.pc t).left ≠ some n := fun n => by
    rw [stays]
    exact (Option.some_ne_none n).symm
  generalize after : s.access t (.attach mi m (s.owner m)) = s' at fits ⊢
  have refcnt : s'.refcnt = s.refcnt := by
    rw [← after]
    rfl
  have here : s'.pc t = .idle := by
    rw [← after]
    exact Function.update_self ..
  have others : ∀ u, u ≠ t → s'.pc u = s.pc u := by
    intro u hu
    rw [← after]
    exact Function.update_of_ne hu ..
  have held : s'.held = Function.update s.held t (s.held t + mi ::ₘ {m}) := by
    rw [← after]
    rfl
  have attached : s'.attached = Function.update s.attached mi (some (s.owner m)) := by
    rw [← after]
    rfl
  have pool : s'.pool = s.pool := by
    rw [← after]
    rfl
  have extBufs : s'.extBufs = s.extBufs := by
    rw [← after]
    rfl
  have left : ∀ u, (s'.pc u).left = (s.pc u).left := by
    intro u
    by_cases same : u = t
    · rw [same, here, stays]
      rfl
    · rw [others u same]
  have before : s.live mi = none := (inv.live_eq hmi (unleft mi)).trans direct
  have new : s'.live mi = some (s.owner m) := by
    rw [live_self (fun u => left u ▸ inv.not_left hmi (unleft mi) u), attached,
      Function.update_self]
  refine State.Moves.recounted (s := s) (t := t) (m := mi)
    ⟨others, fun d => .inl (by rw [refcnt]), fun n => ?_⟩ inv
    (fun u hu => by rw [held, Function.update_of_ne hu])
    (fun n hn => live_other (fun u => by rw [left]) attached hn) (fun d => ?_) (fun d => ?_)
    (fun md h => .inr ?_) (fun n h => .inl (pool ▸ h)) (here ▸ trivial) fits
  · by_cases same : n = mi
    · exact .inr (same ▸ ⟨hmi, only.le⟩)
    · rw [attached, ← after]
      exact .inl ⟨Function.update_of_ne same .., Function.update_of_ne same ..,
        Function.update_of_ne same ..⟩
  · rw [State.near, State.near, State.threadRefs, State.threadRefs, held, here, at_pc, new, before,
      pool, refcnt, Function.update_self, Multiset.map_add]
    simp only [ownerRefs, Pc.refs, Multiset.map_cons, Multiset.map_singleton, Multiset.count_add,
      Multiset.count_cons, Multiset.count_singleton, Multiset.count_zero]
    omega
  · rw [here, at_pc, extBufs, refcnt]
    rfl
  · rw [new] at h
    have owner := Option.some.inj h
    have far : md ≠ mi := by
      rintro rfl
      exact other owner
    rw [attached, Function.update_of_ne far]
    cases points : s.attached m with
    | none =>
      rw [State.owner, points] at owner
      cases owner
      exact points
    | some c =>
      rw [State.owner, points] at owner
      exact inv.direct m md ((inv.live_eq hm (unleft m)).trans (points.trans (congrArg some owner)))

theorem State.Inv.prefree (inv : s.Inv) {m : M} (at_pc : s.pc t = .prefree m)
    (fits : (s.access t (.prefree m)).Fits) : (s.access t (.prefree m)).Inv := by
  have hm : .mbuf m ∈ (s.pc t).refs := by
    rw [at_pc]
    exact Multiset.mem_singleton_self _
  have positive := inv.refs_positive hm
  have value : rteMbufRefcntUpdate false (s.refcnt (.mbuf m)) 65535 = s.refcnt (.mbuf m) - 1 :=
    rteMbufRefcntUpdate_sub (fun h => by cases h) positive (inv.small _)
  have goes : s.Goes (s.access t (.prefree m)) t
      (if s.refcnt (.mbuf m) - 1 = 0 then .last m true else .idle) 0 := by
    refine ⟨?_, ?_, rfl, rfl, rfl, ?_⟩
    · rw [← value]
      rfl
    · rw [add_zero, Function.update_eq_self]
      rfl
    · rw [at_pc]
      split <;> rfl
  have refcnt : (s.access t (.prefree m)).refcnt =
      Function.update s.refcnt (.mbuf m) (s.refcnt (.mbuf m) - 1) := by
    rw [← value]
    rfl
  refine goes.stored inv refcnt (.inl (holds_refs hm)) (fun n => .inl ⟨rfl, rfl⟩) (fun d => ?_)
    (fun d => ?_) ?_ fits
  · have none : (if s.refcnt (.mbuf m) - 1 = 0 then Pc.last m true else Pc.idle).refs =
        (0 : Multiset (Owner M E)) := by
      split <;> rfl
    rw [none, at_pc]
    simp only [Pc.refs, Multiset.map_zero, Multiset.count_zero, Multiset.count_singleton]
    split <;> omega
  · rw [at_pc]
    split
    · simp only [Pc.zeros, unset, Multiset.count_zero, Multiset.count_singleton, if_true]
      split <;> omega
    · simp only [Pc.zeros, Multiset.count_zero]
      split <;> omega
  · split
    · rename_i none
      change Function.update s.refcnt _ _ _ = 0
      rw [Function.update_self, value, none]
    · trivial

/-- A thread goes on without an access that changes anything. -/
theorem State.Inv.goesOn (inv : s.Inv) {p : Pc M E} (refs : p.refs = (s.pc t).refs)
    (zeros : p.zeros = (s.pc t).zeros) (left : p.left = (s.pc t).left)
    (own : (s.goto t p).PcInv p) : (s.goto t p).Inv := by
  have goes : s.Goes (s.goto t p) t p 0 := by
    refine ⟨rfl, ?_, rfl, rfl, rfl, left⟩
    rw [add_zero, Function.update_eq_self]
    rfl
  refine State.Moves.rearranged (s := s) (t := t)
    ⟨fun u hu => goes.others hu, fun c => .inl rfl, fun n => .inl ⟨rfl, rfl, rfl⟩⟩ inv
    (Finset.sum_congr rfl fun u _ => ?_) (Finset.sum_congr rfl fun u _ => ?_) goes.live rfl rfl rfl
    (goes.here.symm ▸ own)
  all_goals by_cases same : u = t
  · rw [same, State.threadRefs, goes.here, refs]
    rfl
  · rw [State.threadRefs, goes.others same]
    rfl
  · rw [same, goes.here, zeros]
  · rw [goes.others same]

theorem State.Inv.last (inv : s.Inv) {m : M} {zeroed : Bool} (at_pc : s.pc t = .last m zeroed) :
    (s.access t (.last m zeroed)).Inv := by
  have known := inv.at_pc t
  rw [at_pc] at known
  rw [State.access]
  split
  · rename_i direct
    exact inv.goesOn (by rw [at_pc]; rfl) (by rw [at_pc]; rfl) (by rw [at_pc]; rfl)
      ⟨known, direct⟩
  · rename_i c points
    exact inv.goesOn (by rw [at_pc]; rfl) (by rw [at_pc]; rfl) (by rw [at_pc]; rfl)
      ⟨known, points, fun h => eq_of_beq h⟩

theorem State.Inv.freeOwner (inv : s.Inv) {c : Owner M E} {m : M} {zeroed : Bool}
    (at_pc : s.pc t = .freeOwner c m zeroed) (fits : (s.access t (.freeOwner c m zeroed)).Fits) :
    (s.access t (.freeOwner c m zeroed)).Inv := by
  have known := inv.at_pc t
  rw [at_pc] at known
  obtain ⟨ends, none, direct⟩ := known
  have hc : c ∈ (s.pc t).zeros := by
    rw [at_pc]
    exact Multiset.mem_cons_self _ _
  cases c with
  | mbuf md =>
    have goes : s.Goes (s.access t (.freeOwner (.mbuf md) m zeroed)) t
        (.rawFree md (some (m, zeroed))) 0 := by
      refine ⟨rfl, ?_, rfl, rfl, rfl, by rw [at_pc]; rfl⟩
      rw [add_zero, Function.update_eq_self]
      rfl
    have apart : Owner.mbuf m ≠ .mbuf (E := E) md := by
      intro same
      rw [← same] at none
      have once := inv.zeros_le t (.mbuf m)
      rw [at_pc, ← same] at once
      cases zeroed
      · rw [State.Ends, none] at ends
        cases ends
      · simp [Pc.zeros, unset] at once
    refine goes.stored (c := .mbuf md) (v := 1) inv rfl (.inl (.inr hc)) (fun n => ?_) (fun d => ?_)
      (fun d => ?_) ⟨⟨direct md rfl, Function.update_self .., Function.update_self ..,
        Function.update_self ..⟩, fun m' z h => ?_⟩ fits
    · by_cases same : n = md
      · subst same
        exact .inr ⟨.inr hc, by omega⟩
      · exact .inl ⟨Function.update_of_ne same .., Function.update_of_ne same ..⟩
    · rw [at_pc, none]
      simp only [Pc.refs, Option.elim_some, Multiset.map_zero, Multiset.count_zero,
        Multiset.count_cons, ite_self]
      omega
    · rw [at_pc, none]
      simp only [Pc.zeros, Option.elim_some, Multiset.count_cons, Nat.sub_self, Nat.sub_zero,
        ite_self]
      omega
    · cases h
      exact (Function.update_of_ne apart ..).trans ends
  | shinfo e =>
    have here : (s.access t (.freeOwner (.shinfo e) m zeroed)).pc t = .detach m zeroed :=
      Function.update_self ..
    have others : ∀ u, u ≠ t →
        (s.access t (.freeOwner (.shinfo e) m zeroed)).pc u = s.pc u := fun u hu =>
      Function.update_of_ne hu ..
    have live : (s.access t (.freeOwner (.shinfo e) m zeroed)).live = s.live := by
      refine live_same (fun u => ?_) rfl
      by_cases same : u = t
      · rw [same, here, at_pc]
        rfl
      · rw [others u same]
    refine State.Moves.recounted (s := s) (t := t) (m := m)
      ⟨others, fun d => .inl rfl, fun n => .inl ⟨rfl, rfl, rfl⟩⟩ inv (fun _ _ => rfl)
      (fun n _ => by rw [live]) (fun d => ?_) (fun d => ?_) (fun md h => .inl (live ▸ h))
      (fun n h => .inl h) (here.symm ▸ ends) fits
    · rw [State.near, State.near, State.threadRefs, State.threadRefs, live, here, at_pc]
      rfl
    · rw [here, at_pc]
      simp only [State.access, State.goto, Pc.zeros, Multiset.map_cons, Multiset.count_cons]
      omega

theorem State.Inv.rawFree (inv : s.Inv) {m : M} {k : Option (M × Bool)}
    (at_pc : s.pc t = .rawFree m k) (fits : (s.access t (.rawFree m k)).Fits) :
    (s.access t (.rawFree m k)).Inv := by
  have known := inv.at_pc t
  rw [at_pc] at known
  obtain ⟨ready, ends⟩ := known
  have here : (s.access t (.rawFree m k)).pc t = afterFree k := Function.update_self ..
  have others : ∀ u, u ≠ t → (s.access t (.rawFree m k)).pc u = s.pc u := fun u hu =>
    Function.update_of_ne hu ..
  have left : (afterFree k : Pc M E).left = k.map Prod.fst := by
    cases k <;> rfl
  have live : (s.access t (.rawFree m k)).live = s.live := by
    refine live_same (fun u => ?_) rfl
    by_cases same : u = t
    · rw [same, here, at_pc, left]
      rfl
    · rw [others u same]
  refine State.Moves.recounted (s := s) (t := t) (m := m)
    ⟨others, fun d => .inl rfl, fun n => .inl ⟨rfl, rfl, rfl⟩⟩ inv (fun _ _ => rfl)
    (fun n _ => by rw [live]) (fun d => ?_) (fun d => ?_) (fun md h => .inl (live ▸ h))
    (fun n h => ?_) ?_ fits
  · have refs : (afterFree k : Pc M E).refs = k.elim 0 fun x => kept x.1 x.2 := by
      cases k <;> rfl
    rw [State.near, State.near, State.threadRefs, State.threadRefs, live, here, at_pc, refs]
    simp only [State.access, State.goto, Pc.refs, Multiset.map_cons, Multiset.count_add,
      Multiset.count_cons]
    omega
  · have zeros : (afterFree k : Pc M E).zeros = k.elim 0 fun x => unset x.1 x.2 := by
      cases k <;> rfl
    rw [here, at_pc, zeros]
    rfl
  · rcases Multiset.mem_cons.mp h with rfl | before
    · exact .inr ⟨ready.direct, ready.refcnt, ready.next, ready.nbSegs⟩
    · exact .inl before
  · rw [here]
    cases k with
    | none => trivial
    | some x => exact ends x.1 x.2 rfl

theorem State.Inv.detach (inv : s.Inv) {m : M} {zeroed : Bool} (at_pc : s.pc t = .detach m zeroed) :
    (s.access t (.detach m zeroed)).Inv := by
  have known := inv.at_pc t
  rw [at_pc] at known
  have gone : (s.pc t).left = some m := by
    rw [at_pc]
    rfl
  have here : (s.access t (.detach m zeroed)).pc t = .unlink m zeroed := Function.update_self ..
  have others : ∀ u, u ≠ t → (s.access t (.detach m zeroed)).pc u = s.pc u := fun u hu =>
    Function.update_of_ne hu ..
  have live : (s.access t (.detach m zeroed)).live = s.live := by
    funext n
    by_cases same : n = m
    · rw [same, live_left gone, State.live]
      split
      · rfl
      · exact Function.update_self ..
    · refine live_other (fun u => ?_) rfl same
      by_cases same' : u = t
      · rw [same', here, gone]
        exact iff_of_false (Option.some_ne_none n).symm fun h => same (Option.some.inj h).symm
      · rw [others u same']
  refine State.Moves.rearranged (s := s) (t := t)
    ⟨others, fun c => .inl rfl, fun n => ?_⟩ inv (Finset.sum_congr rfl fun u _ => ?_)
    (Finset.sum_congr rfl fun u _ => ?_) live rfl rfl rfl
    (here.symm ▸ ⟨known, Function.update_self ..⟩)
  · by_cases same : n = m
    · exact .inr (same ▸ ⟨left_holds gone, State.Ends.le known⟩)
    · exact .inl ⟨Function.update_of_ne same .., rfl, rfl⟩
  all_goals by_cases same : u = t
  · rw [same, State.threadRefs, State.threadRefs, here, at_pc]
    rfl
  · rw [State.threadRefs, others u same]
    rfl
  · rw [same, here, at_pc]
    rfl
  · rw [others u same]

theorem State.Inv.unlink (inv : s.Inv) {m : M} {zeroed : Bool} (at_pc : s.pc t = .unlink m zeroed)
    (fits : (s.access t (.unlink m zeroed)).Fits) : (s.access t (.unlink m zeroed)).Inv := by
  have known := inv.at_pc t
  rw [at_pc] at known
  obtain ⟨ends, direct⟩ := known
  have hm : s.Holds t (.mbuf m) :=
    holds_freed m zeroed (by rw [at_pc]; rfl) (by rw [at_pc]; rfl)
  generalize after : s.access t (.unlink m zeroed) = s' at fits ⊢
  have held : s.held = Function.update s.held t (s.held t + 0) := by
    rw [add_zero, Function.update_eq_self]
  have goes : s.Goes s' t (.rawFree m none) 0 := by
    rw [← after]
    refine ⟨?_, ?_, ?_, ?_, ?_, by rw [at_pc]; rfl⟩
    all_goals cases zeroed
    all_goals first
      | rfl
      | exact held
  have refcnt : s'.refcnt = Function.update s.refcnt (.mbuf m) 1 := by
    rw [← after]
    cases zeroed
    · exact ((congrArg (Function.update s.refcnt (.mbuf m)) ends).symm.trans
        (Function.update_eq_self ..)).symm
    · rfl
  have next : s'.next = Function.update s.next m none := by
    rw [← after]
    cases zeroed <;> rfl
  have nbSegs : s'.nbSegs = Function.update s.nbSegs m 1 := by
    rw [← after]
    cases zeroed <;> rfl
  refine goes.stored inv refcnt (.inl hm) (fun n => ?_) (fun d => ?_) (fun d => ?_)
    ⟨⟨?_, ?_, ?_, ?_⟩, fun m' z h => by cases h⟩ fits
  · by_cases same : n = m
    · exact .inr (same ▸ ⟨hm, ends.le⟩)
    · exact .inl ⟨by rw [next, Function.update_of_ne same],
        by rw [nbSegs, Function.update_of_ne same]⟩
  · rw [at_pc, ends]
    cases zeroed
    · simp [Pc.refs, kept]
    · simp [Pc.refs, kept, Multiset.count_singleton]
  · rw [at_pc, ends]
    cases zeroed
    · simp [Pc.zeros, unset]
    · simp [Pc.zeros, unset, Multiset.count_singleton]
  · rw [goes.attached, direct]
  · rw [refcnt, Function.update_self]
  · rw [next, Function.update_self]
  · rw [nbSegs, Function.update_self]

/-- Each access of a thread keeps the invariant. -/
theorem State.Inv.access (inv : s.Inv) (t : T) (fits : (s.access t (s.pc t)).Fits) :
    (s.access t (s.pc t)).Inv := by
  cases p : s.pc t with
  | idle => exact inv
  | update c one k =>
    rw [p] at fits
    cases k with
    | share m => exact inv.updateShare p fits
    | attach mi m => exact inv.updateAttach p fits
    | detach m zeroed => exact inv.updateDetach p fits
  | attach mi m c => exact inv.attached p (p ▸ fits)
  | prefree m => exact inv.prefree p (p ▸ fits)
  | last m zeroed => exact inv.last p
  | freeOwner c m zeroed => exact inv.freeOwner p (p ▸ fits)
  | rawFree m k => exact inv.rawFree p (p ▸ fits)
  | detach m zeroed => exact inv.detach p
  | unlink m zeroed => exact inv.unlink p (p ▸ fits)

theorem State.Inv.step (inv : s.Inv) (h : Step true s s') (fits : s'.Fits) : s'.Inv := by
  cases h with
  | alloc t m idle there => exact inv.alloc idle there fits
  | hand t u m idle holds => exact inv.hand idle holds
  | write t m next nbSegs idle holds only => exact inv.write idle holds only
  | share t m idle holds => exact inv.share idle holds
  | attach t mi m idle holds direct only sole =>
    exact inv.attach idle holds direct only (sole rfl)
  | attachExtbuf t m e idle holds direct only own =>
    exact inv.attachExtbuf idle holds direct only own fits
  | free t m idle holds => exact inv.free idle holds
  | access t busy => exact inv.access t fits

end

theorem State.Inv.start [Fintype T] [Fintype M] [Fintype E] [DecidableEq M] [DecidableEq E] :
    (State.populated T M E).Inv := by
  have live : ∀ m, (State.populated T M E).live m = none := fun m => live_self fun u h => by cases h
  have references : (State.populated T M E).references =
      (Finset.univ : Finset M).val.map .mbuf := by
    simp only [State.references, live, ownerRefs, State.threadRefs]
    simp [State.populated, Pc.refs]
  have zeros : (State.populated T M E).zeros = 0 := by
    simp [State.zeros, State.populated, Pc.zeros]
  have pooled : ∀ c, ((Finset.univ : Finset M).val.map (Owner.mbuf (E := E))).count c =
      (State.populated T M E).refcnt c := by
    rintro (m | e)
    · rw [Multiset.count_map_eq_count' _ _ (fun _ _ h => Owner.mbuf.inj h), Multiset.count_univ]
      rfl
    · exact Multiset.count_eq_zero.mpr (by simp)
  have own : ∀ c, ((Finset.univ : Finset E).val.map (Owner.shinfo (M := M))).count c =
      1 - (State.populated T M E).refcnt c := by
    rintro (m | e)
    · exact Multiset.count_eq_zero.mpr (by simp)
    · rw [Multiset.count_map_eq_count' _ _ (fun _ _ h => Owner.shinfo.inj h), Multiset.count_univ]
      rfl
  refine ⟨fun c => ?_, fun c => ?_, fun m md h => ?_, fun m _ => ⟨rfl, rfl, rfl, rfl⟩,
    fun t => trivial,
    fun c => ?_⟩
  · rw [references, pooled]
  · rw [zeros, Multiset.count_zero, zero_add]
    exact own c
  · rw [live] at h
    cases h
  · rw [references, pooled]
    cases c
    · exact Nat.one_lt_two_pow (by decide)
    · exact Nat.two_pow_pos 16

theorem reachable_inv [Fintype T] [Fintype M] [Fintype E] [DecidableEq T] [DecidableEq M]
    [DecidableEq E] {s : State T M E} (h : (sharing T M E true).Reachable s) : s.Inv := by
  refine h.invariant (fun s start => ?_) fun s s' inv (step : Step true s s' ∧ s'.Fits) =>
    State.Inv.step inv step.1 step.2
  rw [show s = .populated T M E from start]
  exact .start

end MbufReferences
