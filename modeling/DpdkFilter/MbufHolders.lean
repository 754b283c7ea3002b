import DpdkFilter.MbufReferences

/-!
# Who can reach a reference count

A count of one is written by plain stores. Two threads that can reach a count find it at two
or more, so what a thread knows of a count of one, and of the mbufs that it has to itself,
no other thread changes.
-/

namespace MbufReferences

open Interleaving Shares

universe u v w
variable {T : Type u} {M : Type v} {E : Type w}

/-- The thread has a reference, or has brought the count to zero. -/
def State.Holds (s : State T M E) (t : T) (c : Owner M E) : Prop :=
  c ∈ s.threadRefs t ∨ c ∈ (s.pc t).zeros

/-- The mbuf is in the hands of one thread that is freeing it. -/
def State.Ends (s : State T M E) (m : M) (zeroed : Bool) : Prop :=
  s.refcnt (.mbuf m) = if zeroed then 0 else 1

/-- Direct, and as `__rte_mbuf_raw_sanity_check` asks. -/
structure State.Ready (s : State T M E) (m : M) : Prop where
  direct : s.attached m = none
  refcnt : s.refcnt (.mbuf m) = 1
  next : s.next m = none
  nbSegs : s.nbSegs m = 1

/-- What a thread relies on between two of its accesses. -/
def State.PcInv (s : State T M E) : Pc M E → Prop
  | .idle => True
  | .update c one (.share m) => c = .mbuf m ∧ (one = true → s.refcnt c = 1)
  | .update c one (.attach mi m) =>
    s.attached mi = none ∧ s.refcnt (.mbuf mi) = 1 ∧ c = s.owner m ∧
      (s.attached m = none ∨ s.refcnt (.mbuf m) = 1) ∧ (one = true → s.refcnt c = 1)
  | .update c one (.detach m zeroed) =>
    s.Ends m zeroed ∧ s.attached m = some c ∧ (one = true → s.refcnt c = 1)
  | .attach mi m c => s.attached mi = none ∧ s.refcnt (.mbuf mi) = 1 ∧ c = s.owner m
  | .prefree _ => True
  | .last m zeroed => s.Ends m zeroed
  | .freeOwner c m zeroed =>
    s.Ends m zeroed ∧ s.refcnt c = 0 ∧ ∀ md, c = .mbuf md → s.attached md = none
  | .rawFree m k =>
    s.Ready m ∧ ∀ m' zeroed, k = some (m', zeroed) → s.Ends m' zeroed
  | .detach m zeroed => s.Ends m zeroed
  | .unlink m zeroed => s.Ends m zeroed ∧ s.attached m = none

def State.zeros [Fintype T] (s : State T M E) : Multiset (Owner M E) := ∑ t, (s.pc t).zeros

section
variable [Fintype T] [DecidableEq M]

/-- The thread can reach the count: it holds the owner, or alone an mbuf attached to it. -/
def State.Touches (s : State T M E) (t : T) (c : Owner M E) : Prop :=
  s.Holds t c ∨ ∃ m, s.Holds t (.mbuf m) ∧ s.refcnt (.mbuf m) ≤ 1 ∧ s.live m = some c

variable [DecidableEq E]

theorem count_threadRefs_le (s : State T M E) (t : T) (c : Owner M E) :
    (s.threadRefs t).count c ≤ (∑ u, s.threadRefs u).count c := by
  rw [Multiset.count_sum']
  exact le_sum (fun u => (s.threadRefs u).count c) t

variable [Fintype M]

structure State.Inv (s : State T M E) : Prop where
  counted : ∀ c, s.refcnt c = s.references.count c
  -- an owner at zero is in exactly one place, at a thread or at the application
  zeroed : ∀ c, s.zeros.count c + (s.extBufs.map .shinfo).count c = 1 - s.refcnt c
  direct : ∀ m md, s.live m = some (.mbuf md) → s.attached md = none
  pooled : ∀ m ∈ s.pool, s.Ready m
  at_pc : ∀ t, s.PcInv (s.pc t)
  fits : s.Fits

/-! ## Two threads that reach a count -/

theorem live_le {s : State T M E} {m : M} {c : Owner M E} (h : s.live m = some c) :
    1 ≤ (∑ n, ownerRefs (s.live n)).count c := by
  rw [Multiset.count_sum']
  refine le_trans ?_ (le_sum (fun n => (ownerRefs (s.live n)).count c) m)
  simp [h, ownerRefs]

theorem count_references_eq (s : State T M E) (c : Owner M E) : s.references.count c =
    (∑ t, s.threadRefs t).count c +
      (∑ m, ownerRefs (s.live m)).count c +
      (s.pool.map .mbuf).count c := by
  simp only [State.references, Multiset.count_add]

/-- A thread at a zero has it for itself: nothing refers to the owner. -/
theorem State.Inv.zero {s : State T M E} (inv : s.Inv) {t : T} {c : Owner M E}
    (zero : c ∈ (s.pc t).zeros) : s.refcnt c = 0 ∧ s.references.count c = 0 := by
  have one := Multiset.one_le_count_iff_mem.mpr zero
  have all : (s.pc t).zeros.count c ≤ s.zeros.count c := by
    rw [State.zeros, Multiset.count_sum']
    exact le_sum (fun u => (s.pc u).zeros.count c) t
  have once := inv.zeroed c
  have none : s.refcnt c = 0 := by omega
  exact ⟨none, by rw [← inv.counted, none]⟩

/-- A holder and an mbuf attached are two references. -/
theorem State.Inv.holds_live {s : State T M E} (inv : s.Inv) {t : T} {m : M} {c : Owner M E}
    (ht : s.Holds t c) (hm : s.live m = some c) : 2 ≤ s.refcnt c := by
  have parts := count_references_eq s c
  have attached := live_le hm
  rcases ht with ht | ht
  · have first := Multiset.one_le_count_iff_mem.mpr ht
    have all := count_threadRefs_le s t c
    rw [inv.counted]
    omega
  · have none := (inv.zero ht).2
    omega

variable [DecidableEq T]

theorem State.Inv.holds_two {s : State T M E} (inv : s.Inv) {t u : T} (other : t ≠ u)
    {c : Owner M E} (ht : s.Holds t c) (hu : s.Holds u c) : 2 ≤ s.refcnt c := by
  have parts := count_references_eq s c
  rcases ht with ht | ht <;> rcases hu with hu | hu
  · have first := Multiset.one_le_count_iff_mem.mpr ht
    have second := Multiset.one_le_count_iff_mem.mpr hu
    have both := add_le_sum (fun v => (s.threadRefs v).count c) other
    rw [← Multiset.count_sum'] at both
    rw [inv.counted]
    omega
  · have first := Multiset.one_le_count_iff_mem.mpr ht
    have all := count_threadRefs_le s t c
    have none := (inv.zero hu).2
    omega
  · have first := Multiset.one_le_count_iff_mem.mpr hu
    have all := count_threadRefs_le s u c
    have none := (inv.zero ht).2
    omega
  · have first := Multiset.one_le_count_iff_mem.mpr ht
    have second := Multiset.one_le_count_iff_mem.mpr hu
    have both := add_le_sum (fun v => (s.pc v).zeros.count c) other
    rw [← Multiset.count_sum', ← State.zeros] at both
    have once := inv.zeroed c
    omega

omit [DecidableEq T] in
theorem State.Inv.live_two {s : State T M E} (inv : s.Inv) {m n : M} (other : m ≠ n)
    {c : Owner M E} (hm : s.live m = some c) (hn : s.live n = some c) : 2 ≤ s.refcnt c := by
  have parts := count_references_eq s c
  have both := add_le_sum (fun m => (ownerRefs (s.live m)).count c) other
  have first : (ownerRefs (s.live m)).count c = 1 := by simp [hm, ownerRefs]
  have second : (ownerRefs (s.live n)).count c = 1 := by simp [hn, ownerRefs]
  rw [← Multiset.count_sum'] at both
  rw [inv.counted]
  omega

/-- Two threads reach a count only while it is two or more. -/
theorem State.Inv.touches_two {s : State T M E} (inv : s.Inv) {t u : T} (other : t ≠ u)
    {c : Owner M E} (ht : s.Touches t c) (hu : s.Touches u c) : 2 ≤ s.refcnt c := by
  rcases ht with ht | ⟨m, hm, alone, ht⟩ <;> rcases hu with hu | ⟨n, hn, alone', hu⟩
  · exact inv.holds_two other ht hu
  · exact inv.holds_live ht hu
  · exact inv.holds_live hu ht
  · have apart : m ≠ n := by
      rintro rfl
      have shared := inv.holds_two other hm hn
      omega
    exact inv.live_two apart ht hu

omit [DecidableEq T] in
/-- The pool has a reference of its own. -/
theorem State.Inv.touches_pool {s : State T M E} (inv : s.Inv) {t : T} {m : M}
    (there : m ∈ s.pool) (ht : s.Touches t (.mbuf m)) : 2 ≤ s.refcnt (.mbuf m) := by
  have parts := count_references_eq s (.mbuf m)
  have first := Multiset.one_le_count_iff_mem.mpr
    (Multiset.mem_map_of_mem (Owner.mbuf (E := E)) there)
  have counted := inv.counted (.mbuf m)
  rcases ht with (ht | ht) | ⟨n, -, -, hn⟩
  · have second := Multiset.one_le_count_iff_mem.mpr ht
    have all := count_threadRefs_le s t (.mbuf m)
    omega
  · have none := (inv.zero ht).2
    omega
  · have second := live_le hn
    omega

omit [Fintype T] [DecidableEq M] [Fintype M] [DecidableEq T] [DecidableEq E] in
theorem left_of_pc {p : Pc M E} {m : M} (h : p.left = some m) :
    .mbuf m ∈ p.refs ∨ .mbuf m ∈ p.zeros := by
  have given : ∀ zeroed, Owner.mbuf (E := E) m ∈ kept m zeroed ∨
      Owner.mbuf (E := E) m ∈ unset m zeroed := by
    intro zeroed
    cases zeroed
    · exact .inl (Multiset.mem_singleton_self _)
    · exact .inr (Multiset.mem_singleton_self _)
  cases p with
  | freeOwner c n zeroed =>
    cases h
    exact (given zeroed).imp_right (Multiset.mem_cons_of_mem ·)
  | rawFree n k =>
    cases k with
    | none => cases h
    | some x =>
      cases h
      exact (given x.2).imp_left (Multiset.mem_cons_of_mem ·)
  | detach n zeroed =>
    cases h
    exact given zeroed
  | idle | update | attach | prefree | last | unlink => cases h

omit [Fintype T] [DecidableEq M] [Fintype M] [DecidableEq T] [DecidableEq E] in
theorem left_holds {s : State T M E} {t : T} {m : M} (h : (s.pc t).left = some m) :
    s.Holds t (.mbuf m) :=
  (left_of_pc h).imp_left fun refs => Multiset.mem_add.mpr (.inr refs)

omit [Fintype T] [DecidableEq M] [Fintype M] [DecidableEq T] [DecidableEq E] in
theorem State.Ends.le {s : State T M E} {m : M} {zeroed : Bool} (h : s.Ends m zeroed) :
    s.refcnt (.mbuf m) ≤ 1 := by
  unfold State.Ends at h
  split at h <;> omega

omit [DecidableEq T] in
theorem State.Inv.left_le {s : State T M E} (inv : s.Inv) {t : T} {m : M}
    (h : (s.pc t).left = some m) : s.refcnt (.mbuf m) ≤ 1 := by
  have known := inv.at_pc t
  cases p : s.pc t with
  | freeOwner c n zeroed =>
    rw [p] at h known
    cases h
    exact known.1.le
  | rawFree n k =>
    rw [p] at h known
    cases k with
    | none => cases h
    | some x =>
      cases h
      exact (known.2 x.1 x.2 rfl).le
  | detach n zeroed =>
    rw [p] at h known
    cases h
    exact State.Ends.le known
  | idle | update | attach | prefree | last | unlink =>
    rw [p] at h
    cases h

theorem State.Inv.not_left {s : State T M E} (inv : s.Inv) {t : T} {m : M}
    (ht : s.Holds t (.mbuf m)) (stays : (s.pc t).left ≠ some m) (u : T) :
    (s.pc u).left ≠ some m := by
  intro gone
  have other : t ≠ u := by
    rintro rfl
    exact stays gone
  have shared := inv.holds_two other ht (left_holds gone)
  have alone := inv.left_le gone
  omega

omit [Fintype T] [DecidableEq M] [Fintype M] [DecidableEq T] [DecidableEq E] in
theorem holds_held {s : State T M E} {m : M} (holds : m ∈ s.held t) :
    s.Holds t (.mbuf m) :=
  .inl (Multiset.mem_add.mpr (.inl (Multiset.mem_map_of_mem _ holds)))

/-- An mbuf in the hands of a thread refers to its owner until that thread gives it up. -/
theorem State.Inv.live_eq {s : State T M E} (inv : s.Inv) {t : T} {m : M}
    (ht : s.Holds t (.mbuf m)) (stays : (s.pc t).left ≠ some m) : s.live m = s.attached m := by
  unfold State.live
  rw [if_neg fun ⟨u, gone⟩ => inv.not_left ht stays u gone]

omit [DecidableEq T] in
theorem State.Inv.unowned {s : State T M E} (inv : s.Inv) {e : E} (own : e ∈ s.extBufs) :
    s.refcnt (.shinfo e) = 0 := by
  have first := Multiset.one_le_count_iff_mem.mpr
    (Multiset.mem_map_of_mem (Owner.shinfo (M := M)) own)
  have once := inv.zeroed (.shinfo e)
  omega

omit [DecidableEq T] in
theorem State.Inv.untouched {s : State T M E} (inv : s.Inv) {t : T} {e : E}
    (own : e ∈ s.extBufs) : ¬ s.Touches t (.shinfo e) := by
  have parts := count_references_eq s (.shinfo e)
  have counted := inv.counted (.shinfo e)
  have none := inv.unowned own
  rintro ((ht | ht) | ⟨m, -, -, hm⟩)
  · have second := Multiset.one_le_count_iff_mem.mpr ht
    have all := count_threadRefs_le s t (.shinfo e)
    omega
  · have first := Multiset.one_le_count_iff_mem.mpr
      (Multiset.mem_map_of_mem (Owner.shinfo (M := M)) own)
    have second := Multiset.one_le_count_iff_mem.mpr ht
    have all : (s.pc t).zeros.count (.shinfo e) ≤ s.zeros.count (.shinfo e) := by
      rw [State.zeros, Multiset.count_sum']
      exact le_sum (fun u => (s.pc u).zeros.count (.shinfo e)) t
    have once := inv.zeroed (.shinfo e)
    omega
  · have second := live_le hm
    omega

/-- A step of one thread: it writes counts that it can reach, or of an external buffer that
the application sets up, and fields of mbufs that it has for itself. -/
structure State.Moves (s s' : State T M E) (t : T) : Prop where
  others : ∀ u, u ≠ t → s'.pc u = s.pc u
  counts : ∀ c, s'.refcnt c = s.refcnt c ∨ s.Touches t c ∨ ∃ e ∈ s.extBufs, c = .shinfo e
  fields : ∀ m, (s'.attached m = s.attached m ∧ s'.next m = s.next m ∧ s'.nbSegs m = s.nbSegs m) ∨
    s.Holds t (.mbuf m) ∧ s.refcnt (.mbuf m) ≤ 1

section
variable {s s' : State T M E} {t u : T}

theorem State.Moves.count_stays (moves : s.Moves s' t) (inv : s.Inv) (other : u ≠ t)
    {c : Owner M E} (hu : s.Touches u c) (alone : s.refcnt c ≤ 1) :
    s'.refcnt c = s.refcnt c := by
  rcases moves.counts c with same | ht | ⟨e, own, rfl⟩
  · exact same
  · have shared := inv.touches_two other hu ht
    omega
  · exact absurd hu (inv.untouched own)

theorem State.Moves.fields_stay (moves : s.Moves s' t) (inv : s.Inv) (other : u ≠ t) {m : M}
    (hu : s.Holds u (.mbuf m)) :
    s'.attached m = s.attached m ∧ s'.next m = s.next m ∧ s'.nbSegs m = s.nbSegs m := by
  rcases moves.fields m with same | ⟨ht, alone⟩
  · exact same
  · have shared := inv.holds_two other hu ht
    omega

theorem State.Moves.ends_stays (moves : s.Moves s' t) (inv : s.Inv) (other : u ≠ t) {m : M}
    {zeroed : Bool} (hu : s.Holds u (.mbuf m)) (h : s.Ends m zeroed) : s'.Ends m zeroed :=
  (moves.count_stays inv other (.inl hu) h.le).trans h

/-- What one thread relies on survives the steps of the others. -/
theorem State.Moves.pcInv (moves : s.Moves s' t) (inv : s.Inv) (other : u ≠ t) :
    s'.PcInv (s'.pc u) := by
  have known := inv.at_pc u
  have refs : ∀ c, c ∈ (s.pc u).refs → s.Holds u c := fun c h =>
    .inl (Multiset.mem_add.mpr (.inr h))
  have zeros : ∀ c, c ∈ (s.pc u).zeros → s.Holds u c := fun c h => .inr h
  have freed : ∀ m zeroed, (∀ c : Owner M E, c ∈ kept m zeroed → c ∈ (s.pc u).refs) →
      (∀ c : Owner M E, c ∈ unset m zeroed → c ∈ (s.pc u).zeros) → s.Holds u (.mbuf m) := by
    intro m zeroed inRefs inZeros
    cases zeroed
    · exact refs _ (inRefs _ (Multiset.mem_singleton_self _))
    · exact zeros _ (inZeros _ (Multiset.mem_singleton_self _))
  rw [moves.others u other]
  cases p : s.pc u with
  | idle => trivial
  | prefree m => trivial
  | update c one k =>
    rw [p] at known refs zeros freed
    cases k with
    | share m =>
      obtain ⟨rfl, read⟩ := known
      have here := refs _ (Multiset.mem_singleton_self (Owner.mbuf m))
      refine ⟨rfl, fun h => ?_⟩
      rw [moves.count_stays inv other (.inl here) (read h).le, read h]
    | attach mi m =>
      obtain ⟨direct, only, rfl, sole, read⟩ := known
      have hmi := refs (.mbuf mi) (by simp [Pc.refs])
      have hm := refs (.mbuf m) (by simp [Pc.refs])
      have same := (moves.fields_stay inv other hm).1
      have owner : s'.owner m = s.owner m := by rw [State.owner, State.owner, same]
      refine ⟨(moves.fields_stay inv other hmi).1.trans direct, ?_, owner.symm, ?_, fun h => ?_⟩
      · rw [moves.count_stays inv other (.inl hmi) only.le, only]
      · rw [same]
        refine sole.imp_right fun one => ?_
        rw [moves.count_stays inv other (.inl hm) one.le, one]
      · rw [moves.count_stays inv other ?_ (read h).le, read h]
        cases points : s.attached m with
        | none => exact .inl (by rwa [State.owner, points])
        | some c =>
          have one := sole.resolve_left (by rw [points]; exact Option.some_ne_none c)
          refine .inr ⟨m, hm, one.le, ?_⟩
          rw [inv.live_eq hm (by rw [p]; exact (Option.some_ne_none m).symm), points, State.owner,
            points]
          rfl
    | detach m zeroed =>
      obtain ⟨ends, points, read⟩ := known
      have hm := freed m zeroed (fun _ h => h) (fun _ h => h)
      refine ⟨moves.ends_stays inv other hm ends,
        (moves.fields_stay inv other hm).1.trans points, fun h => ?_⟩
      rw [moves.count_stays inv other (.inr ⟨m, hm, ends.le, ?_⟩) (read h).le, read h]
      rw [inv.live_eq hm (by rw [p]; exact (Option.some_ne_none m).symm), points]
  | attach mi m c =>
    rw [p] at known refs
    obtain ⟨direct, only, rfl⟩ := known
    have hmi := refs (.mbuf mi) (by simp [Pc.refs])
    have hm := refs (.mbuf m) (by simp [Pc.refs])
    refine ⟨(moves.fields_stay inv other hmi).1.trans direct, ?_, ?_⟩
    · rw [moves.count_stays inv other (.inl hmi) only.le, only]
    · rw [State.owner, State.owner, (moves.fields_stay inv other hm).1]
  | last m zeroed =>
    rw [p] at known freed
    exact moves.ends_stays inv other (freed m zeroed (fun _ h => h) (fun _ h => h)) known
  | freeOwner c m zeroed =>
    rw [p] at known zeros freed
    obtain ⟨ends, none, direct⟩ := known
    have hc := zeros c (Multiset.mem_cons_self _ _)
    have hm := freed m zeroed (fun _ h => h) (fun _ h => Multiset.mem_cons_of_mem h)
    refine ⟨moves.ends_stays inv other hm ends, ?_, fun md h => ?_⟩
    · rw [moves.count_stays inv other (.inl hc) (by omega), none]
    · subst h
      exact (moves.fields_stay inv other hc).1.trans (direct md rfl)
  | rawFree m k =>
    rw [p] at known refs freed
    obtain ⟨ready, ends⟩ := known
    have hm := refs (.mbuf m) (Multiset.mem_cons_self _ _)
    obtain ⟨same, same', same''⟩ := moves.fields_stay inv other hm
    refine ⟨⟨same.trans ready.direct, ?_, same'.trans ready.next, same''.trans ready.nbSegs⟩, ?_⟩
    · rw [moves.count_stays inv other (.inl hm) ready.refcnt.le, ready.refcnt]
    · rintro n zeroed rfl
      exact moves.ends_stays inv other
        (freed n zeroed (fun _ h => Multiset.mem_cons_of_mem h) (fun _ h => h)) (ends n zeroed rfl)
  | detach m zeroed =>
    rw [p] at known freed
    exact moves.ends_stays inv other (freed m zeroed (fun _ h => h) (fun _ h => h)) known
  | unlink m zeroed =>
    rw [p] at known freed
    have hm := freed m zeroed (fun _ h => h) (fun _ h => h)
    exact ⟨moves.ends_stays inv other hm known.1,
      (moves.fields_stay inv other hm).1.trans known.2⟩

/-- The invariant after a step, from what the step does to the whole and to the thread. -/
theorem State.Moves.inv (moves : s.Moves s' t) (inv : s.Inv)
    (counted : ∀ c, s'.refcnt c = s'.references.count c)
    (zeroed : ∀ c, s'.zeros.count c + (s'.extBufs.map .shinfo).count c = 1 - s'.refcnt c)
    (direct : ∀ m md, s'.live m = some (.mbuf md) →
      s.live m = some (.mbuf md) ∨ s'.attached md = none)
    (pooled : ∀ m ∈ s'.pool, m ∈ s.pool ∨ s'.Ready m)
    (own : s'.PcInv (s'.pc t)) (fits : s'.Fits) : s'.Inv := by
  refine ⟨counted, zeroed, fun m md h => ?_, fun m h => ?_, fun u => ?_, fits⟩
  · rcases direct m md h with before | new
    · have none := inv.direct m md before
      rcases moves.fields md with ⟨same, -⟩ | ⟨holds, alone⟩
      · exact same.trans none
      · have shared := inv.holds_live holds before
        omega
    · exact new
  · rcases pooled m h with before | new
    · have ready := inv.pooled m before
      have one := ready.refcnt
      have count : s'.refcnt (.mbuf m) = 1 := by
        rcases moves.counts (.mbuf m) with same | touches | ⟨e, -, h⟩
        · exact same.trans one
        · have shared := inv.touches_pool before touches
          omega
        · cases h
      rcases moves.fields m with ⟨same, same', same''⟩ | ⟨holds, alone⟩
      · exact ⟨same.trans ready.direct, count, same'.trans ready.next, same''.trans ready.nbSegs⟩
      · have shared := inv.touches_pool before (.inl holds)
        omega
    · exact new
  · by_cases same : u = t
    · exact same ▸ own
    · exact moves.pcInv inv same

end

end

end MbufReferences
