import Mathlib.Data.List.Basic
import Mathlib.Data.List.Nodup
import Mathlib.Logic.Function.Basic

/-!
# Chains of linked records in two address spaces

A chain is a record with those reached from it over `next`, up to the null address. Two
parties that know the records by different addresses hand chains to each other: one
rewrites every link, the other rewrites them back.
-/

namespace LinkedChains

universe u v w
variable {A : Type u}

/-- `rest` are the records after `v`. -/
def IsChain (null : A) (next : A → A) : A → List A → Prop
  | v, [] => next v = null
  | v, w :: rest => next v = w ∧ w ≠ null ∧ IsChain null next w rest

theorem IsChain.congr {null : A} {next next' : A → A} {v : A} {rest : List A}
    (chain : IsChain null next v rest) (same : ∀ u ∈ v :: rest, next' u = next u) :
    IsChain null next' v rest := by
  induction rest generalizing v with
  | nil => exact (same v List.mem_cons_self).trans chain
  | cons w rest ih =>
    obtain ⟨link, some, tail⟩ := chain
    refine ⟨(same v List.mem_cons_self).trans link, some, ?_⟩
    exact ih tail fun u hu => same u (List.mem_cons_of_mem v hu)

variable [DecidableEq A] (f : A → A)

/-- Rewrite every link of a chain. -/
def relink (next : A → A) : A → List A → A → A
  | _, [] => next
  | v, w :: rest => relink (Function.update next v (f w)) w rest

variable {f}

theorem relink_of_notMem {next : A → A} {u v : A} {rest : List A} (h : u ∉ v :: rest) :
    relink f next v rest u = next u := by
  induction rest generalizing v next with
  | nil => rfl
  | cons w rest ih =>
    obtain ⟨other, later⟩ := not_or.mp (mt List.mem_cons.mpr h)
    rw [relink, ih later, Function.update_of_ne other]

theorem relink_update {next : A → A} {u v x : A} {rest : List A} (h : u ∉ v :: rest) :
    relink f (Function.update next u x) v rest = Function.update (relink f next v rest) u x := by
  induction rest generalizing v next with
  | nil => rfl
  | cons w rest ih =>
    obtain ⟨other, later⟩ := not_or.mp (mt List.mem_cons.mpr h)
    rw [relink, relink, Function.update_comm other, ih later]

theorem relink_cons {next : A → A} {v w : A} {rest : List A} (h : v ∉ w :: rest) :
    relink f next v (w :: rest) = Function.update (relink f next w rest) v (f w) :=
  relink_update h

/-- Rewriting the links of separate chains, in any order. -/
theorem relink_comm {next : A → A} {u v : A} {us vs : List A}
    (disjoint : ∀ x ∈ u :: us, x ∉ v :: vs) :
    relink f (relink f next u us) v vs = relink f (relink f next v vs) u us := by
  induction us generalizing u next with
  | nil => rfl
  | cons w us ih =>
    have here : u ∉ v :: vs := disjoint u List.mem_cons_self
    rw [relink, relink, ih fun x hx => disjoint x (List.mem_cons_of_mem u hx), relink_update here]

/-- A chain whose links have all been rewritten is as before only where no address changed. -/
theorem relink_eq_self_iff {null : A} {next : A → A} {v : A} {rest : List A}
    (chain : IsChain null next v rest) (nodup : (v :: rest).Nodup) :
    relink f next v rest = next ↔ ∀ w ∈ rest, f w = w := by
  induction rest generalizing v with
  | nil => simp [relink]
  | cons w rest ih =>
    obtain ⟨link, _, tail⟩ := chain
    obtain ⟨new, later⟩ := List.nodup_cons.mp nodup
    have kept : relink f next w rest v = next v := relink_of_notMem new
    rw [relink_cons new, List.forall_mem_cons, ← ih tail later]
    constructor
    · intro same
      have here := congrFun same v
      rw [Function.update_self, link] at here
      have whole : Function.update (relink f next w rest) v w = relink f next w rest :=
        Function.update_eq_self_iff.mpr (link.symm.trans kept.symm)
      rw [here, whole] at same
      exact ⟨here, same⟩
    · rintro ⟨here, same⟩
      rw [same, here]
      exact Function.update_eq_self_iff.mpr link.symm

/-! ## Several chains -/

variable (f) in
def relinkAll (next : A → A) (chains : List (A × List A)) : A → A :=
  chains.foldl (fun next c => relink f next c.1 c.2) next

/-- The records of all chains. -/
def records (chains : List (A × List A)) : List A := chains.flatMap fun c => c.1 :: c.2

theorem relinkAll_of_notMem {next : A → A} {u : A} {chains : List (A × List A)}
    (h : u ∉ records chains) : relinkAll f next chains u = next u := by
  induction chains generalizing next with
  | nil => rfl
  | cons c chains ih =>
    obtain ⟨other, later⟩ := not_or.mp (mt List.mem_append.mpr h)
    exact (ih later).trans (relink_of_notMem other)

theorem relinkAll_relink {next : A → A} {c : A × List A} {chains : List (A × List A)}
    (disjoint : ∀ x ∈ c.1 :: c.2, x ∉ records chains) :
    relinkAll f (relink f next c.1 c.2) chains = relink f (relinkAll f next chains) c.1 c.2 := by
  induction chains generalizing next with
  | nil => rfl
  | cons d chains ih =>
    have apart : ∀ x ∈ c.1 :: c.2, x ∉ d.1 :: d.2 ∧ x ∉ records chains := fun x hx =>
      not_or.mp (mt List.mem_append.mpr (disjoint x hx))
    rw [relinkAll, List.foldl_cons, relink_comm fun x hx => (apart x hx).1]
    exact ih fun x hx => (apart x hx).2

theorem relinkAll_cons {next : A → A} {c : A × List A} {chains : List (A × List A)}
    (nodup : (records (c :: chains)).Nodup) :
    relinkAll f next (c :: chains) = relink f (relinkAll f next chains) c.1 c.2 :=
  relinkAll_relink fun _ hx => List.disjoint_of_nodup_append nodup hx

theorem relinkAll_eq_self_iff {null : A} {next : A → A} {chains : List (A × List A)}
    (isChain : ∀ c ∈ chains, IsChain null next c.1 c.2) (nodup : (records chains).Nodup) :
    relinkAll f next chains = next ↔ ∀ c ∈ chains, ∀ w ∈ c.2, f w = w := by
  induction chains with
  | nil => simp [relinkAll]
  | cons c chains ih =>
    obtain ⟨here, later⟩ := List.forall_mem_cons.mp isChain
    have apart := List.disjoint_of_nodup_append nodup
    obtain ⟨own, others, _⟩ := List.nodup_append.mp nodup
    have chain : IsChain null (relinkAll f next chains) c.1 c.2 :=
      here.congr fun u hu => relinkAll_of_notMem fun h => apart hu h
    rw [List.forall_mem_cons, ← ih later others, relinkAll_cons nodup]
    constructor
    · intro same
      have rest : relinkAll f next chains = next := by
        funext u
        by_cases hu : u ∈ c.1 :: c.2
        · exact relinkAll_of_notMem fun h => apart hu h
        · have out : relink f (relinkAll f next chains) c.1 c.2 u = relinkAll f next chains u :=
            relink_of_notMem hu
          rw [← out, same]
      rw [rest] at same
      exact ⟨(relink_eq_self_iff here own).mp same, rest⟩
    · rintro ⟨same, rest⟩
      rw [rest]
      exact (relink_eq_self_iff here own).mpr same

/-- One item after the other changes the links and yields something. -/
def eachInTurn {I : Type v} {B : Type w} (step : I → (A → A) → (A → A) × B) :
    (A → A) → List I → (A → A) × List B
  | next, [] => (next, [])
  | next, i :: items =>
    let r := step i next
    let rest := eachInTurn step r.1 items
    (rest.1, r.2 :: rest.2)

/-- Chains whose links have been rewritten are given back in turn: of those marked the links
are rewritten again, and the others stay rewritten. -/
theorem eachInTurn_relinkAll {I : Type v} {B : Type w} {null : A}
    (step : I → (A → A) → (A → A) × B) (item : (A × List A) × Bool → I)
    (out : (A × List A) × Bool → B) {next : A → A} {chains : List ((A × List A) × Bool)}
    (undoes : ∀ c ∈ chains, ∀ next, IsChain null next c.1.1 c.1.2 →
      step (item c) (relink f next c.1.1 c.1.2) =
        (if c.2 then next else relink f next c.1.1 c.1.2, out c))
    (isChain : ∀ c ∈ chains, IsChain null next c.1.1 c.1.2)
    (nodup : (records (chains.map Prod.fst)).Nodup) :
    eachInTurn step (relinkAll f next (chains.map Prod.fst)) (chains.map item) =
      (relinkAll f next ((chains.filter fun c => !c.2).map Prod.fst), chains.map out) := by
  induction chains generalizing next with
  | nil => rfl
  | cons c chains ih =>
    obtain ⟨c, back⟩ := c
    obtain ⟨here, later⟩ := List.forall_mem_cons.mp isChain
    obtain ⟨undoesHere, undoesLater⟩ := List.forall_mem_cons.mp undoes
    have apart := List.disjoint_of_nodup_append nodup
    obtain ⟨own, others, _⟩ := List.nodup_append.mp nodup
    have chain : IsChain null (relinkAll f next (chains.map Prod.fst)) c.1 c.2 :=
      here.congr fun u hu => relinkAll_of_notMem fun h => apart hu h
    rw [List.map_cons, List.map_cons, relinkAll_cons nodup, eachInTurn, undoesHere _ chain]
    cases back with
    | true =>
      simp only [if_true]
      rw [ih undoesLater later others]
      rfl
    | false =>
      have still : ∀ d ∈ chains, IsChain null (relink f next c.1 c.2) d.1.1 d.1.2 := by
        intro d hd
        refine (later d hd).congr fun u hu => relink_of_notMem fun h => apart h ?_
        exact List.mem_flatMap.mpr ⟨d.1, List.mem_map_of_mem hd, hu⟩
      simp only [Bool.false_eq_true, if_false]
      rw [← relinkAll_relink fun _ hx => apart hx, ih undoesLater still others]
      rfl

end LinkedChains
