import DpdkFilter.MbufSteps
import Mathlib.Data.Fintype.Prod

/-!
# Lifetimes of shared mbufs

However the threads are interleaved, an mbuf in its pool is out of reach of all of them, the
data of an mbuf at hand is not given back, and nothing is lost. This needs that an mbuf which
two threads hold is attached to only while it is direct.
-/

namespace MbufReferences

open Interleaving

universe u v w
variable {T : Type u} {M : Type v} {E : Type w}

/-! ## A clone that outlives its packet -/

section
variable [Fintype T] [Fintype M] [Fintype E] [DecidableEq T] [DecidableEq M] [DecidableEq E]

end

/-- Two threads hold an mbuf that is attached to another one, and both attach to it: each reads
the one reference of the other and writes two. Freeing what they attached gives the other back. -/
def bothAttach : List (Move Bool (Bool × Bool) Unit) :=
  let md := (false, false)
  let shared := (false, true)
  let first := (true, false)
  let second := (true, true)
  [.alloc false md, .alloc false shared, .attach false shared md, .access false, .access false,
    .share false shared, .access false, .hand false true shared, .free false md, .access false,
    .alloc false first, .alloc true second, .attach false first shared, .attach true second shared,
    .access false, .access true, .access false, .access true, .free false first, .access false,
    .access false, .access false, .access false, .access false, .free true second, .access true,
    .access true, .access true, .access true]

/-- So `alone` is needed: without it an mbuf can be in its pool while a thread holds one that
reads its data. -/
theorem data_given_back : ∃ s, (sharing Bool (Bool × Bool) Unit false).Reachable s ∧
    (false, false) ∈ s.pool ∧ (false, true) ∈ s.held false ∧
      s.attached (false, true) = some (.mbuf (false, false)) := by
  have runs : (System.follow (fun mv s => exec false s mv) bothAttach
      (.populated Bool (Bool × Bool) Unit)).map (fun s => decide
        ((false, false) ∈ s.pool ∧ (false, true) ∈ s.held false ∧
          s.attached (false, true) = some (.mbuf (false, false)))) = some true := by
    decide +kernel
  obtain ⟨s, hs, facts⟩ := Option.map_eq_some_iff.mp runs
  exact ⟨s, follow_reachable hs, of_decide_eq_true facts⟩

end MbufReferences
