import DpdkFilter.KniWorld

/-!
# From the kernel to the port

The handler takes one packet from the KNI and gives it to the port. A packet the
port does not accept is not freed: what the handler passes to `rte_pktmbuf_free` is
the address of its variable. So the custody of these buffers is in order in
exactly the runs in which the port accepts every packet.
-/

namespace KernelToNic

open Mbuf Kni LcoreMain LcoreRuns KniWorld

/-! ## The events of the handler -/

def handed (es : List HandlerEvent) : List RteMbuf :=
  es.filterMap fun
    | .rteKniRxBurst m => m
    | _ => none

def accepted (es : List HandlerEvent) : List RteMbuf :=
  es.filterMap fun
    | .rteEthTxBurst m true => some m
    | _ => none

def refused (es : List HandlerEvent) : List RteMbuf :=
  es.filterMap fun
    | .rteEthTxBurst m false => some m
    | _ => none

def freed (es : List HandlerEvent) : List FreeArg :=
  es.filterMap fun
    | .rtePktmbufFree arg => some arg
    | _ => none

/-- The mbufs given back by their own address. -/
def freedMbufs (es : List HandlerEvent) : List RteMbuf :=
  es.filterMap fun
    | .rtePktmbufFree (.mbuf m) => some m
    | _ => none

/-- One call of the handler disposes of what it was handed, and of nothing else. -/
structure Disposes (es : List HandlerEvent) : Prop where
  once : ∀ m ∈ handed es, tally m.addr (accepted es) + tally m.addr (freedMbufs es) = 1
  only : ∀ arg ∈ freed es, ∃ m ∈ handed es, arg = .mbuf m

/-- The handler's events of a run, in order. -/
def handled (passes : List Pass) : List HandlerEvent := passes.flatMap Pass.handler

/-- `rte_eth_tx_burst` returned 1 whenever it was called. -/
def AllAccepted (passes : List Pass) : Prop :=
  ∀ p ∈ passes, ∀ m nbTx, HandlerEvent.rteEthTxBurst m nbTx ∈ p.handler → nbTx = true

section
variable {σ : Type} (W : World σ) (g : Globals)

/-- What a refused packet leads to is no mbuf. -/
theorem disposes_iff (w : σ) :
    Disposes (handlerPart W g w).1 ↔ refused (handlerPart W g w).1 = [] := by
  rcases handlerPart_cases W g w with heq | ⟨_, heq⟩ | ⟨m, _, ⟨_, heq⟩ | ⟨_, heq⟩⟩ <;> rw [heq]
  · exact iff_of_true ⟨by simp [handed], by simp [freed]⟩ rfl
  · exact iff_of_true ⟨by simp [handed], by simp [freed]⟩ rfl
  · exact iff_of_true ⟨by simp [handed, accepted, freedMbufs, tally], by simp [freed]⟩ rfl
  · refine iff_of_false (fun h => ?_) (List.cons_ne_nil _ _)
    obtain ⟨_, _, wrong⟩ := h.only .pointerVariable (by simp [freed])
    cases wrong

theorem handler_accepted_sublist (w : σ) :
    (accepted (handlerPart W g w).1).Sublist (handed (handlerPart W g w).1) := by
  rcases handlerPart_cases W g w with heq | ⟨_, heq⟩ | ⟨m, _, ⟨_, heq⟩ | ⟨_, heq⟩⟩ <;> rw [heq]
  · exact List.Sublist.refl _
  · exact List.Sublist.refl _
  · exact List.Sublist.refl _
  · exact List.nil_sublist _

end

theorem refused_nil_iff (es : List HandlerEvent) :
    refused es = [] ↔ ∀ m nbTx, HandlerEvent.rteEthTxBurst m nbTx ∈ es → nbTx = true := by
  rw [refused, List.filterMap_eq_nil_iff]
  constructor
  · intro h m nbTx hmem
    cases nbTx with
    | true => rfl
    | false => cases h _ hmem
  · intro h e he
    match e, he with
    | .rteEthTxBurst m false, he => cases h m false he
    | .rteEthTxBurst m true, _ => rfl
    | .rteKniRxBurst m, _ => rfl
    | .rtePktmbufFree arg, _ => rfl

theorem handled_cons (p : Pass) (passes : List Pass) :
    handled (p :: passes) = p.handler ++ handled passes := rfl

theorem handed_append (es es' : List HandlerEvent) : handed (es ++ es') = handed es ++ handed es' :=
  List.filterMap_append

theorem accepted_append (es es' : List HandlerEvent) :
    accepted (es ++ es') = accepted es ++ accepted es' := List.filterMap_append

theorem refused_append (es es' : List HandlerEvent) :
    refused (es ++ es') = refused es ++ refused es' := List.filterMap_append

theorem allAccepted_iff (passes : List Pass) :
    AllAccepted passes ↔ ∀ p ∈ passes, refused p.handler = [] := by
  simp only [AllAccepted, refused_nil_iff]

theorem run_accepted_sublist {σ : Type} (W : World σ) (g : Globals) (fuel : Nat) (h : Head σ) :
    (accepted (handled (lcoreMain W g fuel h).1)).Sublist
      (handed (handled (lcoreMain W g fuel h).1)) := by
  induction fuel generalizing h with
  | zero => exact List.Sublist.refl _
  | succ fuel ih =>
    simp only [lcoreMain]
    split
    · exact List.Sublist.refl _
    · rw [handled_cons, accepted_append, handed_append]
      refine List.Sublist.append ?_ (ih _)
      rw [lcorePass_handler]
      exact handler_accepted_sublist W g h.world

/-! ## Order -/

/-- What stood on tx_q at the start and what was queued since is what was taken and
what stands there now. -/
def Taken (start : State) (taken : List RteMbuf) (s : State) : Prop :=
  ∃ new, s.queued = start.queued ++ new ∧
    start.kni.txQ.standing ++ new = taken ++ s.kni.txQ.standing

theorem Taken.of_same {start s t : State} {taken : List RteMbuf} (h : Taken start taken s)
    (queued : t.queued = s.queued) (txQ : t.kni.txQ = s.kni.txQ) : Taken start taken t := by
  unfold Taken
  rw [queued, txQ]
  exact h

theorem kernelCall_taken {start s : State} {taken : List RteMbuf} (call : KernelCall)
    (h : Taken start taken s) : Taken start taken (kernelCall s call) := by
  obtain ⟨new, history, order⟩ := h
  cases call with
  | kniNetTx skb =>
    rcases kniNetTx_spec s.kni skb with ⟨dropped, same⟩ | ⟨m, allocQ, txQ, _, put, heq⟩
    · exact ⟨new, by simp [kernelCall, dropped, history], by simp [kernelCall, same, order]⟩
    · refine ⟨new ++ [storeSkb m skb], by simp [kernelCall, heq, history], ?_⟩
      simp only [kernelCall, heq, put]
      rw [← List.append_assoc, order, List.append_assoc]
  | kniNetRxNormal =>
    obtain ⟨rxQ, freeQ, heq⟩ := kniNetRxNormal_frame s.kni
    exact Taken.of_same ⟨new, history, order⟩ rfl (by rw [kernelCall, heq])

theorem kernelRuns_taken {start s : State} {taken : List RteMbuf} (env : Env)
    (h : Taken start taken s) : Taken start taken (kernelRuns env s) := by
  have all : ∀ (calls : List KernelCall) (s : State), Taken start taken s →
      Taken start taken (calls.foldl kernelCall s) := by
    intro calls
    induction calls with
    | nil => exact fun _ h => h
    | cons call calls ih => exact fun s h => ih _ (kernelCall_taken call h)
  exact all _ _ (h.of_same rfl rfl)

theorem kniTxBurst_taken {start s : State} {taken : List RteMbuf} (m : RteMbuf)
    (h : Taken start taken s) : Taken start taken (kniTxBurst m s).2 := by
  obtain ⟨num, rxQ, _, _, heq⟩ := rteKniTxBurst_spec s.kni s.pool [m]
  exact h.of_same rfl (by simp only [kniTxBurst, heq]; rfl)

theorem ethTxBurst_taken {start s : State} {taken : List RteMbuf} (env : Env) (m : RteMbuf)
    (h : Taken start taken s) : Taken start taken (ethTxBurst env m s).2 := by
  unfold ethTxBurst
  split <;> exact h.of_same rfl rfl

theorem kniRxBurst_taken {start s : State} {taken : List RteMbuf} (h : Taken start taken s) :
    Taken start (taken ++ (kniRxBurst s).1.toList) (kniRxBurst s).2 := by
  obtain ⟨new, history, order⟩ := h
  obtain ⟨txQ, allocQ, front, frame⟩ := rteKniRxBurst_frame s.kni s.pool 1
  refine ⟨new, history, ?_⟩
  simp only [kniRxBurst, rteKniRxBurst_one, frame]
  rw [order, front, List.append_assoc]

theorem world_taken (env : Env) (start : State) (taken : List RteMbuf) :
    Holding env.world (fun _ s => Taken start taken s) where
  received _ _ h := (kernelRuns_taken env h).of_same rfl rfl
  accepted m _ _ h _ := kniTxBurst_taken m (kernelRuns_taken env h)
  refused m _ _ h _ := kniTxBurst_taken m (kernelRuns_taken env h)
  freed _ _ _ h := (kernelRuns_taken env h).of_same rfl rfl
  write _ _ _ _ h := kernelRuns_taken env h
  ifNametoindex _ _ _ h := kernelRuns_taken env h
  sendto _ _ _ _ h := kernelRuns_taken env h
  paused _ h := kernelRuns_taken env h

theorem handler_taken (env : Env) (g : Globals) {start s : State} {taken : List RteMbuf}
    (h : Taken start taken s) :
    Taken start (taken ++ handed (handlerPart env.world g s).1)
      (handlerPart env.world g s).2 := by
  have got := kniRxBurst_taken (kernelRuns_taken env h)
  rcases handlerPart_cases env.world g s with heq | ⟨hm, heq⟩ | ⟨m, hm, ⟨_, heq⟩ | ⟨_, heq⟩⟩ <;>
    rw [heq]
  · simpa [handed] using h
  · simp only [Env.world] at hm ⊢
    rw [hm] at got
    exact got
  · simp only [Env.world] at hm ⊢
    rw [hm] at got
    exact ethTxBurst_taken env m (kernelRuns_taken env got)
  · simp only [Env.world] at hm ⊢
    rw [hm] at got
    exact (kernelRuns_taken env (ethTxBurst_taken env m (kernelRuns_taken env got))).of_same rfl rfl

theorem run_taken (env : Env) (g : Globals) (fuel : Nat) {start : State} {taken : List RteMbuf}
    (h : Head State) (before : Taken start taken h.world) :
    Taken start (taken ++ handed (handled (lcoreMain env.world g fuel h).1))
      (lcoreMain env.world g fuel h).2.world := by
  induction fuel generalizing h taken with
  | zero => simpa [lcoreMain, handled, handed] using before
  | succ fuel ih =>
    simp only [lcoreMain]
    split
    · simpa [handled, handed] using before
    · have pass := lcorePass_holding (world_taken env start _) g h (handler_taken env g before)
      have rest := ih _ pass
      rw [handled_cons, handed_append, lcorePass_handler, ← List.append_assoc]
      exact rest

/-! ## Places -/

/-- Freeing the address of a variable leaves the pool's buffers alone. -/
def Quiet (env : Env) : Prop :=
  ∀ t pool a, tally a (env.freeOfVariable t pool) = tally a pool

/-- A refused packet is at no place afterwards. -/
theorem handler_places (env : Env) (g : Globals) (s : State) (a : Nat)
    (h : Quiet env ∨ refused (handlerPart env.world g s).1 = []) :
    (handlerPart env.world g s).2.places a + tally a (refused (handlerPart env.world g s).1) =
      s.places a := by
  have got := kniRxBurst_places (kernelRuns env s) a
  rw [kernelRuns_places] at got
  rcases handlerPart_cases env.world g s with heq | ⟨hm, heq⟩ | ⟨m, hm, ⟨hb, heq⟩ | ⟨hb, heq⟩⟩ <;>
    rw [heq] at h ⊢
  · exact rfl
  · simp only [Env.world] at hm ⊢
    rw [hm] at got
    exact got
  · simp only [Env.world] at hm hb ⊢
    have sent := ethTxBurst_places env m (kernelRuns env (kniRxBurst (kernelRuns env s)).2) a
    rw [hb, if_pos rfl, kernelRuns_places] at sent
    rw [hm] at got
    exact sent.trans got
  · have quiet : Quiet env := h.resolve_right (List.cons_ne_nil _ _)
    simp only [Env.world] at hm hb ⊢
    have sent := ethTxBurst_places env m (kernelRuns env (kniRxBurst (kernelRuns env s)).2) a
    rw [hb, if_neg Bool.false_ne_true, kernelRuns_places] at sent
    rw [hm] at got
    generalize ethTxBurst env m (kernelRuns env (kniRxBurst (kernelRuns env s)).2) = r at sent ⊢
    have kept := kernelRuns_places env r.2 a
    simp only [State.places] at kept
    simp only [pktmbufFree, State.places, quiet _ _ a]
    simp only [refused, List.filterMap_cons, List.filterMap_nil]
    simp only [State.places, Option.toList] at sent got
    omega

theorem run_places (env : Env) (g : Globals) (fuel : Nat) (h : Head State) (a : Nat)
    (hq : Quiet env ∨ AllAccepted (lcoreMain env.world g fuel h).1) :
    (lcoreMain env.world g fuel h).2.world.places a +
      tally a (refused (handled (lcoreMain env.world g fuel h).1)) = h.world.places a := by
  induction fuel generalizing h with
  | zero => rfl
  | succ fuel ih =>
    simp only [lcoreMain] at hq ⊢
    split
    · rfl
    · rename_i running
      rw [if_neg running, allAccepted_iff] at hq
      have first : Quiet env ∨ refused (handlerPart env.world g h.world).1 = [] := by
        refine hq.imp_right fun all => ?_
        rw [← lcorePass_handler]
        exact all _ List.mem_cons_self
      have later : Quiet env ∨ AllAccepted (lcoreMain env.world g fuel (lcorePass env.world g h).2).1 := by
        refine hq.imp_right fun all => ?_
        rw [allAccepted_iff]
        exact fun p hp => all p (List.mem_cons_of_mem _ hp)
      have handlerKept := handler_places env g h.world a first
      have pass := lcorePass_holding (world_holding env a
        ((handlerPart env.world g h.world).2.places a)) g h (Nat.add_zero _)
      have rest := ih _ later
      rw [handled_cons, refused_append, tally_append, lcorePass_handler]
      simp only [tally_nil] at pass
      dsimp only
      omega

/-! ## Custody -/

/-- The pool's buffers that are at no place. -/
def stray (all : List Nat) (s : State) : Nat := all.countP fun a => s.places a = 0

/-- The custody of the kernel's packets over a run of at most `fuel` iterations. -/
structure Custody (all : List Nat) (env : Env) (g : Globals) (fuel : Nat) (h : Head State) :
    Prop where
  disposed : ∀ p ∈ (lcoreMain env.world g fuel h).1, Disposes p.handler
  ordered : (accepted (handled (lcoreMain env.world g fuel h).1)).Sublist
    (h.world.kni.txQ.standing ++
      (lcoreMain env.world g fuel h).2.world.queued.drop h.world.queued.length)
  stray_le : ∀ j k, j ≤ k → k ≤ fuel →
    stray all (lcoreMain env.world g k h).2.world ≤ stray all (lcoreMain env.world g j h).2.world

theorem disposed_iff (env : Env) (g : Globals) (fuel : Nat) (h : Head State) :
    (∀ p ∈ (lcoreMain env.world g fuel h).1, Disposes p.handler) ↔
      AllAccepted (lcoreMain env.world g fuel h).1 := by
  rw [allAccepted_iff]
  refine forall₂_congr fun p hp => ?_
  obtain ⟨h', rfl⟩ := lcoreMain_pass env.world g fuel h p hp
  rw [lcorePass_handler]
  exact disposes_iff env.world g h'.world

theorem run_ordered (env : Env) (g : Globals) (fuel : Nat) (h : Head State) :
    (accepted (handled (lcoreMain env.world g fuel h).1)).Sublist
      (h.world.kni.txQ.standing ++
        (lcoreMain env.world g fuel h).2.world.queued.drop h.world.queued.length) := by
  have start : Taken h.world [] h.world := ⟨[], (List.append_nil _).symm, List.append_nil _⟩
  obtain ⟨new, history, order⟩ := run_taken env g fuel h start
  have queued : (lcoreMain env.world g fuel h).2.world.queued.drop h.world.queued.length = new := by
    rw [history, List.drop_left]
  rw [queued, order, List.nil_append]
  exact (run_accepted_sublist env.world g fuel h).trans (List.sublist_append_left _ _)

/-- With every packet accepted all buffers stay where the run can find them. -/
theorem run_stray (all : List Nat) (env : Env) (g : Globals) (fuel : Nat) (h : Head State)
    (sent : AllAccepted (lcoreMain env.world g fuel h).1) {k : Nat} (hk : k ≤ fuel) :
    stray all (lcoreMain env.world g k h).2.world = stray all h.world := by
  have upTo : AllAccepted (lcoreMain env.world g k h).1 :=
    fun p hp => sent p ((lcoreMain_passes_grow env.world g hk h).subset hp)
  have lost : refused (handled (lcoreMain env.world g k h).1) = [] := by
    rw [refused, handled, List.filterMap_flatMap, List.flatMap_eq_nil_iff]
    exact (allAccepted_iff _).mp upTo
  have same : ∀ a, (lcoreMain env.world g k h).2.world.places a = h.world.places a := by
    intro a
    have kept := run_places env g k h a (Or.inr upTo)
    rwa [lost, tally_nil, Nat.add_zero] at kept
  simp only [stray, same]

/-- Custody is in order exactly when the port accepts every packet. -/
theorem custody_iff_allAccepted (all : List Nat) (env : Env) (g : Globals) (fuel : Nat)
    (h : Head State) :
    Custody all env g fuel h ↔ AllAccepted (lcoreMain env.world g fuel h).1 := by
  constructor
  · exact fun custody => (disposed_iff env g fuel h).mp custody.disposed
  · intro sent
    refine ⟨(disposed_iff env g fuel h).mpr sent, run_ordered env g fuel h, ?_⟩
    intro j k hjk hk
    have later := run_stray all env g fuel h sent hk
    have earlier := run_stray all env g fuel h sent (Nat.le_trans hjk hk)
    exact Nat.le_of_eq (later.trans earlier.symm)

/-- Where freeing a variable does nothing to the pool, a refused packet's buffer is lost. -/
theorem refused_is_stray (env : Env) (quiet : Quiet env) (g : Globals) (fuel : Nat)
    (h : Head State) (a : Nat) (once : h.world.places a ≤ 1)
    (lost : 0 < tally a (refused (handled (lcoreMain env.world g fuel h).1))) :
    (lcoreMain env.world g fuel h).2.world.places a = 0 := by
  have kept := run_places env g fuel h a (Or.inl quiet)
  omega

/-! ## A full transmit ring -/

/-- The kernel queues one packet at the start, and the port answers `nbTx`. -/
def onePacket (nbTx : Bool) : Env :=
  { Env.idle with
    kernel := fun t => if t = 0 then [.kniNetTx [1, 2, 3]] else []
    rteEthTxBurst := fun _ => nbTx }

def blank (addr : Nat) : RteMbuf := RteMbuf.ofFrame addr [] fun _ => 0

/-- A new interface for which the application has given the kernel two of four buffers. -/
def twoGiven : State where
  clock := 0
  kni := (allocateUpTo 2 (kniCreated ⟨0, none, none, none, none, none⟩ 2176 1
    ⟨0, [], false, 0⟩ (fun _ => blank 0) fun _ => 0) [blank 100, blank 200]).1
  pool := [blank 300, blank 400]
  rxRing := []
  txRing := []
  queued := []

/-- One refused packet: its buffer is neither sent nor given back. -/
theorem refusal_breaks_custody :
    ¬ Custody [100, 200, 300, 400] (onePacket false) liveKni 1 ⟨twoGiven, ⟨0, 0, 0⟩⟩ := by
  intro custody
  have lost := custody.stray_le 0 1 (by decide) (by decide)
  revert lost
  decide

end KernelToNic
