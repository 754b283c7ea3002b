import DpdkFilter.KniWorld

/-!
# Control requests of the kernel

The kernel puts a request on req_q and waits for resp_q. The function the loop calls
its request handler moves packets and looks at neither FIFO, so a request stays where
it is for as long as the program runs; `rte_kni_handle_request`, which the program
never calls, would take it off and answer it.
-/

namespace KniRequests

open KniFifo Mbuf Kni LcoreMain LcoreRuns KniWorld

/-- The part of the interface that carries requests and answers. -/
structure RequestSide where
  reqQ : RteKniFifo Nat
  respQ : RteKniFifo Nat
  syncAddr : Nat
  sync : RteKniRequest

def requestSide (kni : RteKni) : RequestSide :=
  ⟨kni.reqQ, kni.respQ, kni.syncAddr, kni.sync⟩

/-- What a request that stood on req_q in `s` needs by `t`: it is off the FIFO, and its
answer is on resp_q unless the request is asynchronous. -/
structure Served (s t : RteKni) : Prop where
  taken : t.reqQ.standing.length < s.reqQ.standing.length
  answered : s.sync.async = false → s.syncAddr ∈ t.respQ.standing

/-! ## The calls of the loop -/

theorem kernelCall_requestSide (s : State) (call : KernelCall) :
    requestSide (kernelCall s call).kni = requestSide s.kni := by
  cases call with
  | kniNetTx skb =>
    rcases kniNetTx_spec s.kni skb with ⟨_, same⟩ | ⟨m, allocQ, txQ, _, _, heq⟩
    · exact congrArg requestSide same
    · rw [kernelCall, heq]
      rfl
  | kniNetRxNormal =>
    obtain ⟨rxQ, freeQ, heq⟩ := kniNetRxNormal_frame s.kni
    rw [kernelCall, heq]
    rfl

theorem kernelRuns_requestSide (env : Env) (s : State) :
    requestSide (kernelRuns env s).kni = requestSide s.kni := by
  have all : ∀ (calls : List KernelCall) (s : State),
      requestSide (calls.foldl kernelCall s).kni = requestSide s.kni := by
    intro calls
    induction calls with
    | nil => exact fun _ => rfl
    | cons call calls ih => exact fun s => (ih _).trans (kernelCall_requestSide s call)
  exact all _ _

theorem kniTxBurst_requestSide (m : RteMbuf) (s : State) :
    requestSide (kniTxBurst m s).2.kni = requestSide s.kni := by
  obtain ⟨num, rxQ, _, _, heq⟩ := rteKniTxBurst_spec s.kni s.pool [m]
  simp only [kniTxBurst, heq]
  rfl

theorem kniRxBurst_requestSide (s : State) :
    requestSide (kniRxBurst s).2.kni = requestSide s.kni := by
  obtain ⟨txQ, allocQ, _, frame⟩ := rteKniRxBurst_frame s.kni s.pool 1
  simp only [kniRxBurst, frame]
  rfl

theorem ethTxBurst_requestSide (env : Env) (m : RteMbuf) (s : State) :
    requestSide (ethTxBurst env m s).2.kni = requestSide s.kni := by
  unfold ethTxBurst
  split <;> rfl

theorem world_requestSide (env : Env) (r : RequestSide) :
    Holding env.world (fun _ s => requestSide s.kni = r) where
  received _ s h := (kernelRuns_requestSide env s).trans h
  accepted m _ s h _ := (kniTxBurst_requestSide m _).trans ((kernelRuns_requestSide env s).trans h)
  refused m _ s h _ := (kniTxBurst_requestSide m _).trans ((kernelRuns_requestSide env s).trans h)
  freed _ _ s h := (kernelRuns_requestSide env s).trans h
  write _ _ _ s h := (kernelRuns_requestSide env s).trans h
  ifNametoindex _ _ s h := (kernelRuns_requestSide env s).trans h
  sendto _ _ _ s h := (kernelRuns_requestSide env s).trans h
  paused s h := (kernelRuns_requestSide env s).trans h

/-- The request handler of the loop does not handle requests. -/
theorem handlerPart_requestSide (env : Env) (g : Globals) (s : State) :
    requestSide (handlerPart env.world g s).2.kni = requestSide s.kni := by
  have got := (kniRxBurst_requestSide (kernelRuns env s)).trans (kernelRuns_requestSide env s)
  have sent := fun m => (ethTxBurst_requestSide env m _).trans
    ((kernelRuns_requestSide env (kniRxBurst (kernelRuns env s)).2).trans got)
  rcases handlerPart_cases env.world g s with heq | ⟨_, heq⟩ | ⟨m, _, ⟨_, heq⟩ | ⟨_, heq⟩⟩ <;>
    rw [heq]
  · exact got
  · exact sent m
  · exact (kernelRuns_requestSide env _).trans (sent m)

theorem lcorePass_requestSide (env : Env) (g : Globals) (h : Head State) :
    requestSide (lcorePass env.world g h).2.world.kni = requestSide h.world.kni :=
  lcorePass_holding (world_requestSide env _) g h (handlerPart_requestSide env g h.world)

theorem lcoreMain_requestSide (env : Env) (g : Globals) (fuel : Nat) (h : Head State) :
    requestSide (lcoreMain env.world g fuel h).2.world.kni = requestSide h.world.kni := by
  induction fuel generalizing h with
  | zero => rfl
  | succ fuel ih =>
    simp only [lcoreMain]
    split
    · rfl
    · exact (ih _).trans (lcorePass_requestSide env g h)

/-- No iteration serves a request. -/
theorem lcorePass_never_serves (env : Env) (g : Globals) (h : Head State) :
    ¬ Served h.world.kni (lcorePass env.world g h).2.world.kni := by
  intro served
  have same := congrArg RequestSide.reqQ (lcorePass_requestSide env g h)
  have taken := served.taken
  simp only [requestSide] at same
  rw [same] at taken
  exact Nat.lt_irrefl _ taken

/-! ## The kernel waits in vain -/

/-- What a run of the loop makes of an interface. -/
def whileRunning (env : Env) (g : Globals) (fuel : Nat) (h : Head State) (kni : RteKni) : RteKni :=
  (lcoreMain env.world g fuel ⟨{ h.world with kni := kni }, h.counters⟩).2.world.kni

/-- However long the program runs meanwhile, the request ends with -ETIME. -/
theorem kniNetProcessRequest_times_out (env : Env) (g : Globals) (fuel : Nat) (h : Head State)
    (req : RteKniRequest) (idle : h.world.kni.respQ.standing = [])
    (room : h.world.kni.reqQ.standing.length < h.world.kni.reqQ.len - 1) :
    (kniNetProcessRequest (whileRunning env g fuel h) h.world.kni req).2.2 = -etime := by
  have put := kniFifoPut_count h.world.kni.reqQ [h.world.kni.syncAddr]
  rw [List.length_singleton] at put
  have sent : (kniNetSendRequest h.world.kni req).2 = true := by
    simp only [kniNetSendRequest, ge_iff_le, decide_eq_true_eq]
    omega
  have resp : (kniNetSendRequest h.world.kni req).1.respQ = h.world.kni.respQ := rfl
  unfold kniNetProcessRequest
  generalize kniNetSendRequest h.world.kni req = r at sent resp ⊢
  obtain ⟨kni, ok⟩ := r
  cases sent
  have same : (whileRunning env g fuel h kni).respQ = kni.respQ :=
    congrArg RequestSide.respQ (lcoreMain_requestSide env g fuel ⟨{ h.world with kni := kni }, _⟩)
  have none : kniFifoCount (whileRunning env g fuel h kni).respQ = 0 := by
    rw [kniFifoCount_eq, same, resp, idle]
    rfl
  simp only [kniNetTakeResponse, none, if_true]

/-- The call the loop lacks: it takes the request off and answers it. -/
theorem rteKniHandleRequest_serves (dev : EthControl) (kni : RteKni) (rest : List Nat)
    (requested : kni.reqQ.standing = kni.syncAddr :: rest)
    (room : kni.respQ.standing.length < kni.respQ.len - 1) :
    Served kni (rteKniHandleRequest dev kni).1 := by
  have front := kniFifoGet_standing kni.reqQ 1
  have count := kniFifoGet_count kni.reqQ 1
  rw [requested] at front count
  obtain ⟨left, hleft⟩ : ∃ f, (kniFifoGet kni.reqQ 1).1 = f := ⟨_, rfl⟩
  have one : kniFifoGet kni.reqQ 1 = (left, [kni.syncAddr]) := by
    obtain ⟨first, hfirst⟩ := List.length_eq_one_iff.mp (count.trans (by simp))
    rw [hfirst] at front
    cases (List.cons.inj front).1
    exact Prod.ext hleft hfirst
  have stays : left.standing = rest := by
    rw [one] at front
    exact (List.cons.inj front).2.symm
  have put := kniFifoPut_standing kni.respQ [kni.syncAddr]
  have stored : (kniFifoPut kni.respQ [kni.syncAddr]).2 = 1 := by
    rw [kniFifoPut_count, List.length_singleton]
    omega
  have shorter : left.standing.length < kni.reqQ.standing.length := by
    rw [stays, requested]
    exact Nat.lt_succ_self _
  simp only [rteKniHandleRequest, one, ne_eq, not_true, if_false]
  cases async : kni.sync.async with
  | true =>
    refine ⟨shorter, fun sync => ?_⟩
    rw [async] at sync
    cases sync
  | false =>
    refine ⟨shorter, fun _ => ?_⟩
    simp only [Bool.false_eq_true, if_false]
    rw [put, stored]
    simp

/-! ## Setting the interface up -/

/-- A new interface on which the kernel has put the request "interface up". -/
def upRequested : State where
  clock := 0
  kni := (kniNetSendRequest (kniCreated ⟨0, none, none, none, none, none⟩ 2176 4096
    ⟨0, [], false, 0⟩ (fun _ => RteMbuf.ofFrame 0 [] fun _ => 0) fun _ => 0)
    ⟨kniReqCfgNetworkIf, [1, 0, 0, 0, 0, 0], false, 0⟩).1
  pool := []
  rxRing := []
  txRing := []
  queued := []

theorem up_request_not_served :
    ¬ Served upRequested.kni
      (lcorePass Env.idle.world liveKni ⟨upRequested, ⟨0, 0, 0⟩⟩).2.world.kni := by
  intro served
  have taken := served.taken
  revert taken
  decide

end KniRequests
