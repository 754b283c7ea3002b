import DpdkFilter.Interleaving
import DpdkFilter.Kni
import Mathlib.Algebra.Order.Ring.Int
import Mathlib.Logic.Function.Iterate

/-!
# Requests between the kernel and the application

A network call of the kernel copies its request to `sync`, puts the address of it into
req_q and waits for an answer, three seconds at most; the next call uses the same `sync`.
The application takes the address off, calls back and puts it into resp_q.
-/

namespace KniControl

open ByteOrder Interleaving Kni KniFifo Mbuf

def eaddrnotavail : Int := 99

/-- What the calls write of the network device. -/
structure Netdev where
  mtu : UInt32
  devAddr : List UInt8
  queueStarted : Bool

/-- The calls that send a request. The flags of `changeRxFlags` are the state of those that
have changed. -/
inductive NetOp where
  | netOpen
  | netRelease
  | changeMtu (newMtu : UInt32)
  | changeRxFlags (allmulti promisc : Option Bool)
  | setMac (addr : List UInt8)
  deriving DecidableEq

def flagPayload (on : Bool) : List UInt8 := [if on then 1 else 0, 0, 0, 0, 0, 0]

def mtuPayload (newMtu : UInt32) : List UInt8 :=
  [UInt8.ofNat newMtu.toNat, UInt8.ofNat (newMtu.toNat / 256), UInt8.ofNat (newMtu.toNat / 65536),
    UInt8.ofNat (newMtu.toNat / 16777216), 0, 0]

/-- The request after `memset` and the assignments. -/
def NetOp.request : NetOp → RteKniRequest
  | .netOpen => ⟨kniReqCfgNetworkIf, flagPayload true, false, 0⟩
  | .netRelease => ⟨kniReqCfgNetworkIf, flagPayload false, false, 0⟩
  | .changeMtu newMtu => ⟨kniReqChangeMtu, mtuPayload newMtu, false, 0⟩
  -- both flags share the byte, and the second assignment stays
  | .changeRxFlags _ (some promisc) => ⟨kniReqChangePromisc, flagPayload promisc, false, 0⟩
  | .changeRxFlags (some allmulti) none => ⟨kniReqChangeAllmulti, flagPayload allmulti, false, 0⟩
  | .changeRxFlags none none => ⟨0, flagPayload false, false, 0⟩
  | .setMac addr => ⟨kniReqChangeMacAddr, addr, false, 0⟩

/-- Neither a multicast address nor zero. -/
def isValidEtherAddr (addr : List UInt8) : Bool :=
  addr.getD 0 0 &&& 1 = 0 && addr.any (· ≠ 0)

/-- The device when the request is sent; a call can end before that. -/
def NetOp.starts (d : Netdev) : NetOp → Option Netdev
  | .netOpen => some { d with queueStarted := true }
  | .netRelease => some { d with queueStarted := false }
  | .setMac addr => if isValidEtherAddr addr then some { d with devAddr := addr } else none
  | _ => some d

/-- The device once `kni_net_process_request` has returned `ret`. -/
def NetOp.ends (ret result : Int) (d : Netdev) : NetOp → Netdev
  | .changeMtu newMtu => if ret = 0 ∧ result = 0 then { d with mtu := newMtu } else d
  | _ => d

/-- A call under `sync_lock` between two of its accesses. -/
inductive CallPc where
  | copied
  | waiting
  | woken
  | fetched
  deriving DecidableEq

/-- `rte_kni_handle_request` between two of its accesses; `called` has what the callback
returned, if there is one. -/
inductive HandlePc where
  | idle
  | taken
  | switched (id : UInt32)
  | called (res : Option Int)
  | stored
  deriving DecidableEq

/-- A call that has returned: what `kni_net_process_request` returned to it, and the result
in its request. -/
structure Finished where
  op : NetOp
  ret : Int
  result : Int
  deriving DecidableEq

/-- `giveUps` counts the calls that have not waited for their answer, `dropped` the answers
for which resp_q was full, and `wrong` the addresses that were not that of `sync`. -/
structure State where
  kni : RteKni
  netdev : Netdev
  caller : Option (NetOp × CallPc)
  handler : HandlePc
  finished : List Finished
  giveUps : Nat
  dropped : Nat
  wrong : Nat

def State.finish (s : State) (op : NetOp) (ret result : Int) : State :=
  { s with
    netdev := op.ends ret result s.netdev
    caller := none
    finished := s.finished ++ [⟨op, ret, result⟩] }

/-- A call takes the lock and copies its request. -/
def State.call (s : State) (op : NetOp) : State :=
  match op.starts s.netdev with
  | none => { s with finished := s.finished ++ [⟨op, -eaddrnotavail, 0⟩] }
  | some d =>
    { s with netdev := d, kni := { s.kni with sync := op.request }, caller := some (op, .copied) }

/-- The accesses of `kni_net_process_request`. -/
def State.kernelAccess (s : State) (op : NetOp) : CallPc → State
  | .copied =>
    let (reqQ, num) := kniFifoPut s.kni.reqQ [s.kni.syncAddr]
    let s := { s with kni := { s.kni with reqQ := reqQ } }
    if num < 1 then s.finish op (-ebusy) op.request.result
    else { s with caller := some (op, .waiting) }
  | .waiting => if kniFifoCount s.kni.respQ ≠ 0 then { s with caller := some (op, .woken) } else s
  | .woken =>
    match kniFifoGet s.kni.respQ 1 with
    | (respQ, [resp]) =>
      let s := { s with kni := { s.kni with respQ := respQ } }
      if resp ≠ s.kni.syncAddr then s.finish op (-enodata) op.request.result
      else { s with caller := some (op, .fetched) }
    | (respQ, _) =>
      { s with kni := { s.kni with respQ := respQ } }.finish op (-enodata) op.request.result
  | .fetched => s.finish op 0 s.kni.sync.result

/-- The time is over, or a signal has come. -/
def State.giveUp (s : State) (op : NetOp) : State :=
  { s.finish op (-etime) op.request.result with giveUps := s.giveUps + 1 }

/-- The callback, or the default for a port; `none` where nothing is called. -/
def callback {A : Type} (cb default : Option (UInt16 → A → Int)) (portId : UInt16) (arg : A) :
    Option Int :=
  match cb with
  | some f => some (f portId arg)
  | none => if portId ≠ 0xFFFF then default.map fun f => f portId arg else none

/-- What the `switch` of `rte_kni_handle_request` writes into the request. -/
def written (dev : EthControl) (ops : RteKniOps) (req : RteKniRequest) : Option Int :=
  if req.reqId = kniReqChangeMtu then callback ops.changeMtu none ops.portId req.newMtu
  else if req.reqId = kniReqCfgNetworkIf then
    callback ops.configNetworkIf none ops.portId req.flag
  else if req.reqId = kniReqChangeMacAddr then
    callback ops.configMacAddress (some (kniConfigMacAddress dev)) ops.portId req.payload
  else if req.reqId = kniReqChangePromisc then
    callback ops.configPromiscusity (some (kniConfigPromiscusity dev)) ops.portId req.flag
  else if req.reqId = kniReqChangeAllmulti then
    callback ops.configAllmulticast (some (kniConfigAllmulticast dev)) ops.portId req.flag
  else some (-einval)

/-- The accesses of `rte_kni_handle_request`. -/
def State.handlerAccess (dev : EthControl) (s : State) : State :=
  match s.handler with
  | .idle =>
    match kniFifoGet s.kni.reqQ 1 with
    | (reqQ, [req]) =>
      let s := { s with kni := { s.kni with reqQ := reqQ } }
      if req ≠ s.kni.syncAddr then { s with wrong := s.wrong + 1 }
      else { s with handler := .taken }
    | (reqQ, _) => { s with kni := { s.kni with reqQ := reqQ } }
  | .taken => { s with handler := .switched s.kni.sync.reqId }
  | .switched id =>
    { s with handler := .called (written dev s.kni.ops { s.kni.sync with reqId := id }) }
  | .called res =>
    { s with
      kni := { s.kni with sync := { s.kni.sync with result := res.getD s.kni.sync.result } }
      handler := .stored }
  | .stored =>
    if s.kni.sync.async then { s with handler := .idle }
    else
      let (respQ, ret) := kniFifoPut s.kni.respQ [s.kni.syncAddr]
      { s with
        kni := { s.kni with respQ := respQ }
        handler := .idle
        dropped := if ret ≠ 1 then s.dropped + 1 else s.dropped }

/-- The kernel may stop waiting at any moment. -/
inductive Step (dev : EthControl) : State → State → Prop where
  | call (s : State) (op : NetOp) (idle : s.caller = none) : Step dev s (s.call op)
  | kernel (s : State) (op : NetOp) (pc : CallPc) (at_pc : s.caller = some (op, pc)) :
      Step dev s (s.kernelAccess op pc)
  | giveUp (s : State) (op : NetOp) (at_pc : s.caller = some (op, .waiting)) :
      Step dev s (s.giveUp op)
  | handler (s : State) : Step dev s (s.handlerAccess dev)

def State.created (kni : RteKni) (netdev : Netdev) : State :=
  ⟨kni, netdev, none, .idle, [], 0, 0, 0⟩

/-- From an interface as `rte_kni_alloc` has set it up. -/
def control (dev : EthControl) (ops : RteKniOps) (mtu : UInt32) : System State where
  Init s := ∃ mbufSize syncAddr sync memory words devAddr queueStarted,
    s = .created (kniCreated ops mbufSize syncAddr sync memory words)
      ⟨mtu, devAddr, queueStarted⟩
  Step := Step dev

inductive Move where
  | call (op : NetOp)
  | kernel
  | giveUp
  | handler

def exec (dev : EthControl) (s : State) : Move → Option State
  | .call op => if s.caller.isNone then some (s.call op) else none
  | .kernel => s.caller.map fun call => s.kernelAccess call.1 call.2
  | .giveUp =>
    match s.caller with
    | some (op, .waiting) => some (s.giveUp op)
    | _ => none
  | .handler => some (s.handlerAccess dev)

theorem exec_step {dev : EthControl} {s t : State} {mv : Move} (h : exec dev s mv = some t) :
    Step dev s t := by
  cases mv with
  | call op =>
    simp only [exec, Option.isNone_iff_eq_none] at h
    split at h
    · rename_i idle
      cases h
      exact .call s op idle
    · cases h
  | kernel =>
    obtain ⟨⟨op, pc⟩, at_pc, rfl⟩ := Option.map_eq_some_iff.mp h
    exact .kernel s op pc at_pc
  | giveUp =>
    simp only [exec] at h
    split at h
    · rename_i at_pc
      cases h
      exact .giveUp s _ at_pc
    · cases h
  | handler =>
    cases h
    exact .handler s

/-! ## The accesses together are the calls -/

theorem callOrDefault_eq {A : Type} (cb : Option (UInt16 → A → Int)) (default : UInt16 → A → Int)
    (portId : UInt16) (arg : A) (result : Int) : callOrDefault cb default portId arg result =
      (callback cb (some default) portId arg).getD result := by
  cases cb with
  | some f => rfl
  | none =>
    simp only [callOrDefault, callback, Option.map_some]
    split <;> rfl

theorem callback_none {A : Type} (portId : UInt16) (arg : A) :
    callback (none : Option (UInt16 → A → Int)) none portId arg = none := by
  simp only [callback, Option.map_none, ite_self]

theorem requestResult_eq (dev : EthControl) (ops : RteKniOps) (req : RteKniRequest) :
    requestResult dev ops req = (written dev ops req).getD req.result := by
  simp only [requestResult, written, callOrDefault_eq]
  split
  · cases ops.changeMtu with
    | some f => rfl
    | none => rw [callback_none, Option.getD_none]
  · split
    · cases ops.configNetworkIf with
      | some f => rfl
      | none => rw [callback_none, Option.getD_none]
    · repeat (split; · rfl)
      rfl

theorem kniFifoPut_room {α : Type} {f : RteKniFifo α} (x : α)
    (room : f.standing.length < f.len - 1) :
    (kniFifoPut f [x]).2 = 1 ∧ (kniFifoPut f [x]).1.standing = f.standing ++ [x] := by
  have stored : (kniFifoPut f [x]).2 = 1 := by
    rw [kniFifoPut_count, List.length_singleton]
    omega
  refine ⟨stored, ?_⟩
  rw [kniFifoPut_standing, stored]
  rfl

theorem kniFifoPut_full {α : Type} {f : RteKniFifo α} (x : α)
    (full : ¬ f.standing.length < f.len - 1) :
    (kniFifoPut f [x]).2 = 0 ∧ (kniFifoPut f [x]).1.standing = f.standing := by
  have stored : (kniFifoPut f [x]).2 = 0 := by
    rw [kniFifoPut_count, List.length_singleton]
    omega
  refine ⟨stored, ?_⟩
  rw [kniFifoPut_standing, stored, List.take_zero, List.append_nil]

theorem kniFifoGet_first {α : Type} {f : RteKniFifo α} {x : α} {rest : List α}
    (h : f.standing = x :: rest) :
    (kniFifoGet f 1).2 = [x] ∧ (kniFifoGet f 1).1.standing = rest := by
  have front := kniFifoGet_standing f 1
  have count := kniFifoGet_count f 1
  rw [h] at front count
  obtain ⟨first, hfirst⟩ := List.length_eq_one_iff.mp (count.trans (by simp))
  rw [hfirst] at front ⊢
  obtain ⟨same, left⟩ := List.cons.inj front
  exact ⟨same ▸ rfl, left.symm⟩

theorem kniFifoGet_none {α : Type} {f : RteKniFifo α} (h : f.standing = []) :
    (kniFifoGet f 1).2 = [] ∧ (kniFifoGet f 1).1.standing = [] := by
  have front := kniFifoGet_standing f 1
  rw [h] at front
  exact List.append_eq_nil_iff.mp front.symm

/-- The application takes a request off req_q. -/
theorem handlerAccess_takes (dev : EthControl) {s : State} (idle : s.handler = .idle)
    {rest : List Nat} (requested : s.kni.reqQ.standing = s.kni.syncAddr :: rest) :
    s.handlerAccess dev =
      { s with kni := { s.kni with reqQ := (kniFifoGet s.kni.reqQ 1).1 }, handler := .taken } := by
  obtain ⟨got, _⟩ := kniFifoGet_first requested
  have pair : kniFifoGet s.kni.reqQ 1 = ((kniFifoGet s.kni.reqQ 1).1, [s.kni.syncAddr]) :=
    Prod.ext rfl got
  rw [State.handlerAccess, idle]
  simp only
  rw [pair]
  simp

theorem handlerAccess_finds_none (dev : EthControl) {s : State} (idle : s.handler = .idle)
    (none : s.kni.reqQ.standing = []) :
    s.handlerAccess dev = { s with kni := { s.kni with reqQ := (kniFifoGet s.kni.reqQ 1).1 } } := by
  obtain ⟨got, _⟩ := kniFifoGet_none none
  have pair : kniFifoGet s.kni.reqQ 1 = ((kniFifoGet s.kni.reqQ 1).1, []) := Prod.ext rfl got
  rw [State.handlerAccess, idle]
  simp only
  rw [pair]

/-- The kernel takes an answer off resp_q. -/
theorem kernelAccess_takes {s : State} (op : NetOp) {rest : List Nat}
    (answered : s.kni.respQ.standing = s.kni.syncAddr :: rest) :
    s.kernelAccess op .woken =
      { s with
        kni := { s.kni with respQ := (kniFifoGet s.kni.respQ 1).1 }
        caller := some (op, .fetched) } := by
  obtain ⟨got, _⟩ := kniFifoGet_first answered
  have pair : kniFifoGet s.kni.respQ 1 = ((kniFifoGet s.kni.respQ 1).1, [s.kni.syncAddr]) :=
    Prod.ext rfl got
  rw [State.kernelAccess, pair]
  simp

/-- The five accesses of the application with nothing between them. -/
theorem handlerAccess_whole (dev : EthControl) (s : State) (idle : s.handler = .idle)
    (own : ∃ rest, s.kni.reqQ.standing = s.kni.syncAddr :: rest) :
    ((State.handlerAccess dev)^[5] s).kni = (rteKniHandleRequest dev s.kni).1 := by
  obtain ⟨rest, requested⟩ := own
  obtain ⟨got, _⟩ := kniFifoGet_first requested
  have pair : kniFifoGet s.kni.reqQ 1 = ((kniFifoGet s.kni.reqQ 1).1, [s.kni.syncAddr]) :=
    Prod.ext rfl got
  rw [rteKniHandleRequest, pair, Function.iterate_succ_apply,
    handlerAccess_takes dev idle requested]
  simp only [Function.iterate_succ_apply, Function.iterate_zero, id, State.handlerAccess,
    requestResult_eq, ne_eq, not_true, if_false]
  cases async : s.kni.sync.async with
  | true => rfl
  | false => rfl

/-- The first access after the copy is the end of `kniNetSendRequest`. -/
theorem kernelAccess_sends (s : State) (op : NetOp) (copied : s.kni.sync = op.request) :
    (s.kernelAccess op .copied).kni = (kniNetSendRequest s.kni op.request).1 := by
  simp only [State.kernelAccess, kniNetSendRequest]
  rw [← copied]
  split <;> rfl

/-- The last two, once there is an answer, are `kniNetTakeResponse`. -/
theorem kernelAccess_answered (s : State) (op : NetOp) {rest : List Nat}
    (answered : s.kni.respQ.standing = s.kni.syncAddr :: rest) :
    (((s.kernelAccess op .woken).kernelAccess op .fetched).kni, s.kni.sync, (0 : Int)) =
      kniNetTakeResponse s.kni op.request := by
  obtain ⟨got, _⟩ := kniFifoGet_first answered
  have pair : kniFifoGet s.kni.respQ 1 = ((kniFifoGet s.kni.respQ 1).1, [s.kni.syncAddr]) :=
    Prod.ext rfl got
  have there : kniFifoCount s.kni.respQ ≠ 0 := by
    rw [kniFifoCount_eq, answered]
    exact Nat.succ_ne_zero _
  rw [kernelAccess_takes op answered, kniNetTakeResponse, if_neg there, pair]
  simp [State.kernelAccess, State.finish]

/-! ## Every request is on its way to an answer -/

def HandlePc.busy : HandlePc → Nat
  | .idle => 0
  | _ => 1

/-- Whether a call waits for an answer it has not taken. -/
def CallPc.waits : CallPc → Nat
  | .waiting => 1
  | .woken => 1
  | _ => 0

theorem CallPc.waits_le (pc : CallPc) : pc.waits ≤ 1 := by
  cases pc <;> decide

def State.awaited (s : State) : Nat := s.caller.elim 0 fun call => call.2.waits

/-- The requests and answers that nobody has taken. -/
def State.entries (s : State) : Nat :=
  s.kni.reqQ.standing.length + s.handler.busy + s.kni.respQ.standing.length

structure Inv (s : State) : Prop where
  reqs : ∀ x ∈ s.kni.reqQ.standing, x = s.kni.syncAddr
  resps : ∀ x ∈ s.kni.respQ.standing, x = s.kni.syncAddr
  reqLen : s.kni.reqQ.len = kniFifoCountMax
  respLen : s.kni.respQ.len = kniFifoCountMax
  backlog : s.entries + s.dropped = s.giveUps + s.awaited
  woken : ∀ op, s.caller = some (op, .woken) → s.kni.respQ.standing ≠ []
  sync : s.caller ≠ none ∨ 0 < s.kni.reqQ.standing.length + s.handler.busy →
    s.kni.sync.async = false
  full : s.dropped = 0 ∨ kniFifoCountMax - 1 ≤ s.giveUps
  right : s.wrong = 0
  errors : ∀ f ∈ s.finished, f.ret ≠ -enodata ∧ (f.ret = -ebusy → kniFifoCountMax - 1 ≤ s.giveUps)

theorem request_async (op : NetOp) : op.request.async = false := by
  cases op with
  | changeRxFlags allmulti promisc => cases promisc <;> cases allmulti <;> rfl
  | _ => rfl

/-- A call that ends is added to those that have ended. -/
theorem Inv.finish {s t : State} (op : NetOp) {ret result : Int}
    (errors : ∀ f ∈ s.finished, f.ret ≠ -enodata ∧
      (f.ret = -ebusy → kniFifoCountMax - 1 ≤ s.giveUps))
    (more : s.giveUps ≤ t.giveUps) (ended : t.finished = s.finished ++ [⟨op, ret, result⟩])
    (fine : ret ≠ -enodata ∧ (ret = -ebusy → kniFifoCountMax - 1 ≤ t.giveUps)) :
    ∀ f ∈ t.finished, f.ret ≠ -enodata ∧ (f.ret = -ebusy → kniFifoCountMax - 1 ≤ t.giveUps) := by
  intro f hf
  rw [ended] at hf
  rcases List.mem_append.mp hf with before | last
  · obtain ⟨no, busy⟩ := errors f before
    exact ⟨no, fun h => Nat.le_trans (busy h) more⟩
  · rw [List.mem_singleton.mp last]
    exact fine

theorem Inv.call {s : State} (inv : Inv s) (op : NetOp) (idle : s.caller = none) :
    Inv (s.call op) := by
  have backlog := inv.backlog
  rw [State.awaited, idle] at backlog
  unfold State.call
  split
  · exact ⟨inv.reqs, inv.resps, inv.reqLen, inv.respLen, inv.backlog, inv.woken, inv.sync,
      inv.full, inv.right, Inv.finish op inv.errors (Nat.le_refl _) rfl
        ⟨by decide, fun h => absurd h (by decide)⟩⟩
  · refine ⟨inv.reqs, inv.resps, inv.reqLen, inv.respLen, backlog, ?_, fun _ => request_async op,
      inv.full, inv.right, inv.errors⟩
    intro op' h
    cases h

theorem Inv.copied {s : State} (inv : Inv s) {op : NetOp} (at_pc : s.caller = some (op, .copied)) :
    Inv (s.kernelAccess op .copied) := by
  have backlog := inv.backlog
  have reqLen := inv.reqLen
  simp only [State.awaited, at_pc, State.entries] at backlog
  simp only [State.kernelAccess]
  by_cases room : s.kni.reqQ.standing.length < s.kni.reqQ.len - 1
  · obtain ⟨one, standing⟩ := kniFifoPut_room s.kni.syncAddr room
    rw [one, if_neg (by decide)]
    constructor
    · intro x hx
      simp only [standing] at hx
      rcases List.mem_append.mp hx with before | last
      · exact inv.reqs x before
      · exact List.mem_singleton.mp last
    · exact inv.resps
    · exact reqLen
    · exact inv.respLen
    · simp only [State.entries, State.awaited, standing, List.length_append, Option.elim,
        CallPc.waits, List.length_singleton] at backlog ⊢
      omega
    · intro op' h
      cases h
    · intro _
      exact inv.sync (.inl (by rw [at_pc]; exact Option.some_ne_none _))
    · exact inv.full
    · exact inv.right
    · exact inv.errors
  · obtain ⟨none, standing⟩ := kniFifoPut_full s.kni.syncAddr room
    rw [none, if_pos (by decide)]
    simp only [Option.elim, CallPc.waits] at backlog
    constructor
    · intro x hx
      simp only [State.finish, standing] at hx
      exact inv.reqs x hx
    · exact inv.resps
    · exact reqLen
    · exact inv.respLen
    · simp only [State.entries, State.finish, State.awaited, standing, Option.elim]
      exact backlog
    · intro op' h
      cases h
    · intro _
      exact inv.sync (.inl (by rw [at_pc]; exact Option.some_ne_none _))
    · exact inv.full
    · exact inv.right
    · refine Inv.finish op inv.errors (Nat.le_refl _) rfl ⟨by decide, fun _ => ?_⟩
      simp only [State.finish]
      omega

theorem Inv.waiting {s : State} (inv : Inv s) {op : NetOp}
    (at_pc : s.caller = some (op, .waiting)) : Inv (s.kernelAccess op .waiting) := by
  have backlog := inv.backlog
  simp only [State.awaited, at_pc] at backlog
  simp only [State.kernelAccess]
  split
  · rename_i there
    rw [kniFifoCount_eq] at there
    refine ⟨inv.reqs, inv.resps, inv.reqLen, inv.respLen, backlog, fun _ _ none => ?_,
      fun _ => inv.sync (.inl (by rw [at_pc]; exact Option.some_ne_none _)), inv.full, inv.right,
      inv.errors⟩
    exact there (congrArg List.length none)
  · exact inv

theorem Inv.woken_first {s : State} (inv : Inv s) {op : NetOp}
    (at_pc : s.caller = some (op, .woken)) :
    ∃ rest, s.kni.respQ.standing = s.kni.syncAddr :: rest := by
  obtain ⟨first, rest, there⟩ := List.exists_cons_of_ne_nil (inv.woken op at_pc)
  have same := inv.resps first (by rw [there]; exact List.mem_cons_self)
  exact ⟨rest, same ▸ there⟩

theorem Inv.fetch {s : State} (inv : Inv s) {op : NetOp} (at_pc : s.caller = some (op, .woken)) :
    Inv (s.kernelAccess op .woken) := by
  obtain ⟨rest, there⟩ := inv.woken_first at_pc
  obtain ⟨_, standing⟩ := kniFifoGet_first there
  have backlog := inv.backlog
  have resps := inv.resps
  simp only [State.awaited, at_pc, State.entries, there, List.length_cons, Option.elim,
    CallPc.waits] at backlog
  rw [there] at resps
  rw [kernelAccess_takes op there]
  refine ⟨inv.reqs, fun x hx => ?_, inv.reqLen, inv.respLen, ?_, fun _ h => ?_,
    fun _ => inv.sync (.inl (by rw [at_pc]; exact Option.some_ne_none _)), inv.full, inv.right,
    inv.errors⟩
  · simp only [standing] at hx
    exact resps x (List.mem_cons_of_mem _ hx)
  · simp only [State.entries, State.awaited, standing, Option.elim, CallPc.waits]
    omega
  · cases h

theorem Inv.fetched {s : State} (inv : Inv s) {op : NetOp}
    (at_pc : s.caller = some (op, .fetched)) : Inv (s.kernelAccess op .fetched) := by
  have backlog := inv.backlog
  simp only [State.awaited, at_pc] at backlog
  refine ⟨inv.reqs, inv.resps, inv.reqLen, inv.respLen, backlog, fun _ h => ?_,
    fun _ => inv.sync (.inl (by rw [at_pc]; exact Option.some_ne_none _)), inv.full, inv.right,
    Inv.finish op inv.errors (Nat.le_refl _) rfl
      ⟨by decide, fun h => absurd h (by decide)⟩⟩
  cases h

theorem Inv.giveUp {s : State} (inv : Inv s) {op : NetOp}
    (at_pc : s.caller = some (op, .waiting)) : Inv (s.giveUp op) := by
  have backlog := inv.backlog
  simp only [State.awaited, at_pc, Option.elim, CallPc.waits] at backlog
  refine ⟨inv.reqs, inv.resps, inv.reqLen, inv.respLen, backlog, fun _ h => ?_,
    fun _ => inv.sync (.inl (by rw [at_pc]; exact Option.some_ne_none _)), ?_, inv.right,
    Inv.finish op inv.errors (Nat.le_succ _) rfl
      ⟨by decide, fun h => absurd h (by decide)⟩⟩
  · cases h
  · rcases inv.full with none | many
    · exact .inl none
    · exact .inr (Nat.le_succ_of_le many)

theorem Inv.poll (dev : EthControl) {s : State} (inv : Inv s) (idle : s.handler = .idle) :
    Inv (s.handlerAccess dev) := by
  have backlog := inv.backlog
  cases requested : s.kni.reqQ.standing with
  | nil =>
    obtain ⟨_, standing⟩ := kniFifoGet_none requested
    simp only [State.entries, requested] at backlog
    rw [handlerAccess_finds_none dev idle requested]
    refine ⟨fun x hx => ?_, inv.resps, inv.reqLen, inv.respLen, ?_, inv.woken, fun h => ?_,
      inv.full, inv.right, inv.errors⟩
    · simp only [standing] at hx
      cases hx
    · simp only [State.entries, standing]
      exact backlog
    · simp only [standing] at h
      exact inv.sync (by rw [requested]; exact h)
  | cons first rest =>
    have reqs := inv.reqs
    rw [requested] at reqs
    have same := reqs first List.mem_cons_self
    subst same
    obtain ⟨_, standing⟩ := kniFifoGet_first requested
    simp only [State.entries, requested, idle, HandlePc.busy, List.length_cons] at backlog
    have sent := inv.sync (.inr (by rw [requested, List.length_cons]; omega))
    rw [handlerAccess_takes dev idle requested]
    refine ⟨fun x hx => ?_, inv.resps, inv.reqLen, inv.respLen, ?_, inv.woken, fun _ => sent,
      inv.full, inv.right, inv.errors⟩
    · simp only [standing] at hx
      exact reqs x (List.mem_cons_of_mem _ hx)
    · simp only [State.entries, standing, HandlePc.busy]
      simp only [State.awaited] at backlog ⊢
      omega

/-- The answer finds room in resp_q unless very many calls have given up. -/
theorem Inv.stored (dev : EthControl) {s : State} (inv : Inv s) (stored : s.handler = .stored) :
    Inv (s.handlerAccess dev) := by
  have backlog := inv.backlog
  have sync := inv.sync (.inr (by rw [stored]; exact Nat.succ_pos _))
  have respLen := inv.respLen
  have once : s.awaited ≤ 1 := by
    unfold State.awaited
    cases s.caller with
    | none => exact Nat.zero_le _
    | some call =>
      exact call.2.waits_le
  simp only [State.entries, stored, HandlePc.busy] at backlog
  simp only [State.handlerAccess, stored, sync, Bool.false_eq_true, if_false]
  by_cases room : s.kni.respQ.standing.length < s.kni.respQ.len - 1
  · obtain ⟨one, standing⟩ := kniFifoPut_room s.kni.syncAddr room
    simp only [one, ne_eq, not_true, if_false]
    refine ⟨inv.reqs, fun x hx => ?_, inv.reqLen, respLen, ?_, fun _ _ none => ?_, fun _ => sync,
      inv.full, inv.right, inv.errors⟩
    · simp only [standing] at hx
      rcases List.mem_append.mp hx with before | last
      · exact inv.resps x before
      · exact List.mem_singleton.mp last
    · simp only [State.entries, standing, HandlePc.busy, List.length_append,
        List.length_singleton]
      simp only [State.awaited] at backlog ⊢
      omega
    · simp only [standing] at none
      exact List.append_ne_nil_of_right_ne_nil _ (List.cons_ne_nil _ _) none
  · obtain ⟨zero, standing⟩ := kniFifoPut_full s.kni.syncAddr room
    simp only [zero, ne_eq, Nat.zero_ne_one, not_false_iff, if_true]
    refine ⟨inv.reqs, fun x hx => ?_, inv.reqLen, respLen, ?_, fun op h => ?_, fun _ => sync,
      .inr ?_, inv.right, inv.errors⟩
    · simp only [standing] at hx
      exact inv.resps x hx
    · simp only [State.entries, standing, HandlePc.busy]
      simp only [State.awaited] at backlog ⊢
      omega
    · simp only [standing]
      exact inv.woken op h
    · simp only
      omega

theorem Inv.handlerAccess (dev : EthControl) {s : State} (inv : Inv s) :
    Inv (s.handlerAccess dev) := by
  have backlog := inv.backlog
  have sent : s.handler.busy = 1 → s.kni.sync.async = false := fun busy =>
    inv.sync (.inr (by rw [busy]; exact Nat.succ_pos _))
  cases at_pc : s.handler with
  | idle => exact inv.poll dev at_pc
  | taken =>
    simp only [State.entries, at_pc] at backlog
    simp only [State.handlerAccess, at_pc]
    exact ⟨inv.reqs, inv.resps, inv.reqLen, inv.respLen, backlog, inv.woken,
      fun _ => sent (by rw [at_pc]; rfl), inv.full, inv.right, inv.errors⟩
  | switched id =>
    simp only [State.entries, at_pc] at backlog
    simp only [State.handlerAccess, at_pc]
    exact ⟨inv.reqs, inv.resps, inv.reqLen, inv.respLen, backlog, inv.woken,
      fun _ => sent (by rw [at_pc]; rfl), inv.full, inv.right, inv.errors⟩
  | called res =>
    simp only [State.entries, at_pc] at backlog
    simp only [State.handlerAccess, at_pc]
    exact ⟨inv.reqs, inv.resps, inv.reqLen, inv.respLen, backlog, inv.woken,
      fun _ => sent (by rw [at_pc]; rfl), inv.full, inv.right, inv.errors⟩
  | stored => exact inv.stored dev at_pc

theorem Inv.step {dev : EthControl} {s t : State} (inv : Inv s) (h : Step dev s t) : Inv t := by
  cases h with
  | call op idle => exact inv.call op idle
  | kernel op pc at_pc =>
    cases pc with
    | copied => exact inv.copied at_pc
    | waiting => exact inv.waiting at_pc
    | woken => exact inv.fetch at_pc
    | fetched => exact inv.fetched at_pc
  | giveUp op at_pc => exact inv.giveUp at_pc
  | handler => exact inv.handlerAccess dev

/-! ## While nobody gives up, each call gets its own answer -/

def answered (dev : EthControl) (ops : RteKniOps) (op : NetOp) : RteKniRequest :=
  { op.request with result := requestResult dev ops op.request }

/-- How far the application has come with the request of a call that waits. -/
def Handling (dev : EthControl) (ops : RteKniOps) (s : State) (op : NetOp) : Prop :=
  match s.handler with
  | .idle =>
    (s.kni.respQ.standing = [] ∧ s.kni.sync = op.request) ∨
      (s.kni.respQ.standing ≠ [] ∧ s.kni.sync = answered dev ops op)
  | .taken => s.kni.sync = op.request
  | .switched id => id = op.request.reqId ∧ s.kni.sync = op.request
  | .called res => res = written dev ops op.request ∧ s.kni.sync = op.request
  | .stored => s.kni.sync = answered dev ops op

def Progress (dev : EthControl) (ops : RteKniOps) (s : State) : Prop :=
  match s.caller with
  | none => True
  | some (op, .copied) => s.kni.sync = op.request
  | some (op, .waiting) => Handling dev ops s op
  | some (op, .woken) => s.kni.sync = answered dev ops op
  | some (op, .fetched) => s.kni.sync = answered dev ops op

/-- A call ended with the answer to its own request, or the kernel refused the address. -/
def Finished.Own (dev : EthControl) (ops : RteKniOps) (f : Finished) : Prop :=
  (f.ret = 0 ∧ f.result = requestResult dev ops f.op.request) ∨
    (f.ret = -eaddrnotavail ∧ ∃ addr, f.op = .setMac addr ∧ isValidEtherAddr addr = false)

structure Own (dev : EthControl) (ops : RteKniOps) (mtu : UInt32) (s : State) : Prop where
  progress : Progress dev ops s
  finished : ∀ f ∈ s.finished, f.Own dev ops
  mtu : s.netdev.mtu = mtu ∨ requestResult dev ops (NetOp.changeMtu s.netdev.mtu).request = 0

/-- Nothing is on its way when nobody waits. -/
theorem Inv.quiet {s : State} (inv : Inv s) (patient : s.giveUps = 0) (nobody : s.awaited = 0) :
    s.kni.reqQ.standing = [] ∧ s.handler = .idle ∧ s.kni.respQ.standing = [] := by
  have backlog := inv.backlog
  simp only [State.entries] at backlog
  refine ⟨List.eq_nil_of_length_eq_zero (by omega), ?_, List.eq_nil_of_length_eq_zero (by omega)⟩
  cases at_pc : s.handler with
  | idle => rfl
  | _ =>
    simp only [at_pc, HandlePc.busy] at backlog
    omega

/-- What the application works on is the request of a call that waits. -/
theorem Inv.working {s : State} (inv : Inv s) (patient : s.giveUps = 0)
    (work : 0 < s.kni.reqQ.standing.length + s.handler.busy) :
    (∃ op, s.caller = some (op, .waiting)) ∧ s.kni.respQ.standing = [] := by
  have backlog := inv.backlog
  simp only [State.entries, State.awaited] at backlog
  cases at_pc : s.caller with
  | none =>
    simp only [at_pc, Option.elim] at backlog
    omega
  | some call =>
    obtain ⟨op, pc⟩ := call
    have le := pc.waits_le
    simp only [at_pc, Option.elim] at backlog
    have none : s.kni.respQ.standing = [] := List.eq_nil_of_length_eq_zero (by omega)
    refine ⟨⟨op, ?_⟩, none⟩
    cases pc with
    | waiting => rfl
    | woken => exact False.elim (inv.woken op at_pc none)
    | copied =>
      simp only [CallPc.waits] at backlog
      omega
    | fetched =>
      simp only [CallPc.waits] at backlog
      omega

section
variable {dev : EthControl} {ops : RteKniOps} {mtu : UInt32} {s : State}

theorem Own.finish (own : Own dev ops mtu s) {t : State} (op : NetOp) {ret result : Int}
    (ended : t.finished = s.finished ++ [⟨op, ret, result⟩])
    (fine : Finished.Own dev ops ⟨op, ret, result⟩) : ∀ f ∈ t.finished, f.Own dev ops := by
  intro f hf
  rw [ended] at hf
  rcases List.mem_append.mp hf with before | last
  · exact own.finished f before
  · rw [List.mem_singleton.mp last]
    exact fine

theorem NetOp.starts_mtu {d d' : Netdev} {op : NetOp} (h : op.starts d = some d') :
    d'.mtu = d.mtu := by
  cases op with
  | setMac addr =>
    simp only [NetOp.starts] at h
    split at h
    · cases h
      rfl
    · cases h
  | _ =>
    cases h
    rfl

theorem NetOp.refused {d : Netdev} {op : NetOp} (h : op.starts d = none) :
    ∃ addr, op = .setMac addr ∧ isValidEtherAddr addr = false := by
  cases op with
  | setMac addr =>
    simp only [NetOp.starts] at h
    split at h
    · cases h
    · rename_i invalid
      exact ⟨addr, rfl, Bool.eq_false_of_not_eq_true invalid⟩
  | _ => cases h

theorem Own.call (own : Own dev ops mtu s) (op : NetOp) (idle : s.caller = none) :
    Own dev ops mtu (s.call op) := by
  unfold State.call
  split
  · rename_i refused
    refine ⟨?_, own.finish op rfl (.inr ⟨rfl, NetOp.refused refused⟩), own.mtu⟩
    simp only [Progress, idle]
  · rename_i started
    refine ⟨rfl, own.finished, ?_⟩
    simp only [NetOp.starts_mtu started]
    exact own.mtu

theorem Own.copied (own : Own dev ops mtu s) (inv : Inv s) (patient : s.giveUps = 0) {op : NetOp}
    (at_pc : s.caller = some (op, .copied)) : Own dev ops mtu (s.kernelAccess op .copied) := by
  obtain ⟨none, idle, silent⟩ := inv.quiet patient (by rw [State.awaited, at_pc]; rfl)
  have sync := own.progress
  simp only [Progress, at_pc] at sync
  have room : s.kni.reqQ.standing.length < s.kni.reqQ.len - 1 := by
    rw [none, inv.reqLen]
    decide
  obtain ⟨one, _⟩ := kniFifoPut_room s.kni.syncAddr room
  simp only [State.kernelAccess, one, Nat.lt_irrefl, if_false]
  refine ⟨?_, own.finished, own.mtu⟩
  simp only [Progress, Handling, idle]
  exact .inl ⟨silent, sync⟩

theorem Own.wake (own : Own dev ops mtu s) (inv : Inv s) (patient : s.giveUps = 0) {op : NetOp}
    (at_pc : s.caller = some (op, .waiting)) : Own dev ops mtu (s.kernelAccess op .waiting) := by
  have handling := own.progress
  simp only [Progress, at_pc] at handling
  simp only [State.kernelAccess]
  split
  · rename_i there
    rw [kniFifoCount_eq] at there
    have backlog := inv.backlog
    simp only [State.entries, State.awaited, at_pc, Option.elim, CallPc.waits] at backlog
    have idle : s.handler = .idle := by
      cases h : s.handler with
      | idle => rfl
      | _ =>
        simp only [h, HandlePc.busy] at backlog
        omega
    refine ⟨?_, own.finished, own.mtu⟩
    simp only [Handling, idle] at handling
    rcases handling with ⟨silent, _⟩ | ⟨_, sync⟩
    · exact False.elim (there (congrArg List.length silent))
    · exact sync
  · exact own

theorem Own.fetch (own : Own dev ops mtu s) (inv : Inv s) {op : NetOp}
    (at_pc : s.caller = some (op, .woken)) : Own dev ops mtu (s.kernelAccess op .woken) := by
  obtain ⟨rest, there⟩ := inv.woken_first at_pc
  have sync := own.progress
  simp only [Progress, at_pc] at sync
  rw [kernelAccess_takes op there]
  exact ⟨sync, own.finished, own.mtu⟩

theorem Own.fetched (own : Own dev ops mtu s) {op : NetOp}
    (at_pc : s.caller = some (op, .fetched)) : Own dev ops mtu (s.kernelAccess op .fetched) := by
  have sync := own.progress
  simp only [Progress, at_pc] at sync
  have result : s.kni.sync.result = requestResult dev ops op.request := by rw [sync]; rfl
  refine ⟨trivial, own.finish op rfl (.inl ⟨rfl, result⟩), ?_⟩
  cases op with
  | changeMtu newMtu =>
    simp only [State.kernelAccess, State.finish, NetOp.ends, true_and]
    split
    · rename_i accepted
      exact .inr (result ▸ accepted)
    · exact own.mtu
  | _ => exact own.mtu

theorem Own.handlerAccess (own : Own dev ops mtu s) (inv : Inv s) (patient : s.giveUps = 0)
    (fixed : s.kni.ops = ops) : Own dev ops mtu (s.handlerAccess dev) := by
  have progress := own.progress
  cases at_pc : s.handler with
  | idle =>
    cases requested : s.kni.reqQ.standing with
    | nil =>
      rw [handlerAccess_finds_none dev at_pc requested]
      exact ⟨progress, own.finished, own.mtu⟩
    | cons first rest =>
      have same := inv.reqs first (by rw [requested]; exact List.mem_cons_self)
      subst same
      obtain ⟨⟨op, waits⟩, silent⟩ :=
        inv.working patient (by rw [requested, List.length_cons]; omega)
      rw [handlerAccess_takes dev at_pc requested]
      refine ⟨?_, own.finished, own.mtu⟩
      simp only [Progress, waits, Handling, at_pc] at progress ⊢
      rcases progress with ⟨_, sync⟩ | ⟨answer, _⟩
      · exact sync
      · exact False.elim (answer silent)
  | taken =>
    obtain ⟨⟨op, waits⟩, _⟩ := inv.working patient (by rw [at_pc]; exact Nat.succ_pos _)
    simp only [Progress, waits, Handling, at_pc] at progress
    refine ⟨?_, ?_, ?_⟩ <;> simp only [State.handlerAccess, at_pc]
    · simp only [Progress, waits, Handling, progress, and_self]
    · exact own.finished
    · exact own.mtu
  | switched id =>
    obtain ⟨⟨op, waits⟩, _⟩ := inv.working patient (by rw [at_pc]; exact Nat.succ_pos _)
    simp only [Progress, waits, Handling, at_pc] at progress
    obtain ⟨rfl, sync⟩ := progress
    refine ⟨?_, ?_, ?_⟩ <;> simp only [State.handlerAccess, at_pc]
    · simp only [Progress, waits, Handling, sync, fixed, and_self]
    · exact own.finished
    · exact own.mtu
  | called res =>
    obtain ⟨⟨op, waits⟩, _⟩ := inv.working patient (by rw [at_pc]; exact Nat.succ_pos _)
    simp only [Progress, waits, Handling, at_pc] at progress
    obtain ⟨rfl, sync⟩ := progress
    refine ⟨?_, ?_, ?_⟩ <;> simp only [State.handlerAccess, at_pc]
    · simp only [Progress, waits, Handling, sync, answered, requestResult_eq]
    · exact own.finished
    · exact own.mtu
  | stored =>
    obtain ⟨⟨op, waits⟩, silent⟩ := inv.working patient (by rw [at_pc]; exact Nat.succ_pos _)
    have sent := inv.sync (.inl (by rw [waits]; exact Option.some_ne_none _))
    have room : s.kni.respQ.standing.length < s.kni.respQ.len - 1 := by
      rw [silent, inv.respLen]
      decide
    obtain ⟨_, standing⟩ := kniFifoPut_room s.kni.syncAddr room
    simp only [Progress, waits, Handling, at_pc] at progress
    refine ⟨?_, ?_, ?_⟩ <;> simp only [State.handlerAccess, at_pc, sent, Bool.false_eq_true,
      if_false]
    · simp only [Progress, waits, Handling, standing]
      exact .inr ⟨List.append_ne_nil_of_right_ne_nil _ (List.cons_ne_nil _ _), progress⟩
    · exact own.finished
    · exact own.mtu

/-- No step of either side changes the callbacks. -/
theorem Step.same_ops {t : State} (h : Step dev s t) : t.kni.ops = s.kni.ops := by
  cases h with
  | call op idle =>
    unfold State.call
    split <;> rfl
  | kernel op pc at_pc =>
    cases pc with
    | copied =>
      simp only [State.kernelAccess]
      split <;> rfl
    | waiting =>
      simp only [State.kernelAccess]
      split <;> rfl
    | woken =>
      simp only [State.kernelAccess]
      split
      · split <;> rfl
      · rfl
    | fetched => rfl
  | giveUp op at_pc => rfl
  | handler =>
    unfold State.handlerAccess
    split
    · split
      · simp only
        split <;> rfl
      · rfl
    · rfl
    · rfl
    · rfl
    · split <;> rfl

/-- Calls that have given up stay counted. -/
theorem Step.giveUps_le {t : State} (h : Step dev s t) : s.giveUps ≤ t.giveUps := by
  cases h with
  | call op idle =>
    unfold State.call
    split <;> exact Nat.le_refl _
  | kernel op pc at_pc =>
    cases pc with
    | copied =>
      simp only [State.kernelAccess]
      split <;> exact Nat.le_refl _
    | waiting =>
      simp only [State.kernelAccess]
      split <;> exact Nat.le_refl _
    | woken =>
      simp only [State.kernelAccess]
      split
      · split <;> exact Nat.le_refl _
      · exact Nat.le_refl _
    | fetched => exact Nat.le_refl _
  | giveUp op at_pc => exact Nat.le_succ _
  | handler =>
    unfold State.handlerAccess
    split
    · split
      · simp only
        split <;> exact Nat.le_refl _
      · exact Nat.le_refl _
    · exact Nat.le_refl _
    · exact Nat.le_refl _
    · exact Nat.le_refl _
    · split <;> exact Nat.le_refl _

theorem Own.step {t : State} (own : Own dev ops mtu s) (inv : Inv s) (fixed : s.kni.ops = ops)
    (patient : t.giveUps = 0) (h : Step dev s t) : Own dev ops mtu t := by
  have before : s.giveUps = 0 := Nat.eq_zero_of_le_zero (patient ▸ h.giveUps_le)
  cases h with
  | call op idle => exact own.call op idle
  | kernel op pc at_pc =>
    cases pc with
    | copied => exact own.copied inv before at_pc
    | waiting => exact own.wake inv before at_pc
    | woken => exact own.fetch inv at_pc
    | fetched => exact own.fetched at_pc
  | giveUp op at_pc => cases patient
  | handler => exact own.handlerAccess inv before fixed

theorem reachable_inv (h : (control dev ops mtu).Reachable s) :
    Inv s ∧ s.kni.ops = ops ∧ (s.giveUps = 0 → Own dev ops mtu s) := by
  refine h.invariant
    (I := fun s => Inv s ∧ s.kni.ops = ops ∧ (s.giveUps = 0 → Own dev ops mtu s)) ?_ ?_
  · rintro s ⟨mbufSize, syncAddr, sync, memory, words, devAddr, queueStarted, rfl⟩
    have reqs : (kniCreated ops mbufSize syncAddr sync memory words).reqQ.standing = [] :=
      kniFifoInit_standing ..
    have resps : (kniCreated ops mbufSize syncAddr sync memory words).respQ.standing = [] :=
      kniFifoInit_standing ..
    refine ⟨⟨?_, ?_, rfl, rfl, ?_, ?_, ?_, .inl rfl, rfl, ?_⟩, rfl,
      fun _ => ⟨trivial, ?_, .inl rfl⟩⟩
    · intro x hx
      simp only [State.created, reqs] at hx
      cases hx
    · intro x hx
      simp only [State.created, resps] at hx
      cases hx
    · simp only [State.created, State.entries, reqs, resps]
      rfl
    · intro op h
      cases h
    · intro h
      simp only [State.created, reqs] at h
      rcases h with h | h
      · exact False.elim (h rfl)
      · cases h
    · intro f hf
      cases hf
    · intro f hf
      cases hf
  · rintro s t ⟨inv, fixed, own⟩ step
    refine ⟨inv.step step, step.same_ops.trans fixed, fun patient => ?_⟩
    exact (own (Nat.eq_zero_of_le_zero (patient ▸ step.giveUps_le))).step inv fixed patient step

end

/-! ## What the kernel can rely on -/

/-- An interface whose application takes every MTU up to 1500. -/
def mtuOps : RteKniOps :=
  ⟨0, some fun _ mtu => if mtu ≤ 1500 then 0 else -einval, none, none, none, none⟩

def noPort : EthControl :=
  ⟨fun _ => false, fun _ _ => 0, fun _ => 0, fun _ => 0, fun _ => 0, fun _ => 0⟩

def newInterface : State :=
  .created (kniCreated mtuOps 2176 4096 ⟨0, [], false, 0⟩ (fun _ => RteMbuf.ofFrame 0 [] fun _ => 0)
    fun _ => 0) ⟨1500, [2, 0, 0, 0, 0, 1], false⟩

def run (moves : List Move) : Option State :=
  System.follow (fun mv s => exec noPort s mv) moves newInterface

theorem run_reachable {moves : List Move} {s : State} (h : run moves = some s) :
    (control noPort mtuOps 1500).Reachable s :=
  (System.Reachable.init (S := control noPort mtuOps 1500) ⟨_, _, _, _, _, _, _, rfl⟩).follow
    (fun _ _ _ => exec_step) h

/-- The application answers a call that waits. -/
def answeredCall (op : NetOp) : List Move :=
  [.call op, .kernel, .handler, .handler, .handler, .handler, .handler, .kernel, .kernel, .kernel]

/-- One MTU is accepted, the next one refused. -/
def twoMtus : List Move := answeredCall (.changeMtu 1400) ++ answeredCall (.changeMtu 9000)

theorem twoMtus_runs : (run twoMtus).map (fun s => s.giveUps = 0 && s.netdev.mtu = 1400 &&
    s.finished = [⟨.changeMtu 1400, 0, 0⟩, ⟨.changeMtu 9000, 0, -22⟩]) = some true := by
  decide +kernel

/-- A call gives up; then the application answers its request. -/
def lateAnswer : List Move :=
  [.call .netOpen, .kernel, .giveUp, .handler, .handler, .handler, .handler, .handler]

theorem lateAnswer_runs : (run lateAnswer).map (fun s => s.giveUps = 1 && s.caller.isNone &&
    kniFifoCount s.kni.respQ = 1 && kniFifoCount s.kni.reqQ = 0) = some true := by
  decide +kernel

section
variable {dev : EthControl} {ops : RteKniOps} {mtu : UInt32} {s : State}

/-- While no call has given up, every call has returned what the application answered to its
own request, or it was refused without one. -/
theorem own_answers (h : (control dev ops mtu).Reachable s) (patient : s.giveUps = 0) :
    ∀ f ∈ s.finished, (f.ret = 0 ∧ f.result = requestResult dev ops f.op.request) ∨
      (f.ret = -eaddrnotavail ∧ ∃ addr, f.op = .setMac addr ∧ isValidEtherAddr addr = false) :=
  ((reachable_inv h).2.2 patient).finished

theorem own_answers_twoMtus : ∃ s, run twoMtus = some s ∧
    ∀ f ∈ s.finished, (f.ret = 0 ∧ f.result = requestResult noPort mtuOps f.op.request) ∨
      (f.ret = -eaddrnotavail ∧ ∃ addr, f.op = .setMac addr ∧ isValidEtherAddr addr = false) := by
  obtain ⟨s, hs, facts⟩ := Option.map_eq_some_iff.mp twoMtus_runs
  simp only [Bool.and_eq_true, decide_eq_true_eq] at facts
  exact ⟨s, hs, own_answers (run_reachable hs) facts.1.1⟩

/-- The callback gets the number that the kernel was given. -/
theorem newMtu_request (newMtu : UInt32) : (NetOp.changeMtu newMtu).request.newMtu = newMtu := by
  have lt := newMtu.toNat_lt
  apply UInt32.toNat.inj
  simp only [NetOp.request, RteKniRequest.newMtu, mtuPayload, le32, List.getD_cons_zero,
    List.getD_cons_succ, UInt8.toNat_ofNat', UInt32.toNat_ofNat']
  omega

/-- While no call has given up, the MTU of the interface is the one it began with or one for
which the application's callback has returned 0, unless there is no callback: then the library
answers with 0 to any. -/
theorem mtu_accepted (h : (control dev ops mtu).Reachable s) (patient : s.giveUps = 0) :
    s.netdev.mtu = mtu ∨ ops.changeMtu = none ∨
      ∃ f, ops.changeMtu = some f ∧ f ops.portId s.netdev.mtu = 0 := by
  rcases ((reachable_inv h).2.2 patient).mtu with same | accepted
  · exact .inl same
  refine .inr ?_
  cases hf : ops.changeMtu with
  | none => exact .inl rfl
  | some f =>
    refine .inr ⟨f, rfl, ?_⟩
    have number := newMtu_request s.netdev.mtu
    simp only [requestResult, NetOp.request, if_true, hf] at accepted number
    rw [number] at accepted
    exact accepted

theorem mtu_accepted_twoMtus : ∃ s, run twoMtus = some s ∧
    ((1400 : UInt32) = 1500 ∨ mtuOps.changeMtu = none ∨
      ∃ f, mtuOps.changeMtu = some f ∧ f mtuOps.portId 1400 = 0) := by
  obtain ⟨s, hs, facts⟩ := Option.map_eq_some_iff.mp twoMtus_runs
  simp only [Bool.and_eq_true, decide_eq_true_eq] at facts
  have accepted := mtu_accepted (run_reachable hs) facts.1.1
  rw [facts.1.2] at accepted
  exact ⟨s, hs, accepted⟩

/-- Each call that has given up leaves one request or answer behind for good, beside that of
a call that waits; the errors "Wrong req pointer" and "No data in resp_q" never come, and
requests and answers find room as long as fewer than 1023 calls have given up. -/
theorem giveUps_remain (h : (control dev ops mtu).Reachable s) :
    s.entries + s.dropped = s.giveUps + s.awaited ∧ s.wrong = 0 ∧
      (∀ f ∈ s.finished, f.ret ≠ -enodata) ∧
      (s.giveUps < 1023 → s.dropped = 0 ∧ ∀ f ∈ s.finished, f.ret ≠ -ebusy) := by
  obtain ⟨inv, _, _⟩ := reachable_inv h
  refine ⟨inv.backlog, inv.right, fun f hf => (inv.errors f hf).1, fun few => ⟨?_, ?_⟩⟩
  · rcases inv.full with none | many
    · exact none
    · exact False.elim (Nat.not_le_of_lt few many)
  · intro f hf busy
    exact Nat.not_le_of_lt few ((inv.errors f hf).2 busy)

theorem giveUps_remain_lateAnswer : ∃ s, run lateAnswer = some s ∧
    s.entries + s.dropped = 1 + s.awaited ∧ s.wrong = 0 ∧
      (∀ f ∈ s.finished, f.ret ≠ -enodata) ∧
      (1 < 1023 → s.dropped = 0 ∧ ∀ f ∈ s.finished, f.ret ≠ -ebusy) := by
  obtain ⟨s, hs, facts⟩ := Option.map_eq_some_iff.mp lateAnswer_runs
  simp only [Bool.and_eq_true, decide_eq_true_eq] at facts
  have remain := giveUps_remain (run_reachable hs)
  rw [facts.1.1.1] at remain
  exact ⟨s, hs, remain⟩

/-- Where an answer has been left behind, the next call returns 0 with its own result field,
while its request still stands in req_q: the application need not do anything. The call is one
that gets as far as a request, and finds room for it. -/
theorem left_answer_taken (h : (control dev ops mtu).Reachable s) {op : NetOp} {d : Netdev}
    (idle : s.caller = none) (left : s.kni.respQ.standing ≠ [])
    (room : s.kni.reqQ.standing.length < kniFifoCountMax - 1)
    (starts : op.starts s.netdev = some d) :
    ∃ t, Relation.ReflTransGen (Step dev) s t ∧ t.handler = s.handler ∧
      t.kni.reqQ.standing = s.kni.reqQ.standing ++ [s.kni.syncAddr] ∧
      t.finished = s.finished ++ [⟨op, 0, op.request.result⟩] ∧
      t.netdev = op.ends 0 op.request.result d := by
  obtain ⟨inv, _, _⟩ := reachable_inv h
  obtain ⟨first, rest, there⟩ := List.exists_cons_of_ne_nil left
  have own := inv.resps first (by rw [there]; exact List.mem_cons_self)
  subst own
  obtain ⟨one, standing⟩ := kniFifoPut_room s.kni.syncAddr (inv.reqLen ▸ room)
  -- the call copies its request and puts the address into req_q
  have called : Relation.ReflTransGen (Step dev) s _ := .single (.call s op idle)
  simp only [State.call, starts] at called
  have sent := called.tail (Step.kernel _ op .copied rfl)
  simp only [State.kernelAccess, one, Nat.lt_irrefl, if_false] at sent
  -- the answer that was left behind ends its wait
  have woken := sent.tail (Step.kernel _ op .waiting rfl)
  have answer : kniFifoCount s.kni.respQ ≠ 0 := by
    rw [kniFifoCount_eq, there]
    exact Nat.succ_ne_zero _
  simp only [State.kernelAccess, answer, ne_eq, not_false_iff, if_true] at woken
  have fetched := woken.tail (Step.kernel _ op .woken rfl)
  have takes := kernelAccess_takes (s := { s with
    kni := { s.kni with
      reqQ := (kniFifoPut s.kni.reqQ [s.kni.syncAddr]).1
      sync := op.request }
    netdev := d
    caller := some (op, .woken) }) op there
  rw [takes] at fetched
  exact ⟨_, fetched.tail (Step.kernel _ op .fetched rfl), rfl, standing, rfl, rfl⟩

/-- After the late answer an MTU that the application refuses is set all the same. -/
theorem left_answer_taken_lateAnswer : ∃ s, run lateAnswer = some s ∧
    ∃ t, Relation.ReflTransGen (Step noPort) s t ∧ t.handler = s.handler ∧
      t.kni.reqQ.standing = s.kni.reqQ.standing ++ [s.kni.syncAddr] ∧
      t.finished = s.finished ++ [⟨.changeMtu 9000, 0, 0⟩] ∧
      t.netdev = { s.netdev with mtu := 9000 } := by
  obtain ⟨s, hs, facts⟩ := Option.map_eq_some_iff.mp lateAnswer_runs
  simp only [Bool.and_eq_true, decide_eq_true_eq, Option.isNone_iff_eq_none] at facts
  obtain ⟨⟨⟨_, idle⟩, answers⟩, requests⟩ := facts
  rw [kniFifoCount_eq] at answers requests
  refine ⟨s, hs, left_answer_taken (run_reachable hs) idle ?_ ?_ rfl⟩
  · intro none
    rw [none] at answers
    cases answers
  · rw [requests]
    decide

end

end KniControl
