import DpdkFilter.Kni
import DpdkFilter.LcoreRuns

/-!
# The loop over a live KNI interface

An environment of the loop with real queues: the interface, the mbuf pool and the
rings of the port. What kernel, port and operating system do of their own accord is
given for every tick of a clock that counts calls; the kernel may act before each.
-/

namespace KniWorld

open Mbuf Kni LcoreMain LcoreRuns

inductive KernelCall where
  | kniNetTx (skb : List UInt8)
  | kniNetRxNormal

/-- The choices of the environment, tick by tick. `freeOfVariable` is what freeing the
address of a variable does to the pool: the code does not determine it. -/
structure Env where
  kernel : Nat → List KernelCall
  frames : Nat → List (List UInt8)
  refill : Nat → Nat
  transmitted : Nat → Nat
  rteEthTxBurst : Nat → Bool
  write : Nat → Int
  ifNametoindex : Nat → UInt32
  sendto : Nat → Int
  forceQuit : Nat → Bool
  freeOfVariable : Nat → List RteMbuf → List RteMbuf

/-- `queued` is the history of what the kernel put on tx_q. -/
structure State where
  clock : Nat
  kni : RteKni
  pool : List RteMbuf
  rxRing : List RteMbuf
  txRing : List RteMbuf
  queued : List RteMbuf

def kernelCall (s : State) : KernelCall → State
  | .kniNetTx skb =>
    let r := kniNetTx s.kni skb
    { s with kni := r.1, queued := s.queued ++ r.2.toList }
  | .kniNetRxNormal => { s with kni := kniNetRxNormal s.kni }

/-- What the kernel does before a call. -/
def kernelRuns (env : Env) (s : State) : State :=
  (env.kernel s.clock).foldl kernelCall { s with clock := s.clock + 1 }

/-- The port writes the frames that arrived into the buffers at the front of its ring. -/
def receive (s : State) (frames : List (List UInt8)) : List RteMbuf :=
  List.zipWith (fun m f => RteMbuf.ofFrame m.addr f m.data) s.rxRing (frames.take burstSize)

theorem receive_length_le (s : State) (frames : List (List UInt8)) :
    (receive s frames).length ≤ burstSize := by
  rw [receive, List.length_zipWith, List.length_take]
  omega

def ethRxBurst (env : Env) (s : State) : Burst × State :=
  let frames := env.frames s.clock
  (⟨receive s frames, receive_length_le s frames⟩,
    { s with
      rxRing := s.rxRing.drop (receive s frames).length ++ s.pool.take (env.refill s.clock)
      pool := s.pool.drop (env.refill s.clock) })

/-- Buffers sent go back to the pool; the packet is queued for sending if it is accepted. -/
def ethTxBurst (env : Env) (m : RteMbuf) (s : State) : Bool × State :=
  let pool := (s.txRing.take (env.transmitted s.clock)).foldl rtePktmbufFree s.pool
  let txRing := s.txRing.drop (env.transmitted s.clock)
  if env.rteEthTxBurst s.clock then
    (true, { s with pool := pool, txRing := txRing ++ [m] })
  else (false, { s with pool := pool, txRing := txRing })

def kniRxBurst (s : State) : Option RteMbuf × State :=
  let r := rteKniRxBurst s.kni s.pool 1
  (r.2.2.head?, { s with kni := r.1, pool := r.2.1 })

def kniTxBurst (m : RteMbuf) (s : State) : Bool × State :=
  let r := rteKniTxBurst s.kni s.pool [m]
  (r.2.2 ≠ 0, { s with kni := r.1, pool := r.2.1 })

def pktmbufFree (env : Env) (s : State) : FreeArg → State
  | .mbuf m => { s with pool := rtePktmbufFree s.pool m }
  | .pointerVariable => { s with pool := env.freeOfVariable s.clock s.pool }

def Env.world (env : Env) : World State where
  forceQuit s := env.forceQuit s.clock
  rteKniRxBurst s := kniRxBurst (kernelRuns env s)
  rteEthTxBurst _ m s := ethTxBurst env m (kernelRuns env s)
  rteEthRxBurst _ s := ethRxBurst env (kernelRuns env s)
  rteKniTxBurst m s := kniTxBurst m (kernelRuns env s)
  write _ _ s := (env.write s.clock, kernelRuns env s)
  ifNametoindex _ s := (env.ifNametoindex s.clock, kernelRuns env s)
  sendto _ _ s := (env.sendto s.clock, kernelRuns env s)
  rtePktmbufFree arg s := pktmbufFree env (kernelRuns env s) arg
  rtePause s := kernelRuns env s

/-- Nothing arrives and every call succeeds. -/
def Env.idle : Env where
  kernel _ := []
  frames _ := []
  refill _ := 0
  transmitted _ := 0
  rteEthTxBurst _ := true
  write _ := 0
  ifNametoindex _ := 1
  sendto _ := 0
  forceQuit _ := false
  freeOfVariable _ pool := pool

/-- The variables of the loop with a live interface and no rules. -/
def liveKni : Globals where
  filterRules := []
  portId := 0
  kni := true
  forwardIfname := none
  tunFd := -1
  rawSock := -1

/-! ## Where the buffers are -/

/-- How many places of pool, rings and FIFOs hold the buffer at `a`. -/
def State.places (s : State) (a : Nat) : Nat :=
  tally a s.pool + tally a s.rxRing + tally a s.txRing + s.kni.tally a

theorem kernelCall_places (s : State) (call : KernelCall) (a : Nat) :
    (kernelCall s call).places a = s.places a := by
  cases call with
  | kniNetTx skb => simp only [kernelCall, State.places, kniNetTx_tally]
  | kniNetRxNormal => simp only [kernelCall, State.places, kniNetRxNormal_tally]

theorem kernelRuns_places (env : Env) (s : State) (a : Nat) :
    (kernelRuns env s).places a = s.places a := by
  have all : ∀ (calls : List KernelCall) (s : State),
      (calls.foldl kernelCall s).places a = s.places a := by
    intro calls
    induction calls with
    | nil => exact fun _ => rfl
    | cons call calls ih => exact fun s => (ih _).trans (kernelCall_places s call a)
  exact all _ _

theorem tally_receive (a : Nat) (s : State) (frames : List (List UInt8)) :
    tally a (receive s frames) = tally a (s.rxRing.take (receive s frames).length) := by
  unfold receive
  generalize frames.take burstSize = fs
  induction s.rxRing generalizing fs with
  | nil => simp
  | cons m ring ih =>
    cases fs with
    | nil => simp
    | cons f fs =>
      have same : tally a [RteMbuf.ofFrame m.addr f m.data] = tally a [m] := tally_congr a rfl
      rw [List.zipWith_cons_cons, tally_cons, ih, same, List.length_cons, List.take_succ_cons,
        tally_cons a m (List.take _ ring)]

theorem ethRxBurst_places (env : Env) (s : State) (a : Nat) :
    (ethRxBurst env s).2.places a + tally a (ethRxBurst env s).1.mbufs = s.places a := by
  have ring := congrArg (tally a)
    (List.take_append_drop (receive s (env.frames s.clock)).length s.rxRing)
  have pool := congrArg (tally a) (List.take_append_drop (env.refill s.clock) s.pool)
  rw [tally_append] at ring pool
  have burst := tally_receive a s (env.frames s.clock)
  simp only [ethRxBurst, State.places, tally_append]
  omega

theorem ethTxBurst_places (env : Env) (m : RteMbuf) (s : State) (a : Nat) :
    (ethTxBurst env m s).2.places a =
      s.places a + if (ethTxBurst env m s).1 then tally a [m] else 0 := by
  have ring := congrArg (tally a) (List.take_append_drop (env.transmitted s.clock) s.txRing)
  rw [tally_append] at ring
  unfold ethTxBurst
  split
  · simp only [State.places, tally_append, tally_free, if_true]
    omega
  · simp only [State.places, tally_free, Bool.false_eq_true, if_false]
    omega

theorem kniRxBurst_places (s : State) (a : Nat) :
    (kniRxBurst s).2.places a + tally a (kniRxBurst s).1.toList = s.places a := by
  have kept := rteKniRxBurst_tally a s.kni s.pool 1
  simp only [kniRxBurst, State.places, rteKniRxBurst_one]
  omega

/-- The mbuf offered moves into rx_q or stays with the caller. -/
theorem kniTxBurst_places (m : RteMbuf) (s : State) (a : Nat) :
    (kniTxBurst m s).2.places a =
      s.places a + if (kniTxBurst m s).1 then tally a [m] else 0 := by
  have kept := rteKniTxBurst_tally a s.kni s.pool [m]
  obtain ⟨num, rxQ, _, hnum, heq⟩ := rteKniTxBurst_spec s.kni s.pool [m]
  rw [heq] at kept
  simp only [kniTxBurst, heq, State.places]
  dsimp only at kept
  rw [List.length_singleton] at hnum
  by_cases none : num = 0
  · simp only [none, List.drop_zero] at kept
    simp only [none, ne_eq, not_true, decide_false, Bool.false_eq_true, if_false]
    omega
  · have one : num = 1 := by omega
    simp only [one, List.drop_one, List.tail_cons, tally_nil] at kept
    simp only [one, ne_eq, Nat.one_ne_zero, not_false_eq_true, decide_true, if_true]
    omega

theorem pktmbufFree_places (env : Env) (s : State) (m : RteMbuf) (a : Nat) :
    (pktmbufFree env s (.mbuf m)).places a = s.places a + tally a [m] := by
  simp only [pktmbufFree, rtePktmbufFree, State.places, tally_cons a m s.pool]
  omega

/-- The loop keeps every buffer it does not hold in its place. -/
theorem world_holding (env : Env) (a total : Nat) :
    Holding env.world (fun held s => s.places a + tally a held = total) where
  received := by
    intro _ s h
    have moved := ethRxBurst_places env (kernelRuns env s) a
    rw [kernelRuns_places] at moved
    simp only [tally_nil] at h
    simp only [Env.world]
    omega
  accepted := by
    intro m held s h accepted
    have moved := kniTxBurst_places m (kernelRuns env s) a
    simp only [Env.world] at accepted ⊢
    rw [accepted, if_pos rfl, kernelRuns_places] at moved
    rw [tally_cons] at h
    omega
  refused := by
    intro m held s h refused
    have moved := kniTxBurst_places m (kernelRuns env s) a
    simp only [Env.world] at refused ⊢
    rw [refused, if_neg Bool.false_ne_true, kernelRuns_places] at moved
    omega
  freed := by
    intro m held s h
    have moved := pktmbufFree_places env (kernelRuns env s) m a
    rw [kernelRuns_places] at moved
    rw [tally_cons] at h
    simp only [Env.world]
    omega
  write := fun _ _ _ s h => (congrArg (· + _) (kernelRuns_places env s a)).trans h
  ifNametoindex := fun _ _ s h => (congrArg (· + _) (kernelRuns_places env s a)).trans h
  sendto := fun _ _ _ s h => (congrArg (· + _) (kernelRuns_places env s a)).trans h
  paused := fun s h => (congrArg (· + _) (kernelRuns_places env s a)).trans h

end KniWorld
