import DpdkFilter.Interleaving
import DpdkFilter.LcoreMain

/-!
# Launch, wait and teardown

The main lcore tells each worker over a pipe to run `lcore_main` and waits for the
acknowledgement, runs `lcore_main` twice itself, waits for every worker's state and
then prints and cleans up. A worker sets its state to RUNNING before it
acknowledges, so a state read as WAIT afterwards means that it has returned.
-/

namespace Teardown

open Interleaving LcoreMain

inductive LcoreState where
  | wait
  | running
deriving DecidableEq

/-- The part of `lcore_config` the protocol uses; `f` tells whether the function
pointer is set, and the pipes hold the number of unread bytes. -/
structure LcoreConfig where
  state : LcoreState
  f : Bool
  ret : Int
  main2worker : Nat
  worker2main : Nat

/-- `lcore_main` at its loop head, in `kni_request_handler`, in `rte_eth_rx_burst`, or
with packets of a burst left to process. -/
inductive Body where
  | head
  | handler
  | ethRx
  | packets (left : Nat)

/-- `eal_thread_loop`. -/
inductive Worker where
  | readCommand
  | setRunning
  | sendAck
  | loadF
  | run (b : Body)
  | storeRet
  | clearF
  | clearArg
  | setWait

/-- `main` from the launch on, with `rte_eal_mp_remote_launch` and
`rte_eal_remote_launch` inlined. -/
inductive Main where
  | check (w : Nat)
  | launchState (w : Nat)
  | launchStore (w : Nat)
  | launchWrite (w : Nat)
  | launchAck (w : Nat)
  | first (b : Body)
  | firstReturned
  | second (b : Body)
  | wait (w : Nat)
  | waitRet (w : Nat)
  | print
  | kniRelease
  | closeTun
  | closeRaw
  | ealCleanup
  | returned
  | failed

/-- `uses` counts the uses lcores have made of `kni`, `tun_fd` and `raw_sock`. -/
structure Shared where
  forceQuit : Bool
  counters : Counters
  uses : Nat

structure State where
  shared : Shared
  main : Main
  secondReceived : Nat
  config : Nat → LcoreConfig
  worker : Nat → Worker

/-- What the environment gives a step of `lcore_main`: the burst size and the counters
it leaves, which may be any, whatever the order of their loads and stores. -/
structure Env where
  nbRx : Nat
  counters : Counters

/-- One step of `lcore_main`: where it stands next, or `none` when it returns, and the
number of packets received. -/
def bodyStep (e : Env) (s : Shared) : Body → Option Body × Shared × Nat
  | .head => (if s.forceQuit then none else some .handler, s, 0)
  | .handler => (some .ethRx, { s with uses := s.uses + 1 }, 0)
  | .ethRx =>
    if e.nbRx = 0 then (some .head, s, 0)
    else (some (.packets e.nbRx), { s with counters := e.counters }, e.nbRx)
  | .packets 0 => (some .head, s, 0)
  | .packets (left + 1) =>
    (some (.packets left), { s with counters := e.counters, uses := s.uses + 1 }, 0)

def State.setConfig (s : State) (w : Nat) (c : LcoreConfig) : State :=
  { s with config := Function.update s.config w c }

def State.setWorker (s : State) (w : Nat) (pc : Worker) : State :=
  { s with worker := Function.update s.worker w pc }

/-- `none` where the step has to wait for a pipe. -/
def workerStep (e : Env) (w : Nat) (s : State) : Option State :=
  let c := s.config w
  match s.worker w with
  | .readCommand =>
    if c.main2worker = 0 then none
    else some ((s.setConfig w { c with main2worker := c.main2worker - 1 }).setWorker w .setRunning)
  | .setRunning => some ((s.setConfig w { c with state := .running }).setWorker w .sendAck)
  | .sendAck =>
    some ((s.setConfig w { c with worker2main := c.worker2main + 1 }).setWorker w .loadF)
  | .loadF => some (if c.f then s.setWorker w (.run .head) else s)
  | .run b =>
    let r := bodyStep e s.shared b
    some ({ s with shared := r.2.1 }.setWorker w (r.1.elim .storeRet .run))
  | .storeRet => some ((s.setConfig w { c with ret := 0 }).setWorker w .clearF)
  | .clearF => some ((s.setConfig w { c with f := false }).setWorker w .clearArg)
  | .clearArg => some (s.setWorker w .setWait)
  | .setWait => some ((s.setConfig w { c with state := .wait }).setWorker w .readCommand)

/-- `n` is the number of workers. -/
def mainStep (n : Nat) (e : Env) (s : State) : Option State :=
  match s.main with
  | .check w =>
    if w < n then
      -- a busy worker makes the launch return -EBUSY, which `main` ignores
      if (s.config w).state = .wait then some { s with main := .check (w + 1) }
      else some { s with main := .second .head }
    else some { s with main := .launchState 0 }
  | .launchState w =>
    if w < n then
      if (s.config w).state = .wait then some { s with main := .launchStore w }
      else some { s with main := .launchState (w + 1) }
    else some { s with main := .first .head }
  | .launchStore w =>
    some ({ s with main := .launchWrite w }.setConfig w { s.config w with f := true })
  | .launchWrite w =>
    some ({ s with main := .launchAck w }.setConfig w
      { s.config w with main2worker := (s.config w).main2worker + 1 })
  | .launchAck w =>
    if (s.config w).worker2main = 0 then none
    else
      some ({ s with main := .launchState (w + 1) }.setConfig w
        { s.config w with worker2main := (s.config w).worker2main - 1 })
  | .first b =>
    let r := bodyStep e s.shared b
    some { s with shared := r.2.1, main := r.1.elim .firstReturned .first }
  | .firstReturned => some { s with main := .second .head }
  | .second b =>
    let r := bodyStep e s.shared b
    some { s with
      shared := r.2.1
      main := r.1.elim (.wait 0) .second
      secondReceived := s.secondReceived + r.2.2 }
  | .wait w =>
    if w < n then
      if (s.config w).state = .wait then some { s with main := .waitRet w } else some s
    else some { s with main := .print }
  | .waitRet w => some { s with main := if (s.config w).ret < 0 then .failed else .wait (w + 1) }
  | .print => some { s with main := .kniRelease }
  | .kniRelease => some { s with main := .closeTun }
  | .closeTun => some { s with main := .closeRaw }
  | .closeRaw => some { s with main := .ealCleanup }
  | .ealCleanup => some { s with main := .returned }
  | .returned => none
  | .failed => none

/-- `signal` is the handler of SIGINT and SIGTERM; `interrupted` a pipe access that
returns EINTR and is tried again. -/
inductive Move where
  | main (e : Env)
  | worker (w : Nat) (e : Env)
  | signal
  | interrupted

def exec (n : Nat) : Move → State → Option State
  | .main e, s => mainStep n e s
  | .worker w e, s => if w < n then workerStep e w s else none
  | .signal, s => some { s with shared := { s.shared with forceQuit := true } }
  | .interrupted, s => some s

/-- `main` is about to launch and every worker waits for a command. -/
structure Start (s : State) : Prop where
  main : s.main = .check 0
  worker : ∀ w, s.worker w = .readCommand
  state : ∀ w, (s.config w).state = .wait
  main2worker : ∀ w, (s.config w).main2worker = 0
  worker2main : ∀ w, (s.config w).worker2main = 0
  secondReceived : s.secondReceived = 0

def protocol (n : Nat) : System State where
  Init := Start
  Step := fun s t => ∃ mv, exec n mv s = some t

/-- `main` prints the statistics or is past it. -/
def Main.printing : Main → Bool
  | .print => true
  | .kniRelease => true
  | .closeTun => true
  | .closeRaw => true
  | .ealCleanup => true
  | .returned => true
  | _ => false

/-- Nothing runs any more: every worker is back from `lcore_main` and waits for a
command that nobody has sent, and in no continuation a counter changes or an lcore
uses the KNI context or a descriptor. -/
structure Quiescent (n : Nat) (s : State) : Prop where
  worker : ∀ w < n, s.worker w = .readCommand
  state : ∀ w < n, (s.config w).state = .wait
  command : ∀ w < n, (s.config w).main2worker = 0
  second : s.secondReceived = 0
  still : ∀ t, Relation.ReflTransGen (protocol n).Step s t →
    t.shared.counters = s.shared.counters ∧ t.shared.uses = s.shared.uses

/-! ## The invariant -/

/-- Where the launch of a worker stands. -/
inductive Told where
  | notYet
  | acking
  | done
deriving DecidableEq

def Main.told (w : Nat) : Main → Told
  | .check _ => .notYet
  | .launchState v => if w < v then .done else .notYet
  | .launchStore v => if w < v then .done else .notYet
  | .launchWrite v => if w < v then .done else .notYet
  | .launchAck v => if w < v then .done else if w = v then .acking else .notYet
  | _ => .done

/-- The workers `main` has seen waiting after the launch. -/
def Main.awaited (w : Nat) : Main → Bool
  | .wait v => decide (w < v)
  | .waitRet v => decide (w ≤ v)
  | m => m.printing

/-- `lcore_main` has returned once on the main lcore. -/
def Main.firstDone : Main → Bool
  | .firstReturned => true
  | .second _ => true
  | .wait _ => true
  | .waitRet _ => true
  | .failed => true
  | m => m.printing

/-- The worker is between its two stores to its state. -/
def Worker.isRunning : Worker → Bool
  | .readCommand => false
  | .setRunning => false
  | _ => true

/-- The command has been read and the acknowledgement not yet written. -/
def Worker.isStarting : Worker → Bool
  | .setRunning => true
  | .sendAck => true
  | _ => false

/-- The command and its acknowledgement travel once: unread in one pipe, in the hands
of the worker, or unread in the other. -/
def Link : Told → LcoreConfig → Worker → Prop
  | .notYet, c, pc => pc = .readCommand ∧ c.main2worker = 0 ∧ c.worker2main = 0
  | .acking, c, pc =>
    (pc = .readCommand ∧ c.main2worker = 1 ∧ c.worker2main = 0) ∨
    (pc.isStarting = true ∧ c.main2worker = 0 ∧ c.worker2main = 0) ∨
    (pc.isStarting = false ∧ c.main2worker = 0 ∧ c.worker2main = 1)
  | .done, c, pc => pc.isStarting = false ∧ c.main2worker = 0 ∧ c.worker2main = 0

structure WorkerOk (told : Told) (c : LcoreConfig) (pc : Worker) : Prop where
  state : c.state = if pc.isRunning then .running else .wait
  link : Link told c pc

structure Inv (n : Nat) (s : State) : Prop where
  workers : ∀ w < n, WorkerOk (s.main.told w) (s.config w) (s.worker w)
  awaited : ∀ w < n, s.main.awaited w = true → s.worker w = .readCommand
  quit : s.main.firstDone = true → s.shared.forceQuit = true
  second : s.secondReceived = 0
  secondHead : ∀ b, s.main = .second b → b = .head

@[simp] theorem setConfig_same (s : State) (w : Nat) (c : LcoreConfig) :
    (s.setConfig w c).config w = c := by
  simp [State.setConfig]

@[simp] theorem setConfig_other (s : State) {w v : Nat} (c : LcoreConfig) (h : v ≠ w) :
    (s.setConfig w c).config v = s.config v := by
  simp [State.setConfig, h]

@[simp] theorem setConfig_worker (s : State) (w : Nat) (c : LcoreConfig) :
    (s.setConfig w c).worker = s.worker := rfl

@[simp] theorem setConfig_main (s : State) (w : Nat) (c : LcoreConfig) :
    (s.setConfig w c).main = s.main := rfl

@[simp] theorem setWorker_same (s : State) (w : Nat) (pc : Worker) :
    (s.setWorker w pc).worker w = pc := by
  simp [State.setWorker]

@[simp] theorem setWorker_other (s : State) {w v : Nat} (pc : Worker) (h : v ≠ w) :
    (s.setWorker w pc).worker v = s.worker v := by
  simp [State.setWorker, h]

@[simp] theorem setWorker_config (s : State) (w : Nat) (pc : Worker) :
    (s.setWorker w pc).config = s.config := rfl

@[simp] theorem setWorker_shared (s : State) (w : Nat) (pc : Worker) :
    (s.setWorker w pc).shared = s.shared := rfl

@[simp] theorem bodyStep_forceQuit (e : Env) (s : Shared) (b : Body) :
    (bodyStep e s b).2.1.forceQuit = s.forceQuit := by
  cases b with
  | head => rfl
  | handler => rfl
  | ethRx =>
    simp only [bodyStep]
    split <;> rfl
  | packets left => cases left <;> rfl

/-- `lcore_main` returns only where it has read the stop flag as set. -/
theorem bodyStep_returns {e : Env} {s : Shared} {b : Body} (h : (bodyStep e s b).1 = none) :
    s.forceQuit = true := by
  cases b with
  | head =>
    by_contra hq
    simp [bodyStep, hq] at h
  | handler => cases h
  | ethRx =>
    simp only [bodyStep] at h
    split at h <;> cases h
  | packets left => cases left <;> cases h

section
variable {n w : Nat} {e : Env} {s t : State}

/-- A step of a worker concerns that worker alone. -/
theorem workerStep_frame (h : workerStep e w s = some t) :
    t.main = s.main ∧ t.secondReceived = s.secondReceived ∧
      t.shared.forceQuit = s.shared.forceQuit ∧
      ∀ v, v ≠ w → t.config v = s.config v ∧ t.worker v = s.worker v := by
  unfold workerStep at h
  simp only at h
  split at h
  · split at h
    · cases h
    · cases h
      exact ⟨rfl, rfl, rfl, fun v hv => ⟨by simp [hv], by simp [hv]⟩⟩
  · cases h
    exact ⟨rfl, rfl, rfl, fun v hv => ⟨by simp [hv], by simp [hv]⟩⟩
  · cases h
    exact ⟨rfl, rfl, rfl, fun v hv => ⟨by simp [hv], by simp [hv]⟩⟩
  · split at h <;> cases h
    · exact ⟨rfl, rfl, rfl, fun v hv => ⟨rfl, by simp [hv]⟩⟩
    · exact ⟨rfl, rfl, rfl, fun v hv => ⟨rfl, rfl⟩⟩
  · cases h
    exact ⟨rfl, rfl, by simp, fun v hv => ⟨rfl, by simp [hv]⟩⟩
  · cases h
    exact ⟨rfl, rfl, rfl, fun v hv => ⟨by simp [hv], by simp [hv]⟩⟩
  · cases h
    exact ⟨rfl, rfl, rfl, fun v hv => ⟨by simp [hv], by simp [hv]⟩⟩
  · cases h
    exact ⟨rfl, rfl, rfl, fun v hv => ⟨rfl, by simp [hv]⟩⟩
  · cases h
    exact ⟨rfl, rfl, rfl, fun v hv => ⟨by simp [hv], by simp [hv]⟩⟩

/-- A worker that is starting has read the command and not yet answered it. -/
theorem Link.starting {told : Told} {c : LcoreConfig} {pc : Worker} (h : Link told c pc)
    (started : pc.isStarting = true) :
    told = .acking ∧ c.main2worker = 0 ∧ c.worker2main = 0 := by
  cases told with
  | notYet =>
    obtain ⟨rfl, _⟩ := h
    cases started
  | acking =>
    rcases h with ⟨rfl, _⟩ | ⟨_, h1, h2⟩ | ⟨past, _⟩
    · cases started
    · exact ⟨rfl, h1, h2⟩
    · rw [started] at past
      cases past
  | done =>
    obtain ⟨past, _⟩ := h
    rw [started] at past
    cases past

/-- Past the acknowledgement a worker may go on and even finish. -/
theorem Link.go_on {told : Told} {c c' : LcoreConfig} {pc pc' : Worker} (h : Link told c pc)
    (running : pc.isRunning = true) (started : pc.isStarting = false)
    (started' : pc'.isStarting = false) (same1 : c'.main2worker = c.main2worker)
    (same2 : c'.worker2main = c.worker2main) : Link told c' pc' := by
  cases told with
  | notYet =>
    obtain ⟨rfl, _⟩ := h
    cases running
  | acking =>
    rcases h with ⟨rfl, _⟩ | ⟨starting, _⟩ | ⟨_, h1, h2⟩
    · cases running
    · rw [started] at starting
      cases starting
    · exact Or.inr (Or.inr ⟨started', same1.trans h1, same2.trans h2⟩)
  | done => exact ⟨started', same1.trans h.2.1, same2.trans h.2.2⟩

theorem workerStep_ok {told : Told} (h : workerStep e w s = some t)
    (ok : WorkerOk told (s.config w) (s.worker w)) : WorkerOk told (t.config w) (t.worker w) := by
  obtain ⟨state, link⟩ := ok
  unfold workerStep at h
  simp only at h
  split at h
  · -- only a worker that is being launched finds a command
    rename_i hpc
    rw [hpc] at state link
    split at h
    · cases h
    · rename_i hcmd
      cases h
      simp only [setWorker_config, setConfig_same, setWorker_same]
      refine ⟨by simpa [Worker.isRunning] using state, ?_⟩
      cases told with
      | notYet => exact absurd link.2.1 hcmd
      | acking =>
        rcases link with ⟨_, h1, h2⟩ | ⟨starting, _⟩ | ⟨_, h1, _⟩
        · exact Or.inr (Or.inl ⟨rfl, by simp [h1], h2⟩)
        · cases starting
        · exact absurd h1 hcmd
      | done => exact absurd link.2.1 hcmd
  · rename_i hpc
    rw [hpc] at link
    cases h
    simp only [setWorker_config, setConfig_same, setWorker_same]
    obtain ⟨rfl, h1, h2⟩ := link.starting rfl
    exact ⟨by simp [Worker.isRunning], Or.inr (Or.inl ⟨rfl, h1, h2⟩)⟩
  · rename_i hpc
    rw [hpc] at state link
    cases h
    simp only [setWorker_config, setConfig_same, setWorker_same]
    obtain ⟨rfl, h1, h2⟩ := link.starting rfl
    exact ⟨by simpa [Worker.isRunning] using state, Or.inr (Or.inr ⟨rfl, h1, by simp [h2]⟩)⟩
  · rename_i hpc
    split at h <;> cases h
    · rw [hpc] at state link
      simp only [setWorker_config, setWorker_same]
      exact ⟨by simpa [Worker.isRunning] using state, link.go_on rfl rfl rfl rfl rfl⟩
    · exact ⟨state, link⟩
  · rename_i b hpc
    rw [hpc] at state link
    cases h
    simp only [setWorker_config, setWorker_same]
    cases (bodyStep e s.shared b).1 <;>
      exact ⟨by simpa [Worker.isRunning] using state, link.go_on rfl rfl rfl rfl rfl⟩
  · rename_i hpc
    rw [hpc] at state link
    cases h
    simp only [setWorker_config, setConfig_same, setWorker_same]
    exact ⟨by simpa [Worker.isRunning] using state, link.go_on rfl rfl rfl rfl rfl⟩
  · rename_i hpc
    rw [hpc] at state link
    cases h
    simp only [setWorker_config, setConfig_same, setWorker_same]
    exact ⟨by simpa [Worker.isRunning] using state, link.go_on rfl rfl rfl rfl rfl⟩
  · rename_i hpc
    rw [hpc] at state link
    cases h
    simp only [setWorker_config, setWorker_same]
    exact ⟨by simpa [Worker.isRunning] using state, link.go_on rfl rfl rfl rfl rfl⟩
  · rename_i hpc
    rw [hpc] at link
    cases h
    simp only [setWorker_config, setConfig_same, setWorker_same]
    exact ⟨by simp [Worker.isRunning], link.go_on rfl rfl rfl rfl rfl⟩

/-- A worker that has not been told to run, or has returned, cannot move. -/
theorem workerStep_blocked (waiting : s.worker w = .readCommand)
    (quiet : (s.config w).main2worker = 0) : workerStep e w s = none := by
  simp [workerStep, waiting, quiet]

theorem WorkerOk.waiting {told : Told} {c : LcoreConfig} {pc : Worker}
    (ok : WorkerOk told c pc) (link : pc.isRunning = false) : c.state = .wait := by
  rw [ok.state, link]
  rfl

/-- Once the launch is over, a state of WAIT means that the worker has returned. -/
theorem WorkerOk.finished {c : LcoreConfig} {pc : Worker} (ok : WorkerOk .done c pc)
    (waiting : c.state = .wait) : pc = .readCommand := by
  have h := ok.state
  rw [waiting] at h
  have started := ok.link.1
  cases pc with
  | readCommand => rfl
  | setRunning => cases started
  | _ => cases h

theorem Inv.worker (inv : Inv n s) (hw : w < n) (h : workerStep e w s = some t) : Inv n t := by
  obtain ⟨main, received, flag, others⟩ := workerStep_frame h
  refine ⟨fun v hv => ?_, fun v hv aw => ?_, ?_, received.trans inv.second, ?_⟩
  · rw [main]
    by_cases hvw : v = w
    · subst hvw
      exact workerStep_ok h (inv.workers v hv)
    · rw [(others v hvw).1, (others v hvw).2]
      exact inv.workers v hv
  · rw [main] at aw
    by_cases hvw : v = w
    · -- an awaited worker has no command to read
      subst hvw
      have told : s.main.told v = .done := by
        cases hm : s.main <;> simp_all [Main.awaited, Main.told, Main.printing]
      have quiet := (told ▸ inv.workers v hv).link.2.1
      rw [workerStep_blocked (inv.awaited v hv aw) quiet] at h
      cases h
    · rw [(others v hvw).2]
      exact inv.awaited v hv aw
  · rw [main, flag]
    exact inv.quit
  · rw [main]
    exact inv.secondHead

/-- `main` goes on without touching what it shares with the workers. -/
theorem Inv.goto (inv : Inv n s) {m : Main} (told : ∀ v < n, m.told v = s.main.told v)
    (awaited : ∀ v < n, m.awaited v = true → s.worker v = .readCommand)
    (quit : m.firstDone = true → s.shared.forceQuit = true)
    (head : ∀ b, m = .second b → b = .head) : Inv n { s with main := m } where
  workers := fun v hv => by
    rw [told v hv]
    exact inv.workers v hv
  awaited := awaited
  quit := quit
  second := inv.second
  secondHead := head

/-- `main` takes a step of the launch of worker `w`. -/
theorem Inv.launch (inv : Inv n s) {m : Main} {c : LcoreConfig}
    (told : ∀ v < n, v ≠ w → m.told v = s.main.told v)
    (ok : w < n → WorkerOk (m.told w) c (s.worker w)) (unawaited : ∀ v, m.awaited v = false)
    (first : m.firstDone = false) (head : ∀ b, m ≠ .second b) :
    Inv n ({ s with main := m }.setConfig w c) where
  workers := fun v hv => by
    by_cases hvw : v = w
    · subst hvw
      simpa using ok hv
    · rw [setConfig_other _ _ hvw, setConfig_main, told v hv hvw]
      exact inv.workers v hv
  awaited := fun v _ aw => by
    rw [setConfig_main, unawaited v] at aw
    cases aw
  quit := fun h => by
    rw [setConfig_main, first] at h
    cases h
  second := inv.second
  secondHead := fun b hb => absurd hb (head b)

theorem Inv.check (inv : Inv n s) {v : Nat} (hm : s.main = .check v)
    (h : mainStep n e s = some t) : Inv n t := by
  simp only [mainStep, hm] at h
  split at h
  · rename_i hv
    have ok := inv.workers v hv
    rw [hm] at ok
    -- no worker has been told anything yet, so the check cannot fail
    have idle : (s.config v).state = .wait := ok.waiting (by rw [ok.link.1]; rfl)
    rw [if_pos idle] at h
    cases h
    exact inv.goto (fun w _ => by rw [hm]; rfl) (fun _ _ aw => by cases aw) (fun h => by cases h)
      (by simp)
  · cases h
    refine inv.goto (fun w _ => ?_) (fun _ _ aw => by cases aw) (fun h => by cases h) (by simp)
    rw [hm]
    simp [Main.told]

theorem Inv.launchState (inv : Inv n s) {v : Nat} (hm : s.main = .launchState v)
    (h : mainStep n e s = some t) : Inv n t := by
  simp only [mainStep, hm] at h
  split at h
  · rename_i hv
    have ok := inv.workers v hv
    rw [hm] at ok
    simp only [Main.told, Nat.lt_irrefl, if_false] at ok
    have idle : (s.config v).state = .wait := ok.waiting (by rw [ok.link.1]; rfl)
    rw [if_pos idle] at h
    cases h
    exact inv.goto (fun w _ => by rw [hm]; rfl) (fun _ _ aw => by cases aw) (fun h => by cases h)
      (by simp)
  · cases h
    refine inv.goto (fun w hw => ?_) (fun _ _ aw => by cases aw) (fun h => by cases h) (by simp)
    rw [hm]
    simp [Main.told, show w < v by omega]

theorem Inv.launchStore (inv : Inv n s) {v : Nat} (hm : s.main = .launchStore v)
    (h : mainStep n e s = some t) : Inv n t := by
  simp only [mainStep, hm] at h
  cases h
  refine inv.launch (fun w _ _ => by rw [hm]; rfl) (fun hv => ?_) (fun _ => rfl) rfl (by simp)
  have ok := inv.workers v hv
  rw [hm] at ok
  simp only [Main.told, Nat.lt_irrefl, if_false] at ok ⊢
  exact ⟨ok.state, ok.link⟩

theorem Inv.launchWrite (inv : Inv n s) {v : Nat} (hm : s.main = .launchWrite v)
    (h : mainStep n e s = some t) : Inv n t := by
  simp only [mainStep, hm] at h
  cases h
  refine inv.launch (fun w _ hwv => ?_) (fun hv => ?_) (fun _ => rfl) rfl (by simp)
  · rw [hm]
    simp [Main.told, hwv]
  · have ok := inv.workers v hv
    rw [hm] at ok
    simp only [Main.told, Nat.lt_irrefl, if_false, if_true] at ok ⊢
    exact ⟨ok.state, Or.inl ⟨ok.link.1, by simp [ok.link.2.1], ok.link.2.2⟩⟩

theorem Inv.launchAck (inv : Inv n s) {v : Nat} (hm : s.main = .launchAck v)
    (h : mainStep n e s = some t) : Inv n t := by
  simp only [mainStep, hm] at h
  split at h
  · cases h
  · rename_i hack
    cases h
    refine inv.launch (fun w _ hwv => ?_) (fun hv => ?_) (fun _ => rfl) rfl (by simp)
    · rw [hm]
      simp only [Main.told, hwv, if_false]
      by_cases hlt : w < v
      · simp [hlt, show w < v + 1 by omega]
      · simp [hlt, show ¬ w < v + 1 by omega]
    · -- the acknowledgement is there, so the worker is past its store of RUNNING
      have ok := inv.workers v hv
      rw [hm] at ok
      simp only [Main.told, Nat.lt_irrefl, Nat.lt_succ_self, if_false, if_true] at ok ⊢
      refine ⟨ok.state, ?_⟩
      rcases ok.link with ⟨_, _, h2⟩ | ⟨_, _, h2⟩ | ⟨started, h1, h2⟩
      · exact absurd h2 hack
      · exact absurd h2 hack
      · exact ⟨started, h1, by simp [h2]⟩

/-- What `lcore_main` does on the main lcore leaves the workers alone. -/
theorem Inv.body (inv : Inv n s) (b : Body) :
    Inv n { s with shared := (bodyStep e s.shared b).2.1 } where
  workers := inv.workers
  awaited := inv.awaited
  quit := fun h => by
    rw [bodyStep_forceQuit]
    exact inv.quit h
  second := inv.second
  secondHead := inv.secondHead

theorem Inv.first (inv : Inv n s) {b : Body} (hm : s.main = .first b)
    (h : mainStep n e s = some t) : Inv n t := by
  simp only [mainStep, hm] at h
  cases h
  cases hb : (bodyStep e s.shared b).1 with
  | none =>
    have flag := bodyStep_returns hb
    exact (inv.body b).goto (fun w _ => by simp [hm, Main.told]) (fun _ _ aw => by cases aw)
      (fun _ => by simp [flag]) (by simp)
  | some b' =>
    exact (inv.body b).goto (fun w _ => by simp [hm, Main.told]) (fun _ _ aw => by cases aw)
      (fun h => by cases h) (by simp)

/-- The second call finds the flag set and returns without receiving anything. -/
theorem Inv.secondCall (inv : Inv n s) {b : Body} (hm : s.main = .second b)
    (h : mainStep n e s = some t) : Inv n t := by
  have flag : s.shared.forceQuit = true := inv.quit (by rw [hm]; rfl)
  have received := inv.second
  obtain rfl := inv.secondHead b hm
  simp only [mainStep, hm, bodyStep, flag, if_true, Nat.add_zero] at h
  cases h
  refine inv.goto (m := .wait 0) (fun w _ => by simp [hm, Main.told]) (fun w _ aw => ?_)
    (fun _ => flag) (by simp)
  simp [Main.awaited] at aw

theorem Inv.wait (inv : Inv n s) {v : Nat} (hm : s.main = .wait v)
    (h : mainStep n e s = some t) : Inv n t := by
  have flag : s.shared.forceQuit = true := inv.quit (by rw [hm]; rfl)
  have sofar : ∀ w < n, w < v → s.worker w = .readCommand := fun w hw hwv =>
    inv.awaited w hw (by rw [hm]; simpa [Main.awaited] using hwv)
  simp only [mainStep, hm] at h
  split at h
  · rename_i hv
    split at h <;> cases h
    · rename_i waiting
      have ok := inv.workers v hv
      rw [hm] at ok
      refine inv.goto (fun w _ => by rw [hm]; rfl) (fun w hw aw => ?_) (fun _ => flag) (by simp)
      have hle : w ≤ v := by simpa [Main.awaited] using aw
      rcases Nat.lt_or_eq_of_le hle with hlt | rfl
      · exact sofar w hw hlt
      · exact ok.finished waiting
    · exact inv
  · cases h
    exact inv.goto (fun w _ => by rw [hm]; rfl) (fun w hw _ => sofar w hw (by omega)) (fun _ => flag)
      (by simp)

theorem Inv.waitRet (inv : Inv n s) {v : Nat} (hm : s.main = .waitRet v)
    (h : mainStep n e s = some t) : Inv n t := by
  have flag : s.shared.forceQuit = true := inv.quit (by rw [hm]; rfl)
  simp only [mainStep, hm] at h
  cases h
  split
  · exact inv.goto (fun w _ => by rw [hm]; rfl) (fun _ _ aw => by cases aw) (fun _ => flag) (by simp)
  · refine inv.goto (fun w _ => by rw [hm]; rfl) (fun w hw aw => ?_) (fun _ => flag) (by simp)
    have hlt : w < v + 1 := by simpa [Main.awaited] using aw
    exact inv.awaited w hw (by rw [hm]; simpa [Main.awaited] using Nat.le_of_lt_succ hlt)

/-- Past the printing `main` only goes on to the next resource. -/
theorem mainStep_printing (hp : s.main.printing = true) (h : mainStep n e s = some t) :
    ∃ m, m.printing = true ∧ t = { s with main := m } := by
  cases hm : s.main <;> simp only [hm, Main.printing, reduceCtorEq] at hp <;>
    simp only [mainStep, hm] at h <;> cases h <;> exact ⟨_, rfl, rfl⟩

theorem Main.told_printing {m : Main} (h : m.printing = true) (v : Nat) : m.told v = .done := by
  cases m <;> first | rfl | cases h

theorem Main.awaited_printing {m : Main} (h : m.printing = true) (v : Nat) :
    m.awaited v = true := by
  cases m <;> first | rfl | cases h

theorem Main.firstDone_printing {m : Main} (h : m.printing = true) : m.firstDone = true := by
  cases m <;> first | rfl | cases h

theorem Inv.printing (inv : Inv n s) (hp : s.main.printing = true)
    (h : mainStep n e s = some t) : Inv n t := by
  obtain ⟨m, hm, rfl⟩ := mainStep_printing hp h
  refine inv.goto (fun v _ => by rw [Main.told_printing hm, Main.told_printing hp])
    (fun v hv _ => inv.awaited v hv (Main.awaited_printing hp v))
    (fun _ => inv.quit (Main.firstDone_printing hp)) ?_
  rintro b rfl
  cases hm

theorem Inv.main (inv : Inv n s) (h : mainStep n e s = some t) : Inv n t := by
  cases hm : s.main with
  | check v => exact inv.check hm h
  | launchState v => exact inv.launchState hm h
  | launchStore v => exact inv.launchStore hm h
  | launchWrite v => exact inv.launchWrite hm h
  | launchAck v => exact inv.launchAck hm h
  | first b => exact inv.first hm h
  | firstReturned =>
    simp only [mainStep, hm] at h
    cases h
    exact inv.goto (fun w _ => by rw [hm]; rfl) (fun _ _ aw => by cases aw)
      (fun _ => inv.quit (by rw [hm]; rfl)) (fun b hb => by cases hb; rfl)
  | second b => exact inv.secondCall hm h
  | wait v => exact inv.wait hm h
  | waitRet v => exact inv.waitRet hm h
  | failed =>
    simp only [mainStep, hm] at h
    cases h
  | _ => exact inv.printing (by rw [hm]; rfl) h

theorem Inv.exec {mv : Move} (inv : Inv n s) (h : Teardown.exec n mv s = some t) : Inv n t := by
  cases mv with
  | main e => exact inv.main h
  | worker w e =>
    simp only [Teardown.exec] at h
    split at h
    · exact inv.worker ‹_› h
    · cases h
  | signal =>
    cases h
    exact ⟨inv.workers, inv.awaited, fun _ => rfl, inv.second, inv.secondHead⟩
  | interrupted =>
    cases h
    exact inv

theorem Start.inv (h : Start s) : Inv n s where
  workers := fun w _ => by
    rw [h.main, h.worker]
    exact ⟨h.state w, rfl, h.main2worker w, h.worker2main w⟩
  awaited := fun w _ aw => by
    rw [h.main] at aw
    cases aw
  quit := fun hq => by
    rw [h.main] at hq
    cases hq
  second := h.secondReceived
  secondHead := by simp [h.main]

theorem reachable_inv (h : (protocol n).Reachable s) : Inv n s := by
  refine h.invariant (I := Inv n) (fun _ => Start.inv) ?_
  rintro s t inv ⟨mv, hmv⟩
  exact inv.exec hmv

/-! ## After the printing -/

/-- A step past the printing changes no counter and uses no resource in an lcore. -/
theorem Inv.still_step {mv : Move} (inv : Inv n s) (hp : s.main.printing = true)
    (h : Teardown.exec n mv s = some t) : t.main.printing = true ∧
      t.shared.counters = s.shared.counters ∧ t.shared.uses = s.shared.uses := by
  cases mv with
  | main e =>
    obtain ⟨m, hm, rfl⟩ := mainStep_printing hp h
    exact ⟨hm, rfl, rfl⟩
  | worker w e =>
    simp only [Teardown.exec] at h
    split at h
    · rename_i hw
      have told := Main.told_printing hp w
      have quiet := (told ▸ inv.workers w hw).link.2.1
      have waiting := inv.awaited w hw (Main.awaited_printing hp w)
      rw [workerStep_blocked waiting quiet] at h
      cases h
    · cases h
  | signal =>
    cases h
    exact ⟨hp, rfl, rfl⟩
  | interrupted =>
    cases h
    exact ⟨hp, rfl, rfl⟩

theorem Inv.still (inv : Inv n s) (hp : s.main.printing = true)
    (run : Relation.ReflTransGen (protocol n).Step s t) : t.main.printing = true ∧
      t.shared.counters = s.shared.counters ∧ t.shared.uses = s.shared.uses ∧ Inv n t := by
  induction run with
  | refl => exact ⟨hp, rfl, rfl, inv⟩
  | tail _ step ih =>
    obtain ⟨printing, counters, uses, inv⟩ := ih
    obtain ⟨mv, hmv⟩ := step
    obtain ⟨printing', counters', uses'⟩ := inv.still_step printing hmv
    exact ⟨printing', counters'.trans counters, uses'.trans uses, inv.exec hmv⟩

/-- From the printing of the statistics on, nothing runs but `main`. -/
theorem printing_quiescent (n : Nat) (s : State) (reach : (protocol n).Reachable s)
    (printing : s.main.printing = true) : Quiescent n s := by
  have inv := reachable_inv reach
  have waiting : ∀ w < n, s.worker w = .readCommand :=
    fun w hw => inv.awaited w hw (Main.awaited_printing printing w)
  refine ⟨waiting, fun w hw => ?_, fun w hw => ?_, inv.second, fun t run => ?_⟩
  · exact (inv.workers w hw).waiting (by rw [waiting w hw]; rfl)
  · have told := Main.told_printing printing w
    exact (told ▸ inv.workers w hw).link.2.1
  · obtain ⟨_, counters, uses, _⟩ := inv.still printing run
    exact ⟨counters, uses⟩

end

def start : State where
  shared := ⟨false, ⟨0, 0, 0⟩, 0⟩
  main := .check 0
  secondReceived := 0
  config _ := ⟨.wait, false, 0, 0, 0⟩
  worker _ := .readCommand

def idle : Env := ⟨0, ⟨0, 0, 0⟩⟩

/-- One worker is launched, SIGINT arrives, both lcores leave the loop. -/
def shortRun : List Move :=
  List.replicate 5 (.main idle) ++ List.replicate 4 (.worker 0 idle) ++ [.main idle, .signal] ++
    List.replicate 4 (.main idle) ++ List.replicate 5 (.worker 0 idle) ++
    List.replicate 4 (.main idle)

theorem shortRun_quiescent :
    ∃ s, (protocol 1).Reachable s ∧ s.main.printing = true ∧ Quiescent 1 s := by
  have run : (System.follow (exec 1) shortRun start).map (fun s => s.main.printing) = some true := by
    decide
  obtain ⟨s, hs, printing⟩ := Option.map_eq_some_iff.mp run
  have init : (protocol 1).Reachable start :=
    .init ⟨rfl, fun _ => rfl, fun _ => rfl, fun _ => rfl, fun _ => rfl, rfl⟩
  have reach := init.follow (S := protocol 1) (fun mv _ _ h => ⟨mv, h⟩) hs
  exact ⟨s, reach, printing, printing_quiescent 1 s reach printing⟩

end Teardown
