import DpdkFilter.ForwardInterface
import DpdkFilter.KniLibrary
import DpdkFilter.Options

/-!
# From the command line to the packet loop

`main` up to the launch of the loop, with every way out of it. What EAL, the ports and
the operating system answer is the environment; the calls that reach a port are kept.
-/

namespace Startup

open CString FilterRules ForwardInterface KniLibrary LcoreMain Options

/-! ## Ethernet devices -/

/-- An attached device. `kniName` is the interface that a net_kni device makes when it
is started. -/
structure EthDevice where
  owner : Nat
  kniName : Option CStr

def rteMaxEthports : Nat := 32

def rteEthDevNoOwner : Nat := 0

/-- `rte_eth_devices`; `none` is the state UNUSED. -/
abbrev Devices := Nat → Option EthDevice

def rteEthDevIsValidPort (devices : Devices) (portId : Nat) : Bool :=
  if portId ≥ rteMaxEthports ∨ (devices portId).isNone then false else true

/-- The loop of `rte_eth_find_next`, from `portId` on. -/
def findNext (devices : Devices) : Nat → Nat → Nat
  | 0, _ => rteMaxEthports
  | left + 1, portId =>
    if (devices portId).isNone then findNext devices left (portId + 1) else portId

def rteEthFindNext (devices : Devices) (portId : Nat) : Nat :=
  findNext devices (rteMaxEthports - portId) portId

/-- The loop of `rte_eth_find_next_owned_by`. -/
def findNextOwnedBy (devices : Devices) (ownerId : Nat) : Nat → Nat → Nat
  | 0, _ => rteMaxEthports
  | left + 1, portId =>
    let portId := rteEthFindNext devices portId
    if portId < rteMaxEthports ∧ (devices portId).map EthDevice.owner ≠ some ownerId then
      findNextOwnedBy devices ownerId left (portId + 1)
    else portId

def rteEthFindNextOwnedBy (devices : Devices) (portId ownerId : Nat) : Nat :=
  findNextOwnedBy devices ownerId (rteMaxEthports + 1) portId

/-- The loop of `rte_eth_dev_count_avail`. -/
def countAvail (devices : Devices) : Nat → Nat → Nat
  | 0, _ => 0
  | left + 1, from_ =>
    let p := rteEthFindNextOwnedBy devices from_ rteEthDevNoOwner
    if p < rteMaxEthports then countAvail devices left (p + 1) + 1 else 0

def rteEthDevCountAvail (devices : Devices) : Nat := countAvail devices (rteMaxEthports + 1) 0

/-! ## The environment -/

/-- What the calls of `port_init` return. -/
structure PortEnv where
  devInfoGet : Int
  devConfigure : Int
  adjustNbRxTxDesc : Int
  rxQueueSetup : Int
  txQueueSetup : Int
  devStart : Int
  macaddrGet : Int
  promiscuousEnable : Int

/-- `others` are the interfaces of other processes, `startAlloc` what a net_kni device
meets when it makes its own. -/
structure MainEnv where
  ealInit : Int
  primary : Bool
  iovaOk : Bool
  probes : List KniProbe
  others : List CStr
  devices : Devices
  mbufPoolCreate : Bool
  port : PortEnv
  startAlloc : AllocEnv
  kniAlloc : AllocEnv
  forward : ForwardEnv
  calloc : Nat → Bool

/-- Opening `/dev/kni`, the reservations and the ioctl succeed whenever they are tried. -/
structure MainEnv.KniSucceeds (env : MainEnv) : Prop where
  opens : ∀ p ∈ env.probes, 0 ≤ p.openRet
  startAlloc : env.startAlloc.Succeeds
  kniAlloc : env.kniAlloc.Succeeds

inductive PortCall where
  | rteEthDevInfoGet (port : UInt16)
  | rteEthDevConfigure (port : UInt16)
  | rteEthDevAdjustNbRxTxDesc (port : UInt16)
  | rteEthRxQueueSetup (port : UInt16)
  | rteEthTxQueueSetup (port : UInt16)
  | rteEthDevStart (port : UInt16)
  | rteEthMacaddrGet (port : UInt16)
  | rteEthPromiscuousEnable (port : UInt16)
deriving DecidableEq

inductive Outcome where
  | exit (status : Int)
  | panic
  | launch (g : Globals)

structure Result where
  calls : List PortCall
  outcome : Outcome

/-! ## The port -/

/-- `RTE_PKTMBUF_HEADROOM`. -/
def rtePktmbufHeadroom : Nat := 128

/-- `RTE_MBUF_DEFAULT_BUF_SIZE`, the data room of the pool `main` creates. -/
def rteMbufDefaultBufSize : Nat := 2048 + rtePktmbufHeadroom

/-- A net_kni device makes its interface when it is started. -/
def rteEthDevStart (env : MainEnv) (port : UInt16) (lib : KniLib) : Int × KniLib :=
  match (env.devices port.toNat).bind EthDevice.kniName with
  | none => (env.port.devStart, lib)
  | some name =>
    let (kni, lib) := rteKniAlloc env.startAlloc env.mbufPoolCreate
      { name := name.take (rteKniNamesize - 1)
        forceBind := false
        groupId := port
        mbufSize := rteMbufDefaultBufSize - rtePktmbufHeadroom } lib
    (if kni then env.port.devStart else -1, lib)

/-- Calls one after the other up to the first that fails: what was called and what the
last call returned. -/
def callUntilFailure : List (PortCall × Int × Bool) → List PortCall × Int
  | [] => ([], 0)
  | (call, retval, failed) :: rest =>
    if failed then ([call], retval)
    else
      let (calls, retval) := callUntilFailure rest
      (call :: calls, retval)

def portInit (env : MainEnv) (port : UInt16) (lib : KniLib) : List PortCall × Int × KniLib :=
  if ¬ rteEthDevIsValidPort env.devices port.toNat then ([], -1, lib)
  else
    let (started, lib) := rteEthDevStart env port lib
    let (calls, retval) := callUntilFailure
      [(.rteEthDevInfoGet port, env.port.devInfoGet, env.port.devInfoGet ≠ 0),
        (.rteEthDevConfigure port, env.port.devConfigure, env.port.devConfigure ≠ 0),
        (.rteEthDevAdjustNbRxTxDesc port, env.port.adjustNbRxTxDesc,
          env.port.adjustNbRxTxDesc ≠ 0),
        (.rteEthRxQueueSetup port, env.port.rxQueueSetup, env.port.rxQueueSetup < 0),
        (.rteEthTxQueueSetup port, env.port.txQueueSetup, env.port.txQueueSetup < 0),
        (.rteEthDevStart port, started, started < 0),
        (.rteEthMacaddrGet port, env.port.macaddrGet, env.port.macaddrGet ≠ 0),
        (.rteEthPromiscuousEnable port, env.port.promiscuousEnable,
          env.port.promiscuousEnable ≠ 0)]
    (calls, retval, lib)

/-- The configuration `init_kni` fills in: the name is cut to what its field holds. -/
def kniConf (portId : UInt16) (kniName : CStr) : RteKniConf where
  name := kniName.take (rteKniNamesize - 1)
  forceBind := true
  groupId := portId
  mbufSize := rteMbufDefaultBufSize

/-- Whether `kni` is set, and the calls made on the port. -/
def initKni (env : MainEnv) (portId : UInt16) (kniName : CStr) (lib : KniLib) :
    Bool × List PortCall :=
  ((rteKniAlloc env.kniAlloc env.mbufPoolCreate (kniConf portId kniName) lib).1,
    [.rteEthDevInfoGet portId])

/-! ## `main` -/

/-- The library as EAL leaves it. -/
def ealKniLib (env : MainEnv) : KniLib :=
  env.probes.foldl (ethKniProbe env.primary env.iovaOk) (.initial env.others)

/-- From the opening of the forward interface to the launch. -/
def openAndLaunch (env : MainEnv) (p : Parsed) (forwardIfname : CStr) (kni : Bool)
    (calls : List PortCall) : Result :=
  match openForward env.forward forwardIfname with
  | none => ⟨calls, .exit 1⟩
  | some d =>
    ⟨calls, .launch
      { filterRules := installFilterRules env.calloc 0 p.rules.args []
        portId := p.portId
        kni := kni
        forwardIfname := some forwardIfname
        tunFd := d.tunFd
        rawSock := d.rawSock }⟩

/-- From the creation of the pool on. -/
def initialise (env : MainEnv) (p : Parsed) (forwardIfname : CStr) : Result :=
  if ¬ env.mbufPoolCreate then ⟨[], .panic⟩
  else
    let (calls, ret, lib) := portInit env p.portId (ealKniLib env)
    if ret ≠ 0 then ⟨calls, .panic⟩
    else
      -- a failed `init_kni` is a warning
      match p.kniName with
      | none => openAndLaunch env p forwardIfname false calls
      | some kniName =>
        let (kni, infoGet) := initKni env p.portId kniName lib
        openAndLaunch env p forwardIfname kni (calls ++ infoGet)

def main (env : MainEnv) (opts : List Opt) : Result :=
  if env.ealInit < 0 then ⟨[], .panic⟩
  else
    match parseOptions opts .initial with
    | .error status => ⟨[], .exit status⟩
    | .ok p =>
      match p.forwardIfname with
      | none => ⟨[], .exit 1⟩
      | some forwardIfname =>
        if p.rules.args.length = 0 then ⟨[], .exit 1⟩
        else
          let nbPorts := rteEthDevCountAvail env.devices
          if nbPorts = 0 then ⟨[], .panic⟩
          else if p.portId.toNat ≥ nbPorts then ⟨[], .exit 1⟩
          else initialise env p forwardIfname

/-- Where a call that fails returns something other than 0, a zero says that all succeeded. -/
theorem callUntilFailure_zero {steps : List (PortCall × Int × Bool)}
    (tells : ∀ step ∈ steps, step.2.2 = true → step.2.1 ≠ 0)
    (h : (callUntilFailure steps).2 = 0) : ∀ step ∈ steps, step.2.2 = false := by
  induction steps with
  | nil => simp
  | cons step steps ih =>
    obtain ⟨call, retval, failed⟩ := step
    cases failed with
    | true => exact absurd h (tells _ List.mem_cons_self rfl)
    | false =>
      intro s hs
      rcases List.mem_cons.mp hs with rfl | later
      · rfl
      · exact ih (fun s hs => tells s (List.mem_cons_of_mem _ hs)) h s later

/-- The interface that a port makes when it is started. -/
def portInterface (env : MainEnv) (port : UInt16) : List CStr :=
  ((env.devices port.toNat).bind EthDevice.kniName).toList.map (·.take (rteKniNamesize - 1))

theorem rteEthDevStart_lib {env : MainEnv} {port : UInt16} {lib : KniLib}
    (started : 0 ≤ (rteEthDevStart env port lib).1) :
    (rteEthDevStart env port lib).2 =
      { lib with kniList := lib.kniList ++ portInterface env port } := by
  unfold rteEthDevStart at started ⊢
  unfold portInterface
  generalize (env.devices port.toNat).bind EthDevice.kniName = own at started ⊢
  cases own with
  | none => simp
  | some name =>
    dsimp only at started ⊢
    rcases rteKniAlloc_cases env.startAlloc env.mbufPoolCreate
      { name := name.take (rteKniNamesize - 1)
        forceBind := false
        groupId := port
        mbufSize := rteMbufDefaultBufSize - rtePktmbufHeadroom } lib with failed | made
    · rw [failed] at started
      simp at started
    · rw [made]
      simp [List.take_take]

/-- Starting the port can add the port's own interface and nothing else. -/
theorem portInit_lib {env : MainEnv} {port : UInt16} {lib lib' : KniLib} {calls : List PortCall}
    (h : portInit env port lib = (calls, 0, lib')) :
    lib' = { lib with kniList := lib.kniList ++ portInterface env port } := by
  unfold portInit at h
  split at h
  · cases congrArg (fun r => r.2.1) h
  · have ret := congrArg (fun r => r.2.1) h
    have left := congrArg (fun r => r.2.2) h
    dsimp only at ret left
    have all := callUntilFailure_zero (by simp; omega) ret
    have started := all (.rteEthDevStart port, (rteEthDevStart env port lib).1,
      decide ((rteEthDevStart env port lib).1 < 0)) (by simp)
    rw [← left]
    exact rteEthDevStart_lib (by simpa using started)

/-! ## What a launch says -/

/-- The pointer `kni` after `init_kni`, if that is called at all. -/
def kniPointer (env : MainEnv) (p : Parsed) (lib : KniLib) : Bool :=
  match p.kniName with
  | none => false
  | some kniName => (initKni env p.portId kniName lib).1

theorem openAndLaunch_launch {env : MainEnv} {p : Parsed} {forwardIfname : CStr} {kni : Bool}
    {calls : List PortCall} {g : Globals}
    (h : (openAndLaunch env p forwardIfname kni calls).outcome = .launch g) :
    ∃ d, openForward env.forward forwardIfname = some d ∧
      g = { filterRules := installFilterRules env.calloc 0 p.rules.args []
            portId := p.portId
            kni := kni
            forwardIfname := some forwardIfname
            tunFd := d.tunFd
            rawSock := d.rawSock } := by
  unfold openAndLaunch at h
  split at h
  · cases h
  · rename_i d hd
    cases h
    exact ⟨d, hd, rfl⟩

theorem initialise_launch {env : MainEnv} {p : Parsed} {forwardIfname : CStr} {g : Globals}
    (h : (initialise env p forwardIfname).outcome = .launch g) :
    env.mbufPoolCreate = true ∧ ∃ calls lib, portInit env p.portId (ealKniLib env) = (calls, 0, lib) ∧
      ∃ calls', (openAndLaunch env p forwardIfname (kniPointer env p lib) calls').outcome =
        .launch g := by
  unfold initialise at h
  split at h
  · cases h
  · rename_i created
    refine ⟨not_not.mp created, ?_⟩
    generalize portInit env p.portId (ealKniLib env) = r at h ⊢
    obtain ⟨calls, ret, lib⟩ := r
    dsimp only at h
    split at h
    · cases h
    · rename_i ok
      cases not_not.mp ok
      refine ⟨calls, lib, rfl, ?_⟩
      unfold kniPointer
      cases hk : p.kniName with
      | none =>
        rw [hk] at h
        exact ⟨_, h⟩
      | some kniName =>
        rw [hk] at h
        exact ⟨_, h⟩

/-- Everything a launch of the packet loop tells about the start. -/
theorem main_launch {env : MainEnv} {opts : List Opt} {g : Globals}
    (h : (main env opts).outcome = .launch g) :
    ∃ p forwardIfname calls lib d, parseOptions opts .initial = .ok p ∧
      p.forwardIfname = some forwardIfname ∧ env.mbufPoolCreate = true ∧
      portInit env p.portId (ealKniLib env) = (calls, 0, lib) ∧
      openForward env.forward forwardIfname = some d ∧
      g = { filterRules := installFilterRules env.calloc 0 p.rules.args []
            portId := p.portId
            kni := kniPointer env p lib
            forwardIfname := some forwardIfname
            tunFd := d.tunFd
            rawSock := d.rawSock } := by
  unfold main at h
  split at h
  · cases h
  · split at h
    · cases h
    · rename_i p parsed
      split at h
      · cases h
      · rename_i forwardIfname named
        split at h
        · cases h
        · dsimp only at h
          split at h
          · cases h
          · split at h
            · cases h
            · obtain ⟨created, calls, lib, port, calls', launched⟩ := initialise_launch h
              obtain ⟨d, opened, hg⟩ := openAndLaunch_launch launched
              exact ⟨p, forwardIfname, calls, lib, d, parsed, named, created, port, opened, hg⟩

/-- The loop starts with the descriptors the opening left. -/
theorem launched_opened {env : MainEnv} {opts : List Opt} {g : Globals}
    (h : (main env opts).outcome = .launch g) :
    ∃ forwardIfname, Opened env.forward forwardIfname g := by
  obtain ⟨_, forwardIfname, _, _, _, _, _, _, _, opened, rfl⟩ := main_launch h
  exact ⟨forwardIfname, rfl, opened⟩

end Startup
