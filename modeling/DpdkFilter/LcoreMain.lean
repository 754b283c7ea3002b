import DpdkFilter.CString
import DpdkFilter.FilterRules

/-!
# The packet loop

Everything outside the loop (driver, KNI library, system calls, signals) is a
`World`: it answers each call from a state of its own and may answer in any way,
so a statement about every world is one about every environment. A pass of the
loop records the calls and packet accesses it makes, in source order.
-/

namespace LcoreMain

open CString Mbuf FilterRules

def burstSize : Nat := 32

/-- What `rte_eth_rx_burst` leaves in `bufs`: at most `BURST_SIZE` mbufs. -/
structure Burst where
  mbufs : List RteMbuf
  size_le : mbufs.length ≤ burstSize

/-- The argument of a `rte_pktmbuf_free`: an mbuf, or the address of the pointer
variable that holds it. -/
inductive FreeArg where
  | mbuf (m : RteMbuf)
  | pointerVariable

structure World (σ : Type) where
  forceQuit : σ → Bool
  rteKniRxBurst : σ → Option RteMbuf × σ
  rteEthTxBurst : UInt16 → RteMbuf → σ → Bool × σ
  rteEthRxBurst : UInt16 → σ → Burst × σ
  rteKniTxBurst : RteMbuf → σ → Bool × σ
  write : Int → List UInt8 → σ → Int × σ
  ifNametoindex : CStr → σ → UInt32 × σ
  sendto : Int → List UInt8 → σ → Int × σ
  rtePktmbufFree : FreeArg → σ → σ
  rtePause : σ → σ

/-- The environment in which every call succeeds and every burst is the same. -/
def World.always (burst : Burst) : World Unit where
  forceQuit _ := false
  rteKniRxBurst _ := (none, ())
  rteEthTxBurst _ _ _ := (true, ())
  rteEthRxBurst _ _ := (burst, ())
  rteKniTxBurst _ _ := (true, ())
  write _ data _ := (data.length, ())
  ifNametoindex _ _ := (1, ())
  sendto _ data _ := (data.length, ())
  rtePktmbufFree _ _ := ()
  rtePause _ := ()

/-- The global variables the loop reads. `kni` tells whether the pointer is non-NULL. -/
structure Globals where
  filterRules : List FilterRuleEntry
  portId : UInt16
  kni : Bool
  forwardIfname : Option CStr
  tunFd : Int
  rawSock : Int

structure Counters where
  totalPackets : UInt64
  forwardedPackets : UInt64
  kniPackets : UInt64
deriving DecidableEq

/-- `forwardRet` marks the return of `forward_to_tun` or `forward_to_nic`. -/
inductive Event where
  | load (m : RteMbuf) (offset length : Nat)
  | loadPktLen (m : RteMbuf)
  | rteKniTxBurst (m : RteMbuf) (accepted : Bool)
  | write (m : RteMbuf) (data : List UInt8) (ret : Int)
  | ifNametoindex (ret : UInt32)
  | sendto (m : RteMbuf) (data : List UInt8) (ret : Int)
  | forwardRet (m : RteMbuf) (ret : Int)
  | rtePktmbufFree (m : RteMbuf)
  | rtePause

inductive HandlerEvent where
  | rteKniRxBurst (m : Option RteMbuf)
  | rteEthTxBurst (m : RteMbuf) (accepted : Bool)
  | rtePktmbufFree (arg : FreeArg)

/-- The ways out of the header inspection: two `continue`s, then the verdict. -/
inductive Branch where
  | notIpv4
  | notTcpUdp
  | forward
  | toKni
deriving DecidableEq

structure Out (σ : Type) where
  events : List Event
  world : σ
  counters : Counters

def Out.prepend {σ : Type} (es : List Event) (o : Out σ) : Out σ :=
  { o with events := es ++ o.events }

def tun : CStr := ['t', 'u', 'n']

/-- Header inspection, from `eth_hdr` to `should_forward`. -/
def inspect (filterRules : List FilterRuleEntry) (m : RteMbuf) : List Event × Branch :=
  if etherType m ≠ rteCpuToBe16 rteEtherTypeIpv4 then
    ([.load m 12 2], .notIpv4)
  else if nextProtoId m ≠ ipprotoTcp ∧ nextProtoId m ≠ ipprotoUdp then
    ([.load m 12 2, .load m 23 1], .notTcpUdp)
  else
    let ports := if nextProtoId m = ipprotoTcp then tcpPorts m else udpPorts m
    ([.load m 12 2, .load m 23 1, .load m 26 4, .load m 30 4, .load m 14 1,
      .load m (l4Offset m) 2, .load m (l4Offset m + 2) 2],
      if matchFilterRule (srcAddr m) (dstAddr m) ports.1 ports.2 filterRules then .forward
      else .toKni)

section
variable {σ : Type} (W : World σ)

/-- The block that stands three times in the loop: offer to the KNI, else free. -/
def kniOrFree (kni : Bool) (m : RteMbuf) (w : σ) (c : Counters) : Out σ :=
  if kni then
    let (nbTx, w) := W.rteKniTxBurst m w
    if nbTx then
      ⟨[.rteKniTxBurst m true], w, { c with kniPackets := c.kniPackets + 1 }⟩
    else
      ⟨[.rteKniTxBurst m false, .rtePktmbufFree m], W.rtePktmbufFree (.mbuf m) w, c⟩
  else
    ⟨[.rtePktmbufFree m], W.rtePktmbufFree (.mbuf m) w, c⟩

/-- The calls of a forward function, its return value and the world it leaves. -/
structure Forwarded (σ : Type) where
  events : List Event
  ret : Int
  world : σ

def forwardToTun (g : Globals) (m : RteMbuf) (w : σ) : Forwarded σ :=
  if g.tunFd < 0 then ⟨[], -1, w⟩
  else
    let ipLen := rteBeToCpu16 (totalLength m)
    let data := bytes m rteEtherHdrSize ipLen.toNat
    let (n, w) := W.write g.tunFd data w
    ⟨[.load m 16 2, .write m data n], if n < 0 then -1 else 0, w⟩

def forwardToNic (g : Globals) (name : CStr) (m : RteMbuf) (w : σ) : Forwarded σ :=
  if g.rawSock < 0 then ⟨[], -1, w⟩
  else
    -- the total length goes into a 16-bit variable
    let pktLen : UInt16 := m.pktLen.toUInt16
    let (ifindex, w) := W.ifNametoindex name w
    if ifindex = 0 then ⟨[.loadPktLen m, .ifNametoindex ifindex], -1, w⟩
    else
      let data := bytes m 0 pktLen.toNat
      let (n, w) := W.sendto g.rawSock data w
      ⟨[.loadPktLen m, .ifNametoindex ifindex, .sendto m data n], if n < 0 then -1 else 0, w⟩

/-- Count a forwarded packet when the forward function returned 0, then free the mbuf. -/
def finishForward (m : RteMbuf) (c : Counters) (f : Forwarded σ) : Out σ :=
  ⟨f.events ++ [.forwardRet m f.ret, .rtePktmbufFree m], W.rtePktmbufFree (.mbuf m) f.world,
    if f.ret = 0 then { c with forwardedPackets := c.forwardedPackets + 1 } else c⟩

def forwardPacket (g : Globals) (m : RteMbuf) (w : σ) (c : Counters) : Out σ :=
  match g.forwardIfname with
  | some name =>
    if strncmp name tun 3 = 0 then finishForward W m c (forwardToTun W g m w)
    else finishForward W m c (forwardToNic W g name m w)
  | none => ⟨[.rtePktmbufFree m], W.rtePktmbufFree (.mbuf m) w, c⟩

/-- The body of the `for` loop for one mbuf. -/
def processPacket (g : Globals) (m : RteMbuf) (w : σ) (c : Counters) : Out σ :=
  match inspect g.filterRules m with
  | (loads, .notIpv4) => (kniOrFree W g.kni m w c).prepend loads
  | (loads, .notTcpUdp) => (kniOrFree W g.kni m w c).prepend loads
  | (loads, .forward) => (forwardPacket W g m w c).prepend loads
  | (loads, .toKni) => (kniOrFree W g.kni m w c).prepend loads

def processBurst (g : Globals) : List RteMbuf → σ → Counters → Out σ
  | [], w, c => ⟨[], w, c⟩
  | m :: bufs, w, c =>
    let o := processPacket W g m w c
    (processBurst g bufs o.world o.counters).prepend o.events

def kniRequestHandler (g : Globals) (w : σ) : List HandlerEvent × σ :=
  match W.rteKniRxBurst w with
  | (none, w) => ([.rteKniRxBurst none], w)
  | (some m, w) =>
    match W.rteEthTxBurst g.portId m w with
    | (true, w) => ([.rteKniRxBurst (some m), .rteEthTxBurst m true], w)
    | (false, w) =>
      -- `rte_pktmbuf_free(&m)`: the argument is the address of the local variable
      ([.rteKniRxBurst (some m), .rteEthTxBurst m false, .rtePktmbufFree .pointerVariable],
        W.rtePktmbufFree .pointerVariable w)

/-- One iteration of the `while` loop. -/
structure Pass where
  handler : List HandlerEvent
  burst : Burst
  events : List Event

structure Head (σ : Type) where
  world : σ
  counters : Counters

/-- An iteration from the return of `rte_eth_rx_burst` on. -/
def processReceived (g : Globals) (handler : List HandlerEvent) (burst : Burst) (w : σ)
    (c : Counters) : Pass × Head σ :=
  if burst.mbufs.length = 0 then (⟨handler, burst, [.rtePause]⟩, ⟨W.rtePause w, c⟩)
  else
    let c := { c with totalPackets := c.totalPackets + UInt64.ofNat burst.mbufs.length }
    let o := processBurst W g burst.mbufs w c
    (⟨handler, burst, o.events⟩, ⟨o.world, o.counters⟩)

def lcorePass (g : Globals) (h : Head σ) : Pass × Head σ :=
  let (handler, w) := if g.kni then kniRequestHandler W g h.world else ([], h.world)
  let (burst, w) := W.rteEthRxBurst g.portId w
  processReceived W g handler burst w h.counters

/-- The head of the `while` loop reached after at most `fuel` iterations, with the
passes made; the loop is left where `force_quit` is read as true. -/
def lcoreMain (g : Globals) : Nat → Head σ → List Pass × Head σ
  | 0, h => ([], h)
  | fuel + 1, h =>
    if W.forceQuit h.world then ([], h)
    else
      let (pass, h) := lcorePass W g h
      let (passes, h) := lcoreMain g fuel h
      (pass :: passes, h)

end

end LcoreMain
