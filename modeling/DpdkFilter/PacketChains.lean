import DpdkFilter.ByteMemory
import DpdkFilter.Interleaving
import Mathlib.Algebra.Order.Ring.Int
import Mathlib.Data.Multiset.AddSub
import Mathlib.Logic.Function.Basic

/-!
# Packets of several mbufs

A packet is a chain of mbufs, each with its own buffer. The header of the first mbuf counts the
segments and the bytes of all; data is put before the first and after the last, taken from
either, and moved between mbufs. The mbufs are direct and not shared.
-/

namespace PacketChains

open ByteMemory

universe u v
variable {M : Type u} {P : Type v}

/-- Where the buffers of the mbufs are. -/
structure Buffers (M : Type u) where
  bufAddr : M → Nat
  bufLen : M → Nat
  small : ∀ m, bufLen m < 2 ^ 16
  apart : ∀ m n, m ≠ n → bufAddr m + bufLen m ≤ bufAddr n ∨ bufAddr n + bufLen n ≤ bufAddr m

structure Segment (M : Type u) where
  mbuf : M
  dataOff : Nat
  dataLen : Nat
deriving DecidableEq

/-- A packet by its first mbuf. Nothing reads `pkt_len` and `nb_segs` of the others, which are
reached over `next`. -/
structure Pktmbuf (M : Type u) where
  head : Segment M
  rest : List (Segment M)
  pktLen : Nat
  nbSegs : Nat
deriving DecidableEq

def Pktmbuf.segs (m : Pktmbuf M) : List (Segment M) := m.head :: m.rest

def Pktmbuf.mbufs (m : Pktmbuf M) : List M := m.segs.map Segment.mbuf

def rtePktmbufHeadroomSize : Nat := 128

def rteMbufMaxNbSegs : Nat := 65535

section
variable (b : Buffers M)

def rtePktmbufMtodOffset (s : Segment M) (off : Nat) : Nat := b.bufAddr s.mbuf + s.dataOff + off

def rtePktmbufHeadroom (s : Segment M) : Nat := s.dataOff

def rtePktmbufTailroom (s : Segment M) : Nat :=
  (b.bufLen s.mbuf + 2 ^ 17 - rtePktmbufHeadroom s - s.dataLen) % 2 ^ 16

def rtePktmbufLastseg : Segment M → List (Segment M) → Segment M
  | s, [] => s
  | _, t :: rest => rtePktmbufLastseg t rest

/-- A write through the pointer to the last segment. -/
def onLast (f : Segment M → Segment M) : Segment M → List (Segment M) →
    Segment M × List (Segment M)
  | s, [] => (f s, [])
  | s, t :: rest => (s, (onLast f t rest).1 :: (onLast f t rest).2)

/-- `rte_pktmbuf_alloc` of the mbuf that the mempool gives, with `rte_pktmbuf_reset`. -/
def rtePktmbufReset (m : M) : Pktmbuf M :=
  ⟨⟨m, min rtePktmbufHeadroomSize (b.bufLen m), 0⟩, [], 0, 1⟩

def rtePktmbufPrepend (m : Pktmbuf M) (len : Nat) : Option (Nat × Pktmbuf M) :=
  if len > rtePktmbufHeadroom m.head then none
  else
    let head := { m.head with
      dataOff := (m.head.dataOff + 2 ^ 16 - len) % 2 ^ 16
      dataLen := (m.head.dataLen + len) % 2 ^ 16 }
    some (rtePktmbufMtodOffset b head 0,
      { m with head := head, pktLen := (m.pktLen + len) % 2 ^ 32 })

def rtePktmbufAppend (m : Pktmbuf M) (len : Nat) : Option (Nat × Pktmbuf M) :=
  let last := rtePktmbufLastseg m.head m.rest
  if len > rtePktmbufTailroom b last then none
  else
    let segs := onLast (fun s => { s with dataLen := (s.dataLen + len) % 2 ^ 16 }) m.head m.rest
    some (rtePktmbufMtodOffset b last last.dataLen,
      { m with head := segs.1, rest := segs.2, pktLen := (m.pktLen + len) % 2 ^ 32 })

def rtePktmbufAdj (m : Pktmbuf M) (len : Nat) : Option (Pktmbuf M) :=
  if len > m.head.dataLen then none
  else
    some { m with
      head := { m.head with
        dataLen := (m.head.dataLen + 2 ^ 16 - len) % 2 ^ 16
        dataOff := (m.head.dataOff + len) % 2 ^ 16 }
      pktLen := (m.pktLen + 2 ^ 32 - len) % 2 ^ 32 }

def rtePktmbufTrim (m : Pktmbuf M) (len : Nat) : Option (Pktmbuf M) :=
  if len > (rtePktmbufLastseg m.head m.rest).dataLen then none
  else
    let segs := onLast (fun s => { s with dataLen := (s.dataLen + 2 ^ 16 - len) % 2 ^ 16 })
      m.head m.rest
    some { m with
      head := segs.1
      rest := segs.2
      pktLen := (m.pktLen + 2 ^ 32 - len) % 2 ^ 32 }

def rtePktmbufChain (head tail : Pktmbuf M) : Option (Pktmbuf M) :=
  if head.nbSegs + tail.nbSegs > rteMbufMaxNbSegs then none
  else
    some { head with
      rest := head.rest ++ tail.segs
      nbSegs := (head.nbSegs + tail.nbSegs) % 2 ^ 16
      pktLen := (head.pktLen + tail.pktLen) % 2 ^ 32 }

/-- The mbufs of a packet go back to the mempool. -/
def rtePktmbufFree (m : Pktmbuf M) : List M := m.mbufs

/-- The bytes of a segment. -/
def Segment.data (mem : Nat → UInt8) (s : Segment M) : List UInt8 :=
  bytes mem (rtePktmbufMtodOffset b s 0) s.dataLen

/-- The loop of `__rte_pktmbuf_linearize` from `buffer` on. -/
def linearizeLoop (mem : Nat → UInt8) (buffer : Nat) :
    List (Segment M) → (Nat → UInt8) × List M
  | [] => (mem, [])
  | seg :: rest =>
    let r := linearizeLoop (write mem buffer (seg.data b mem)) (buffer + seg.dataLen) rest
    (r.1, seg.mbuf :: r.2)

/-- The memory afterwards, the packet, and the mbufs that have been freed. -/
def rtePktmbufLinearize (mem : Nat → UInt8) (m : Pktmbuf M) :
    Option ((Nat → UInt8) × Pktmbuf M × List M) :=
  if m.nbSegs = 1 then some (mem, m, [])
  else
    let copyLen := (m.pktLen + 2 ^ 32 - m.head.dataLen) % 2 ^ 32
    if copyLen > rtePktmbufTailroom b m.head then none
    else
      let r := linearizeLoop b mem (rtePktmbufMtodOffset b m.head m.head.dataLen) m.rest
      some (r.1,
        { m with head := { m.head with dataLen := m.pktLen % 2 ^ 16 }, rest := [], nbSegs := 1 },
        r.2)

/-- The loop of `rte_mbuf_check` over the segments and what it looks at afterwards, with its
reason where it finds one. -/
def checkLoop (nbSegs pktLen : Nat) : List (Segment M) → Option String
  | [] =>
    if nbSegs ≠ 0 then some "bad nb_segs"
    else if pktLen ≠ 0 then some "bad pkt_len"
    else none
  | s :: rest =>
    if s.dataOff > b.bufLen s.mbuf then some "data offset too big in mbuf segment"
    else if s.dataOff + s.dataLen > b.bufLen s.mbuf then
      some "data length too big in mbuf segment"
    else checkLoop ((nbSegs + 2 ^ 32 - 1) % 2 ^ 32) ((pktLen + 2 ^ 32 - s.dataLen) % 2 ^ 32) rest

/-- What `rte_mbuf_check` finds of the lengths in a header. -/
def rteMbufCheck (m : Pktmbuf M) : Option String :=
  if m.head.dataLen > m.pktLen then some "bad data_len"
  else checkLoop b m.nbSegs m.pktLen m.segs

end

/-! ## An application with packets -/

/-- The application knows its packets by handles. -/
structure State (P : Type v) (M : Type u) where
  mem : Nat → UInt8
  pool : Multiset M
  pkts : P → Option (Pktmbuf M)

/-- What the application asks for; lengths are those of a `uint16_t`. -/
inductive Op (P : Type v) (M : Type u) where
  | alloc (p : P) (m : M)
  | prepend (p : P) (data : List UInt8) (small : data.length < 2 ^ 16)
  | append (p : P) (data : List UInt8) (small : data.length < 2 ^ 16)
  | adj (p : P) (len : Nat) (small : len < 2 ^ 16)
  | trim (p : P) (len : Nat) (small : len < 2 ^ 16)
  | chain (p q : P) (other : p ≠ q)
  | linearize (p : P)
  | free (p : P)

section
variable [DecidableEq P] [DecidableEq M] (b : Buffers M)

def State.set (s : State P M) (p : P) (m : Option (Pktmbuf M)) : State P M :=
  { s with pkts := Function.update s.pkts p m }

/-- A call with what the application then writes through the pointer, or none where the call is
refused. The mempool may give any of its mbufs. -/
def exec (s : State P M) : Op P M → Option (State P M)
  | .alloc p m =>
    if s.pkts p = none ∧ m ∈ s.pool then
      some ({ s with pool := s.pool.erase m }.set p (some (rtePktmbufReset b m)))
    else none
  | .prepend p data _ =>
    (s.pkts p).bind fun m => (rtePktmbufPrepend b m data.length).map fun r =>
      { s with mem := write s.mem r.1 data }.set p (some r.2)
  | .append p data _ =>
    (s.pkts p).bind fun m => (rtePktmbufAppend b m data.length).map fun r =>
      { s with mem := write s.mem r.1 data }.set p (some r.2)
  | .adj p len _ =>
    (s.pkts p).bind fun m => (rtePktmbufAdj m len).map fun m => s.set p (some m)
  | .trim p len _ =>
    (s.pkts p).bind fun m => (rtePktmbufTrim m len).map fun m => s.set p (some m)
  | .chain p q _ =>
    (s.pkts p).bind fun m => (s.pkts q).bind fun n => (rtePktmbufChain m n).map fun m =>
      (s.set q none).set p (some m)
  | .linearize p =>
    (s.pkts p).bind fun m => (rtePktmbufLinearize b s.mem m).map fun r =>
      { s with mem := r.1, pool := s.pool + (r.2.2 : Multiset M) }.set p (some r.2.1)
  | .free p =>
    (s.pkts p).map fun m => { s with pool := s.pool + (rtePktmbufFree m : Multiset M) }.set p none

/-- The mempool has all mbufs. -/
def State.populated (P : Type v) (mem : Nat → UInt8) (mbufs : Multiset M) : State P M where
  mem := mem
  pool := mbufs
  pkts _ := none

/-! ## Packets as byte strings -/

/-- The bytes of a packet. -/
def Pktmbuf.data (mem : Nat → UInt8) (m : Pktmbuf M) : List UInt8 :=
  m.segs.flatMap (Segment.data b mem)

/-- The packets of the application as byte strings. -/
def State.view (s : State P M) (p : P) : Option (List UInt8) :=
  (s.pkts p).map (Pktmbuf.data b s.mem)

/-- What an operation does to byte strings. -/
def Op.spec (v : P → Option (List UInt8)) : Op P M → P → Option (List UInt8)
  | .alloc p _ => Function.update v p (some [])
  | .prepend p data _ => Function.update v p ((v p).map (data ++ ·))
  | .append p data _ => Function.update v p ((v p).map (· ++ data))
  | .adj p len _ => Function.update v p ((v p).map (·.drop len))
  | .trim p len _ => Function.update v p ((v p).map fun data => data.take (data.length - len))
  | .chain p q _ =>
    Function.update (Function.update v q none) p ((v p).bind fun x => (v q).map (x ++ ·))
  | .linearize _ => v
  | .free p => Function.update v p none

end

end PacketChains
