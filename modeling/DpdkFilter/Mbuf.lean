import DpdkFilter.ByteOrder

/-!
# Packet buffers and the headers read through them

An mbuf is known by its address. `data i` is the byte at `buf_addr + data_off + i`,
so it also covers what stands in the buffer after the packet and the memory after
the buffer; only the first `dataLen` of these bytes are the packet.
-/

namespace Mbuf

open ByteOrder

structure RteMbuf where
  addr : Nat
  dataLen : UInt16
  pktLen : UInt32
  data : Nat → UInt8

/-- A frame in one segment, with what stands in memory after it. -/
def RteMbuf.ofFrame (addr : Nat) (f : List UInt8) (after : Nat → UInt8) : RteMbuf where
  addr := addr
  dataLen := UInt16.ofNat f.length
  pktLen := UInt32.ofNat f.length
  data i := if i < f.length then f.getD i 0 else after i

def load16 (m : RteMbuf) (o : Nat) : UInt16 :=
  le16 (m.data o) (m.data (o + 1))

def load32 (m : RteMbuf) (o : Nat) : UInt32 :=
  le32 (m.data o) (m.data (o + 1)) (m.data (o + 2)) (m.data (o + 3))

/-- The `n` bytes that start `o` bytes into the data. -/
def bytes (m : RteMbuf) (o n : Nat) : List UInt8 :=
  (List.range n).map fun i => m.data (o + i)

/-- The received packet: the first `dataLen` bytes. -/
def frame (m : RteMbuf) : List UInt8 :=
  bytes m 0 m.dataLen.toNat

/-- A packet held in one segment: the total length is that of the segment. -/
def SingleSegment (m : RteMbuf) : Prop :=
  m.pktLen.toNat = m.dataLen.toNat

instance (m : RteMbuf) : Decidable (SingleSegment m) := inferInstanceAs (Decidable (_ = _))

def rteEtherHdrSize : Nat := 14

def rteEtherTypeIpv4 : UInt16 := 0x0800

def ipprotoTcp : UInt8 := 6

def ipprotoUdp : UInt8 := 17

/-- `rte_cpu_to_be_16`, `rte_be_to_cpu_16`, `htons` and `ntohs` on a little-endian host. -/
def rteCpuToBe16 (w : UInt16) : UInt16 := bswap16 w

def rteBeToCpu16 (w : UInt16) : UInt16 := bswap16 w

def etherType (m : RteMbuf) : UInt16 := load16 m 12

def versionIhl (m : RteMbuf) : UInt8 := m.data rteEtherHdrSize

def totalLength (m : RteMbuf) : UInt16 := load16 m (rteEtherHdrSize + 2)

def nextProtoId (m : RteMbuf) : UInt8 := m.data (rteEtherHdrSize + 9)

def srcAddr (m : RteMbuf) : UInt32 := load32 m (rteEtherHdrSize + 12)

def dstAddr (m : RteMbuf) : UInt32 := load32 m (rteEtherHdrSize + 16)

/-- Where the source looks for the transport header. -/
def l4Offset (m : RteMbuf) : Nat :=
  rteEtherHdrSize + (versionIhl m &&& 0x0F).toNat * 4

/-- The first two words of a transport header, source port first. -/
def hdrPorts (m : RteMbuf) (o : Nat) : UInt16 × UInt16 :=
  (load16 m o, load16 m (o + 2))

def tcpPorts (m : RteMbuf) : UInt16 × UInt16 := hdrPorts m (l4Offset m)

def udpPorts (m : RteMbuf) : UInt16 × UInt16 := hdrPorts m (l4Offset m)

@[simp] theorem bytes_length (m : RteMbuf) (o n : Nat) : (bytes m o n).length = n := by
  simp [bytes]

theorem bytes_getElem? (m : RteMbuf) (o n i : Nat) (h : i < n) :
    (bytes m o n)[i]? = some (m.data (o + i)) := by
  simp [bytes, h]

@[simp] theorem frame_length (m : RteMbuf) : (frame m).length = m.dataLen.toNat := by
  simp [frame]

theorem frame_getElem? (m : RteMbuf) {i : Nat} (h : i < m.dataLen.toNat) :
    (frame m)[i]? = some (m.data i) := by
  simpa [frame] using bytes_getElem? m 0 m.dataLen.toNat i h

/-- A byte string read inside the packet is a slice of the frame. -/
theorem bytes_eq_slice (m : RteMbuf) {o n : Nat} (h : o + n ≤ m.dataLen.toNat) :
    bytes m o n = ((frame m).drop o).take n := by
  apply List.ext_getElem?
  intro i
  by_cases hi : i < n
  · rw [bytes_getElem? m o n i hi, List.getElem?_take_of_lt hi, List.getElem?_drop,
      frame_getElem? m (by omega)]
  · have hlen : (((frame m).drop o).take n).length = n := by
      simp only [List.length_take, List.length_drop, frame_length]
      omega
    rw [List.getElem?_eq_none (by simp; omega), List.getElem?_eq_none (by omega)]

theorem frame_ofFrame (addr : Nat) (f : List UInt8) (after : Nat → UInt8)
    (hf : f.length < 65536) : frame (RteMbuf.ofFrame addr f after) = f := by
  have len : (RteMbuf.ofFrame addr f after).dataLen.toNat = f.length := by
    simp only [RteMbuf.ofFrame, UInt16.toNat_ofNat']
    omega
  apply List.ext_getElem?
  intro i
  by_cases hi : i < f.length
  · rw [frame_getElem? _ (len ▸ hi)]
    simp [RteMbuf.ofFrame, hi]
  · rw [List.getElem?_eq_none (by rw [frame_length]; omega), List.getElem?_eq_none (by omega)]

theorem ofFrame_singleSegment (addr : Nat) (f : List UInt8) (after : Nat → UInt8)
    (hf : f.length < 65536) : SingleSegment (RteMbuf.ofFrame addr f after) := by
  simp only [SingleSegment, RteMbuf.ofFrame, UInt16.toNat_ofNat', UInt32.toNat_ofNat']
  omega

theorem l4Offset_le (m : RteMbuf) : l4Offset m ≤ 74 := by
  have h : (versionIhl m &&& 0x0F).toNat ≤ 15 := by
    rw [UInt8.toNat_and]
    exact Nat.and_le_right
  simp only [l4Offset, rteEtherHdrSize]
  omega

end Mbuf
