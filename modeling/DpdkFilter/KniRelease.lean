import DpdkFilter.KernelToNic
import DpdkFilter.KniLibrary

/-!
# Releasing an interface

The kernel first moves what it can of rx_q and alloc_q to free_q, for only it can translate
the addresses on rx_q; then the library empties alloc_q, tx_q and free_q. What stays on
rx_q is lost: nobody takes packets off it any more, so the library waits for nothing. The
kernel does its part with memory it has already freed, which is taken to be intact.
-/

namespace KniRelease

open CString Kni KniFifo KniLibrary KernelToNic KniWorld LcoreMain LcoreRuns Mbuf

/-- The packets for which the kernel finds no room on free_q. -/
def lost (kni : RteKni) : List RteMbuf := kni.rxQ.standing.drop (kniFifoFreeCount kni.freeQ)

def buffer (addr : Nat) : RteMbuf := RteMbuf.ofFrame addr [] fun _ => 0

/-- An interface with FIFOs of four words, and these packets on rx_q and free_q. -/
def smallInterface (rx free : List RteMbuf) : RteKni :=
  let kni := kniCreated ⟨0, none, none, none, none, none⟩ 2176 4096 ⟨0, [], false, 0⟩
    (fun _ => buffer 0) fun _ => 0
  { kni with
    rxQ := (kniFifoPut (kniFifoInit 4 ⟨2, by decide⟩ fun _ => buffer 0) rx).1
    freeQ := (kniFifoPut (kniFifoInit 4 ⟨2, by decide⟩ fun _ => buffer 0) free).1 }

/-- Three packets on rx_q with room for one of them on free_q, and one on tx_q; two buffers in the
pool and one on the ring of the port. -/
def busy : State where
  clock := 0
  kni :=
    { smallInterface [buffer 1, buffer 2, buffer 3] [buffer 4, buffer 5] with
      txQ := (kniFifoPut (kniFifoInit 4 ⟨2, by decide⟩ fun _ => buffer 0) [buffer 6]).1 }
  pool := [buffer 7, buffer 8]
  rxRing := [buffer 9]
  txRing := []
  queued := []

end KniRelease
