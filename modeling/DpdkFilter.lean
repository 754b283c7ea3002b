import DpdkFilter.ByteOrder
import DpdkFilter.RingBuffer
import DpdkFilter.Interleaving
import DpdkFilter.SpscRing
import DpdkFilter.OwnershipTrace
import DpdkFilter.CString
import DpdkFilter.Mbuf
import DpdkFilter.FilterRules
import DpdkFilter.LcoreMain
import DpdkFilter.LcoreRuns
import DpdkFilter.ForwardInterface
import DpdkFilter.FilterSpec
import DpdkFilter.BufferOwnership
import DpdkFilter.GenuineForward
import DpdkFilter.Noninterference
import DpdkFilter.KniFifo
import DpdkFilter.KniSharing
import DpdkFilter.Statistics
import DpdkFilter.Teardown
import DpdkFilter.Kni
import DpdkFilter.KniWorld
import DpdkFilter.KernelToNic
import DpdkFilter.KniLibrary
import DpdkFilter.KniRequested
import DpdkFilter.KniRequests
import DpdkFilter.ArgumentsKept
import DpdkFilter.KniBufferRoom
import DpdkFilter.NextMember
import DpdkFilter.PortCheck
import DpdkFilter.BulkQueue
import DpdkFilter.KniControl
import DpdkFilter.KniRelease
import DpdkFilter.KniSegments
import DpdkFilter.Mempool
import DpdkFilter.RingCalls
import DpdkFilter.RingQueue
import DpdkFilter.KniDevices
import DpdkFilter.MbufHolders
import DpdkFilter.MbufLifetimes
import DpdkFilter.MempoolLayout
import DpdkFilter.MempoolPlacement
import DpdkFilter.ByteMemory
import DpdkFilter.PacketChains
import DpdkFilter.PacketOperations
import DpdkFilter.PacketReads
import DpdkFilter.PacketCopies
import DpdkFilter.PktmbufPool
