import CompSys.Transition
import CompSys.Locking
import CompSys.CheckThenAct
import CompSys.Ring
import CompSys.BitField
import CompSys.ByteMemory
import CompSys.IntrusiveList
import CompSys.SmallestFirst
import CompSys.BigEndian
import CompSys.CString
import CompSys.PythonText
import CompSys.PosixPath
import CompSys.Share
import CompSys.Slots
import CompSys.Cutting
import CompSys.BlockAbsorb
import CompSys.Sha2
import CompSys.UniqueKeys
import CompSys.Probing
import CompSys.Bisection
import CompSys.HalvedTree
import CompSys.RiscV
import CompSys.RiscVMachine
import CompSys.Scanf
import CompSys.FileType
import CompSys.IdQuery
import CompSys.PlaceRecord
import CompSys.KdTree
import CompSys.KdTreeArray
import CompSys.KdTreeOrder
import CompSys.JobQueue
import CompSys.JobQueueFifo
import CompSys.JobQueueWakeups
import CompSys.JobQueueDestroyed
import CompSys.Workers
import CompSys.WorkersOnce
import CompSys.WorkersTeardown
import CompSys.WorkersEnd
import CompSys.Histogram
import CompSys.WorkersHistogram
import CompSys.HistogramSteps
import CompSys.WorkersConserved
import CompSys.WorkersPrint
import CompSys.Fauxgrep
import CompSys.PeerWire
import CompSys.PeerReply
import CompSys.PeerChecksum
import CompSys.PeerSegments
import CompSys.PeerNetwork
import CompSys.PeerRegister
import CompSys.PeerHandle
import CompSys.PeerThreads
import CompSys.PeerInform
import CompSys.PeerFile
import CompSys.PeerContainment
import CompSys.PeerDownload
import CompSys.PeerAtomic
import CompSys.PeerSystem
import CompSys.PeerAgreement
import CompSys.PeerExpiry
import CompSys.PeerRetrieving
import CompSys.PeerClient
import CompSys.PeerBlocks
import CompSys.BufferedReader
import CompSys.Transport
import CompSys.PeerStored
import CompSys.PeerVerified
import CompSys.PeerRequest
import CompSys.PeerMixed
import CompSys.Fibs
import CompSys.PlaceTable
import CompSys.PeerTable
import CompSys.CourseServer
import CompSys.CourseReply
import CompSys.CourseRegister
import CompSys.CourseClient
import CompSys.CourseTable
import CompSys.Sha256
import CompSys.Sha256Digest
import CompSys.CourseSystem
import CompSys.SimMemory
import CompSys.SimMemoryBytes
import CompSys.Simulate
import CompSys.SimulateOutcome
import CompSys.SimulateZero
import CompSys.SimulateDecode
import CompSys.SimulateControl
import CompSys.SimulateArith
import CompSys.SimulateMemory
import CompSys.SimulateFrame
import CompSys.SimulateProcessor
import CompSys.PassArgs
import CompSys.ReadExec
import CompSys.ReadExecDump
import CompSys.AssemblyTable
import CompSys.AssemblyIndex
import CompSys.AssemblyRefinement
import CompSys.AssemblySafety
import CompSys.Heap
import CompSys.HeapSound
import CompSys.HeapClient
import CompSys.HeapReuse
import CompSys.Heap32
import CompSys.HeapRequest
import CompSys.HeapCopies
import CompSys.Radix
import CompSys.RadixTree
import CompSys.RadixHeap
import CompSys.RadixAdd
import CompSys.RadixTake
import CompSys.RadixOwnership
import CompSys.RadixShape
import CompSys.RadixSorted
import CompSys.RadixLimit
import CompSys.RadixMain
import CompSys.RadixInvariant
import CompSys.RadixBuffer
import CompSys.RadixFull
import CompSys.RadixOutput
import CompSys.TinyRadix
import CompSys.TinyRadixHeap
import CompSys.RadixAgreement
import CompSys.TinyDecimal
import CompSys.TinyPrograms
