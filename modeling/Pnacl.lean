import Pnacl.RecordCodec
import Pnacl.Memory
import Pnacl.AllocatorBlocks
import Pnacl.Longjmp
import Pnacl.WellFormed
import Pnacl.PhiEdges
import Pnacl.PageMap
import Pnacl.Futex
import Pnacl.Calls
import Pnacl.HeapStack
import Pnacl.IntegerSemantics
import Pnacl.Decode
import Pnacl.Atomics
import Pnacl.FloatCompare
import Pnacl.Switch
import Pnacl.Filesystem
import Pnacl.SlotMap
import Pnacl.RecordFraming
import Pnacl.GlobalvarLayout
import Pnacl.LivenessCovers
import Pnacl.VbrChunks
import Pnacl.ReaderAgreement
import Pnacl.BlobFields
import Pnacl.Peek
import Pnacl.AbbrevRead
import Pnacl.PhiDedupe
import Pnacl.OperandOrder
import Pnacl.LayoutAgrees
import Pnacl.FrameValues
import Pnacl.BodyTypes
import Pnacl.StreamTypes
import Pnacl.TruthValues
import Pnacl.HostCalls
import Pnacl.Environ
import Pnacl.FirstFit
import Pnacl.PpapiStack
import Pnacl.AbbrevStorage
import Pnacl.Startinfo
import Pnacl.Loops
import Pnacl.SignRotated
import Pnacl.PredBbs
import Pnacl.ValueSearch
import Pnacl.LoopMoments
import Pnacl.PortableBits
import Pnacl.EndlessFile
import Pnacl.Termination
import Pnacl.RepeatLoad
import Pnacl.BodyPreserved
import Pnacl.ProgramPreserved
import Pnacl.ModuleCodec
import Pnacl.SymtabCodec
import Pnacl.GlobalvarCodec
import Pnacl.SchedulerTurns
import Pnacl.SchedulerDeadlock
