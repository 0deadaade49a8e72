import Sparcy.Core
import Sparcy.ExecuteStall
import Sparcy.Library.Runs
import Sparcy.ExecuteReady
import Sparcy.ExecuteAnnul
import Sparcy.PipelineSpacing
import Sparcy.InFlight
import Sparcy.WindowHazard
import Sparcy.ReleaseHazards
import Sparcy.YHazard
import Sparcy.AnnulledEffects
import Sparcy.FetchSequence
import Sparcy.CacheLines
import Sparcy.BusTraffic
import Sparcy.DataCacheBus
import Sparcy.DataCoherence
import Sparcy.DataAccess
import Sparcy.FetchCache
import Sparcy.PhantomLines
import Sparcy.NestedCalls
import Sparcy.MemProtocol
import Sparcy.BackEnd
import Sparcy.LineMemory
import Sparcy.DataAliasing
import Sparcy.BusOrder
import Sparcy.CacheReads
import Sparcy.FetchLines
import Sparcy.FetchPath
import Sparcy.BenchLines
import Sparcy.LastWrite
import Sparcy.SyscallMemory
import Sparcy.Sequential
import Sparcy.PipelineRefinement
import Sparcy.ConditionCodes
import Sparcy.AluResults
import Sparcy.Library.Limbs
import Sparcy.Library.ShiftAdd
import Sparcy.MultiplySteps
import Sparcy.Division
import Sparcy.LineBytes
import Sparcy.AtomicOps
import Sparcy.MultiWord
import Sparcy.TaggedTraps
import Sparcy.ConditionalTraps
import Sparcy.TrapOperands
import Sparcy.GuestMemory
import Sparcy.GuestAllocations
import Sparcy.LoadElf
import Sparcy.InitStack
import Sparcy.BurstRoundTrip
import Sparcy.YResults
import Sparcy.Library.Potential
import Sparcy.LostReads
import Sparcy.MemoryLatency
import Sparcy.CodeLines
import Sparcy.RegisterPrograms
import Sparcy.BranchingPrograms
import Sparcy.Library.Residents
import Sparcy.SyscallAccesses
import Sparcy.TransferSequence
