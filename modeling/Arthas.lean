import Arthas.Lib.Journal
import Arthas.Lib.ByteImage
import Arthas.Lib.ChainTable
import Arthas.Lib.ChainMap
import Arthas.Lib.HalvingSearch
import Arthas.Lib.Multimap
import Arthas.Lib.Mutex
import Arthas.Lib.Batching
import Arthas.Lib.StackWalk
import Arthas.Lib.PathQueue
import Arthas.Lib.Worklist
import Arthas.Lib.Dataflow
import Arthas.Lib.SetVector
import Arthas.Lib.EqualRange
import Arthas.Dg.RDMap
import Arthas.Dg.ReachingDefinitions
import Arthas.Dg.ReachingRuns
import Arthas.Lib.Stamps
import Arthas.Lib.LevelSearch
import Arthas.Lib.SortOrder
import Arthas.Lib.Retry
import Arthas.Lib.PartialLoops
import Arthas.Lib.Separated
import Arthas.Lib.Numeral
import Arthas.Lib.OrdMap
import Arthas.Lib.Insertion
import Arthas.Lib.Framing
import Arthas.Lib.Relocation
import Arthas.Utils.String
import Arthas.Utils.Path
import Arthas.Utils.PathNormal
import Arthas.Utils.PathSuffix
import Arthas.Detector.Detector
import Arthas.Matcher.Bitcode
import Arthas.Matcher.Matcher
import Arthas.Matcher.RegisterMask
import Arthas.Matcher.FirstMatch
import Arthas.Matcher.Criteria
import Arthas.Instrument.GuidMap
import Arthas.Instrument.AddrTrace
import Arthas.Instrument.PoolOffsets
import Arthas.Instrument.TraceLoading
import Arthas.Instrument.Instrumenter
import Arthas.Instrument.Bookkeeping
import Arthas.Instrument.InstrumentRuns
import Arthas.Instrument.Resolving
import Arthas.Instrument.RoundTrip
import Arthas.Instrument.GrowingTrace
import Arthas.Reactor.Checkpoint
import Arthas.Reactor.SequenceLog
import Arthas.Reactor.Machine
import Arthas.Reactor.Rollback
import Arthas.Reactor.PassEffect
import Arthas.Reactor.UndoExact
import Arthas.Reactor.Addresses
import Arthas.Reactor.RevertSet
import Arthas.Reactor.BinaryReversion
import Arthas.Reactor.Attempt
import Arthas.Reactor.BinarySearch
import Arthas.Reactor.React
import Arthas.Reactor.Retrying
import Arthas.Reactor.SliceLoop
import Arthas.Reactor.Verdict
import Arthas.Reactor.PoolSafety
import Arthas.Reactor.PoolRuns
import Arthas.Reactor.PastPools
import Arthas.Reactor.OrderedLogs
import Arthas.Reactor.HashCodes
import Arthas.Reactor.SequenceMap
import Arthas.Reactor.AddressSorting
import Arthas.Reactor.TransactionReversion
import Arthas.Reactor.Reopen
import Arthas.Reactor.Monitor
import Arthas.Reactor.Tailing
import Arthas.Reactor.TraceServer
import Arthas.Reactor.TraceReady
import Arthas.Reactor.TraceRetry
import Arthas.Reactor.DependencyCalls
import Arthas.Reactor.DependencyOutcome
import Arthas.Reactor.Modes
import Arthas.DefUse.UserGraph
import Arthas.PMem.Extractor
import Arthas.Slicing.SliceCriteria
import Arthas.Slicing.SliceGraph
import Arthas.Slicing.Comparators
import Arthas.Slicing.EdgeLine
import Arthas.Slicing.EdgeOrder
import Arthas.Slicing.SlicingWalk
import Arthas.Slicing.SlicePaths
import Arthas.Slicing.GrowingGraph
import Arthas.Slicing.GraphMemory
import Arthas.Slicing.GraphEdits
import Arthas.Slicing.DependenceGraph
import Arthas.Slicing.DgWalk
import Arthas.Slicing.Dependences
import Arthas.Slicing.NodesWalks
import Arthas.Slicing.Storing
import Arthas.Slicing.Approaches
import Arthas.Slicing.SlicerRuns
import Arthas.Slicing.SlicePipeline
import Arthas.Reactor.FaultSlices
import Arthas.Reactor.Service
import Arthas.Reactor.ServiceRuns
import Arthas.Slicing.SeparateDependence
import Arthas.Dg.LastWriters
import Arthas.Dg.DefUseEdges
import Arthas.Dg.DynamicSlices
import Arthas.Reactor.FaultFlows
import Arthas.Reactor.ProgramFlows
