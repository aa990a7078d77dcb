import HeroDB.Lib.Transition
import HeroDB.Lib.Relocation
import HeroDB.Lib.Loops
import HeroDB.Lib.LinearProbing
import HeroDB.Lib.WorkItems
import HeroDB.Lib.AtomicAdds
import HeroDB.Lib.HeapChains
import HeroDB.Lib.LittleEndian
import HeroDB.Lib.MapIterators
import HeroDB.Lib.Dataflow
import HeroDB.Lib.Decimals
import HeroDB.Lib.Calendar
import HeroDB.DataInterface
import HeroDB.ColumnAccess
import HeroDB.NumberCasts
import HeroDB.DateCasts
import HeroDB.TimestampCasts
import HeroDB.TableText
import HeroDB.TableImport
import HeroDB.DatabaseImport
import HeroDB.LinkList
import HeroDB.HashArray
import HeroDB.TransferOutcomes
import HeroDB.Requests
import HeroDB.Environment
import HeroDB.DeviceLookup
import HeroDB.ClearData
import HeroDB.QueryGraph
import HeroDB.GraphSteps
import HeroDB.PrimitiveNodes
import HeroDB.PrintedResults
import HeroDB.HashJoinPlan
import HeroDB.ScanResolution
import HeroDB.StoreSteps
import HeroDB.Wiring
import HeroDB.StoreCoherence
import HeroDB.Placement
import HeroDB.LaunchedOperations
import HeroDB.HashKernels
import HeroDB.JoinGeometry
import HeroDB.HashBuild
import HeroDB.HashSlices
import HeroDB.HashBuildSteps
import HeroDB.HashProbe
import HeroDB.HashJoin
import HeroDB.BlockKernels
import HeroDB.CppEnvironment
import HeroDB.CppPrimitives
import HeroDB.Aggregation
import HeroDB.PrimitiveRanges
import HeroDB.LaunchSizes
import HeroDB.Dataflow
import HeroDB.KernelRuns
import HeroDB.LaunchRanges
import HeroDB.FilterPipeline
import HeroDB.BlockNodes
import HeroDB.Bitmaps
import HeroDB.PrefixSum
import HeroDB.TaskExecution
import HeroDB.KernelDirectory
import HeroDB.GroupIds
import HeroDB.GroupSums
import HeroDB.QueryPlans
import HeroDB.Query6
import HeroDB.Query6Cpp
import HeroDB.ImportedQuery6
import HeroDB.GroupResults
import HeroDB.Exchange
import HeroDB.SharedQueue
import HeroDB.Handshake
import HeroDB.ExchangeRuns
import HeroDB.Dependency
import HeroDB.ExactlyOnce
import HeroDB.Progress
import HeroDB.Handoff
import HeroDB.ExchangeTurns
import HeroDB.ExchangeMachine
import HeroDB.ExchangeDataflow
import HeroDB.OneDevice
import HeroDB.MorselPlan
import HeroDB.BufferNames
import HeroDB.PrintedRows
import HeroDB.MorselThreads
import HeroDB.Lib.FrontAndRear
import HeroDB.WorkSharing
import HeroDB.SharedTransfer
import HeroDB.SharedProcessing
import HeroDB.SharedHelper
import HeroDB.WorkSharingRuns
import HeroDB.MorselEffects
import HeroDB.MorselConsumers
import HeroDB.MorselProgress
import HeroDB.MorselFronts
import HeroDB.MorselRears
import HeroDB.MorselReads
import HeroDB.BfsFlatten
import HeroDB.PipelineOrder
import HeroDB.MorselBuffers
import HeroDB.MorselNames
import HeroDB.MorselArguments
import HeroDB.MorselLaunches
