import Demeter.Lib.Dict
import Demeter.Lib.Runs
import Demeter.Lib.Slots
import Demeter.Lib.Partition
import Demeter.Lib.Split
import Demeter.Lib.Waiting
import Demeter.Lib.TwoLevel
import Demeter.Lib.Batches
import Demeter.Lib.Collect
import Demeter.Lib.Barrier
import Demeter.Lib.Mirror
import Demeter.Lib.Double
import Demeter.Lib.FloatOrder
import Demeter.Lib.FloatText
import Demeter.Lib.Chains
import Demeter.Lib.Best
import Demeter.Lib.Stride
import Demeter.Lib.PriorityQueue
import Demeter.Common.Trigger
import Demeter.Common.TriggerObject
import Demeter.Marl.Models
import Demeter.Marl.Optimizer
import Demeter.Marl.Expansion
import Demeter.Marl.Volumes
import Demeter.Marl.TopologicalBatches
import Demeter.Marl.Cost
import Demeter.Marl.Policy
import Demeter.Marl.LivePolicy
import Demeter.Marl.HeuristicPlan
import Demeter.Marl.FreeCapacity
import Demeter.Marl.Constraints
import Demeter.Marl.Controller
import Demeter.Marl.Simulator
import Demeter.Marl.Precedence
import Demeter.Marl.Arrival
import Demeter.Marl.Progress
import Demeter.Marl.Raising
import Demeter.Marl.Slots
import Demeter.Marl.Lifecycle
import Demeter.Marl.Accounting
import Demeter.Marl.Waves
import Demeter.Marl.FunctionIds
import Demeter.Marl.Driver
import Demeter.Coordinator.Messages
import Demeter.Coordinator.DemeterScheduler
import Demeter.Coordinator.ChooseAllocation
import Demeter.Coordinator.FuncCallHandler
import Demeter.Coordinator.Routing
import Demeter.Coordinator.SplitBatch
import Demeter.Coordinator.Capacity
import Demeter.Coordinator.Levelling
import Demeter.Scheduler.Messages
import Demeter.Scheduler.DataFrames
import Demeter.Scheduler.CallTable
import Demeter.Scheduler.Inflight
import Demeter.Scheduler.Dispatch
import Demeter.Executor.CallMessage
import Demeter.Executor.Objects
import Demeter.Executor.Server
import Demeter.Executor.Protocol
import Demeter.Executor.Isolation
import Demeter.Scheduler.Forward
import Demeter.Scheduler.Stores
import Demeter.Client.CallApp
import Demeter.Coordinator.Triggers
import Demeter.Coordinator.TriggerTables
import Demeter.Coordinator.Notify
import Demeter.Coordinator.ByBatchSize
import Demeter.Coordinator.BySet
import Demeter.Coordinator.TriggerCalls
import Demeter.Coordinator.CallArguments
import Demeter.Coordinator.DynamicGroup
import Demeter.Coordinator.Streams
import Demeter.MapReduce.Templates
import Demeter.MapReduce.Job
import Demeter.Client.AddTrigger
import Demeter.Client.Timestamp
import Demeter.Scheduler.Node
import Demeter.Scheduler.KeyArguments
import Demeter.Scheduler.Selection
import Demeter.Scheduler.DelayQueue
import Demeter.Scheduler.Hints
import Demeter.Scheduler.ForwardedKeys
import Demeter.Scheduler.IoThreads
import Demeter.Scheduler.KvsClient
import Demeter.Scheduler.KvsSteps
import Demeter.Scheduler.KvsRuns
import Demeter.Scheduler.RerunCheck
import Demeter.Scheduler.Conservation
import Demeter.Scheduler.HeldFunctions
import Demeter.Cluster.Calls
