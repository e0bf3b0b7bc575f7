import VliwKernel.Lib.Dict
import VliwKernel.Lib.Journal
import VliwKernel.Lib.Outcome
import VliwKernel.Problem.Machine
import VliwKernel.Ir
import VliwKernel.Regalloc.Allocator
import VliwKernel.Regalloc.Invariant
import VliwKernel.Regalloc.Operations
import VliwKernel.Regalloc.Runs
import VliwKernel.Regalloc.WordOrder
import VliwKernel.Regalloc.Rollback
import VliwKernel.Scheduler.Dag
import VliwKernel.Scheduler.Frontier
import VliwKernel.Regalloc.Ssa
import VliwKernel.Regalloc.Tagged
import VliwKernel.Regalloc.BuildDag
import VliwKernel.Scheduler.Pool
import VliwKernel.Scheduler.DryRun
import VliwKernel.Scheduler.Picker
import VliwKernel.Scheduler.PoolInvariant
import VliwKernel.Scheduler.Placing
import VliwKernel.Schedule.Cycle
import VliwKernel.Schedule.Registers
import VliwKernel.Schedule.Node
import VliwKernel.Schedule.Steps
import VliwKernel.Schedule.Rollout
import VliwKernel.Schedule.Greedy
import VliwKernel.Schedule.Trial
import VliwKernel.Schedule.Agreement
import VliwKernel.Schedule.GreedyRun
import VliwKernel.Schedule.Emission
import VliwKernel.Schedule.GreedyRollout
import VliwKernel.Schedule.Lifetime
import VliwKernel.Schedule.Runs
import VliwKernel.Problem.Footprint
import VliwKernel.Schedule.Latency
import VliwKernel.Schedule.Legal
import VliwKernel.Semantics.InOrder
import VliwKernel.Semantics.Renaming
import VliwKernel.Problem.Run
import VliwKernel.Semantics.Values
import VliwKernel.Semantics.Slots
import VliwKernel.Semantics.Bundles
import VliwKernel.Semantics.Simulation
import VliwKernel.Semantics.Preservation
import VliwKernel.Regalloc.DataFlow
import VliwKernel.Semantics.Orders
import VliwKernel.Scheduler.Protocol
import VliwKernel.Schedule.Awake
import VliwKernel.Schedule.Decisions
import VliwKernel.Lib.Worklist
import VliwKernel.Scheduler.Prune
import VliwKernel.Semantics.Pruning
import VliwKernel.Schedule.Progress
import VliwKernel.Schedule.Workload
import VliwKernel.Schedule.Termination
import VliwKernel.Schedule.Waiting
import VliwKernel.Schedule.Cap
import VliwKernel.Schedule.Deadlock
import VliwKernel.Schedule.Balance
import VliwKernel.Scheduler.Rollback
import VliwKernel.Lib.Wp
import VliwKernel.Lib.PartialMap
import VliwKernel.Semantics.Lanes
import VliwKernel.Kernel.Reference
import VliwKernel.Kernel.Symbols
import VliwKernel.Kernel.Builder
import VliwKernel.Kernel.Hash
import VliwKernel.Regalloc.Barrier
import VliwKernel.Schedule.Turns
import VliwKernel.Schedule.Account
import VliwKernel.Schedule.Freeing
import VliwKernel.Schedule.Holding
import VliwKernel.Schedule.Traceable
import VliwKernel.Semantics.Spilling
import VliwKernel.Kernel.Constants
import VliwKernel.Kernel.Descent
import VliwKernel.Kernel.Execution
import VliwKernel.Kernel.Prologue
import VliwKernel.Kernel.Rounds
import VliwKernel.Kernel.Correct
import VliwKernel.Semantics.Flow
import VliwKernel.Kernel.Flow
import VliwKernel.Kernel.Accesses
import VliwKernel.Lib.Paths
import VliwKernel.Scheduler.Props
import VliwKernel.Kernel.ListReference
import VliwKernel.Problem.Control
import VliwKernel.Kernel.Pauses
import VliwKernel.Schedule.Filled
import VliwKernel.Schedule.Bounds
import VliwKernel.Semantics.Trimming
import VliwKernel.Semantics.Opening
import VliwKernel.Semantics.Checked
import VliwKernel.Kernel.Assembly
import VliwKernel.Kernel.Shapes
import VliwKernel.Kernel.Failures
import VliwKernel.Kernel.Acceptance
import VliwKernel.Problem.Pausing
import VliwKernel.Problem.Words
import VliwKernel.Lib.Reorder
import VliwKernel.Problem.SlotOrder
import VliwKernel.Schedule.Erasure
import VliwKernel.Schedule.Search
import VliwKernel.Schedule.Conserving
import VliwKernel.Regalloc.Capacity
import VliwKernel.Schedule.Fitting
import VliwKernel.Schedule.Competitive
import VliwKernel.Schedule.Rescheduling
import VliwKernel.Semantics.Rebuilding
import VliwKernel.Kernel.Permutation
