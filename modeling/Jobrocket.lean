import Jobrocket.Library.Machine
import Jobrocket.Library.Interleaving
import Jobrocket.Library.Progress
import Jobrocket.Library.Unwinding
import Jobrocket.Library.RingWindow
import Jobrocket.Library.Word
import Jobrocket.Library.Ledger
import Jobrocket.Library.Memory
import Jobrocket.Library.FreeChain
import Jobrocket.Library.Dispenser
import Jobrocket.Library.Stock
import Jobrocket.Library.Roles
import Jobrocket.Library.Keepers
import Jobrocket.Library.BinaryPolynomial
import Jobrocket.Library.PolynomialPeriod
import Jobrocket.Library.SaturatingCount
import Jobrocket.Detail.FixedWorkStealingQueue
import Jobrocket.Detail.QueueIndices
import Jobrocket.Detail.QueueRefinement
import Jobrocket.Detail.QueueExposure
import Jobrocket.Detail.QueueInterleaving
import Jobrocket.Detail.QueueDelivery
import Jobrocket.Detail.QueueDeliveryRuns
import Jobrocket.Detail.QueueLinearization
import Jobrocket.Detail.QueueRace
import Jobrocket.Detail.QueueOverfill
import Jobrocket.Detail.Error
import Jobrocket.Detail.FixedPoolAllocator
import Jobrocket.Detail.AllocatorCalls
import Jobrocket.Detail.AllocatorMisuse
import Jobrocket.Detail.AllocatorLifetimes
import Jobrocket.Detail.Apply
import Jobrocket.JobFunction
import Jobrocket.Job
import Jobrocket.JobPool
import Jobrocket.JobPoolShelves
import Jobrocket.JobPoolCalls
import Jobrocket.JobPoolInvariant
import Jobrocket.JobPoolRuns
import Jobrocket.JobPoolContainment
import Jobrocket.JobPoolHoldings
import Jobrocket.JobPoolIsolation
import Jobrocket.JobPoolReset
import Jobrocket.JobPoolLifetimes
import Jobrocket.FreeListInterleaving
import Jobrocket.FreeListBalance
import Jobrocket.FreeListRaces
import Jobrocket.ThreadIndex
import Jobrocket.Detail.AtomicCounter
import Jobrocket.Detail.CounterInterleaving
import Jobrocket.Detail.RNG
import Jobrocket.Detail.RNGJump
import Jobrocket.Detail.RNGPeriod
import Jobrocket.Worker
import Jobrocket.JobSystemInvariant
import Jobrocket.ExecutionDiscipline
import Jobrocket.Exhaustion
import Jobrocket.GroupBatches
import Jobrocket.WorkerSteps
import Jobrocket.Draining
import Jobrocket.Scheduler
import Jobrocket.SchedulerRegistration
import Jobrocket.WorkerOwnership
import Jobrocket.SchedulerSessions
import Jobrocket.LocalWorker
import Jobrocket.MainLoop
import Jobrocket.Wakeups
import Jobrocket.Shutdown
import Jobrocket.Termination
import Jobrocket.CallStacks
import Jobrocket.ActiveAccount
import Jobrocket.JobStages
import Jobrocket.JobStageInvariant
import Jobrocket.JobStageSteps
import Jobrocket.GroupCompletion
import Jobrocket.JobMemory
import Jobrocket.StoredFunctions
import Jobrocket.CalledFunctions
import Jobrocket.Footprint
import Jobrocket.WaitCycles
import Jobrocket.Stalls
import Jobrocket.WaitRecycling
import Jobrocket.Returns
import Jobrocket.Quiescence
