import Yaar.Machine.Execution
import Yaar.Sync.AtomicWaker
import Yaar.Sync.AtomicWakerNotification
import Yaar.Sync.AtomicWakerCall
import Yaar.Data.FirstKey
import Yaar.Data.Agenda
import Yaar.Data.Tally
import Yaar.Data.SwapRemove
import Yaar.Time.Queue
import Yaar.Time.QueueInvariant
import Yaar.Time.QueueRefinement
import Yaar.Time.Sleep
import Yaar.Time.SleepExpiry
import Yaar.Time.Entries
import Yaar.Net.Wakers
import Yaar.Net.Pollable
import Yaar.Net.PollableSlots
import Yaar.Net.PollableReadiness
import Yaar.Runtime.TaskState
import Yaar.Runtime.Parker
import Yaar.Runtime.BlockOn
import Yaar.Runtime.BlockOnPark
import Yaar.Runtime.Task
import Yaar.Runtime.TaskLife
import Yaar.Runtime.TaskCycle
import Yaar.Runtime.Executor
import Yaar.Runtime.ExecutorAccounts
import Yaar.Runtime.ExecutorLines
import Yaar.Runtime.ExecutorSlots
import Yaar.Runtime.ExecutorSearching
import Yaar.Runtime.ExecutorNetwork
import Yaar.Runtime.ThreadPool
import Yaar.Runtime.ThreadPoolCompletion
import Yaar.Runtime.ThreadPoolIdle
import Yaar.Runtime.ThreadPoolShutdown
import Yaar.Runtime.ParkerDelivery
import Yaar.Runtime.TaskJoin
import Yaar.Runtime.TaskJoinResult
import Yaar.Runtime.RuntimesInvariant
import Yaar.Runtime.RuntimesIsolation
import Yaar.Net.TcpStream
import Yaar.Time.SharedU64
import Yaar.Runtime.Context
import Yaar.Time.QueueRounding
import Yaar.Net.WakersAllocation
import Yaar.Runtime.PollTimers
import Yaar.Net.PollIo
import Yaar.Net.PollIoPending
import Yaar.Net.PollIoSlots
import Yaar.Net.PollIoReadiness
import Yaar.Net.PollIoShared
import Yaar.Net.PollIoOverlap
import Yaar.Net.PollIoCovered
import Yaar.Net.PollIoServed
import Yaar.Runtime.NestedBlockOn
import Yaar.Runtime.ExecutorRunnables
import Yaar.Runtime.ExecutorTimers
import Yaar.Data.XorShift
import Yaar.Data.Stride
import Yaar.Data.Laps
import Yaar.Runtime.Random
import Yaar.Runtime.RunQueue
import Yaar.Runtime.Config
import Yaar.Runtime.PollWorker
import Yaar.Runtime.PollWorkerSearch
import Yaar.Runtime.WorkerTurns
import Yaar.Runtime.WorkerRounds
import Yaar.Runtime.ThreadPoolSpawned
import Yaar.Net.PollIoBudget
import Yaar.Net.PollIoTurns
import Yaar.Net.PollIoReturns
import Yaar.Data.Rearrange
import Yaar.Machine.ForkJoin
import Yaar.Examples.QuickSort
import Yaar.Examples.QuickSortMain
import Yaar.Sync.AtomicWakerOnce
import Yaar.Sync.AtomicWakerOverlap
import Yaar.Runtime.Programs
import Yaar.Runtime.ProgramsSound
import Yaar.Runtime.ProgramsSteps
import Yaar.Runtime.ProgramsSpawn
import Yaar.Runtime.ProgramsJoin
import Yaar.Runtime.ProgramsMeaning
import Yaar.Net.Reactor
import Yaar.Net.ReactorProgress
import Yaar.Net.Transfer
