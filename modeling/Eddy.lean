import Eddy.Interleaving
import Eddy.LocalQueue
import Eddy.LocalQueueInvariant
import Eddy.LocalQueueExactlyOnce
import Eddy.LocalQueueReservation
import Eddy.Takeover
import Eddy.TakeoverHandOff
import Eddy.TakeoverStealing
import Eddy.PackedWord
import Eddy.TaskState
import Eddy.TaskHarness
import Eddy.TaskInvariant
import Eddy.TaskInterleaving
import Eddy.MultiThreadScheduler
import Eddy.TaskReferences
import Eddy.TaskLifetime
import Eddy.TaskExclusion
import Eddy.TaskWakeups
import Eddy.TaskRegistry
import Eddy.MultiThreadRuntime
import Eddy.MultiThreadShutdown
import Eddy.CurrentThreadRuntime
import Eddy.CurrentThreadShutdown
import Eddy.CurrentThreadConfinement
import Eddy.CurrentThreadQueues
import Eddy.Process
import Eddy.ProcessOwnership
import Eddy.TaskJoin
import Eddy.TimerWheel
import Eddy.TimerWheelInvariant
import Eddy.DeadlineMap
import Eddy.TimerWheelRefinement
import Eddy.TimerShared
import Eddy.TimerSharedFirings
import Eddy.CompletionQueue
import Eddy.Slab
import Eddy.Uring
import Eddy.UringFutures
import Eddy.UringTable
import Eddy.UringRouting
import Eddy.UringRuns
import Eddy.UringLife
import Eddy.UringRetention
import Eddy.UringDescriptors
import Eddy.UringWakeups
import Eddy.UringPools
import Eddy.UringPoolRuns
import Eddy.FairRuns
import Eddy.UringDrain
import Eddy.UringTeardown
import Eddy.UringClose
import Eddy.Semaphore
import Eddy.SemaphoreFairness
import Eddy.RwLock
import Eddy.RwLockExclusion
import Eddy.Mpsc
import Eddy.MpscWaiters
import Eddy.MpscDelivery
import Eddy.Driver
import Eddy.DriverPark
import Eddy.ScheduledIo
import Eddy.IoRouting
import Eddy.IoWaiters
import Eddy.IoWaiterRuns
import Eddy.TryIo
import Eddy.DriverWakes
import Eddy.WorkerLoop
import Eddy.WorkerLoopSteps
import Eddy.WorkerLoopParking
import Eddy.WorkerLoopConservation
import Eddy.WorkerLoopInjector
import Eddy.WorkerLoopStarvation
import Eddy.WorkerLoopFairness
import Eddy.Holdings
import Eddy.Notify
import Eddy.NotifyAccounting
import Eddy.Broadcast
import Eddy.BroadcastStream
import Eddy.BroadcastClose
import Eddy.Watch
import Eddy.WatchClose
import Eddy.Cancellation
import Eddy.CancellationTree
import Eddy.Coop
import Eddy.CoopOperations
import Eddy.CoopResources
import Eddy.CoopStarvation
import Eddy.FuturesUnordered
import Eddy.FuturesUnorderedWakes
import Eddy.FuturesUnorderedDelivery
import Eddy.FuturesUnorderedLoop
import Eddy.DelayQueue
import Eddy.DelayQueueOrder
import Eddy.TcpListener
import Eddy.TcpListenerPending
import Eddy.ByteReaders
import Eddy.RuntimeEvents
import Eddy.ConsoleEvents
import Eddy.EventWire
import Eddy.EventFrames
import Eddy.FrameStream
import Eddy.Json
import Eddy.JsonParser
import Eddy.ConsoleWeb
import Eddy.BrowserEvents
import Eddy.ConsoleWebJson
import Eddy.KeyedMaps
import Eddy.ConsoleModel
import Eddy.EventStore
import Eddy.ProjectionAgreement
import Eddy.BlockingPool
import Eddy.BlockingPoolSteps
import Eddy.BlockingPoolStranding
import Eddy.BlockingPoolParallel
import Eddy.BlockingPoolShutdown
import Eddy.TimerDriver
import Eddy.DelayQueueRaces
import Eddy.DelayQueueSteps
import Eddy.DelayQueueLogs
import Eddy.DelayQueueWakes
import Eddy.TimerDriverClock
import Eddy.Sleep
import Eddy.SleepSteps
import Eddy.SleepReset
import Eddy.AsyncIo
import Eddy.BufWriter
import Eddy.BufReader
import Eddy.BufStream
import Eddy.ByteStreams
import Eddy.Lines
import Eddy.ReadToEnd
import Eddy.PollEvented
import Eddy.TcpListenerErrors
import Eddy.EventStorePause
import Eddy.BlockInPlace
import Eddy.HandBack
import Eddy.LockOrder
import Eddy.StageLocks
import Eddy.PanicIsolation
import Eddy.TimerWheelRepresentation
import Eddy.BroadcastAgreement
import Eddy.FuturesUnorderedReferences
import Eddy.ParkedWorkers
import Eddy.LocalQueueOverflow
import Eddy.LocalQueueAlone
import Eddy.WorkerIdentity
import Eddy.QueueDepth
import Eddy.WatchWaiters
import Eddy.SelectThree
import Eddy.CopyBidirectional
import Eddy.LinkChains
import Eddy.IntrusiveList
import Eddy.Injector
import Eddy.TimerWheelAdvance
import Eddy.CancellationWaiters
import Eddy.Oneshot
import Eddy.OneshotDelivery
import Eddy.Mutex
import Eddy.MutexProgress
import Eddy.PolledFutures
import Eddy.FutureCombinators
import Eddy.PolledStreams
import Eddy.StreamCombinators
import Eddy.Copy
import Eddy.Interval
import Eddy.ConsoleSessions
