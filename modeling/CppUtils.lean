import CppUtils.Lib.TransitionSystem
import CppUtils.Lib.Threads
import CppUtils.Lib.BoundedQueue
import CppUtils.Lib.FifoLedger
import CppUtils.Lib.Window
import CppUtils.ThreadPool.State
import CppUtils.ThreadPool.Frames
import CppUtils.ThreadPool.Worker
import CppUtils.ThreadPool.Retire
import CppUtils.ThreadPool.Shutdown
import CppUtils.ThreadPool.ParallelFor
import CppUtils.ThreadPool.System
import CppUtils.ThreadPool.Script
import CppUtils.ThreadPool.Weights
import CppUtils.ThreadPool.QueuedCount
import CppUtils.ThreadPool.CallStacks
import CppUtils.ThreadPool.IdleWait
import CppUtils.ThreadPool.Wakeups
import CppUtils.ThreadPool.Ledger
import CppUtils.ThreadPool.LedgerLaws
import CppUtils.ThreadPool.LedgerRetire
import CppUtils.ThreadPool.Custody
import CppUtils.ThreadPool.TaskPlaces
import CppUtils.ThreadPool.RetireBarrier
import CppUtils.ThreadPool.Batch
import CppUtils.ThreadPool.BatchFrames
import CppUtils.ThreadPool.BatchOwners
import CppUtils.ThreadPool.ParallelBatches
import CppUtils.ThreadPool.NestedWaits
import CppUtils.ThreadPool.Progress
import CppUtils.ThreadPool.NestedCalls
import CppUtils.ThreadPool.Containment
import CppUtils.ExecutionQueue.State
import CppUtils.ExecutionQueue.System
import CppUtils.ExecutionQueue.Fates
import CppUtils.ExecutionQueue.Backlog
import CppUtils.ConsumerBlockingQueue.State
import CppUtils.ConsumerBlockingQueue.Fifo
import CppUtils.ConsumerBlockingQueue.Wakeups
import CppUtils.PeriodicThread.State
import CppUtils.PeriodicThread.Pausing
import CppUtils.Lib.Fields
import CppUtils.StorageSpeed.Paths
import CppUtils.StorageSpeed.Resolve
import CppUtils.StorageSpeed.NormalForm
import CppUtils.StorageSpeed.KernelWalk
import CppUtils.StorageSpeed.MountInfo
import CppUtils.StorageSpeed.MountTable
import CppUtils.ConsumerBlockingQueue.EarlyReturns
import CppUtils.MemoryFunctions.Memfind
import CppUtils.StorageSpeed.Termination
import CppUtils.StorageSpeed.LinkLimit
import CppUtils.StorageSpeed.Firmlinks
import CppUtils.PeriodicThread.Resuming
import CppUtils.PeriodicThread.Terminating
import CppUtils.PeriodicThread.Calling
import CppUtils.ExecutionQueue.Closures
import CppUtils.Lib.InPlace
import CppUtils.Hash.Keccak
import CppUtils.Hash.KeccakRounds
import CppUtils.Lib.Sponge
import CppUtils.Hash.Sha3
import CppUtils.Hash.Incremental
import CppUtils.Lib.Overlay
import CppUtils.StorageSpeed.MountTree
import CppUtils.ThreadPool.ShutdownAsserts
import CppUtils.StorageSpeed.Unescape
import CppUtils.ThreadPool.TagAccounting
import CppUtils.ThreadPool.DrainClosures
import CppUtils.ThreadPool.SpawnTrees
import CppUtils.ThreadPool.Joined
import CppUtils.ThreadPool.DrainCall
import CppUtils.ThreadPool.FullDrain
import CppUtils.Timing.Profiler
import CppUtils.Math.MeanCounter
import CppUtils.Lib.EntryMap
import CppUtils.Lib.Descent
import CppUtils.Threading.CpuCount
import CppUtils.Lib.FairRuns
import CppUtils.ThreadPool.Lanes
import CppUtils.ThreadPool.WorkerTurns
import CppUtils.ThreadPool.Starvation
import CppUtils.StorageSpeed.Volume
import CppUtils.StorageSpeed.SpeedCache
import CppUtils.StorageSpeed.VolumeSpeed
import CppUtils.StorageSpeed.WindowsVolumes
import CppUtils.Threading.InterruptableThread
import CppUtils.Threading.Cancellation
import CppUtils.Lib.ShiftMixing
import CppUtils.Hash.Permutation
import CppUtils.ThreadPool.BatchTurns
import CppUtils.ThreadPool.ParallelForReturns
import CppUtils.ThreadPool.ShutdownReturns
import CppUtils.ThreadPool.RetireReturns
