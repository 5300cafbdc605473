import OsLabs.Core.Lts
import OsLabs.Core.Loop
import OsLabs.Core.Intervals
import OsLabs.Core.CInt
import OsLabs.Core.Scan
import OsLabs.Core.Fifo
import OsLabs.Core.LinkedHeap
import OsLabs.Core.Atomic
import OsLabs.PageCache.Checksum
import OsLabs.PageCache.Faults
import OsLabs.PageCache.Collection
import OsLabs.PageCache.Round
import OsLabs.CondVar.Progress
import OsLabs.LockVariations.Seqlock
import OsLabs.LockFree.Runs
import OsLabs.LockFree.Stack
import OsLabs.Core.Threads
import OsLabs.Mpmc.Model
import OsLabs.Mpmc.Accounts
import OsLabs.Mpmc.Ring
import OsLabs.Mpmc.Completion
import OsLabs.Mpmc.Runs
import OsLabs.Core.Memory
import OsLabs.Rcu.Model
import OsLabs.Rcu.Invariant
import OsLabs.Rcu.Snapshots
import OsLabs.Concurrency.RacyCounter
import OsLabs.Concurrency.RacySchedules
import OsLabs.FineLock.Tables
import OsLabs.SyncPrimitives.Futex
import OsLabs.PageCache.Stride
import OsLabs.PageCache.Arguments
import OsLabs.Core.FileSystem
import OsLabs.CrashRecovery.AtomicUpdate
import OsLabs.CrashRecovery.Crashes
import OsLabs.CrashRecovery.Failures
import OsLabs.Core.Fgets
import OsLabs.ProcFiles.VmaCount
import OsLabs.ProcFiles.PrintFirst
import OsLabs.Core.Words
import OsLabs.ProcFiles.CpuInfo
import OsLabs.Core.Hex
import OsLabs.ProcFiles.VmaSearch
import OsLabs.Core.Residues
import OsLabs.ProcFiles.Pagemap
import OsLabs.StorageFs.StridedRead
import OsLabs.ProcFiles.Ancestry
import OsLabs.StorageFs.FileCopy
import OsLabs.Monitor.StatFields
import OsLabs.Monitor.ExitRaces
import OsLabs.Core.Parts
import OsLabs.ProcFiles.FirstBlock
import OsLabs.Core.Counter
import OsLabs.Concurrency.AtomicCounter
import OsLabs.Locking.Counters
import OsLabs.LockVariations.RwLock
import OsLabs.CondVar.Sleepers
import OsLabs.Mpmc.Unbalanced
import OsLabs.LockFree.Progress
import OsLabs.LockFree.Drain
import OsLabs.ProcFiles.Listings
import OsLabs.Processes.Reaping
import OsLabs.Processes.PingPong
import OsLabs.Core.Paging
import OsLabs.DemandPaging.Chunks
import OsLabs.DemandPaging.Rescans
import OsLabs.Traps.Recovery
import OsLabs.Traps.Labs
import OsLabs.Monitor.Rates
import OsLabs.PageCache.OpenFiles
import OsLabs.PageCache.OpenPipes
import OsLabs.PageCache.DescriptorLimit
import OsLabs.Scripts.RunLab
import OsLabs.LockVariations.Retries
import OsLabs.Core.Buffering
import OsLabs.Core.Forks
import OsLabs.Core.ForkOutput
import OsLabs.Processes.Printing
import OsLabs.PageCache.Banner
import OsLabs.Core.Areas
import OsLabs.ProcFiles.VmaGrowth
