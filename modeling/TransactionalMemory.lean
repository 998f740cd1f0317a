import TransactionalMemory.BatcherEpochs
import TransactionalMemory.AttemptOpacity
import TransactionalMemory.RealTimeOrder
import TransactionalMemory.Closures
import TransactionalMemory.AtomicHistories
import TransactionalMemory.CommitOrder
import TransactionalMemory.ClosureRuns
import TransactionalMemory.BankClosures
import TransactionalMemory.BankRefinement
import TransactionalMemory.PermittedJobs
import TransactionalMemory.BankSessions
import TransactionalMemory.BankCheck
import TransactionalMemory.ExclusiveWriters
import TransactionalMemory.EpochQuiescence
import TransactionalMemory.AbortAtomicity
import TransactionalMemory.AbortConflicts
import TransactionalMemory.PendingCalls
import TransactionalMemory.OpacityOfReads
import TransactionalMemory.ExactDeallocation
import TransactionalMemory.Serializability
import TransactionalMemory.ReferenceTransactions
import TransactionalMemory.ReferenceChain
import TransactionalMemory.TransactionIds
import TransactionalMemory.FirstSegment
import TransactionalMemory.CommittedPointers
import TransactionalMemory.SegmentLifecycle
import TransactionalMemory.SpinBarrier
import TransactionalMemory.TransactionWrapper
import TransactionalMemory.WorkerRounds
import TransactionalMemory.BankWorkload
import TransactionalMemory.LinkAppend
import TransactionalMemory.UnlockedReaders
import TransactionalMemory.MachineWords
import TransactionalMemory.SegmentBlocks
import TransactionalMemory.OpaquePointers
import TransactionalMemory.RetriedTransfers
import TransactionalMemory.AtomicClosures
import TransactionalMemory.LockSerializability
import TransactionalMemory.LockAlgorithms
import TransactionalMemory.WordGuards
import TransactionalMemory.BoundedCalls
