import Dert.Queue.StackRuns
import Dert.Trace.Tld
import Dert.Sync.FsemaphoreCalls
import Dert.Sync.FsemaphoreLayout
import Dert.Queue.VqueueRefinement
import Dert.Queue.AqueueAtomic
import Dert.Queue.MpscqueueOrder
import Dert.Queue.FqueueStream
import Dert.Queue.FqueueFile
import Dert.Store.VhtDeletions
import Dert.Store.VhtProbes
import Dert.Store.VarrayOwnership
import Dert.Store.VpoolChain
import Dert.Store.VpoolRoom
import Dert.Store.VarenaNesting
import Dert.Store.VdllElements
import Dert.Store.VdllRefusals
import Dert.Store.VdllRollback
import Dert.Tree.TreeTInsert
import Dert.Tree.TreeTCapacity
import Dert.Tree.TreeTBag
import Dert.Tree.TreeTRol
import Dert.Tree.TreeTRor
import Dert.Pool.GreentRuns
import Dert.Sync.FsemaphoreProgress
import Dert.Pool.TpoolrrProgress
import Dert.Pool.TpoolrrBlock
import Dert.Tree.TreeIteratorPre
import Dert.Tree.TreeIteratorIn
import Dert.Tree.TreeIteratorPost
import Dert.Tree.TreeIteratorBfs
import Dert.Store.AdvisedBlocks
import Dert.Pool.GreentPools
import Dert.Pool.GtpoolrrHandles
import Dert.Pool.GtpoolrrThreads
import Dert.Pool.GtpoolrrPopReturns
import Dert.Pool.GtpoolrrStops
import Dert.Pool.GtpoolrrPushRuns
import Dert.Pool.GtpoolrrStopSafe
import Dert.Pool.GtpoolrrExpiration
import Dert.Pool.GtpoolrrPush
import Dert.Pool.TpoolrrPause
import Dert.Pool.TpoolrrRoundRobin
import Dert.Pool.TpoolrrAssignRuns
import Dert.Pool.TpoolrrPopsome
import Dert.Pool.TpoolrrAddErrors
import Dert.Pool.TpoolrrAddRoom
