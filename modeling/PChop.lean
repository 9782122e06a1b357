import PChop.ExecutionState
import PChop.Offload
import PChop.PrefixTree
import PChop.BFSSearcher
import PChop.Recovery
import PChop.ControlFlow
import PChop.Executor.Basic
import PChop.Executor.Terminate
import PChop.Executor.Recovery
import PChop.Executor.Fork
import PChop.Executor.Run
import PChop.UserSearcher
import PChop.Verify.LazyRecovery
import PChop.Verify.StateTracking
import PChop.Verify.Chains
import PChop.Verify.Ranging
import PChop.Verify.Finish
import PChop.Verify.Links
import PChop.Verify.Skeleton
import PChop.Verify.ChainCopy
import PChop.Verify.Invariant
import PChop.Verify.Turn
import PChop.Verify.Forking
import PChop.Verify.Searcher
import PChop.Verify.Switch
import PChop.Verify.Step
import PChop.Verify.RecoveryChains
import PChop.Verify.PrefixQuery
import PChop.Verify.BFS
import PChop.Verify.MemoryCap
import PChop.Verify.RecoveryExit
import PChop.Verify.RecoveryCache
import PChop.Verify.Names
import PChop.Verify.Histories
import PChop.Verify.ForkHistories
import PChop.Verify.RunHistories
import PChop.Verify.ErrorTable
import PChop.Verify.WorkList
import PChop.Verify.Schedule
import PChop.Verify.UserSearcher
import PChop.Verify.Messages
import PChop.Verify.PrefixIndex
