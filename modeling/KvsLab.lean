import KvsLab.Types
import KvsLab.BlockKey
import KvsLab.Lib.Counting
import KvsLab.Lib.Arena
import KvsLab.Lib.Run
import KvsLab.Lib.KeyedForest
import KvsLab.Lib.WorkQueue
import KvsLab.Lib.Lockstep
import KvsLab.Lib.PrefixStore
import KvsLab.BlockPool
import KvsLab.BlockPool.Slots
import KvsLab.BlockPool.Calls
import KvsLab.BlockPool.Drain
import KvsLab.BlockPool.Conservation
import KvsLab.BlockPool.Geometry
import KvsLab.BlockPool.Queue
import KvsLab.BlockPool.Blocks
import KvsLab.BlockPool.Placement
import KvsLab.BlockPool.Bytes
import KvsLab.BlockPool.Access
import KvsLab.BlockPool.QuietCalls
import KvsLab.BlockPool.Bytewise
import KvsLab.BlockPool.Bytewise.Invariant
import KvsLab.BlockPool.Bytewise.Columns
import KvsLab.BlockPool.Bytewise.Refinement
import KvsLab.BlockPool.Races
import KvsLab.BlockPool.Landing
import KvsLab.BlockPool.Wakeup
import KvsLab.BlockPool.Shutdown
import KvsLab.BlockPool.Shutdown.Invariant
import KvsLab.BlockPool.Shutdown.Progress
import KvsLab.BlockPool.Protocol
import KvsLab.BlockPool.Migration
import KvsLab.RadixTree
import KvsLab.RadixTree.Places
import KvsLab.RadixTree.Split
import KvsLab.RadixTree.Walk
import KvsLab.RadixTree.Pins
import KvsLab.RadixTree.Match
import KvsLab.RadixTree.Leaf
import KvsLab.RadixTree.Insert
import KvsLab.RadixTree.Evict
import KvsLab.RadixTree.Pinned
import KvsLab.RadixTree.Operations
import KvsLab.RadixTree.Lookup
import KvsLab.RadixTree.Adoption
import KvsLab.RadixTree.AccessTimes
import KvsLab.RadixTree.Lru
import KvsLab.RadixTree.IterationOrder
import KvsLab.RadixTree.References
import KvsLab.RadixTree.Victims
import KvsLab.RadixTree.Prefixes
import KvsLab.RadixTree.Teardown
import KvsLab.CacheManager
import KvsLab.CacheManager.Outcomes
import KvsLab.CacheManager.Moves
import KvsLab.CacheManager.Books
import KvsLab.CacheManager.Phases
import KvsLab.CacheManager.Calls
import KvsLab.CacheManager.System
import KvsLab.CacheManager.Ownership
import KvsLab.CacheManager.PoolCalls
import KvsLab.CacheManager.Readiness
import KvsLab.CacheManager.Twins
import KvsLab.CacheManager.AsyncPromotion
import KvsLab.CacheManager.Provenance
import KvsLab.CacheManager.Refusal
import KvsLab.CacheManager.BackOut
import KvsLab.CacheManager.Demotion
import KvsLab.CacheManager.Capacity
import KvsLab.CacheManager.GiveBack
import KvsLab.CacheManager.Settlement
import KvsLab.CacheManager.ReleaseOrder
import KvsLab.CacheManager.Freed
import KvsLab.CacheManager.KvContents
import KvsLab.CacheManager.Flow
import KvsLab.CacheManager.Refinement
import KvsLab.CacheManager.Ideal
import KvsLab.CacheManager.Teardown
import KvsLab.CacheManager.Recovery
import KvsLab.HostTier
import KvsLab.CacheManager.SingleTier
import KvsLab.CacheManager.Watermark
