import KvsLab.RadixTree

/-!
# The cache manager

Model of `cache_manager.hpp` / `cache_manager.cpp`.

* An `Allocation` is a value; `owner` says whether `owner_` points at the manager or is null.
  `Allocation.disarm` is what a handle is left as once its blocks and pin have been given back or
  moved to another handle.
* `acquire` runs in phases, each a function of its own: `lookup` (drain, match, pin, cancel the
  demotions of what was matched, work out the demand), `makeRoom` (demote), `reclaim` (evict),
  then `refuse` or `serve` (promote, allocate), and `maintain` at the end of a served request.
* Loops over a list of blocks thread the pool only and return how often the loop counted.
  `victims_` is cleared before every use, so it is a local list here.
* Counters of `Stats` and sizes are natural numbers.
* `release` drains the migrations after it gave everything back (`giveBack`), and workers may have
  made progress meanwhile, so it takes their actions as an argument.  `acquire` and `ready` drain
  first, and nothing they do afterwards reads what a worker writes.
-/

namespace KvsLab

/-- `CacheManager::Options`. -/
structure Options where
  spillWatermark : Nat := 0
  asyncPromotion : Bool := false
  deriving DecidableEq, Repr

/-- `CacheManager::Stats`. -/
structure Stats where
  requests : Nat := 0
  served : Nat := 0
  totalTokens : Nat := 0
  hitTokens : Nat := 0
  evictedBlocks : Nat := 0
  demotedBlocks : Nat := 0
  backgroundDemotions : Nat := 0
  promotedBlocks : Nat := 0
  allocFailures : Nat := 0
  abandoned : Nat := 0
  deriving DecidableEq, Repr

/-- `CacheManager::Allocation`. -/
structure Allocation where
  ok : Bool := false
  cachedTokens : Nat := 0
  cachedBlocks : Nat := 0
  blocks : List BlockId := []
  pinned : Option NodeId := none
  owner : Bool := false
  deriving DecidableEq, Repr

/-- `Allocation::disarm`. -/
def Allocation.disarm (_ : Allocation) : Allocation :=
  { ok := false, cachedTokens := 0, cachedBlocks := 0, blocks := [], pinned := none, owner := false }

/-- The entries of the table that carry a reference from the handle. -/
def Allocation.freshBlocks (a : Allocation) : List BlockId := a.blocks.drop a.cachedBlocks

structure CacheManager where
  cfg : CacheConfig
  pool : BlockPool
  tree : RadixTree
  stats : Stats := {}
  options : Options := {}

namespace CacheManager

/-! ## Construction -/

/-- The tiered constructor, over arenas with contents `mem`. -/
def create (specs : List TierSpec) (cfg : CacheConfig) (options : Options)
    (mem : Arena.Mem TierIndex UInt8) : Except Fault CacheManager := do
  let pool ← BlockPool.init cfg specs mem
  let tree ← RadixTree.create cfg.blockTokens
  return { cfg, pool, tree, options }

/-! ## Loops over blocks -/

/-- Move blocks until a move fails; how many were moved. -/
def moveWhile (move : BlockPool → BlockId → Except Fault (Bool × BlockPool)) :
    List BlockId → BlockPool → Except Fault (Nat × BlockPool)
  | [], pool => .ok (0, pool)
  | id :: ids, pool => do
    let (moved, pool) ← move pool id
    if !moved then return (0, pool)
    let (n, pool) ← moveWhile move ids pool
    return (n + 1, pool)

/-- Cancel the migrations of matched blocks that lead away from the compute tier. -/
def cancelDemotions : List BlockId → BlockPool → Except Fault BlockPool
  | [], pool => .ok pool
  | id :: ids, pool => do
    if pool.migrating id then
      if (← pool.migrationTarget id) ≠ 0 then cancelDemotions ids (pool.cancelMigration id)
      else cancelDemotions ids pool
    else cancelDemotions ids pool

/-- Matched blocks in a spill tier that no migration is bringing back. -/
def countPromotions (pool : BlockPool) : List BlockId → Except Fault Nat
  | [] => .ok 0
  | id :: ids => do
    let tier ← pool.blockTier id
    let n ← countPromotions pool ids
    return (if tier ≠ 0 ∧ pool.migrating id = false then 1 else 0) + n

/-- Bring one block back to the compute tier, on the worker where that is asked for and
possible. -/
def promote (async : Bool) (pool : BlockPool) (id : BlockId) : Except Fault (Bool × BlockPool) :=
  if async then do
    let (moved, pool) ← pool.migrateAsync id 0
    if !moved then pool.migrate id 0 else return (moved, pool)
  else pool.migrate id 0

/-- Promote what the hit needs; how many blocks that was. -/
def promoteAll (async : Bool) : List BlockId → BlockPool → Except Fault (Nat × BlockPool)
  | [], pool => .ok (0, pool)
  | id :: ids, pool => do
    let tier ← pool.blockTier id
    if tier = 0 ∨ pool.migrating id = true then promoteAll async ids pool
    else
      let (moved, pool) ← promote async pool id
      if !moved then
        throw (.assertion "moved && \"promotion failed despite reserved compute slots\"")
      let (n, pool) ← promoteAll async ids pool
      return (n + 1, pool)

/-- Allocate `n` blocks. -/
def allocateAll : (n : Nat) → BlockPool → Except Fault (List BlockId × BlockPool)
  | 0, pool => .ok ([], pool)
  | n + 1, pool => do
    let (id, pool) ← pool.allocate
    if id = kInvalidBlock then
      throw (.assertion "id != kInvalidBlock && \"free list disagrees with num_free()\"")
    let (ids, pool) ← allocateAll n pool
    return (id :: ids, pool)

/-- Drop one reference on each block. -/
def dropRefs : List BlockId → BlockPool → Except Fault BlockPool
  | [], pool => .ok pool
  | id :: ids, pool => do
    let (_, pool) ← pool.decref id
    dropRefs ids pool

/-- Pin the matched node, when there is one. -/
def pin (tree : RadixTree) : Option NodeId → Except Fault RadixTree
  | none => .ok tree
  | some node => tree.lock node

/-- Unpin, when there is a pin. -/
def unpin (tree : RadixTree) : Option NodeId → Except Fault RadixTree
  | none => .ok tree
  | some node => tree.unlock node

/-! ## Background demotion -/

/-- `CacheManager::maintain`. -/
def maintain (m : CacheManager) : Except Fault CacheManager :=
  if m.pool.numTiers < 2 ∨ m.options.spillWatermark = 0 then .ok m
  else
    let projected := m.pool.numFree + m.pool.pendingDepartures 0
    if m.options.spillWatermark ≤ projected then .ok m
    else do
      let victims ← m.tree.pickDemotionVictims m.pool (m.options.spillWatermark - projected) []
      let (n, pool) ← moveWhile (fun p id => p.migrateAsync id 1) victims m.pool
      return { m with
        pool
        stats := { m.stats with backgroundDemotions := m.stats.backgroundDemotions + n } }

/-! ## Handles -/

/-- `CacheManager::abandon`. -/
def abandon (m : CacheManager) (alloc : Allocation) :
    Except Fault (Allocation × CacheManager) := do
  let pool ← dropRefs alloc.freshBlocks m.pool
  let tree ← unpin m.tree alloc.pinned
  return (alloc.disarm,
    { m with pool, tree, stats := { m.stats with abandoned := m.stats.abandoned + 1 } })

/-- `~Allocation`. -/
def destruct (m : CacheManager) (alloc : Allocation) : Except Fault (Allocation × CacheManager) :=
  if alloc.ok && alloc.owner then m.abandon alloc else .ok (alloc, m)

/-- Whether every block of a table is in the compute tier. -/
def inCompute (pool : BlockPool) : List BlockId → Except Fault Bool
  | [] => .ok true
  | id :: ids => do
    if (← pool.blockTier id) ≠ 0 then return false
    inCompute pool ids

/-- `Allocation::ready`. -/
def ready (m : CacheManager) (alloc : Allocation) : Except Fault (Bool × CacheManager) :=
  if !alloc.ok || !alloc.owner then .ok (true, m)
  else do
    let pool := m.pool.drainMigrations
    let b ← inCompute pool alloc.blocks
    return (b, { m with pool })

/-! ## Acquiring -/

variable (key : List TokenId → UInt64)

/-- `acquire` once the prefix is matched and pinned: the handle so far, the blocks it still has to
allocate, and the compute slots it needs for these and for promotions. -/
structure Request where
  mgr : CacheManager
  alloc : Allocation
  fresh : Nat
  demand : Nat

/-- The first phase of `acquire`.  No match is longer than `needBlocks`, so taking it off does not
wrap. -/
def lookup (m : CacheManager) (tokens : List TokenId) : Except Fault Request := do
  let bt := m.cfg.blockTokens
  let pool := m.pool.drainMigrations
  let (found, tree) ← m.tree.matchPrefix key tokens
  let tree ← pin tree found.node
  let pool ← cancelDemotions found.blocks pool
  let fresh := needBlocks bt tokens.length - found.blocks.length
  let promotions ← countPromotions pool found.blocks
  return {
    mgr := { m with pool, tree, stats := { m.stats with requests := m.stats.requests + 1 } }
    alloc := {
      cachedTokens := found.numTokens
      cachedBlocks := found.blocks.length
      blocks := found.blocks
      pinned := found.node }
    fresh := fresh
    demand := fresh + promotions }

/-- Demote under pressure. -/
def makeRoom (m : CacheManager) (demand : Nat) : Except Fault CacheManager :=
  if m.pool.numFree < demand ∧ 1 < m.pool.numTiers then do
    let victims ← m.tree.pickDemotionVictims m.pool (demand - m.pool.numFree) []
    let (n, pool) ← moveWhile (fun p id => p.migrate id 1) victims m.pool
    return { m with
      pool, stats := { m.stats with demotedBlocks := m.stats.demotedBlocks + n } }
  else .ok m

/-- The eviction loop. -/
def reclaim (demand : Nat) : (fuel : Nat) → CacheManager → Except Fault CacheManager
  | fuel, m =>
    if demand ≤ m.pool.numFree then .ok m
    else
      match fuel with
      | 0 => .error .loopBound
      | fuel + 1 => do
        let (evicted, tree, pool) ← m.tree.evict key m.pool (demand - m.pool.numFree)
        let m := { m with tree, pool }
        if evicted = 0 then return m
        reclaim demand fuel
          { m with stats := { m.stats with evictedBlocks := m.stats.evictedBlocks + evicted } }

/-- Back out of a request that cannot be served. -/
def refuse (m : CacheManager) (alloc : Allocation) : Except Fault (Allocation × CacheManager) := do
  let tree ← unpin m.tree alloc.pinned
  return ({}, { m with
    tree, stats := { m.stats with allocFailures := m.stats.allocFailures + 1 } })

/-- Promote what the hit needs and allocate the rest of the table. -/
def serve (m : CacheManager) (alloc : Allocation) (fresh : Nat) (tokens : List TokenId) :
    Except Fault (Allocation × CacheManager) := do
  let (promoted, pool) ← promoteAll m.options.asyncPromotion alloc.blocks m.pool
  let (ids, pool) ← allocateAll fresh pool
  let stats := { m.stats with
    promotedBlocks := m.stats.promotedBlocks + promoted
    served := m.stats.served + 1
    totalTokens := m.stats.totalTokens + tokens.length
    hitTokens := m.stats.hitTokens + alloc.cachedTokens }
  let m ← maintain { m with pool, stats }
  return ({ alloc with ok := true, blocks := alloc.blocks ++ ids, owner := true }, m)

/-- `CacheManager::acquire`. -/
def acquire (m : CacheManager) (tokens : List TokenId) :
    Except Fault (Allocation × CacheManager) :=
  if tokens = [] then
    .ok ({ ok := true },
      { m with stats := { m.stats with
          requests := m.stats.requests + 1, served := m.stats.served + 1 } })
  else do
    let r ← m.lookup key tokens
    let m ← makeRoom r.mgr r.demand
    let m ← reclaim key r.demand (m.tree.storedBlocks + 1) m
    if m.pool.numFree < r.demand then refuse m r.alloc
    else serve m r.alloc r.fresh tokens

/-! ## Releasing -/

/-- `release` up to its drain. -/
def giveBack (m : CacheManager) (tokens : List TokenId) (alloc : Allocation) :
    Except Fault (Allocation × CacheManager) := do
  let (_, tree, pool) ← m.tree.insert key m.pool tokens alloc.blocks
  let pool ← dropRefs alloc.freshBlocks pool
  let tree ← unpin tree alloc.pinned
  return (alloc.disarm, { m with pool, tree })

/-- `CacheManager::release`; `ws` is what the workers do before the drain. -/
def release (m : CacheManager) (tokens : List TokenId) (alloc : Allocation)
    (ws : List (WorkerId × BlockPool.WorkerAct)) : Except Fault (Allocation × CacheManager) :=
  if !alloc.ok then .ok (alloc, m)
  else do
    let (alloc, m) ← m.giveBack key tokens alloc
    let m ← maintain { m with pool := (m.pool.work ws).drainMigrations }
    return (alloc, m)

end CacheManager

end KvsLab
