import KvsLab.Types
import KvsLab.Lib.Arena
import Mathlib.Logic.Function.Basic

/-!
# The tiered block pool

Model of `block_pool.hpp` / `block_pool.cpp`.  The state is `BlockPool`; each public call is a
function on it under the source's name.

* Vectors used as stacks (`free_slots`, `free_ids_`) are lists whose **head is the back** of the
  vector, so `push_back` conses and `back` / `pop_back` take the head.  `jobs_` is a list whose
  head is the front of the deque.
* `location_` and `refcount_` are maps guarded by `numBlocks = location_.size()`; `tiers_` is a
  map guarded by `numTiers`.
* A `MigrationJob*` is the job's address `ptr`, drawn fresh for every job; dereferencing it
  finds the job in `jobs_`, which owns it.
* A raw pointer into a tier is an arena address (`Arena.Addr`); `mem` holds the bytes of every
  tier.
* `workers` are the background threads, any number of them; `WorkerPc` is the position of a
  thread in the body of `worker_loop` and `WorkerAct` its next atomic action.
* `freed` records the ids that went back on the free list, oldest first.  No modelled call
  reads it; it states "not freed since" for later results.

`fatal` and `assert` end a call with a `Fault`.
-/

namespace KvsLab

abbrev JobPtr := Nat

abbrev WorkerId := Nat

/-- `BlockPool::Location`. -/
structure Location where
  tier : TierIndex := 0
  slot : Nat := 0
  deriving DecidableEq, Repr

/-- `BlockPool::TierState`; the head of `freeSlots` is the back of the vector. -/
structure TierState where
  hostAddressable : Bool := false
  numBlocks : Nat := 0
  freeSlots : List Nat := []
  deriving DecidableEq, Repr

/-- `BlockPool::MigrationJob`, with its own address. -/
structure MigrationJob where
  ptr : JobPtr
  id : BlockId
  dstTier : TierIndex
  dstSlot : Nat
  src : Arena.Addr TierIndex
  dst : Arena.Addr TierIndex
  bytes : Nat
  done : Bool := false
  cancelled : Bool := false
  deriving DecidableEq, Repr

/-- Where a worker thread stands in the body of `worker_loop`. -/
inductive WorkerPc where
  /-- waiting for an unclaimed job -/
  | idle
  /-- holds a claimed job, about to read its `cancelled` flag -/
  | claimed (job : JobPtr)
  /-- saw the flag unset; the `memcpy` is under way -/
  | copying (job : JobPtr)
  /-- about to store `done` -/
  | finishing (job : JobPtr)
  deriving DecidableEq, Repr

/-- The pool. -/
structure BlockPool where
  blockBytes : Nat
  numTiers : Nat
  tiers : TierIndex → TierState
  numBlocks : Nat
  location : BlockId → Location
  refcount : BlockId → Nat
  freeIds : List BlockId
  jobs : List MigrationJob
  migratingIds : List (BlockId × JobPtr)
  nextUnclaimed : Nat
  nextJob : JobPtr
  workers : WorkerId → WorkerPc
  mem : Arena.Mem TierIndex UInt8
  freed : List BlockId

namespace BlockPool

/-! ## Construction -/

/-- One iteration of the constructor's loop over the specs. -/
def initTier (bytes : Nat) (spec : TierSpec) : Except Fault TierState :=
  match spec.tier with
  | none => .error (.invalidArgument "kvslab: null tier in pool spec")
  | some tier =>
    if tier.capacityBytes < sizeMul spec.numBlocks bytes then
      .error (.invalidArgument "kvslab: tier is too small for the requested pool")
    else if maxSize 4 < spec.numBlocks then .error .lengthError
    else
      .ok ⟨tier.hostAddressable, spec.numBlocks, (List.range spec.numBlocks).map toU32⟩

/-- `total_blocks`, summed in `std::size_t`. -/
def totalBlocks (specs : List TierSpec) : Nat :=
  specs.foldl (fun n spec => (n + spec.numBlocks) % 2 ^ 64) 0

/-- The members after construction, over arenas with contents `mem`. -/
def fresh (bytes : Nat) (states : List TierState) (total : Nat)
    (mem : Arena.Mem TierIndex UInt8) : BlockPool where
  blockBytes := bytes
  numTiers := states.length
  tiers := fun t => states.getD t {}
  numBlocks := total
  location := fun _ => {}
  refcount := fun _ => 0
  freeIds := (List.range total).map toU32
  jobs := []
  migratingIds := []
  nextUnclaimed := 0
  nextJob := 0
  workers := fun _ => .idle
  mem := mem
  freed := []

/-- `BlockPool::init`.  Of the lengths it asks of its vectors, `location_` and `bounce_` are the
longest; the memory behind them is taken to be there. -/
def init (cfg : CacheConfig) (specs : List TierSpec) (mem : Arena.Mem TierIndex UInt8) :
    Except Fault BlockPool :=
  if specs.isEmpty then .error (.invalidArgument "kvslab: a pool needs at least one tier")
  else do
    let states ← specs.mapM (initTier cfg.blockBytes)
    if maxSize 8 < totalBlocks specs ∨ maxSize 1 < cfg.blockBytes then throw .lengthError
    return fresh cfg.blockBytes states (totalBlocks specs) mem

/-! ## Observers -/

def numFree (p : BlockPool) : Nat := (p.tiers 0).freeSlots.length

def tierFree (p : BlockPool) (t : TierIndex) : Nat := (p.tiers t).freeSlots.length

def numUsed (p : BlockPool) : Nat := p.numBlocks - p.freeIds.length

/-- `BlockPool::locate`. -/
def locate (p : BlockPool) (id : BlockId) : Except Fault Location :=
  if p.numBlocks ≤ id then .error (.fatal "access to an out-of-range block" id)
  else if p.refcount id = 0 then .error (.fatal "access to a block that is not allocated" id)
  else .ok (p.location id)

/-- `BlockPool::refcount`. -/
def refcountOf (p : BlockPool) (id : BlockId) : Except Fault Nat :=
  if p.numBlocks ≤ id then .error (.fatal "refcount of an out-of-range block" id)
  else .ok (p.refcount id)

/-- `BlockPool::block_tier`. -/
def blockTier (p : BlockPool) (id : BlockId) : Except Fault TierIndex := do
  return (← p.locate id).tier

/-- Dereference a `MigrationJob*`. -/
def job? (p : BlockPool) (ptr : JobPtr) : Option MigrationJob :=
  p.jobs.find? (fun j => j.ptr == ptr)

/-- `BlockPool::migrating`. -/
def migrating (p : BlockPool) (id : BlockId) : Bool := (p.migratingIds.lookup id).isSome

/-- The job an in-flight migration of `id` points at. -/
def flight? (p : BlockPool) (id : BlockId) : Option MigrationJob :=
  (p.migratingIds.lookup id).bind p.job?

/-- `BlockPool::migration_target`. -/
def migrationTarget (p : BlockPool) (id : BlockId) : Except Fault TierIndex :=
  match p.flight? id with
  | none => .error (.fatal "migration_target of a block not migrating" id)
  | some job => .ok job.dstTier

/-- `BlockPool::pending_departures`. -/
def pendingDepartures (p : BlockPool) (tier : TierIndex) : Nat :=
  p.migratingIds.countP fun e =>
    match p.job? e.2 with
    | some job => (p.location e.1).tier == tier && job.dstTier != tier
    | none => false

/-! ## Free lists and addresses -/

/-- Replace the free list of tier `t`. -/
def setFree (p : BlockPool) (t : TierIndex) (slots : List Nat) : BlockPool :=
  { p with tiers := Function.update p.tiers t { p.tiers t with freeSlots := slots } }

/-- `tiers_[t].free_slots.push_back(slot)`. -/
def pushSlot (p : BlockPool) (t : TierIndex) (slot : Nat) : BlockPool :=
  p.setFree t (slot :: (p.tiers t).freeSlots)

/-- `tiers_[t].free_slots.pop_back()`. -/
def popSlot (p : BlockPool) (t : TierIndex) : BlockPool :=
  p.setFree t (p.tiers t).freeSlots.tail

/-- Address of a slot in its tier's arena. -/
def slotAddr (p : BlockPool) (loc : Location) : Arena.Addr TierIndex :=
  (loc.tier, sizeMul loc.slot p.blockBytes)

/-! ## Reference counting -/

/-- `BlockPool::cancel_migration`. -/
def cancelMigration (p : BlockPool) (id : BlockId) : BlockPool :=
  match p.migratingIds.lookup id with
  | none => p
  | some ptr =>
    { p with
      jobs := p.jobs.map fun j => if j.ptr = ptr then { j with cancelled := true } else j
      migratingIds := p.migratingIds.filter fun e => e.1 != id }

/-- Bind the id on top of `free_ids_` to the compute slot on top of its free list. -/
def takeBlock (p : BlockPool) (id : BlockId) (slot : Nat) : BlockPool :=
  { p.popSlot 0 with
    freeIds := p.freeIds.tail
    location := Function.update p.location id ⟨0, slot⟩
    refcount := Function.update p.refcount id 1 }

/-- `BlockPool::allocate`; `kInvalidBlock` when it has nothing to hand out. -/
def allocate (p : BlockPool) : Except Fault (BlockId × BlockPool) :=
  match p.freeIds, (p.tiers 0).freeSlots with
  | id :: _, slot :: _ =>
    if p.refcount id ≠ 0 then .error (.assertion "refcount_[id] == 0")
    else .ok (id, p.takeBlock id slot)
  | _, _ => .ok (kInvalidBlock, p)

/-- `BlockPool::incref`. -/
def incref (p : BlockPool) (id : BlockId) : Except Fault BlockPool :=
  if p.numBlocks ≤ id then .error (.fatal "incref of an out-of-range block" id)
  else if p.refcount id = 0 then .error (.fatal "incref of a block that is already free" id)
  else .ok { p with refcount := Function.update p.refcount id (toU32 (p.refcount id + 1)) }

/-- The count reaches zero; the slot and the id go back on their free lists. -/
def freeBlock (p : BlockPool) (id : BlockId) : BlockPool :=
  { p.pushSlot (p.location id).tier (p.location id).slot with
    refcount := Function.update p.refcount id 0
    freeIds := id :: p.freeIds
    freed := p.freed ++ [id] }

/-- The last reference is gone: a dying block takes any in-flight migration with it. -/
def releaseBlock (p : BlockPool) (id : BlockId) : BlockPool :=
  (p.cancelMigration id).freeBlock id

/-- `BlockPool::decref`; `true` when the block went back on the free list. -/
def decref (p : BlockPool) (id : BlockId) : Except Fault (Bool × BlockPool) :=
  if p.numBlocks ≤ id then .error (.fatal "decref of an out-of-range block" id)
  else if p.refcount id = 0 then .error (.fatal "decref of a block that is already free" id)
  else if p.refcount id = 1 then .ok (true, p.releaseBlock id)
  else .ok (false, { p with refcount := Function.update p.refcount id (p.refcount id - 1) })

/-! ## Migration -/

/-- The copy of a synchronous migration: direct when both tiers are host addressable, through
the bounce buffer otherwise. -/
def copySlot (p : BlockPool) (dst src : Location) : Arena.Mem TierIndex UInt8 :=
  if (p.tiers src.tier).hostAddressable && (p.tiers dst.tier).hostAddressable then
    Arena.memcpy p.mem (p.slotAddr dst) (p.slotAddr src) p.blockBytes
  else
    let bounce := Arena.read p.mem (p.slotAddr src) p.blockBytes
    Arena.write p.mem (p.slotAddr dst) bounce

/-- Move block `id` from `src` to the slot on top of the free list of `dst.tier`. -/
def moveBlock (p : BlockPool) (id : BlockId) (dst src : Location) : BlockPool :=
  { (p.popSlot dst.tier).pushSlot src.tier src.slot with
    mem := p.copySlot dst src
    location := Function.update p.location id dst }

/-- `BlockPool::migrate`. -/
def migrate (p₀ : BlockPool) (id : BlockId) (dst : TierIndex) : Except Fault (Bool × BlockPool) := do
  let p := p₀.cancelMigration id
  let loc ← p.locate id
  if p.numTiers ≤ dst then throw (.fatal "migrate to an out-of-range tier" id)
  if loc.tier = dst then return (true, p)
  match (p.tiers dst).freeSlots with
  | [] => return (false, p)
  | dstSlot :: _ =>
    return (true, p.moveBlock id ⟨dst, dstSlot⟩ loc)

/-- Reserve the slot on top of the free list of `dst.tier` and queue the copy. -/
def enqueue (p : BlockPool) (id : BlockId) (dst src : Location) : BlockPool :=
  let job : MigrationJob :=
    { ptr := p.nextJob, id := id, dstTier := dst.tier, dstSlot := dst.slot
      src := p.slotAddr src, dst := p.slotAddr dst, bytes := p.blockBytes }
  { p.popSlot dst.tier with
    migratingIds := p.migratingIds ++ [(id, job.ptr)]
    jobs := p.jobs ++ [job]
    nextJob := p.nextJob + 1 }

/-- `BlockPool::migrate_async`. -/
def migrateAsync (p : BlockPool) (id : BlockId) (dst : TierIndex) :
    Except Fault (Bool × BlockPool) := do
  let loc ← p.locate id
  if p.numTiers ≤ dst then throw (.fatal "async migrate to an out-of-range tier" id)
  if loc.tier = dst then return (false, p)
  if p.migrating id then return (false, p)
  match (p.tiers dst).freeSlots with
  | [] => return (false, p)
  | dstSlot :: _ =>
    if !((p.tiers loc.tier).hostAddressable && (p.tiers dst).hostAddressable) then
      return (false, p)
    return (true, p.enqueue id ⟨dst, dstSlot⟩ loc)

/-- The front of the queue that is done, what is left, and the cursor after the pops. -/
def popFinished : List MigrationJob → Nat → List MigrationJob × List MigrationJob × Nat
  | [], n => ([], [], n)
  | j :: js, n =>
    if j.done then
      let r := popFinished js (sizePred n)
      (j :: r.1, r.2)
    else ([], j :: js, n)

/-- One finished job: hand back a cancelled job's destination, rebind the block otherwise. -/
def applyFinished (p : BlockPool) (job : MigrationJob) : BlockPool :=
  if job.cancelled then p.pushSlot job.dstTier job.dstSlot
  else
    let loc := p.location job.id
    { p.pushSlot loc.tier loc.slot with
      location := Function.update p.location job.id ⟨job.dstTier, job.dstSlot⟩
      migratingIds := p.migratingIds.filter fun e => e.1 != job.id }

/-- `BlockPool::drain_migrations`. -/
def drainMigrations (p : BlockPool) : BlockPool :=
  let r := popFinished p.jobs p.nextUnclaimed
  r.1.foldl applyFinished { p with jobs := r.2.1, nextUnclaimed := r.2.2 }

/-- `BlockPool::wait_for_migrations`; `none` while the calling thread is blocked. -/
def waitForMigrations (p : BlockPool) : Option BlockPool :=
  if p.jobs.all (·.done) then some p.drainMigrations else none

/-! ## Worker threads -/

/-- The atomic actions of a worker thread, in program order. -/
inductive WorkerAct where
  | claim
  | check
  | copy
  /-- a copy of a job cancelled under way leaves arbitrary bytes in its destination -/
  | tear (bytes : List UInt8)
  | finish
  deriving DecidableEq, Repr

/-- One atomic action of worker `w`; `none` when it is not at that action. -/
def workerStep (p : BlockPool) (w : WorkerId) (act : WorkerAct) : Option BlockPool :=
  match act, p.workers w with
  | .claim, .idle => do
    let job ← p.jobs[p.nextUnclaimed]?
    return { p with
      workers := Function.update p.workers w (.claimed job.ptr)
      nextUnclaimed := p.nextUnclaimed + 1 }
  | .check, .claimed ptr => do
    let job ← p.job? ptr
    return { p with
      workers := Function.update p.workers w
        (if job.cancelled then .finishing ptr else .copying ptr) }
  | .copy, .copying ptr => do
    let job ← p.job? ptr
    return { p with
      workers := Function.update p.workers w (.finishing ptr)
      mem := Arena.memcpy p.mem job.dst job.src job.bytes }
  | .tear bs, .copying ptr => do
    let job ← p.job? ptr
    -- The worker stays at its copy, so a cancelled job writes once more before it finishes.  A torn
    -- end state needs no step: until the drain the destination is in no block, its next owner has
    -- written none of it, and at one offset the last byte of a torn copy is a copied one.
    if job.cancelled && bs.length == job.bytes then
      return { p with mem := Arena.write p.mem job.dst bs }
    else none
  | .finish, .finishing ptr => do
    let _ ← p.job? ptr
    return { p with
      jobs := p.jobs.map fun j => if j.ptr = ptr then { j with done := true } else j
      workers := Function.update p.workers w .idle }
  | _, _ => none

/-- Worker actions in a row; one that its worker is not at is left out. -/
def work (p : BlockPool) (ws : List (WorkerId × WorkerAct)) : BlockPool :=
  ws.foldl (fun p a => (p.workerStep a.1 a.2).getD p) p

end BlockPool

end KvsLab
