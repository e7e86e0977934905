import KvsLab.BlockPool.QuietCalls

/-!
# Copies byte by byte

A `memcpy` is not atomic: a worker's copy, the copy of a synchronous `migrate` and the writes of
the owners go on at the same time, one byte each, in any order.  A copy of a job cancelled under way
reads whatever the next owner of the source slot has written by then.

* `BytewisePool` — a pool with the offsets every copy under way has done so far; `BytewiseOp` — its
  steps, each of which touches one byte or none.
* `Steps` — what a step is, one constructor for each action; `next_cases` — and nothing else is one.
-/

namespace KvsLab

open Transition

namespace BlockPool

variable {p p' : BlockPool} {id : BlockId} {w : WorkerId}

/-! ## Steps -/

/-- A synchronous `migrate` from the moment it took its slot to the end of its copy. -/
structure Move where
  id : BlockId
  dst : Location
  /-- `bounce_`, for a tier the CPU cannot address -/
  bounce : Nat → UInt8 := fun _ => 0
  fetched : List Nat := []
  stored : List Nat := []

/-- A pool in the middle of its copies: the offsets every worker has copied of its job, and the move
the scheduler is at. -/
structure BytewisePool where
  owned : OwnedPool
  copied : WorkerId → List Nat := fun _ => []
  move : Option Move := none

inductive BytewiseOp where
  /-- a call of the scheduler that copies nothing -/
  | call (op : PoolOp)
  /-- an owner writes one byte -/
  | write (id : BlockId) (off : Nat) (b : UInt8)
  /-- an owner reads one byte -/
  | read (id : BlockId) (off : Nat)
  /-- a worker claims a job, reads its `cancelled` flag or stores `done` -/
  | worker (w : WorkerId) (act : WorkerAct)
  /-- the `memcpy` of a worker copies one byte -/
  | copyByte (w : WorkerId) (off : Nat)
  /-- the `memcpy` of a worker returns -/
  | copyReturn (w : WorkerId)
  /-- `migrate` up to its copy -/
  | moveEnter (id : BlockId) (dst : TierIndex)
  /-- `Tier::read` fills one byte of the bounce buffer -/
  | fetchByte (off : Nat)
  /-- one byte of the direct copy, or of `Tier::write` -/
  | storeByte (off : Nat)
  /-- `migrate` from its copy on -/
  | moveLeave
  deriving DecidableEq, Repr

/-- The bookkeeping at the end of `migrate`.  Nobody but the scheduler reads a free list or a
location, so the slot it took earlier counts as taken here. -/
def rebind (p : BlockPool) (id : BlockId) (dst src : Location) : BlockPool :=
  { (p.popSlot dst.tier).pushSlot src.tier src.slot with
    location := Function.update p.location id dst }

def WorkerAct.isCopy : WorkerAct → Bool
  | .copy | .tear _ => true
  | _ => false

theorem workerStep_mem {act : WorkerAct} (ha : act.isCopy = false)
    (hp : p.workerStep w act = some p') : p'.mem = p.mem := by
  obtain ⟨_, -, -, -, rfl⟩ | ⟨_, _, -, -, -, rfl⟩ | ⟨_, _, rfl, -, -, -⟩ |
    ⟨_, _, _, rfl, -, -, -, -, -⟩ | ⟨_, _, -, -, -, rfl⟩ := workerStep_cases hp
  · rfl
  · rfl
  · cases ha
  · cases ha
  · rfl

namespace BytewisePool

abbrev pool (f : BytewisePool) : BlockPool := f.owned.pool

def setPool (f : BytewisePool) (p : BlockPool) : BytewisePool :=
  { f with owned := { f.owned with pool := p } }

/-- Both ends of the move are host addressable. -/
def direct (f : BytewisePool) (mv : Move) : Bool :=
  (f.pool.tiers (f.pool.location mv.id).tier).hostAddressable &&
    (f.pool.tiers mv.dst.tier).hostAddressable

def next (f : BytewisePool) : BytewiseOp → Option BytewisePool
  | .call op =>
    if f.move.isNone ∧ f.pool.NoCopy op then
      (f.owned.next (.pool op)).map fun owned => { f with owned }
    else none
  | .write id off b =>
    if f.move.all fun mv => mv.id != id then
      (f.owned.next (.write id off [b])).map fun owned => { f with owned }
    else none
  | .read id off =>
    if f.pool.refcount id ≠ 0 ∧ off < f.pool.blockBytes then some f else none
  | .worker w act =>
    if act.isCopy then none
    else (f.pool.workerStep w act).map fun p =>
      { f.setPool p with
        copied := if act = .check then Function.update f.copied w [] else f.copied }
  | .copyByte w off =>
    match f.pool.workers w with
    | .copying ptr => do
      let job ← f.pool.job? ptr
      if off < job.bytes ∧ off ∉ f.copied w then
        let mem :=
          Arena.memcpy f.pool.mem (job.dst.1, job.dst.2 + off) (job.src.1, job.src.2 + off) 1
        some { f.setPool { f.pool with mem } with
          copied := Function.update f.copied w (off :: f.copied w) }
      else none
    | _ => none
  | .copyReturn w =>
    match f.pool.workers w with
    | .copying ptr => do
      let job ← f.pool.job? ptr
      if ∀ off < job.bytes, off ∈ f.copied w then
        some (f.setPool { f.pool with
          workers := Function.update f.pool.workers w (.finishing ptr) })
      else none
    | _ => none
  | .moveEnter id dst =>
    if f.move.isNone then do
      let p := f.pool.cancelMigration id
      let loc ← (p.locate id).toOption
      if p.numTiers ≤ dst ∨ loc.tier = dst then none
      else
        match (p.tiers dst).freeSlots with
        | [] => none
        | slot :: _ => some { f.setPool p with move := some { id, dst := ⟨dst, slot⟩ } }
    else none
  | .fetchByte off => do
    let mv ← f.move
    if f.direct mv = false ∧ off < f.pool.blockBytes ∧ off ∉ mv.fetched then
      let src := f.pool.slotAddr (f.pool.location mv.id)
      some { f with move := some { mv with
        bounce := Function.update mv.bounce off (f.pool.mem src.1 (src.2 + off))
        fetched := off :: mv.fetched } }
    else none
  | .storeByte off => do
    let mv ← f.move
    let src := f.pool.slotAddr (f.pool.location mv.id)
    let dst := f.pool.slotAddr mv.dst
    if off < f.pool.blockBytes ∧ off ∉ mv.stored ∧
        (f.direct mv = true ∨ ∀ k < f.pool.blockBytes, k ∈ mv.fetched) then
      let mem :=
        if f.direct mv then Arena.memcpy f.pool.mem (dst.1, dst.2 + off) (src.1, src.2 + off) 1
        else Arena.write f.pool.mem (dst.1, dst.2 + off) [mv.bounce off]
      some { f.setPool { f.pool with mem } with
        move := some { mv with stored := off :: mv.stored } }
    else none
  | .moveLeave => do
    let mv ← f.move
    if ∀ off < f.pool.blockBytes, off ∈ mv.stored then
      some { f.setPool (f.pool.rebind mv.id mv.dst (f.pool.location mv.id)) with move := none }
    else none

def Step (f : BytewisePool) (op : BytewiseOp) (f' : BytewisePool) : Prop := f.next op = some f'

/-- What a step is. -/
inductive Steps (f : BytewisePool) : BytewiseOp → BytewisePool → Prop where
  | call {op : PoolOp} {owned : OwnedPool} (hm : f.move = none) (hn : f.pool.NoCopy op)
      (h : f.owned.next (.pool op) = some owned) : Steps f (.call op) { f with owned }
  | write {id : BlockId} {off : Nat} {b : UInt8} {owned : OwnedPool}
      (hm : ∀ mv, f.move = some mv → mv.id ≠ id)
      (h : f.owned.next (.write id off [b]) = some owned) :
      Steps f (.write id off b) { f with owned }
  | read {id : BlockId} {off : Nat} (hr : f.pool.refcount id ≠ 0) (hoff : off < f.pool.blockBytes) :
      Steps f (.read id off) f
  | worker {w : WorkerId} {act : WorkerAct} {p : BlockPool} (ha : act.isCopy = false)
      (h : f.pool.workerStep w act = some p) :
      Steps f (.worker w act) { f.setPool p with
        copied := if act = .check then Function.update f.copied w [] else f.copied }
  | copyByte {w : WorkerId} {off : Nat} {ptr : JobPtr} {j : MigrationJob}
      (hw : f.pool.workers w = .copying ptr) (hj : f.pool.job? ptr = some j) (hoff : off < j.bytes)
      (hnew : off ∉ f.copied w) :
      Steps f (.copyByte w off) { f.setPool { f.pool with
          mem := Arena.memcpy f.pool.mem (j.dst.1, j.dst.2 + off) (j.src.1, j.src.2 + off) 1 } with
        copied := Function.update f.copied w (off :: f.copied w) }
  | copyReturn {w : WorkerId} {ptr : JobPtr} {j : MigrationJob}
      (hw : f.pool.workers w = .copying ptr) (hj : f.pool.job? ptr = some j)
      (hall : ∀ off < j.bytes, off ∈ f.copied w) :
      Steps f (.copyReturn w) (f.setPool { f.pool with
        workers := Function.update f.pool.workers w (.finishing ptr) })
  | moveEnter {id : BlockId} {dst : TierIndex} {slot : Nat} {slots : List Nat} (hm : f.move = none)
      (hr : f.pool.refcount id ≠ 0) (ht : dst < f.pool.numTiers)
      (hne : (f.pool.location id).tier ≠ dst) (hsl : (f.pool.tiers dst).freeSlots = slot :: slots) :
      Steps f (.moveEnter id dst)
        { f.setPool (f.pool.cancelMigration id) with move := some { id, dst := ⟨dst, slot⟩ } }
  | fetchByte {mv : Move} {off : Nat} (hm : f.move = some mv) (hoff : off < f.pool.blockBytes) :
      Steps f (.fetchByte off) { f with move := some { mv with
        bounce := Function.update mv.bounce off
          (f.pool.mem (f.pool.slotAddr (f.pool.location mv.id)).1
            ((f.pool.slotAddr (f.pool.location mv.id)).2 + off))
        fetched := off :: mv.fetched } }
  | storeByte {mv : Move} {off : Nat} {mem : Arena.Mem TierIndex UInt8} (hm : f.move = some mv)
      (hoff : off < f.pool.blockBytes) (hnew : off ∉ mv.stored)
      (hmem : mem = Arena.memcpy f.pool.mem
          ((f.pool.slotAddr mv.dst).1, (f.pool.slotAddr mv.dst).2 + off)
          ((f.pool.slotAddr (f.pool.location mv.id)).1,
            (f.pool.slotAddr (f.pool.location mv.id)).2 + off) 1 ∨
        off ∈ mv.fetched ∧ mem = Arena.write f.pool.mem
          ((f.pool.slotAddr mv.dst).1, (f.pool.slotAddr mv.dst).2 + off) [mv.bounce off]) :
      Steps f (.storeByte off) { f.setPool { f.pool with mem } with
        move := some { mv with stored := off :: mv.stored } }
  | moveLeave {mv : Move} (hm : f.move = some mv)
      (hall : ∀ off < f.pool.blockBytes, off ∈ mv.stored) :
      Steps f .moveLeave
        { f.setPool (f.pool.rebind mv.id mv.dst (f.pool.location mv.id)) with move := none }

variable {f f' : BytewisePool} {i : Nat}

theorem next_cases {op : BytewiseOp} (h : f.next op = some f') : Steps f op f' := by
  cases op with
  | call op =>
    simp only [next] at h
    split at h
    · rename_i hc
      obtain ⟨owned, ho, rfl⟩ := Option.map_eq_some_iff.mp h
      exact .call (Option.isNone_iff_eq_none.mp hc.1) hc.2 ho
    · cases h
  | write id off b =>
    simp only [next] at h
    split at h
    · rename_i hc
      obtain ⟨owned, ho, rfl⟩ := Option.map_eq_some_iff.mp h
      refine .write (fun mv hmv => ?_) ho
      rw [hmv] at hc
      simpa using hc
    · cases h
  | read id off =>
    simp only [next] at h
    split at h
    · rename_i hc
      cases h
      exact .read hc.1 hc.2
    · cases h
  | worker w act =>
    simp only [next] at h
    split at h
    · cases h
    · rename_i ha
      obtain ⟨p, hp, rfl⟩ := Option.map_eq_some_iff.mp h
      exact .worker (Bool.eq_false_of_not_eq_true ha) hp
  | copyByte w off =>
    simp only [next] at h
    split at h
    · rename_i ptr hw
      obtain ⟨j, hj, h⟩ := Option.bind_eq_some_iff.mp h
      split at h
      · rename_i hc
        cases h
        exact .copyByte hw hj hc.1 hc.2
      · cases h
    · cases h
  | copyReturn w =>
    simp only [next] at h
    split at h
    · rename_i ptr hw
      obtain ⟨j, hj, h⟩ := Option.bind_eq_some_iff.mp h
      split at h
      · rename_i hc
        cases h
        exact .copyReturn hw hj hc
      · cases h
    · cases h
  | moveEnter id dst =>
    simp only [next] at h
    split at h
    swap
    · cases h
    rename_i hm
    obtain ⟨loc, hl, h⟩ := Option.bind_eq_some_iff.mp h
    obtain ⟨-, hr, rfl⟩ := locate_ok (toOption_eq_some hl)
    rw [cancel_refcount] at hr
    rw [cancel_location, cancel_numTiers, cancel_tiers] at h
    split at h
    · cases h
    rename_i hc
    rw [not_or] at hc
    split at h
    · cases h
    · rename_i slot slots hsl
      cases h
      exact .moveEnter (Option.isNone_iff_eq_none.mp hm) hr (Nat.not_le.mp hc.1) hc.2 hsl
  | fetchByte off =>
    obtain ⟨mv, hm, h⟩ := Option.bind_eq_some_iff.mp h
    split at h
    · rename_i hc
      cases h
      exact .fetchByte hm hc.2.1
    · cases h
  | storeByte off =>
    obtain ⟨mv, hm, h⟩ := Option.bind_eq_some_iff.mp h
    simp only at h
    split at h
    · rename_i hc
      cases h
      refine .storeByte hm hc.1 hc.2.1 ?_
      split
      · exact .inl rfl
      · rename_i hd
        exact .inr ⟨hc.2.2.resolve_left hd off hc.1, rfl⟩
    · cases h
  | moveLeave =>
    obtain ⟨mv, hm, h⟩ := Option.bind_eq_some_iff.mp h
    split at h
    · rename_i hc
      cases h
      exact .moveLeave hm hc
    · cases h

end BytewisePool

end BlockPool

end KvsLab
