import KvsLab.BlockPool.Drain
import Mathlib.Algebra.BigOperators.Group.Finset.Piecewise
import Mathlib.Algebra.Order.BigOperators.Group.Finset
import Mathlib.Algebra.Order.BigOperators.Group.List
import Mathlib.Data.List.TakeWhile

/-!
# Slot conservation over whole runs

* `PoolOp` / `next` — one step of a pool: a scheduler call on ids passing the pool's own checks,
  or one atomic action of one of any number of worker threads.
* `Inv.next` — every step keeps the invariant; `init_inv` — the constructor establishes it.
* `SlotConservation` — the invariant as lists: free, resident and reserved slots of a tier
  together are a rearrangement of `0 … N - 1`; free and allocated ids of `0 … total - 1`.
-/

namespace KvsLab

open Counting Transition

namespace BlockPool

variable {p p' : BlockPool} {id : BlockId} {w : WorkerId}

/-! ## Worker actions -/

/-- What a worker action did. -/
theorem workerStep_cases {act : WorkerAct} (he : p.workerStep w act = some p') :
    (∃ j, act = .claim ∧ p.workers w = .idle ∧ p.jobs[p.nextUnclaimed]? = some j ∧
      p' = { p with
        workers := Function.update p.workers w (.claimed j.ptr)
        nextUnclaimed := p.nextUnclaimed + 1 }) ∨
    (∃ ptr j, act = .check ∧ p.workers w = .claimed ptr ∧ p.job? ptr = some j ∧
      p' = { p with
        workers := Function.update p.workers w
          (if j.cancelled then .finishing ptr else .copying ptr) }) ∨
    (∃ ptr j, act = .copy ∧ p.workers w = .copying ptr ∧ p.job? ptr = some j ∧
      p' = { p with
        workers := Function.update p.workers w (.finishing ptr)
        mem := Arena.memcpy p.mem j.dst j.src j.bytes }) ∨
    (∃ bs ptr j, act = .tear bs ∧ p.workers w = .copying ptr ∧ p.job? ptr = some j ∧
      j.cancelled = true ∧ bs.length = j.bytes ∧
      p' = { p with mem := Arena.write p.mem j.dst bs }) ∨
    (∃ ptr j, act = .finish ∧ p.workers w = .finishing ptr ∧ p.job? ptr = some j ∧
      p' = { p with
        jobs := p.jobs.map fun j => if j.ptr = ptr then { j with done := true } else j
        workers := Function.update p.workers w .idle }) := by
  unfold workerStep at he
  split at he
  · rename_i hw
    obtain ⟨j, hj, he⟩ := Option.bind_eq_some_iff.mp he
    cases he
    exact Or.inl ⟨j, rfl, hw, hj, rfl⟩
  · rename_i ptr hw
    obtain ⟨j, hj, he⟩ := Option.bind_eq_some_iff.mp he
    cases he
    exact Or.inr (Or.inl ⟨ptr, j, rfl, hw, hj, rfl⟩)
  · rename_i ptr hw
    obtain ⟨j, hj, he⟩ := Option.bind_eq_some_iff.mp he
    cases he
    exact Or.inr (Or.inr (Or.inl ⟨ptr, j, rfl, hw, hj, rfl⟩))
  · rename_i bs ptr hw
    obtain ⟨j, hj, he⟩ := Option.bind_eq_some_iff.mp he
    split at he
    · rename_i hc
      cases he
      simp only [Bool.and_eq_true, beq_iff_eq] at hc
      exact Or.inr (Or.inr (Or.inr (Or.inl ⟨bs, ptr, j, rfl, hw, hj, hc.1, hc.2, rfl⟩)))
    · cases he
  · rename_i ptr hw
    obtain ⟨j, hj, he⟩ := Option.bind_eq_some_iff.mp he
    cases he
    exact Or.inr (Or.inr (Or.inr (Or.inr ⟨ptr, j, rfl, hw, hj, rfl⟩)))
  · cases he

/-- The bookkeeping a worker action leaves alone. -/
structure SameBooks (p p' : BlockPool) : Prop where
  shape : SameShape p p'
  tiers : p'.tiers = p.tiers
  location : p'.location = p.location
  refcount : p'.refcount = p.refcount
  freeIds : p'.freeIds = p.freeIds
  migratingIds : p'.migratingIds = p.migratingIds
  nextJob : p'.nextJob = p.nextJob
  freed : p'.freed = p.freed
  jobs : ∃ f : MigrationJob → MigrationJob, p'.jobs = p.jobs.map f ∧
    ∀ j, f j = j ∨ f j = { j with done := true }

theorem SameBooks.workerStep {act : WorkerAct} (he : p.workerStep w act = some p') :
    SameBooks p p' := by
  have hs : SameShape p p := SameShape.refl p
  have hid : ∃ f : MigrationJob → MigrationJob, p.jobs = p.jobs.map f ∧
      ∀ j, f j = j ∨ f j = { j with done := true } :=
    ⟨fun j => j, (List.map_id _).symm, fun j => Or.inl rfl⟩
  obtain ⟨j, _, _, _, rfl⟩ | ⟨ptr, j, _, _, _, rfl⟩ | ⟨ptr, j, _, _, _, rfl⟩ |
    ⟨bs, ptr, j, _, _, _, _, _, rfl⟩ | ⟨ptr, j, _, _, _, rfl⟩ := workerStep_cases he
  · exact ⟨⟨hs.1, hs.2, hs.3, hs.4, hs.5⟩, rfl, rfl, rfl, rfl, rfl, rfl, rfl, hid⟩
  · exact ⟨⟨hs.1, hs.2, hs.3, hs.4, hs.5⟩, rfl, rfl, rfl, rfl, rfl, rfl, rfl, hid⟩
  · exact ⟨⟨hs.1, hs.2, hs.3, hs.4, hs.5⟩, rfl, rfl, rfl, rfl, rfl, rfl, rfl, hid⟩
  · exact ⟨⟨hs.1, hs.2, hs.3, hs.4, hs.5⟩, rfl, rfl, rfl, rfl, rfl, rfl, rfl, hid⟩
  · refine ⟨⟨hs.1, hs.2, hs.3, hs.4, hs.5⟩, rfl, rfl, rfl, rfl, rfl, rfl, rfl, _, rfl, ?_⟩
    intro j
    by_cases e : j.ptr = ptr
    · exact Or.inr (if_pos e)
    · exact Or.inl (if_neg e)

theorem Inv.workerStep (h : p.Inv) {act : WorkerAct} (he : p.workerStep w act = some p') :
    p'.Inv := by
  have hb := SameBooks.workerStep he
  obtain ⟨f, hf, hfj⟩ := hb.jobs
  exact h.of_done hfj hb.shape hf hb.migratingIds hb.nextJob hb.tiers hb.freeIds hb.refcount
    hb.location

/-! ## Steps and runs -/

/-- A scheduler call, or an action of worker `w`. -/
inductive PoolOp where
  | allocate
  | incref (id : BlockId)
  | decref (id : BlockId)
  | migrate (id : BlockId) (dst : TierIndex)
  | migrateAsync (id : BlockId) (dst : TierIndex)
  | cancelMigration (id : BlockId)
  | drainMigrations
  | waitForMigrations
  | worker (w : WorkerId) (act : WorkerAct)
  deriving DecidableEq, Repr

/-- One step.  A call that fails its own checks, a reference past `2 ^ 32 - 1`, a blocked wait and
an action a worker is not at are no steps. -/
def next (p : BlockPool) : PoolOp → Option BlockPool
  | .allocate => p.allocate.toOption.map (·.2)
  | .incref id => if p.refcount id + 1 < 2 ^ 32 then (p.incref id).toOption else none
  | .decref id => (p.decref id).toOption.map (·.2)
  | .migrate id dst => (p.migrate id dst).toOption.map (·.2)
  | .migrateAsync id dst => (p.migrateAsync id dst).toOption.map (·.2)
  | .cancelMigration id => some (p.cancelMigration id)
  | .drainMigrations => some p.drainMigrations
  | .waitForMigrations => p.waitForMigrations
  | .worker w act => p.workerStep w act

/-- Steps as a relation. -/
def Step (p : BlockPool) (op : PoolOp) (p' : BlockPool) : Prop := p.next op = some p'

theorem toOption_eq_some {ε α : Type} {x : Except ε α} {a : α} (h : x.toOption = some a) :
    x = .ok a := by
  cases x with
  | error e => cases h
  | ok b => cases h; rfl

theorem toOption_snd {ε α β : Type} {x : Except ε (α × β)} {b : β}
    (h : x.toOption.map (·.2) = some b) : ∃ a, x = .ok (a, b) := by
  obtain ⟨⟨a, b'⟩, hx, rfl⟩ := Option.map_eq_some_iff.mp h
  exact ⟨a, toOption_eq_some hx⟩

/-- A `decref` that returns is a step. -/
theorem decref_step {r : Bool} (h : p.decref id = .ok (r, p')) : Step p (.decref id) p' := by
  show (p.decref id).toOption.map (·.2) = some p'
  rw [h]
  rfl

theorem waitForMigrations_ok (he : p.waitForMigrations = some p') :
    (∀ j ∈ p.jobs, j.done = true) ∧ p' = p.drainMigrations := by
  unfold waitForMigrations at he
  split at he
  · rename_i hall
    cases he
    exact ⟨List.all_eq_true.mp hall, rfl⟩
  · cases he

/-- **Every step keeps the invariant.** -/
theorem Inv.next (h : p.Inv) {op : PoolOp} (he : Step p op p') : p'.Inv := by
  unfold Step at he
  cases op with
  | allocate =>
    obtain ⟨id, he⟩ := toOption_snd he
    exact h.allocate he
  | incref id =>
    simp only [BlockPool.next] at he
    split at he
    · rename_i hlt
      exact h.incref hlt (toOption_eq_some he)
    · cases he
  | decref id =>
    obtain ⟨b, he⟩ := toOption_snd he
    exact h.decref he
  | migrate id dst =>
    obtain ⟨b, he⟩ := toOption_snd he
    exact h.migrate he
  | migrateAsync id dst =>
    obtain ⟨b, he⟩ := toOption_snd he
    exact h.migrateAsync he
  | cancelMigration id =>
    cases he
    exact h.cancelMigration id
  | drainMigrations =>
    cases he
    exact h.drainMigrations
  | waitForMigrations =>
    rw [(waitForMigrations_ok he).2]
    exact h.drainMigrations
  | worker w act => exact h.workerStep he

/-- No step changes the shape of the pool. -/
theorem SameShape.next {op : PoolOp} (he : Step p op p') : SameShape p p' := by
  cases op with
  | allocate =>
    obtain ⟨a, ha⟩ := toOption_snd he
    unfold BlockPool.allocate at ha
    split at ha
    · split at ha
      · cases ha
      · cases ha
        exact .takeBlock p _ _
    · cases ha
      exact .refl p
  | incref id =>
    simp only [Step, BlockPool.next] at he
    split at he
    · obtain ⟨-, -, rfl⟩ := incref_ok (toOption_eq_some he)
      exact ⟨rfl, rfl, rfl, fun _ => rfl, fun _ => rfl⟩
    · cases he
  | decref id =>
    obtain ⟨a, ha⟩ := toOption_snd he
    obtain ⟨-, ⟨-, -, rfl⟩ | ⟨-, -, rfl⟩⟩ := decref_ok ha
    · exact (SameShape.cancelMigration p id).trans (.freeBlock _ id)
    · exact ⟨rfl, rfl, rfl, fun _ => rfl, fun _ => rfl⟩
  | migrate id dst =>
    obtain ⟨a, ha⟩ := toOption_snd he
    have hc := SameShape.cancelMigration p id
    obtain ⟨-, -, ⟨-, -, rfl⟩ | ⟨-, -, -, rfl⟩ | ⟨-, -, slot, slots, -, rfl⟩⟩ := migrate_cases ha
    · exact hc
    · exact hc
    · exact hc.trans (.moveBlock _ id _ _)
  | migrateAsync id dst =>
    obtain ⟨a, ha⟩ := toOption_snd he
    obtain ⟨-, -, ⟨-, rfl, -⟩ | ⟨-, -, -, slot, slots, -, rfl⟩⟩ := migrateAsync_cases ha
    · exact .refl _
    · exact .enqueue p id _ _
  | cancelMigration id =>
    cases he
    exact .cancelMigration p id
  | drainMigrations =>
    cases he
    exact .drainMigrations p
  | waitForMigrations =>
    obtain ⟨-, rfl⟩ := waitForMigrations_ok he
    exact .drainMigrations p
  | worker w act => exact (SameBooks.workerStep he).shape

/-! ## The constructor -/

/-- A tier that is accepted. -/
theorem initTier_accepts {b : Nat} {spec : TierSpec} {st : TierState}
    (h : initTier b spec = .ok st) : ∃ tier, spec.tier = some tier ∧
      sizeMul spec.numBlocks b ≤ tier.capacityBytes ∧ spec.numBlocks ≤ maxSize 4 ∧
      st = ⟨tier.hostAddressable, spec.numBlocks, (List.range spec.numBlocks).map toU32⟩ := by
  unfold initTier at h
  split at h
  · cases h
  rename_i tier htier
  split at h
  · cases h
  rename_i hcap
  split at h
  · cases h
  rename_i hmax
  cases h
  exact ⟨tier, htier, Nat.not_lt.mp hcap, Nat.not_lt.mp hmax, rfl⟩

theorem initTier_ok {b : Nat} {spec : TierSpec} {st : TierState} (h : initTier b spec = .ok st) :
    st.numBlocks = spec.numBlocks ∧ st.freeSlots = (List.range spec.numBlocks).map toU32 := by
  obtain ⟨tier, -, -, -, rfl⟩ := initTier_accepts h
  exact ⟨rfl, rfl⟩

theorem initTiers_ok {b : Nat} : ∀ {specs : List TierSpec} {states : List TierState},
    specs.mapM (initTier b) = .ok states →
      List.Forall₂ (fun spec st => initTier b spec = .ok st) specs states
  | [], states, h => by
    rw [List.mapM_nil] at h
    cases h
    exact List.Forall₂.nil
  | spec :: specs, states, h => by
    rw [List.mapM_cons] at h
    simp only [bind, Except.bind] at h
    split at h
    · cases h
    · rename_i st hst
      split at h
      · cases h
      · rename_i rest hrest
        cases h
        exact List.Forall₂.cons hst (initTiers_ok hrest)

theorem totalBlocks_eq (specs : List TierSpec) (h : (specs.map (·.numBlocks)).sum < 2 ^ 32) :
    totalBlocks specs = (specs.map (·.numBlocks)).sum := by
  have key : ∀ (specs : List TierSpec) (n : Nat), n + (specs.map (·.numBlocks)).sum < 2 ^ 32 →
      specs.foldl (fun n spec => (n + spec.numBlocks) % 2 ^ 64) n =
        n + (specs.map (·.numBlocks)).sum := by
    intro specs
    induction specs with
    | nil => intro n _; simp
    | cons spec specs ih =>
      intro n hn
      rw [List.map_cons, List.sum_cons] at hn ⊢
      rw [List.foldl_cons, Nat.mod_eq_of_lt (by omega), ih _ (by omega)]
      omega
  have := key specs 0 (by omega)
  rw [Nat.zero_add] at this
  exact this

theorem map_toU32_range {n : Nat} (h : n ≤ 2 ^ 32) : (List.range n).map toU32 = List.range n := by
  refine (List.map_congr_left fun i hi => ?_).trans (List.map_id _)
  exact toU32_of_lt (Nat.lt_of_lt_of_le (List.mem_range.mp hi) h)

theorem sum_range_getD : ∀ {specs : List TierSpec} {states : List TierState},
    List.Forall₂ (fun spec st => st.numBlocks = spec.numBlocks) specs states →
      ∑ t ∈ Finset.range states.length, (states.getD t {}).numBlocks =
        (specs.map (·.numBlocks)).sum := by
  intro specs states h
  induction h with
  | nil => simp
  | @cons spec st specs states hst _ ih =>
    rw [List.length_cons, Finset.sum_range_succ', List.map_cons, List.sum_cons, ← ih, ← hst]
    simp [Nat.add_comm]

theorem init_ok {cfg : CacheConfig} {specs : List TierSpec} {mem : Arena.Mem TierIndex UInt8}
    (h : init cfg specs mem = .ok p) : specs ≠ [] ∧ ∃ states,
      List.Forall₂ (fun spec st => initTier cfg.blockBytes spec = .ok st) specs states ∧
      p = fresh cfg.blockBytes states (totalBlocks specs) mem := by
  unfold init at h
  split at h
  · cases h
  rename_i hne
  simp only [bind, Except.bind] at h
  split at h
  · cases h
  rename_i states hst
  split at h
  · cases h
  · cases h
    exact ⟨by simpa using hne, states, initTiers_ok hst, rfl⟩

/-- No vector of a new pool is too long. -/
theorem init_lengths {cfg : CacheConfig} {specs : List TierSpec} {mem : Arena.Mem TierIndex UInt8}
    (h : init cfg specs mem = .ok p) :
    totalBlocks specs ≤ maxSize 8 ∧ cfg.blockBytes ≤ maxSize 1 := by
  unfold init at h
  split at h
  · cases h
  simp only [bind, Except.bind] at h
  split at h
  · cases h
  split at h
  · cases h
  · omega

/-- The tiers of a new pool come from the specs, in order. -/
theorem init_tier_at {cfg : CacheConfig} {specs : List TierSpec} {mem : Arena.Mem TierIndex UInt8}
    (h : init cfg specs mem = .ok p) {t : TierIndex} {spec : TierSpec}
    (hs : specs[t]? = some spec) : initTier cfg.blockBytes spec = .ok (p.tiers t) := by
  obtain ⟨_, states, hall, rfl⟩ := init_ok h
  obtain ⟨ht, rfl⟩ := List.getElem?_eq_some_iff.mp hs
  have ht' : t < states.length := hall.length_eq ▸ ht
  have hg : (fresh cfg.blockBytes states (totalBlocks specs) mem).tiers t =
      states.get ⟨t, ht'⟩ := by
    simp [fresh, List.getD, ht']
  rw [hg]
  exact hall.get ht ht'

/-- Every tier of a new pool comes from a spec. -/
theorem init_tier {cfg : CacheConfig} {specs : List TierSpec} {mem : Arena.Mem TierIndex UInt8}
    (h : init cfg specs mem = .ok p) {t : TierIndex} (ht : t < p.numTiers) :
    ∃ spec ∈ specs, initTier cfg.blockBytes spec = .ok (p.tiers t) := by
  have hlen : t < specs.length := by
    obtain ⟨_, states, hall, rfl⟩ := init_ok h
    exact hall.length_eq ▸ ht
  exact ⟨_, List.getElem_mem hlen, init_tier_at h (List.getElem?_eq_getElem hlen)⟩

/-- A fresh pool whose free lists are complete satisfies the invariant. -/
theorem fresh_inv {bytes total : Nat} {states : List TierState} {mem : Arena.Mem TierIndex UInt8}
    (hpos : 0 < states.length) (hlt : total < 2 ^ 32)
    (htot : ∑ t ∈ Finset.range states.length, (states.getD t {}).numBlocks = total)
    (hfree : ∀ t < states.length,
      (states.getD t {}).freeSlots = List.range (states.getD t {}).numBlocks) :
    (fresh bytes states total mem).Inv := by
  refine ⟨hpos, hlt, htot, fun l hl => ?_, fun id => ?_, fun id => Nat.two_pow_pos 32,
    fun id hr => absurd rfl hr, ?_, ?_, List.nodup_nil, ?_, rfl, List.nodup_nil, ?_⟩
  · have hres : (fresh bytes states total mem).residentCount l = 0 := by
      rw [residentCount, List.countP_eq_zero]
      intro id _
      simp [residesAt, fresh]
    have hrs : (fresh bytes states total mem).reservedCount l = 0 := rfl
    have hf : (fresh bytes states total mem).freeCount l =
        (List.range (states.getD l.tier {}).numBlocks).count l.slot := by
      unfold freeCount
      rw [← hfree l.tier hl]
      rfl
    rw [hres, hrs, hf, Nat.add_zero, count_range]
    rfl
  · show ((List.range total).map toU32).count id + _ = _
    rw [map_toU32_range hlt.le, count_range]
    rfl
  · intro j hj; cases hj
  · intro j hj; cases hj
  · intro j hj; cases hj
  · intro j hj; cases hj

/-- **The constructor establishes the invariant** when the blocks fit 32-bit ids. -/
theorem init_inv {cfg : CacheConfig} {specs : List TierSpec} {mem : Arena.Mem TierIndex UInt8}
    (h : init cfg specs mem = .ok p) (hfit : (specs.map (·.numBlocks)).sum < 2 ^ 32) : p.Inv := by
  obtain ⟨hne, states, hall, rfl⟩ := init_ok h
  have htot := totalBlocks_eq specs hfit
  have hlen := hall.length_eq
  have hsum := sum_range_getD (hall.imp fun _ _ h => (initTier_ok h).1)
  refine fresh_inv ?_ (htot ▸ hfit) (hsum.trans htot.symm) fun t ht => ?_
  · rw [← hlen]
    exact List.length_pos_iff.mpr hne
  · obtain ⟨spec, hs, htier⟩ := init_tier h ht
    have htier : initTier cfg.blockBytes spec = .ok (states.getD t {}) := htier
    obtain ⟨h1, h2⟩ := initTier_ok htier
    have hle : spec.numBlocks ≤ (specs.map (·.numBlocks)).sum :=
      List.le_sum_of_mem (List.mem_map_of_mem hs)
    rw [h2, h1, map_toU32_range (hle.trans hfit.le)]

/-! ## Conservation -/

/-- Allocated ids. -/
def allocatedIds (p : BlockPool) : List BlockId :=
  (List.range p.numBlocks).filter fun id => p.refcount id != 0

/-- Slots of the allocated ids located in tier `t`. -/
def residentSlots (p : BlockPool) (t : TierIndex) : List Nat :=
  (p.allocatedIds.filter fun id => (p.location id).tier == t).map fun id => (p.location id).slot

/-- Destination slots of the jobs still queued for tier `t`. -/
def reservedSlots (p : BlockPool) (t : TierIndex) : List Nat :=
  (p.jobs.filter fun j => j.dstTier == t).map (·.dstSlot)

/-- Every slot and every id has exactly one owner, and the in-flight map lists exactly the
uncancelled jobs. -/
structure SlotConservation (p : BlockPool) : Prop where
  slots : ∀ t < p.numTiers,
    ((p.tiers t).freeSlots ++ p.residentSlots t ++ p.reservedSlots t).Perm
      (List.range (p.tiers t).numBlocks)
  ids : (p.freeIds ++ p.allocatedIds).Perm (List.range p.numBlocks)
  inFlight : p.migratingIds = (p.jobs.filter fun j => !j.cancelled).map fun j => (j.id, j.ptr)
  onePerId : (p.migratingIds.map (·.1)).Nodup
  source : ∀ j ∈ p.jobs, j.cancelled = false → j.id ∈ p.allocatedIds ∧
    j.src = p.slotAddr (p.location j.id) ∧ (p.location j.id).tier ≠ j.dstTier

theorem mem_allocatedIds (h : p.Inv) : id ∈ p.allocatedIds ↔ p.refcount id ≠ 0 := by
  simp only [allocatedIds, List.mem_filter, List.mem_range, bne_iff_ne]
  exact ⟨fun hx => hx.2, fun hr => ⟨h.lt_of_refcount hr, hr⟩⟩

theorem count_residentSlots (p : BlockPool) (t : TierIndex) (s : Nat) :
    (p.residentSlots t).count s = p.residentCount ⟨t, s⟩ := by
  unfold residentSlots allocatedIds residentCount
  rw [List.filter_filter, List.count_eq_countP, List.countP_map, List.countP_filter]
  apply List.countP_congr
  intro id _
  simp only [Function.comp_apply, residesAt, Bool.and_eq_true, beq_iff_eq, bne_iff_ne]
  constructor
  · rintro ⟨hs, ht, hr⟩
    exact ⟨hr, by rw [← hs, ← ht]⟩
  · rintro ⟨hr, hl⟩
    rw [hl]
    exact ⟨rfl, rfl, hr⟩

theorem count_reservedSlots (p : BlockPool) (t : TierIndex) (s : Nat) :
    (p.reservedSlots t).count s = p.reservedCount ⟨t, s⟩ := by
  unfold reservedSlots reservedCount
  rw [List.count_eq_countP, List.countP_map, List.countP_filter]
  apply List.countP_congr
  intro j _
  simp only [Function.comp_apply, Bool.and_eq_true, beq_iff_eq, MigrationJob.dstLoc,
    Location.mk.injEq]
  exact and_comm

theorem Inv.slots_perm (h : p.Inv) {t : TierIndex} (ht : t < p.numTiers) :
    ((p.tiers t).freeSlots ++ p.residentSlots t ++ p.reservedSlots t).Perm
      (List.range (p.tiers t).numBlocks) := by
  apply perm_range_of_count
  intro s
  rw [List.count_append, List.count_append, count_residentSlots, count_reservedSlots]
  exact h.slots ⟨t, s⟩ ht

theorem Inv.ids_perm (h : p.Inv) : (p.freeIds ++ p.allocatedIds).Perm (List.range p.numBlocks) := by
  apply perm_range_of_count
  intro id
  rw [List.count_append, ← h.ids id]
  congr 1
  split
  · rename_i hr
    exact List.count_eq_zero_of_not_mem fun hm => (mem_allocatedIds h).mp hm hr
  · rename_i hr
    exact List.count_eq_one_of_mem (List.nodup_range.filter _) ((mem_allocatedIds h).mpr hr)

theorem Inv.conservation (h : p.Inv) : SlotConservation p := by
  refine ⟨fun t ht => h.slots_perm ht, h.ids_perm, h.migrating_eq, ?_, ?_⟩
  · rw [h.migrating_eq, List.map_map]
    exact h.flight_ids
  · intro j hj hc
    obtain ⟨hr, hsrc, hne⟩ := h.flight j (mem_flights.mpr ⟨hj, hc⟩)
    exact ⟨(mem_allocatedIds h).mpr hr, hsrc, hne⟩

/-- Free, resident and reserved slots of a tier add up to its size. -/
theorem Inv.tier_total (h : p.Inv) {t : TierIndex} (ht : t < p.numTiers) :
    (p.tiers t).freeSlots.length + (p.residentSlots t).length + (p.reservedSlots t).length =
      (p.tiers t).numBlocks := by
  have := (h.slots_perm ht).length_eq
  rw [List.length_append, List.length_append, List.length_range] at this
  exact this

/-- The residents of all tiers are the allocated blocks. -/
theorem sum_residentSlots (h : p.Inv) :
    ∑ t ∈ Finset.range p.numTiers, (p.residentSlots t).length = p.allocatedIds.length := by
  have key : ∀ L : List BlockId, (∀ id ∈ L, (p.location id).tier < p.numTiers) →
      ∑ t ∈ Finset.range p.numTiers,
        (L.filter fun id => (p.location id).tier == t).length = L.length := by
    intro L
    induction L with
    | nil => simp
    | cons id L ih =>
      intro hL
      have hid := hL id List.mem_cons_self
      have hrec := ih fun x hx => hL x (List.mem_cons_of_mem _ hx)
      have hsplit : ∀ t, ((id :: L).filter fun id => (p.location id).tier == t).length =
          (L.filter fun id => (p.location id).tier == t).length +
            if (p.location id).tier = t then 1 else 0 := by
        intro t
        rw [List.filter_cons]
        by_cases e : (p.location id).tier = t
        · simp [e]
        · simp [e]
      rw [Finset.sum_congr rfl fun t _ => hsplit t, Finset.sum_add_distrib, hrec,
        Finset.sum_ite_eq, if_pos (Finset.mem_range.mpr hid), List.length_cons]
  have := key p.allocatedIds fun id hid => h.loc_tier id ((mem_allocatedIds h).mp hid)
  rw [← this]
  exact Finset.sum_congr rfl fun t _ => by rw [residentSlots, List.length_map]

/-- The ids cannot run out before the slots of tier 0 do. -/
theorem Inv.freeIds_ne_nil (h : p.Inv) (hs : (p.tiers 0).freeSlots ≠ []) : p.freeIds ≠ [] := by
  intro hnil
  have hids := h.ids_perm.length_eq
  rw [hnil, List.nil_append, List.length_range] at hids
  have hsum := sum_residentSlots h
  have h0 : 0 ∈ Finset.range p.numTiers := Finset.mem_range.mpr h.tiers_pos
  have hle : ∑ t ∈ Finset.range p.numTiers, (p.residentSlots t).length +
      (p.tiers 0).freeSlots.length ≤ ∑ t ∈ Finset.range p.numTiers, (p.tiers t).numBlocks := by
    rw [← Finset.sum_erase_add _ _ h0, ← Finset.sum_erase_add _ _ h0, Nat.add_assoc]
    apply Nat.add_le_add
    · apply Finset.sum_le_sum
      intro t ht
      have := h.tier_total (Finset.mem_range.mp (Finset.mem_of_mem_erase ht))
      omega
    · have := h.tier_total h.tiers_pos
      omega
  rw [h.total, hsum, hids] at hle
  have : (p.tiers 0).freeSlots.length = 0 := by omega
  exact hs (List.length_eq_zero_iff.mp this)

/-- `allocate` returns, and it returns an id exactly when tier 0 has a free slot. -/
theorem Inv.allocate_total (h : p.Inv) :
    ∃ id p', p.allocate = .ok (id, p') ∧ (id = kInvalidBlock → (p.tiers 0).freeSlots = []) := by
  rcases h.allocate_cases with ⟨he, hor⟩ | ⟨id, ids, slot, slots, hi, hsl, _, hid, he⟩
  · refine ⟨_, _, he, fun _ => ?_⟩
    by_contra hne
    rcases hor with e | e
    · exact h.freeIds_ne_nil hne e
    · exact hne e
  · refine ⟨_, _, he, fun e => ?_⟩
    have hlt := h.blocks_lt
    have hk : kInvalidBlock < p.numBlocks := e ▸ hid
    have hk' : 2 ^ 32 - 1 < p.numBlocks := hk
    omega

theorem dropWhile_done {js : List MigrationJob} (h : ∀ j ∈ js, j.done = true) :
    js.dropWhile (·.done) = [] := by
  rw [List.dropWhile_eq_nil_iff]
  exact h

/-- After a wait nothing is queued or in flight, and every slot is free or resident. -/
theorem Inv.waited (h : p.Inv) (hw : p.waitForMigrations = some p') :
    p'.jobs = [] ∧ p'.migratingIds = [] ∧ ∀ t < p'.numTiers,
      (p'.tiers t).freeSlots.length + (p'.residentSlots t).length = (p'.tiers t).numBlocks := by
  obtain ⟨hall, rfl⟩ := waitForMigrations_ok hw
  have hj : p.drainMigrations.jobs = [] := by rw [drain_jobs, dropWhile_done hall]
  have hi := h.drainMigrations
  refine ⟨hj, ?_, fun t ht => ?_⟩
  · rw [hi.migrating_eq, flights, hj]
    rfl
  · have := hi.tier_total ht
    rw [reservedSlots, hj] at this
    simpa using this

/-- **Slot conservation under asynchronous migration.**  In every state a pool reaches by any
interleaving of scheduler calls and worker actions, each slot of each tier is listed exactly
once among the free list, the residents and the reservations, and each id exactly once among
the free and the allocated ones; the in-flight map lists exactly the uncancelled jobs, one per
id, each of an allocated block still at the job's source.  So `allocate` fails only when tier 0
is full, and after `wait_for_migrations` every slot is free or resident. -/
theorem slot_conservation {cfg : CacheConfig} {specs : List TierSpec}
    {mem : Arena.Mem TierIndex UInt8} {p₀ p : BlockPool} {tr : List PoolOp}
    (h0 : init cfg specs mem = .ok p₀) (hfit : (specs.map (·.numBlocks)).sum < 2 ^ 32)
    (hrun : Run Step p₀ tr p) :
    SlotConservation p ∧
    (∃ id p', p.allocate = .ok (id, p') ∧ (id = kInvalidBlock → (p.tiers 0).freeSlots = [])) ∧
    (∀ p', p.waitForMigrations = some p' → p'.jobs = [] ∧ p'.migratingIds = [] ∧
      ∀ t < p'.numTiers, (p'.tiers t).freeSlots.length + (p'.residentSlots t).length =
        (p'.tiers t).numBlocks) := by
  have h : p.Inv := hrun.invariant (fun _ _ _ hi hs => hi.next hs) (init_inv h0 hfit)
  exact ⟨h.conservation, h.allocate_total, fun _ hw => h.waited hw⟩

/-- A small geometry: blocks of 8 bytes, two compute slots and one spill slot. -/
def smallConfig : CacheConfig :=
  { numBlocks := 0, blockTokens := 4, numLayers := 1, numKvHeads := 1, headDim := 1, dtypeBytes := 1 }

def smallSpecs : List TierSpec := [⟨some ⟨4096, true⟩, 2⟩, ⟨some ⟨4096, true⟩, 1⟩]

/-- A block is freed while its demotion is being copied, and its id is handed out again. -/
def reuseTrace : List PoolOp :=
  [.allocate, .migrateAsync 0 1, .worker 0 .claim, .worker 0 .check, .decref 0, .allocate,
    .worker 0 (.tear [1, 2, 3, 4, 5, 6, 7, 8]), .worker 0 .copy, .worker 0 .finish]

theorem slot_conservation_reuse : ∃ p₀ p, init smallConfig smallSpecs (fun _ _ => 0) = .ok p₀ ∧
    Run Step p₀ reuseTrace p ∧ p.jobs.length = 1 ∧ SlotConservation p := by
  have hs : ((init smallConfig smallSpecs (fun _ _ => 0)).toOption.bind fun p₀ =>
      (exec next p₀ reuseTrace).map fun p => p.jobs.length) = some 1 := by decide
  obtain ⟨p₀, h0, hp⟩ := Option.bind_eq_some_iff.mp hs
  obtain ⟨p, hx, hlen⟩ := Option.map_eq_some_iff.mp hp
  have hi := toOption_eq_some h0
  have hr : Run Step p₀ reuseTrace p := run_of_exec hx
  exact ⟨p₀, p, hi, hr, hlen, (slot_conservation hi (by decide) hr).1⟩

end BlockPool

end KvsLab
