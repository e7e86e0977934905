import KvsLab.BlockPool.Bytes

/-!
# Promotions land where synchronous moves would have put them

`landed p` is the pool `p` once every queued job has been copied and settled in queue order, with
the workers back at rest.  It is the view of a pool with promotions in flight that a pool without
a queue can have.

* `Rising` — every queued job is a promotion that nobody cancelled.
* `landed_enqueue` — queueing a promotion is, in that view, the synchronous move.
* `landed_takeBlock` — allocating a block is the same before and after the landing: promotions give
  back spill slots only.
* `Rising.workerStep` — **no action of a worker changes the view**: the copies read and write
  disjoint slots, so it does not matter when and in which order they are made.
* `Rising.waited` — a wait that returns leaves the view.
-/

namespace KvsLab

open Transition

/-- Where the free slots and the blocks are. -/
@[ext] structure Layout where
  tiers : TierIndex → TierState
  location : BlockId → Location

namespace Layout

variable {l : Layout} {j k : MigrationJob} {js : List MigrationJob} {id x : BlockId} {loc : Location}

/-- A job lands: the block is rebound and the slot it came from is free. -/
def land (l : Layout) (j : MigrationJob) : Layout where
  tiers :=
    let src := l.location j.id
    Function.update l.tiers src.tier
      { l.tiers src.tier with freeSlots := src.slot :: (l.tiers src.tier).freeSlots }
  location := Function.update l.location j.id j.dstLoc

/-- The top compute slot is taken, and block `x` bound to `loc`. -/
def pop (l : Layout) (x : BlockId) (loc : Location) : Layout where
  tiers := Function.update l.tiers 0 { l.tiers 0 with freeSlots := (l.tiers 0).freeSlots.tail }
  location := Function.update l.location x loc

/-- The jobs bring different blocks up from spill tiers. -/
structure Rises (l : Layout) (js : List MigrationJob) : Prop where
  nodup : (js.map (·.id)).Nodup
  spill : ∀ j ∈ js, (l.location j.id).tier ≠ 0

theorem land_location_of_ne (h : id ≠ j.id) : (l.land j).location id = l.location id :=
  Function.update_of_ne h _ _

theorem Rises.land (h : Rises l (j :: js)) : Rises (l.land j) js := by
  have hn := h.nodup
  rw [List.map_cons, List.nodup_cons] at hn
  refine ⟨hn.2, fun k hk => ?_⟩
  rw [land_location_of_ne fun e => hn.1 (e ▸ List.mem_map_of_mem hk)]
  exact h.spill k (List.mem_cons_of_mem _ hk)

theorem lands_location_of_ne : ∀ {js : List MigrationJob} {l : Layout}, (∀ j ∈ js, j.id ≠ id) →
    (js.foldl land l).location id = l.location id
  | [], _, _ => rfl
  | j :: js, l, h => by
    rw [List.foldl_cons, lands_location_of_ne fun k hk => h k (List.mem_cons_of_mem _ hk),
      land_location_of_ne (h j List.mem_cons_self).symm]

theorem lands_location : ∀ {js : List MigrationJob} {l : Layout}, Rises l js → j ∈ js →
    (js.foldl land l).location j.id = j.dstLoc
  | k :: js, l, h, hj => by
    have hn := h.nodup
    rw [List.map_cons, List.nodup_cons] at hn
    rw [List.foldl_cons]
    rcases List.mem_cons.mp hj with rfl | hj
    · have hne : ∀ i ∈ js, i.id ≠ j.id := fun i hi e => hn.1 (e ▸ List.mem_map_of_mem hi)
      rw [lands_location_of_ne hne]
      exact Function.update_self _ _ _
    · exact lands_location h.land hj

/-- The compute tier gets no slot back. -/
theorem lands_tiers_zero : ∀ {js : List MigrationJob} {l : Layout}, Rises l js →
    (js.foldl land l).tiers 0 = l.tiers 0
  | [], _, _ => rfl
  | j :: js, l, h => by
    rw [List.foldl_cons, lands_tiers_zero h.land]
    exact Function.update_of_ne (h.spill j List.mem_cons_self).symm _ _

theorem land_pop (hj : (l.location j.id).tier ≠ 0) (hx : j.id ≠ x) :
    (l.pop x loc).land j = (l.land j).pop x loc := by
  have hloc : (l.pop x loc).location j.id = l.location j.id := Function.update_of_ne hx _ _
  have htier : (l.pop x loc).tiers (l.location j.id).tier = l.tiers (l.location j.id).tier :=
    Function.update_of_ne hj _ _
  have hzero : (l.land j).tiers 0 = l.tiers 0 := Function.update_of_ne hj.symm _ _
  refine Layout.ext ?_ (Function.update_comm hx.symm _ _ _)
  show Function.update (l.pop x loc).tiers ((l.pop x loc).location j.id).tier _ =
    Function.update (l.land j).tiers 0 _
  rw [hloc, htier, hzero]
  exact Function.update_comm hj.symm _ _ _

/-- Taking a compute slot commutes with the landings. -/
theorem lands_pop : ∀ {js : List MigrationJob} {l : Layout}, Rises l js → (∀ j ∈ js, j.id ≠ x) →
    js.foldl land (l.pop x loc) = (js.foldl land l).pop x loc
  | [], _, _, _ => rfl
  | j :: js, l, h, hx => by
    rw [List.foldl_cons, List.foldl_cons,
      land_pop (h.spill j List.mem_cons_self) (hx j List.mem_cons_self),
      lands_pop h.land fun k hk => hx k (List.mem_cons_of_mem _ hk)]

/-- The landings do not depend on which jobs are done. -/
theorem lands_map {f : MigrationJob → MigrationJob}
    (hf : ∀ j, f j = j ∨ f j = { j with done := true }) (js : List MigrationJob) (l : Layout) :
    (js.map f).foldl land l = js.foldl land l := by
  have hland : ∀ (l : Layout) j, l.land (f j) = l.land j := by
    intro l j
    rcases hf j with e | e
    · rw [e]
    · rw [e]
      rfl
  rw [List.foldl_map]
  simp only [hland]

end Layout

namespace BlockPool

variable {p p' : BlockPool} {id : BlockId} {w : WorkerId} {j : MigrationJob}
  {js : List MigrationJob} {slot : Nat}

attribute [ext] BlockPool

/-! ## The landed view -/

def layout (p : BlockPool) : Layout := ⟨p.tiers, p.location⟩

/-- The copy of a job. -/
def copyOut (m : Arena.Mem TierIndex UInt8) (j : MigrationJob) : Arena.Mem TierIndex UInt8 :=
  Arena.memcpy m j.dst j.src j.bytes

/-- The pool once every queued job has been copied and settled. -/
def landed (p : BlockPool) : BlockPool :=
  { p with
    tiers := (p.jobs.foldl Layout.land p.layout).tiers
    location := (p.jobs.foldl Layout.land p.layout).location
    mem := p.jobs.foldl copyOut p.mem
    jobs := []
    migratingIds := []
    nextUnclaimed := 0
    nextJob := 0
    workers := fun _ => .idle }

theorem landed_congr (hs : SameShape p p') (hr : p'.refcount = p.refcount)
    (hi : p'.freeIds = p.freeIds) (hf : p'.freed = p.freed)
    (hl : p'.jobs.foldl Layout.land p'.layout = p.jobs.foldl Layout.land p.layout)
    (hm : p'.jobs.foldl copyOut p'.mem = p.jobs.foldl copyOut p.mem) : p'.landed = p.landed := by
  unfold landed
  rw [hs.blockBytes, hs.numTiers, hs.numBlocks, hr, hi, hf, hl, hm]

/-- Worker actions as steps. -/
def Works (p : BlockPool) (a : WorkerId × WorkerAct) (p' : BlockPool) : Prop :=
  p.workerStep a.1 a.2 = some p'

/-- No queue and no work under way. -/
structure Still (p : BlockPool) : Prop where
  jobs : p.jobs = []
  migratingIds : p.migratingIds = []
  nextUnclaimed : p.nextUnclaimed = 0
  workers : p.workers = fun _ => .idle

/-- Without a queue the view is the pool, up to the next job's address. -/
theorem Still.landed (h : p.Still) : p.landed = { p with nextJob := 0 } := by
  unfold BlockPool.landed
  rw [h.jobs, h.migratingIds, h.nextUnclaimed, h.workers]
  rfl

/-- Without a queue no worker has anything to do. -/
theorem Still.workerStep (h : p.Still) (w : WorkerId) (act : WorkerAct) :
    p.workerStep w act = none := by
  unfold BlockPool.workerStep
  rw [h.workers, h.jobs]
  cases act <;> rfl

theorem Still.work (h : p.Still) (ws : List (WorkerId × WorkerAct)) : p.work ws = p := by
  unfold BlockPool.work
  induction ws with
  | nil => rfl
  | cons a ws ih => rw [List.foldl_cons, h.workerStep, Option.getD_none, ih]

theorem Still.queueInv (h : p.Still) : p.QueueInv := by
  have hnone : ∀ w, p.holds w = none := fun w => by simp [holds, h.workers, WorkerPc.job?]
  refine ⟨by rw [h.nextUnclaimed]; exact Nat.zero_le _, ?_, ?_, ?_, ?_⟩
  · intro i j _ hj
    simp only [h.jobs, List.getElem?_nil] at hj
    cases hj
  · intro w ptr hw
    rw [hnone] at hw
    cases hw
  · intro w w' ptr hw
    rw [hnone] at hw
    cases hw
  · intro i j hi
    rw [h.nextUnclaimed] at hi
    exact absurd hi (Nat.not_lt_zero i)

/-- Every queued job is a promotion in flight. -/
structure Rising (p : BlockPool) : Prop where
  bytes : BytesInv ⟨p, fun _ _ => none⟩
  up : ∀ j ∈ p.jobs, j.cancelled = false ∧ j.dstTier = 0

/-- A pool without a queue. -/
theorem Still.rising (h : p.Still) (hi : p.Inv) (hw : p.NoWrap) : p.Rising := by
  have hno : ∀ j, j ∉ p.jobs := fun j hj => by simp [h.jobs] at hj
  refine ⟨⟨hi, h.queueInv, hw, ?_, fun j hj => absurd (BlockPool.mem_flights.mp hj).1 (hno j)⟩,
    fun j hj => absurd hj (hno j)⟩
  intro id _ i _ b hb
  cases hb

namespace Rising

theorem inv (h : p.Rising) : p.Inv := h.bytes.inv

theorem flights (h : p.Rising) : p.flights = p.jobs :=
  List.filter_eq_self.mpr fun j hj => by simp [(h.up j hj).1]

theorem mem_flights (h : p.Rising) (hj : j ∈ p.jobs) : j ∈ p.flights := by
  rw [h.flights]
  exact hj

theorem spill (h : p.Rising) (hj : j ∈ p.jobs) : (p.location j.id).tier ≠ 0 := by
  rw [← (h.up j hj).2]
  exact (h.inv.flight j (h.mem_flights hj)).2.2

theorem rises (h : p.Rising) : p.layout.Rises p.jobs :=
  ⟨h.flights ▸ h.inv.flight_ids, fun _ hj => h.spill hj⟩

theorem src_ne_dst {k : MigrationJob} (h : p.Rising) (hj : j ∈ p.jobs) (hk : k ∈ p.jobs) :
    j.src.1 ≠ k.dst.1 := by
  rw [(h.inv.flight j (h.mem_flights hj)).2.1, (h.inv.job_dst k hk).1]
  show (p.location j.id).tier ≠ k.dstTier
  rw [(h.up k hk).2]
  exact h.spill hj

/-- Two copies of the queue commute. -/
theorem copyOut_comm {k : MigrationJob} (h : p.Rising) (hj : j ∈ p.jobs) (hk : k ∈ p.jobs)
    (m : Arena.Mem TierIndex UInt8) : copyOut (copyOut m j) k = copyOut (copyOut m k) j := by
  by_cases e : j = k
  · rw [e]
  refine Arena.memcpy_comm (h.src_ne_dst hj hk) (h.src_ne_dst hk hj) ?_
  intro o
  obtain ⟨hdj, hbj⟩ := h.inv.dst_addr h.bytes.noWrap hj
  obtain ⟨hdk, hbk⟩ := h.inv.dst_addr h.bytes.noWrap hk
  rw [hdj, hdk, hbj, hbk]
  rintro ⟨ht, ⟨h1, h2⟩, h3, h4⟩
  have hne : j.dstLoc.slot ≠ k.dstLoc.slot := by
    intro es
    refine e (h.inv.dst_inj hj hk ?_)
    cases hjl : j.dstLoc
    cases hkl : k.dstLoc
    simp only [hjl, hkl] at ht es
    rw [ht, es]
  have hd : ∃ i < p.blockBytes, o = j.dstLoc.slot * p.blockBytes + i :=
    ⟨o - j.dstLoc.slot * p.blockBytes, by simp only at h1 h2; omega, by simp only at h1; omega⟩
  obtain ⟨i, hi, rfl⟩ := hd
  exact Arena.slots_disjoint hi hne ⟨h3, h4⟩

/-- A copy made early is absorbed by the copies of the queue. -/
theorem copies_absorb (h : p.Rising) (hj : j ∈ p.jobs) : ∀ {js : List MigrationJob},
    (∀ k ∈ js, k ∈ p.jobs) → j ∈ js → ∀ m : Arena.Mem TierIndex UInt8,
      js.foldl copyOut (copyOut m j) = js.foldl copyOut m
  | k :: js, hs, hm, m => by
    rw [List.foldl_cons, List.foldl_cons]
    rcases List.mem_cons.mp hm with rfl | hm
    · congr 1
      exact Arena.memcpy_idem (h.src_ne_dst hj hj)
    · rw [h.copyOut_comm hj (hs k List.mem_cons_self)]
      exact copies_absorb h hj (fun i hi => hs i (List.mem_cons_of_mem _ hi)) hm _

/-! ## The view and the compute tier -/

theorem landed_tiers_zero (h : p.Rising) : p.landed.tiers 0 = p.tiers 0 :=
  Layout.lands_tiers_zero h.rises

theorem landed_location (h : p.Rising) (hm : p.migrating id = false) :
    p.landed.location id = p.location id := by
  refine Layout.lands_location_of_ne fun j hj e => ?_
  have := h.inv.migrating_iff.mpr ⟨j, h.mem_flights hj, e⟩
  rw [hm] at this
  cases this

theorem landed_compute (h : p.Rising) (hm : p.migrating id = true) :
    (p.landed.location id).tier = 0 := by
  obtain ⟨j, hj, rfl⟩ := h.inv.migrating_iff.mp hm
  rw [h.flights] at hj
  have : p.landed.location j.id = j.dstLoc := Layout.lands_location h.rises hj
  rw [this]
  exact (h.up j hj).2

/-- Queueing a promotion is the synchronous move. -/
theorem landed_enqueue (h : p.Rising) (hm : p.migrating id = false) (slot : Nat) :
    (p.enqueue id ⟨0, slot⟩ (p.location id)).landed =
      p.landed.moveBlock id ⟨0, slot⟩ (p.landed.location id) := by
  have hx : ∀ j ∈ p.jobs, j.id ≠ id := by
    intro j hj e
    have := h.inv.migrating_iff.mpr ⟨j, h.mem_flights hj, e⟩
    rw [hm] at this
    cases this
  have hlay : (p.enqueue id ⟨0, slot⟩ (p.location id)).layout = p.layout.pop id (p.location id) :=
    Layout.ext rfl (Function.update_eq_self id p.location).symm
  have hfold : (p.enqueue id ⟨0, slot⟩ (p.location id)).jobs.foldl Layout.land
      (p.enqueue id ⟨0, slot⟩ (p.location id)).layout =
        ((p.jobs.foldl Layout.land p.layout).pop id (p.location id)).land
          { ptr := p.nextJob, id := id, dstTier := 0, dstSlot := slot
            src := p.slotAddr (p.location id), dst := p.slotAddr ⟨0, slot⟩
            bytes := p.blockBytes } := by
    rw [hlay]
    show (p.jobs ++ [_]).foldl Layout.land _ = _
    rw [List.foldl_append, Layout.lands_pop h.rises hx]
    rfl
  have hself : ((p.jobs.foldl Layout.land p.layout).pop id (p.location id)).location id =
      p.location id := Function.update_self _ _ _
  rw [h.landed_location hm]
  refine BlockPool.ext rfl rfl ?_ rfl ?_ rfl rfl rfl rfl rfl rfl rfl ?_ rfl
  · -- the slot on top of the compute tier's list is gone, the source slot is back
    refine (congrArg Layout.tiers hfold).trans ?_
    show Function.update _ _ _ = _
    rw [hself]
    rfl
  · refine (congrArg Layout.location hfold).trans ?_
    exact Function.update_idem _ _ _
  · refine Eq.trans ?_ (copySlot_eq p.landed ⟨0, slot⟩ (p.location id)).symm
    show (p.jobs ++ [_]).foldl copyOut p.mem = _
    rw [List.foldl_append]
    rfl

/-- Allocating a block is the same before and after the landing. -/
theorem landed_takeBlock (h : p.Rising) (hr : p.refcount id = 0) (slot : Nat) :
    (p.takeBlock id slot).landed = p.landed.takeBlock id slot := by
  have hx : ∀ j ∈ p.jobs, j.id ≠ id := fun j hj => h.inv.flight_ne hr (h.mem_flights hj)
  have hfold : (p.takeBlock id slot).jobs.foldl Layout.land (p.takeBlock id slot).layout =
      (p.jobs.foldl Layout.land p.layout).pop id ⟨0, slot⟩ := Layout.lands_pop h.rises hx
  exact BlockPool.ext rfl rfl (congrArg Layout.tiers hfold) rfl (congrArg Layout.location hfold)
    rfl rfl rfl rfl rfl rfl rfl rfl rfl

/-! ## Queueing and allocating -/

theorem enqueue (h : p.Rising) (hi : (p.enqueue id ⟨0, slot⟩ (p.location id)).Inv) :
    (p.enqueue id ⟨0, slot⟩ (p.location id)).Rising := by
  refine ⟨h.bytes.enqueue hi, fun j hj => ?_⟩
  rcases List.mem_append.mp hj with hj | hj
  · exact h.up j hj
  · cases List.mem_singleton.mp hj
    exact ⟨rfl, rfl⟩

theorem allocate (h : p.Rising) (ha : p.allocate = .ok (id, p')) (hj : p'.jobs = p.jobs) :
    p'.Rising := by
  refine ⟨?_, fun j hj' => h.up j (hj ▸ hj')⟩
  have hb := h.bytes.allocate ha
  have hnone : Function.update (fun _ _ => none : BlockId → Nat → Option UInt8) id
      (fun _ => none) = fun _ _ => none := Function.update_eq_self id _
  rwa [hnone] at hb

/-! ## Workers -/

/-- No action of a worker changes the view. -/
theorem workerStep (h : p.Rising) {act : WorkerAct} (he : p.workerStep w act = some p') :
    p'.Rising ∧ p'.landed = p.landed := by
  have hb := SameBooks.workerStep he
  obtain ⟨f, hjobs, hf⟩ := hb.jobs
  have hcopy : ∀ m k, copyOut m (f k) = copyOut m k := by
    intro m k
    rcases hf k with e | e
    · rw [e]
    · rw [e]
      rfl
  refine ⟨⟨h.bytes.workerStep he, fun j hj => ?_⟩, landed_congr hb.shape hb.refcount hb.freeIds
    hb.freed ?_ ?_⟩
  · rw [hjobs] at hj
    obtain ⟨k, hk, rfl⟩ := List.mem_map.mp hj
    rcases hf k with e | e
    · rw [e]
      exact h.up k hk
    · rw [e]
      exact h.up k hk
  · have hlay : p'.layout = p.layout := Layout.ext hb.tiers hb.location
    rw [hjobs, Layout.lands_map hf, hlay]
  · rw [hjobs, List.foldl_map]
    simp only [hcopy]
    obtain ⟨_, -, -, -, rfl⟩ | ⟨_, _, -, -, -, rfl⟩ | ⟨ptr, k, -, -, hk, rfl⟩ |
      ⟨_, ptr, k, -, -, hk, hc, -⟩ | ⟨_, _, -, -, -, rfl⟩ := workerStep_cases he
    · rfl
    · rfl
    · have hk := (h.inv.job?_eq_some.mp hk).1
      exact h.copies_absorb hk (fun _ hi => hi) hk p.mem
    · -- nothing is cancelled, so nothing is torn
      rw [(h.up k (h.inv.job?_eq_some.mp hk).1).1] at hc
      cases hc
    · rfl

/-! ## Waiting -/

/-- Settling a finished front job leaves the view. -/
theorem settleFront (h : p.Rising) (hj : p.jobs = j :: js) (hd : j.done = true) :
    (p.settleFront j js).Rising ∧ (p.settleFront j js).landed = p.landed := by
  have hmem : j ∈ p.jobs := hj ▸ List.mem_cons_self
  obtain ⟨hc, -⟩ := h.up j hmem
  have hnot : ¬ (j.cancelled = true) := by simp [hc]
  have hset : p.settleFront j js =
      { p.pushSlot (p.location j.id).tier (p.location j.id).slot with
        location := Function.update p.location j.id j.dstLoc
        migratingIds := p.migratingIds.filter fun e => e.1 != j.id
        jobs := js
        nextUnclaimed := sizePred p.nextUnclaimed } := by
    unfold BlockPool.settleFront applyFinished
    rw [if_neg hnot]
    rfl
  have hcopied : copyOut p.mem j = p.mem := by
    refine Arena.memcpy_eq_self fun i hi => ?_
    obtain ⟨hdst, hbytes⟩ := h.inv.dst_addr h.bytes.noWrap hmem
    obtain ⟨hr, hsrc, -⟩ := h.inv.flight j (h.mem_flights hmem)
    rw [hdst, hsrc, h.inv.block_addr h.bytes.noWrap hr]
    exact h.bytes.copied j (h.mem_flights hmem) (.inl hd) i (hbytes ▸ hi)
  refine ⟨⟨h.bytes.settleFront hj hd, fun k hk => h.up k ?_⟩,
    landed_congr (SameShape.settleFront p j js) ?_ ?_ ?_ ?_ ?_⟩
  · rw [settleFront_jobs] at hk
    exact hj ▸ List.mem_cons_of_mem _ hk
  all_goals rw [hset]
  all_goals try rfl
  · rw [hj]
    rfl
  · rw [hj, List.foldl_cons, hcopied]
    rfl

theorem drainMigrations (h : p.Rising) :
    p.drainMigrations.Rising ∧ p.drainMigrations.landed = p.landed :=
  drain_induction (motive := fun q => q.Rising ∧ q.landed = p.landed)
    (fun _ _ _ hq hj hd =>
      ⟨(hq.1.settleFront hj hd).1, (hq.1.settleFront hj hd).2.trans hq.2⟩) p ⟨h, rfl⟩

/-- A wait that returns leaves the view, with nothing under way. -/
theorem waited (h : p.Rising) (hw : p.waitForMigrations = some p') :
    p'.Still ∧ p'.landed = p.landed := by
  obtain ⟨hjobs, hmig, -⟩ := h.inv.waited hw
  obtain ⟨-, rfl⟩ := waitForMigrations_ok hw
  obtain ⟨hr, hl⟩ := h.drainMigrations
  have hcur := hr.bytes.queue.cursor
  simp only [hjobs, List.length_nil, Nat.le_zero] at hcur
  refine ⟨⟨hjobs, hmig, hcur, funext fun w => ?_⟩, hl⟩
  cases hpc : p.drainMigrations.workers w with
  | idle => rfl
  | _ ptr =>
    obtain ⟨i, k, -, hk, -⟩ := hr.bytes.queue.held w ptr (by simp [holds, hpc, WorkerPc.job?])
    simp only [hjobs, List.getElem?_nil] at hk
    cases hk

/-! ## Some schedule lets a wait return -/

/-- One worker takes the next job from claim to done. -/
theorem serveNext (h : p.Rising) (hidle : ∀ w, p.workers w = .idle)
    (hj : p.jobs[p.nextUnclaimed]? = some j) :
    ∃ p', Run Works p [(0, .claim), (0, .check), (0, .copy), (0, .finish)] p' ∧ p'.Rising ∧
      (∀ w, p'.workers w = .idle) ∧ p'.nextUnclaimed = p.nextUnclaimed + 1 ∧
      p'.jobs.length = p.jobs.length := by
  have hjob : p.job? j.ptr = some j := h.inv.job?_eq_some.mpr ⟨List.mem_of_getElem? hj, rfl⟩
  have hc : j.cancelled = false := (h.up j (List.mem_of_getElem? hj)).1
  have h₁ := claim_enabled (hidle 0) hj
  have h₂ := check_enabled (w := 0) (by simp) (p := { p with
    workers := Function.update p.workers 0 (.claimed j.ptr)
    nextUnclaimed := p.nextUnclaimed + 1 }) hjob
  rw [hc, if_neg (by simp)] at h₂
  have h₃ := copy_enabled (w := 0) (by simp) (p := { p with
    workers := Function.update (Function.update p.workers 0 (.claimed j.ptr)) 0 (.copying j.ptr)
    nextUnclaimed := p.nextUnclaimed + 1 }) hjob
  have h₄ := finish_enabled (w := 0) (by simp) (p := { p with
    workers := Function.update (Function.update (Function.update p.workers 0 (.claimed j.ptr)) 0
      (.copying j.ptr)) 0 (.finishing j.ptr)
    nextUnclaimed := p.nextUnclaimed + 1
    mem := Arena.memcpy p.mem j.dst j.src j.bytes }) hjob
  have hr := ((((h.workerStep h₁).1.workerStep h₂).1.workerStep h₃).1.workerStep h₄).1
  refine ⟨_, (((Run.nil.snoc h₁).snoc h₂).snoc h₃).snoc h₄, hr, fun w => ?_, rfl,
    List.length_map _⟩
  simp only [Function.update_idem]
  by_cases e : w = 0
  · rw [e, Function.update_self]
  · rw [Function.update_of_ne e, hidle]

/-- From workers at rest, some schedule lets a wait return. -/
theorem exists_waited : ∀ (n : Nat) {p : BlockPool}, p.Rising → (∀ w, p.workers w = .idle) →
    p.jobs.length = p.nextUnclaimed + n →
    ∃ ws q p', Run Works p ws q ∧ q.waitForMigrations = some p'
  | 0, p, h, hidle, hn => by
    -- a claimed job that is not done would be held by a worker
    have hdone : p.jobs.all (·.done) = true := by
      rw [List.all_eq_true]
      intro j hj
      obtain ⟨i, hi, hij⟩ := List.mem_iff_getElem.mp hj
      by_contra hd
      obtain ⟨w, hw⟩ := h.bytes.queue.claimed i j (by simp only; omega)
        (List.getElem?_eq_some_iff.mpr ⟨hi, hij⟩) (by simpa using hd)
      simp [holds, hidle, WorkerPc.job?] at hw
    exact ⟨[], p, _, Run.nil, if_pos hdone⟩
  | n + 1, p, h, hidle, hn => by
    have hlt : p.nextUnclaimed < p.jobs.length := by omega
    obtain ⟨p₁, hr₁, h₁, hidle₁, hc₁, hl₁⟩ :=
      h.serveNext hidle (List.getElem?_eq_getElem hlt)
    obtain ⟨ws, q, p', hr, hw⟩ := exists_waited n h₁ hidle₁ (by omega)
    exact ⟨_, q, p', hr₁.append hr, hw⟩

end Rising

end BlockPool

end KvsLab
