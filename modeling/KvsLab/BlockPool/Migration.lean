import KvsLab.BlockPool.Protocol

/-!
# Failed moves and drains in pieces

* `Intact` — what a call that fails has to leave as it was.  `migrate` cancels a queued migration
  of the block before it knows whether the destination has room, so it fails intact exactly when
  there is no such migration to lose (`migrate_fails_intact_iff`).
* `settled` — the books of a pool once every job, popped or queued, has been settled in queue
  order.  No action of a worker and no step of a drain changes it (`settled_step`).
* `Tracked` — every migration in flight has its job.
* `drains_agree` — **draining in pieces equals draining at once**: every interleaving of workers
  and drains that empties the queue leaves the books a single wait leaves, and some schedule lets
  the wait return.
-/

namespace KvsLab

open Transition WorkQueue

namespace BlockPool

variable {p p' q : BlockPool} {id : BlockId} {w : WorkerId}

/-! ## Failed moves -/

/-- The bookkeeping is as it was, in-flight migrations and their flags included. -/
structure Intact (p p' : BlockPool) : Prop where
  location : p'.location = p.location
  refcount : p'.refcount = p.refcount
  freeSlots : ∀ t, (p'.tiers t).freeSlots = (p.tiers t).freeSlots
  freeIds : p'.freeIds = p.freeIds
  inFlight : ∀ x, p'.migrating x = p.migrating x ∧ p'.migrationTarget x = p.migrationTarget x
  cancelled : p'.jobs.map (fun j => (j.ptr, j.cancelled)) =
    p.jobs.map fun j => (j.ptr, j.cancelled)

theorem Intact.refl (p : BlockPool) : Intact p p :=
  ⟨rfl, rfl, fun _ => rfl, rfl, fun _ => ⟨rfl, rfl⟩, rfl⟩

/-- A `migrate` that returns false leaves the pool as it was. -/
def FailsIntact (p : BlockPool) (id : BlockId) (dst : TierIndex) : Prop :=
  ∀ p', p.migrate id dst = .ok (false, p') → Intact p p'

theorem cancel_not_migrating (p : BlockPool) (id : BlockId) :
    (p.cancelMigration id).migrating id = false := by
  cases hm : p.migrating id with
  | false => rw [cancel_of_not_migrating hm, hm]
  | true =>
    unfold migrating at hm
    obtain ⟨ptr, hl⟩ := Option.isSome_iff_exists.mp hm
    unfold cancelMigration migrating
    rw [hl]
    simp only [Option.isSome_eq_false_iff, Option.isNone_iff_eq_none, List.lookup_eq_none_iff]
    intro e he
    have := (List.mem_filter.mp he).2
    simpa using Ne.symm (by simpa using this)

/-- A move of an allocated block to a full tier fails, once a migration of it is cancelled. -/
theorem migrate_full {dst : TierIndex} (hid : id < p.numBlocks) (hr : p.refcount id ≠ 0)
    (hdst : dst < p.numTiers) (ht : (p.location id).tier ≠ dst)
    (hfull : (p.tiers dst).freeSlots = []) :
    p.migrate id dst = .ok (false, p.cancelMigration id) := by
  have hn : (p.cancelMigration id).numBlocks = p.numBlocks :=
    (SameShape.cancelMigration p id).numBlocks
  have hl : (p.cancelMigration id).locate id = .ok (p.location id) := by
    rw [locate_eq (by rw [hn]; exact hid) (by rw [cancel_refcount]; exact hr), cancel_location]
  unfold migrate
  simp only [hl, bind, Except.bind, cancel_numTiers, cancel_tiers, if_neg (Nat.not_le.mpr hdst),
    if_neg ht, hfull]
  rfl

/-- **A failed `migrate` leaves the pool untouched exactly when there is no migration to lose**:
the block has none in flight, or it is at `dst`, or `dst` has room, so that the call succeeds. -/
theorem migrate_fails_intact_iff {dst : TierIndex} (hid : id < p.numBlocks)
    (hr : p.refcount id ≠ 0) (hdst : dst < p.numTiers) :
    FailsIntact p id dst ↔
      (p.migrating id = true → (p.location id).tier = dst ∨ (p.tiers dst).freeSlots ≠ []) := by
  constructor
  · intro h hm
    by_contra hno
    rw [not_or, not_not] at hno
    have hin := (h _ (migrate_full hid hr hdst hno.1 hno.2)).inFlight id
    rw [cancel_not_migrating, hm] at hin
    cases hin.1
  · intro h p' he
    obtain ⟨-, -, ⟨hb, -⟩ | ⟨-, ht, hfull, rfl⟩ | ⟨hb, -⟩⟩ := migrate_cases he
    · cases hb
    · cases hm : p.migrating id with
      | false =>
        rw [cancel_of_not_migrating hm]
        exact .refl p
      | true =>
        rcases h hm with h' | h'
        · exact absurd h' ht
        · exact absurd hfull h'
    · cases hb

/-- A demotion of block 0 holds the only spill slot. -/
def fullTrace : List PoolOp := [.allocate, .allocate, .migrateAsync 0 1]

theorem fullTrace_runs : ∃ p₀ p, init smallConfig smallSpecs (fun _ _ => 0) = .ok p₀ ∧
    Run Step p₀ fullTrace p ∧ p.numTiers = 2 ∧ p.numBlocks = 3 ∧
    p.refcount 0 = 1 ∧ p.refcount 1 = 1 ∧ (p.location 0).tier = 0 ∧ (p.location 1).tier = 0 ∧
    p.migrating 0 = true ∧ p.migrating 1 = false ∧ (p.tiers 1).freeSlots = [] := by
  have hs : ((init smallConfig smallSpecs (fun _ _ => 0)).toOption.bind fun p₀ =>
      (exec next p₀ fullTrace).map fun p =>
        decide (p.numTiers = 2 ∧ p.numBlocks = 3 ∧ p.refcount 0 = 1 ∧ p.refcount 1 = 1 ∧
          (p.location 0).tier = 0 ∧ (p.location 1).tier = 0 ∧ p.migrating 0 = true ∧
          p.migrating 1 = false ∧ (p.tiers 1).freeSlots = [])) = some true := by decide
  obtain ⟨p₀, h0, hp⟩ := Option.bind_eq_some_iff.mp hs
  obtain ⟨p, hx, hd⟩ := Option.map_eq_some_iff.mp hp
  exact ⟨p₀, p, toOption_eq_some h0, run_of_exec hx, of_decide_eq_true hd⟩

/-- The other block is not moved, and nothing else changes. -/
theorem migrate_fails_intact_other : ∃ p₀ p p',
    init smallConfig smallSpecs (fun _ _ => 0) = .ok p₀ ∧ Run Step p₀ fullTrace p ∧
    p.migrate 1 1 = .ok (false, p') ∧ Intact p p' := by
  obtain ⟨p₀, p, h0, hrun, ht, hn, -, hr, -, hl, -, hm, hf⟩ := fullTrace_runs
  have hid : 1 < p.numBlocks := by omega
  have hne : p.refcount 1 ≠ 0 := by omega
  have hdst : 1 < p.numTiers := by omega
  have he := migrate_full hid hne hdst (by rw [hl]; decide) hf
  have hok : p.migrating 1 = true → (p.location 1).tier = 1 ∨ (p.tiers 1).freeSlots ≠ [] := by
    simp [hm]
  exact ⟨p₀, p, _, h0, hrun, he, (migrate_fails_intact_iff hid hne hdst).mpr hok _ he⟩

/-- Block 0 is not moved either, since its own demotion holds the slot; but the demotion is
cancelled. -/
theorem migrate_fails_and_cancels : ∃ p₀ p p',
    init smallConfig smallSpecs (fun _ _ => 0) = .ok p₀ ∧ Run Step p₀ fullTrace p ∧
    p.refcount 0 ≠ 0 ∧ 1 < p.numTiers ∧ p.migrate 0 1 = .ok (false, p') ∧ ¬ Intact p p' := by
  obtain ⟨p₀, p, h0, hrun, ht, hn, hr, -, hl, -, hm, -, hf⟩ := fullTrace_runs
  have hid : 0 < p.numBlocks := by omega
  have hne : p.refcount 0 ≠ 0 := by omega
  have hdst : 1 < p.numTiers := by omega
  have he := migrate_full hid hne hdst (by rw [hl]; decide) hf
  refine ⟨p₀, p, _, h0, hrun, hne, hdst, he, fun hi => ?_⟩
  have := (hi.inFlight 0).1
  rw [cancel_not_migrating, hm] at this
  cases this

/-! ## What a settlement reads -/

/-- The scheduler's own records. -/
@[ext] structure Bookkeeping where
  tiers : TierIndex → TierState
  location : BlockId → Location
  refcount : BlockId → Nat
  freeIds : List BlockId
  migratingIds : List (BlockId × JobPtr)

def bookkeeping (p : BlockPool) : Bookkeeping :=
  ⟨p.tiers, p.location, p.refcount, p.freeIds, p.migratingIds⟩

/-- Settling a job reads and writes the records only. -/
theorem bookkeeping_applyFinished (h : p'.bookkeeping = p.bookkeeping) (j : MigrationJob) :
    (p'.applyFinished j).bookkeeping = (p.applyFinished j).bookkeeping := by
  simp only [bookkeeping, Bookkeeping.mk.injEq] at h
  obtain ⟨ht, hl, hr, hi, hm⟩ := h
  unfold applyFinished pushSlot setFree bookkeeping
  rw [ht, hl, hm]
  split <;> simp only [hr, hi]

theorem bookkeeping_settle : ∀ {js : List MigrationJob} {p p' : BlockPool},
    p'.bookkeeping = p.bookkeeping →
      (js.foldl applyFinished p').bookkeeping = (js.foldl applyFinished p).bookkeeping
  | [], _, _, h => h
  | j :: js, _, _, h => @bookkeeping_settle js _ _ (bookkeeping_applyFinished h j)

/-- Settling a job does not read whether it is done. -/
theorem settle_map {f : MigrationJob → MigrationJob}
    (hf : ∀ j, f j = j ∨ f j = { j with done := true }) (js : List MigrationJob) (p : BlockPool) :
    (js.map f).foldl applyFinished p = js.foldl applyFinished p := by
  have hdone : ∀ (p : BlockPool) j, p.applyFinished (f j) = p.applyFinished j := by
    intro p j
    rcases hf j with e | e
    · rw [e]
    · rw [e]
      rfl
  rw [List.foldl_map]
  simp only [hdone]

/-! ## Draining in pieces -/

/-- The jobs a drain has popped and not settled yet. -/
def DrainPc.popped : DrainPc → List MigrationJob
  | .outside => []
  | .popping finished => finished
  | .rebinding finished => finished

/-- A step of a worker. -/
def QueueOp.isWork : QueueOp → Bool
  | .worker _ _ => true
  | _ => false

/-- A step of a worker or of a drain. -/
def QueueOp.isDrain : QueueOp → Bool
  | .call _ => false
  | _ => true

/-- One action of one worker. -/
def WorkStep (p : BlockPool) (a : WorkerId × WorkerAct) (p' : BlockPool) : Prop :=
  p.workerStep a.1 a.2 = some p'

/-- `work` takes such a run in one go. -/
theorem work_of_run {ws : List (WorkerId × WorkerAct)} (h : Run WorkStep p ws p') :
    p.work ws = p' := by
  induction h with
  | nil => rfl
  | snoc _ hl ih =>
    have ih : List.foldl _ p _ = _ := ih
    have hl : workerStep _ _ _ = _ := hl
    rw [work, List.foldl_append, ih, List.foldl_cons, List.foldl_nil, hl]
    rfl

namespace QueueState

variable {s s' : QueueState} {op : QueueOp}

/-- The jobs still to be settled, in order. -/
def pending (s : QueueState) : List MigrationJob := s.drain.popped ++ s.pool.jobs

/-- The records once every pending job has been settled. -/
def settled (s : QueueState) : Bookkeeping := (s.pending.foldl applyFinished s.pool).bookkeeping

/-- With no job pending the records are settled. -/
theorem settled_idle (hd : s.drain = .outside) (hj : s.pool.jobs = []) :
    s.settled = s.pool.bookkeeping := by
  unfold settled pending
  rw [hd, hj]
  rfl

/-- What a worker does at the queue is an action of it on the pool. -/
theorem worker_step {act : WorkerAct} (h : Step s (.worker w act) s') :
    ∃ p', s.pool.workerStep w act = some p' ∧ s'.pool = p' ∧ s'.drain = s.drain := by
  simp only [Step, next] at h
  split at h
  · cases h
  all_goals
    obtain ⟨p', hp, rfl⟩ := Option.map_eq_some_iff.mp h
    exact ⟨p', hp, rfl, rfl⟩

/-- **No step of a worker or of a drain changes what the pending jobs settle to.** -/
theorem settled_step (h : Step s op s') (hop : op.isDrain = true) : s'.settled = s.settled := by
  cases op with
  | call op => cases hop
  | drainEnter =>
    simp only [Step, next] at h
    split at h
    · rename_i hc
      cases h
      unfold settled pending
      rw [hc.1]
      rfl
    · cases h
  | drainPop =>
    simp only [Step, next] at h
    split at h
    · rename_i finished j js hd hj
      split at h
      · cases h
        unfold settled pending
        rw [hd, hj]
        simp only [DrainPc.popped, List.append_assoc]
        exact bookkeeping_settle rfl
      · cases h
    · cases h
  | drainLeave =>
    simp only [Step, next] at h
    split at h
    · rename_i finished hd
      split at h
      · cases h
        unfold settled pending
        rw [hd]
        rfl
      · cases h
    · cases h
  | rebind =>
    simp only [Step, next] at h
    split at h
    · rename_i j finished hd
      cases h
      unfold settled pending
      rw [hd]
      simp only [DrainPc.popped, (applyFinished_jobs s.pool j).1]
      rfl
    · rename_i hd
      cases h
      unfold settled pending
      rw [hd]
      rfl
    · cases h
  | worker w act =>
    obtain ⟨p', hp, hpool, hd⟩ := worker_step h
    have hb := SameBooks.workerStep hp
    obtain ⟨f, hf, hfj⟩ := hb.jobs
    unfold settled pending
    rw [hd, hpool, hf, List.foldl_append, List.foldl_append, settle_map hfj]
    refine bookkeeping_settle (bookkeeping_settle ?_)
    unfold bookkeeping
    rw [hb.tiers, hb.location, hb.refcount, hb.freeIds, hb.migratingIds]

theorem settled_run {ops : List QueueOp} (h : Run Step s ops s')
    (hops : ∀ op ∈ ops, op.isDrain = true) : s'.settled = s.settled := by
  induction h with
  | nil => rfl
  | @snoc tr op _ _ _ hl ih =>
    rw [settled_step hl (hops op (List.mem_append_right _ List.mem_cons_self))]
    exact ih fun o ho => hops o (List.mem_append_left _ ho)

/-! ## Migrations in flight have their jobs -/

/-- Every migration in flight has its pending job, uncancelled. -/
def Tracked (s : QueueState) : Prop :=
  ∀ e ∈ s.pool.migratingIds, ∃ j ∈ s.pending, j.ptr = e.2 ∧ j.id = e.1 ∧ j.cancelled = false

/-- No two queued jobs have one address. -/
theorem Ordered.ptrs_nodup (h : s.Ordered) : (s.pool.jobs.map (·.ptr)).Nodup := by
  obtain ⟨gone, hq, -⟩ := h.protocol.in_order
  have hnd := h.protocol.queued_once
  rw [hq, List.nodup_append'] at hnd
  exact hnd.2.1

/-- Cancelling one migration keeps the jobs of the others. -/
theorem tracked_cancel {p : BlockPool} {jobs : List MigrationJob} {id : BlockId}
    (hnd : (jobs.map (·.ptr)).Nodup) (hjobs : p.jobs = jobs)
    (h : ∀ e ∈ p.migratingIds, ∃ j ∈ jobs, j.ptr = e.2 ∧ j.id = e.1 ∧ j.cancelled = false) :
    ∀ e ∈ (p.cancelMigration id).migratingIds, ∃ j ∈ (p.cancelMigration id).jobs,
      j.ptr = e.2 ∧ j.id = e.1 ∧ j.cancelled = false := by
  subst hjobs
  unfold cancelMigration
  split
  · exact h
  · rename_i ptr hl
    intro e he
    obtain ⟨he, hne⟩ := List.mem_filter.mp he
    have hne : e.1 ≠ id := by simpa using hne
    obtain ⟨j, hj, hp, hi, hc⟩ := h e he
    -- the cancelled job is another one: it is the job of `id`
    have hm : (id, ptr) ∈ p.migratingIds := by
      obtain ⟨l₁, l₂, hsplit, -⟩ := List.lookup_eq_some_iff.mp hl
      rw [hsplit]
      exact List.mem_append_right _ List.mem_cons_self
    obtain ⟨k, hk, hkp, hki, -⟩ := h (id, ptr) hm
    have hptr : j.ptr ≠ ptr := by
      intro e'
      have : j = k := List.inj_on_of_nodup_map hnd hj hk (e'.trans hkp.symm)
      rw [this] at hi
      exact hne (hi.symm.trans hki)
    exact ⟨j, List.mem_map.mpr ⟨j, hj, if_neg hptr⟩, hp, hi, hc⟩

theorem Tracked.call (h : s.Tracked) (ho : s.Ordered) {op : PoolOp}
    (he : Step s (.call op) s') : s'.Tracked := by
  simp only [Step, next] at he
  split at he
  · rename_i hd
    obtain ⟨p', hp, rfl⟩ := Option.map_eq_some_iff.mp he
    have hpend : s.pending = s.pool.jobs := by
      unfold pending
      rw [hd]
      rfl
    unfold Tracked at h ⊢
    rw [hpend] at h
    have hgoal : QueueState.pending { s with
        pool := p'
        queued := s.queued ++ (p'.jobs.drop s.pool.jobs.length).map (·.ptr) } = p'.jobs := by
      unfold pending
      rw [hd]
      rfl
    rw [hgoal]
    rcases schedule_cases hp with hs | ⟨id, hs⟩ | ⟨id, l, l', rfl⟩
    · simp only [hs.jobs, hs.migratingIds]
      exact h
    · simp only [hs.jobs, hs.migratingIds]
      exact tracked_cancel ho.ptrs_nodup rfl h
    · intro e he
      rcases List.mem_append.mp he with he | he
      · obtain ⟨j, hj, hrest⟩ := h e he
        exact ⟨j, List.mem_append_left _ hj, hrest⟩
      · rw [List.mem_singleton.mp he]
        exact ⟨_, List.mem_append_right _ List.mem_cons_self, rfl, rfl, rfl⟩
  · cases he

/-- Settling a job takes at most its own migration out of flight. -/
theorem tracked_settle {p : BlockPool} {j : MigrationJob} {js : List MigrationJob}
    (h : ∀ e ∈ p.migratingIds, ∃ k ∈ j :: js, k.ptr = e.2 ∧ k.id = e.1 ∧ k.cancelled = false) :
    ∀ e ∈ (p.applyFinished j).migratingIds, ∃ k ∈ js, k.ptr = e.2 ∧ k.id = e.1 ∧
      k.cancelled = false := by
  intro e he
  have hsub : e ∈ p.migratingIds ∧ (j.cancelled = false → e.1 ≠ j.id) := by
    unfold applyFinished at he
    split at he
    · rename_i hc
      exact ⟨he, fun hf => by rw [hc] at hf; cases hf⟩
    · obtain ⟨he, hne⟩ := List.mem_filter.mp he
      exact ⟨he, fun _ => by simpa using hne⟩
  obtain ⟨k, hk, hp, hi, hc⟩ := h e hsub.1
  rcases List.mem_cons.mp hk with rfl | hk
  · exact absurd hi.symm (hsub.2 hc)
  · exact ⟨k, hk, hp, hi, hc⟩

theorem Tracked.next (h : s.Tracked) (ho : s.Ordered) (he : Step s op s') : s'.Tracked := by
  have hcopy := he
  unfold Tracked pending at h ⊢
  cases op with
  | call op => exact Tracked.call h ho he
  | drainEnter =>
    simp only [Step, QueueState.next] at he
    split at he
    · rename_i hc
      cases he
      rw [hc.1] at h
      exact h
    · cases he
  | drainPop =>
    simp only [Step, QueueState.next] at he
    split at he
    · rename_i finished j js hd hj
      split at he
      · cases he
        rw [hd, hj] at h
        simp only [DrainPc.popped, List.append_assoc]
        exact h
      · cases he
    · cases he
  | drainLeave =>
    simp only [Step, QueueState.next] at he
    split at he
    · rename_i finished hd
      split at he
      · cases he
        rw [hd] at h
        exact h
      · cases he
    · cases he
  | rebind =>
    simp only [Step, QueueState.next] at he
    split at he
    · rename_i j finished hd
      cases he
      rw [hd] at h
      simp only [(applyFinished_jobs s.pool j).1]
      exact tracked_settle h
    · rename_i hd
      cases he
      rw [hd] at h
      exact h
    · cases he
  | worker w act =>
    obtain ⟨p', hp, hpool, hd⟩ := worker_step hcopy
    have hb := SameBooks.workerStep hp
    obtain ⟨f, hf, hfj⟩ := hb.jobs
    rw [hpool, hd, hb.migratingIds, hf]
    intro e he
    obtain ⟨j, hj, hp, hi, hc⟩ := h e he
    rcases List.mem_append.mp hj with hj | hj
    · exact ⟨j, List.mem_append_left _ hj, hp, hi, hc⟩
    · refine ⟨f j, List.mem_append_right _ (List.mem_map_of_mem hj), ?_⟩
      rcases hfj j with e' | e' <;> rw [e'] <;> exact ⟨hp, hi, hc⟩

/-! ## Some schedule lets a wait return -/

/-- Jobs that are not done. -/
def undone (s : QueueState) : Nat := s.pool.jobs.countP fun j => !j.done

/-- A worker that can act on the pool can take its step. -/
theorem worker_enabled {act : WorkerAct} {p' : BlockPool} (hd : s.drain = .outside)
    (h : s.pool.workerStep w act = some p') :
    ∃ s', Step s (.worker w act) s' ∧ s'.pool = p' ∧ s'.drain = .outside := by
  obtain ⟨s', hs⟩ : ∃ s', Step s (.worker w act) s' := by
    unfold Step
    cases act <;> simp only [next, hd, h, Option.map_some] <;> exact ⟨_, rfl⟩
  obtain ⟨q, hq, hpool, hd'⟩ := worker_step hs
  cases h.symm.trans hq
  exact ⟨s', hs, hpool, hd'.trans hd⟩

/-- A worker run from which fewer jobs are left undone. -/
def Advances (s : QueueState) : Prop :=
  ∃ ops s', Run Step s ops s' ∧ (∀ op ∈ ops, op.isWork = true) ∧ s'.drain = .outside ∧
    s'.undone < s.undone

/-- One more action first. -/
theorem Advances.after {act : WorkerAct} (hs : Step s (.worker w act) s')
    (hu : s'.undone = s.undone) (h : s'.Advances) : s.Advances := by
  obtain ⟨ops, s'', hrun, hops, hd, hlt⟩ := h
  refine ⟨.worker w act :: ops, s'', (Run.single hs).append hrun, ?_, hd, hu ▸ hlt⟩
  intro op hop
  rcases List.mem_cons.mp hop with rfl | hop
  · rfl
  · exact hops op hop

/-- A job that a worker holds can be dereferenced. -/
theorem Ordered.held_job (h : s.Ordered) {ptr : JobPtr} (hw : s.pool.holds w = some ptr) :
    ∃ j, s.pool.job? ptr = some j := by
  obtain ⟨-, j, hj, hp, -⟩ := h.protocol.held w ptr hw
  exact Option.isSome_iff_exists.mp (List.find?_isSome.mpr ⟨j, hj, by simpa using hp⟩)

theorem advances_finishing (h : s.Ordered) (hd : s.drain = .outside) {ptr : JobPtr}
    (hw : s.pool.workers w = .finishing ptr) : s.Advances := by
  have hheld : s.pool.holds w = some ptr := by
    rw [holds, hw]
    rfl
  obtain ⟨-, j, hj, hp, hdone⟩ := h.protocol.held w ptr hheld
  obtain ⟨k, hk⟩ := h.held_job hheld
  obtain ⟨s', hs, hpool, hd'⟩ := worker_enabled hd (finish_enabled hw hk)
  refine ⟨[.worker w .finish], s', Run.single hs, by simp [QueueOp.isWork], hd', ?_⟩
  unfold undone
  rw [hpool, List.countP_map]
  -- the job at `ptr` was counted and is not any more
  refine Counting.countP_lt (a := j) (fun i _ hi => ?_) hj (by simp [hdone]) (by simp [hp])
  simp only [Function.comp_apply] at hi
  split at hi
  · cases hi
  · exact hi

theorem advances_copying (h : s.Ordered) (hd : s.drain = .outside) {ptr : JobPtr}
    (hw : s.pool.workers w = .copying ptr) : s.Advances := by
  have hheld : s.pool.holds w = some ptr := by
    rw [holds, hw]
    rfl
  obtain ⟨k, hk⟩ := h.held_job hheld
  obtain ⟨s', hs, hpool, hd'⟩ := worker_enabled hd (copy_enabled hw hk)
  have hw' : s'.pool.workers w = .finishing ptr := by
    rw [hpool]
    exact Function.update_self _ _ _
  exact .after hs (by unfold undone; rw [hpool]) (advances_finishing (h.next hs) hd' hw')

theorem advances_claimed (h : s.Ordered) (hd : s.drain = .outside) {ptr : JobPtr}
    (hw : s.pool.workers w = .claimed ptr) : s.Advances := by
  have hheld : s.pool.holds w = some ptr := by
    rw [holds, hw]
    rfl
  obtain ⟨k, hk⟩ := h.held_job hheld
  obtain ⟨s', hs, hpool, hd'⟩ := worker_enabled hd (check_enabled hw hk)
  have hw' : s'.pool.workers w = if k.cancelled then .finishing ptr else .copying ptr := by
    rw [hpool]
    exact Function.update_self _ _ _
  refine .after hs (by unfold undone; rw [hpool]) ?_
  split at hw'
  · exact advances_finishing (h.next hs) hd' hw'
  · exact advances_copying (h.next hs) hd' hw'

/-- **While a job is not done, the workers can finish one.** -/
theorem Ordered.advances (h : s.Ordered) (hd : s.drain = .outside) :
    (∀ j ∈ s.pool.jobs, j.done = true) ∨ s.Advances := by
  rcases h.inv.progress with hall | ⟨w, ptr, hw⟩ | ⟨⟨it, hit⟩, hfree⟩
  · left
    intro j hj
    exact hall ⟨j.ptr, j.done⟩ (List.mem_map.mpr ⟨j, hj, rfl⟩)
  · right
    have hw : (s.pool.workers w).job? = some ptr := hw
    cases hpc : s.pool.workers w with
    | idle => rw [hpc] at hw; cases hw
    | claimed ptr => exact advances_claimed h hd hpc
    | copying ptr => exact advances_copying h hd hpc
    | finishing ptr => exact advances_finishing h hd hpc
  · right
    have hidle : s.pool.workers 0 = .idle := by
      have h0 : (s.pool.workers 0).job? = none := hfree 0
      cases hpc : s.pool.workers 0 with
      | idle => rfl
      | _ ptr => rw [hpc] at h0; cases h0
    obtain ⟨j, hj, -⟩ : ∃ j, s.pool.jobs[s.pool.nextUnclaimed]? = some j ∧
        (⟨j.ptr, j.done⟩ : Item JobPtr) = it := by
      have hit : (s.pool.jobs.map _)[s.pool.nextUnclaimed]? = some it := hit
      rw [List.getElem?_map] at hit
      exact Option.map_eq_some_iff.mp hit
    obtain ⟨s', hs, hpool, hd'⟩ := worker_enabled hd (claim_enabled hidle hj)
    have hw' : s'.pool.workers 0 = .claimed j.ptr := by
      rw [hpool]
      show Function.update s.pool.workers 0 (.claimed j.ptr) 0 = _
      exact Function.update_self _ _ _
    exact .after hs (by unfold undone; rw [hpool]) (advances_claimed (h.next hs) hd' hw')

theorem exists_all_done : ∀ (n : Nat) {s : QueueState}, s.Ordered → s.drain = .outside →
    s.undone ≤ n → ∃ ops s', Run Step s ops s' ∧ (∀ op ∈ ops, op.isWork = true) ∧
      s'.drain = .outside ∧ ∀ j ∈ s'.pool.jobs, j.done = true
  | n, s, h, hd, hn => by
    rcases h.advances hd with hall | ⟨ops, s₁, hrun, hops, hd₁, hlt⟩
    · exact ⟨[], s, Run.nil, nofun, hd, hall⟩
    · obtain ⟨n, rfl⟩ : ∃ k, n = k + 1 := ⟨n - 1, by omega⟩
      have h₁ : s₁.Ordered := hrun.invariant (fun _ _ _ hi hs => hi.next hs) h
      obtain ⟨ops', s₂, hrun', hops', hd₂, hall⟩ := exists_all_done n h₁ hd₁ (by omega)
      refine ⟨ops ++ ops', s₂, hrun.append hrun', fun op hop => ?_, hd₂, hall⟩
      rcases List.mem_append.mp hop with hop | hop
      · exact hops op hop
      · exact hops' op hop

/-- Worker actions of the protocol, seen on the pool alone. -/
theorem work_run {ops : List QueueOp} (h : Run Step s ops s')
    (hops : ∀ op ∈ ops, op.isWork = true) : ∃ ws, Run WorkStep s.pool ws s'.pool := by
  induction h with
  | nil => exact ⟨[], .nil⟩
  | @snoc tr op s₁ s₂ _ hl ih =>
    obtain ⟨ws, hr⟩ := ih fun o ho => hops o (List.mem_append_left _ ho)
    have hop := hops op (List.mem_append_right _ List.mem_cons_self)
    cases op with
    | worker w act =>
      obtain ⟨p', hp, hpool, -⟩ := worker_step hl
      have hstep : WorkStep s₁.pool (w, act) p' := hp
      rw [hpool]
      exact ⟨_, hr.snoc hstep⟩
    | _ => cases hop

/-- **Left to themselves, the workers can finish every job**, so that a wait returns. -/
theorem Ordered.exists_waited (h : s.Ordered) (hd : s.drain = .outside) :
    ∃ ws p', Run WorkStep s.pool ws p' ∧ (∀ j ∈ p'.jobs, j.done = true) ∧
      p'.waitForMigrations = some p'.drainMigrations := by
  obtain ⟨ops, s', hrun, hops, -, hall⟩ := exists_all_done s.undone h hd (Nat.le_refl _)
  obtain ⟨ws, hr⟩ := work_run hrun hops
  exact ⟨ws, s'.pool, hr, hall, if_pos (List.all_eq_true.mpr hall)⟩

/-! ## One result -/

/-- A drain in one piece settles what a drain in steps does. -/
theorem drain_settled (p : BlockPool) :
    (p.drainMigrations.jobs.foldl applyFinished p.drainMigrations).bookkeeping =
      (p.jobs.foldl applyFinished p).bookkeeping :=
  drain_induction (motive := fun q => (q.jobs.foldl applyFinished q).bookkeeping =
      (p.jobs.foldl applyFinished p).bookkeeping)
    (fun q j js hq hj _ => by
      have hpop : bookkeeping { q with jobs := js, nextUnclaimed := sizePred q.nextUnclaimed } =
          q.bookkeeping := rfl
      have hset : (q.settleFront j js).bookkeeping = (q.applyFinished j).bookkeeping :=
        bookkeeping_applyFinished hpop j
      rw [← hq, settleFront_jobs, hj, List.foldl_cons]
      exact bookkeeping_settle hset) p rfl

/-- A wait that returns leaves what the pending jobs settle to, and nothing in flight. -/
theorem waited_settled (hd : s.drain = .outside) (ht : s.Tracked) {q : BlockPool}
    (hw : s.pool.waitForMigrations = some q) :
    q.bookkeeping = s.settled ∧ q.jobs = [] ∧ q.migratingIds = [] := by
  obtain ⟨hall, rfl⟩ := waitForMigrations_ok hw
  have hpend : s.pending = s.pool.jobs := by
    unfold pending
    rw [hd]
    rfl
  have hjobs : s.pool.drainMigrations.jobs = [] := by rw [drain_jobs, dropWhile_done hall]
  have hset := drain_settled s.pool
  rw [hjobs, List.foldl_nil] at hset
  unfold Tracked at ht
  rw [hpend] at ht
  have htr := drain_induction (motive := fun q => ∀ e ∈ q.migratingIds, ∃ j ∈ q.jobs,
      j.ptr = e.2 ∧ j.id = e.1 ∧ j.cancelled = false)
    (fun q j js hq hj _ => by
      rw [settleFront_jobs]
      rw [hj] at hq
      exact tracked_settle hq) s.pool ht
  refine ⟨?_, hjobs, List.eq_nil_iff_forall_not_mem.mpr fun e he => ?_⟩
  · unfold settled
    rw [hpend]
    exact hset
  · obtain ⟨j, hj, -⟩ := htr e he
    rw [hjobs] at hj
    cases hj

theorem isDrain_of_isWork {op : QueueOp} (h : op.isWork = true) : op.isDrain = true := by
  cases op <;> first | rfl | cases h

/-- Workers leave the scheduler where it stands. -/
theorem work_run_drain {ops : List QueueOp} (h : Run Step s ops s')
    (hops : ∀ op ∈ ops, op.isWork = true) : s'.drain = s.drain := by
  induction h with
  | nil => rfl
  | @snoc tr op _ _ _ hl ih =>
    have hop := hops op (List.mem_append_right _ List.mem_cons_self)
    cases op with
    | worker w act =>
      obtain ⟨-, -, -, hd⟩ := worker_step hl
      exact hd.trans (ih fun o ho => hops o (List.mem_append_left _ ho))
    | _ => cases hop

theorem tracked_run {ops : List QueueOp} (h : Run Step s ops s') (ho : s.Ordered)
    (ht : s.Tracked) : s'.Ordered ∧ s'.Tracked :=
  h.invariant (I := fun s => s.Ordered ∧ s.Tracked)
    (fun _ _ _ hi hs => ⟨hi.1.next hs, hi.2.next hi.1 hs⟩) ⟨ho, ht⟩

/-- **Draining in pieces equals draining at once.**  From any state between calls, every
interleaving of worker actions and drains that leaves nothing queued ends with the same records,
free lists in the same order included, and nothing in flight: those a single wait leaves, whatever
the workers do before it returns; and some schedule lets it return. -/
theorem drains_agree {cfg : CacheConfig} {specs : List TierSpec} {mem : Arena.Mem TierIndex UInt8}
    {p₀ : BlockPool} {tr : List QueueOp} (h0 : BlockPool.init cfg specs mem = .ok p₀)
    (hrun : Run Step { pool := p₀ } tr s) (hd : s.drain = .outside) :
    ∃ o : Bookkeeping, o.migratingIds = [] ∧
      (∀ ops s', Run Step s ops s' → (∀ op ∈ ops, op.isDrain = true) → s'.drain = .outside →
        s'.pool.jobs = [] → s'.pool.bookkeeping = o) ∧
      (∀ ops s' q, Run Step s ops s' → (∀ op ∈ ops, op.isWork = true) →
        s'.pool.waitForMigrations = some q → q.bookkeeping = o ∧ q.jobs = []) ∧
      ∃ ops s' q, Run Step s ops s' ∧ (∀ op ∈ ops, op.isWork = true) ∧
        s'.pool.waitForMigrations = some q := by
  have ht₀ : Tracked { pool := p₀ } := by
    obtain ⟨_, states, _, rfl⟩ := init_ok h0
    exact nofun
  obtain ⟨ho, ht⟩ := tracked_run hrun (ordered_init h0) ht₀
  have hwait : ∀ {ops s' q}, Run Step s ops s' → (∀ op ∈ ops, op.isWork = true) →
      s'.pool.waitForMigrations = some q →
      q.bookkeeping = s.settled ∧ q.jobs = [] ∧ q.migratingIds = [] := by
    intro ops s' q hr hops hq
    rw [← settled_run hr fun op hop => isDrain_of_isWork (hops op hop)]
    exact waited_settled ((work_run_drain hr hops).trans hd) (tracked_run hr ho ht).2 hq
  obtain ⟨ops, s', hr, hops, hd', hall⟩ := exists_all_done s.undone ho hd (Nat.le_refl _)
  have hret : s'.pool.waitForMigrations = some s'.pool.drainMigrations :=
    if_pos (List.all_eq_true.mpr hall)
  obtain ⟨hb, -, hm⟩ := hwait hr hops hret
  refine ⟨s.settled, ?_, ?_, ?_, ops, s', _, hr, hops, hret⟩
  · rw [← hb]
    exact hm
  · intro ops s' hr hops hd' hj
    rw [← settled_idle hd' hj]
    exact settled_run hr hops
  · intro ops s' q hr hops hq
    obtain ⟨h1, h2, -⟩ := hwait hr hops hq
    exact ⟨h1, h2⟩

/-- Two demotions; the second is done first, and the first is cancelled under way. -/
def crossedTrace : List QueueOp :=
  [.call .allocate, .call .allocate, .call (.migrateAsync 0 1), .call (.migrateAsync 1 1),
    .worker 0 .claim, .worker 1 .claim, .worker 1 .check, .worker 1 .copy, .worker 1 .finish,
    .worker 0 .check, .call (.cancelMigration 0)]

/-- A drain that finds the front job not done, then one that pops both. -/
def twoDrains : List QueueOp :=
  [.drainEnter, .drainLeave, .worker 0 .copy, .rebind, .worker 0 .finish, .drainEnter, .drainPop,
    .drainPop, .drainLeave, .rebind, .rebind, .rebind]

theorem drains_agree_crossed : ∃ p₀ s s', BlockPool.init smallConfig
      [⟨some ⟨4096, true⟩, 2⟩, ⟨some ⟨4096, true⟩, 2⟩] (fun _ _ => 0) = .ok p₀ ∧
    Run Step { pool := p₀ } crossedTrace s ∧ Run Step s twoDrains s' ∧
    s'.pool.migratingIds = [] ∧ ∃ ops s'' q, Run Step s ops s'' ∧
      s''.pool.waitForMigrations = some q ∧ q.bookkeeping = s'.pool.bookkeeping := by
  have hs : ((BlockPool.init smallConfig [⟨some ⟨4096, true⟩, 2⟩, ⟨some ⟨4096, true⟩, 2⟩]
      (fun _ _ => 0)).toOption.bind fun p₀ => (exec next { pool := p₀ } crossedTrace).bind fun s =>
        (exec next s twoDrains).map fun s' => (s.drain, s'.drain, s'.pool.jobs)) =
      some (.outside, .outside, []) := by
    decide
  obtain ⟨p₀, h0, hs⟩ := Option.bind_eq_some_iff.mp hs
  obtain ⟨s, hx, hs⟩ := Option.bind_eq_some_iff.mp hs
  obtain ⟨s', hx', hs⟩ := Option.map_eq_some_iff.mp hs
  obtain ⟨hd, hs⟩ := Prod.mk.inj hs
  obtain ⟨hd', hj⟩ := Prod.mk.inj hs
  have hi := toOption_eq_some h0
  have hrun : Run Step { pool := p₀ } crossedTrace s := run_of_exec hx
  have hrun' : Run Step s twoDrains s' := run_of_exec hx'
  obtain ⟨o, ho, hpieces, hwait, ops, s'', q, hr, hops, hq⟩ := drains_agree hi hrun hd
  have hb := hpieces _ s' hrun' (by decide) hd' hj
  refine ⟨p₀, s, s', hi, hrun, hrun', ?_, ops, s'', q, hr, hq, ?_⟩
  · rw [← ho, ← hb]
    rfl
  · rw [hb]
    exact (hwait ops s'' q hr hops hq).1

end QueueState

end BlockPool

end KvsLab
