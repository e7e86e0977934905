import KvsLab.BlockPool.Queue
import KvsLab.Lib.WorkQueue

/-!
# The work queue, one critical section at a time

The scheduler's calls and the workers' actions on `jobs_` and `next_unclaimed_`, at the grain the
mutex leaves open: `drain_migrations` pops finished jobs one by one with `queue_mutex_` held,
while workers go on copying and storing `done` but cannot claim; it then releases the mutex and
rebinds blocks one by one while workers do anything.  Every other call touches the queue in one
critical section.

* `QueueState` — the pool, the position of a drain, and two histories: every job ever queued and
  every claim.
* `QueueState.queue` — the state seen as a `WorkQueue`; every step is one of its actions or leaves
  it as it is (`step_queue`).
* `drain_runs` — the steps of a drain in a row are `drainMigrations`.
* `work_queue_protocol` — **what holds of the queue after any interleaving.**
-/

namespace KvsLab

open Transition WorkQueue

namespace BlockPool

variable {p p' q : BlockPool} {id : BlockId} {w : WorkerId}

/-- A call of the scheduler that is one step of the queue. -/
def schedule (p : BlockPool) : PoolOp → Option BlockPool
  | .allocate => p.allocate.toOption.map (·.2)
  | .incref id => (p.incref id).toOption
  | .decref id => (p.decref id).toOption.map (·.2)
  | .migrate id dst => (p.migrate id dst).toOption.map (·.2)
  | .migrateAsync id dst => (p.migrateAsync id dst).toOption.map (·.2)
  | .cancelMigration id => some (p.cancelMigration id)
  | .drainMigrations | .waitForMigrations | .worker _ _ => none

/-- Where the scheduler stands in `drain_migrations`. -/
inductive DrainPc where
  | outside
  /-- in the loop that pops, with the mutex held -/
  | popping (finished : List MigrationJob)
  /-- in the loop over `finished`, the mutex released -/
  | rebinding (finished : List MigrationJob)
  deriving DecidableEq, Repr

/-- A pool under concurrent work, with the histories of its queue. -/
structure QueueState where
  pool : BlockPool
  drain : DrainPc := .outside
  queued : List JobPtr := []
  claims : List (WorkerId × JobPtr) := []

inductive QueueOp where
  | call (op : PoolOp)
  | drainEnter
  | drainPop
  | drainLeave
  | rebind
  | worker (w : WorkerId) (act : WorkerAct)
  deriving DecidableEq, Repr

namespace QueueState

/-- One step; `none` where the thread is not at it or waits for the mutex. -/
def next (s : QueueState) : QueueOp → Option QueueState
  | .call op =>
    if s.drain = .outside then
      (s.pool.schedule op).map fun pool => { s with
        pool
        queued := s.queued ++ (pool.jobs.drop s.pool.jobs.length).map (·.ptr) }
    else none
  | .drainEnter =>
    if s.drain = .outside ∧ s.pool.jobs ≠ [] then some { s with drain := .popping [] } else none
  | .drainPop =>
    match s.drain, s.pool.jobs with
    | .popping finished, j :: js =>
      if j.done then
        some { s with
          drain := .popping (finished ++ [j])
          pool := { s.pool with jobs := js, nextUnclaimed := sizePred s.pool.nextUnclaimed } }
      else none
    | _, _ => none
  | .drainLeave =>
    match s.drain with
    | .popping finished =>
      if (s.pool.jobs.head?.all fun j => !j.done) then some { s with drain := .rebinding finished }
      else none
    | _ => none
  | .rebind =>
    match s.drain with
    | .rebinding (j :: finished) =>
      some { s with drain := .rebinding finished, pool := s.pool.applyFinished j }
    | .rebinding [] => some { s with drain := .outside }
    | _ => none
  | .worker w act =>
    match act, s.drain with
    | .claim, .popping _ => none
    | .claim, _ =>
      (s.pool.workerStep w .claim).map fun pool => { s with
        pool
        claims := s.claims ++ (pool.holds w).toList.map fun ptr => (w, ptr) }
    | act, _ => (s.pool.workerStep w act).map fun pool => { s with pool }

def Step (s : QueueState) (op : QueueOp) (s' : QueueState) : Prop := s.next op = some s'

/-- The state as a work queue. -/
def queue (s : QueueState) : Queue JobPtr WorkerId where
  items := s.pool.jobs.map fun j => ⟨j.ptr, j.done⟩
  cursor := s.pool.nextUnclaimed
  holder := s.pool.holds
  queued := s.queued
  claims := s.claims

/-- The queue is in order, and its names are handed out by the counter. -/
structure Ordered (s : QueueState) : Prop where
  inv : s.queue.Inv
  names_lt : ∀ x ∈ s.queued, x < s.pool.nextJob

end QueueState

/-! ## Scheduler calls -/

/-- What calls leave of the queue that queue nothing: jobs may be cancelled. -/
structure SameQueue (p p' : BlockPool) : Prop where
  jobs : p'.jobs.map (fun j => (⟨j.ptr, j.done⟩ : Item JobPtr)) =
    p.jobs.map fun j => ⟨j.ptr, j.done⟩
  cursor : p'.nextUnclaimed = p.nextUnclaimed
  workers : p'.workers = p.workers
  nextJob : p'.nextJob = p.nextJob

theorem SameQueue.refl (p : BlockPool) : SameQueue p p := ⟨rfl, rfl, rfl, rfl⟩

theorem SameQueue.cancelMigration (p : BlockPool) (id : BlockId) :
    SameQueue p (p.cancelMigration id) := by
  unfold BlockPool.cancelMigration
  split
  · exact .refl p
  · refine ⟨?_, rfl, rfl, rfl⟩
    rw [List.map_map]
    refine List.map_congr_left fun j _ => ?_
    simp only [Function.comp_apply]
    split <;> rfl

theorem SameQueue.length (h : SameQueue p p') : p'.jobs.length = p.jobs.length := by
  have := congrArg List.length h.jobs
  rwa [List.length_map, List.length_map] at this

/-- The queue and the in-flight map are the same. -/
structure SameJobs (p p' : BlockPool) : Prop where
  jobs : p'.jobs = p.jobs
  migratingIds : p'.migratingIds = p.migratingIds
  cursor : p'.nextUnclaimed = p.nextUnclaimed
  workers : p'.workers = p.workers
  nextJob : p'.nextJob = p.nextJob

theorem SameJobs.sameQueue (h : SameJobs p p') : SameQueue p p' :=
  ⟨by rw [h.jobs], h.cursor, h.workers, h.nextJob⟩

/-- A call leaves the queue alone, cancels the migration of one block, or queues one job at the
end. -/
theorem schedule_cases {op : PoolOp} (h : p.schedule op = some p') :
    SameJobs p p' ∨ (∃ id, SameJobs (p.cancelMigration id) p') ∨
      ∃ id l l', p' = p.enqueue id l l' := by
  cases op with
  | allocate =>
    obtain ⟨_, he⟩ := toOption_snd h
    unfold allocate at he
    split at he
    · split at he
      · cases he
      · cases he
        exact .inl ⟨rfl, rfl, rfl, rfl, rfl⟩
    · cases he
      exact .inl ⟨rfl, rfl, rfl, rfl, rfl⟩
  | incref id =>
    obtain ⟨-, -, rfl⟩ := incref_ok (toOption_eq_some h)
    exact .inl ⟨rfl, rfl, rfl, rfl, rfl⟩
  | decref id =>
    obtain ⟨_, he⟩ := toOption_snd h
    obtain ⟨-, ⟨-, -, rfl⟩ | ⟨-, -, rfl⟩⟩ := decref_ok he
    · exact .inr (.inl ⟨id, rfl, rfl, rfl, rfl, rfl⟩)
    · exact .inl ⟨rfl, rfl, rfl, rfl, rfl⟩
  | migrate id dst =>
    obtain ⟨_, he⟩ := toOption_snd h
    obtain ⟨-, -, ⟨-, -, rfl⟩ | ⟨-, -, -, rfl⟩ | ⟨-, -, slot, slots, -, rfl⟩⟩ := migrate_cases he
    · exact .inr (.inl ⟨id, rfl, rfl, rfl, rfl, rfl⟩)
    · exact .inr (.inl ⟨id, rfl, rfl, rfl, rfl, rfl⟩)
    · exact .inr (.inl ⟨id, rfl, rfl, rfl, rfl, rfl⟩)
  | migrateAsync id dst =>
    obtain ⟨_, he⟩ := toOption_snd h
    obtain ⟨-, -, ⟨-, rfl, -⟩ | ⟨-, -, -, slot, slots, -, rfl⟩⟩ := migrateAsync_cases he
    · exact .inl ⟨rfl, rfl, rfl, rfl, rfl⟩
    · exact .inr (.inr ⟨id, _, _, rfl⟩)
  | cancelMigration id =>
    cases h
    exact .inr (.inl ⟨id, rfl, rfl, rfl, rfl, rfl⟩)
  | drainMigrations => cases h
  | waitForMigrations => cases h
  | worker w act => cases h

/-- A call queues one job at the end, or none. -/
theorem schedule_queue {op : PoolOp} (h : p.schedule op = some p') :
    SameQueue p p' ∨ ∃ id l l', p' = p.enqueue id l l' := by
  rcases schedule_cases h with hs | ⟨id, hs⟩ | hq
  · exact .inl hs.sameQueue
  · have hc := SameQueue.cancelMigration p id
    have hs := hs.sameQueue
    exact .inl ⟨hs.jobs.trans hc.jobs, hs.cursor.trans hc.cursor, hs.workers.trans hc.workers,
      hs.nextJob.trans hc.nextJob⟩
  · exact .inr hq

namespace QueueState

variable {s s' : QueueState}

theorem queue_congr (hs : SameQueue s.pool s'.pool) (hq : s'.queued = s.queued)
    (hc : s'.claims = s.claims) : s'.queue = s.queue := by
  unfold queue holds
  rw [hs.jobs, hs.cursor, hs.workers, hq, hc]

theorem Ordered.same (h : s.Ordered) (hs : SameQueue s.pool s'.pool) (hq : s'.queued = s.queued)
    (hc : s'.claims = s.claims) : s'.Ordered :=
  ⟨queue_congr hs hq hc ▸ h.inv, by rw [hq, hs.nextJob]; exact h.names_lt⟩

theorem Ordered.call (h : s.Ordered) {op : PoolOp} (he : s.next (.call op) = some s') :
    s'.Ordered := by
  simp only [next] at he
  split at he
  · obtain ⟨p', hp, rfl⟩ := Option.map_eq_some_iff.mp he
    rcases schedule_queue hp with hs | ⟨id, l, l', rfl⟩
    · refine h.same hs ?_ rfl
      show s.queued ++ _ = s.queued
      rw [← hs.length, List.drop_length, List.map_nil, List.append_nil]
    · -- the new job gets the counter's next value, which was never queued
      have hdrop : ((s.pool.enqueue id l l').jobs.drop s.pool.jobs.length).map (·.ptr) =
          [s.pool.nextJob] := by
        show ((s.pool.jobs ++ [_]).drop _).map _ = _
        rw [List.drop_left]
        rfl
      have hnew : s.pool.nextJob ∉ s.queued := fun hm => Nat.lt_irrefl _ (h.names_lt _ hm)
      refine ⟨h.inv.next (show s.queue.next (.push s.pool.nextJob) = some _ from ?_), ?_⟩
      · simp only [Queue.next]
        rw [if_neg (show s.pool.nextJob ∉ s.queue.queued from hnew)]
        refine congrArg some ?_
        unfold queue
        simp only [hdrop]
        simp only [enqueue, List.map_append, List.map_cons, List.map_nil]
        rfl
      · intro x hx
        have hx : x ∈ s.queued ++ _ := hx
        rw [hdrop] at hx
        show x < s.pool.nextJob + 1
        rcases List.mem_append.mp hx with hx | hx
        · exact Nat.lt_succ_of_lt (h.names_lt x hx)
        · rw [List.mem_singleton.mp hx]
          exact Nat.lt_succ_self _
  · cases he

/-! ## Worker actions -/

theorem holds_update (p : BlockPool) (w : WorkerId) (pc : WorkerPc) (js : List MigrationJob)
    (n : Nat) (mem : Arena.Mem TierIndex UInt8) :
    holds { p with
      jobs := js, nextUnclaimed := n, mem := mem
      workers := Function.update p.workers w pc } = Function.update p.holds w pc.job? := by
  funext v
  unfold holds
  by_cases hv : v = w
  · subst hv
    rw [Function.update_self]
    simp only [Function.update_self]
  · rw [Function.update_of_ne hv]
    simp only [Function.update_of_ne hv]

/-- Workers that go on with the job they hold. -/
theorem queue_advance {pc : WorkerPc} (hpc : pc.job? = s.pool.holds w)
    (mem : Arena.Mem TierIndex UInt8) :
    queue { s with pool := { s.pool with
      workers := Function.update s.pool.workers w pc, mem := mem } } = s.queue := by
  unfold queue
  have hholds := holds_update s.pool w pc s.pool.jobs s.pool.nextUnclaimed mem
  simp only [hholds, hpc, Function.update_eq_self]

theorem Ordered.claim (h : s.Ordered) {p' : BlockPool}
    (he : s.pool.workerStep w .claim = some p') :
    Ordered { s with
      pool := p', claims := s.claims ++ (p'.holds w).toList.map fun ptr => (w, ptr) } := by
  rcases workerStep_cases he with ⟨j, _, hidle, hj, rfl⟩ | ⟨_, _, ha, _⟩ | ⟨_, _, ha, _⟩ |
      ⟨_, _, _, ha, _⟩ | ⟨_, _, ha, _⟩
  · refine ⟨h.inv.next (show s.queue.next (.claim w) = some _ from ?_), h.names_lt⟩
    have hholds := holds_update s.pool w (.claimed j.ptr) s.pool.jobs (s.pool.nextUnclaimed + 1)
      s.pool.mem
    have hnone : s.queue.holder w = none := by
      show (s.pool.workers w).job? = none
      rw [hidle]
      rfl
    have hitem : s.queue.items[s.queue.cursor]? = some ⟨j.ptr, j.done⟩ := by
      show (s.pool.jobs.map _)[s.pool.nextUnclaimed]? = _
      rw [List.getElem?_map, hj]
      rfl
    simp only [Queue.next, hnone, hitem]
    refine congrArg some ?_
    unfold queue
    simp only [hholds, Function.update_self]
    rfl
  all_goals cases ha

theorem Ordered.work (h : s.Ordered) {act : WorkerAct} {p' : BlockPool} (hact : act ≠ .claim)
    (he : s.pool.workerStep w act = some p') : Ordered { s with pool := p' } := by
  rcases workerStep_cases he with ⟨_, ha, _⟩ | ⟨ptr, j, _, hw, _, rfl⟩ | ⟨ptr, j, _, hw, _, rfl⟩ |
      ⟨_, ptr, j, _, hw, _, _, _, rfl⟩ | ⟨ptr, j, _, hw, _, rfl⟩
  · exact absurd ha hact
  · refine ⟨?_, h.names_lt⟩
    have hpc : (if j.cancelled then WorkerPc.finishing ptr else .copying ptr).job? =
        s.pool.holds w := by
      unfold holds
      rw [hw]
      split <;> rfl
    exact (queue_advance hpc _).symm ▸ h.inv
  · refine ⟨?_, h.names_lt⟩
    have hpc : (WorkerPc.finishing ptr).job? = s.pool.holds w := by
      unfold holds
      rw [hw]
      rfl
    exact (queue_advance hpc _).symm ▸ h.inv
  · exact ⟨h.inv, h.names_lt⟩
  · refine ⟨h.inv.next (show s.queue.next (.finish w) = some _ from ?_), h.names_lt⟩
    have hholds := holds_update s.pool w .idle
      (s.pool.jobs.map fun j => if j.ptr = ptr then { j with done := true } else j)
      s.pool.nextUnclaimed s.pool.mem
    have hsome : s.queue.holder w = some ptr := by
      show (s.pool.workers w).job? = _
      rw [hw]
      rfl
    simp only [Queue.next, hsome]
    refine congrArg some ?_
    unfold queue
    simp only [hholds, List.map_map]
    congr 1
    refine List.map_congr_left fun j _ => ?_
    simp only [Function.comp_apply, markDone]
    split <;> rfl

/-! ## Draining -/

theorem applyFinished_sameQueue (p : BlockPool) (j : MigrationJob) :
    SameQueue p (p.applyFinished j) := by
  unfold applyFinished
  split <;> exact ⟨rfl, rfl, rfl, rfl⟩

theorem Ordered.pop (h : s.Ordered) {j : MigrationJob} {js : List MigrationJob} {d : DrainPc}
    (hj : s.pool.jobs = j :: js) (hd : j.done = true) :
    Ordered { s with
      drain := d
      pool := { s.pool with jobs := js, nextUnclaimed := sizePred s.pool.nextUnclaimed } } := by
  refine ⟨h.inv.next (show s.queue.next .pop = some _ from ?_), h.names_lt⟩
  have hitems : s.queue.items = ⟨j.ptr, j.done⟩ :: js.map fun j => ⟨j.ptr, j.done⟩ := by
    show s.pool.jobs.map _ = _
    rw [hj]
    rfl
  have hpos : 0 < s.pool.nextUnclaimed := h.inv.cursor_pos hitems hd
  simp only [Queue.next, hitems, hd, if_true]
  refine congrArg some ?_
  have hpred : sizePred s.pool.nextUnclaimed = s.pool.nextUnclaimed - 1 := by
    obtain ⟨n, hn⟩ := Nat.exists_eq_succ_of_ne_zero (Nat.ne_of_gt hpos)
    rw [hn]
    rfl
  unfold queue
  simp only [hpred]
  rfl

/-- **Every step keeps the queue in order.** -/
theorem Ordered.next (h : s.Ordered) {op : QueueOp} (he : Step s op s') : s'.Ordered := by
  have he : s.next op = some s' := he
  cases op with
  | call op => exact h.call he
  | drainEnter =>
    simp only [QueueState.next] at he
    split at he
    · cases he
      exact h.same (.refl _) rfl rfl
    · cases he
  | drainPop =>
    simp only [QueueState.next] at he
    split at he
    · rename_i j js _ hj
      split at he
      · rename_i hd
        cases he
        exact h.pop hj hd
      · cases he
    · cases he
  | drainLeave =>
    simp only [QueueState.next] at he
    split at he
    · split at he
      · cases he
        exact h.same (.refl _) rfl rfl
      · cases he
    · cases he
  | rebind =>
    simp only [QueueState.next] at he
    split at he
    · cases he
      exact h.same (applyFinished_sameQueue _ _) rfl rfl
    · cases he
      exact h.same (.refl _) rfl rfl
    · cases he
  | worker w act =>
    by_cases hact : act = .claim
    · subst hact
      simp only [QueueState.next] at he
      split at he
      · cases he
      · obtain ⟨p', hp, rfl⟩ := Option.map_eq_some_iff.mp he
        exact h.claim hp
      · contradiction
    · have he : (s.pool.workerStep w act).map (fun pool => { s with pool }) = some s' := by
        cases act <;> first | exact he | exact absurd rfl hact
      obtain ⟨p', hp, rfl⟩ := Option.map_eq_some_iff.mp he
      exact h.work hact hp

/-! ## A drain in one piece -/

theorem popFinished_head (js : List MigrationJob) (n : Nat) :
    ((popFinished js n).2.1.head?.all fun j => !j.done) = true := by
  induction js generalizing n with
  | nil => rfl
  | cons j js ih =>
    unfold popFinished
    split
    · exact ih (sizePred n)
    · rename_i hd
      simp only [List.head?_cons, Option.all_some]
      simp [hd]

theorem pop_runs (Q : List JobPtr) (C : List (WorkerId × JobPtr)) (p : BlockPool)
    (js : List MigrationJob) (n : Nat) (finished : List MigrationJob) : ∃ tr,
    Run Step ⟨{ p with jobs := js, nextUnclaimed := n }, .popping finished, Q, C⟩ tr
      ⟨{ p with jobs := (popFinished js n).2.1, nextUnclaimed := (popFinished js n).2.2 },
        .popping (finished ++ (popFinished js n).1), Q, C⟩ := by
  induction js generalizing n finished with
  | nil =>
    refine ⟨[], ?_⟩
    simp only [popFinished, List.append_nil]
    exact .nil
  | cons j js ih =>
    unfold popFinished
    split
    · rename_i hd
      obtain ⟨tr, hr⟩ := ih (sizePred n) (finished ++ [j])
      have hpop : Step ⟨{ p with jobs := j :: js, nextUnclaimed := n }, .popping finished, Q, C⟩
          .drainPop ⟨{ p with jobs := js, nextUnclaimed := sizePred n },
            .popping (finished ++ [j]), Q, C⟩ := by
        show QueueState.next _ _ = _
        simp only [QueueState.next, hd, if_true]
      rw [List.append_assoc] at hr
      exact ⟨.drainPop :: tr, (Run.single hpop).append hr⟩
    · refine ⟨[], ?_⟩
      rw [List.append_nil]
      exact .nil

theorem rebind_runs (Q : List JobPtr) (C : List (WorkerId × JobPtr)) (p : BlockPool)
    (finished : List MigrationJob) : ∃ tr,
    Run Step ⟨p, .rebinding finished, Q, C⟩ tr
      ⟨finished.foldl applyFinished p, .rebinding [], Q, C⟩ := by
  induction finished generalizing p with
  | nil => exact ⟨[], .nil⟩
  | cons j finished ih =>
    obtain ⟨tr, hr⟩ := ih (p.applyFinished j)
    exact ⟨.rebind :: tr, Run.append (.single rfl) hr⟩

/-- The steps of a drain nobody interferes with are `drainMigrations`. -/
theorem drain_runs (Q : List JobPtr) (C : List (WorkerId × JobPtr)) (hp : p.jobs ≠ []) : ∃ tr,
    Run Step ⟨p, .outside, Q, C⟩ tr ⟨p.drainMigrations, .outside, Q, C⟩ := by
  obtain ⟨tr₁, h₁⟩ := pop_runs Q C p p.jobs p.nextUnclaimed []
  obtain ⟨tr₂, h₂⟩ := rebind_runs Q C
    { p with
      jobs := (popFinished p.jobs p.nextUnclaimed).2.1
      nextUnclaimed := (popFinished p.jobs p.nextUnclaimed).2.2 }
    (popFinished p.jobs p.nextUnclaimed).1
  have henter : Step ⟨p, .outside, Q, C⟩ .drainEnter ⟨p, .popping [], Q, C⟩ := by
    show QueueState.next _ _ = _
    exact if_pos ⟨rfl, hp⟩
  have hback : Step ⟨p.drainMigrations, .rebinding [], Q, C⟩ .rebind
      ⟨p.drainMigrations, .outside, Q, C⟩ := rfl
  have hleave := popFinished_head p.jobs p.nextUnclaimed
  refine ⟨_, (((Run.single henter).append h₁).snoc (l := .drainLeave) ?_).append
    (h₂.snoc hback)⟩
  show QueueState.next _ _ = _
  simp only [QueueState.next, hleave, if_true, List.nil_append]

/-! ## The protocol -/

/-- What holds of the queue at every moment. -/
structure QueueProtocol (s : QueueState) : Prop where
  cursor_le : s.pool.nextUnclaimed ≤ s.pool.jobs.length
  no_underflow : ∀ j js, s.pool.jobs = j :: js → j.done = true → 0 < s.pool.nextUnclaimed
  claimed_iff : ∀ i j, s.pool.jobs[i]? = some j →
    (i < s.pool.nextUnclaimed ↔ j.ptr ∈ s.claims.map (·.2))
  in_order : ∃ gone, s.queued = gone ++ s.pool.jobs.map (·.ptr) ∧
    s.claims.map (·.2) = s.queued.take (gone.length + s.pool.nextUnclaimed)
  queued_once : s.queued.Nodup
  claimed_once : (s.claims.map (·.2)).Nodup
  done_claimed : ∀ i j, s.pool.jobs[i]? = some j → j.done = true → i < s.pool.nextUnclaimed
  held : ∀ w ptr, s.pool.holds w = some ptr →
    (w, ptr) ∈ s.claims ∧ ∃ j ∈ s.pool.jobs, j.ptr = ptr ∧ j.done = false

theorem Ordered.protocol (h : s.Ordered) : QueueProtocol s := by
  have hget : ∀ {i : Nat} {j : MigrationJob}, s.pool.jobs[i]? = some j →
      s.queue.items[i]? = some ⟨j.ptr, j.done⟩ := by
    intro i j hj
    show (s.pool.jobs.map _)[i]? = _
    rw [List.getElem?_map, hj]
    rfl
  have hitems : s.queue.items.map (·.name) = s.pool.jobs.map (·.ptr) := by
    show (s.pool.jobs.map _).map _ = _
    rw [List.map_map]
    rfl
  obtain ⟨hclaims, hdrop, hnd⟩ := h.inv.claims_eq
  refine ⟨?_, ?_, fun i j hj => h.inv.claimed_iff (hget hj), ?_, hnd, h.inv.claims_nodup,
    fun i j hj hd => h.inv.done_lt (hget hj) hd, ?_⟩
  · have := h.inv.cursor_le
    rw [show s.queue.items.length = s.pool.jobs.length from List.length_map _] at this
    exact this
  · intro j js hj hd
    refine h.inv.done_lt (i := 0) (hget ?_) hd
    rw [hj]
    rfl
  · refine ⟨s.queued.take (s.queue.queued.length - s.queue.items.length), ?_, ?_⟩
    · rw [← hitems, hdrop]
      exact (List.take_append_drop _ _).symm
    · have hlen : (s.queued.take (s.queue.queued.length - s.queue.items.length)).length =
          s.queue.queued.length - s.queue.items.length := by
        rw [List.length_take]
        exact Nat.min_eq_left (Nat.sub_le _ _)
      rw [hlen]
      exact hclaims
  · intro w ptr hw
    obtain ⟨hc, it, hit, hn, hd⟩ := h.inv.held hw
    obtain ⟨j, hj, rfl⟩ := List.mem_map.mp hit
    exact ⟨hc, j, hj, hn, hd⟩

theorem ordered_init {cfg : CacheConfig} {specs : List TierSpec} {mem : Arena.Mem TierIndex UInt8}
    (h : BlockPool.init cfg specs mem = .ok p) : Ordered { pool := p } := by
  obtain ⟨_, states, _, rfl⟩ := init_ok h
  exact ⟨.empty rfl rfl (fun _ => rfl) rfl rfl, nofun⟩

/-- **The work queue protocol.**  After any interleaving of scheduler calls, steps of drains and
actions of any number of workers the cursor is within the queue and a drain does not take it below
zero; the jobs below it are the claimed ones; claims were made in queue order, none skipped and
none twice; done jobs are below the cursor; and a job a worker holds is still queued. -/
theorem work_queue_protocol {cfg : CacheConfig} {specs : List TierSpec}
    {mem : Arena.Mem TierIndex UInt8} {p₀ : BlockPool} {tr : List QueueOp}
    (h0 : BlockPool.init cfg specs mem = .ok p₀) (hrun : Run Step { pool := p₀ } tr s) :
    QueueProtocol s :=
  (hrun.invariant (fun _ _ _ hi hs => hi.next hs) (ordered_init h0)).protocol

/-- Two workers claim two demotions; the second is finished first, the first is cancelled under
way, and a drain that finds neither done at its start pops both. -/
def overtakeTrace : List QueueOp :=
  [.call .allocate, .call .allocate, .call (.migrateAsync 0 1), .call (.migrateAsync 1 1),
    .worker 0 .claim, .worker 1 .claim, .worker 1 .check, .worker 1 .copy, .worker 1 .finish,
    .worker 0 .check, .call (.cancelMigration 0), .drainEnter, .worker 0 .copy, .worker 0 .finish,
    .drainPop, .drainPop, .drainLeave]

theorem work_queue_protocol_overtaken : ∃ p₀ s,
    BlockPool.init smallConfig [⟨some ⟨4096, true⟩, 2⟩, ⟨some ⟨4096, true⟩, 2⟩] (fun _ _ => 0) =
      .ok p₀ ∧ Run Step { pool := p₀ } overtakeTrace s ∧ s.pool.jobs = [] ∧ s.queued = [0, 1] ∧
    s.claims = [(0, 0), (1, 1)] ∧ QueueProtocol s := by
  have hs : ((BlockPool.init smallConfig [⟨some ⟨4096, true⟩, 2⟩, ⟨some ⟨4096, true⟩, 2⟩]
      (fun _ _ => 0)).toOption.bind fun p₀ =>
      (exec next { pool := p₀ } overtakeTrace).map fun s => (s.pool.jobs, s.queued, s.claims)) =
      some ([], [0, 1], [(0, 0), (1, 1)]) := by
    decide
  obtain ⟨p₀, h0, hp⟩ := Option.bind_eq_some_iff.mp hs
  obtain ⟨s, hx, he⟩ := Option.map_eq_some_iff.mp hp
  obtain ⟨hj, he⟩ := Prod.mk.inj he
  obtain ⟨hq, hc⟩ := Prod.mk.inj he
  have hi := toOption_eq_some h0
  have hr : Run Step { pool := p₀ } overtakeTrace s := run_of_exec hx
  exact ⟨p₀, s, hi, hr, hj, hq, hc, work_queue_protocol hi hr⟩

end QueueState

end BlockPool

end KvsLab
