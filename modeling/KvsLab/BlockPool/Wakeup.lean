import KvsLab.Lib.Run
import KvsLab.BlockPool

/-!
# The wake-up of `wait_for_migrations`

`worker_loop`, `migrate_async`, `drain_migrations` and `wait_for_migrations` once more, this time
one shared-memory access at a time: who owns `queue_mutex_`, who sleeps on `queue_cv_`, and the
`done` flags of the queued jobs.  What the calls do to slots and locations is the business of
`BlockPool`; here only the queue and the threads matter.

* Testing a wait predicate (with the mutex held) and going to sleep (which releases the mutex) are
  separate steps.  `notify_all` and `notify_one` need no mutex and wake only threads asleep.
* `SchedulerPc` / `LoopPc` — the positions of the two kinds of thread in program order;
  `Act` — which thread moves next, and the choices the code leaves open.
* `Stuck` — the scheduler asleep in the wait with nothing left to wake it.
* `stuck_after_lost_notify` — a run into `Stuck`: the last worker stores `done` and notifies in
  between the waiter's test and its sleep.
* `Heard` — no last notification falls into that gap; `never_stuck` — every run whose steps are
  all `Heard` stays out of `Stuck`.
-/

namespace KvsLab

namespace Wakeup

open Transition

/-- The threads of the pool. -/
inductive Thread where
  | scheduler
  | worker (w : WorkerId)
  deriving DecidableEq, Repr

/-- A queued job: its address and its `done` flag. -/
structure QueuedJob where
  ptr : JobPtr
  done : Bool := false
  deriving DecidableEq, Repr

/-- Where the scheduler thread stands. -/
inductive SchedulerPc where
  /-- between calls -/
  | outside
  -- `migrate_async`, from its critical section on
  | enqueueLock
  | enqueuePush
  | enqueueUnlock
  | ensureWorker
  | notifyOne
  -- `wait_for_migrations`
  | waitLock
  | waitTest
  /-- the predicate was false, the thread does not sleep yet -/
  | waitDoze
  | waitAsleep
  | waitUnlock
  -- `drain_migrations`
  | drainTest
  | drainLock
  | drainPop
  | drainUnlock
  deriving DecidableEq, Repr

/-- Where a worker thread stands in `worker_loop`. -/
inductive LoopPc where
  | notStarted
  | lock
  | test
  /-- the predicate was false, the thread does not sleep yet -/
  | doze
  | asleep
  | claim
  | unlock (job : JobPtr)
  | copy (job : JobPtr)
  | store (job : JobPtr)
  | notify
  deriving DecidableEq, Repr

/-- The shared state and the positions of the threads; `numWorkers` is the `count` of
`ensure_worker`. -/
structure Threads where
  numWorkers : Nat
  mutex : Option Thread
  jobs : List QueuedJob
  nextUnclaimed : Nat
  nextJob : JobPtr
  scheduler : SchedulerPc
  workers : WorkerId → LoopPc

/-- A pool whose `ensure_worker` starts `k` threads, before its first call. -/
def start (k : Nat) : Threads where
  numWorkers := k
  mutex := none
  jobs := []
  nextUnclaimed := 0
  nextJob := 0
  scheduler := .outside
  workers := fun _ => .notStarted

/-- The calls of the scheduler that touch the queue. -/
inductive Call where
  | migrateAsync
  | drainMigrations
  | waitForMigrations
  deriving DecidableEq, Repr

/-- Which thread moves next. -/
inductive Act where
  /-- the scheduler enters a call -/
  | call (c : Call)
  /-- the scheduler takes the next step of its call -/
  | scheduler
  /-- `notify_one` reaches one of the sleepers, or nobody when none sleeps -/
  | notifyOne (target : Option WorkerId)
  /-- worker `w` takes its next step -/
  | worker (w : WorkerId)
  deriving DecidableEq, Repr

/-! ## Steps -/

/-- Take the mutex, if nobody has it. -/
def acquire (s : Threads) (t : Thread) : Option Threads :=
  if s.mutex = none then some { s with mutex := some t } else none

def allDone (s : Threads) : Bool := s.jobs.all (·.done)

/-- A woken worker contends for the mutex and tests its predicate again. -/
def wakeWorker (pc : LoopPc) : LoopPc := if pc = .asleep then .lock else pc

def wakeScheduler (pc : SchedulerPc) : SchedulerPc := if pc = .waitAsleep then .waitLock else pc

/-- `queue_cv_.notify_all()`. -/
def notifyAll (s : Threads) : Threads :=
  { s with
    scheduler := wakeScheduler s.scheduler
    workers := fun w => wakeWorker (s.workers w) }

/-- `ensure_worker`. -/
def ensureWorker (s : Threads) : Threads :=
  { s with workers := fun w =>
      if w < s.numWorkers ∧ s.workers w = .notStarted then .lock else s.workers w }

/-- The next step of the scheduler inside a call. -/
def schedulerStep (s : Threads) : Option Threads :=
  match s.scheduler with
  | .enqueueLock => do
    let s ← acquire s .scheduler
    return { s with scheduler := .enqueuePush }
  | .enqueuePush =>
    some { s with
      jobs := s.jobs ++ [⟨s.nextJob, false⟩]
      nextJob := s.nextJob + 1
      scheduler := .enqueueUnlock }
  | .enqueueUnlock => some { s with mutex := none, scheduler := .ensureWorker }
  | .ensureWorker => some { ensureWorker s with scheduler := .notifyOne }
  | .waitLock => do
    let s ← acquire s .scheduler
    return { s with scheduler := .waitTest }
  | .waitTest => some { s with scheduler := if allDone s then .waitUnlock else .waitDoze }
  | .waitDoze => some { s with mutex := none, scheduler := .waitAsleep }
  | .waitUnlock => some { s with mutex := none, scheduler := .drainTest }
  | .drainTest =>
    some { s with scheduler := if s.jobs.isEmpty then .outside else .drainLock }
  | .drainLock => do
    let s ← acquire s .scheduler
    return { s with scheduler := .drainPop }
  | .drainPop =>
    match s.jobs with
    | ⟨_, true⟩ :: js => some { s with jobs := js, nextUnclaimed := sizePred s.nextUnclaimed }
    | _ => some { s with scheduler := .drainUnlock }
  | .drainUnlock => some { s with mutex := none, scheduler := .outside }
  | .outside | .notifyOne | .waitAsleep => none

def setWorker (s : Threads) (w : WorkerId) (pc : LoopPc) : Threads :=
  { s with workers := Function.update s.workers w pc }

/-- The next step of worker `w`. -/
def workerStep (s : Threads) (w : WorkerId) : Option Threads :=
  match s.workers w with
  | .lock => do
    let s ← acquire s (.worker w)
    return setWorker s w .test
  | .test => some (setWorker s w (if s.nextUnclaimed < s.jobs.length then .claim else .doze))
  | .doze => some (setWorker { s with mutex := none } w .asleep)
  | .claim => do
    let job ← s.jobs[s.nextUnclaimed]?
    return setWorker { s with nextUnclaimed := s.nextUnclaimed + 1 } w (.unlock job.ptr)
  | .unlock job => some (setWorker { s with mutex := none } w (.copy job))
  | .copy job => some (setWorker s w (.store job))
  | .store job =>
    let jobs := s.jobs.map fun j => if j.ptr = job then { j with done := true } else j
    some (setWorker { s with jobs := jobs } w .notify)
  | .notify => some (setWorker (notifyAll s) w .lock)
  | .notStarted | .asleep => none

/-- `notify_one`: any one sleeper is reached, and somebody is when somebody sleeps. -/
def notifyOneStep (s : Threads) (target : Option WorkerId) : Option Threads :=
  match target with
  | some w =>
    if w < s.numWorkers ∧ s.workers w = .asleep then
      some { setWorker s w .lock with scheduler := .outside }
    else none
  | none =>
    if ∀ w < s.numWorkers, s.workers w ≠ .asleep then some { s with scheduler := .outside }
    else none

def entry : Call → SchedulerPc
  | .migrateAsync => .enqueueLock
  | .drainMigrations => .drainTest
  | .waitForMigrations => .waitLock

def next (s : Threads) : Act → Option Threads
  | .call c => if s.scheduler = .outside then some { s with scheduler := entry c } else none
  | .scheduler => schedulerStep s
  | .notifyOne target => if s.scheduler = .notifyOne then notifyOneStep s target else none
  | .worker w => if w < s.numWorkers then workerStep s w else none

def Step (s : Threads) (a : Act) (s' : Threads) : Prop := next s a = some s'

/-- The scheduler sleeps inside `wait_for_migrations`, every job is done and every worker
sleeps. -/
def Stuck (s : Threads) : Prop :=
  s.scheduler = .waitAsleep ∧ allDone s = true ∧ ∀ w < s.numWorkers, s.workers w = .asleep

instance (s : Threads) : Decidable (Stuck s) :=
  inferInstanceAs (Decidable (_ ∧ _ ∧ ∀ w < s.numWorkers, s.workers w = .asleep))

/-! ## The lost wake-up -/

/-- One worker, one job.  The waiter tests while the copy runs; the worker stores `done` and
notifies before the waiter is asleep; then everybody goes to sleep. -/
def lostNotify : List Act :=
  [.call .migrateAsync, .scheduler, .scheduler, .scheduler, .scheduler, .notifyOne none,
    .worker 0, .worker 0, .worker 0, .worker 0, .worker 0,
    .call .waitForMigrations, .scheduler, .scheduler,
    .worker 0, .worker 0,
    .scheduler,
    .worker 0, .worker 0, .worker 0]

/-- The gap is real: this run ends with every thread asleep and every job done. -/
theorem stuck_after_lost_notify : ∃ s, Run Step (start 1) lostNotify s ∧ Stuck s := by
  have h : (exec next (start 1) lostNotify).map (fun s => decide (Stuck s)) = some true := by
    decide
  obtain ⟨s, hs, hst⟩ := Option.map_eq_some_iff.mp h
  exact ⟨s, run_of_exec hs, of_decide_eq_true hst⟩

/-! ## Runs without the gap -/

/-- The step does not send the last outstanding notification, with every job done, in between
the waiter's test and its sleep. -/
def Heard (s : Threads) : Act → Prop
  | .worker w => s.workers w = .notify → s.scheduler = .waitDoze → allDone s = true →
      ∃ v < s.numWorkers, v ≠ w ∧ s.workers v = .notify
  | _ => True

instance (s : Threads) : (a : Act) → Decidable (Heard s a)
  | .worker w => inferInstanceAs (Decidable (s.workers w = .notify → s.scheduler = .waitDoze →
      allDone s = true → ∃ v < s.numWorkers, v ≠ w ∧ s.workers v = .notify))
  | .call _ | .scheduler | .notifyOne _ => isTrue trivial

/-- Inside or about to be inside the sleep of `wait_for_migrations`. -/
def SchedulerPc.drowsy : SchedulerPc → Bool
  | .waitDoze | .waitAsleep => true
  | _ => false

/-- A waiter that sleeps, or is about to, with every job done has a notification coming. -/
def WakeupComing (s : Threads) : Prop :=
  s.scheduler.drowsy = true → allDone s = true → ∃ w < s.numWorkers, s.workers w = .notify

variable {s s' : Threads} {w : WorkerId}

theorem WakeupComing.not_stuck (h : WakeupComing s) : ¬ Stuck s := by
  rintro ⟨hs, hd, hw⟩
  obtain ⟨w, hlt, hn⟩ := h (by rw [hs]; rfl) hd
  rw [hw w hlt] at hn
  cases hn

theorem acquire_ok {t : Thread} (h : acquire s t = some s') :
    s.mutex = none ∧ s' = { s with mutex := some t } := by
  unfold acquire at h
  split at h
  · rename_i hm
    exact ⟨hm, (Option.some.inj h).symm⟩
  · cases h

/-- The scheduler enters the gap only after it saw a job that is not done, and leaves it for
its sleep; every other step ends outside both. -/
theorem schedulerStep_cases (he : schedulerStep s = some s') :
    s'.scheduler.drowsy = false ∨
    (allDone s = false ∧ s' = { s with scheduler := .waitDoze }) ∨
    (s.scheduler = .waitDoze ∧ s' = { s with mutex := none, scheduler := .waitAsleep }) := by
  unfold schedulerStep at he
  cases hpc : s.scheduler with
  | enqueueLock | waitLock | drainLock =>
    simp only [hpc] at he
    obtain ⟨_, _, he⟩ := Option.bind_eq_some_iff.mp he
    cases he
    exact .inl rfl
  | enqueuePush | enqueueUnlock | ensureWorker | waitUnlock | drainUnlock =>
    simp only [hpc] at he
    cases he
    exact .inl rfl
  | waitTest =>
    simp only [hpc] at he
    cases hd : allDone s with
    | true =>
      rw [hd] at he
      cases he
      exact .inl rfl
    | false =>
      rw [hd] at he
      cases he
      exact .inr (.inl ⟨rfl, rfl⟩)
  | waitDoze =>
    simp only [hpc] at he
    cases he
    exact .inr (.inr ⟨rfl, rfl⟩)
  | drainTest =>
    simp only [hpc] at he
    cases he
    refine .inl ?_
    show SchedulerPc.drowsy (if _ then _ else _) = false
    split <;> rfl
  | drainPop =>
    simp only [hpc] at he
    split at he
    · cases he
      exact .inl rfl
    · cases he
      exact .inl rfl
  | outside | notifyOne | waitAsleep =>
    simp only [hpc] at he
    cases he

/-- What a step of worker `w` does to the scheduler, the flags and the other workers. -/
theorem workerStep_cases (he : workerStep s w = some s') :
    s'.numWorkers = s.numWorkers ∧
    ((s.workers w ≠ .notify ∧ s'.scheduler = s.scheduler ∧ s'.jobs = s.jobs ∧
      ∀ v ≠ w, s'.workers v = s.workers v) ∨
    (s'.scheduler = s.scheduler ∧ s'.workers w = .notify) ∨
    (s.workers w = .notify ∧ s'.scheduler = wakeScheduler s.scheduler ∧ s'.jobs = s.jobs ∧
      ∀ v ≠ w, s'.workers v = wakeWorker (s.workers v))) := by
  unfold workerStep at he
  cases hpc : s.workers w with
  | lock =>
    simp only [hpc] at he
    obtain ⟨_, ha, he⟩ := Option.bind_eq_some_iff.mp he
    obtain ⟨_, rfl⟩ := acquire_ok ha
    cases he
    exact ⟨rfl, .inl ⟨by simp, rfl, rfl, fun v hv => Function.update_of_ne hv _ _⟩⟩
  | test | doze | unlock | copy =>
    simp only [hpc] at he
    cases he
    exact ⟨rfl, .inl ⟨by simp, rfl, rfl, fun v hv => Function.update_of_ne hv _ _⟩⟩
  | claim =>
    simp only [hpc] at he
    obtain ⟨_, _, he⟩ := Option.bind_eq_some_iff.mp he
    cases he
    exact ⟨rfl, .inl ⟨by simp, rfl, rfl, fun v hv => Function.update_of_ne hv _ _⟩⟩
  | store job =>
    simp only [hpc] at he
    cases he
    exact ⟨rfl, .inr (.inl ⟨rfl, Function.update_self _ _ _⟩)⟩
  | notify =>
    simp only [hpc] at he
    cases he
    exact ⟨rfl, .inr (.inr ⟨rfl, rfl, rfl, fun v hv => Function.update_of_ne hv _ _⟩)⟩
  | notStarted | asleep =>
    simp only [hpc] at he
    cases he

/-- The scheduler keeps a notification coming. -/
theorem WakeupComing.schedulerStep (h : WakeupComing s) (he : schedulerStep s = some s') :
    WakeupComing s' := by
  rcases schedulerStep_cases he with hd | ⟨hd, rfl⟩ | ⟨hpc, rfl⟩
  · intro hs
    rw [hd] at hs
    cases hs
  · intro _ hall
    have hall' : allDone s = true := hall
    rw [hd] at hall'
    cases hall'
  · exact fun _ hall => h (by rw [hpc]; rfl) hall

/-- A worker keeps a notification coming: the one that stores the last `done` is about to send
it, and one that is sent reaches a sleeper. -/
theorem WakeupComing.workerStep (h : WakeupComing s) (hlt : w < s.numWorkers)
    (hh : Heard s (.worker w)) (he : workerStep s w = some s') : WakeupComing s' := by
  obtain ⟨hn, ⟨hw, hs, hj, ho⟩ | ⟨hs, hw⟩ | ⟨hw, hs, hj, ho⟩⟩ := workerStep_cases he
  · -- the notifier of the old state is another worker, and still there
    intro hd hall
    rw [hs] at hd
    have hall' : allDone s = true := by unfold allDone at hall ⊢; rwa [hj] at hall
    obtain ⟨v, hv, hvn⟩ := h hd hall'
    have hne : v ≠ w := fun e => hw (e ▸ hvn)
    exact ⟨v, hn ▸ hv, by rw [ho v hne, hvn]⟩
  · exact fun _ _ => ⟨w, hn ▸ hlt, hw⟩
  · intro hd hall
    have hall' : allDone s = true := by unfold allDone at hall ⊢; rwa [hj] at hall
    rw [hs] at hd
    have hpc : s.scheduler = .waitDoze := by
      unfold wakeScheduler at hd
      cases hc : s.scheduler <;> simp [hc, SchedulerPc.drowsy] at hd ⊢
    obtain ⟨v, hv, hne, hvn⟩ := hh hw hpc hall'
    exact ⟨v, hn ▸ hv, by rw [ho v hne, hvn]; rfl⟩

/-- **Every heard step keeps a notification coming.** -/
theorem WakeupComing.next {a : Act} (h : WakeupComing s) (hh : Heard s a)
    (he : next s a = some s') : WakeupComing s' := by
  unfold Wakeup.next at he
  cases a with
  | call c =>
    simp only at he
    split at he
    · cases he
      intro hd
      cases c <;> cases hd
    · cases he
  | scheduler => exact h.schedulerStep he
  | notifyOne target =>
    simp only at he
    split at he
    · rename_i hpc
      have ho : s'.scheduler = .outside := by
        unfold notifyOneStep at he
        split at he <;> split at he <;> cases he <;> rfl
      intro hd
      rw [ho] at hd
      cases hd
    · cases he
  | worker w =>
    simp only at he
    split at he
    · rename_i hlt
      exact h.workerStep hlt hh he
    · cases he

/-- **A wait that is notified never sleeps for ever.**  For any number of workers and any
interleaving, as long as no last notification is sent in between the waiter's test of its
predicate and its sleep, no state has the scheduler asleep in `wait_for_migrations` with every
job done and every worker asleep. -/
theorem never_stuck {k : Nat} {tr : List Act}
    (hrun : Run (fun s a s' => Step s a s' ∧ Heard s a) (start k) tr s) : ¬ Stuck s := by
  have h : WakeupComing s := hrun.invariant (fun _ _ _ hi hs => hi.next hs.2 hs.1) nofun
  exact h.not_stuck

/-- The same job with the waiter asleep before the worker notifies: the waiter wakes up. -/
def heardNotify : List Act :=
  [.call .migrateAsync, .scheduler, .scheduler, .scheduler, .scheduler, .notifyOne none,
    .worker 0, .worker 0, .worker 0, .worker 0, .worker 0,
    .call .waitForMigrations, .scheduler, .scheduler, .scheduler,
    .worker 0, .worker 0, .worker 0, .worker 0, .worker 0]

theorem never_stuck_heard : ∃ s, Run (fun s a s' => Step s a s' ∧ Heard s a) (start 1) heardNotify s ∧
    s.workers 0 = .asleep ∧ allDone s = true ∧ s.scheduler = .waitLock ∧ ¬ Stuck s := by
  have h : (exec (fun s a => if Heard s a then next s a else none) (start 1) heardNotify).map
      (fun s => (s.workers 0, allDone s, s.scheduler)) = some (.asleep, true, .waitLock) := by
    decide
  obtain ⟨s, hs, he⟩ := Option.map_eq_some_iff.mp h
  simp only [Prod.mk.injEq] at he
  have hr : Run (fun s a s' => Step s a s' ∧ Heard s a) (start 1) heardNotify s := by
    refine (run_of_exec hs).mono fun s a s' he => ?_
    split at he
    · rename_i hh
      exact ⟨he, hh⟩
    · cases he
  exact ⟨s, hr, he.1, he.2.1, he.2.2, never_stuck hr⟩

end Wakeup

end KvsLab
