import KvsLab.BlockPool.Wakeup

/-!
# The destructor of the pool

`~BlockPool` sets `stopping_` under the mutex, wakes every thread and joins the workers, whatever
they are doing: a worker tests `stopping_` with its wait predicate, and returns from `worker_loop`
once it sees it.

* `Life` — the threads of a pool, with `stopping_`, the position of the destructor and the workers
  that have returned.  Waits may also wake up for no reason (`LifeAct.spurious`).
* `Loops`, `Moves`, `Closes` — what a step of a worker, of the scheduler and of the destructor is;
  `Life.next_cases` — and no step is anything else.
-/

namespace KvsLab

namespace Wakeup

open Transition

/-- Where `~BlockPool` stands. -/
inductive DtorPc where
  /-- not called yet -/
  | alive
  | lock
  | set
  | unlock
  | notify
  /-- the workers before this one are joined -/
  | join (i : Nat)
  | gone
  deriving DecidableEq, Repr

/-- The threads of a pool up to the end of its destructor. -/
structure Life where
  threads : Threads
  stopping : Bool := false
  dtor : DtorPc := .alive
  exited : WorkerId → Bool := fun _ => false

inductive LifeAct where
  | act (a : Act)
  /-- the thread of the scheduler calls the destructor -/
  | destroy
  /-- the destructor takes its next step -/
  | dtor
  /-- a wait wakes up without a notification -/
  | spurious (t : Thread)
  deriving DecidableEq, Repr

/-! ## Steps -/

/-- The next step of worker `w`, which tests `stopping_` too. -/
def loopStep (l : Life) (w : WorkerId) : Option Life :=
  if l.exited w then none
  else
    match l.threads.workers w with
    | .test =>
      let more := l.stopping || decide (l.threads.nextUnclaimed < l.threads.jobs.length)
      some { l with threads := setWorker l.threads w (if more then .claim else .doze) }
    | .claim =>
      if l.stopping then
        some { l with
          threads := { l.threads with mutex := none }
          exited := Function.update l.exited w true }
      else (workerStep l.threads w).map fun s => { l with threads := s }
    | _ => (workerStep l.threads w).map fun s => { l with threads := s }

/-- The next step of the destructor.  A worker that `ensure_worker` never started is not in
`workers_`, so there is nothing to join. -/
def dtorStep (l : Life) : Option Life :=
  match l.dtor with
  | .alive | .gone => none
  | .lock => (acquire l.threads .scheduler).map fun s => { l with threads := s, dtor := .set }
  | .set => some { l with stopping := true, dtor := .unlock }
  | .unlock => some { l with threads := { l.threads with mutex := none }, dtor := .notify }
  | .notify => some { l with threads := notifyAll l.threads, dtor := .join 0 }
  | .join i =>
    if i < l.threads.numWorkers then
      if l.threads.workers i = .notStarted ∨ l.exited i = true then
        some { l with dtor := .join (i + 1) }
      else none
    else some { l with dtor := .gone }

namespace Life

def next (l : Life) : LifeAct → Option Life
  | .act (.call c) =>
    if l.dtor = .alive then (Wakeup.next l.threads (.call c)).map fun s => { l with threads := s }
    else none
  | .act (.worker w) => if w < l.threads.numWorkers then loopStep l w else none
  | .act a => (Wakeup.next l.threads a).map fun s => { l with threads := s }
  | .destroy =>
    if l.dtor = .alive ∧ l.threads.scheduler = .outside then some { l with dtor := .lock } else none
  | .dtor => dtorStep l
  | .spurious .scheduler =>
    if l.threads.scheduler = .waitAsleep then
      some { l with threads := { l.threads with scheduler := .waitLock } }
    else none
  | .spurious (.worker w) =>
    if l.exited w = false ∧ l.threads.workers w = .asleep then
      some { l with threads := setWorker l.threads w .lock }
    else none

def Step (l : Life) (a : LifeAct) (l' : Life) : Prop := l.next a = some l'

/-- A pool before its first call. -/
def born (k : Nat) : Life := { threads := start k }

end Life

/-- `job->done.store(true)`. -/
def markDone (ptr : JobPtr) (jobs : List QueuedJob) : List QueuedJob :=
  jobs.map fun j => if j.ptr = ptr then { j with done := true } else j

/-- What a step of worker `w` is. -/
inductive Loops (l : Life) (w : WorkerId) : Life → Prop where
  | lock (hpc : l.threads.workers w = .lock) (hm : l.threads.mutex = none) :
      Loops l w { l with threads := setWorker { l.threads with mutex := some (.worker w) } w .test }
  | more (hpc : l.threads.workers w = .test)
      (hmore : l.stopping = true ∨ l.threads.nextUnclaimed < l.threads.jobs.length) :
      Loops l w { l with threads := setWorker l.threads w .claim }
  | doze (hpc : l.threads.workers w = .test) (hst : l.stopping = false) :
      Loops l w { l with threads := setWorker l.threads w .doze }
  | sleep (hpc : l.threads.workers w = .doze) :
      Loops l w { l with threads := setWorker { l.threads with mutex := none } w .asleep }
  | exit (hpc : l.threads.workers w = .claim) (hst : l.stopping = true) :
      Loops l w { l with
        threads := { l.threads with mutex := none }
        exited := Function.update l.exited w true }
  | claim (job : QueuedJob) (hpc : l.threads.workers w = .claim) (hst : l.stopping = false)
      (hjob : l.threads.jobs[l.threads.nextUnclaimed]? = some job) :
      Loops l w { l with
        threads := setWorker { l.threads with nextUnclaimed := l.threads.nextUnclaimed + 1 } w
          (.unlock job.ptr) }
  | unlock (ptr : JobPtr) (hpc : l.threads.workers w = .unlock ptr) :
      Loops l w { l with threads := setWorker { l.threads with mutex := none } w (.copy ptr) }
  | copy (ptr : JobPtr) (hpc : l.threads.workers w = .copy ptr) :
      Loops l w { l with threads := setWorker l.threads w (.store ptr) }
  | store (ptr : JobPtr) (hpc : l.threads.workers w = .store ptr) :
      Loops l w { l with
        threads := setWorker { l.threads with jobs := markDone ptr l.threads.jobs } w .notify }
  | notify (hpc : l.threads.workers w = .notify) :
      Loops l w { l with threads := setWorker (notifyAll l.threads) w .lock }

variable {l l' : Life} {w : WorkerId} {s s' : Threads}

theorem loopStep_cases (h : loopStep l w = some l') : l.exited w = false ∧ Loops l w l' := by
  unfold loopStep at h
  split at h
  · cases h
  rename_i hx
  refine ⟨Bool.eq_false_of_not_eq_true hx, ?_⟩
  cases hpc : l.threads.workers w with
  | test =>
    simp only [hpc] at h
    cases h
    split
    · rename_i hmore
      rw [Bool.or_eq_true, decide_eq_true_eq] at hmore
      exact .more hpc hmore
    · rename_i hmore
      rw [Bool.or_eq_true, not_or] at hmore
      exact .doze hpc (Bool.eq_false_of_not_eq_true hmore.1)
  | claim =>
    simp only [hpc] at h
    split at h
    · rename_i hst
      cases h
      exact .exit hpc hst
    · rename_i hst
      obtain ⟨s, hs, rfl⟩ := Option.map_eq_some_iff.mp h
      simp only [workerStep, hpc] at hs
      obtain ⟨job, hjob, hs⟩ := Option.bind_eq_some_iff.mp hs
      cases hs
      exact .claim job hpc (Bool.eq_false_of_not_eq_true hst) hjob
  | lock =>
    simp only [hpc] at h
    obtain ⟨s, hs, rfl⟩ := Option.map_eq_some_iff.mp h
    simp only [workerStep, hpc] at hs
    obtain ⟨s₁, ha, hs⟩ := Option.bind_eq_some_iff.mp hs
    obtain ⟨hm, rfl⟩ := acquire_ok ha
    cases hs
    exact .lock hpc hm
  | doze =>
    simp only [hpc] at h
    obtain ⟨s, hs, rfl⟩ := Option.map_eq_some_iff.mp h
    simp only [workerStep, hpc] at hs
    cases hs
    exact .sleep hpc
  | unlock ptr =>
    simp only [hpc] at h
    obtain ⟨s, hs, rfl⟩ := Option.map_eq_some_iff.mp h
    simp only [workerStep, hpc] at hs
    cases hs
    exact .unlock ptr hpc
  | copy ptr =>
    simp only [hpc] at h
    obtain ⟨s, hs, rfl⟩ := Option.map_eq_some_iff.mp h
    simp only [workerStep, hpc] at hs
    cases hs
    exact .copy ptr hpc
  | store ptr =>
    simp only [hpc] at h
    obtain ⟨s, hs, rfl⟩ := Option.map_eq_some_iff.mp h
    simp only [workerStep, hpc] at hs
    cases hs
    exact .store ptr hpc
  | notify =>
    simp only [hpc] at h
    obtain ⟨s, hs, rfl⟩ := Option.map_eq_some_iff.mp h
    simp only [workerStep, hpc] at hs
    cases hs
    exact .notify hpc
  | notStarted | asleep =>
    simp only [hpc] at h
    obtain ⟨s, hs, -⟩ := Option.map_eq_some_iff.mp h
    simp only [workerStep, hpc] at hs
    cases hs

/-- Inside a critical section. -/
def SchedulerPc.inside : SchedulerPc → Bool
  | .enqueuePush | .enqueueUnlock | .waitTest | .waitDoze | .waitUnlock | .drainPop
  | .drainUnlock => true
  | _ => false

def LoopPc.inside : LoopPc → Bool
  | .test | .doze | .claim | .unlock _ => true
  | _ => false

def DtorPc.inside : DtorPc → Bool
  | .set | .unlock => true
  | _ => false

/-- What a step of the scheduler is. -/
inductive Moves (s : Threads) : Threads → Prop where
  | take (pc : SchedulerPc) (hm : s.mutex = none) (hout : s.scheduler.inside = false)
      (hin : pc.inside = true) :
      Moves s { s with mutex := some .scheduler, scheduler := pc }
  | push (hpc : s.scheduler = .enqueuePush) :
      Moves s { s with
        jobs := s.jobs ++ [⟨s.nextJob, false⟩]
        nextJob := s.nextJob + 1
        scheduler := .enqueueUnlock }
  | pop (ptr : JobPtr) (js : List QueuedJob) (hpc : s.scheduler = .drainPop)
      (hjobs : s.jobs = ⟨ptr, true⟩ :: js) :
      Moves s { s with jobs := js, nextUnclaimed := sizePred s.nextUnclaimed }
  | stay (pc : SchedulerPc) (hin : pc.inside = s.scheduler.inside) :
      Moves s { s with scheduler := pc }
  | release (pc : SchedulerPc) (hin : s.scheduler.inside = true) (hout : pc.inside = false) :
      Moves s { s with mutex := none, scheduler := pc }
  | ensure (hpc : s.scheduler = .ensureWorker) :
      Moves s { ensureWorker s with scheduler := .notifyOne }
  | wake (v : WorkerId) (hpc : s.scheduler = .notifyOne) (hv : s.workers v = .asleep) :
      Moves s { setWorker s v .lock with scheduler := .outside }

theorem schedulerStep_moves (h : schedulerStep s = some s') :
    s.scheduler ≠ .outside ∧ Moves s s' := by
  unfold schedulerStep at h
  cases hpc : s.scheduler with
  | enqueueLock | waitLock | drainLock =>
    simp only [hpc] at h
    obtain ⟨_, ha, h⟩ := Option.bind_eq_some_iff.mp h
    obtain ⟨hm, rfl⟩ := acquire_ok ha
    cases h
    exact ⟨nofun, .take _ hm (by rw [hpc]; rfl) rfl⟩
  | enqueuePush =>
    simp only [hpc] at h
    cases h
    exact ⟨nofun, .push hpc⟩
  | enqueueUnlock | waitDoze | waitUnlock | drainUnlock =>
    simp only [hpc] at h
    cases h
    exact ⟨nofun, .release _ (by rw [hpc]; rfl) rfl⟩
  | ensureWorker =>
    simp only [hpc] at h
    cases h
    exact ⟨nofun, .ensure hpc⟩
  | waitTest =>
    simp only [hpc] at h
    cases h
    exact ⟨nofun, .stay _ (by rw [hpc]; split <;> rfl)⟩
  | drainTest =>
    simp only [hpc] at h
    cases h
    exact ⟨nofun, .stay _ (by rw [hpc]; split <;> rfl)⟩
  | drainPop =>
    simp only [hpc] at h
    split at h
    · rename_i ptr js hjobs
      cases h
      refine ⟨nofun, ?_⟩
      have hpop := Moves.pop ptr js hpc hjobs
      rwa [hpc] at hpop
    · cases h
      exact ⟨nofun, .stay _ (by rw [hpc]; rfl)⟩
  | outside | notifyOne | waitAsleep =>
    simp only [hpc] at h
    cases h

/-- What a step of the destructor is. -/
inductive Closes (l : Life) : Life → Prop where
  | destroy (hd : l.dtor = .alive) (hs : l.threads.scheduler = .outside) :
      Closes l { l with dtor := .lock }
  | lock (hd : l.dtor = .lock) (hm : l.threads.mutex = none) :
      Closes l { l with threads := { l.threads with mutex := some .scheduler }, dtor := .set }
  | set (hd : l.dtor = .set) : Closes l { l with stopping := true, dtor := .unlock }
  | unlock (hd : l.dtor = .unlock) :
      Closes l { l with threads := { l.threads with mutex := none }, dtor := .notify }
  | notify (hd : l.dtor = .notify) :
      Closes l { l with threads := notifyAll l.threads, dtor := .join 0 }
  | join (i : Nat) (hd : l.dtor = .join i) (hlt : i < l.threads.numWorkers)
      (hdone : l.threads.workers i = .notStarted ∨ l.exited i = true) :
      Closes l { l with dtor := .join (i + 1) }
  | gone (i : Nat) (hd : l.dtor = .join i) (hge : l.threads.numWorkers ≤ i) :
      Closes l { l with dtor := .gone }

theorem dtorStep_cases (h : dtorStep l = some l') : Closes l l' := by
  unfold dtorStep at h
  cases hd : l.dtor with
  | alive | gone =>
    simp only [hd] at h
    cases h
  | lock =>
    simp only [hd] at h
    obtain ⟨s, ha, rfl⟩ := Option.map_eq_some_iff.mp h
    obtain ⟨hm, rfl⟩ := acquire_ok ha
    exact .lock hd hm
  | set =>
    simp only [hd] at h
    cases h
    exact .set hd
  | unlock =>
    simp only [hd] at h
    cases h
    exact .unlock hd
  | notify =>
    simp only [hd] at h
    cases h
    exact .notify hd
  | join i =>
    simp only [hd] at h
    split at h
    · rename_i hlt
      split at h
      · rename_i hdone
        cases h
        exact .join i hd hlt hdone
      · cases h
    · rename_i hge
      cases h
      exact .gone i hd (Nat.le_of_not_lt hge)

/-- What a step is. -/
inductive Steps (l : Life) : LifeAct → Life → Prop where
  | scheduler {a : LifeAct} {s' : Threads} (hm : Moves l.threads s')
      (hd : l.dtor = .alive ∨ l.threads.scheduler ≠ .outside) : Steps l a { l with threads := s' }
  | worker {w : WorkerId} {l' : Life} (hlt : w < l.threads.numWorkers) (hx : l.exited w = false)
      (hl : Loops l w l') : Steps l (.act (.worker w)) l'
  | dtor {a : LifeAct} {l' : Life} (hc : Closes l l') : Steps l a l'
  | spurious {w : WorkerId} (hx : l.exited w = false) (hw : l.threads.workers w = .asleep) :
      Steps l (.spurious (.worker w)) { l with threads := setWorker l.threads w .lock }

theorem Life.next_cases {a : LifeAct} (h : l.next a = some l') : Steps l a l' := by
  cases a with
  | act a =>
    cases a with
    | call c =>
      simp only [Life.next, Wakeup.next] at h
      split at h
      · rename_i hd
        obtain ⟨s', hs, rfl⟩ := Option.map_eq_some_iff.mp h
        split at hs
        · rename_i ho
          cases hs
          exact .scheduler (.stay _ (by rw [ho]; cases c <;> rfl)) (.inl hd)
        · cases hs
      · cases h
    | worker w =>
      simp only [Life.next] at h
      split at h
      · rename_i hlt
        obtain ⟨hx, hl⟩ := loopStep_cases h
        exact .worker hlt hx hl
      · cases h
    | scheduler =>
      obtain ⟨s', hs, rfl⟩ := Option.map_eq_some_iff.mp h
      obtain ⟨ho, hm⟩ := schedulerStep_moves hs
      exact .scheduler hm (.inr ho)
    | notifyOne target =>
      obtain ⟨s', hs, rfl⟩ := Option.map_eq_some_iff.mp h
      simp only [Wakeup.next] at hs
      split at hs
      swap
      · cases hs
      rename_i hpc
      have ho : l.threads.scheduler ≠ .outside := by
        rw [hpc]
        nofun
      unfold notifyOneStep at hs
      split at hs
      · split at hs
        · rename_i hw
          cases hs
          exact .scheduler (.wake _ hpc hw.2) (.inr ho)
        · cases hs
      · split at hs
        · cases hs
          exact .scheduler (.stay _ (by rw [hpc]; rfl)) (.inr ho)
        · cases hs
  | destroy =>
    simp only [Life.next] at h
    split at h
    · rename_i hd
      cases h
      exact .dtor (.destroy hd.1 hd.2)
    · cases h
  | dtor => exact .dtor (dtorStep_cases h)
  | spurious t =>
    cases t with
    | scheduler =>
      simp only [Life.next] at h
      split at h
      · rename_i hpc
        cases h
        exact .scheduler (.stay _ (by rw [hpc]; rfl)) (.inr (by rw [hpc]; nofun))
      · cases h
    | worker w =>
      simp only [Life.next] at h
      split at h
      · rename_i hw
        cases h
        exact .spurious hw.1 hw.2
      · cases h

end Wakeup

end KvsLab
