import KvsLab.BlockPool.Shutdown.Invariant
import Mathlib.Algebra.BigOperators.Group.Finset.Basic
import Mathlib.Algebra.Order.BigOperators.Group.Finset

/-!
# The destructor returns

* `potential` — bounds what is left to do once the destructor runs; `potential_steps` — every step but
  a spurious wake-up uses some of it up.
* `LifeInv.progress` — until the destructor has returned some thread can move.
* `destructor_returns` — **the destructor is never blocked for good, returns after a bounded number of
  steps, and leaves no worker running and no claimed job unfinished.**
-/

namespace KvsLab

namespace Wakeup

open Transition

variable {l l' : Life} {w : WorkerId} {s s' : Threads}

/-! ## What is left to do -/

/-- Steps a worker takes at most before it sleeps, returns or claims another job; a notification
may wake all the others, at three steps each. -/
def LoopPc.weight (k : Nat) : LoopPc → Nat
  | .notStarted | .asleep => 0
  | .doze | .claim => 1
  | .test => 2
  | .lock => 3
  | .notify => 3 * k + 4
  | .store _ => 3 * k + 5
  | .copy _ => 3 * k + 6
  | .unlock _ => 3 * k + 7

def DtorPc.weight (k : Nat) : DtorPc → Nat
  | .alive | .gone => 0
  | .join i => k - i + 1
  | .notify => 4 * k + 2
  | .unlock => 4 * k + 3
  | .set => 4 * k + 4
  | .lock => 4 * k + 5

namespace Life

/-- What worker `w` has left to do. -/
def work (l : Life) (w : WorkerId) : Nat :=
  if l.exited w then 0 else (l.threads.workers w).weight l.threads.numWorkers

/-- What all workers have left to do. -/
def total (l : Life) : Nat := ∑ w ∈ Finset.range l.threads.numWorkers, l.work w

/-- What all threads have left to do, with the jobs nobody has claimed yet. -/
def potential (l : Life) : Nat :=
  l.total + (l.threads.jobs.length - l.threads.nextUnclaimed) * (3 * l.threads.numWorkers + 7) +
    l.dtor.weight l.threads.numWorkers

end Life

/-- A wait that wakes up for no reason tests its predicate once more. -/
def LifeAct.cost : LifeAct → Nat
  | .spurious _ => 4
  | _ => 0

/-- A sum in which one term changes. -/
theorem sum_single {f g : Nat → Nat} {k i : Nat} (hi : i < k) (hoff : ∀ v ≠ i, g v = f v) :
    ∑ v ∈ Finset.range k, g v + f i = ∑ v ∈ Finset.range k, f v + g i := by
  have hmem := Finset.mem_range.mpr hi
  have hrest : ∑ v ∈ (Finset.range k).erase i, g v = ∑ v ∈ (Finset.range k).erase i, f v :=
    Finset.sum_congr rfl fun v hv => hoff v (Finset.ne_of_mem_erase hv)
  rw [← Finset.add_sum_erase _ f hmem, ← Finset.add_sum_erase _ g hmem, hrest]
  omega

/-- What the workers have left, across a step of one of them. -/
theorem total_setWorker (hlt : w < l.threads.numWorkers) (hx : l.exited w = false)
    (m : Option Thread) (js : List QueuedJob) (n : Nat) (pc : LoopPc) :
    Life.total { l with
      threads := setWorker { l.threads with mutex := m, jobs := js, nextUnclaimed := n } w pc } +
        (l.threads.workers w).weight l.threads.numWorkers =
      l.total + pc.weight l.threads.numWorkers := by
  have hself : l.work w = (l.threads.workers w).weight l.threads.numWorkers := by
    unfold Life.work
    rw [hx]
    rfl
  have hnew : Life.work { l with
      threads := setWorker { l.threads with mutex := m, jobs := js, nextUnclaimed := n } w pc } w =
      pc.weight l.threads.numWorkers := by
    unfold Life.work
    rw [if_neg (by rw [hx]; exact Bool.false_ne_true)]
    show (Function.update l.threads.workers w pc w).weight _ = _
    rw [Function.update_self]
    rfl
  rw [← hself, ← hnew]
  refine sum_single hlt fun v hv => ?_
  unfold Life.work
  show (if l.exited v then 0 else (Function.update l.threads.workers w pc v).weight _) = _
  rw [Function.update_of_ne hv]
  rfl

/-- A worker that returns has nothing left to do. -/
theorem total_exit (hlt : w < l.threads.numWorkers) (hx : l.exited w = false) (m : Option Thread) :
    Life.total { l with
      threads := { l.threads with mutex := m }
      exited := Function.update l.exited w true } +
        (l.threads.workers w).weight l.threads.numWorkers = l.total := by
  have hself : l.work w = (l.threads.workers w).weight l.threads.numWorkers := by
    unfold Life.work
    rw [hx]
    rfl
  have hnew : Life.work { l with
      threads := { l.threads with mutex := m }
      exited := Function.update l.exited w true } w = 0 := by
    unfold Life.work
    exact if_pos (Function.update_self _ _ _)
  rw [← hself]
  refine (sum_single hlt fun v hv => ?_).trans (by rw [hnew]; rfl)
  unfold Life.work
  show (if Function.update l.exited w true v then 0 else _) = _
  rw [Function.update_of_ne hv]

/-- A notification gives every sleeper three steps. -/
theorem total_notifyAll (l : Life) (d : DtorPc) :
    Life.total { l with threads := notifyAll l.threads, dtor := d } ≤
      l.total + 3 * l.threads.numWorkers := by
  have hle : ∀ v ∈ Finset.range l.threads.numWorkers,
      Life.work { l with threads := notifyAll l.threads, dtor := d } v ≤ l.work v + 3 := by
    intro v _
    unfold Life.work
    show (if l.exited v then 0 else (wakeWorker (l.threads.workers v)).weight _) ≤
      (if l.exited v then 0 else (l.threads.workers v).weight _) + 3
    split
    · exact Nat.zero_le _
    · unfold wakeWorker
      split
      · exact Nat.le_add_left _ _
      · exact Nat.le_add_right _ _
  refine (Finset.sum_le_sum hle).trans_eq ?_
  rw [Finset.sum_add_distrib, Finset.sum_const, Finset.card_range, nsmul_eq_mul, Nat.mul_comm]
  rfl

/-- A step that takes `a` from the workers and gives them `b`, and that claims `x` jobs. -/
theorem potential_le (c : Nat) (hk : l'.threads.numWorkers = l.threads.numWorkers) {a b x : Nat}
    (hw : l'.total + a ≤ l.total + b)
    (hleft : l'.threads.jobs.length - l'.threads.nextUnclaimed + x =
      l.threads.jobs.length - l.threads.nextUnclaimed)
    (hab : b + l'.dtor.weight l.threads.numWorkers + 1 ≤
      a + x * (3 * l.threads.numWorkers + 7) + l.dtor.weight l.threads.numWorkers + c) :
    l'.potential + 1 ≤ l.potential + c := by
  unfold Life.potential
  rw [hk, ← hleft, Nat.add_mul]
  omega

theorem potential_lt (hk : l'.threads.numWorkers = l.threads.numWorkers) (hd : l'.dtor = l.dtor)
    {a b x : Nat} (hw : l'.total + a ≤ l.total + b)
    (hleft : l'.threads.jobs.length - l'.threads.nextUnclaimed + x =
      l.threads.jobs.length - l.threads.nextUnclaimed)
    (hab : b + 1 ≤ a + x * (3 * l.threads.numWorkers + 7)) : l'.potential + 1 ≤ l.potential :=
  potential_le 0 hk hw hleft (by rw [hd]; omega)

/-- **Every step of a worker uses up some of what is left.** -/
theorem potential_loops (hlt : w < l.threads.numWorkers) (hx : l.exited w = false)
    (hl : Loops l w l') : l'.potential + 1 ≤ l.potential := by
  -- a step that claims nothing lowers the worker's own share
  have hstep : ∀ (m : Option Thread) (js : List QueuedJob) (pc : LoopPc),
      js.length = l.threads.jobs.length →
      pc.weight l.threads.numWorkers + 1 ≤ (l.threads.workers w).weight l.threads.numWorkers →
      Life.potential { l with
        threads := setWorker { l.threads with mutex := m, jobs := js } w pc } + 1 ≤ l.potential :=
    fun m js pc hjs hpc => potential_lt (x := 0) rfl rfl
      (total_setWorker hlt hx m js l.threads.nextUnclaimed pc).le
      (congrArg (· - l.threads.nextUnclaimed) hjs) (by omega)
  cases hl with
  | lock hpc _ => exact hstep _ l.threads.jobs _ rfl (by rw [hpc]; exact Nat.le_refl _)
  | more hpc _ | doze hpc _ =>
    exact hstep _ l.threads.jobs _ rfl (by rw [hpc]; exact Nat.le_refl _)
  | sleep hpc => exact hstep _ l.threads.jobs _ rfl (by rw [hpc]; exact Nat.le_refl _)
  | unlock ptr hpc | copy ptr hpc =>
    exact hstep _ l.threads.jobs _ rfl (by rw [hpc]; exact Nat.le_refl _)
  | store ptr hpc =>
    exact hstep l.threads.mutex _ _ (List.length_map _) (by rw [hpc]; exact Nat.le_refl _)
  | exit hpc _ =>
    have hw := total_exit hlt hx none
    rw [hpc] at hw
    refine potential_lt (x := 0) (b := 0) rfl rfl hw.le rfl ?_
    rw [Nat.zero_mul]
    exact Nat.le_refl _
  | claim job hpc _ hjob =>
    -- the job claimed pays for what the worker has to do with it
    have hw := total_setWorker hlt hx l.threads.mutex l.threads.jobs (l.threads.nextUnclaimed + 1)
      (.unlock job.ptr)
    rw [hpc] at hw
    have hlen := (List.getElem?_eq_some_iff.mp hjob).1
    refine potential_lt (x := 1) rfl rfl hw.le ?_ ?_
    · show l.threads.jobs.length - (l.threads.nextUnclaimed + 1) + 1 = _
      omega
    · show 3 * l.threads.numWorkers + 7 + 1 ≤ 1 + 1 * _
      omega
  | notify hpc =>
    have hw := total_setWorker (l := { l with threads := notifyAll l.threads }) hlt hx
      l.threads.mutex l.threads.jobs l.threads.nextUnclaimed .lock
    have hpc' : (notifyAll l.threads).workers w = .notify := by
      show wakeWorker (l.threads.workers w) = _
      rw [hpc]
      rfl
    have ha : ((notifyAll l.threads).workers w).weight l.threads.numWorkers =
        3 * l.threads.numWorkers + 4 := by
      rw [hpc']
      rfl
    have hsum := hw.le.trans (Nat.add_le_add_right (total_notifyAll l l.dtor) _)
    refine potential_lt (x := 0) (b := 3 * l.threads.numWorkers + 3) rfl rfl
      (hsum.trans_eq (Nat.add_assoc _ _ _)) rfl ?_
    show _ ≤ ((notifyAll l.threads).workers w).weight l.threads.numWorkers + _
    rw [ha]
    omega

/-- **So does every step of the destructor.** -/
theorem potential_closes (hd : l.dtor ≠ .alive) (hc : Closes l l') :
    l'.potential + 1 ≤ l.potential := by
  -- but for its notification it leaves the workers alone
  have hstep : ∀ (m : Option Thread) (st : Bool) (d : DtorPc),
      d.weight l.threads.numWorkers + 1 ≤ l.dtor.weight l.threads.numWorkers →
      Life.potential { l with
        threads := { l.threads with mutex := m }, stopping := st, dtor := d } + 1 ≤
          l.potential + 0 :=
    fun m st d hle => potential_le 0 (a := 0) (b := 0) (x := 0) rfl (Nat.le_refl _) rfl
      (by simpa only [Nat.zero_add, Nat.zero_mul, Nat.add_zero] using hle)
  cases hc with
  | destroy ha _ => exact absurd ha hd
  | lock ha _ => exact hstep _ _ _ (by rw [ha]; exact Nat.le_refl _)
  | set ha => exact hstep l.threads.mutex _ _ (by rw [ha]; exact Nat.le_refl _)
  | unlock ha => exact hstep _ _ _ (by rw [ha]; exact Nat.le_refl _)
  | notify ha =>
    refine potential_le 0 (a := 0) (b := 3 * l.threads.numWorkers) (x := 0) rfl
      (total_notifyAll l _) rfl ?_
    rw [ha]
    show _ + (l.threads.numWorkers - 0 + 1) + 1 ≤ _ + (4 * l.threads.numWorkers + 2) + 0
    omega
  | join i ha hlt _ =>
    refine hstep l.threads.mutex l.stopping _ ?_
    rw [ha]
    show l.threads.numWorkers - (i + 1) + 1 + 1 ≤ l.threads.numWorkers - i + 1
    omega
  | gone i ha _ =>
    refine hstep l.threads.mutex l.stopping _ ?_
    rw [ha]
    exact Nat.le_add_left _ _

/-- **Every step but a spurious wake-up uses up some of what is left**, once the destructor runs. -/
theorem potential_steps (h : LifeInv l) (hd : l.dtor ≠ .alive) {a : LifeAct} (hs : Steps l a l') :
    l'.dtor ≠ .alive ∧ l'.potential + 1 ≤ l.potential + a.cost := by
  cases hs with
  | scheduler _ ho => exact absurd (h.alive ho) hd
  | worker hlt hx hl =>
    refine ⟨?_, Nat.le_add_right_of_le (potential_loops hlt hx hl)⟩
    cases hl <;> exact hd
  | dtor hc =>
    refine ⟨?_, Nat.le_add_right_of_le (potential_closes hd hc)⟩
    cases hc <;> nofun
  | @spurious w hx hw =>
    have hlt : w < l.threads.numWorkers := by
      by_contra hge
      rw [h.idle w (Nat.le_of_not_lt hge)] at hw
      cases hw
    have ht := total_setWorker hlt hx l.threads.mutex l.threads.jobs l.threads.nextUnclaimed .lock
    rw [hw] at ht
    refine ⟨hd, ?_⟩
    show _ ≤ l.potential + 4
    refine potential_le 4 (x := 0) rfl ht.le rfl ?_
    show 3 + l.dtor.weight l.threads.numWorkers + 1 ≤ 0 + _ + l.dtor.weight l.threads.numWorkers + 4
    omega

/-! ## Progress -/

/-- A worker that is awake can move, unless it waits for the mutex. -/
theorem worker_moves (h : LifeInv l) (hlt : w < l.threads.numWorkers) (hx : l.exited w = false)
    (hns : l.threads.workers w ≠ .notStarted) (hna : l.threads.workers w ≠ .asleep)
    (hm : l.threads.workers w = .lock → l.threads.mutex = none) :
    (l.next (.act (.worker w))).isSome = true := by
  have hnext : l.next (.act (.worker w)) = loopStep l w := if_pos hlt
  rw [hnext]
  unfold loopStep
  rw [if_neg (by rw [hx]; exact Bool.false_ne_true)]
  cases hpc : l.threads.workers w with
  | notStarted => exact absurd hpc hns
  | asleep => exact absurd hpc hna
  | lock => simp [workerStep, hpc, acquire, hm hpc]
  | claim =>
    rcases h.claims w hx hpc with hst | hlen
    · simp [hst]
    · simp only [workerStep, hpc, List.getElem?_eq_getElem hlen]
      split <;> rfl
  | test => rfl
  | doze | unlock _ | copy _ | store _ | notify => simp [workerStep, hpc]

/-- The worker that holds the mutex can move. -/
theorem holder_moves (h : LifeInv l) (hm : l.threads.mutex = some (.worker w)) :
    (l.next (.act (.worker w))).isSome = true := by
  have hin := (h.owned (.worker w)).mpr hm
  have hin : (!l.exited w && (l.threads.workers w).inside) = true := hin
  rw [Bool.and_eq_true, Bool.not_eq_true'] at hin
  have hlt : w < l.threads.numWorkers := by
    by_contra hge
    have hpc := hin.2
    rw [h.idle w (Nat.le_of_not_lt hge)] at hpc
    cases hpc
  refine worker_moves h hlt hin.1 ?_ ?_ ?_
  · intro e
    rw [e] at hin
    cases hin.2
  · intro e
    rw [e] at hin
    cases hin.2
  · intro e
    rw [e] at hin
    cases hin.2

/-- **Until the destructor has returned some thread can move.** -/
theorem LifeInv.progress (h : LifeInv l) (hd : l.dtor ≠ .alive) (hg : l.dtor ≠ .gone) :
    ∃ a, LifeAct.cost a = 0 ∧ (l.next a).isSome = true := by
  have hquiet := h.quiet hd
  -- the mutex is free, or a worker has it and can move
  have hfree : l.dtor.inside = false → l.threads.mutex = none ∨
      ∃ a, LifeAct.cost a = 0 ∧ (l.next a).isSome = true := by
    intro hout
    cases hm : l.threads.mutex with
    | none => exact .inl rfl
    | some t =>
      cases t with
      | scheduler =>
        have hin := (h.owned .scheduler).mpr hm
        have hin : (l.threads.scheduler.inside || l.dtor.inside) = true := hin
        rw [hquiet, hout] at hin
        cases hin
      | worker w => exact .inr ⟨_, rfl, holder_moves h hm⟩
  cases hdt : l.dtor with
  | alive => exact absurd hdt hd
  | gone => exact absurd hdt hg
  | set | unlock | notify => exact ⟨.dtor, rfl, by simp only [Life.next, dtorStep, hdt]; rfl⟩
  | lock =>
    rcases hfree (by rw [hdt]; rfl) with hm | hmove
    · exact ⟨.dtor, rfl, by simp only [Life.next, dtorStep, hdt, acquire, hm]; rfl⟩
    · exact hmove
  | join i =>
    by_cases hlt : i < l.threads.numWorkers
    swap
    · exact ⟨.dtor, rfl, by simp only [Life.next, dtorStep, hdt, if_neg hlt]; rfl⟩
    by_cases hdone : l.threads.workers i = .notStarted ∨ l.exited i = true
    · exact ⟨.dtor, rfl, by simp only [Life.next, dtorStep, hdt, if_pos hlt, if_pos hdone]; rfl⟩
    · rw [not_or, Bool.not_eq_true] at hdone
      rcases hfree (by rw [hdt]; rfl) with hm | hmove
      · exact ⟨_, rfl, worker_moves h hlt hdone.2 hdone.1
          (h.woken (by rw [hdt]; rfl) i hdone.2) fun _ => hm⟩
      · exact hmove

/-- **A pool that is gone has no thread left.** -/
theorem LifeInv.still (h : LifeInv l) (hg : l.dtor = .gone) (a : LifeAct) : l.next a = none := by
  have hquiet : l.threads.scheduler = .outside := h.quiet (by rw [hg]; nofun)
  cases a with
  | act a =>
    cases a with
    | call c => simp only [Life.next, hg]; rfl
    | scheduler => simp only [Life.next, Wakeup.next, schedulerStep, hquiet]; rfl
    | notifyOne target =>
      simp only [Life.next, Wakeup.next, hquiet]
      rfl
    | worker w =>
      by_cases hlt : w < l.threads.numWorkers
      · have hnext : l.next (.act (.worker w)) = loopStep l w := if_pos hlt
        rw [hnext]
        unfold loopStep
        rcases h.joined w hlt (by rw [hg]; rfl) with hns | hex
        · simp [workerStep, hns]
        · rw [if_pos hex]
      · exact if_neg hlt
  | destroy => simp only [Life.next, hg]; rfl
  | dtor => simp only [Life.next, dtorStep, hg]
  | spurious t =>
    cases t with
    | scheduler => simp only [Life.next, hquiet]; rfl
    | worker w =>
      refine if_neg fun hw => ?_
      exact h.woken (by rw [hg]; rfl) w hw.1 hw.2

/-! ## The destructor returns -/

/-- **The destructor returns.**  From whatever the workers are doing when it is called, for any
number of them and any interleaving: until it has returned some thread can move; no run goes on for
more than `potential` steps and four for every wait that wakes up for no reason; and when it has
returned no thread is left to touch a tier, every claimed job is finished and no other was begun. -/
theorem destructor_returns {k : Nat} {tr : List LifeAct} (hrun : Run Life.Step (.born k) tr l)
    (hd : l.dtor ≠ .alive) :
    (l.dtor ≠ .gone → ∃ a, LifeAct.cost a = 0 ∧ (l.next a).isSome = true) ∧
    (∀ tr' l', Run Life.Step l tr' l' →
      tr'.length ≤ l.potential + (tr'.map LifeAct.cost).sum) ∧
    (l.dtor = .gone → (∀ a, l.next a = none) ∧
      (∀ i j, i < l.threads.nextUnclaimed → l.threads.jobs[i]? = some j → j.done = true) ∧
      ∀ i j, l.threads.nextUnclaimed ≤ i → l.threads.jobs[i]? = some j → j.done = false ∧
        ∀ w, (l.threads.workers w).job ≠ some j.ptr) := by
  obtain ⟨hinv, hq⟩ := hrun.invariant (fun _ _ _ h hs => life_step h hs) (born_inv k)
  refine ⟨hinv.progress hd, fun tr' l' hrun' => ?_,
    fun hg => ⟨hinv.still hg, fun i j hi hj => ?_, hq.unclaimed⟩⟩
  · have hb := hrun'.bounded (I := fun l => LifeInv l ∧ l.dtor ≠ .alive) (fun l a l' hl hs => by
      have hsteps := Life.next_cases hs
      obtain ⟨h1, h2⟩ := potential_steps hl.1 hl.2 hsteps
      exact ⟨⟨hl.1.steps hsteps, h1⟩, h2⟩) ⟨hinv, hd⟩
    exact (Nat.le_add_left _ _).trans hb.2
  · rcases hq.claimed i j hi hj with hdone | ⟨w, hlt, hx, hjob⟩
    · exact hdone
    · rcases hinv.joined w hlt (by rw [hg]; rfl) with hns | hex
      · rw [hns] at hjob
        cases hjob
      · rw [hx] at hex
        cases hex

/-- Two jobs are queued and the destructor is called while the only worker copies the first. -/
def calledMidCopy : List LifeAct :=
  [.act (.call .migrateAsync), .act .scheduler, .act .scheduler, .act .scheduler, .act .scheduler,
    .act (.notifyOne none), .act (.worker 0), .act (.worker 0), .act (.worker 0), .act (.worker 0),
    .act (.call .migrateAsync), .act .scheduler, .act .scheduler, .act .scheduler, .act .scheduler,
    .act (.notifyOne none), .destroy]

/-- The first job is copied to its end.  The second one is still in the queue, and is claimed only if
the worker tests its predicate again before the destructor sets `stopping_`. -/
theorem destructor_returns_mid_copy : ∃ l, Run Life.Step (.born 1) calledMidCopy l ∧
    l.threads.workers 0 = .copy 0 ∧ l.threads.nextUnclaimed = 1 ∧ l.threads.jobs.length = 2 ∧
    (∃ a, LifeAct.cost a = 0 ∧ (l.next a).isSome = true) ∧
    ∀ tr l', Run Life.Step l tr l' → tr.length ≤ 28 + (tr.map LifeAct.cost).sum := by
  have h : (exec Life.next (.born 1) calledMidCopy).map (fun l =>
      ((l.threads.workers 0, l.threads.nextUnclaimed, l.threads.jobs.length), l.dtor,
        l.potential)) = some ((.copy 0, 1, 2), .lock, 28) := by
    decide +kernel
  obtain ⟨l, hl, he⟩ := Option.map_eq_some_iff.mp h
  simp only [Prod.mk.injEq] at he
  obtain ⟨⟨hw, hn, hj⟩, hd, hp⟩ := he
  obtain ⟨hmove, hbound, -⟩ := destructor_returns (run_of_exec hl) (by rw [hd]; nofun)
  exact ⟨l, run_of_exec hl, hw, hn, hj, hmove (by rw [hd]; nofun), hp ▸ hbound⟩

end Wakeup

end KvsLab
