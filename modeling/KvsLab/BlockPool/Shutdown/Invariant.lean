import KvsLab.BlockPool.Shutdown

/-!
# The invariants of a pool that is shut down

* `Owned` — the mutex is held by the thread that stands inside a critical section.
* `LifeInv` — a worker about to claim finds a job or is stopping; from the notification of the
  destructor on no worker sleeps; a worker that was joined has returned.
* `QueueOK` — a job before the cursor is done, or a worker has it; one behind it was never begun.
* `life_step` — **every step keeps them.**
-/

namespace KvsLab

namespace Wakeup

open Transition

variable {l l' : Life} {w : WorkerId} {s s' : Threads}

/-! ## The mutex -/

/-- Thread `t` stands inside a critical section; the destructor runs on the scheduler's thread. -/
def Life.inside (l : Life) : Thread → Bool
  | .scheduler => l.threads.scheduler.inside || l.dtor.inside
  | .worker w => !l.exited w && (l.threads.workers w).inside

/-- The mutex is held by the thread inside. -/
def Owned (l : Life) : Prop := ∀ t, l.inside t = true ↔ l.threads.mutex = some t

/-- A step of one thread takes the mutex, releases it or does neither. -/
theorem Owned.step (h : Owned l) (t : Thread) (hoff : ∀ u ≠ t, l'.inside u = l.inside u)
    (hcase : (l.threads.mutex = none ∧ l'.threads.mutex = some t ∧ l'.inside t = true) ∨
      (l.inside t = true ∧ l'.threads.mutex = none ∧ l'.inside t = false) ∨
      (l'.threads.mutex = l.threads.mutex ∧ l'.inside t = l.inside t)) : Owned l' := by
  intro u
  rcases hcase with ⟨h1, h2, h3⟩ | ⟨h1, h2, h3⟩ | ⟨h1, h2⟩
  · by_cases hu : u = t
    · subst hu
      exact iff_of_true h3 h2
    · rw [hoff u hu, h u, h1, h2]
      exact iff_of_false nofun fun e => hu (Option.some.inj e).symm
  · rw [h2]
    by_cases hu : u = t
    · subst hu
      exact iff_of_false (by rw [h3]; exact Bool.false_ne_true) nofun
    · have ht := (h t).mp h1
      rw [hoff u hu, h u, ht]
      exact iff_of_false (fun e => hu (Option.some.inj e).symm) nofun
  · by_cases hu : u = t
    · subst hu
      rw [h2, h1]
      exact h u
    · rw [hoff u hu, h1]
      exact h u

theorem inside_wakeWorker (pc : LoopPc) : (wakeWorker pc).inside = pc.inside := by
  unfold wakeWorker
  split
  · rename_i h
    rw [h]
    rfl
  · rfl

theorem inside_wakeScheduler (pc : SchedulerPc) : (wakeScheduler pc).inside = pc.inside := by
  unfold wakeScheduler
  split
  · rename_i h
    rw [h]
    rfl
  · rfl

/-- The other threads, across a step that changes one worker. -/
theorem inside_setWorker {s : Threads} {pc : LoopPc} (hsch : s.scheduler = l.threads.scheduler)
    (hw : ∀ v ≠ w, (s.workers v).inside = (l.threads.workers v).inside) :
    ∀ u ≠ Thread.worker w, Life.inside { l with threads := setWorker s w pc } u = l.inside u := by
  intro u hu
  cases u with
  | scheduler =>
    show (s.scheduler.inside || _) = _
    rw [hsch]
    rfl
  | worker v =>
    have hv : v ≠ w := fun e => hu (e ▸ rfl)
    show (!l.exited v && (Function.update s.workers w pc v).inside) = _
    rw [Function.update_of_ne hv, hw v hv]
    rfl

theorem inside_self {s : Threads} {pc : LoopPc} (hx : l.exited w = false) :
    Life.inside { l with threads := setWorker s w pc } (.worker w) = pc.inside := by
  show (!l.exited w && (Function.update s.workers w pc w).inside) = _
  rw [Function.update_self, hx]
  rfl

theorem inside_of_pc (hx : l.exited w = false) {pc : LoopPc} (hpc : l.threads.workers w = pc) :
    l.inside (.worker w) = pc.inside := by
  show (!l.exited w && (l.threads.workers w).inside) = _
  rw [hx, hpc]
  rfl

theorem Owned.loops (h : Owned l) (hx : l.exited w = false) (hl : Loops l w l') : Owned l' := by
  cases hl with
  | lock hpc hm =>
    exact h.step (.worker w) (inside_setWorker rfl fun _ _ => rfl)
      (.inl ⟨hm, rfl, inside_self hx⟩)
  | more hpc _ =>
    exact h.step (.worker w) (inside_setWorker rfl fun _ _ => rfl)
      (.inr (.inr ⟨rfl, by rw [inside_self hx, inside_of_pc hx hpc]; rfl⟩))
  | doze hpc _ =>
    exact h.step (.worker w) (inside_setWorker rfl fun _ _ => rfl)
      (.inr (.inr ⟨rfl, by rw [inside_self hx, inside_of_pc hx hpc]; rfl⟩))
  | sleep hpc =>
    exact h.step (.worker w) (inside_setWorker rfl fun _ _ => rfl)
      (.inr (.inl ⟨inside_of_pc hx hpc, rfl, inside_self hx⟩))
  | exit hpc _ =>
    refine h.step (.worker w) (fun u hu => ?_) (.inr (.inl ⟨inside_of_pc hx hpc, rfl, ?_⟩))
    · cases u with
      | scheduler => rfl
      | worker v =>
        have hv : v ≠ w := fun e => hu (e ▸ rfl)
        simp only [Life.inside, Function.update_of_ne hv]
    · simp only [Life.inside, Function.update_self, Bool.not_true, Bool.false_and]
  | claim job hpc _ _ =>
    exact h.step (.worker w) (inside_setWorker rfl fun _ _ => rfl)
      (.inr (.inr ⟨rfl, by rw [inside_self hx, inside_of_pc hx hpc]; rfl⟩))
  | unlock ptr hpc =>
    exact h.step (.worker w) (inside_setWorker rfl fun _ _ => rfl)
      (.inr (.inl ⟨inside_of_pc hx hpc, rfl, inside_self hx⟩))
  | copy ptr hpc =>
    exact h.step (.worker w) (inside_setWorker rfl fun _ _ => rfl)
      (.inr (.inr ⟨rfl, by rw [inside_self hx, inside_of_pc hx hpc]; rfl⟩))
  | store ptr hpc =>
    exact h.step (.worker w) (inside_setWorker rfl fun _ _ => rfl)
      (.inr (.inr ⟨rfl, by rw [inside_self hx, inside_of_pc hx hpc]; rfl⟩))
  | notify hpc =>
    refine h.step (.worker w) (fun u hu => ?_)
      (.inr (.inr ⟨rfl, by rw [inside_self hx, inside_of_pc hx hpc]; rfl⟩))
    cases u with
    | scheduler =>
      show ((wakeScheduler l.threads.scheduler).inside || _) = _
      rw [inside_wakeScheduler]
      rfl
    | worker v =>
      have hv : v ≠ w := fun e => hu (e ▸ rfl)
      show (!l.exited v &&
        LoopPc.inside (Function.update (notifyAll l.threads).workers w .lock v)) = _
      rw [Function.update_of_ne hv]
      exact congrArg (!l.exited v && ·) (inside_wakeWorker _)

theorem Owned.moves (h : Owned l) (hd : l.dtor.inside = false) {s' : Threads}
    (hm : Moves l.threads s') : Owned { l with threads := s' } := by
  have hin : ∀ {s : Threads},
      Life.inside { l with threads := s } .scheduler = s.scheduler.inside := by
    intro s
    show (s.scheduler.inside || l.dtor.inside) = _
    rw [hd, Bool.or_false]
  have hsch : l.inside .scheduler = l.threads.scheduler.inside := hin
  have hoff : ∀ {s : Threads}, (∀ v, (s.workers v).inside = (l.threads.workers v).inside) →
      ∀ u ≠ Thread.scheduler, Life.inside { l with threads := s } u = l.inside u := by
    intro s hw u hu
    cases u with
    | scheduler => exact absurd rfl hu
    | worker v => exact congrArg (!l.exited v && ·) (hw v)
  cases hm with
  | take pc hfree _ hpc =>
    exact h.step .scheduler (hoff fun _ => rfl) (.inl ⟨hfree, rfl, by rw [hin]; exact hpc⟩)
  | push hpc =>
    exact h.step .scheduler (hoff fun _ => rfl)
      (.inr (.inr ⟨rfl, by rw [hin, hsch, hpc]; rfl⟩))
  | pop ptr js hpc _ =>
    exact h.step .scheduler (hoff fun _ => rfl) (.inr (.inr ⟨rfl, by rw [hin, hsch]⟩))
  | stay pc hpc =>
    exact h.step .scheduler (hoff fun _ => rfl)
      (.inr (.inr ⟨rfl, by rw [hin, hsch]; exact hpc⟩))
  | release pc hpc hout =>
    exact h.step .scheduler (hoff fun _ => rfl)
      (.inr (.inl ⟨by rw [hsch]; exact hpc, rfl, by rw [hin]; exact hout⟩))
  | ensure hpc =>
    refine h.step .scheduler (hoff fun v => ?_) (.inr (.inr ⟨rfl, by rw [hin, hsch, hpc]; rfl⟩))
    show LoopPc.inside (if _ then _ else _) = _
    split
    · rename_i hv
      rw [hv.2]
      rfl
    · rfl
  | wake v hpc hv =>
    refine h.step .scheduler (hoff fun u => ?_) (.inr (.inr ⟨rfl, by rw [hin, hsch, hpc]; rfl⟩))
    show (Function.update l.threads.workers v LoopPc.lock u).inside = _
    by_cases hu : u = v
    · subst hu
      rw [Function.update_self, hv]
      rfl
    · rw [Function.update_of_ne hu]

theorem Owned.closes (h : Owned l) (hs : l.dtor ≠ .alive → l.threads.scheduler = .outside)
    (hc : Closes l l') : Owned l' := by
  have hsch : ∀ {d}, l.dtor = d → d ≠ .alive → l.inside .scheduler = d.inside := by
    intro d hd hne
    show (l.threads.scheduler.inside || l.dtor.inside) = _
    rw [hs (hd ▸ hne), hd]
    rfl
  have hout : ∀ {d}, l.dtor = d → d ≠ .alive → l.threads.scheduler.inside = false := by
    intro d hd hne
    rw [hs (hd ▸ hne)]
    rfl
  have hoff : ∀ u ≠ Thread.scheduler, ∀ d m st, Life.inside { l with
      threads := { l.threads with mutex := m }, stopping := st, dtor := d } u = l.inside u := by
    intro u hu d m st
    cases u with
    | scheduler => exact absurd rfl hu
    | worker v => rfl
  cases hc with
  | destroy hd ho =>
    refine h.step .scheduler (fun u hu => hoff u hu _ _ _) (.inr (.inr ⟨rfl, ?_⟩))
    show (l.threads.scheduler.inside || _) = (l.threads.scheduler.inside || l.dtor.inside)
    rw [hd]
    rfl
  | lock hd hm =>
    refine h.step .scheduler (fun u hu => hoff u hu _ _ _) (.inl ⟨hm, rfl, ?_⟩)
    exact Bool.or_true _
  | set hd =>
    refine h.step .scheduler (fun u hu => hoff u hu _ _ _) (.inr (.inr ⟨rfl, ?_⟩))
    rw [hsch hd nofun]
    exact Bool.or_true _
  | unlock hd =>
    refine h.step .scheduler (fun u hu => hoff u hu _ _ _)
      (.inr (.inl ⟨hsch hd nofun, rfl, ?_⟩))
    exact (Bool.or_false _).trans (hout hd nofun)
  | notify hd =>
    refine h.step .scheduler (fun u hu => ?_) (.inr (.inr ⟨rfl, ?_⟩))
    · cases u with
      | scheduler => exact absurd rfl hu
      | worker v => exact congrArg (!l.exited v && ·) (inside_wakeWorker _)
    · rw [hsch hd nofun]
      show ((wakeScheduler l.threads.scheduler).inside || _) = _
      rw [inside_wakeScheduler, hout hd nofun]
      rfl
  | join i hd _ _ =>
    refine h.step .scheduler (fun u hu => hoff u hu _ _ _) (.inr (.inr ⟨rfl, ?_⟩))
    rw [hsch hd nofun]
    exact (Bool.or_false _).trans (hout hd nofun)
  | gone i hd _ =>
    refine h.step .scheduler (fun u hu => hoff u hu _ _ _) (.inr (.inr ⟨rfl, ?_⟩))
    rw [hsch hd nofun]
    exact (Bool.or_false _).trans (hout hd nofun)

/-! ## The destructor's invariant -/

/-- `stopping_` is set. -/
def DtorPc.after : DtorPc → Bool
  | .unlock | .notify | .join _ | .gone => true
  | _ => false

/-- The notification of the destructor was sent. -/
def DtorPc.woken : DtorPc → Bool
  | .join _ | .gone => true
  | _ => false

/-- Worker `w` was joined. -/
def DtorPc.joined : DtorPc → WorkerId → Bool
  | .join i, w => w < i
  | .gone, _ => true
  | _, _ => false

theorem DtorPc.joined_join {i : Nat} : (DtorPc.join i).joined w = true ↔ w < i := decide_eq_true_iff

/-- The invariant of the mutex, of the wait predicates and of the joins. -/
structure LifeInv (l : Life) : Prop where
  owned : Owned l
  quiet : l.dtor ≠ .alive → l.threads.scheduler = .outside
  stopping : l.stopping = l.dtor.after
  claims : ∀ w, l.exited w = false → l.threads.workers w = .claim →
    l.stopping = true ∨ l.threads.nextUnclaimed < l.threads.jobs.length
  upright : l.stopping = true → ∀ w, l.exited w = false → l.threads.workers w ≠ .doze
  woken : l.dtor.woken = true → ∀ w, l.exited w = false → l.threads.workers w ≠ .asleep
  joined : ∀ w < l.threads.numWorkers, l.dtor.joined w = true →
    l.threads.workers w = .notStarted ∨ l.exited w = true
  idle : ∀ w, l.threads.numWorkers ≤ w → l.threads.workers w = .notStarted

/-- Two threads are not inside at once. -/
theorem Owned.alone (h : Owned l) {t u : Thread} (ht : l.inside t = true) (hu : l.inside u = true) :
    t = u :=
  Option.some.inj (((h t).mp ht).symm.trans ((h u).mp hu))

theorem DtorPc.after_of_woken {d : DtorPc} (h : d.woken = true) : d.after = true := by
  cases d <;> first | rfl | cases h

theorem LifeInv.moves (h : LifeInv l) {s' : Threads} (hm : Moves l.threads s')
    (hd : l.dtor = .alive) : LifeInv { l with threads := s' } := by
  have hst : l.stopping = false := by
    rw [h.stopping, hd]
    rfl
  refine ⟨h.owned.moves (by rw [hd]; rfl) hm, fun hne => absurd hd hne, h.stopping, ?_, ?_, ?_, ?_,
    ?_⟩
  · intro w hx hpc
    have hold : l.threads.workers w = .claim →
        l.stopping = true ∨ l.threads.nextUnclaimed < l.threads.jobs.length := h.claims w hx
    cases hm with
    | push _ =>
      refine (hold hpc).imp_right fun hlt => ?_
      show l.threads.nextUnclaimed < (l.threads.jobs ++ [_]).length
      rw [List.length_append]
      exact Nat.lt_add_right _ hlt
    | pop ptr js hsp _ =>
      -- the scheduler has the mutex, so no worker is about to claim
      have hin : l.inside .scheduler = true := by
        show (l.threads.scheduler.inside || _) = true
        rw [hsp]
        rfl
      have hin' : l.inside (.worker w) = true := inside_of_pc (l := l) hx hpc
      cases h.owned.alone hin hin'
    | ensure _ =>
      have hpc : (if w < l.threads.numWorkers ∧ l.threads.workers w = .notStarted then LoopPc.lock
        else l.threads.workers w) = .claim := hpc
      split at hpc
      · cases hpc
      · exact hold hpc
    | wake v _ _ =>
      have hpc : Function.update l.threads.workers v .lock w = .claim := hpc
      by_cases hv : w = v
      · rw [hv, Function.update_self] at hpc
        cases hpc
      · rw [Function.update_of_ne hv] at hpc
        exact hold hpc
    | take _ _ _ _ => exact hold hpc
    | stay _ _ => exact hold hpc
    | release _ _ _ => exact hold hpc
  · intro hs
    have hs : l.stopping = true := hs
    rw [hst] at hs
    cases hs
  · intro hw
    have hw : l.dtor.woken = true := hw
    rw [hd] at hw
    cases hw
  · intro w _ hj
    have hj : l.dtor.joined w = true := hj
    rw [hd] at hj
    cases hj
  · intro w hle
    cases hm with
    | ensure _ =>
      show (if w < l.threads.numWorkers ∧ l.threads.workers w = .notStarted then LoopPc.lock
        else l.threads.workers w) = _
      rw [if_neg fun hlt => Nat.not_lt.mpr hle hlt.1]
      exact h.idle w hle
    | wake v _ hv =>
      have hne : w ≠ v := fun e => by
        rw [← e, h.idle w hle] at hv
        cases hv
      show Function.update l.threads.workers v .lock w = _
      rw [Function.update_of_ne hne]
      exact h.idle w hle
    | push _ | pop _ _ _ _ | take _ _ _ _ | stay _ _ | release _ _ _ => exact h.idle w hle

/-- What a step of worker `w` leaves of the invariant's parts about the others. -/
theorem LifeInv.worker (h : LifeInv l) (hx : l.exited w = false) {s : Threads} {pc : LoopPc}
    (hw : l.threads.workers w ≠ .notStarted) (hown : Owned { l with threads := setWorker s w pc })
    (hn : s.numWorkers = l.threads.numWorkers)
    (hsch : l.threads.scheduler = .outside → s.scheduler = .outside)
    (hv : ∀ v ≠ w, s.workers v = l.threads.workers v ∨
      s.workers v = wakeWorker (l.threads.workers v))
    (hq : ∀ v ≠ w, l.exited v = false → l.threads.workers v = .claim →
      l.stopping = true ∨ s.nextUnclaimed < s.jobs.length)
    (hclaim : pc = .claim → l.stopping = true ∨ s.nextUnclaimed < s.jobs.length)
    (hdoze : pc = .doze → l.stopping = false)
    (hsleep : pc = .asleep → l.threads.workers w = .doze) :
    LifeInv { l with threads := setWorker s w pc } := by
  have hself : (setWorker s w pc).workers w = pc := Function.update_self _ _ _
  have hoff : ∀ v ≠ w, (setWorker s w pc).workers v = s.workers v := fun v hne =>
    Function.update_of_ne hne _ _
  have hwake : ∀ v ≠ w, ∀ pc', pc' ≠ .lock → (setWorker s w pc).workers v = pc' →
      l.threads.workers v = pc' := by
    intro v hne pc' hl he
    rw [hoff v hne] at he
    rcases hv v hne with h1 | h1
    · rw [← h1, he]
    · rw [h1] at he
      unfold wakeWorker at he
      split at he
      · exact absurd he.symm hl
      · exact he
  refine ⟨hown, fun hne => hsch (h.quiet hne), h.stopping, ?_, ?_, ?_, ?_, ?_⟩
  · intro v hxv hpc
    by_cases hvw : v = w
    · subst hvw
      exact hclaim (hself.symm.trans hpc)
    · exact hq v hvw hxv (hwake v hvw _ nofun hpc)
  · intro hst v hxv hpc
    by_cases hvw : v = w
    · subst hvw
      have hst : l.stopping = true := hst
      rw [hdoze (hself.symm.trans hpc)] at hst
      cases hst
    · exact h.upright hst v hxv (hwake v hvw _ nofun hpc)
  · intro hwk v hxv hpc
    by_cases hvw : v = w
    · subst hvw
      refine h.upright ?_ v hx (hsleep (hself.symm.trans hpc))
      rw [h.stopping]
      exact DtorPc.after_of_woken hwk
    · exact h.woken hwk v hxv (hwake v hvw _ nofun hpc)
  · intro v hlt hj
    have hlt : v < l.threads.numWorkers := hn ▸ hlt
    rcases h.joined v hlt hj with hns | hex
    · left
      have hvw : v ≠ w := fun e => hw (e ▸ hns)
      rw [hoff v hvw]
      rcases hv v hvw with h1 | h1
      · rw [h1, hns]
      · rw [h1, hns]
        rfl
    · exact .inr hex
  · intro v hle
    have hns := h.idle v (hn ▸ hle)
    have hvw : v ≠ w := fun e => hw (e ▸ hns)
    rw [hoff v hvw]
    rcases hv v hvw with h1 | h1
    · rw [h1, hns]
    · rw [h1, hns]
      rfl

theorem LifeInv.loops (h : LifeInv l) (hx : l.exited w = false) (hl : Loops l w l') :
    LifeInv l' := by
  have hown := h.owned.loops hx hl
  have hold := h.claims
  cases hl with
  | lock hpc _ =>
    exact h.worker hx (by rw [hpc]; nofun) hown rfl id (fun _ _ => .inl rfl)
      (fun v _ => hold v) nofun nofun nofun
  | more hpc hmore =>
    exact h.worker hx (by rw [hpc]; nofun) hown rfl id (fun _ _ => .inl rfl)
      (fun v _ => hold v) (fun _ => hmore) nofun nofun
  | doze hpc hst =>
    exact h.worker hx (by rw [hpc]; nofun) hown rfl id (fun _ _ => .inl rfl)
      (fun v _ => hold v) nofun (fun _ => hst) nofun
  | sleep hpc =>
    exact h.worker hx (by rw [hpc]; nofun) hown rfl id (fun _ _ => .inl rfl)
      (fun v _ => hold v) nofun nofun (fun _ => hpc)
  | exit hpc _ =>
    have hex : ∀ v, Function.update l.exited w true v = false → l.exited v = false := by
      intro v hv
      by_cases hvw : v = w
      · rw [hvw, Function.update_self] at hv
        cases hv
      · rwa [Function.update_of_ne hvw] at hv
    refine ⟨hown, h.quiet, h.stopping, fun v hv => hold v (hex v hv),
      fun hs v hv => h.upright hs v (hex v hv), fun hk v hv => h.woken hk v (hex v hv),
      fun v hlt hj => (h.joined v hlt hj).imp_right fun he => ?_, h.idle⟩
    show Function.update l.exited w true v = true
    by_cases hvw : v = w
    · rw [hvw, Function.update_self]
    · rwa [Function.update_of_ne hvw]
  | claim job hpc _ _ =>
    refine h.worker hx (by rw [hpc]; nofun) hown rfl id (fun _ _ => .inl rfl)
      (fun v hv hxv hc => ?_) nofun nofun nofun
    -- nobody else is inside
    cases h.owned.alone ((inside_of_pc hxv hc).trans rfl) ((inside_of_pc hx hpc).trans rfl)
    exact absurd rfl hv
  | unlock ptr hpc =>
    exact h.worker hx (by rw [hpc]; nofun) hown rfl id (fun _ _ => .inl rfl)
      (fun v _ => hold v) nofun nofun nofun
  | copy ptr hpc =>
    exact h.worker hx (by rw [hpc]; nofun) hown rfl id (fun _ _ => .inl rfl)
      (fun v _ => hold v) nofun nofun nofun
  | store ptr hpc =>
    refine h.worker hx (by rw [hpc]; nofun) hown rfl id (fun _ _ => .inl rfl)
      (fun v _ hxv hc => (hold v hxv hc).imp_right fun hlt => ?_) nofun nofun nofun
    show l.threads.nextUnclaimed < (markDone ptr l.threads.jobs).length
    unfold markDone
    rwa [List.length_map]
  | notify hpc =>
    refine h.worker hx (by rw [hpc]; nofun) hown rfl (fun ho => ?_) (fun _ _ => .inr rfl)
      (fun v _ => hold v) nofun nofun nofun
    show wakeScheduler l.threads.scheduler = _
    rw [ho]
    rfl

theorem LifeInv.closes (h : LifeInv l) (hc : Closes l l') : LifeInv l' := by
  have hown := h.owned.closes h.quiet hc
  have hst := h.stopping
  cases hc with
  | destroy hd ho =>
    rw [hd] at hst
    exact ⟨hown, fun _ => ho, hst, h.claims, h.upright, nofun, nofun, h.idle⟩
  | lock hd hm =>
    rw [hd] at hst
    exact ⟨hown, fun _ => h.quiet (by rw [hd]; nofun), hst, h.claims, h.upright, nofun, nofun, h.idle⟩
  | set hd =>
    refine ⟨hown, fun _ => h.quiet (by rw [hd]; nofun), rfl, fun _ _ _ => .inl rfl,
      fun _ v hxv hv => ?_, nofun, nofun, h.idle⟩
    -- the destructor is inside, so nobody is on the way to sleep
    have hin : l.inside .scheduler = true := by
      show (_ || l.dtor.inside) = true
      rw [hd]
      exact Bool.or_true _
    have hin' : l.inside (.worker v) = true := inside_of_pc (l := l) hxv hv
    cases h.owned.alone hin hin'
  | unlock hd =>
    rw [hd] at hst
    exact ⟨hown, fun _ => h.quiet (by rw [hd]; nofun), hst, h.claims, h.upright, nofun, nofun, h.idle⟩
  | notify hd =>
    rw [hd] at hst
    have hwake : ∀ v pc, pc ≠ .lock → wakeWorker (l.threads.workers v) = pc →
        l.threads.workers v = pc := by
      intro v pc hne he
      unfold wakeWorker at he
      split at he
      · exact absurd he.symm hne
      · exact he
    refine ⟨hown, fun _ => ?_, hst, fun v hxv hv => h.claims v hxv (hwake v _ nofun hv),
      fun hs v hxv hv => h.upright hs v hxv (hwake v _ nofun hv), fun _ v _ hv => ?_, ?_,
      fun v hle => ?_⟩
    · show wakeScheduler l.threads.scheduler = _
      rw [h.quiet (by rw [hd]; nofun)]
      rfl
    · have hv : wakeWorker (l.threads.workers v) = .asleep := hv
      unfold wakeWorker at hv
      split at hv
      · cases hv
      · rename_i hne
        exact hne hv
    · intro v _ hj
      exact absurd (DtorPc.joined_join.mp hj) (Nat.not_lt_zero v)
    · show wakeWorker (l.threads.workers v) = _
      rw [h.idle v hle]
      rfl
  | join i hd hlt hdone =>
    rw [hd] at hst
    refine ⟨hown, fun _ => h.quiet (by rw [hd]; nofun), hst, h.claims, h.upright,
      fun _ => h.woken (by rw [hd]; rfl), fun v hv hj => ?_, h.idle⟩
    rcases Nat.lt_succ_iff_lt_or_eq.mp (DtorPc.joined_join.mp hj) with hvi | rfl
    · exact h.joined v hv (by rw [hd]; exact DtorPc.joined_join.mpr hvi)
    · exact hdone
  | gone i hd hge =>
    rw [hd] at hst
    refine ⟨hown, fun _ => h.quiet (by rw [hd]; nofun), hst, h.claims, h.upright,
      fun _ => h.woken (by rw [hd]; rfl), fun v hv _ => ?_, h.idle⟩
    exact h.joined v hv (by rw [hd]; exact DtorPc.joined_join.mpr (Nat.lt_of_lt_of_le hv hge))

/-- Only a pool in use is called. -/
theorem LifeInv.alive (h : LifeInv l)
    (hd : l.dtor = .alive ∨ l.threads.scheduler ≠ .outside) : l.dtor = .alive := by
  rcases hd with hd | ho
  · exact hd
  · by_contra hne
    exact ho (h.quiet hne)

theorem LifeInv.steps (h : LifeInv l) {a : LifeAct} (hs : Steps l a l') : LifeInv l' := by
  cases hs with
  | scheduler hm hd =>
    exact h.moves hm (h.alive hd)
  | worker _ hx hl => exact h.loops hx hl
  | dtor hc => exact h.closes hc
  | @spurious w hx hw =>
    refine h.worker hx (by rw [hw]; nofun) ?_ rfl id (fun _ _ => .inl rfl) (fun v _ => h.claims v)
      nofun nofun nofun
    exact h.owned.step (.worker w) (inside_setWorker rfl fun _ _ => rfl)
      (.inr (.inr ⟨rfl, by rw [inside_self hx, inside_of_pc hx hw]; rfl⟩))

/-! ## The queue -/

/-- The job a worker has claimed and not finished. -/
def LoopPc.job : LoopPc → Option JobPtr
  | .unlock ptr | .copy ptr | .store ptr => some ptr
  | _ => none

structure QueueOK (l : Life) : Prop where
  cursor : l.threads.nextUnclaimed ≤ l.threads.jobs.length
  ptrs : (l.threads.jobs.map (·.ptr)).Nodup
  fresh : ∀ j ∈ l.threads.jobs, j.ptr < l.threads.nextJob
  held : ∀ w ptr, (l.threads.workers w).job = some ptr → ptr < l.threads.nextJob
  unclaimed : ∀ i j, l.threads.nextUnclaimed ≤ i → l.threads.jobs[i]? = some j →
    j.done = false ∧ ∀ w, (l.threads.workers w).job ≠ some j.ptr
  claimed : ∀ i j, i < l.threads.nextUnclaimed → l.threads.jobs[i]? = some j →
    j.done = true ∨ ∃ w < l.threads.numWorkers, l.exited w = false ∧
      (l.threads.workers w).job = some j.ptr

/-- A step that leaves the queue alone and takes no job from a worker. -/
theorem QueueOK.same (h : QueueOK l) (hj : l'.threads.jobs = l.threads.jobs)
    (hc : l'.threads.nextUnclaimed = l.threads.nextUnclaimed)
    (hn : l'.threads.nextJob = l.threads.nextJob)
    (hk : l'.threads.numWorkers = l.threads.numWorkers)
    (hw : ∀ v, (l'.threads.workers v).job = (l.threads.workers v).job)
    (hx : ∀ v, (l.threads.workers v).job ≠ none → l'.exited v = l.exited v) : QueueOK l' := by
  refine ⟨by rw [hj, hc]; exact h.cursor, by rw [hj]; exact h.ptrs, ?_, ?_, ?_, ?_⟩
  · rw [hj, hn]
    exact h.fresh
  · intro w ptr hwp
    rw [hn]
    exact h.held w ptr ((hw w).symm.trans hwp)
  · intro i j hi hji
    rw [hj] at hji
    obtain ⟨h1, h2⟩ := h.unclaimed i j (hc ▸ hi) hji
    exact ⟨h1, fun w => by rw [hw w]; exact h2 w⟩
  · intro i j hi hji
    rw [hj] at hji
    refine (h.claimed i j (hc ▸ hi) hji).imp_right fun ⟨w, hlt, hex, hwj⟩ => ?_
    exact ⟨w, hk ▸ hlt, (hx w (by rw [hwj]; nofun)).trans hex, (hw w).trans hwj⟩

theorem job_wakeWorker (pc : LoopPc) : (wakeWorker pc).job = pc.job := by
  unfold wakeWorker
  split
  · rename_i h
    rw [h]
    rfl
  · rfl

/-- The jobs of the workers, across a step that changes where one worker stands. -/
theorem job_setWorker {s : Threads} {pc : LoopPc} (hpc : pc.job = (l.threads.workers w).job)
    (hs : ∀ v, (s.workers v).job = (l.threads.workers v).job) :
    ∀ v, ((setWorker s w pc).workers v).job = (l.threads.workers v).job := by
  intro v
  show (Function.update s.workers w pc v).job = _
  by_cases hv : v = w
  · rw [hv, Function.update_self, hpc]
  · rw [Function.update_of_ne hv, hs v]

theorem getElem?_markDone (ptr : JobPtr) (jobs : List QueuedJob) (i : Nat) :
    (markDone ptr jobs)[i]? =
      jobs[i]?.map fun j => if j.ptr = ptr then { j with done := true } else j :=
  List.getElem?_map

theorem map_ptr_markDone (ptr : JobPtr) (jobs : List QueuedJob) :
    (markDone ptr jobs).map (·.ptr) = jobs.map (·.ptr) := by
  unfold markDone
  rw [List.map_map]
  refine List.map_congr_left fun j _ => ?_
  show (if j.ptr = ptr then { j with done := true } else j : QueuedJob).ptr = j.ptr
  split <;> rfl

theorem QueueOK.claim (h : QueueOK l) (hx : l.exited w = false) (hlt : w < l.threads.numWorkers)
    {job : QueuedJob} (hpc : l.threads.workers w = .claim)
    (hjob : l.threads.jobs[l.threads.nextUnclaimed]? = some job) :
    QueueOK { l with
      threads := setWorker { l.threads with nextUnclaimed := l.threads.nextUnclaimed + 1 } w
        (.unlock job.ptr) } := by
  obtain ⟨hbound, hget⟩ := List.getElem?_eq_some_iff.mp hjob
  have hmem : job ∈ l.threads.jobs := List.mem_of_getElem? hjob
  have hnone : (l.threads.workers w).job = none := by
    rw [hpc]
    rfl
  have hself : (Function.update l.threads.workers w (.unlock job.ptr) w).job = some job.ptr := by
    rw [Function.update_self]
    rfl
  have hoff : ∀ v ≠ w, (Function.update l.threads.workers w (.unlock job.ptr) v).job =
      (l.threads.workers v).job := fun v hv => by rw [Function.update_of_ne hv]
  refine ⟨hbound, h.ptrs, h.fresh, fun v ptr hv => ?_, fun i j hi hj => ?_, fun i j hi hj => ?_⟩
  · have hv : (Function.update l.threads.workers w (.unlock job.ptr) v).job = some ptr := hv
    by_cases hvw : v = w
    · rw [hvw, hself] at hv
      cases hv
      exact h.fresh job hmem
    · rw [hoff v hvw] at hv
      exact h.held v ptr hv
  · have hi : l.threads.nextUnclaimed < i := hi
    have hj : l.threads.jobs[i]? = some j := hj
    obtain ⟨h1, h2⟩ := h.unclaimed i j (Nat.le_of_lt hi) hj
    refine ⟨h1, fun v hv => ?_⟩
    have hv : (Function.update l.threads.workers w (.unlock job.ptr) v).job = some j.ptr := hv
    by_cases hvw : v = w
    · -- two places of the queue with one address
      rw [hvw, hself] at hv
      have hi₁ : (l.threads.jobs.map (·.ptr))[i]? = some j.ptr := by
        rw [List.getElem?_map, hj]
        rfl
      have hi₂ : (l.threads.jobs.map (·.ptr))[l.threads.nextUnclaimed]? = some j.ptr := by
        rw [List.getElem?_map, hjob]
        exact hv
      exact Nat.ne_of_gt hi ((List.getElem?_inj (by
        rw [List.length_map]
        exact (List.getElem?_eq_some_iff.mp hj).1) h.ptrs).mp (hi₁.trans hi₂.symm))
    · rw [hoff v hvw] at hv
      exact h2 v hv
  · have hi : i < l.threads.nextUnclaimed + 1 := hi
    have hj : l.threads.jobs[i]? = some j := hj
    rcases Nat.lt_succ_iff_lt_or_eq.mp hi with hi | rfl
    · refine (h.claimed i j hi hj).imp_right fun ⟨v, hv, hex, hvj⟩ => ⟨v, hv, hex, ?_⟩
      have hvw : v ≠ w := fun e => by rw [e, hnone] at hvj; cases hvj
      exact (hoff v hvw).trans hvj
    · cases hjob.symm.trans hj
      exact .inr ⟨w, hlt, hx, hself⟩

theorem QueueOK.store (h : QueueOK l) {ptr : JobPtr} (hpc : l.threads.workers w = .store ptr) :
    QueueOK { l with
      threads := setWorker { l.threads with jobs := markDone ptr l.threads.jobs } w .notify } := by
  have hw : (l.threads.workers w).job = some ptr := by
    rw [hpc]
    rfl
  have hself : (Function.update l.threads.workers w .notify w).job = none := by
    rw [Function.update_self]
    rfl
  have hoff : ∀ v ≠ w, (Function.update l.threads.workers w .notify v).job =
      (l.threads.workers v).job := fun v hv => by rw [Function.update_of_ne hv]
  have hsome : ∀ v p, (Function.update l.threads.workers w .notify v).job = some p →
      (l.threads.workers v).job = some p := by
    intro v p hv
    by_cases hvw : v = w
    · rw [hvw, hself] at hv
      cases hv
    · rwa [hoff v hvw] at hv
  refine ⟨?_, ?_, fun j hj => ?_, fun v p hv => h.held v p (hsome v p hv), fun i j hi hj => ?_,
    fun i j hi hj => ?_⟩
  · show _ ≤ (markDone ptr l.threads.jobs).length
    unfold markDone
    rw [List.length_map]
    exact h.cursor
  · show ((markDone ptr l.threads.jobs).map (·.ptr)).Nodup
    rw [map_ptr_markDone]
    exact h.ptrs
  · obtain ⟨k, hk, rfl⟩ := List.mem_map.mp hj
    split
    · exact h.fresh k hk
    · exact h.fresh k hk
  · have hj : (markDone ptr l.threads.jobs)[i]? = some j := hj
    rw [getElem?_markDone] at hj
    obtain ⟨k, hk, rfl⟩ := Option.map_eq_some_iff.mp hj
    obtain ⟨h1, h2⟩ := h.unclaimed i k hi hk
    have hne : k.ptr ≠ ptr := fun e => h2 w (by rw [hw, e])
    rw [if_neg hne]
    exact ⟨h1, fun v hv => h2 v (hsome v _ hv)⟩
  · have hj : (markDone ptr l.threads.jobs)[i]? = some j := hj
    rw [getElem?_markDone] at hj
    obtain ⟨k, hk, rfl⟩ := Option.map_eq_some_iff.mp hj
    by_cases hp : k.ptr = ptr
    · rw [if_pos hp]
      exact .inl rfl
    · rw [if_neg hp]
      refine (h.claimed i k hi hk).imp_right fun ⟨v, hv, hex, hvj⟩ => ⟨v, hv, hex, ?_⟩
      have hvw : v ≠ w := fun e => by
        rw [e, hw] at hvj
        exact hp (Option.some.inj hvj).symm
      exact (hoff v hvw).trans hvj

theorem QueueOK.loops (h : QueueOK l) (hlt : w < l.threads.numWorkers) (hx : l.exited w = false)
    (hl : Loops l w l') : QueueOK l' := by
  cases hl with
  | lock hpc _ | more hpc _ | doze hpc _ | sleep hpc | unlock ptr hpc | copy ptr hpc =>
    exact h.same rfl rfl rfl rfl (job_setWorker (by rw [hpc]; rfl) fun _ => rfl) fun _ _ => rfl
  | exit hpc _ =>
    refine h.same rfl rfl rfl rfl (fun _ => rfl) fun v hv => ?_
    exact Function.update_of_ne (fun e => hv (by rw [e, hpc]; rfl)) _ _
  | claim job hpc _ hjob => exact h.claim hx hlt hpc hjob
  | store ptr hpc => exact h.store hpc
  | notify hpc =>
    exact h.same rfl rfl rfl rfl (job_setWorker (by rw [hpc]; rfl) fun _ => job_wakeWorker _)
      fun _ _ => rfl

theorem QueueOK.moves (h : QueueOK l) {s' : Threads} (hm : Moves l.threads s') :
    QueueOK { l with threads := s' } := by
  cases hm with
  | take _ _ _ _ | stay _ _ | release _ _ _ =>
    exact h.same rfl rfl rfl rfl (fun _ => rfl) fun _ _ => rfl
  | ensure _ =>
    refine h.same rfl rfl rfl rfl (fun v => ?_) fun _ _ => rfl
    show LoopPc.job (if _ then _ else _) = _
    split
    · rename_i hv
      rw [hv.2]
      rfl
    · rfl
  | wake v _ hv =>
    exact h.same rfl rfl rfl rfl (job_setWorker (by rw [hv]; rfl) fun _ => rfl) fun _ _ => rfl
  | push _ =>
    have hlen := h.cursor
    refine ⟨?_, ?_, fun j hj => ?_, fun w p hw => Nat.lt_succ_of_lt (h.held w p hw),
      fun i j hi hj => ?_, fun i j hi hj => ?_⟩
    · show _ ≤ (l.threads.jobs ++ [_]).length
      rw [List.length_append]
      exact Nat.le_add_right_of_le hlen
    · show (List.map QueuedJob.ptr (l.threads.jobs ++ [_])).Nodup
      rw [List.map_append]
      refine List.nodup_append'.mpr ⟨h.ptrs, List.nodup_singleton _, fun p hp hp' => ?_⟩
      obtain ⟨j, hj, rfl⟩ := List.mem_map.mp hp
      exact Nat.ne_of_lt (h.fresh j hj) (List.mem_singleton.mp hp')
    · rcases List.mem_append.mp hj with hj | hj
      · exact Nat.lt_succ_of_lt (h.fresh j hj)
      · cases List.mem_singleton.mp hj
        exact Nat.lt_succ_self _
    · have hj : (l.threads.jobs ++ [⟨l.threads.nextJob, false⟩])[i]? = some j := hj
      by_cases hil : i < l.threads.jobs.length
      · rw [List.getElem?_append_left hil] at hj
        exact h.unclaimed i j hi hj
      · rw [List.getElem?_append_right (Nat.le_of_not_lt hil)] at hj
        cases List.mem_singleton.mp (List.mem_of_getElem? hj)
        exact ⟨rfl, fun w hw => Nat.lt_irrefl _ (h.held w _ hw)⟩
    · have hj : (l.threads.jobs ++ [⟨l.threads.nextJob, false⟩])[i]? = some j := hj
      rw [List.getElem?_append_left (Nat.lt_of_lt_of_le hi hlen)] at hj
      exact h.claimed i j hi hj
  | pop ptr js _ hjobs =>
    have hptrs := h.ptrs
    have hcur := h.cursor
    rw [hjobs] at hptrs hcur
    -- the job in front is done, so it is before the cursor
    obtain ⟨n, hn⟩ : ∃ n, l.threads.nextUnclaimed = n + 1 := by
      refine Nat.exists_eq_succ_of_ne_zero fun h0 => ?_
      obtain ⟨h1, -⟩ := h.unclaimed 0 _ (Nat.le_of_eq h0) (by rw [hjobs]; rfl)
      cases h1
    have hpred : sizePred l.threads.nextUnclaimed = n := by
      rw [hn]
      rfl
    rw [hn] at hcur
    have hshift : ∀ i j, js[i]? = some j → l.threads.jobs[i + 1]? = some j := fun i j hj => by
      rw [hjobs]
      exact hj
    refine ⟨?_, (List.nodup_cons.mp hptrs).2, fun j hj => h.fresh j ?_, h.held, fun i j hi hj => ?_,
      fun i j hi hj => ?_⟩
    · show sizePred _ ≤ js.length
      rw [hpred]
      exact Nat.le_of_succ_le_succ hcur
    · rw [hjobs]
      exact List.mem_cons_of_mem _ hj
    · have hi : sizePred l.threads.nextUnclaimed ≤ i := hi
      rw [hpred] at hi
      exact h.unclaimed (i + 1) j (by omega) (hshift i j hj)
    · have hi : i < sizePred l.threads.nextUnclaimed := hi
      rw [hpred] at hi
      exact h.claimed (i + 1) j (by omega) (hshift i j hj)

theorem QueueOK.steps (h : QueueOK l) {a : LifeAct} (hs : Steps l a l') : QueueOK l' := by
  cases hs with
  | scheduler hm _ => exact h.moves hm
  | worker hlt hx hl => exact h.loops hlt hx hl
  | dtor hc =>
    cases hc with
    | notify _ => exact h.same rfl rfl rfl rfl (fun _ => job_wakeWorker _) fun _ _ => rfl
    | destroy _ _ | lock _ _ | set _ | unlock _ | join _ _ _ _ | gone _ _ _ =>
      exact h.same rfl rfl rfl rfl (fun _ => rfl) fun _ _ => rfl
  | @spurious w hx hw =>
    exact h.same rfl rfl rfl rfl (job_setWorker (by rw [hw]; rfl) fun _ => rfl) fun _ _ => rfl

/-! ## Runs -/

theorem born_inv (k : Nat) : LifeInv (.born k) ∧ QueueOK (.born k) := by
  refine ⟨⟨fun t => ?_, fun h => absurd rfl h, rfl, nofun, nofun, nofun, nofun, fun _ _ => rfl⟩,
    ⟨Nat.le_refl _, List.nodup_nil, nofun, nofun, nofun, nofun⟩⟩
  cases t with
  | scheduler => exact iff_of_false Bool.false_ne_true nofun
  | worker w => exact iff_of_false Bool.false_ne_true nofun

/-- Every step keeps both. -/
theorem life_step {a : LifeAct} (h : LifeInv l ∧ QueueOK l) (hs : Life.Step l a l') :
    LifeInv l' ∧ QueueOK l' :=
  ⟨h.1.steps (Life.next_cases hs), h.2.steps (Life.next_cases hs)⟩

end Wakeup

end KvsLab
