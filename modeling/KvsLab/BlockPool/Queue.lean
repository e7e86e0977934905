import KvsLab.BlockPool.Conservation

/-!
# The work queue protocol

`QueueInv` ties the claim cursor to the jobs and the workers: the jobs below the cursor are the
claimed ones, each of them done or held by exactly one worker, and the jobs from the cursor on
are neither done nor held.  So the cursor never underflows at a drain, a drain never releases a
job a worker may still touch (`QueueInv.held`), and every pointer a worker dereferences
names a queued job: the actions of `workerStep` are never stuck on a dangling pointer.
-/

namespace KvsLab

open Counting Transition

/-- The job a worker holds. -/
def WorkerPc.job? : WorkerPc → Option JobPtr
  | .idle => none
  | .claimed ptr => some ptr
  | .copying ptr => some ptr
  | .finishing ptr => some ptr

namespace BlockPool

variable {p p' : BlockPool} {id : BlockId} {w : WorkerId}

/-- The job worker `w` holds. -/
def holds (p : BlockPool) (w : WorkerId) : Option JobPtr := (p.workers w).job?

/-- The claim cursor, the jobs and the workers agree. -/
structure QueueInv (p : BlockPool) : Prop where
  cursor : p.nextUnclaimed ≤ p.jobs.length
  unclaimed : ∀ i j, p.nextUnclaimed ≤ i → p.jobs[i]? = some j →
    j.done = false ∧ ∀ w, p.holds w ≠ some j.ptr
  held : ∀ w ptr, p.holds w = some ptr →
    ∃ i j, i < p.nextUnclaimed ∧ p.jobs[i]? = some j ∧ j.ptr = ptr ∧ j.done = false
  exclusive : ∀ w w' ptr, p.holds w = some ptr → p.holds w' = some ptr → w = w'
  claimed : ∀ i j, i < p.nextUnclaimed → p.jobs[i]? = some j → j.done = false →
    ∃ w, p.holds w = some j.ptr

theorem QueueInv.held_lt (hq : p.QueueInv) (h : p.Inv) {ptr : JobPtr}
    (hw : p.holds w = some ptr) : ptr < p.nextJob := by
  obtain ⟨i, j, _, hj, rfl, _⟩ := hq.held w ptr hw
  exact h.ptrs_lt j (List.mem_of_getElem? hj)

/-! ## Enabled actions -/

theorem claim_enabled {j : MigrationJob} (hw : p.workers w = .idle)
    (hj : p.jobs[p.nextUnclaimed]? = some j) :
    p.workerStep w .claim = some { p with
      workers := Function.update p.workers w (.claimed j.ptr)
      nextUnclaimed := p.nextUnclaimed + 1 } := by
  simp only [BlockPool.workerStep, hw, hj]
  rfl

theorem check_enabled {j : MigrationJob} {ptr : JobPtr} (hw : p.workers w = .claimed ptr)
    (hj : p.job? ptr = some j) :
    p.workerStep w .check = some { p with
      workers := Function.update p.workers w
        (if j.cancelled then .finishing ptr else .copying ptr) } := by
  simp only [BlockPool.workerStep, hw, hj]
  rfl

theorem copy_enabled {j : MigrationJob} {ptr : JobPtr} (hw : p.workers w = .copying ptr)
    (hj : p.job? ptr = some j) :
    p.workerStep w .copy = some { p with
      workers := Function.update p.workers w (.finishing ptr)
      mem := Arena.memcpy p.mem j.dst j.src j.bytes } := by
  simp only [BlockPool.workerStep, hw, hj]
  rfl

theorem finish_enabled {j : MigrationJob} {ptr : JobPtr} (hw : p.workers w = .finishing ptr)
    (hj : p.job? ptr = some j) :
    p.workerStep w .finish = some { p with
      jobs := p.jobs.map fun j => if j.ptr = ptr then { j with done := true } else j
      workers := Function.update p.workers w .idle } := by
  simp only [BlockPool.workerStep, hw, hj]
  rfl

/-- One pointer sits at one position. -/
theorem Inv.index_inj (h : p.Inv) {i i' : Nat} {j j' : MigrationJob} (hj : p.jobs[i]? = some j)
    (hj' : p.jobs[i']? = some j') (e : j.ptr = j'.ptr) : i = i' := by
  have hi : (p.jobs.map (·.ptr))[i]? = some j.ptr := by rw [List.getElem?_map, hj]; rfl
  have hi' : (p.jobs.map (·.ptr))[i']? = some j.ptr := by rw [List.getElem?_map, hj', e]; rfl
  have hlt : i < (p.jobs.map (·.ptr)).length := (List.getElem?_eq_some_iff.mp hi).1
  exact (List.getElem?_inj hlt h.ptrs_nodup).mp (hi.trans hi'.symm)

/-- Relabelling jobs without touching addresses or `done`. -/
theorem QueueInv.of_map (hq : p.QueueInv) {f : MigrationJob → MigrationJob}
    (hptr : ∀ j, (f j).ptr = j.ptr) (hdone : ∀ j, (f j).done = j.done)
    (hj : p'.jobs = p.jobs.map f) (hn : p'.nextUnclaimed = p.nextUnclaimed)
    (hw : p'.workers = p.workers) : p'.QueueInv := by
  have hget : ∀ {i : Nat} {k : MigrationJob}, p'.jobs[i]? = some k →
      ∃ j, p.jobs[i]? = some j ∧ f j = k := by
    intro i k hk
    rw [hj, List.getElem?_map] at hk
    obtain ⟨j, h1, h2⟩ := Option.map_eq_some_iff.mp hk
    exact ⟨j, h1, h2⟩
  have hh : p'.holds = p.holds := by funext w; unfold holds; rw [hw]
  refine ⟨?_, ?_, ?_, ?_, ?_⟩
  · rw [hn, hj, List.length_map]; exact hq.cursor
  · intro i k hi hk
    obtain ⟨j, h1, rfl⟩ := hget hk
    rw [hn] at hi
    rw [hdone, hptr, hh]
    exact hq.unclaimed i j hi h1
  · intro w ptr hp
    rw [hh] at hp
    obtain ⟨i, j, hi, h1, h2, h3⟩ := hq.held w ptr hp
    refine ⟨i, f j, hn ▸ hi, ?_, (hptr j).trans h2, (hdone j).trans h3⟩
    rw [hj, List.getElem?_map, h1]
    rfl
  · rw [hh]; exact hq.exclusive
  · intro i k hi hk hd
    obtain ⟨j, h1, rfl⟩ := hget hk
    rw [hn] at hi
    rw [hdone] at hd
    rw [hptr, hh]
    exact hq.claimed i j hi h1 hd

theorem QueueInv.of_same (hq : p.QueueInv) (hj : p'.jobs = p.jobs)
    (hn : p'.nextUnclaimed = p.nextUnclaimed) (hw : p'.workers = p.workers) : p'.QueueInv := by
  have hj' : p'.jobs = p.jobs.map fun j => j := by rw [hj, List.map_id']
  exact hq.of_map (fun _ => rfl) (fun _ => rfl) hj' hn hw

theorem QueueInv.cancelMigration (hq : p.QueueInv) (id : BlockId) :
    (p.cancelMigration id).QueueInv := by
  unfold BlockPool.cancelMigration
  split
  · exact hq
  · refine hq.of_map (fun j => ?_) (fun j => ?_) rfl rfl rfl
    · split <;> rfl
    · split <;> rfl

theorem QueueInv.enqueue (hq : p.QueueInv) (h : p.Inv) (dst src : Location) :
    (p.enqueue id dst src).QueueInv := by
  have hold : ∀ i j, (p.enqueue id dst src).jobs[i]? = some j →
      p.jobs[i]? = some j ∨ (i = p.jobs.length ∧ j.ptr = p.nextJob ∧ j.done = false) := by
    intro i j hj
    simp only [BlockPool.enqueue] at hj
    rcases Nat.lt_trichotomy i p.jobs.length with hi | hi | hi
    · rw [List.getElem?_append_left hi] at hj
      exact Or.inl hj
    · subst hi
      rw [List.getElem?_concat_length] at hj
      cases hj
      exact Or.inr ⟨rfl, rfl, rfl⟩
    · rw [List.getElem?_eq_none (by simp; omega)] at hj
      cases hj
  have hcur : (p.enqueue id dst src).nextUnclaimed = p.nextUnclaimed := rfl
  have hle := hq.cursor
  refine ⟨?_, ?_, ?_, hq.exclusive, ?_⟩
  · simp only [BlockPool.enqueue, List.length_append, List.length_singleton]
    exact Nat.le_succ_of_le hq.cursor
  · intro i j hi hj
    rcases hold i j hj with hj | ⟨_, hp, hd⟩
    · exact hq.unclaimed i j hi hj
    · exact ⟨hd, fun w hw => Nat.lt_irrefl _ (hp ▸ hq.held_lt h hw)⟩
  · intro w ptr hw
    obtain ⟨i, j, hi, hj, hp, hd⟩ := hq.held w ptr hw
    refine ⟨i, j, hi, ?_, hp, hd⟩
    simp only [BlockPool.enqueue]
    rw [List.getElem?_append_left (by omega)]
    exact hj
  · intro i j hi hj hd
    rcases hold i j hj with hj | ⟨hl, _, _⟩
    · exact hq.claimed i j hi hj hd
    · rw [hcur] at hi
      omega

/-- Done implies claimed, so the cursor covers the front job a drain pops. -/
theorem QueueInv.cursor_pos (hq : p.QueueInv) {j : MigrationJob} {js : List MigrationJob}
    (hj : p.jobs = j :: js) (hd : j.done = true) : ∃ n, p.nextUnclaimed = n + 1 := by
  cases hn : p.nextUnclaimed with
  | zero =>
    have h0 := hq.unclaimed 0 j (by omega) (by rw [hj]; rfl)
    rw [hd] at h0
    cases h0.1
  | succ n => exact ⟨n, rfl⟩

theorem settleFront_queue (p : BlockPool) (j : MigrationJob) (js : List MigrationJob) :
    (p.settleFront j js).jobs = js ∧
      (p.settleFront j js).nextUnclaimed = sizePred p.nextUnclaimed ∧
      (p.settleFront j js).workers = p.workers := by
  unfold settleFront applyFinished
  split <;> exact ⟨rfl, rfl, rfl⟩

theorem QueueInv.settleFront (hq : p.QueueInv) {j : MigrationJob} {js : List MigrationJob}
    (hj : p.jobs = j :: js) (hd : j.done = true) : (p.settleFront j js).QueueInv := by
  obtain ⟨hjs, hn, hw⟩ := settleFront_queue p j js
  obtain ⟨n, hpos⟩ := hq.cursor_pos hj hd
  have hn' : (p.settleFront j js).nextUnclaimed = n := by rw [hn, hpos]; rfl
  have hshift : ∀ i, js[i]? = p.jobs[i + 1]? := fun i => by rw [hj]; rfl
  have hh : (p.settleFront j js).holds = p.holds := by funext w; unfold holds; rw [hw]
  refine ⟨?_, ?_, ?_, ?_, ?_⟩
  · have := hq.cursor
    rw [hj, List.length_cons, hpos] at this
    rw [hn', hjs]
    omega
  · intro i k hi hk
    rw [hn'] at hi
    rw [hjs, hshift] at hk
    rw [hh]
    exact hq.unclaimed (i + 1) k (by omega) hk
  · intro w ptr hp
    rw [hh] at hp
    obtain ⟨i, k, hi, hk, hkp, hkd⟩ := hq.held w ptr hp
    cases i with
    | zero =>
      rw [hj] at hk
      cases hk
      rw [hd] at hkd
      cases hkd
    | succ i =>
      refine ⟨i, k, ?_, ?_, hkp, hkd⟩
      · rw [hn']; omega
      · rw [hjs, hshift]; exact hk
  · rw [hh]; exact hq.exclusive
  · intro i k hi hk hkd
    rw [hn'] at hi
    rw [hjs, hshift] at hk
    rw [hh]
    exact hq.claimed (i + 1) k (by omega) hk hkd

theorem QueueInv.drainMigrations (hq : p.QueueInv) : p.drainMigrations.QueueInv :=
  drain_induction (fun _ _ _ hp hj hd => hp.settleFront hj hd) p hq

/-! ## Worker actions -/

/-- A worker moves on with the job it holds. -/
theorem QueueInv.advance (hq : p.QueueInv) {pc : WorkerPc} (hpc : pc.job? = p.holds w)
    (hj : p'.jobs = p.jobs) (hn : p'.nextUnclaimed = p.nextUnclaimed)
    (hw : p'.workers = Function.update p.workers w pc) : p'.QueueInv := by
  have hh : p'.holds = p.holds := by
    funext v
    unfold holds
    rw [hw]
    by_cases e : v = w
    · subst e
      rw [Function.update_self]
      exact hpc
    · rw [Function.update_of_ne e]
  refine ⟨?_, ?_, ?_, ?_, ?_⟩
  · rw [hn, hj]; exact hq.cursor
  · rw [hn, hj, hh]; exact hq.unclaimed
  · rw [hn, hj, hh]; exact hq.held
  · rw [hh]; exact hq.exclusive
  · rw [hn, hj, hh]; exact hq.claimed

theorem QueueInv.claim (hq : p.QueueInv) (h : p.Inv) {j : MigrationJob}
    (hidle : p.workers w = .idle) (hj : p.jobs[p.nextUnclaimed]? = some j) :
    QueueInv { p with
      workers := Function.update p.workers w (.claimed j.ptr)
      nextUnclaimed := p.nextUnclaimed + 1 } := by
  obtain ⟨hjd, hfree⟩ := hq.unclaimed _ j (Nat.le_refl _) hj
  have hnone : p.holds w = none := by unfold holds; rw [hidle]; rfl
  have hself : ∀ v, v = w → holds { p with
      workers := Function.update p.workers w (.claimed j.ptr)
      nextUnclaimed := p.nextUnclaimed + 1 } v = some j.ptr := by
    rintro v rfl
    simp [holds, WorkerPc.job?]
  have hother : ∀ v, v ≠ w → holds { p with
      workers := Function.update p.workers w (.claimed j.ptr)
      nextUnclaimed := p.nextUnclaimed + 1 } v = p.holds v := by
    intro v hv
    simp [holds, hv]
  refine ⟨?_, ?_, ?_, ?_, ?_⟩
  · exact (List.getElem?_eq_some_iff.mp hj).1
  · intro i k hi hk
    obtain ⟨hkd, hkf⟩ := hq.unclaimed i k (Nat.le_of_succ_le hi) hk
    refine ⟨hkd, fun v hv => ?_⟩
    by_cases e : v = w
    · rw [hself v e] at hv
      have := h.index_inj hj hk (Option.some.inj hv)
      simp only at hi
      omega
    · rw [hother v e] at hv
      exact hkf v hv
  · intro v ptr hv
    by_cases e : v = w
    · rw [hself v e] at hv
      cases hv
      exact ⟨p.nextUnclaimed, j, Nat.lt_succ_self _, hj, rfl, hjd⟩
    · rw [hother v e] at hv
      obtain ⟨i, k, hi, hk, hkp, hkd⟩ := hq.held v ptr hv
      exact ⟨i, k, Nat.lt_succ_of_lt hi, hk, hkp, hkd⟩
  · intro v v' ptr hv hv'
    by_cases e : v = w <;> by_cases e' : v' = w
    · rw [e, e']
    · rw [hself v e] at hv
      rw [hother v' e'] at hv'
      cases hv
      exact absurd hv' (hfree v')
    · rw [hother v e] at hv
      rw [hself v' e'] at hv'
      cases hv'
      exact absurd hv (hfree v)
    · rw [hother v e] at hv
      rw [hother v' e'] at hv'
      exact hq.exclusive v v' ptr hv hv'
  · intro i k hi hk hkd
    rcases Nat.lt_succ_iff_lt_or_eq.mp hi with hlt | heq
    · obtain ⟨v, hv⟩ := hq.claimed i k hlt hk hkd
      refine ⟨v, ?_⟩
      rw [hother v]
      · exact hv
      · rintro rfl
        rw [hnone] at hv
        cases hv
    · subst heq
      rw [hk] at hj
      cases hj
      exact ⟨w, hself w rfl⟩

/-- A worker that has gone back for work holds nothing; the others hold what they did. -/
theorem holds_idle (js : List MigrationJob) (v : WorkerId) :
    holds { p with jobs := js, workers := Function.update p.workers w .idle } v =
      if v = w then none else p.holds v := by
  split
  · rename_i e
    simp [holds, e, WorkerPc.job?]
  · rename_i e
    simp [holds, e]

/-- The queue after the job at `ptr` is marked done. -/
theorem getElem?_markDone {js : List MigrationJob} {ptr : JobPtr} {i : Nat} {k : MigrationJob}
    (hk : (js.map fun j => if j.ptr = ptr then { j with done := true } else j)[i]? = some k) :
    ∃ j, js[i]? = some j ∧ k.ptr = j.ptr ∧ k.done = (j.done || j.ptr == ptr) := by
  rw [List.getElem?_map] at hk
  obtain ⟨j, h1, rfl⟩ := Option.map_eq_some_iff.mp hk
  refine ⟨j, h1, ?_, ?_⟩
  · split <;> rfl
  · split
    · rename_i e
      simp [e]
    · rename_i e
      simp [e]

theorem QueueInv.finish (hq : p.QueueInv) {ptr : JobPtr}
    (hw : p.workers w = .finishing ptr) :
    QueueInv { p with
      jobs := p.jobs.map fun j => if j.ptr = ptr then { j with done := true } else j
      workers := Function.update p.workers w .idle } := by
  have hh : p.holds w = some ptr := by unfold holds; rw [hw]; rfl
  have hheld : ∀ {js v q},
      holds { p with jobs := js, workers := Function.update p.workers w .idle } v = some q →
      v ≠ w ∧ p.holds v = some q := by
    intro js v q hv
    rw [holds_idle] at hv
    split at hv
    · cases hv
    · rename_i hne
      exact ⟨hne, hv⟩
  refine ⟨?_, ?_, ?_, ?_, ?_⟩
  · simp only [List.length_map]; exact hq.cursor
  · intro i k hi hk
    obtain ⟨j, h1, hkp, hkd⟩ := getElem?_markDone hk
    obtain ⟨hjd, hjf⟩ := hq.unclaimed i j hi h1
    have hne : j.ptr ≠ ptr := fun e => hjf w (hh.trans (by rw [e]))
    refine ⟨by rw [hkd, hjd]; simp [hne], fun v hv => ?_⟩
    rw [hkp] at hv
    exact hjf v (hheld hv).2
  · intro v q hv
    obtain ⟨hvw, hv⟩ := hheld hv
    obtain ⟨i, j, hi, hj, hjp, hjd⟩ := hq.held v q hv
    -- no other worker holds the job that was finished
    have hne : j.ptr ≠ ptr := by
      intro e
      exact hvw (hq.exclusive v w ptr (by rw [← e, hjp]; exact hv) hh)
    refine ⟨i, j, hi, ?_, hjp, hjd⟩
    rw [List.getElem?_map, hj, Option.map_some, if_neg hne]
  · intro v v' q hv hv'
    exact hq.exclusive v v' q (hheld hv).2 (hheld hv').2
  · intro i k hi hk hkd
    obtain ⟨j, h1, hkp, hkd'⟩ := getElem?_markDone hk
    rw [hkd] at hkd'
    have hor := hkd'.symm
    rw [Bool.or_eq_false_iff] at hor
    obtain ⟨v, hv⟩ := hq.claimed i j hi h1 hor.1
    refine ⟨v, ?_⟩
    have hne : v ≠ w := by
      rintro rfl
      rw [hh] at hv
      cases hv
      simp at hor
    rw [holds_idle, if_neg hne, hkp]
    exact hv

theorem QueueInv.workerStep (hq : p.QueueInv) (h : p.Inv) {act : WorkerAct}
    (he : p.workerStep w act = some p') : p'.QueueInv := by
  obtain ⟨j, _, hw, hj, rfl⟩ | ⟨ptr, j, _, hw, _, rfl⟩ | ⟨ptr, j, _, hw, _, rfl⟩ |
    ⟨bs, ptr, j, _, _, _, _, _, rfl⟩ | ⟨ptr, j, _, hw, _, rfl⟩ := workerStep_cases he
  · exact hq.claim h hw hj
  · have hh : p.holds w = some ptr := by unfold holds; rw [hw]; rfl
    refine hq.advance ?_ rfl rfl rfl
    rw [hh]
    split <;> rfl
  · have hh : p.holds w = some ptr := by unfold holds; rw [hw]; rfl
    exact hq.advance (hh ▸ rfl) rfl rfl rfl
  · exact hq.of_same rfl rfl rfl
  · exact hq.finish hw

/-- **Every step keeps the queue protocol.** -/
theorem QueueInv.next (hq : p.QueueInv) (h : p.Inv) {op : PoolOp} (he : Step p op p') :
    p'.QueueInv := by
  unfold Step at he
  cases op with
  | allocate =>
    obtain ⟨id, he⟩ := toOption_snd he
    rcases h.allocate_cases with ⟨he', _⟩ | ⟨i, ids, slot, slots, _, _, _, _, he'⟩
    · rw [he] at he'; cases he'; exact hq
    · rw [he] at he'; cases he'; exact hq.of_same rfl rfl rfl
  | incref id =>
    simp only [BlockPool.next] at he
    split at he
    · obtain ⟨_, _, rfl⟩ := incref_ok (toOption_eq_some he)
      exact hq.of_same rfl rfl rfl
    · cases he
  | decref id =>
    obtain ⟨b, he⟩ := toOption_snd he
    obtain ⟨_, ⟨_, _, rfl⟩ | ⟨_, _, rfl⟩⟩ := decref_ok he
    · exact (hq.cancelMigration id).of_same rfl rfl rfl
    · exact hq.of_same rfl rfl rfl
  | migrate id dst =>
    obtain ⟨b, he⟩ := toOption_snd he
    obtain ⟨_, _, ⟨_, _, rfl⟩ | ⟨_, _, _, rfl⟩ | ⟨_, _, slot, slots, _, rfl⟩⟩ := migrate_cases he
    · exact hq.cancelMigration id
    · exact hq.cancelMigration id
    · exact (hq.cancelMigration id).of_same rfl rfl rfl
  | migrateAsync id dst =>
    obtain ⟨b, he⟩ := toOption_snd he
    obtain ⟨_, _, ⟨_, rfl, _⟩ | ⟨_, _, _, slot, slots, _, rfl⟩⟩ := migrateAsync_cases he
    · exact hq
    · exact hq.enqueue h _ _
  | cancelMigration id =>
    cases he
    exact hq.cancelMigration id
  | drainMigrations =>
    cases he
    exact hq.drainMigrations
  | waitForMigrations =>
    rw [(waitForMigrations_ok he).2]
    exact hq.drainMigrations
  | worker w act => exact hq.workerStep h he

theorem init_queueInv {cfg : CacheConfig} {specs : List TierSpec} {mem : Arena.Mem TierIndex UInt8}
    (h : init cfg specs mem = .ok p) : p.QueueInv := by
  obtain ⟨_, states, _, rfl⟩ := init_ok h
  refine ⟨Nat.le_refl _, ?_, ?_, ?_, ?_⟩
  · intro i j _ hj; cases hj
  · intro w ptr hw; cases hw
  · intro w w' ptr hw; cases hw
  · intro i j hi; cases hi

end BlockPool

end KvsLab
