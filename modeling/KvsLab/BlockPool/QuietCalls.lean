import KvsLab.BlockPool.Bytes

/-!
# Calls that copy nothing

The bookkeeping of a pool reads neither the bytes of the tiers nor where the workers stand.

* `withBytes` — the bookkeeping of a pool over other bytes and workers.
* `NoCopy` — the call returns before it copies a byte.
* `withBytes_next` — such a call does to the books of a pool what it does over any other bytes and
  workers, and `next_quiet` — it leaves both alone.
-/

namespace KvsLab

open Transition

namespace BlockPool

variable {p p' : BlockPool} {id : BlockId} {m : Arena.Mem TierIndex UInt8}
  {ws : WorkerId → WorkerPc}

/-- The bookkeeping of `p`, over other bytes and workers. -/
abbrev withBytes (p : BlockPool) (m : Arena.Mem TierIndex UInt8) (ws : WorkerId → WorkerPc) :
    BlockPool :=
  { p with mem := m, workers := ws }

/-- The invariant is about no byte and no worker. -/
theorem Inv.withBytes (h : p.Inv) : (p.withBytes m ws).Inv :=
  h.of_same_jobs ⟨rfl, rfl, rfl, fun _ => rfl, fun _ => rfl⟩ rfl rfl rfl (fun _ _ => rfl)
    (fun _ => rfl) h.refcount_lt h.loc_tier fun j hj => ⟨(h.flight j hj).1, rfl⟩

/-- The call returns before it copies a byte. -/
def NoCopy (p : BlockPool) : PoolOp → Prop
  | .migrate id dst => (p.location id).tier = dst ∨ (p.tiers dst).freeSlots = []
  | .worker _ _ => False
  | _ => True

instance (p : BlockPool) : (op : PoolOp) → Decidable (p.NoCopy op)
  | .migrate id dst =>
    inferInstanceAs (Decidable ((p.location id).tier = dst ∨ (p.tiers dst).freeSlots = []))
  | .worker _ _ => isFalse not_false
  | .allocate | .incref _ | .decref _ | .migrateAsync _ _ | .cancelMigration _ | .drainMigrations
  | .waitForMigrations => isTrue trivial

theorem withBytes_cancelMigration (p : BlockPool) (id : BlockId) :
    (p.withBytes m ws).cancelMigration id = (p.cancelMigration id).withBytes m ws := by
  unfold cancelMigration
  cases p.migratingIds.lookup id <;> rfl

theorem cancel_mem (p : BlockPool) (id : BlockId) : (p.cancelMigration id).mem = p.mem := by
  unfold cancelMigration
  cases p.migratingIds.lookup id <;> rfl

theorem cancel_workers (p : BlockPool) (id : BlockId) :
    (p.cancelMigration id).workers = p.workers := by
  unfold cancelMigration
  cases p.migratingIds.lookup id <;> rfl

theorem withBytes_allocate (p : BlockPool) :
    (p.withBytes m ws).allocate = p.allocate.map fun r => (r.1, r.2.withBytes m ws) := by
  unfold allocate
  dsimp only
  cases p.freeIds with
  | nil => rfl
  | cons id ids =>
    cases (p.tiers 0).freeSlots with
    | nil => rfl
    | cons slot slots =>
      dsimp only
      by_cases hr : p.refcount id ≠ 0
      · rw [if_pos hr, if_pos hr]
        rfl
      · rw [if_neg hr, if_neg hr]
        rfl

theorem withBytes_incref (p : BlockPool) (id : BlockId) :
    (p.withBytes m ws).incref id = (p.incref id).map (·.withBytes m ws) := by
  unfold incref
  by_cases hid : p.numBlocks ≤ id
  · rw [if_pos hid, if_pos hid]
    rfl
  rw [if_neg hid, if_neg hid]
  by_cases hr : p.refcount id = 0
  · rw [if_pos hr, if_pos hr]
    rfl
  · rw [if_neg hr, if_neg hr]
    rfl

theorem withBytes_decref (p : BlockPool) (id : BlockId) :
    (p.withBytes m ws).decref id = (p.decref id).map fun r => (r.1, r.2.withBytes m ws) := by
  unfold decref releaseBlock
  rw [withBytes_cancelMigration]
  by_cases hid : p.numBlocks ≤ id
  · rw [if_pos hid, if_pos hid]
    rfl
  rw [if_neg hid, if_neg hid]
  by_cases hr : p.refcount id = 0
  · rw [if_pos hr, if_pos hr]
    rfl
  rw [if_neg hr, if_neg hr]
  by_cases h1 : p.refcount id = 1
  · rw [if_pos h1, if_pos h1]
    rfl
  · rw [if_neg h1, if_neg h1]
    rfl

theorem withBytes_migrateAsync (p : BlockPool) (id : BlockId) (dst : TierIndex) :
    (p.withBytes m ws).migrateAsync id dst =
      (p.migrateAsync id dst).map fun r => (r.1, r.2.withBytes m ws) := by
  have hloc : (p.withBytes m ws).locate id = p.locate id := rfl
  have hmig : (p.withBytes m ws).migrating id = p.migrating id := rfl
  unfold migrateAsync
  rw [hloc, hmig]
  cases p.locate id with
  | error e => rfl
  | ok loc =>
    simp only [bind, Except.bind]
    by_cases hd : p.numTiers ≤ dst
    · simp only [if_pos hd]
      rfl
    by_cases ht : loc.tier = dst
    · simp only [if_neg hd, if_pos ht]
      rfl
    by_cases hm : p.migrating id = true
    · simp only [if_neg hd, if_neg ht, if_pos hm]
      rfl
    simp only [if_neg hd, if_neg ht, if_neg hm]
    cases (p.tiers dst).freeSlots with
    | nil => rfl
    | cons slot slots =>
      cases (p.tiers loc.tier).hostAddressable && (p.tiers dst).hostAddressable <;> rfl

theorem withBytes_migrate {dst : TierIndex}
    (h : (p.location id).tier = dst ∨ (p.tiers dst).freeSlots = []) :
    (p.withBytes m ws).migrate id dst = (p.migrate id dst).map fun r => (r.1, r.2.withBytes m ws) := by
  have h : ((p.cancelMigration id).location id).tier = dst ∨
      ((p.cancelMigration id).tiers dst).freeSlots = [] := by
    rwa [cancel_location, cancel_tiers]
  unfold migrate
  rw [withBytes_cancelMigration]
  generalize p.cancelMigration id = q at h
  have hloc : (q.withBytes m ws).locate id = q.locate id := rfl
  simp only [hloc]
  cases hl : q.locate id with
  | error e => rfl
  | ok loc =>
    obtain ⟨-, -, rfl⟩ := locate_ok hl
    simp only [bind, Except.bind]
    by_cases hd : q.numTiers ≤ dst
    · simp only [if_pos hd]
      rfl
    by_cases ht : (q.location id).tier = dst
    · simp only [if_neg hd, if_pos ht]
      rfl
    simp only [if_neg hd, if_neg ht, h.resolve_left ht]
    rfl

theorem withBytes_applyFinished (p : BlockPool) (j : MigrationJob) :
    applyFinished (p.withBytes m ws) j = (applyFinished p j).withBytes m ws := by
  unfold applyFinished
  split <;> rfl

theorem withBytes_drainMigrations (p : BlockPool) :
    (p.withBytes m ws).drainMigrations = p.drainMigrations.withBytes m ws := by
  have hom : ∀ (js : List MigrationJob) (q : BlockPool),
      js.foldl applyFinished (q.withBytes m ws) = (js.foldl applyFinished q).withBytes m ws := by
    intro js
    induction js with
    | nil => exact fun _ => rfl
    | cons j js ih =>
      intro q
      rw [List.foldl_cons, withBytes_applyFinished, ih]
      rfl
  exact hom (popFinished p.jobs p.nextUnclaimed).1
    { p with
      jobs := (popFinished p.jobs p.nextUnclaimed).2.1
      nextUnclaimed := (popFinished p.jobs p.nextUnclaimed).2.2 }

theorem withBytes_waitForMigrations (p : BlockPool) :
    (p.withBytes m ws).waitForMigrations = p.waitForMigrations.map (·.withBytes m ws) := by
  unfold waitForMigrations
  rw [withBytes_drainMigrations]
  dsimp only
  cases p.jobs.all (·.done) <;> rfl

theorem withBytes_next {op : PoolOp} (hn : p.NoCopy op) (h : p.next op = some p') :
    (p.withBytes m ws).next op = some (p'.withBytes m ws) := by
  cases op with
  | allocate =>
    obtain ⟨_, ha⟩ := toOption_snd h
    show (p.withBytes m ws).allocate.toOption.map (·.2) = _
    rw [withBytes_allocate, ha]
    rfl
  | incref id =>
    simp only [BlockPool.next] at h ⊢
    split at h
    · rename_i hlt
      rw [if_pos hlt, withBytes_incref, toOption_eq_some h]
      rfl
    · cases h
  | decref id =>
    obtain ⟨_, ha⟩ := toOption_snd h
    show ((p.withBytes m ws).decref id).toOption.map (·.2) = _
    rw [withBytes_decref, ha]
    rfl
  | migrate id dst =>
    obtain ⟨_, ha⟩ := toOption_snd h
    show ((p.withBytes m ws).migrate id dst).toOption.map (·.2) = _
    rw [withBytes_migrate hn, ha]
    rfl
  | migrateAsync id dst =>
    obtain ⟨_, ha⟩ := toOption_snd h
    show ((p.withBytes m ws).migrateAsync id dst).toOption.map (·.2) = _
    rw [withBytes_migrateAsync, ha]
    rfl
  | cancelMigration id =>
    cases h
    exact congrArg some (withBytes_cancelMigration p id)
  | drainMigrations =>
    cases h
    exact congrArg some (withBytes_drainMigrations p)
  | waitForMigrations =>
    have h : p.waitForMigrations = some p' := h
    show (p.withBytes m ws).waitForMigrations = _
    rw [withBytes_waitForMigrations, h]
    rfl
  | worker w act => cases hn

/-- Such a call leaves the bytes and the workers alone. -/
theorem next_quiet {op : PoolOp} (hn : p.NoCopy op) (h : p.next op = some p') :
    p'.mem = p.mem ∧ p'.workers = p.workers := by
  have hself : p.next op = some (p'.withBytes p.mem p.workers) := withBytes_next hn h
  have he : p' = p'.withBytes p.mem p.workers := Option.some.inj (h.symm.trans hself)
  exact ⟨(congrArg BlockPool.mem he).trans rfl, (congrArg BlockPool.workers he).trans rfl⟩

end BlockPool

end KvsLab
