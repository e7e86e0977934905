import KvsLab.BlockPool.Calls

/-!
# Drains and workers keep every slot owned

* `drain_induction` — `drain_migrations` is a run of single settlements of the front job, so a
  property kept by one settlement is kept by the whole drain.
* `Inv.of_done` — worker actions change nothing the invariant counts.
-/

namespace KvsLab

open Counting

namespace BlockPool

variable {p p' q : BlockPool} {id : BlockId}

/-! ## Draining -/

/-- Settle the job at the front of the queue. -/
def settleFront (p : BlockPool) (j : MigrationJob) (js : List MigrationJob) : BlockPool :=
  applyFinished { p with jobs := js, nextUnclaimed := sizePred p.nextUnclaimed } j

/-- Settling a job reads neither the queue nor the cursor. -/
theorem applyFinished_queue (p : BlockPool) (js : List MigrationJob) (n : Nat) (j : MigrationJob) :
    applyFinished { p with jobs := js, nextUnclaimed := n } j =
      { applyFinished p j with jobs := js, nextUnclaimed := n } := by
  unfold applyFinished
  split <;> rfl

theorem applyFinished_jobs (p : BlockPool) (j : MigrationJob) :
    (applyFinished p j).jobs = p.jobs ∧ (applyFinished p j).nextUnclaimed = p.nextUnclaimed := by
  unfold applyFinished
  split <;> exact ⟨rfl, rfl⟩

/-- A drain settles the front job and goes on, or stops at a job that is not done. -/
theorem drain_cons {j : MigrationJob} {js : List MigrationJob} (h : p.jobs = j :: js) :
    p.drainMigrations =
      if j.done then (p.settleFront j js).drainMigrations else p := by
  unfold drainMigrations
  rw [h, popFinished]
  split
  · rename_i hd
    have hq := applyFinished_queue p js (sizePred p.nextUnclaimed) j
    unfold settleFront
    rw [hq]
    simp only [List.foldl_cons]
    rw [applyFinished_queue]
  · simp only [List.foldl_nil, ← h]

theorem drain_nil (h : p.jobs = []) : p.drainMigrations = p := by
  unfold drainMigrations
  rw [h, popFinished]
  rw [List.foldl_nil, ← h]

/-- **Drain rule.**  What one settlement of a finished front job keeps, a drain keeps. -/
theorem drain_induction {motive : BlockPool → Prop}
    (hstep : ∀ (p : BlockPool) j js, motive p → p.jobs = j :: js → j.done = true →
      motive (p.settleFront j js)) : ∀ p : BlockPool, motive p → motive p.drainMigrations := by
  suffices ∀ (js : List MigrationJob) (p : BlockPool), p.jobs = js → motive p →
      motive p.drainMigrations from fun p hp => this p.jobs p rfl hp
  intro js
  induction js with
  | nil => intro p hj hp; rw [drain_nil hj]; exact hp
  | cons j js ih =>
    intro p hj hp
    rw [drain_cons hj]
    split
    · rename_i hd
      refine ih _ ?_ (hstep p j js hp hj hd)
      exact (applyFinished_jobs _ j).1
    · exact hp

/-- What is left in the queue: everything from the first job that is not done. -/
theorem drain_jobs (p : BlockPool) : p.drainMigrations.jobs = p.jobs.dropWhile (·.done) := by
  suffices ∀ (js : List MigrationJob) (p : BlockPool), p.jobs = js →
      p.drainMigrations.jobs = js.dropWhile (·.done) from this p.jobs p rfl
  intro js
  induction js with
  | nil => intro p hj; rw [drain_nil hj, hj]; rfl
  | cons j js ih =>
    intro p hj
    rw [drain_cons hj, List.dropWhile_cons]
    split
    · exact ih _ (applyFinished_jobs _ j).1
    · exact hj

theorem SameShape.settleFront (p : BlockPool) (j : MigrationJob) (js : List MigrationJob) :
    SameShape p (p.settleFront j js) := by
  unfold BlockPool.settleFront applyFinished
  split <;>
    exact ⟨rfl, rfl, rfl, fun t => setFree_numBlocks _ t _, fun t => setFree_hostAddressable _ t _⟩

theorem SameShape.drainMigrations (p : BlockPool) : SameShape p p.drainMigrations :=
  drain_induction (motive := fun q => SameShape p q)
    (fun q j js h _ _ => h.trans (SameShape.settleFront q j js)) p (SameShape.refl p)

/-- The flights once the front job is gone. -/
theorem flights_cons {j : MigrationJob} {js : List MigrationJob} (hj : p.jobs = j :: js) :
    p.flights = if j.cancelled then js.filter (fun j => !j.cancelled)
      else j :: js.filter (fun j => !j.cancelled) := by
  unfold flights
  rw [hj, List.filter_cons]
  cases j.cancelled <;> rfl

theorem reservedCount_cons {j : MigrationJob} {js : List MigrationJob} (hj : p.jobs = j :: js)
    (l : Location) :
    p.reservedCount l = js.countP (fun j => j.dstLoc == l) + ind (j.dstLoc == l) := by
  unfold reservedCount
  rw [hj, List.countP_cons]
  rfl

/-- The invariant without the front job's reservation, up to the slots. -/
theorem Inv.settle_rest (h : p.Inv) {j : MigrationJob} {js : List MigrationJob}
    (hj : p.jobs = j :: js) (hs : SameShape p p') (hjs : p'.jobs = js)
    (hn : p'.nextJob = p.nextJob) (hi : p'.freeIds = p.freeIds) (hr : p'.refcount = p.refcount)
    (hslots : ∀ l : Location, l.tier < p.numTiers → p'.freeCount l + p'.residentCount l =
      p.freeCount l + p.residentCount l + ind (j.dstLoc == l))
    (hloc : ∀ id, p.refcount id ≠ 0 → (p'.location id).tier < p.numTiers)
    (hm : p'.migratingIds = p'.flights.map fun j => (j.id, j.ptr))
    (hfl : ∀ k ∈ p'.flights, k ∈ p.flights ∧ p'.location k.id = p.location k.id) : p'.Inv := by
  have hsub : p'.jobs.Sublist p.jobs := by rw [hjs, hj]; exact List.sublist_cons_self j js
  have hmem : ∀ k ∈ p'.jobs, k ∈ p.jobs := fun k hk => hsub.subset hk
  refine ⟨hs.numTiers ▸ h.tiers_pos, hs.numBlocks ▸ h.blocks_lt, ?_, ?_, ?_, ?_, ?_, ?_, ?_, ?_,
    ?_, hm, ?_, ?_⟩
  · rw [hs.numTiers, hs.numBlocks, ← h.total]
    exact Finset.sum_congr rfl fun t _ => hs.tierBlocks t
  · intro l hl
    rw [hs.numTiers] at hl
    have hsum := h.slots l hl
    have hnew := hslots l hl
    rw [reservedCount_cons hj] at hsum
    rw [hs.tierBlocks, ← hsum]
    unfold reservedCount
    rw [hjs]
    omega
  · rw [hi, hr, hs.numBlocks]; exact h.ids
  · rw [hr]; exact h.refcount_lt
  · intro id hid
    rw [hr] at hid
    rw [hs.numTiers]
    exact hloc id hid
  · intro k hk
    rw [hs.numTiers]
    exact h.job_tier k (hmem k hk)
  · intro k hk
    rw [hs.slotAddr, hs.blockBytes]
    exact h.job_dst k (hmem k hk)
  · exact h.ptrs_nodup.sublist (hsub.map _)
  · intro k hk
    rw [hn]
    exact h.ptrs_lt k (hmem k hk)
  · exact h.flight_ids.sublist ((hsub.filter _).map _)
  · intro k hk
    obtain ⟨hkp, hkl⟩ := hfl k hk
    rw [hkl, hs.slotAddr, hr]
    exact h.flight k hkp

theorem settleFront_jobs (p : BlockPool) (j : MigrationJob) (js : List MigrationJob) :
    (p.settleFront j js).jobs = js := (applyFinished_jobs _ j).1

theorem settleFront_flights (p : BlockPool) (j : MigrationJob) (js : List MigrationJob) :
    (p.settleFront j js).flights = js.filter fun j => !j.cancelled := by
  unfold flights
  rw [settleFront_jobs]

/-- A cancelled job's slot becomes free. -/
theorem Inv.settle_cancelled (h : p.Inv) {j : MigrationJob} {js : List MigrationJob}
    (hj : p.jobs = j :: js) (hc : j.cancelled = true) : (p.settleFront j js).Inv := by
  have hfl' := settleFront_flights p j js
  have hfl := flights_cons hj
  rw [hc, if_pos rfl] at hfl
  have he : p.settleFront j js =
      { p.pushSlot j.dstTier j.dstSlot with
        jobs := js, nextUnclaimed := sizePred p.nextUnclaimed } := by
    simp only [BlockPool.settleFront, applyFinished, hc, if_true]
    rfl
  refine h.settle_rest hj (SameShape.settleFront p j js) (settleFront_jobs p j js) ?_ ?_ ?_ ?_ ?_
    ?_ ?_
  · rw [he]; rfl
  · rw [he]; rfl
  · rw [he]; rfl
  · intro l _
    have hpush := freeCount_pushSlot p j.dstLoc l
    have hf : (p.settleFront j js).freeCount l = (p.pushSlot j.dstTier j.dstSlot).freeCount l := by
      rw [he]; rfl
    have hres : (p.settleFront j js).residentCount l = p.residentCount l := by
      rw [he]; rfl
    rw [hf, hres]
    have e : (p.pushSlot j.dstTier j.dstSlot).freeCount l =
      (p.pushSlot j.dstLoc.tier j.dstLoc.slot).freeCount l := rfl
    omega
  · intro id hid
    rw [he]
    exact h.loc_tier id hid
  · rw [hfl', ← hfl, ← h.migrating_eq, he]
    rfl
  · intro k hk
    rw [hfl', ← hfl] at hk
    refine ⟨hk, ?_⟩
    rw [he]
    rfl

/-- The slot of a job in flight becomes the block's, whose old slot becomes free. -/
theorem Inv.settle_landed (h : p.Inv) {j : MigrationJob} {js : List MigrationJob}
    (hj : p.jobs = j :: js) (hc : j.cancelled = false) : (p.settleFront j js).Inv := by
  have hs := SameShape.settleFront p j js
  have hfl' := settleFront_flights p j js
  have hfl := flights_cons hj
  rw [hc, if_neg (by simp)] at hfl
  have hjf : j ∈ p.flights := by rw [hfl]; exact List.mem_cons_self
  obtain ⟨hr, _, _⟩ := h.flight j hjf
  have hids := h.flight_ids
  rw [hfl, List.map_cons, List.nodup_cons] at hids
  have hne : ∀ k ∈ js.filter (fun j => !j.cancelled), k.id ≠ j.id := fun k hk e =>
    hids.1 (List.mem_map.mpr ⟨k, hk, e⟩)
  have he : p.settleFront j js =
      { p.pushSlot (p.location j.id).tier (p.location j.id).slot with
        jobs := js
        nextUnclaimed := sizePred p.nextUnclaimed
        location := Function.update p.location j.id j.dstLoc
        migratingIds := p.migratingIds.filter fun e => e.1 != j.id } := by
    simp only [BlockPool.settleFront, applyFinished, hc, Bool.false_eq_true, if_false]
    rfl
  have hother : ∀ x, x ≠ j.id → (p.settleFront j js).location x = p.location x := by
    intro x hx
    rw [he]
    exact Function.update_of_ne hx _ _
  have hself : (p.settleFront j js).location j.id = j.dstLoc := by
    rw [he]
    exact Function.update_self _ _ _
  have hrc : (p.settleFront j js).refcount = p.refcount := by rw [he]; rfl
  refine h.settle_rest hj hs (settleFront_jobs p j js) ?_ ?_ hrc ?_ ?_ ?_ ?_
  · rw [he]; rfl
  · rw [he]; rfl
  · intro l _
    have hres := residentCount_update (h.lt_of_refcount hr) hs.numBlocks
      (fun x hx => ⟨by rw [hrc], hother x hx⟩) l
    have hpush := freeCount_pushSlot p (p.location j.id) l
    have hf : (p.settleFront j js).freeCount l =
        (p.pushSlot (p.location j.id).tier (p.location j.id).slot).freeCount l := by
      rw [he]; rfl
    have hold : p.residesAt l j.id = (p.location j.id == l) := by simp [residesAt, hr]
    have hnew : (p.settleFront j js).residesAt l j.id = (j.dstLoc == l) := by
      unfold residesAt
      rw [hself, hrc, bne_iff_ne.mpr hr, Bool.true_and]
    rw [hold, hnew] at hres
    omega
  · intro id hid
    by_cases e : id = j.id
    · rw [e, hself]
      exact h.job_tier j (mem_flights.mp hjf).1
    · rw [hother id e]
      exact h.loc_tier id hid
  · rw [hfl']
    have hmi : (p.settleFront j js).migratingIds =
        p.migratingIds.filter fun e => e.1 != j.id := by rw [he]
    rw [hmi, h.migrating_eq, hfl, List.map_cons, List.filter_cons_of_neg (by simp),
      List.filter_eq_self]
    intro e he'
    obtain ⟨k, hk, rfl⟩ := List.mem_map.mp he'
    simpa using hne k hk
  · intro k hk
    rw [hfl'] at hk
    refine ⟨by rw [hfl]; exact List.mem_cons_of_mem _ hk, hother _ (hne k hk)⟩

/-- **Settling a finished job keeps the invariant.** -/
theorem Inv.settleFront (h : p.Inv) {j : MigrationJob} {js : List MigrationJob}
    (hj : p.jobs = j :: js) : (p.settleFront j js).Inv := by
  cases hc : j.cancelled with
  | true => exact h.settle_cancelled hj hc
  | false => exact h.settle_landed hj hc

/-- **A drain keeps the invariant.** -/
theorem Inv.drainMigrations (h : p.Inv) : p.drainMigrations.Inv :=
  drain_induction (fun _ _ _ hp hj _ => hp.settleFront hj) p h

/-! ## Workers -/

/-- Worker actions touch the queue's flags and the bytes, nothing the invariant counts. -/
theorem Inv.of_done (h : p.Inv) {f : MigrationJob → MigrationJob}
    (hf : ∀ j, f j = j ∨ f j = { j with done := true }) (hs : SameShape p p')
    (hj : p'.jobs = p.jobs.map f) (hm : p'.migratingIds = p.migratingIds)
    (hn : p'.nextJob = p.nextJob) (ht : p'.tiers = p.tiers) (hi : p'.freeIds = p.freeIds)
    (hr : p'.refcount = p.refcount) (hl : p'.location = p.location) : p'.Inv := by
  have hkeep : ∀ j, (f j).id = j.id ∧ (f j).ptr = j.ptr ∧ (f j).dstLoc = j.dstLoc ∧
      (f j).dstTier = j.dstTier ∧ (f j).src = j.src ∧ (f j).dst = j.dst ∧ (f j).bytes = j.bytes ∧
      (f j).cancelled = j.cancelled := by
    intro j
    rcases hf j with e | e <;> rw [e] <;> exact ⟨rfl, rfl, rfl, rfl, rfl, rfl, rfl, rfl⟩
  have hfl : p'.flights = p.flights.map f := by
    unfold flights
    rw [hj, List.filter_map]
    congr 1
    apply List.filter_congr
    intro j _
    simp only [Function.comp_apply, (hkeep j).2.2.2.2.2.2.2]
  refine ⟨hs.numTiers ▸ h.tiers_pos, hs.numBlocks ▸ h.blocks_lt, ?_, ?_, ?_, ?_, ?_, ?_, ?_, ?_,
    ?_, ?_, ?_, ?_⟩
  · rw [hs.numTiers, hs.numBlocks, ht]; exact h.total
  · intro l hlt
    rw [hs.numTiers] at hlt
    rw [ht, ← h.slots l hlt]
    have h1 : p'.freeCount l = p.freeCount l := by unfold freeCount; rw [ht]
    have h2 : p'.residentCount l = p.residentCount l := by
      unfold residentCount residesAt
      rw [hs.numBlocks, hr, hl]
    have h3 : p'.reservedCount l = p.reservedCount l := by
      unfold reservedCount
      rw [hj, List.countP_map]
      apply List.countP_congr
      intro j _
      simp only [Function.comp_apply, (hkeep j).2.2.1]
    rw [h1, h2, h3]
  · rw [hi, hr, hs.numBlocks]; exact h.ids
  · rw [hr]; exact h.refcount_lt
  · rw [hr, hl, hs.numTiers]; exact h.loc_tier
  · intro k hk
    rw [hj] at hk
    obtain ⟨j, hjm, rfl⟩ := List.mem_map.mp hk
    rw [(hkeep j).2.2.2.1, hs.numTiers]
    exact h.job_tier j hjm
  · intro k hk
    rw [hj] at hk
    obtain ⟨j, hjm, rfl⟩ := List.mem_map.mp hk
    rw [(hkeep j).2.2.2.2.2.1, (hkeep j).2.2.1, (hkeep j).2.2.2.2.2.2.1, hs.slotAddr,
      hs.blockBytes]
    exact h.job_dst j hjm
  · rw [hj, List.map_map]
    have : ((·.ptr) ∘ f : MigrationJob → JobPtr) = (·.ptr) := by
      funext j; exact (hkeep j).2.1
    rw [this]
    exact h.ptrs_nodup
  · intro k hk
    rw [hj] at hk
    obtain ⟨j, hjm, rfl⟩ := List.mem_map.mp hk
    rw [(hkeep j).2.1, hn]
    exact h.ptrs_lt j hjm
  · rw [hm, h.migrating_eq, hfl, List.map_map]
    apply List.map_congr_left
    intro j _
    simp only [Function.comp_apply, (hkeep j).1, (hkeep j).2.1]
  · rw [hfl, List.map_map]
    have : ((·.id) ∘ f : MigrationJob → BlockId) = (·.id) := by
      funext j; exact (hkeep j).1
    rw [this]
    exact h.flight_ids
  · intro k hk
    rw [hfl] at hk
    obtain ⟨j, hjm, rfl⟩ := List.mem_map.mp hk
    rw [(hkeep j).1, (hkeep j).2.2.2.1, (hkeep j).2.2.2.2.1, hr, hl, hs.slotAddr]
    exact h.flight j hjm

end BlockPool

end KvsLab
