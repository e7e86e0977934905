import KvsLab.BlockPool
import KvsLab.Lib.Counting
import KvsLab.Lib.Run
import Mathlib.Algebra.BigOperators.Group.Finset.Basic

/-!
# Slot conservation

Every slot of every tier has exactly one owner: the tier's free list, an allocated block
located there, or a queued job that reserved it as its destination.

* `Inv` — the pool invariant.  Slot ownership is stated by counting: for every location the
  occurrences over the three kinds of owner add up to one inside the tier and to zero outside.
* `Inv.cancelMigration` — cancelling keeps it: the job keeps its slot.
-/

namespace KvsLab

open Counting

/-- The slot a job reserved. -/
def MigrationJob.dstLoc (j : MigrationJob) : Location := ⟨j.dstTier, j.dstSlot⟩

namespace BlockPool

/-! ## Owners of a slot -/

def freeCount (p : BlockPool) (l : Location) : Nat := (p.tiers l.tier).freeSlots.count l.slot

/-- Whether block `id` is allocated at `l`. -/
def residesAt (p : BlockPool) (l : Location) (id : BlockId) : Bool :=
  p.refcount id != 0 && p.location id == l

def residentCount (p : BlockPool) (l : Location) : Nat :=
  (List.range p.numBlocks).countP (p.residesAt l)

def reservedCount (p : BlockPool) (l : Location) : Nat :=
  p.jobs.countP fun j => j.dstLoc == l

/-- Jobs still in flight, in queue order. -/
def flights (p : BlockPool) : List MigrationJob := p.jobs.filter fun j => !j.cancelled

/-- The pool invariant. -/
structure Inv (p : BlockPool) : Prop where
  tiers_pos : 0 < p.numTiers
  blocks_lt : p.numBlocks < 2 ^ 32
  total : ∑ t ∈ Finset.range p.numTiers, (p.tiers t).numBlocks = p.numBlocks
  slots : ∀ l : Location, l.tier < p.numTiers →
    p.freeCount l + p.residentCount l + p.reservedCount l =
      if l.slot < (p.tiers l.tier).numBlocks then 1 else 0
  ids : ∀ id, p.freeIds.count id + (if p.refcount id = 0 then 0 else 1) =
    if id < p.numBlocks then 1 else 0
  refcount_lt : ∀ id, p.refcount id < 2 ^ 32
  loc_tier : ∀ id, p.refcount id ≠ 0 → (p.location id).tier < p.numTiers
  job_tier : ∀ j ∈ p.jobs, j.dstTier < p.numTiers
  job_dst : ∀ j ∈ p.jobs, j.dst = p.slotAddr j.dstLoc ∧ j.bytes = p.blockBytes
  ptrs_nodup : (p.jobs.map (·.ptr)).Nodup
  ptrs_lt : ∀ j ∈ p.jobs, j.ptr < p.nextJob
  migrating_eq : p.migratingIds = p.flights.map fun j => (j.id, j.ptr)
  flight_ids : (p.flights.map (·.id)).Nodup
  flight : ∀ j ∈ p.flights, p.refcount j.id ≠ 0 ∧ j.src = p.slotAddr (p.location j.id) ∧
    (p.location j.id).tier ≠ j.dstTier

variable {p p' q : BlockPool} {id : BlockId}

theorem Inv.lt_of_refcount (h : p.Inv) (hr : p.refcount id ≠ 0) : id < p.numBlocks := by
  have := h.ids id
  rw [if_neg hr] at this
  by_contra hn
  rw [if_neg hn] at this
  omega

theorem Inv.mem_freeIds (h : p.Inv) : id ∈ p.freeIds ↔ id < p.numBlocks ∧ p.refcount id = 0 := by
  have := h.ids id
  rw [← List.count_pos_iff]
  constructor
  · intro hc
    split_ifs at this <;> first | omega | exact ⟨by assumption, by assumption⟩
  · rintro ⟨hn, hr⟩
    rw [if_pos hn, if_pos hr] at this
    omega

/-! ## Jobs in flight -/

theorem mem_flights {j : MigrationJob} : j ∈ p.flights ↔ j ∈ p.jobs ∧ j.cancelled = false := by
  simp [flights]

/-- Two queued jobs at one address are one job. -/
theorem Inv.job_inj (h : p.Inv) {j k : MigrationJob} (hj : j ∈ p.jobs) (hk : k ∈ p.jobs)
    (e : j.ptr = k.ptr) : j = k := List.inj_on_of_nodup_map h.ptrs_nodup hj hk e

/-- Two flights of one block are one job. -/
theorem Inv.flight_inj (h : p.Inv) {j k : MigrationJob} (hj : j ∈ p.flights) (hk : k ∈ p.flights)
    (e : j.id = k.id) : j = k := List.inj_on_of_nodup_map h.flight_ids hj hk e

theorem Inv.job?_eq_some (h : p.Inv) {j : MigrationJob} {ptr : JobPtr} :
    p.job? ptr = some j ↔ j ∈ p.jobs ∧ j.ptr = ptr := by
  constructor
  · intro hf
    exact ⟨List.mem_of_find?_eq_some hf, by simpa using List.find?_some hf⟩
  · rintro ⟨hj, rfl⟩
    have hs : (p.jobs.find? (fun k => k.ptr == j.ptr)).isSome :=
      List.find?_isSome.mpr ⟨j, hj, by simp⟩
    obtain ⟨k, hk⟩ := Option.isSome_iff_exists.mp hs
    have hkj := h.job_inj (List.mem_of_find?_eq_some hk) hj (by simpa using List.find?_some hk)
    unfold job?
    rw [hk, hkj]

theorem Inv.lookup_eq_some (h : p.Inv) {ptr : JobPtr} :
    p.migratingIds.lookup id = some ptr ↔ ∃ j ∈ p.flights, j.id = id ∧ j.ptr = ptr := by
  rw [h.migrating_eq]
  have key : ∀ L : List MigrationJob, (L.map (·.id)).Nodup →
      ((L.map fun j => (j.id, j.ptr)).lookup id = some ptr ↔ ∃ j ∈ L, j.id = id ∧ j.ptr = ptr) := by
    intro L
    induction L with
    | nil => simp
    | cons j L ih =>
      intro hn
      simp only [List.map_cons, List.nodup_cons, List.mem_map, not_exists, not_and] at hn
      rw [List.map_cons, List.lookup_cons]
      by_cases e : id = j.id
      · have hb : (id == j.id) = true := by simp [e]
        rw [hb]
        constructor
        · intro hp; exact ⟨j, List.mem_cons_self, e.symm, by simpa using hp⟩
        · rintro ⟨k, hk, hki, hkp⟩
          rcases List.mem_cons.mp hk with rfl | hk
          · simp [hkp]
          · exact absurd (hki.trans e) (hn.1 k hk)
      · have hb : (id == j.id) = false := by simp [e]
        rw [hb]
        simp only [ih hn.2, List.mem_cons, exists_eq_or_imp]
        constructor
        · exact Or.inr
        · rintro (⟨hj, _⟩ | hk)
          · exact absurd hj.symm e
          · exact hk
  exact key _ h.flight_ids

theorem Inv.flight?_eq_some (h : p.Inv) {j : MigrationJob} :
    p.flight? id = some j ↔ j ∈ p.flights ∧ j.id = id := by
  unfold flight?
  rw [Option.bind_eq_some_iff]
  constructor
  · rintro ⟨ptr, hl, hj⟩
    obtain ⟨k, hk, hki, hkp⟩ := h.lookup_eq_some.mp hl
    obtain ⟨hjm, hjp⟩ := h.job?_eq_some.mp hj
    have : j = k := h.job_inj hjm (mem_flights.mp hk).1 (hjp.trans hkp.symm)
    subst this
    exact ⟨hk, hki⟩
  · rintro ⟨hj, rfl⟩
    exact ⟨j.ptr, h.lookup_eq_some.mpr ⟨j, hj, rfl, rfl⟩,
      h.job?_eq_some.mpr ⟨(mem_flights.mp hj).1, rfl⟩⟩

theorem Inv.migrating_iff (h : p.Inv) : p.migrating id = true ↔ ∃ j ∈ p.flights, j.id = id := by
  unfold migrating
  rw [Option.isSome_iff_exists]
  constructor
  · rintro ⟨ptr, hp⟩
    obtain ⟨j, hj, hi, _⟩ := h.lookup_eq_some.mp hp
    exact ⟨j, hj, hi⟩
  · rintro ⟨j, hj, hi⟩
    exact ⟨j.ptr, h.lookup_eq_some.mpr ⟨j, hj, hi, rfl⟩⟩

/-! ## Field lemmas -/

@[simp] theorem setFree_tiers_self (t : TierIndex) (l : List Nat) :
    (p.setFree t l).tiers t = { p.tiers t with freeSlots := l } := by simp [setFree]

theorem setFree_tiers_of_ne {t u : TierIndex} (l : List Nat) (h : u ≠ t) :
    (p.setFree t l).tiers u = p.tiers u := by simp [setFree, h]

@[simp] theorem setFree_numBlocks (t u : TierIndex) (l : List Nat) :
    ((p.setFree t l).tiers u).numBlocks = (p.tiers u).numBlocks := by
  by_cases h : u = t
  · subst h; simp
  · rw [setFree_tiers_of_ne l h]

@[simp] theorem setFree_hostAddressable (t u : TierIndex) (l : List Nat) :
    ((p.setFree t l).tiers u).hostAddressable = (p.tiers u).hostAddressable := by
  by_cases h : u = t
  · subst h; simp
  · rw [setFree_tiers_of_ne l h]

theorem freeCount_setFree (t : TierIndex) (s : List Nat) (l : Location) :
    (p.setFree t s).freeCount l = if l.tier = t then s.count l.slot else p.freeCount l := by
  unfold freeCount
  split
  · rename_i h; rw [h, setFree_tiers_self]
  · rename_i h; rw [setFree_tiers_of_ne s h]

theorem freeCount_pushSlot (p : BlockPool) (k l : Location) :
    (p.pushSlot k.tier k.slot).freeCount l = p.freeCount l + ind (k == l) := by
  unfold pushSlot
  rw [freeCount_setFree]
  obtain ⟨t, s⟩ := k
  obtain ⟨lt, ls⟩ := l
  by_cases h : lt = t
  · subst h
    simp only [if_true, List.count_cons, freeCount]
    by_cases hs : s = ls
    · simp [hs, ind]
    · have : (({ tier := lt, slot := s } : Location) == { tier := lt, slot := ls }) = false := by
        simp [hs]
      simp [this, hs]
  · have : (({ tier := t, slot := s } : Location) == { tier := lt, slot := ls }) = false := by
      simp only [beq_eq_false_iff_ne, ne_eq, Location.mk.injEq, not_and]
      intro e
      exact absurd e.symm h
    rw [this, if_neg h]
    rfl

/-- Popping a free list gives up the slot at its head. -/
theorem freeCount_popSlot {t : TierIndex} {s : Nat} {rest : List Nat}
    (h : (p.tiers t).freeSlots = s :: rest) (l : Location) :
    (p.popSlot t).freeCount l + ind ((⟨t, s⟩ : Location) == l) = p.freeCount l := by
  have hp := freeCount_pushSlot (p.popSlot t) ⟨t, s⟩ l
  rw [← hp]
  have : ((p.popSlot t).pushSlot t s).tiers = p.tiers := by
    funext u
    unfold pushSlot popSlot
    by_cases hu : u = t
    · subst hu
      rw [setFree_tiers_self, setFree_tiers_self, h, List.tail_cons]
      simp only [← h]
    · rw [setFree_tiers_of_ne _ hu, setFree_tiers_of_ne _ hu]
  simp only [freeCount, this]

/-- Only `id` changes: the residents of `l` change by what `id` did. -/
theorem residentCount_update (hid : id < p.numBlocks) (hn : p'.numBlocks = p.numBlocks)
    (h : ∀ x, x ≠ id → p'.refcount x = p.refcount x ∧ p'.location x = p.location x)
    (l : Location) :
    p'.residentCount l + ind (p.residesAt l id) = p.residentCount l + ind (p'.residesAt l id) := by
  unfold residentCount
  rw [hn]
  apply countP_agree_off List.nodup_range (List.mem_range.mpr hid)
  intro x _ hx
  unfold residesAt
  rw [(h x hx).1, (h x hx).2]

/-! ## Cancellation -/

section CancelFields

variable (p id)

@[simp] theorem cancel_tiers : (p.cancelMigration id).tiers = p.tiers := by
  unfold cancelMigration; split <;> rfl

@[simp] theorem cancel_numTiers : (p.cancelMigration id).numTiers = p.numTiers := by
  unfold cancelMigration; split <;> rfl

@[simp] theorem cancel_location : (p.cancelMigration id).location = p.location := by
  unfold cancelMigration; split <;> rfl

@[simp] theorem cancel_refcount : (p.cancelMigration id).refcount = p.refcount := by
  unfold cancelMigration; split <;> rfl

end CancelFields

/-- Mark every job of block `id` cancelled. -/
def cancelJob (id : BlockId) (j : MigrationJob) : MigrationJob :=
  if j.id = id then { j with cancelled := true } else j

theorem cancelJob_of_cancelled {j : MigrationJob} (h : j.id = id → j.cancelled = true) :
    cancelJob id j = j := by
  unfold cancelJob
  split
  · rename_i hi; rw [← h hi]
  · rfl

@[simp] theorem cancelJob_ptr (j : MigrationJob) : (cancelJob id j).ptr = j.ptr := by
  unfold cancelJob; split <;> rfl

@[simp] theorem cancelJob_dstTier (j : MigrationJob) : (cancelJob id j).dstTier = j.dstTier := by
  unfold cancelJob; split <;> rfl

@[simp] theorem cancelJob_dstLoc (j : MigrationJob) : (cancelJob id j).dstLoc = j.dstLoc := by
  unfold cancelJob; split <;> rfl

@[simp] theorem cancelJob_dst (j : MigrationJob) : (cancelJob id j).dst = j.dst := by
  unfold cancelJob; split <;> rfl

@[simp] theorem cancelJob_bytes (j : MigrationJob) : (cancelJob id j).bytes = j.bytes := by
  unfold cancelJob; split <;> rfl

theorem cancelJob_cancelled (j : MigrationJob) :
    (cancelJob id j).cancelled = (j.cancelled || j.id == id) := by
  unfold cancelJob
  split
  · rename_i h; simp [h]
  · rename_i h
    have : (j.id == id) = false := by simp [h]
    simp [this]

theorem cancel_of_not_migrating (h : p.migrating id = false) : p.cancelMigration id = p := by
  unfold cancelMigration
  split
  · rfl
  · rename_i ptr hl
    unfold migrating at h
    rw [hl] at h
    cases h

/-- Under the invariant, cancelling a block's migration marks the block's jobs: the flight is
the only one of them not already cancelled. -/
theorem Inv.cancel_eq (h : p.Inv) (id : BlockId) :
    p.cancelMigration id =
      { p with
        jobs := p.jobs.map (cancelJob id)
        migratingIds := p.migratingIds.filter fun e => e.1 != id } := by
  unfold cancelMigration
  split
  · rename_i hl
    have hno : ∀ j ∈ p.flights, j.id ≠ id := by
      intro j hj hi
      have := h.lookup_eq_some.mpr ⟨j, hj, hi, rfl⟩
      rw [hl] at this
      cases this
    have hj : p.jobs.map (cancelJob id) = p.jobs := by
      refine (List.map_congr_left fun j hj => ?_).trans (List.map_id _)
      refine cancelJob_of_cancelled fun hi => ?_
      by_contra hc
      exact hno j (mem_flights.mpr ⟨hj, by simpa using hc⟩) hi
    have hm : p.migratingIds.filter (fun e => e.1 != id) = p.migratingIds := by
      rw [List.filter_eq_self, h.migrating_eq]
      intro e he
      obtain ⟨j, hj, rfl⟩ := List.mem_map.mp he
      simpa using hno j hj
    rw [hj, hm]
  · rename_i ptr hl
    obtain ⟨k, hk, hki, hkp⟩ := h.lookup_eq_some.mp hl
    have hj : (p.jobs.map fun j => if j.ptr = ptr then { j with cancelled := true } else j) =
        p.jobs.map (cancelJob id) := by
      refine List.map_congr_left fun j hj => ?_
      by_cases hc : j.cancelled = true
      · rw [cancelJob_of_cancelled (fun _ => hc)]
        split
        · rw [← hc]
        · rfl
      · have hjf : j ∈ p.flights := mem_flights.mpr ⟨hj, by simpa using hc⟩
        have hiff : j.ptr = ptr ↔ j.id = id := by
          constructor
          · intro e
            rw [h.job_inj hj (mem_flights.mp hk).1 (e.trans hkp.symm), hki]
          · intro e
            rw [h.flight_inj hjf hk (e.trans hki.symm), hkp]
        unfold cancelJob
        by_cases e : j.id = id
        · rw [if_pos e, if_pos (hiff.mpr e)]
        · rw [if_neg e, if_neg (fun c => e (hiff.mp c))]
    rw [hj]

theorem Inv.cancel_flights (h : p.Inv) (id : BlockId) :
    (p.cancelMigration id).flights = p.flights.filter fun j => j.id != id := by
  rw [h.cancel_eq]
  unfold flights
  simp only
  rw [List.filter_map, List.filter_filter]
  have hf : p.jobs.filter ((fun j => !j.cancelled) ∘ cancelJob id) =
      p.jobs.filter fun j => j.id != id && !j.cancelled := by
    apply List.filter_congr
    intro j _
    simp only [Function.comp_apply, cancelJob_cancelled, Bool.not_or]
    exact Bool.and_comm _ _
  rw [hf]
  refine (List.map_congr_left fun j hj => ?_).trans (List.map_id _)
  simp only [List.mem_filter, Bool.and_eq_true, bne_iff_ne] at hj
  unfold cancelJob
  rw [if_neg hj.2.1]
  rfl

theorem Inv.cancel_no_flight (h : p.Inv) {j : MigrationJob}
    (hj : j ∈ (p.cancelMigration id).flights) : j ∈ p.flights ∧ j.id ≠ id := by
  rw [h.cancel_flights, List.mem_filter] at hj
  exact ⟨hj.1, by simpa using hj.2⟩

/-- **Cancelling keeps the invariant**: the reserved slot stays with the queued job. -/
theorem Inv.cancelMigration (h : p.Inv) (id : BlockId) : (p.cancelMigration id).Inv := by
  have hf := h.cancel_flights id
  have hfl : ∀ j ∈ (p.cancelMigration id).flights, j ∈ p.flights := fun j hj =>
    (h.cancel_no_flight hj).1
  have hmig : (p.cancelMigration id).migratingIds =
      (p.cancelMigration id).flights.map fun j => (j.id, j.ptr) := by
    rw [hf, h.cancel_eq]
    simp only
    rw [h.migrating_eq, List.filter_map]
    rfl
  have hids : ((p.cancelMigration id).flights.map (·.id)).Nodup := by
    rw [hf]
    exact h.flight_ids.sublist (List.filter_sublist.map _)
  rw [h.cancel_eq] at hfl hmig hids ⊢
  refine ⟨h.tiers_pos, h.blocks_lt, h.total, fun l hl => ?_, h.ids, h.refcount_lt, h.loc_tier,
    ?_, ?_, ?_, ?_, hmig, hids, fun j hj => h.flight j (hfl j hj)⟩
  · have hr : (p.jobs.map (cancelJob id)).countP (fun j => j.dstLoc == l) = p.reservedCount l := by
      rw [List.countP_map]
      apply List.countP_congr
      intro j _
      simp
    have hs := h.slots l hl
    rw [← hr] at hs
    exact hs
  · intro j hj
    obtain ⟨k, hk, rfl⟩ := List.mem_map.mp hj
    rw [cancelJob_dstTier]
    exact h.job_tier k hk
  · intro j hj
    obtain ⟨k, hk, rfl⟩ := List.mem_map.mp hj
    rw [cancelJob_dst, cancelJob_dstLoc, cancelJob_bytes]
    exact h.job_dst k hk
  · rw [List.map_map]
    have : ((·.ptr) ∘ cancelJob id : MigrationJob → JobPtr) = (·.ptr) := by
      funext j; simp
    rw [this]
    exact h.ptrs_nodup
  · intro j hj
    obtain ⟨k, hk, rfl⟩ := List.mem_map.mp hj
    rw [cancelJob_ptr]
    exact h.ptrs_lt k hk

end BlockPool

end KvsLab
