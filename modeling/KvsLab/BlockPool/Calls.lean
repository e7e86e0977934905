import KvsLab.BlockPool.Slots

/-!
# The calls keep every slot owned

* `SameShape` — the parts of the pool no call changes.
* For each call, one theorem on what it may return and leave (`Inv.allocate_cases`, `incref_ok`,
  `decref_ok`, `migrate_cases`, `migrateAsync_cases`), and one that it keeps the invariant.
-/

namespace KvsLab

open Counting

namespace BlockPool

variable {p p' q : BlockPool} {id : BlockId}

/-! ## Calls that leave the queue alone -/

/-- The parts of the pool no call changes. -/
structure SameShape (p p' : BlockPool) : Prop where
  blockBytes : p'.blockBytes = p.blockBytes
  numTiers : p'.numTiers = p.numTiers
  numBlocks : p'.numBlocks = p.numBlocks
  tierBlocks : ∀ t, (p'.tiers t).numBlocks = (p.tiers t).numBlocks
  tierHost : ∀ t, (p'.tiers t).hostAddressable = (p.tiers t).hostAddressable

theorem SameShape.refl (p : BlockPool) : SameShape p p :=
  ⟨rfl, rfl, rfl, fun _ => rfl, fun _ => rfl⟩

theorem SameShape.trans (h : SameShape p p') (h' : SameShape p' q) : SameShape p q :=
  ⟨h'.1.trans h.1, h'.2.trans h.2, h'.3.trans h.3, fun t => (h'.4 t).trans (h.4 t),
    fun t => (h'.5 t).trans (h.5 t)⟩

theorem SameShape.slotAddr (h : SameShape p p') (l : Location) :
    p'.slotAddr l = p.slotAddr l := by
  unfold BlockPool.slotAddr
  rw [h.blockBytes]

theorem SameShape.cancelMigration (p : BlockPool) (id : BlockId) :
    SameShape p (p.cancelMigration id) := by
  unfold BlockPool.cancelMigration
  split <;> exact ⟨rfl, rfl, rfl, fun _ => rfl, fun _ => rfl⟩

theorem SameShape.setFree (p : BlockPool) (t : TierIndex) (l : List Nat) :
    SameShape p (p.setFree t l) :=
  ⟨rfl, rfl, rfl, fun u => setFree_numBlocks t u l, fun u => setFree_hostAddressable t u l⟩

/-- A call that keeps the queue keeps the invariant if it moves slots between the free lists
and the allocated blocks one for one and leaves the blocks in flight where they are. -/
theorem Inv.of_same_jobs (h : p.Inv) (hs : SameShape p p') (hj : p'.jobs = p.jobs)
    (hm : p'.migratingIds = p.migratingIds) (hn : p'.nextJob = p.nextJob)
    (hslots : ∀ l : Location, l.tier < p.numTiers →
      p'.freeCount l + p'.residentCount l = p.freeCount l + p.residentCount l)
    (hids : ∀ id, p'.freeIds.count id + (if p'.refcount id = 0 then 0 else 1) =
      p.freeIds.count id + if p.refcount id = 0 then 0 else 1)
    (hlt : ∀ id, p'.refcount id < 2 ^ 32)
    (hloc : ∀ id, p'.refcount id ≠ 0 → (p'.location id).tier < p.numTiers)
    (hfl : ∀ j ∈ p.flights, p'.refcount j.id ≠ 0 ∧ p'.location j.id = p.location j.id) :
    p'.Inv := by
  have hflights : p'.flights = p.flights := by unfold flights; rw [hj]
  refine ⟨hs.numTiers ▸ h.tiers_pos, hs.numBlocks ▸ h.blocks_lt, ?_, ?_, ?_, hlt, ?_, ?_, ?_, ?_,
    ?_, ?_, ?_, ?_⟩
  · rw [hs.numTiers, hs.numBlocks, ← h.total]
    exact Finset.sum_congr rfl fun t _ => hs.tierBlocks t
  · intro l hl
    rw [hs.numTiers] at hl
    rw [hs.tierBlocks, ← h.slots l hl, ← hslots l hl]
    unfold reservedCount
    rw [hj]
  · intro id
    rw [hids, h.ids, hs.numBlocks]
  · intro id hr
    rw [hs.numTiers]
    exact hloc id hr
  · rw [hj, hs.numTiers]; exact h.job_tier
  · intro j hjm
    rw [hj] at hjm
    rw [hs.slotAddr, hs.blockBytes]
    exact h.job_dst j hjm
  · rw [hj]; exact h.ptrs_nodup
  · rw [hj, hn]; exact h.ptrs_lt
  · rw [hm, hflights]; exact h.migrating_eq
  · rw [hflights]; exact h.flight_ids
  · intro j hjm
    rw [hflights] at hjm
    rw [(hfl j hjm).2, hs.slotAddr]
    exact ⟨(hfl j hjm).1, (h.flight j hjm).2⟩

/-- A block without references is not in flight. -/
theorem Inv.flight_ne (h : p.Inv) (hr : p.refcount id = 0) {j : MigrationJob}
    (hj : j ∈ p.flights) : j.id ≠ id := by
  rintro rfl
  exact (h.flight j hj).1 hr

/-- What `allocate` returns, and the state it leaves. -/
theorem Inv.allocate_cases (h : p.Inv) :
    (p.allocate = .ok (kInvalidBlock, p) ∧ (p.freeIds = [] ∨ (p.tiers 0).freeSlots = [])) ∨
    ∃ id ids slot slots, p.freeIds = id :: ids ∧ (p.tiers 0).freeSlots = slot :: slots ∧
      p.refcount id = 0 ∧ id < p.numBlocks ∧ p.allocate = .ok (id, p.takeBlock id slot) := by
  unfold BlockPool.allocate
  cases hi : p.freeIds with
  | nil => exact Or.inl ⟨rfl, Or.inl rfl⟩
  | cons id ids =>
    cases hsl : (p.tiers 0).freeSlots with
    | nil => exact Or.inl ⟨rfl, Or.inr rfl⟩
    | cons slot slots =>
      have hfree := h.mem_freeIds.mp (hi ▸ List.mem_cons_self : id ∈ p.freeIds)
      refine Or.inr ⟨id, ids, slot, slots, rfl, rfl, hfree.2, hfree.1, ?_⟩
      simp only [hfree.2, ne_eq, not_true_eq_false, if_false]

theorem SameShape.takeBlock (p : BlockPool) (id : BlockId) (slot : Nat) :
    SameShape p (p.takeBlock id slot) :=
  ⟨rfl, rfl, rfl, fun t => setFree_numBlocks 0 t _, fun t => setFree_hostAddressable 0 t _⟩

/-- **Handing out a block keeps the invariant**: the slot goes from the free list to the block. -/
theorem Inv.takeBlock (h : p.Inv) {ids slots : List Nat} {slot : Nat} (hi : p.freeIds = id :: ids)
    (hsl : (p.tiers 0).freeSlots = slot :: slots) : (p.takeBlock id slot).Inv := by
  have hfree := h.mem_freeIds.mp (hi ▸ List.mem_cons_self : id ∈ p.freeIds)
  have hother : ∀ x, x ≠ id → (p.takeBlock id slot).refcount x = p.refcount x ∧
      (p.takeBlock id slot).location x = p.location x := fun x hx => by simp [BlockPool.takeBlock, hx]
  refine h.of_same_jobs (SameShape.takeBlock p id slot) rfl rfl rfl ?_ ?_ ?_ ?_ ?_
  · intro l _
    have hres := residentCount_update hfree.1 (SameShape.takeBlock p id slot).numBlocks hother l
    have hpop := freeCount_popSlot hsl l
    have hold : p.residesAt l id = false := by simp [residesAt, hfree.2]
    have hnew : (p.takeBlock id slot).residesAt l id = ((⟨0, slot⟩ : Location) == l) := by
      simp [residesAt, BlockPool.takeBlock]
    rw [hold, hnew, ind_false, Nat.add_zero] at hres
    have hf : (p.takeBlock id slot).freeCount l = (p.popSlot 0).freeCount l := rfl
    omega
  · intro x
    by_cases hx : x = id
    · subst hx
      simp [BlockPool.takeBlock, hi, hfree.2]
    · rw [(hother x hx).1]
      simp [BlockPool.takeBlock, hi, Ne.symm hx]
  · intro x
    by_cases hx : x = id
    · subst hx; simp [BlockPool.takeBlock]
    · rw [(hother x hx).1]; exact h.refcount_lt x
  · intro x hr
    by_cases hx : x = id
    · subst hx; simpa [BlockPool.takeBlock] using h.tiers_pos
    · rw [(hother x hx).1] at hr
      rw [(hother x hx).2]
      exact h.loc_tier x hr
  · intro j hj
    have hne := h.flight_ne hfree.2 hj
    rw [(hother _ hne).1, (hother _ hne).2]
    exact ⟨(h.flight j hj).1, rfl⟩

theorem Inv.allocate (h : p.Inv) (ha : p.allocate = .ok (id, p')) : p'.Inv := by
  rcases h.allocate_cases with ⟨he, _⟩ | ⟨i, ids, slot, slots, hi, hsl, _, _, he⟩
  · rw [ha] at he
    cases he
    exact h
  · rw [ha] at he
    cases he
    exact h.takeBlock hi hsl

/-- Changing a live block's count to another live count. -/
theorem Inv.setRefcount (h : p.Inv) {n : Nat} (hr : p.refcount id ≠ 0) (hn : n ≠ 0)
    (hlt : n < 2 ^ 32) : Inv { p with refcount := Function.update p.refcount id n } := by
  have hz : ∀ x, (Function.update p.refcount id n x = 0 ↔ p.refcount x = 0) := by
    intro x
    by_cases hx : x = id
    · subst hx; simp [hr, hn]
    · rw [Function.update_of_ne hx]
  refine h.of_same_jobs ⟨rfl, rfl, rfl, fun _ => rfl, fun _ => rfl⟩ rfl rfl rfl ?_ ?_ ?_ ?_ ?_
  · intro l _
    have hres : residentCount { p with refcount := Function.update p.refcount id n } l =
        p.residentCount l := by
      apply List.countP_congr
      intro x _
      simp only [residesAt, Bool.and_eq_true, bne_iff_ne, ne_eq, hz]
    rw [hres]
    rfl
  · intro x
    simp only [hz]
  · intro x
    by_cases hx : x = id
    · subst hx; simpa using hlt
    · simp only [Function.update_of_ne hx]; exact h.refcount_lt x
  · intro x hx
    exact h.loc_tier x (fun e => hx ((hz x).mpr e))
  · intro j hj
    exact ⟨fun e => (h.flight j hj).1 ((hz _).mp e), rfl⟩

/-- A call passing `incref`'s own checks. -/
theorem incref_ok (he : p.incref id = .ok p') :
    id < p.numBlocks ∧ p.refcount id ≠ 0 ∧
      p' = { p with refcount := Function.update p.refcount id (toU32 (p.refcount id + 1)) } := by
  unfold incref at he
  split at he
  · cases he
  · rename_i hid
    split at he
    · cases he
    · rename_i hr
      cases he
      exact ⟨Nat.not_le.mp hid, hr, rfl⟩

theorem toU32_of_lt {n : Nat} (h : n < 2 ^ 32) : toU32 n = n := Nat.mod_eq_of_lt h

/-- `incref` keeps the invariant while the count stays in 32 bits. -/
theorem Inv.incref (h : p.Inv) (hlt : p.refcount id + 1 < 2 ^ 32) (he : p.incref id = .ok p') :
    p'.Inv := by
  obtain ⟨_, hr, rfl⟩ := incref_ok he
  rw [toU32_of_lt hlt]
  exact h.setRefcount hr (Nat.succ_ne_zero _) hlt

/-! ## Giving a block back -/

theorem SameShape.freeBlock (p : BlockPool) (id : BlockId) : SameShape p (p.freeBlock id) :=
  ⟨rfl, rfl, rfl, fun t => setFree_numBlocks _ t _, fun t => setFree_hostAddressable _ t _⟩

theorem Inv.freeBlock (h : p.Inv) (hr : p.refcount id ≠ 0) (hno : ∀ j ∈ p.flights, j.id ≠ id) :
    (p.freeBlock id).Inv := by
  have hother : ∀ x, x ≠ id → (p.freeBlock id).refcount x = p.refcount x ∧
      (p.freeBlock id).location x = p.location x := fun x hx =>
    ⟨Function.update_of_ne hx _ _, rfl⟩
  refine h.of_same_jobs (SameShape.freeBlock p id) rfl rfl rfl ?_ ?_ ?_ ?_ ?_
  · intro l _
    have hres := residentCount_update (h.lt_of_refcount hr) (SameShape.freeBlock p id).numBlocks
      hother l
    have hpush := freeCount_pushSlot p (p.location id) l
    have hold : p.residesAt l id = (p.location id == l) := by simp [residesAt, hr]
    have hnew : (p.freeBlock id).residesAt l id = false := by simp [residesAt, BlockPool.freeBlock]
    rw [hold, hnew, ind_false, Nat.add_zero] at hres
    have hf : (p.freeBlock id).freeCount l =
      (p.pushSlot (p.location id).tier (p.location id).slot).freeCount l := rfl
    omega
  · intro x
    by_cases hx : x = id
    · subst hx
      simp [BlockPool.freeBlock, hr]
    · simp [BlockPool.freeBlock, Function.update_of_ne hx, Ne.symm hx]
  · intro x
    by_cases hx : x = id
    · subst hx; simp [BlockPool.freeBlock]
    · rw [(hother x hx).1]; exact h.refcount_lt x
  · intro x hx
    by_cases e : x = id
    · subst e; simp [BlockPool.freeBlock] at hx
    · rw [(hother x e).1] at hx
      exact h.loc_tier x hx
  · intro j hj
    rw [(hother _ (hno j hj)).1, (hother _ (hno j hj)).2]
    exact ⟨(h.flight j hj).1, rfl⟩

/-- **A dying block keeps the invariant**: its slot and its id become free, and its migration,
if any, stays queued with the slot it reserved. -/
theorem Inv.releaseBlock (h : p.Inv) (hr : p.refcount id ≠ 0) : (p.releaseBlock id).Inv := by
  refine (h.cancelMigration id).freeBlock ?_ fun j hj => (h.cancel_no_flight hj).2
  rw [cancel_refcount]
  exact hr

/-- A call passing `decref`'s own checks. -/
theorem decref_ok {b : Bool} (he : p.decref id = .ok (b, p')) :
    id < p.numBlocks ∧
      ((p.refcount id = 1 ∧ b = true ∧ p' = p.releaseBlock id) ∨
       (1 < p.refcount id ∧ b = false ∧
        p' = { p with refcount := Function.update p.refcount id (p.refcount id - 1) })) := by
  unfold decref at he
  split at he
  · cases he
  · rename_i hid
    split at he
    · cases he
    · split at he
      · rename_i h1
        cases he
        exact ⟨Nat.not_le.mp hid, Or.inl ⟨h1, rfl, rfl⟩⟩
      · cases he
        exact ⟨Nat.not_le.mp hid, Or.inr ⟨by omega, rfl, rfl⟩⟩

theorem Inv.decref (h : p.Inv) {b : Bool} (he : p.decref id = .ok (b, p')) : p'.Inv := by
  obtain ⟨_, ⟨h1, _, rfl⟩ | ⟨h1, _, rfl⟩⟩ := decref_ok he
  · exact h.releaseBlock (by omega)
  · exact h.setRefcount (by omega) (by omega) (by have := h.refcount_lt id; omega)

/-! ## Synchronous migration -/

theorem locate_ok {l : Location} (he : p.locate id = .ok l) :
    id < p.numBlocks ∧ p.refcount id ≠ 0 ∧ l = p.location id := by
  unfold locate at he
  split at he
  · cases he
  · rename_i hid
    split at he
    · cases he
    · rename_i hr
      cases he
      exact ⟨Nat.not_le.mp hid, hr, rfl⟩

theorem locate_eq (hid : id < p.numBlocks) (hr : p.refcount id ≠ 0) :
    p.locate id = .ok (p.location id) := by
  unfold locate
  rw [if_neg (Nat.not_le.mpr hid), if_neg hr]

theorem SameShape.moveBlock (p : BlockPool) (id : BlockId) (dst src : Location) :
    SameShape p (p.moveBlock id dst src) := by
  have h : SameShape p ((p.popSlot dst.tier).pushSlot src.tier src.slot) :=
    (SameShape.setFree p _ _).trans (SameShape.setFree _ _ _)
  exact ⟨h.1, h.2, h.3, h.4, h.5⟩

/-- **A synchronous move keeps the invariant**: the block's old slot takes the place of the new
one on the free lists. -/
theorem Inv.moveBlock (h : p.Inv) {dst : TierIndex} {slot : Nat} {slots : List Nat}
    (hr : p.refcount id ≠ 0) (hno : ∀ j ∈ p.flights, j.id ≠ id) (ht : dst < p.numTiers)
    (hsl : (p.tiers dst).freeSlots = slot :: slots) :
    (p.moveBlock id ⟨dst, slot⟩ (p.location id)).Inv := by
  have hs := SameShape.moveBlock p id ⟨dst, slot⟩ (p.location id)
  have hother : ∀ x, x ≠ id →
      (p.moveBlock id ⟨dst, slot⟩ (p.location id)).location x = p.location x := fun x hx =>
    Function.update_of_ne hx _ _
  refine h.of_same_jobs hs rfl rfl rfl ?_ (fun _ => rfl) h.refcount_lt ?_ ?_
  · intro l _
    have hres := residentCount_update (h.lt_of_refcount hr) hs.numBlocks
      (fun x hx => ⟨rfl, hother x hx⟩) l
    have hpush := freeCount_pushSlot (p.popSlot dst) (p.location id) l
    have hpop := freeCount_popSlot hsl l
    have hold : p.residesAt l id = (p.location id == l) := by simp [residesAt, hr]
    have hnew : (p.moveBlock id ⟨dst, slot⟩ (p.location id)).residesAt l id =
        ((⟨dst, slot⟩ : Location) == l) := by
      have hc : ((p.moveBlock id ⟨dst, slot⟩ (p.location id)).refcount id != 0) = true :=
        bne_iff_ne.mpr hr
      unfold residesAt
      rw [hc]
      simp [BlockPool.moveBlock]
    rw [hold, hnew] at hres
    have hf : (p.moveBlock id ⟨dst, slot⟩ (p.location id)).freeCount l =
      ((p.popSlot dst).pushSlot (p.location id).tier (p.location id).slot).freeCount l := rfl
    omega
  · intro x hx
    by_cases e : x = id
    · subst e; simpa [BlockPool.moveBlock] using ht
    · rw [hother x e]
      exact h.loc_tier x hx
  · intro j hj
    rw [hother _ (hno j hj)]
    exact ⟨(h.flight j hj).1, rfl⟩

/-- What a returning `migrate` did. -/
theorem migrate_cases {dst : TierIndex} {b : Bool}
    (he : p.migrate id dst = .ok (b, p')) :
    p.refcount id ≠ 0 ∧ dst < p.numTiers ∧
    ((b = true ∧ (p.location id).tier = dst ∧ p' = p.cancelMigration id) ∨
     (b = false ∧ (p.location id).tier ≠ dst ∧ (p.tiers dst).freeSlots = [] ∧
       p' = p.cancelMigration id) ∨
     (b = true ∧ (p.location id).tier ≠ dst ∧ ∃ slot slots,
       (p.tiers dst).freeSlots = slot :: slots ∧
       p' = (p.cancelMigration id).moveBlock id ⟨dst, slot⟩ (p.location id))) := by
  unfold BlockPool.migrate at he
  simp only [bind, Except.bind] at he
  split at he
  · cases he
  rename_i loc hl
  obtain ⟨_, hr, rfl⟩ := locate_ok hl
  rw [cancel_refcount] at hr
  simp only [cancel_location, cancel_tiers, cancel_numTiers] at he
  by_cases hd : p.numTiers ≤ dst
  · rw [if_pos hd] at he
    cases he
  rw [if_neg hd] at he
  refine ⟨hr, Nat.not_le.mp hd, ?_⟩
  simp only [pure, Except.pure] at he
  split at he
  · rename_i ht
    cases he
    exact Or.inl ⟨rfl, ht, rfl⟩
  · rename_i ht
    split at he
    · rename_i hf
      cases he
      exact Or.inr (Or.inl ⟨rfl, ht, hf, rfl⟩)
    · rename_i slot slots hf
      cases he
      exact Or.inr (Or.inr ⟨rfl, ht, slot, slots, hf, rfl⟩)

theorem Inv.migrate (h : p.Inv) {dst : TierIndex} {b : Bool}
    (he : p.migrate id dst = .ok (b, p')) : p'.Inv := by
  obtain ⟨hr, ht, ⟨_, _, rfl⟩ | ⟨_, _, _, rfl⟩ | ⟨_, _, slot, slots, hf, rfl⟩⟩ := migrate_cases he
  · exact h.cancelMigration id
  · exact h.cancelMigration id
  · have hno : ∀ j ∈ (p.cancelMigration id).flights, j.id ≠ id := fun j hj =>
      (h.cancel_no_flight hj).2
    have hm := (h.cancelMigration id).moveBlock (by simpa using hr) hno (by simpa using ht)
      (by simpa using hf)
    simpa using hm

/-! ## Queueing a migration -/

theorem SameShape.enqueue (p : BlockPool) (id : BlockId) (dst src : Location) :
    SameShape p (p.enqueue id dst src) :=
  ⟨rfl, rfl, rfl, fun t => setFree_numBlocks _ t _, fun t => setFree_hostAddressable _ t _⟩

/-- What a returning `migrate_async` did. -/
theorem migrateAsync_cases {dst : TierIndex} {b : Bool} (he : p.migrateAsync id dst = .ok (b, p')) :
    p.refcount id ≠ 0 ∧ dst < p.numTiers ∧
    ((b = false ∧ p' = p ∧ ((p.location id).tier = dst ∨ p.migrating id = true ∨
        (p.tiers dst).freeSlots = [] ∨ (p.tiers (p.location id).tier).hostAddressable = false ∨
        (p.tiers dst).hostAddressable = false)) ∨
     (b = true ∧ (p.location id).tier ≠ dst ∧ p.migrating id = false ∧ ∃ slot slots,
       (p.tiers dst).freeSlots = slot :: slots ∧ p' = p.enqueue id ⟨dst, slot⟩ (p.location id))) := by
  unfold migrateAsync at he
  simp only [bind, Except.bind] at he
  split at he
  · cases he
  rename_i loc hl
  obtain ⟨_, hr, rfl⟩ := locate_ok hl
  by_cases hd : p.numTiers ≤ dst
  · rw [if_pos hd] at he
    cases he
  rw [if_neg hd] at he
  refine ⟨hr, Nat.not_le.mp hd, ?_⟩
  simp only [pure, Except.pure] at he
  split at he
  · rename_i ht
    cases he
    exact Or.inl ⟨rfl, rfl, Or.inl ht⟩
  rename_i ht
  split at he
  · rename_i hm
    cases he
    exact Or.inl ⟨rfl, rfl, Or.inr (Or.inl hm)⟩
  rename_i hm
  split at he
  · rename_i hf
    cases he
    exact Or.inl ⟨rfl, rfl, Or.inr (Or.inr (Or.inl hf))⟩
  · rename_i slot slots hf
    split at he
    · rename_i hh
      cases he
      simp only [Bool.not_eq_true', Bool.and_eq_false_iff] at hh
      exact Or.inl ⟨rfl, rfl, Or.inr (Or.inr (Or.inr hh))⟩
    · cases he
      exact Or.inr ⟨rfl, ht, by simpa using hm, slot, slots, hf, rfl⟩

/-- **Queueing a migration keeps the invariant**: the destination slot goes from the free list
to the job. -/
theorem Inv.enqueue (h : p.Inv) {dst : TierIndex} {slot : Nat} {slots : List Nat}
    (hr : p.refcount id ≠ 0) (ht : dst < p.numTiers) (hne : (p.location id).tier ≠ dst)
    (hm : p.migrating id = false) (hsl : (p.tiers dst).freeSlots = slot :: slots) :
    (p.enqueue id ⟨dst, slot⟩ (p.location id)).Inv := by
  have hs := SameShape.enqueue p id ⟨dst, slot⟩ (p.location id)
  have hno : ∀ j ∈ p.flights, j.id ≠ id := by
    intro j hj hi
    rw [h.migrating_iff.mpr ⟨j, hj, hi⟩] at hm
    cases hm
  have hfl : (p.enqueue id ⟨dst, slot⟩ (p.location id)).flights = p.flights ++
      [{ ptr := p.nextJob, id := id, dstTier := dst, dstSlot := slot
         src := p.slotAddr (p.location id), dst := p.slotAddr ⟨dst, slot⟩
         bytes := p.blockBytes }] := by
    simp [flights, BlockPool.enqueue]
  refine ⟨h.tiers_pos, h.blocks_lt, ?_, ?_, h.ids, h.refcount_lt, h.loc_tier, ?_, ?_, ?_, ?_, ?_,
    ?_, ?_⟩
  · rw [hs.numTiers, hs.numBlocks, ← h.total]
    exact Finset.sum_congr rfl fun t _ => hs.tierBlocks t
  · intro l hl
    have hsum := h.slots l hl
    have hpop := freeCount_popSlot hsl l
    have hf : (p.enqueue id ⟨dst, slot⟩ (p.location id)).freeCount l = (p.popSlot dst).freeCount l :=
      rfl
    have hres : (p.enqueue id ⟨dst, slot⟩ (p.location id)).residentCount l = p.residentCount l := rfl
    have hrs : (p.enqueue id ⟨dst, slot⟩ (p.location id)).reservedCount l =
        p.reservedCount l + ind ((⟨dst, slot⟩ : Location) == l) := by
      simp only [reservedCount, BlockPool.enqueue, List.countP_append, List.countP_singleton]
      rfl
    rw [hs.tierBlocks, ← hsum, hf, hres, hrs]
    omega
  · intro j hj
    rcases List.mem_append.mp hj with hj | hj
    · exact h.job_tier j hj
    · simp only [List.mem_singleton] at hj
      subst hj
      exact ht
  · intro j hj
    rcases List.mem_append.mp hj with hj | hj
    · exact h.job_dst j hj
    · simp only [List.mem_singleton] at hj
      subst hj
      exact ⟨rfl, rfl⟩
  · simp only [BlockPool.enqueue, List.map_append, List.map_cons, List.map_nil]
    rw [List.nodup_append]
    refine ⟨h.ptrs_nodup, by simp, ?_⟩
    intro a ha b hb hab
    simp only [List.mem_singleton] at hb
    obtain ⟨j, hj, rfl⟩ := List.mem_map.mp ha
    exact Nat.ne_of_lt (h.ptrs_lt j hj) (hab.trans hb)
  · intro j hj
    rcases List.mem_append.mp hj with hj | hj
    · exact Nat.lt_succ_of_lt (h.ptrs_lt j hj)
    · simp only [List.mem_singleton] at hj
      subst hj
      exact Nat.lt_succ_self _
  · rw [hfl, List.map_append, ← h.migrating_eq]
    rfl
  · rw [hfl, List.map_append, List.nodup_append]
    refine ⟨h.flight_ids, by simp, ?_⟩
    intro a ha b hb hab
    simp only [List.map_cons, List.map_nil, List.mem_singleton] at hb
    obtain ⟨j, hj, rfl⟩ := List.mem_map.mp ha
    exact hno j hj (hab.trans hb)
  · intro j hj
    rw [hfl] at hj
    rcases List.mem_append.mp hj with hj | hj
    · exact h.flight j hj
    · simp only [List.mem_singleton] at hj
      subst hj
      exact ⟨hr, rfl, hne⟩

theorem Inv.migrateAsync (h : p.Inv) {dst : TierIndex} {b : Bool}
    (he : p.migrateAsync id dst = .ok (b, p')) : p'.Inv := by
  obtain ⟨hr, ht, ⟨_, rfl, _⟩ | ⟨_, hne, hm, slot, slots, hf, rfl⟩⟩ := migrateAsync_cases he
  · exact h
  · exact h.enqueue hr ht hne hm hf

end BlockPool

end KvsLab
