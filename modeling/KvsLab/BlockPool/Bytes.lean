import KvsLab.BlockPool.Queue

/-!
# Block bytes follow the id

The tiers are distinct arenas and `num_blocks * block_bytes` does not wrap, so the slots of the
pool are pairwise disjoint byte ranges.  Owners write a block through its own id and not while it
is migrating; workers copy at any moment between claim and done, and a copy of a job cancelled
under way leaves arbitrary bytes.

* `OwnedPool` / `OwnedOp` — a pool together with the last bytes each owner wrote since the
  block was allocated, and its steps.
* `BytesInv` — every byte an owner wrote is at the block's current location, and a flight whose
  copy is complete has delivered the block's bytes to its destination.  Every write lands in a
  slot no allocated block owns, except the owner's own write (`BytesInv.of_write`).
* `bytes_follow_id` — the first part, for every run.
-/

namespace KvsLab

open Counting Transition

namespace BlockPool

variable {p p' : BlockPool} {id : BlockId} {w : WorkerId}

/-! ## Slots have one owner -/

theorem Inv.slot_lt (h : p.Inv) {l : Location} (ht : l.tier < p.numTiers)
    (hpos : 0 < p.freeCount l + p.residentCount l + p.reservedCount l) :
    l.slot < (p.tiers l.tier).numBlocks := by
  have := h.slots l ht
  by_contra hn
  rw [if_neg hn] at this
  omega

theorem Inv.owners_le_one (h : p.Inv) {l : Location} (ht : l.tier < p.numTiers) :
    p.freeCount l + p.residentCount l + p.reservedCount l ≤ 1 := by
  have := h.slots l ht
  split at this <;> omega

theorem Inv.resident_pos (h : p.Inv) (hr : p.refcount id ≠ 0) :
    0 < p.residentCount (p.location id) :=
  List.countP_pos_iff.mpr ⟨id, List.mem_range.mpr (h.lt_of_refcount hr), by simp [residesAt, hr]⟩

theorem reserved_pos {j : MigrationJob} (hj : j ∈ p.jobs) : 0 < p.reservedCount j.dstLoc :=
  List.countP_pos_iff.mpr ⟨j, hj, by simp⟩

theorem free_pos {t : TierIndex} {s : Nat} (hs : s ∈ (p.tiers t).freeSlots) :
    0 < p.freeCount ⟨t, s⟩ := List.count_pos_iff.mpr hs

/-- Two allocated blocks are at different slots. -/
theorem Inv.location_inj (h : p.Inv) {x y : BlockId} (hx : p.refcount x ≠ 0)
    (hy : p.refcount y ≠ 0) (e : p.location x = p.location y) : x = y := by
  have hle := h.owners_le_one (h.loc_tier x hx)
  refine eq_of_countP_le_one (P := p.residesAt (p.location x)) (L := List.range p.numBlocks)
    (by unfold residentCount at hle; omega) (List.mem_range.mpr (h.lt_of_refcount hx))
    (List.mem_range.mpr (h.lt_of_refcount hy)) ?_ ?_
  · simp [residesAt, hx]
  · simp [residesAt, hy, e]

/-- No allocated block is at a reserved slot. -/
theorem Inv.location_ne_dst (h : p.Inv) (hr : p.refcount id ≠ 0) {j : MigrationJob}
    (hj : j ∈ p.jobs) : p.location id ≠ j.dstLoc := by
  intro e
  have hle := h.owners_le_one (h.loc_tier id hr)
  have h1 := h.resident_pos hr
  have h2 := reserved_pos hj
  rw [← e] at h2
  omega

/-- No allocated block is at a free slot. -/
theorem Inv.location_ne_free (h : p.Inv) (hr : p.refcount id ≠ 0) {t : TierIndex} {s : Nat}
    (hs : s ∈ (p.tiers t).freeSlots) : p.location id ≠ ⟨t, s⟩ := by
  intro e
  have hle := h.owners_le_one (h.loc_tier id hr)
  have h1 := h.resident_pos hr
  have h2 := free_pos hs
  rw [← e] at h2
  omega

/-- Two queued jobs reserved different slots. -/
theorem Inv.dst_inj (h : p.Inv) {j k : MigrationJob} (hj : j ∈ p.jobs) (hk : k ∈ p.jobs)
    (e : j.dstLoc = k.dstLoc) : j = k := by
  have hle := h.owners_le_one (l := j.dstLoc) (h.job_tier j hj)
  exact eq_of_countP_le_one (P := fun k => k.dstLoc == j.dstLoc) (L := p.jobs)
    (by unfold reservedCount at hle; omega) hj hk (by simp) (by simp [e])

/-- No reserved slot is free. -/
theorem Inv.dst_ne_free (h : p.Inv) {j : MigrationJob} (hj : j ∈ p.jobs) {t : TierIndex} {s : Nat}
    (hs : s ∈ (p.tiers t).freeSlots) : j.dstLoc ≠ ⟨t, s⟩ := by
  intro e
  have hle := h.owners_le_one (l := j.dstLoc) (h.job_tier j hj)
  have h1 := reserved_pos hj
  have h2 := free_pos hs
  rw [← e] at h2
  omega

/-! ## Addresses -/

/-- The byte size of no tier wraps. -/
def NoWrap (p : BlockPool) : Prop :=
  ∀ t < p.numTiers, (p.tiers t).numBlocks * p.blockBytes < 2 ^ 64

theorem NoWrap.of_shape (hw : p.NoWrap) (hs : SameShape p p') : p'.NoWrap := by
  intro t ht
  rw [hs.numTiers] at ht
  rw [hs.tierBlocks, hs.blockBytes]
  exact hw t ht

theorem NoWrap.slotAddr (hw : p.NoWrap) {l : Location} (ht : l.tier < p.numTiers)
    (hs : l.slot < (p.tiers l.tier).numBlocks) :
    p.slotAddr l = (l.tier, l.slot * p.blockBytes) := by
  unfold BlockPool.slotAddr sizeMul
  rw [Nat.mod_eq_of_lt]
  exact Nat.lt_of_le_of_lt (Nat.mul_le_mul_right _ (Nat.le_of_lt hs)) (hw _ ht)

/-- Byte `i` of the slot at `l`. -/
def byteAt (p : BlockPool) (l : Location) (i : Nat) : UInt8 :=
  p.mem l.tier (l.slot * p.blockBytes + i)

/-- Address of an allocated block. -/
theorem Inv.block_addr (h : p.Inv) (hw : p.NoWrap) (hr : p.refcount id ≠ 0) :
    p.slotAddr (p.location id) = ((p.location id).tier, (p.location id).slot * p.blockBytes) := by
  have hpos := h.resident_pos hr
  exact hw.slotAddr (h.loc_tier id hr) (h.slot_lt (h.loc_tier id hr) (by omega))

/-- Address of a reserved slot. -/
theorem Inv.dst_addr (h : p.Inv) (hw : p.NoWrap) {j : MigrationJob} (hj : j ∈ p.jobs) :
    j.dst = (j.dstLoc.tier, j.dstLoc.slot * p.blockBytes) ∧ j.bytes = p.blockBytes := by
  have hpos := reserved_pos hj
  obtain ⟨hd, hb⟩ := h.job_dst j hj
  have ht : j.dstLoc.tier < p.numTiers := h.job_tier j hj
  exact ⟨hd.trans (hw.slotAddr ht (h.slot_lt ht (by omega))), hb⟩

/-- The invariant is about no byte. -/
theorem Inv.setMem (h : p.Inv) (m : Arena.Mem TierIndex UInt8) : Inv { p with mem := m } :=
  h.of_same_jobs ⟨rfl, rfl, rfl, fun _ => rfl, fun _ => rfl⟩ rfl rfl rfl (fun _ _ => rfl)
    (fun _ => rfl) h.refcount_lt h.loc_tier fun j hj => ⟨(h.flight j hj).1, rfl⟩

/-- Both copy paths of a synchronous move are the same copy. -/
theorem copySlot_eq (p : BlockPool) (dst src : Location) :
    p.copySlot dst src = Arena.memcpy p.mem (p.slotAddr dst) (p.slotAddr src) p.blockBytes := by
  unfold copySlot
  split
  · rfl
  · exact Arena.write_read _ _ _ _

/-! ## Owners -/

/-- A pool and the last bytes each owner wrote since the block's allocation. -/
structure OwnedPool where
  pool : BlockPool
  wrote : BlockId → Nat → Option UInt8

/-- A pool step, or a write of `bs` at offset `off` of block `id` by its owner. -/
inductive OwnedOp where
  | pool (op : PoolOp)
  | write (id : BlockId) (off : Nat) (bs : List UInt8)
  deriving DecidableEq, Repr

/-- What the owner of `id` last wrote, after a write of `bs` at `off`. -/
def wroteAfter (wrote : BlockId → Nat → Option UInt8) (id : BlockId) (off : Nat)
    (bs : List UInt8) : BlockId → Nat → Option UInt8 :=
  Function.update wrote id fun i =>
    if off ≤ i then (bs[i - off]?).or (wrote id i) else wrote id i

/-- One step.  A block's record is emptied when the block is handed out; an owner writes inside
its block, and not while the block is migrating. -/
def OwnedPool.next (o : OwnedPool) : OwnedOp → Option OwnedPool
  | .pool .allocate => do
    let r ← o.pool.allocate.toOption
    return ⟨r.2, Function.update o.wrote r.1 fun _ => none⟩
  | .pool op => do
    let p ← o.pool.next op
    return ⟨p, o.wrote⟩
  | .write id off bs => do
    let loc ← (o.pool.locate id).toOption
    if !o.pool.migrating id && off + bs.length ≤ o.pool.blockBytes then
      let addr := o.pool.slotAddr loc
      return ⟨{ o.pool with mem := Arena.write o.pool.mem (addr.1, addr.2 + off) bs },
        wroteAfter o.wrote id off bs⟩
    else none

def OwnedPool.Step (o : OwnedPool) (op : OwnedOp) (o' : OwnedPool) : Prop := o.next op = some o'

/-- The byte invariant. -/
structure BytesInv (o : OwnedPool) : Prop where
  inv : o.pool.Inv
  queue : o.pool.QueueInv
  noWrap : o.pool.NoWrap
  last : ∀ id, o.pool.refcount id ≠ 0 → ∀ i < o.pool.blockBytes, ∀ b, o.wrote id i = some b →
    o.pool.byteAt (o.pool.location id) i = b
  copied : ∀ j ∈ o.pool.flights, (j.done = true ∨ ∃ w, o.pool.workers w = .finishing j.ptr) →
    ∀ i < o.pool.blockBytes, o.pool.byteAt j.dstLoc i = o.pool.byteAt (o.pool.location j.id) i

/-! ## Steps that write no bytes -/

/-- Bookkeeping that leaves the bytes, the locations of the remaining allocated blocks and the
flights that remain alone. -/
theorem BytesInv.of_books {o o' : OwnedPool} (h : BytesInv o) (hi : o'.pool.Inv)
    (hq : o'.pool.QueueInv) (hs : SameShape o.pool o'.pool) (hm : o'.pool.mem = o.pool.mem)
    (hlast : ∀ id, o'.pool.refcount id ≠ 0 → ∀ i b, o'.wrote id i = some b →
      o.pool.refcount id ≠ 0 ∧ o'.pool.location id = o.pool.location id ∧ o.wrote id i = some b)
    (hfl : ∀ j ∈ o'.pool.flights, (j.done = true ∨ ∃ w, o'.pool.workers w = .finishing j.ptr) →
      o'.pool.location j.id = o.pool.location j.id ∧
      ∃ k ∈ o.pool.flights, k.id = j.id ∧ k.dstLoc = j.dstLoc ∧
        (k.done = true ∨ ∃ w, o.pool.workers w = .finishing k.ptr)) : BytesInv o' := by
  have hb : ∀ l i, o'.pool.byteAt l i = o.pool.byteAt l i := by
    intro l i
    unfold byteAt
    rw [hm, hs.blockBytes]
  refine ⟨hi, hq, h.noWrap.of_shape hs, ?_, ?_⟩
  · intro id hr i hi b hw
    obtain ⟨hr', hl, hw'⟩ := hlast id hr i b hw
    rw [hb, hl]
    exact h.last id hr' i (hs.blockBytes ▸ hi) b hw'
  · intro j hj hd i hi
    obtain ⟨hl, k, hk, hki, hkd, hkc⟩ := hfl j hj hd
    rw [hb, hb, hl, ← hki, ← hkd]
    exact h.copied k hk hkc i (hs.blockBytes ▸ hi)

/-- A settlement rebinds the block to the slot its bytes were copied to. -/
theorem BytesInv.settleFront {o : OwnedPool} (h : BytesInv o) {j : MigrationJob}
    {js : List MigrationJob} (hj : o.pool.jobs = j :: js) (hd : j.done = true) :
    BytesInv ⟨o.pool.settleFront j js, o.wrote⟩ := by
  have hi := h.inv.settleFront hj
  have hq := h.queue.settleFront hj hd
  have hs := SameShape.settleFront o.pool j js
  obtain ⟨hjs, _, hwk⟩ := settleFront_queue o.pool j js
  have hfl := flights_cons hj
  have hfl' := settleFront_flights o.pool j js
  have hmem : (o.pool.settleFront j js).mem = o.pool.mem := by
    unfold BlockPool.settleFront applyFinished
    split <;> rfl
  have hrc : (o.pool.settleFront j js).refcount = o.pool.refcount := by
    unfold BlockPool.settleFront applyFinished
    split <;> rfl
  cases hc : j.cancelled with
  | true =>
    rw [hc, if_pos rfl] at hfl
    have hloc : (o.pool.settleFront j js).location = o.pool.location := by
      simp only [BlockPool.settleFront, applyFinished, hc, if_true]
      rfl
    refine h.of_books hi hq hs hmem ?_ ?_
    · intro id hr i b hw
      rw [hrc] at hr
      exact ⟨hr, by rw [hloc], hw⟩
    · intro k hk hkc
      rw [hwk] at hkc
      rw [hfl', ← hfl] at hk
      exact ⟨by rw [hloc], k, hk, rfl, rfl, hkc⟩
  | false =>
    rw [hc, if_neg (by simp)] at hfl
    have hjf : j ∈ o.pool.flights := by rw [hfl]; exact List.mem_cons_self
    have hloc : (o.pool.settleFront j js).location =
        Function.update o.pool.location j.id j.dstLoc := by
      simp only [BlockPool.settleFront, applyFinished, hc, Bool.false_eq_true, if_false]
      rfl
    have hids := h.inv.flight_ids
    rw [hfl, List.map_cons, List.nodup_cons] at hids
    have hb : ∀ l i, (o.pool.settleFront j js).byteAt l i = o.pool.byteAt l i := by
      intro l i
      unfold byteAt
      rw [hmem, hs.blockBytes]
    refine ⟨hi, hq, h.noWrap.of_shape hs, ?_, ?_⟩
    · intro id hr i hib b hw
      simp only at hr hib hw ⊢
      rw [hrc] at hr
      rw [hs.blockBytes] at hib
      rw [hb, hloc]
      by_cases e : id = j.id
      · subst e
        rw [Function.update_self, h.copied j hjf (Or.inl hd) i hib]
        exact h.last j.id hr i hib b hw
      · rw [Function.update_of_ne e]
        exact h.last id hr i hib b hw
    · intro k hk hkc i hib
      simp only at hk hkc hib ⊢
      rw [hs.blockBytes] at hib
      rw [hwk] at hkc
      rw [hfl'] at hk
      have hne : k.id ≠ j.id := fun e => hids.1 (List.mem_map.mpr ⟨k, hk, e⟩)
      have hkf : k ∈ o.pool.flights := by rw [hfl]; exact List.mem_cons_of_mem _ hk
      rw [hb, hb, hloc, Function.update_of_ne hne]
      exact h.copied k hkf hkc i hib

theorem BytesInv.drainMigrations {o : OwnedPool} (h : BytesInv o) :
    BytesInv ⟨o.pool.drainMigrations, o.wrote⟩ :=
  drain_induction (motive := fun q => BytesInv ⟨q, o.wrote⟩)
    (fun _ _ _ hp hj hd => BytesInv.settleFront hp hj hd) o.pool h

/-! ## Steps that write bytes -/

/-- A write into the slot at `l` is harmless when no allocated block is there and no flight whose
copy is complete is bound for it. -/
theorem BytesInv.of_write {o : OwnedPool} (h : BytesInv o) {p' : BlockPool} {l : Location}
    (hi : p'.Inv) (hq : p'.QueueInv) (hs : SameShape o.pool p')
    (hbyte : ∀ k i, k ≠ l → i < o.pool.blockBytes → p'.byteAt k i = o.pool.byteAt k i)
    (hr : p'.refcount = o.pool.refcount) (hloc : p'.location = o.pool.location)
    (hfree : ∀ id, o.pool.refcount id ≠ 0 → o.pool.location id ≠ l)
    (hfl : p'.flights = o.pool.flights)
    (hcopied : ∀ j ∈ o.pool.flights, (j.done = true ∨ ∃ w, p'.workers w = .finishing j.ptr) →
      (j.dstLoc ≠ l ∧ (j.done = true ∨ ∃ w, o.pool.workers w = .finishing j.ptr)) ∨
      ∀ i < o.pool.blockBytes, p'.byteAt j.dstLoc i = o.pool.byteAt (o.pool.location j.id) i) :
    BytesInv ⟨p', o.wrote⟩ := by
  refine ⟨hi, hq, h.noWrap.of_shape hs, ?_, ?_⟩
  · intro id hid i hib b hw
    simp only at hid hib hw ⊢
    rw [hr] at hid
    rw [hs.blockBytes] at hib
    rw [hloc, hbyte _ i (hfree id hid) hib]
    exact h.last id hid i hib b hw
  · intro j hj hd i hib
    simp only at hj hd hib ⊢
    rw [hs.blockBytes] at hib
    rw [hfl] at hj
    have hsrc := hfree j.id (h.inv.flight j hj).1
    rw [hloc, hbyte _ i hsrc hib]
    rcases hcopied j hj hd with ⟨hne, hc⟩ | hc
    · rw [hbyte _ i hne hib]
      exact h.copied j hj hc i hib
    · exact hc i hib

/-- A copy, also of a cancelled job, lands in the slot its job reserved. -/
theorem BytesInv.copy {o : OwnedPool} (h : BytesInv o) {ptr : JobPtr} {j : MigrationJob}
    (hw : o.pool.workers w = .copying ptr) (hj : o.pool.job? ptr = some j)
    (he : o.pool.workerStep w .copy = some p')
    (hp' : p' = { o.pool with
      workers := Function.update o.pool.workers w (.finishing ptr)
      mem := Arena.memcpy o.pool.mem j.dst j.src j.bytes }) : BytesInv ⟨p', o.wrote⟩ := by
  obtain ⟨hjm, hjp⟩ := h.inv.job?_eq_some.mp hj
  obtain ⟨hdst, hbytes⟩ := h.inv.dst_addr h.noWrap hjm
  have hi := h.inv.workerStep he
  have hq := h.queue.workerStep h.inv he
  have hb := SameBooks.workerStep he
  subst hp'
  refine h.of_write (l := j.dstLoc) hi hq hb.shape ?_ rfl rfl ?_ rfl ?_
  · intro k i hk hib
    unfold byteAt
    simp only
    rw [hdst, hbytes]
    refine Arena.memcpy_slot_of_ne _ _ ?_ hib
    intro e
    simp only [Prod.mk.injEq] at e
    exact hk (by cases k; cases hjl : j.dstLoc; simp_all)
  · intro id hid
    exact h.inv.location_ne_dst hid hjm
  · intro k hk hkd
    by_cases e : k = j
    · subst e
      right
      intro i hib
      obtain ⟨hkr, hsrc, _⟩ := h.inv.flight k hk
      unfold byteAt
      simp only
      rw [hdst, hbytes, hsrc, h.inv.block_addr h.noWrap hkr]
      exact Arena.memcpy_slot_self _ _ _ _ _ hib
    · left
      have hkm := (mem_flights.mp hk).1
      refine ⟨fun e' => e (h.inv.dst_inj hkm hjm e'), ?_⟩
      rcases hkd with hkd | ⟨v, hv⟩
      · exact Or.inl hkd
      · right
        simp only at hv
        by_cases ev : v = w
        · subst ev
          rw [Function.update_self] at hv
          cases hv
          exact absurd (h.inv.job_inj hkm hjm hjp.symm) e
        · rw [Function.update_of_ne ev] at hv
          exact ⟨v, hv⟩

/-- A torn copy lands in the slot its cancelled job reserved. -/
theorem BytesInv.tear {o : OwnedPool} (h : BytesInv o) {ptr : JobPtr} {j : MigrationJob}
    {bs : List UInt8} (hj : o.pool.job? ptr = some j) (hlen : bs.length = j.bytes)
    (hc : j.cancelled = true) (he : o.pool.workerStep w (.tear bs) = some p')
    (hp' : p' = { o.pool with mem := Arena.write o.pool.mem j.dst bs }) :
    BytesInv ⟨p', o.wrote⟩ := by
  obtain ⟨hjm, hjp⟩ := h.inv.job?_eq_some.mp hj
  obtain ⟨hdst, hbytes⟩ := h.inv.dst_addr h.noWrap hjm
  have hi := h.inv.workerStep he
  have hq := h.queue.workerStep h.inv he
  have hb := SameBooks.workerStep he
  subst hp'
  refine h.of_write (l := j.dstLoc) hi hq hb.shape ?_ rfl rfl ?_ rfl ?_
  · intro k i hk hib
    unfold byteAt
    simp only
    rw [hdst]
    have hz : (j.dstLoc.tier, j.dstLoc.slot * o.pool.blockBytes) =
      (j.dstLoc.tier, j.dstLoc.slot * o.pool.blockBytes + 0) := rfl
    rw [hz]
    refine Arena.write_slot_of_ne _ ?_ hib (by omega)
    intro e
    simp only [Prod.mk.injEq] at e
    exact hk (by cases k; cases hjl : j.dstLoc; simp_all)
  · intro id hid
    exact h.inv.location_ne_dst hid hjm
  · intro k hk hkd
    left
    obtain ⟨hkm, hkc⟩ := mem_flights.mp hk
    refine ⟨fun e => ?_, hkd⟩
    rw [h.inv.dst_inj hkm hjm e, hc] at hkc
    cases hkc

/-- **Every worker action keeps the byte invariant.** -/
theorem BytesInv.workerStep {o : OwnedPool} (h : BytesInv o) {act : WorkerAct}
    (he : o.pool.workerStep w act = some p') : BytesInv ⟨p', o.wrote⟩ := by
  have hi := h.inv.workerStep he
  have hq := h.queue.workerStep h.inv he
  have hb := SameBooks.workerStep he
  have hlast : ∀ id, p'.refcount id ≠ 0 → ∀ i b, o.wrote id i = some b →
      o.pool.refcount id ≠ 0 ∧ p'.location id = o.pool.location id ∧ o.wrote id i = some b := by
    intro id hr i b hw
    rw [hb.refcount] at hr
    exact ⟨hr, by rw [hb.location], hw⟩
  obtain ⟨j, rfl, hw, hj, hp'⟩ | ⟨ptr, j, rfl, hw, hj, hp'⟩ | ⟨ptr, j, rfl, hw, hj, hp'⟩ |
    ⟨bs, ptr, j, rfl, hw, hj, hc, hlen, hp'⟩ | ⟨ptr, j, rfl, hw, hj, hp'⟩ := workerStep_cases he
  · -- claim: no worker becomes or stops being about to finish
    refine h.of_books hi hq hb.shape (by rw [hp']) hlast ?_
    intro k hk hkd
    subst hp'
    refine ⟨rfl, k, hk, rfl, rfl, hkd.imp_right ?_⟩
    rintro ⟨v, hv⟩
    simp only at hv
    by_cases e : v = w
    · subst e
      rw [Function.update_self] at hv
      cases hv
    · rw [Function.update_of_ne e] at hv
      exact ⟨v, hv⟩
  · -- check: a worker skips to its end only for a cancelled job, which is no flight
    refine h.of_books hi hq hb.shape (by rw [hp']) hlast ?_
    intro k hk hkd
    subst hp'
    refine ⟨rfl, k, hk, rfl, rfl, hkd.imp_right ?_⟩
    rintro ⟨v, hv⟩
    simp only at hv
    by_cases e : v = w
    · subst e
      rw [Function.update_self] at hv
      obtain ⟨hkm, hkc⟩ := mem_flights.mp hk
      obtain ⟨hjm, hjp⟩ := h.inv.job?_eq_some.mp hj
      split at hv
      · rename_i hc
        cases hv
        rw [h.inv.job_inj hkm hjm hjp.symm, hc] at hkc
        cases hkc
      · cases hv
    · rw [Function.update_of_ne e] at hv
      exact ⟨v, hv⟩
  · exact h.copy hw hj he hp'
  · exact h.tear hj hlen hc he hp'
  · -- finish: the job's copy was complete when its worker was about to finish
    refine h.of_books hi hq hb.shape (by rw [hp']) hlast ?_
    intro k hk hkd
    subst hp'
    simp only [flights, List.mem_filter, List.mem_map] at hk
    obtain ⟨⟨k₀, hk₀, rfl⟩, hkc⟩ := hk
    refine ⟨rfl, k₀, ?_, ?_, ?_, ?_⟩
    · refine mem_flights.mpr ⟨hk₀, ?_⟩
      split at hkc <;> simpa using hkc
    · split <;> rfl
    · split <;> rfl
    · by_cases e : k₀.ptr = ptr
      · exact Or.inr ⟨w, e ▸ hw⟩
      · rw [if_neg e] at hkd
        refine hkd.imp_right ?_
        rintro ⟨v, hv⟩
        simp only at hv
        by_cases ev : v = w
        · subst ev
          rw [Function.update_self] at hv
          cases hv
        · rw [Function.update_of_ne ev] at hv
          exact ⟨v, hv⟩

/-! ## Scheduler calls -/

/-- Cancelling only removes flights. -/
theorem BytesInv.cancelMigration {o : OwnedPool} (h : BytesInv o) (id : BlockId) :
    BytesInv ⟨o.pool.cancelMigration id, o.wrote⟩ := by
  have hmem : (o.pool.cancelMigration id).mem = o.pool.mem := by rw [h.inv.cancel_eq]
  have hwk : (o.pool.cancelMigration id).workers = o.pool.workers := by rw [h.inv.cancel_eq]
  refine h.of_books (h.inv.cancelMigration id) (h.queue.cancelMigration id)
    (SameShape.cancelMigration _ id) hmem ?_ ?_
  · intro x hr i b hw
    simp only [cancel_refcount] at hr
    exact ⟨hr, by simp only [cancel_location], hw⟩
  · intro j hj hd
    simp only [hwk] at hd
    exact ⟨by simp only [cancel_location], j, (h.inv.cancel_no_flight hj).1, rfl, rfl, hd⟩

/-- A dying block's slot is free again; what is left there is nobody's. -/
theorem BytesInv.releaseBlock {o : OwnedPool} (h : BytesInv o) (hr : o.pool.refcount id ≠ 0) :
    BytesInv ⟨o.pool.releaseBlock id, o.wrote⟩ := by
  have hc := h.cancelMigration id
  refine hc.of_books (h.inv.releaseBlock hr)
    ((h.queue.cancelMigration id).of_same rfl rfl rfl) (SameShape.freeBlock _ id) rfl ?_ ?_
  · intro x hx i b hw
    refine ⟨fun e => hx ?_, rfl, hw⟩
    simp only [BlockPool.releaseBlock, BlockPool.freeBlock] at e ⊢
    by_cases hxe : x = id
    · rw [hxe, Function.update_self]
    · rw [Function.update_of_ne hxe]
      exact e
  · intro j hj hd
    exact ⟨rfl, j, hj, rfl, rfl, hd⟩

/-- A queued migration starts with its copy still to come. -/
theorem BytesInv.enqueue {o : OwnedPool} (h : BytesInv o) {dst : Location}
    (hi : (o.pool.enqueue id dst (o.pool.location id)).Inv) :
    BytesInv ⟨o.pool.enqueue id dst (o.pool.location id), o.wrote⟩ := by
  refine h.of_books hi (h.queue.enqueue h.inv _ _) (SameShape.enqueue _ _ _ _) rfl
    (fun x hr i b hw => ⟨hr, rfl, hw⟩) ?_
  intro j hj hd
  obtain ⟨hjm, hjc⟩ := mem_flights.mp hj
  rcases List.mem_append.mp hjm with hjm | hjm
  · exact ⟨rfl, j, mem_flights.mpr ⟨hjm, hjc⟩, rfl, rfl, hd⟩
  · simp only [List.mem_singleton] at hjm
    subst hjm
    rcases hd with hd | ⟨w, hw⟩
    · cases hd
    · have hh : o.pool.holds w = some o.pool.nextJob := by
        unfold holds
        have : o.pool.workers w = .finishing o.pool.nextJob := hw
        rw [this]
        rfl
      exact absurd (h.queue.held_lt h.inv hh) (Nat.lt_irrefl _)

/-- A synchronous move copies the block into a free slot and rebinds it. -/
theorem BytesInv.moveBlock {o : OwnedPool} (h : BytesInv o) {dst : TierIndex} {slot : Nat}
    {slots : List Nat} (hr : o.pool.refcount id ≠ 0) (hno : ∀ j ∈ o.pool.flights, j.id ≠ id)
    (ht : dst < o.pool.numTiers) (hsl : (o.pool.tiers dst).freeSlots = slot :: slots) :
    BytesInv ⟨o.pool.moveBlock id ⟨dst, slot⟩ (o.pool.location id), o.wrote⟩ := by
  have hi := h.inv.moveBlock hr hno ht hsl
  have hs := SameShape.moveBlock o.pool id ⟨dst, slot⟩ (o.pool.location id)
  have hmemf : slot ∈ (o.pool.tiers dst).freeSlots := by rw [hsl]; exact List.mem_cons_self
  have hfp := free_pos hmemf
  have hdst : o.pool.slotAddr ⟨dst, slot⟩ = (dst, slot * o.pool.blockBytes) :=
    h.noWrap.slotAddr (l := ⟨dst, slot⟩) ht (h.inv.slot_lt (l := ⟨dst, slot⟩) ht (by omega))
  have hsrc := h.inv.block_addr h.noWrap hr
  have hmem : (o.pool.moveBlock id ⟨dst, slot⟩ (o.pool.location id)).mem =
      Arena.memcpy o.pool.mem (dst, slot * o.pool.blockBytes)
        ((o.pool.location id).tier, (o.pool.location id).slot * o.pool.blockBytes)
        o.pool.blockBytes := by
    rw [← hdst, ← hsrc]
    exact copySlot_eq _ _ _
  have hbyte : ∀ k i, k ≠ (⟨dst, slot⟩ : Location) → i < o.pool.blockBytes →
      (o.pool.moveBlock id ⟨dst, slot⟩ (o.pool.location id)).byteAt k i = o.pool.byteAt k i := by
    intro k i hk hib
    unfold byteAt
    rw [hmem, hs.blockBytes]
    refine Arena.memcpy_slot_of_ne _ _ ?_ hib
    intro e
    simp only [Prod.mk.injEq] at e
    exact hk (by cases k; simp_all)
  refine ⟨hi, h.queue.of_same rfl rfl rfl, h.noWrap.of_shape hs, ?_, ?_⟩
  · intro x hx i hib b hw
    have hxr : o.pool.refcount x ≠ 0 := hx
    have hib' : i < o.pool.blockBytes := hib
    by_cases e : x = id
    · subst e
      have hl : (o.pool.moveBlock x ⟨dst, slot⟩ (o.pool.location x)).location x = ⟨dst, slot⟩ :=
        Function.update_self _ _ _
      simp only
      rw [hl]
      refine Eq.trans ?_ (h.last x hxr i hib' b hw)
      unfold byteAt
      rw [hmem, hs.blockBytes]
      exact Arena.memcpy_slot_self _ _ _ _ _ hib'
    · have hl : (o.pool.moveBlock id ⟨dst, slot⟩ (o.pool.location id)).location x =
          o.pool.location x := Function.update_of_ne e _ _
      simp only
      rw [hl, hbyte _ i (h.inv.location_ne_free hxr hmemf) hib']
      exact h.last x hxr i hib' b hw
  · intro j hj hd i hib
    have hjf : j ∈ o.pool.flights := hj
    have hib' : i < o.pool.blockBytes := hib
    have hl : (o.pool.moveBlock id ⟨dst, slot⟩ (o.pool.location id)).location j.id =
        o.pool.location j.id := Function.update_of_ne (hno j hjf) _ _
    simp only
    rw [hl, hbyte _ i (h.inv.dst_ne_free (mem_flights.mp hjf).1 hmemf) hib',
      hbyte _ i (h.inv.location_ne_free (h.inv.flight j hjf).1 hmemf) hib']
    exact h.copied j hjf hd i hib'

/-- An owner's write lands in its own slot. -/
theorem BytesInv.ownerWrite {o : OwnedPool} (h : BytesInv o) {off : Nat} {bs : List UInt8}
    (hr : o.pool.refcount id ≠ 0) (hm : o.pool.migrating id = false)
    (hlen : off + bs.length ≤ o.pool.blockBytes) :
    BytesInv ⟨{ o.pool with
        mem := Arena.write o.pool.mem ((o.pool.slotAddr (o.pool.location id)).1,
          (o.pool.slotAddr (o.pool.location id)).2 + off) bs },
      wroteAfter o.wrote id off bs⟩ := by
  have hno : ∀ j ∈ o.pool.flights, j.id ≠ id := by
    intro j hj e
    rw [h.inv.migrating_iff.mpr ⟨j, hj, e⟩] at hm
    cases hm
  rw [h.inv.block_addr h.noWrap hr]
  have hs : SameShape o.pool { o.pool with
      mem := Arena.write o.pool.mem ((o.pool.location id).tier,
        (o.pool.location id).slot * o.pool.blockBytes + off) bs } :=
    ⟨rfl, rfl, rfl, fun _ => rfl, fun _ => rfl⟩
  have hbyte : ∀ k i, k ≠ o.pool.location id → i < o.pool.blockBytes →
      byteAt { o.pool with
        mem := Arena.write o.pool.mem ((o.pool.location id).tier,
          (o.pool.location id).slot * o.pool.blockBytes + off) bs } k i = o.pool.byteAt k i := by
    intro k i hk hib
    refine Arena.write_slot_of_ne _ ?_ hib hlen
    intro e
    simp only [Prod.mk.injEq] at e
    exact hk (by cases k; cases hl : o.pool.location id; simp_all)
  refine ⟨h.inv.setMem _, h.queue.of_same rfl rfl rfl, h.noWrap.of_shape hs, ?_, ?_⟩
  · intro x hx i hib b hw
    have hxr : o.pool.refcount x ≠ 0 := hx
    have hib' : i < o.pool.blockBytes := hib
    simp only
    by_cases e : x = id
    · subst e
      simp only [wroteAfter, Function.update_self] at hw
      have hself := Arena.write_slot_self (n := o.pool.blockBytes) (i := i) (k := off)
        o.pool.mem (o.pool.location x).tier (o.pool.location x).slot bs
      have hold : o.wrote x i = some b →
          o.pool.mem (o.pool.location x).tier
            ((o.pool.location x).slot * o.pool.blockBytes + i) = b := h.last x hxr i hib' b
      refine Eq.trans hself ?_
      split at hw
      · rename_i hk
        rw [if_pos hk]
        cases hg : bs[i - off]? with
        | none =>
          rw [hg, Option.none_or] at hw
          simpa using hold hw
        | some c =>
          rw [hg, Option.some_or] at hw
          simpa using hw
      · rename_i hk
        rw [if_neg hk]
        exact hold hw
    · simp only [wroteAfter, Function.update_of_ne e] at hw
      rw [hbyte _ i (fun e' => e (h.inv.location_inj hxr hr e')) hib']
      exact h.last x hxr i hib' b hw
  · intro j hj hd i hib
    have hjf : j ∈ o.pool.flights := hj
    have hib' : i < o.pool.blockBytes := hib
    have hjr := (h.inv.flight j hjf).1
    simp only
    rw [hbyte _ i (fun e => h.inv.location_ne_dst hr (mem_flights.mp hjf).1 e.symm) hib',
      hbyte _ i (fun e => hno j hjf (h.inv.location_inj hjr hr e)) hib']
    exact h.copied j hjf hd i hib'

/-- A block that is handed out has no record. -/
theorem BytesInv.allocate {o : OwnedPool} (h : BytesInv o) {id : BlockId} {p' : BlockPool}
    (ha : o.pool.allocate = .ok (id, p')) :
    BytesInv ⟨p', Function.update o.wrote id fun _ => none⟩ := by
  have hi := h.inv.allocate ha
  rcases h.inv.allocate_cases with ⟨he', _⟩ | ⟨x, ids, slot, slots, hx, hsl, hr, _, he'⟩
  · rw [ha] at he'
    cases he'
    refine h.of_books hi h.queue (SameShape.refl _) rfl ?_ fun j hj hd => ⟨rfl, j, hj, rfl, rfl, hd⟩
    intro x hx i b hw
    refine ⟨hx, rfl, ?_⟩
    by_cases e : x = kInvalidBlock
    · simp [e] at hw
    · simpa [Function.update_of_ne e] using hw
  · rw [ha] at he'
    cases he'
    refine h.of_books hi (h.queue.of_same rfl rfl rfl) (SameShape.takeBlock _ _ _) rfl ?_ ?_
    · intro y hy i b hw
      by_cases e : y = id
      · simp [e] at hw
      · simp only [BlockPool.takeBlock, Function.update_of_ne e] at hy hw ⊢
        exact ⟨hy, trivial, hw⟩
    · intro j hj hd
      have hne := h.inv.flight_ne hr hj
      exact ⟨Function.update_of_ne hne _ _, j, hj, rfl, rfl, hd⟩

/-- A count of references that stays above zero. -/
theorem BytesInv.setRefcount {o : OwnedPool} (h : BytesInv o) {id : BlockId} {n : Nat}
    (hr : o.pool.refcount id ≠ 0)
    (hi : { o.pool with refcount := Function.update o.pool.refcount id n }.Inv)
    (hq : { o.pool with refcount := Function.update o.pool.refcount id n }.QueueInv) :
    BytesInv ⟨{ o.pool with refcount := Function.update o.pool.refcount id n }, o.wrote⟩ := by
  refine h.of_books hi hq ⟨rfl, rfl, rfl, fun _ => rfl, fun _ => rfl⟩ rfl ?_
    fun j hj hd => ⟨rfl, j, hj, rfl, rfl, hd⟩
  intro x hx i b hw
  refine ⟨?_, rfl, hw⟩
  by_cases e : x = id
  · rw [e]; exact hr
  · simpa [Function.update_of_ne e] using hx

/-- **Every step keeps the byte invariant.** -/
theorem BytesInv.next {o o' : OwnedPool} {op : OwnedOp} (h : BytesInv o)
    (he : o.next op = some o') : BytesInv o' := by
  cases op with
  | write id off bs =>
    simp only [OwnedPool.next] at he
    obtain ⟨loc, hl, he⟩ := Option.bind_eq_some_iff.mp he
    obtain ⟨_, hr, rfl⟩ := locate_ok (toOption_eq_some hl)
    split at he
    · rename_i hc
      cases he
      simp only [Bool.and_eq_true, Bool.not_eq_true', decide_eq_true_eq] at hc
      exact h.ownerWrite hr hc.1 hc.2
    · cases he
  | pool op =>
    cases op with
    | allocate =>
      simp only [OwnedPool.next] at he
      obtain ⟨⟨id, p'⟩, ha, he⟩ := Option.bind_eq_some_iff.mp he
      cases he
      exact h.allocate (toOption_eq_some ha)
    | incref id =>
      obtain ⟨p', hs, he⟩ := Option.bind_eq_some_iff.mp he
      cases he
      have hs' : o.pool.next (.incref id) = some p' := hs
      have hi := h.inv.next hs'
      have hq := h.queue.next h.inv hs'
      simp only [BlockPool.next] at hs
      split at hs
      · obtain ⟨_, hr, rfl⟩ := incref_ok (toOption_eq_some hs)
        exact h.setRefcount hr hi hq
      · cases hs
    | decref id =>
      obtain ⟨p', hs, he⟩ := Option.bind_eq_some_iff.mp he
      cases he
      have hs' : o.pool.next (.decref id) = some p' := hs
      have hi := h.inv.next hs'
      have hq := h.queue.next h.inv hs'
      obtain ⟨b, hs⟩ := toOption_snd hs
      obtain ⟨_, ⟨h1, _, rfl⟩ | ⟨h1, _, rfl⟩⟩ := decref_ok hs
      · exact h.releaseBlock (by omega)
      · exact h.setRefcount (by omega) hi hq
    | migrate id dst =>
      obtain ⟨p', hs, he⟩ := Option.bind_eq_some_iff.mp he
      cases he
      obtain ⟨b, hs⟩ := toOption_snd hs
      obtain ⟨hr, ht, ⟨_, _, rfl⟩ | ⟨_, _, _, rfl⟩ | ⟨_, _, slot, slots, hf, rfl⟩⟩ := migrate_cases hs
      · exact h.cancelMigration id
      · exact h.cancelMigration id
      · have hno : ∀ j ∈ (o.pool.cancelMigration id).flights, j.id ≠ id := fun j hj =>
          (h.inv.cancel_no_flight hj).2
        have hm := (h.cancelMigration id).moveBlock (by simpa using hr) hno (by simpa using ht)
          (by simpa using hf)
        simpa using hm
    | migrateAsync id dst =>
      obtain ⟨p', hs, he⟩ := Option.bind_eq_some_iff.mp he
      cases he
      obtain ⟨b, hs⟩ := toOption_snd hs
      obtain ⟨hr, ht, ⟨_, rfl, _⟩ | ⟨_, hne, hm, slot, slots, hf, rfl⟩⟩ := migrateAsync_cases hs
      · exact h
      · exact h.enqueue (h.inv.enqueue hr ht hne hm hf)
    | cancelMigration id =>
      cases he
      exact h.cancelMigration id
    | drainMigrations =>
      cases he
      exact h.drainMigrations
    | waitForMigrations =>
      obtain ⟨p', hs, he⟩ := Option.bind_eq_some_iff.mp he
      cases he
      rw [(waitForMigrations_ok hs).2]
      exact h.drainMigrations
    | worker w act =>
      obtain ⟨p', hs, he⟩ := Option.bind_eq_some_iff.mp he
      cases he
      exact h.workerStep hs

theorem init_noWrap {cfg : CacheConfig} {specs : List TierSpec} {mem : Arena.Mem TierIndex UInt8}
    (h : init cfg specs mem = .ok p)
    (hwrap : ∀ spec ∈ specs, spec.numBlocks * cfg.blockBytes < 2 ^ 64) : p.NoWrap := by
  intro t ht
  obtain ⟨spec, hs, hok⟩ := init_tier h ht
  obtain ⟨_, states, _, rfl⟩ := init_ok h
  rw [(initTier_ok hok).1]
  exact hwrap spec hs

/-- **Block bytes follow the id.**  In every run of scheduler calls, owner writes and worker
actions, each byte an owner wrote into its block since the block's allocation is at the block's
current tier and slot, whichever copies moved the block there. -/
theorem bytes_follow_id {cfg : CacheConfig} {specs : List TierSpec}
    {mem : Arena.Mem TierIndex UInt8} {p₀ : BlockPool} {o : OwnedPool} {tr : List OwnedOp}
    (h0 : init cfg specs mem = .ok p₀) (hfit : (specs.map (·.numBlocks)).sum < 2 ^ 32)
    (hwrap : ∀ spec ∈ specs, spec.numBlocks * cfg.blockBytes < 2 ^ 64)
    (hrun : Run OwnedPool.Step ⟨p₀, fun _ _ => none⟩ tr o) :
    ∀ id, o.pool.refcount id ≠ 0 → ∀ i < o.pool.blockBytes, ∀ b, o.wrote id i = some b →
      o.pool.byteAt (o.pool.location id) i = b := by
  have hinit : BytesInv ⟨p₀, fun _ _ => none⟩ := by
    refine ⟨init_inv h0 hfit, init_queueInv h0, init_noWrap h0 hwrap, ?_, ?_⟩
    · intro id _ i _ b hb
      cases hb
    · intro j hj
      obtain ⟨_, states, _, rfl⟩ := init_ok h0
      cases hj
  exact (hrun.invariant (fun _ _ _ hi hs => hi.next hs) hinit).last

/-- An owner writes two bytes, and a worker moves the block to the spill tier. -/
def demotionTrace : List OwnedOp :=
  [.pool .allocate, .write 0 2 [7, 9], .pool (.migrateAsync 0 1), .pool (.worker 0 .claim),
    .pool (.worker 0 .check), .pool (.worker 0 .copy), .pool (.worker 0 .finish),
    .pool .drainMigrations]

theorem bytes_follow_id_demotion : ∃ p₀ o, init smallConfig smallSpecs (fun _ _ => 0) = .ok p₀ ∧
    Run OwnedPool.Step ⟨p₀, fun _ _ => none⟩ demotionTrace o ∧
    o.pool.location 0 = ⟨1, 0⟩ ∧ o.pool.byteAt ⟨1, 0⟩ 3 = 9 := by
  have hs : ((init smallConfig smallSpecs (fun _ _ => 0)).toOption.bind fun p₀ =>
      (exec OwnedPool.next ⟨p₀, fun _ _ => none⟩ demotionTrace).map fun o =>
        (o.pool.refcount 0, o.pool.blockBytes, o.pool.location 0, o.wrote 0 3)) =
      some (1, 8, ⟨1, 0⟩, some 9) := by decide
  obtain ⟨p₀, h0, hp⟩ := Option.bind_eq_some_iff.mp hs
  obtain ⟨o, hx, he⟩ := Option.map_eq_some_iff.mp hp
  have hi := toOption_eq_some h0
  have hr : Run OwnedPool.Step ⟨p₀, fun _ _ => none⟩ demotionTrace o := run_of_exec hx
  simp only [Prod.mk.injEq] at he
  obtain ⟨h1, hb, hl, hw⟩ := he
  have hbyte := bytes_follow_id hi (by decide) (by decide) hr 0 (by omega) 3 (by omega) 9 hw
  exact ⟨p₀, o, hi, hr, hl, by rw [← hl]; exact hbyte⟩

end BlockPool

end KvsLab
