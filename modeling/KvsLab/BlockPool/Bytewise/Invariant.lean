import KvsLab.BlockPool.Bytewise

/-!
# The invariant of byte-wise copies

* `SourcesOK` — a queued job reads a slot of the pool, also after it was cancelled.
* `MoveOK` — a block that is being moved is at rest, and what was copied of it has arrived.
* `Sound` — the invariant of a pool in the middle of its copies; one lemma for each action, and
  `Sound.steps` — every step keeps it.
-/

namespace KvsLab

open Counting Transition

namespace BlockPool

variable {p p' : BlockPool} {id : BlockId} {w : WorkerId}

/-! ## The ends of queued jobs -/

/-- Every queued job reads a slot of the pool, also one that was cancelled, and the CPU can address
both ends. -/
def SourcesOK (p : BlockPool) : Prop :=
  ∀ j ∈ p.jobs, (p.tiers j.dstLoc.tier).hostAddressable = true ∧
    ∃ l : Location, l.tier < p.numTiers ∧ l.slot < (p.tiers l.tier).numBlocks ∧
      (p.tiers l.tier).hostAddressable = true ∧ j.src = p.slotAddr l

theorem SourcesOK.of_jobs (h : p.SourcesOK) (hs : SameShape p p')
    (hj : ∀ j ∈ p'.jobs, ∃ k ∈ p.jobs, j.src = k.src ∧ j.dstLoc = k.dstLoc) : p'.SourcesOK := by
  intro j hjm
  obtain ⟨k, hk, hse, hde⟩ := hj j hjm
  obtain ⟨hd, l, ht, hl, hh, hsrc⟩ := h k hk
  exact ⟨by rw [hde, hs.tierHost, hd], l, hs.numTiers ▸ ht, hs.tierBlocks _ ▸ hl,
    hs.tierHost _ ▸ hh, by rw [hs.slotAddr, hse, hsrc]⟩

theorem SourcesOK.cancelMigration (h : p.SourcesOK) (hi : p.Inv) (id : BlockId) :
    (p.cancelMigration id).SourcesOK := by
  refine h.of_jobs (SameShape.cancelMigration p id) fun j hj => ?_
  rw [hi.cancel_eq] at hj
  obtain ⟨k, hk, rfl⟩ := List.mem_map.mp hj
  refine ⟨k, hk, ?_⟩
  unfold cancelJob
  split <;> exact ⟨rfl, rfl⟩

theorem SourcesOK.enqueue (h : p.SourcesOK) (hi : p.Inv) (hr : p.refcount id ≠ 0) {dst : Location}
    (hsh : (p.tiers (p.location id).tier).hostAddressable = true)
    (hdh : (p.tiers dst.tier).hostAddressable = true) :
    (p.enqueue id dst (p.location id)).SourcesOK := by
  have hs := SameShape.enqueue p id dst (p.location id)
  intro j hj
  rw [hs.tierHost]
  rcases List.mem_append.mp hj with hj | hj
  · obtain ⟨hd, l, ht, hl, hh, hsrc⟩ := h j hj
    exact ⟨hd, l, hs.numTiers ▸ ht, hs.tierBlocks _ ▸ hl, hs.tierHost _ ▸ hh,
      by rw [hs.slotAddr, hsrc]⟩
  · cases List.mem_singleton.mp hj
    have hpos := hi.resident_pos hr
    have ht := hi.loc_tier id hr
    exact ⟨hdh, p.location id, hs.numTiers ▸ ht, hs.tierBlocks _ ▸ hi.slot_lt ht (by omega),
      hs.tierHost _ ▸ hsh, rfl⟩

theorem SourcesOK.drainMigrations (h : p.SourcesOK) : p.drainMigrations.SourcesOK :=
  drain_induction (motive := SourcesOK) (fun q j js hq hj _ => by
    refine hq.of_jobs (SameShape.settleFront q j js) fun k hk => ⟨k, ?_, rfl, rfl⟩
    rw [(settleFront_queue q j js).1] at hk
    rw [hj]
    exact List.mem_cons_of_mem _ hk) p h

/-- `migrate_async` queues no copy of a tier the CPU cannot address. -/
theorem migrateAsync_host {dst : TierIndex} (he : p.migrateAsync id dst = .ok (true, p')) :
    (p.tiers (p.location id).tier).hostAddressable = true ∧
      (p.tiers dst).hostAddressable = true := by
  unfold migrateAsync at he
  simp only [bind, Except.bind] at he
  split at he
  · cases he
  rename_i loc hl
  obtain ⟨-, -, rfl⟩ := locate_ok hl
  simp only [pure, Except.pure] at he
  split at he
  · cases he
  split at he
  · cases he
  split at he
  · cases he
  split at he
  · cases he
  split at he
  · cases he
  · rename_i hh
    simpa using hh

theorem SourcesOK.next (h : p.SourcesOK) (hi : p.Inv) {op : PoolOp} (he : p.next op = some p') :
    p'.SourcesOK := by
  have hs : SameShape p p' := SameShape.next he
  -- of most calls every job stays as it is
  have hkeep : (∀ j ∈ p'.jobs, j ∈ p.jobs) → p'.SourcesOK :=
    fun hj => h.of_jobs hs fun j hjm => ⟨j, hj j hjm, rfl, rfl⟩
  cases op with
  | allocate =>
    obtain ⟨_, ha⟩ := toOption_snd he
    refine hkeep fun j hj => ?_
    unfold BlockPool.allocate at ha
    split at ha
    · split at ha
      · cases ha
      · cases ha
        exact hj
    · cases ha
      exact hj
  | incref id =>
    simp only [BlockPool.next] at he
    split at he
    · obtain ⟨-, -, rfl⟩ := incref_ok (toOption_eq_some he)
      exact hkeep fun _ hj => hj
    · cases he
  | decref id =>
    obtain ⟨_, ha⟩ := toOption_snd he
    obtain ⟨-, ⟨-, -, rfl⟩ | ⟨-, -, rfl⟩⟩ := decref_ok ha
    · exact (h.cancelMigration hi id).of_jobs (SameShape.freeBlock _ id)
        fun j hj => ⟨j, hj, rfl, rfl⟩
    · exact hkeep fun _ hj => hj
  | migrate id dst =>
    obtain ⟨_, ha⟩ := toOption_snd he
    obtain ⟨-, -, ⟨-, -, rfl⟩ | ⟨-, -, -, rfl⟩ | ⟨-, -, slot, slots, -, rfl⟩⟩ := migrate_cases ha
    · exact h.cancelMigration hi id
    · exact h.cancelMigration hi id
    · exact (h.cancelMigration hi id).of_jobs (SameShape.moveBlock _ _ _ _)
        fun j hj => ⟨j, hj, rfl, rfl⟩
  | migrateAsync id dst =>
    obtain ⟨_, ha⟩ := toOption_snd he
    obtain ⟨hr, -, ⟨-, rfl, -⟩ | ⟨hb, -, -, slot, slots, -, rfl⟩⟩ := migrateAsync_cases ha
    · exact h
    · subst hb
      obtain ⟨hsh, hdh⟩ := migrateAsync_host ha
      exact h.enqueue hi hr hsh hdh
  | cancelMigration id =>
    cases he
    exact h.cancelMigration hi id
  | drainMigrations =>
    cases he
    exact h.drainMigrations
  | waitForMigrations =>
    rw [(waitForMigrations_ok he).2]
    exact h.drainMigrations
  | worker w act =>
    obtain ⟨f, hf, hfj⟩ := (SameBooks.workerStep he).jobs
    refine h.of_jobs hs fun j hj => ?_
    rw [hf] at hj
    obtain ⟨k, hk, rfl⟩ := List.mem_map.mp hj
    refine ⟨k, hk, ?_⟩
    rcases hfj k with e | e <;> rw [e] <;> exact ⟨rfl, rfl⟩

/-! ## Between the bytes -/

theorem OwnedPool.next_pool {o o' : OwnedPool} {op : PoolOp} (h : o.next (.pool op) = some o') :
    o.pool.next op = some o'.pool := by
  cases op with
  | allocate =>
    obtain ⟨r, ha, h⟩ := Option.bind_eq_some_iff.mp h
    cases h
    show o.pool.allocate.toOption.map (·.2) = _
    rw [ha]
    rfl
  | incref _ | decref _ | migrate _ _ | migrateAsync _ _ | waitForMigrations | worker _ _ =>
    obtain ⟨q, hq, h⟩ := Option.bind_eq_some_iff.mp h
    cases h
    exact hq
  | cancelMigration _ | drainMigrations =>
    cases h
    rfl

theorem OwnedPool.next_of_pool {o : OwnedPool} {op : PoolOp} (hop : op ≠ .allocate)
    (h : o.pool.next op = some p) : o.next (.pool op) = some ⟨p, o.wrote⟩ := by
  cases op with
  | allocate => exact absurd rfl hop
  | incref _ | decref _ | migrate _ _ | migrateAsync _ _ | cancelMigration _ | drainMigrations
  | waitForMigrations | worker _ _ =>
    simp only [OwnedPool.next, h]
    rfl

theorem OwnedPool.write_cases {o o' : OwnedPool} {off : Nat} {bs : List UInt8}
    (h : o.next (.write id off bs) = some o') :
    o.pool.refcount id ≠ 0 ∧ o.pool.migrating id = false ∧ off + bs.length ≤ o.pool.blockBytes ∧
    o' = ⟨{ o.pool with mem := Arena.write o.pool.mem ((o.pool.slotAddr (o.pool.location id)).1,
        (o.pool.slotAddr (o.pool.location id)).2 + off) bs }, wroteAfter o.wrote id off bs⟩ := by
  simp only [OwnedPool.next] at h
  obtain ⟨loc, hl, h⟩ := Option.bind_eq_some_iff.mp h
  obtain ⟨-, hr, rfl⟩ := locate_ok (toOption_eq_some hl)
  split at h
  · rename_i hc
    cases h
    simp only [Bool.and_eq_true, Bool.not_eq_true', decide_eq_true_eq] at hc
    exact ⟨hr, hc.1, hc.2, rfl⟩
  · cases h

theorem OwnedPool.write_of {o : OwnedPool} {off : Nat} {bs : List UInt8}
    (hid : id < o.pool.numBlocks) (hr : o.pool.refcount id ≠ 0) (hm : o.pool.migrating id = false)
    (hlen : off + bs.length ≤ o.pool.blockBytes) : o.next (.write id off bs) =
      some ⟨{ o.pool with mem := Arena.write o.pool.mem ((o.pool.slotAddr (o.pool.location id)).1,
        (o.pool.slotAddr (o.pool.location id)).2 + off) bs }, wroteAfter o.wrote id off bs⟩ := by
  have hl : o.pool.locate id = .ok (o.pool.location id) := by
    unfold locate
    rw [if_neg (Nat.not_le.mpr hid), if_neg hr]
  have hc : (!o.pool.migrating id && decide (off + bs.length ≤ o.pool.blockBytes)) = true := by
    rw [hm, decide_eq_true hlen]
    rfl
  simp only [OwnedPool.next, hl]
  exact if_pos hc

/-- A byte written elsewhere. -/
theorem byteAt_write_of_ne {l l' : Location} {off k : Nat} {b : UInt8} (hne : l' ≠ l)
    (hoff : off < p.blockBytes) (hk : k < p.blockBytes) :
    byteAt { p with mem := Arena.write p.mem (l.tier, l.slot * p.blockBytes + off) [b] } l' k =
      p.byteAt l' k := by
  refine Arena.write_slot_of_ne _ (fun e => hne ?_) hk hoff
  simp only [Prod.mk.injEq] at e
  cases l
  cases l'
  simp_all

/-- A byte written here. -/
theorem byteAt_write_self {l : Location} {off k : Nat} {b : UInt8} :
    byteAt { p with mem := Arena.write p.mem (l.tier, l.slot * p.blockBytes + off) [b] } l k =
      if k = off then b else p.byteAt l k := by
  refine (Arena.write_slot_self (k := off) p.mem l.tier l.slot [b]).trans ?_
  by_cases hk : k = off
  · rw [if_pos hk, if_pos (Nat.le_of_eq hk.symm), hk, Nat.sub_self]
    rfl
  · rw [if_neg hk]
    split
    · rename_i hle
      rw [List.getElem?_eq_none (by rw [List.length_singleton]; omega)]
      rfl
    · rfl

/-- The block being moved is at rest, the slot it goes to is free, and what was copied is there. -/
structure MoveOK (p : BlockPool) (mv : Move) : Prop where
  refs : p.refcount mv.id ≠ 0
  noFlight : ∀ j ∈ p.flights, j.id ≠ mv.id
  tier : mv.dst.tier < p.numTiers
  other : (p.location mv.id).tier ≠ mv.dst.tier
  free : ∃ slots, (p.tiers mv.dst.tier).freeSlots = mv.dst.slot :: slots
  fetched : ∀ k ∈ mv.fetched, k < p.blockBytes ∧ mv.bounce k = p.byteAt (p.location mv.id) k
  stored : ∀ k ∈ mv.stored, k < p.blockBytes ∧ p.byteAt mv.dst k = p.byteAt (p.location mv.id) k

theorem MoveOK.mem_free {mv : Move} (h : MoveOK p mv) :
    mv.dst.slot ∈ (p.tiers mv.dst.tier).freeSlots := by
  obtain ⟨slots, hs⟩ := h.free
  rw [hs]
  exact List.mem_cons_self

theorem MoveOK.dst_addr {mv : Move} (h : MoveOK p mv) (hi : p.Inv) (hw : p.NoWrap) :
    p.slotAddr mv.dst = (mv.dst.tier, mv.dst.slot * p.blockBytes) := by
  have hpos : 0 < p.freeCount mv.dst := free_pos h.mem_free
  exact hw.slotAddr h.tier (hi.slot_lt h.tier (by omega))

/-- A step that keeps the books and the bytes at both ends. -/
theorem MoveOK.of_same {mv : Move} (h : MoveOK p mv) (hs : SameShape p p')
    (hr : p'.refcount = p.refcount) (hl : p'.location = p.location) (ht : p'.tiers = p.tiers)
    (hf : ∀ j ∈ p'.flights, ∃ k ∈ p.flights, j.id = k.id)
    (hb : ∀ l k, l = p.location mv.id ∨ l = mv.dst → k < p.blockBytes →
      p'.byteAt l k = p.byteAt l k) : MoveOK p' mv := by
  refine ⟨hr ▸ h.refs, fun j hj e => ?_, hs.numTiers ▸ h.tier, hl ▸ h.other, ht ▸ h.free,
    fun k hk => ?_, fun k hk => ?_⟩
  · obtain ⟨k, hk, hjk⟩ := hf j hj
    exact h.noFlight k hk (hjk.symm.trans e)
  · obtain ⟨hlt, he⟩ := h.fetched k hk
    rw [hl, hs.blockBytes, hb _ k (.inl rfl) hlt]
    exact ⟨hlt, he⟩
  · obtain ⟨hlt, he⟩ := h.stored k hk
    rw [hl, hs.blockBytes, hb _ k (.inl rfl) hlt, hb _ k (.inr rfl) hlt]
    exact ⟨hlt, he⟩

/-- A byte written into a slot that is at neither end. -/
theorem MoveOK.write {mv : Move} (h : MoveOK p mv) {l : Location} {off : Nat} {b : UInt8}
    (hoff : off < p.blockBytes) (hsrc : p.location mv.id ≠ l) (hdst : mv.dst ≠ l) :
    MoveOK { p with mem := Arena.write p.mem (l.tier, l.slot * p.blockBytes + off) [b] } mv :=
  h.of_same ⟨rfl, rfl, rfl, fun _ => rfl, fun _ => rfl⟩ rfl rfl rfl (fun j hj => ⟨j, hj, rfl⟩)
    fun l' k hl' hk => byteAt_write_of_ne (by rcases hl' with rfl | rfl <;> assumption) hoff hk

namespace BytewisePool

variable {f f' : BytewisePool} {i : Nat}

/-- The invariant of the copies under way. -/
structure Sound (f : BytewisePool) : Prop where
  inv : f.pool.Inv
  queue : f.pool.QueueInv
  noWrap : f.pool.NoWrap
  sources : f.pool.SourcesOK
  move : ∀ mv, f.move = some mv → MoveOK f.pool mv

/-- The two ends of a queued copy. -/
theorem Sound.job_addr (h : f.Sound) {ptr : JobPtr} {j : MigrationJob}
    (hj : f.pool.job? ptr = some j) : j ∈ f.pool.jobs ∧ j.bytes = f.pool.blockBytes ∧
      j.dst = (j.dstLoc.tier, j.dstLoc.slot * f.pool.blockBytes) ∧
      ∃ l : Location, j.src = (l.tier, l.slot * f.pool.blockBytes) := by
  obtain ⟨hjm, -⟩ := h.inv.job?_eq_some.mp hj
  obtain ⟨hdst, hb⟩ := h.inv.dst_addr h.noWrap hjm
  obtain ⟨-, l, ht, hl, -, hsrc⟩ := h.sources j hjm
  exact ⟨hjm, hb, hdst, l, hsrc.trans (h.noWrap.slotAddr ht hl)⟩

/-- A stored byte of a move is the byte of the block, fetched just now or before. -/
theorem Sound.stored_byte (h : f.Sound) {mv : Move} {off : Nat} {mem : Arena.Mem TierIndex UInt8}
    (hm : f.move = some mv)
    (hmem : mem = Arena.memcpy f.pool.mem
        ((f.pool.slotAddr mv.dst).1, (f.pool.slotAddr mv.dst).2 + off)
        ((f.pool.slotAddr (f.pool.location mv.id)).1,
          (f.pool.slotAddr (f.pool.location mv.id)).2 + off) 1 ∨
      off ∈ mv.fetched ∧ mem = Arena.write f.pool.mem
        ((f.pool.slotAddr mv.dst).1, (f.pool.slotAddr mv.dst).2 + off) [mv.bounce off]) :
    mem = Arena.memcpy f.pool.mem (mv.dst.tier, mv.dst.slot * f.pool.blockBytes + off)
      ((f.pool.location mv.id).tier,
        (f.pool.location mv.id).slot * f.pool.blockBytes + off) 1 := by
  have hmv := h.move mv hm
  rw [hmv.dst_addr h.inv h.noWrap, h.inv.block_addr h.noWrap hmv.refs] at hmem
  rcases hmem with hmem | ⟨hf, hmem⟩
  · exact hmem
  · rw [hmem, Arena.memcpy_one, (hmv.fetched off hf).2]
    rfl

/-! ## One action -/

theorem Sound.call (h : f.Sound) {op : PoolOp} {owned : OwnedPool} (hm : f.move = none)
    (ho : f.owned.next (.pool op) = some owned) : Sound { f with owned } := by
  have hp := OwnedPool.next_pool ho
  refine ⟨h.inv.next hp, h.queue.next h.inv hp, h.noWrap.of_shape (SameShape.next hp),
    h.sources.next h.inv hp, fun mv hmv => ?_⟩
  have hmv : f.move = some mv := hmv
  rw [hm] at hmv
  cases hmv

theorem Sound.write (h : f.Sound) {off : Nat} {b : UInt8} {owned : OwnedPool}
    (hm : ∀ mv, f.move = some mv → mv.id ≠ id)
    (ho : f.owned.next (.write id off [b]) = some owned) : Sound { f with owned } := by
  obtain ⟨hr, -, hlen, rfl⟩ := OwnedPool.write_cases ho
  refine ⟨h.inv.setMem _, h.queue.of_same rfl rfl rfl, h.noWrap, h.sources, fun mv hmv => ?_⟩
  have hmv' := h.move mv hmv
  show MoveOK { f.pool with mem := _ } mv
  rw [h.inv.block_addr h.noWrap hr]
  exact hmv'.write hlen (fun e => hm mv hmv (h.inv.location_inj hmv'.refs hr e))
    fun e => h.inv.location_ne_free hr hmv'.mem_free e.symm

theorem Sound.worker (h : f.Sound) {act : WorkerAct} (ha : act.isCopy = false)
    (hp : f.pool.workerStep w act = some p') (copied : WorkerId → List Nat) :
    Sound { f.setPool p' with copied } := by
  have hb := SameBooks.workerStep hp
  have hmem := workerStep_mem ha hp
  have hnext : f.pool.next (.worker w act) = some p' := hp
  refine ⟨h.inv.workerStep hp, h.queue.next h.inv hnext, h.noWrap.of_shape hb.shape,
    h.sources.next h.inv hnext, fun mv hmv => ?_⟩
  show MoveOK p' mv
  refine (h.move mv hmv).of_same hb.shape hb.refcount hb.location hb.tiers (fun j hj => ?_)
    fun l k _ _ => ?_
  · obtain ⟨g, hg, hgj⟩ := hb.jobs
    obtain ⟨hjm, hjc⟩ := mem_flights.mp hj
    rw [hg] at hjm
    obtain ⟨k, hk, rfl⟩ := List.mem_map.mp hjm
    rcases hgj k with e | e <;> rw [e] at hjc ⊢ <;>
      exact ⟨k, mem_flights.mpr ⟨hk, hjc⟩, rfl⟩
  · unfold byteAt
    rw [hmem, hb.shape.blockBytes]

theorem Sound.copyByte (h : f.Sound) {ptr : JobPtr} {j : MigrationJob} {off : Nat}
    (hj : f.pool.job? ptr = some j) (hoff : off < j.bytes) (copied : WorkerId → List Nat) :
    Sound { f.setPool { f.pool with
        mem := Arena.memcpy f.pool.mem (j.dst.1, j.dst.2 + off) (j.src.1, j.src.2 + off) 1 } with
      copied } := by
  obtain ⟨hjm, hb, hdst, l, hsrc⟩ := h.job_addr hj
  refine ⟨h.inv.setMem _, h.queue.of_same rfl rfl rfl, h.noWrap, h.sources, fun mv hmv => ?_⟩
  have hmv' := h.move mv hmv
  show MoveOK { f.pool with mem := _ } mv
  rw [hdst, Arena.memcpy_one]
  exact hmv'.write (hb ▸ hoff) (h.inv.location_ne_dst hmv'.refs hjm)
    fun e => h.inv.dst_ne_free hjm hmv'.mem_free e.symm

theorem Sound.copyReturn (h : f.Sound) {ptr : JobPtr} (hw : f.pool.workers w = .copying ptr) :
    Sound (f.setPool { f.pool with
      workers := Function.update f.pool.workers w (.finishing ptr) }) := by
  have hpc : (WorkerPc.finishing ptr).job? = f.pool.holds w := by
    unfold holds
    rw [hw]
    rfl
  refine ⟨h.inv.withBytes, h.queue.advance hpc rfl rfl rfl, h.noWrap, h.sources, fun mv hmv => ?_⟩
  exact (h.move mv hmv).of_same ⟨rfl, rfl, rfl, fun _ => rfl, fun _ => rfl⟩ rfl rfl rfl
    (fun j hj => ⟨j, hj, rfl⟩) fun _ _ _ _ => rfl

theorem Sound.moveEnter (h : f.Sound) {dst : TierIndex} {slot : Nat} {slots : List Nat}
    (hr : f.pool.refcount id ≠ 0) (ht : dst < f.pool.numTiers)
    (hne : (f.pool.location id).tier ≠ dst) (hsl : (f.pool.tiers dst).freeSlots = slot :: slots) :
    Sound { f.setPool (f.pool.cancelMigration id) with
      move := some { id, dst := ⟨dst, slot⟩ } } := by
  refine ⟨h.inv.cancelMigration id, h.queue.cancelMigration id,
    h.noWrap.of_shape (SameShape.cancelMigration _ id), h.sources.cancelMigration h.inv id,
    fun mv hmv => ?_⟩
  cases hmv
  refine ⟨?_, fun j hj => (h.inv.cancel_no_flight hj).2, ?_, ?_, ⟨slots, ?_⟩, nofun, nofun⟩
  · show (f.pool.cancelMigration id).refcount id ≠ 0
    rwa [cancel_refcount]
  · show dst < (f.pool.cancelMigration id).numTiers
    rwa [cancel_numTiers]
  · show ((f.pool.cancelMigration id).location id).tier ≠ dst
    rwa [cancel_location]
  · show ((f.pool.cancelMigration id).tiers dst).freeSlots = _
    rwa [cancel_tiers]

theorem Sound.fetchByte (h : f.Sound) {mv : Move} {off : Nat} (hm : f.move = some mv)
    (hoff : off < f.pool.blockBytes) :
    Sound { f with move := some { mv with
      bounce := Function.update mv.bounce off
        (f.pool.mem (f.pool.slotAddr (f.pool.location mv.id)).1
          ((f.pool.slotAddr (f.pool.location mv.id)).2 + off))
      fetched := off :: mv.fetched } } := by
  refine ⟨h.inv, h.queue, h.noWrap, h.sources, fun mv' hmv => ?_⟩
  cases hmv
  have hmv := h.move mv hm
  refine ⟨hmv.refs, hmv.noFlight, hmv.tier, hmv.other, hmv.free, fun k hk => ?_, hmv.stored⟩
  have hk : k ∈ off :: mv.fetched := hk
  show k < _ ∧ Function.update mv.bounce off _ k = _
  by_cases e : k = off
  · subst e
    rw [Function.update_self, h.inv.block_addr h.noWrap hmv.refs]
    exact ⟨hoff, rfl⟩
  · rw [Function.update_of_ne e]
    exact hmv.fetched k (List.mem_of_ne_of_mem e hk)

theorem Sound.storeByte (h : f.Sound) {mv : Move} {off : Nat} {mem : Arena.Mem TierIndex UInt8}
    (hm : f.move = some mv) (hoff : off < f.pool.blockBytes)
    (he : mem = Arena.memcpy f.pool.mem (mv.dst.tier, mv.dst.slot * f.pool.blockBytes + off)
      ((f.pool.location mv.id).tier,
        (f.pool.location mv.id).slot * f.pool.blockBytes + off) 1) :
    Sound { f.setPool { f.pool with mem } with
      move := some { mv with stored := off :: mv.stored } } := by
  have hmv := h.move mv hm
  refine ⟨h.inv.setMem _, h.queue.of_same rfl rfl rfl, h.noWrap, h.sources, fun mv' hmv' => ?_⟩
  cases hmv'
  have hne : f.pool.location mv.id ≠ mv.dst := fun e => hmv.other (congrArg Location.tier e)
  rw [Arena.memcpy_one] at he
  have hsrc : ∀ k < f.pool.blockBytes, byteAt { f.pool with mem } (f.pool.location mv.id) k =
      f.pool.byteAt (f.pool.location mv.id) k := fun k hk => by
    rw [he]
    exact byteAt_write_of_ne hne hoff hk
  refine ⟨hmv.refs, hmv.noFlight, hmv.tier, hmv.other, hmv.free, fun k hk => ?_, fun k hk => ?_⟩
  · obtain ⟨hlt, hb⟩ := hmv.fetched k hk
    exact ⟨hlt, hb.trans (hsrc k hlt).symm⟩
  · have hk : k ∈ off :: mv.stored := hk
    have hlt : k < f.pool.blockBytes := by
      rcases List.mem_cons.mp hk with rfl | hk
      · exact hoff
      · exact (hmv.stored k hk).1
    refine ⟨hlt, Eq.trans ?_ (hsrc k hlt).symm⟩
    show byteAt { f.pool with mem } mv.dst k = _
    rw [he, byteAt_write_self]
    split
    · rename_i e
      rw [e]
      rfl
    · rename_i e
      exact (hmv.stored k (List.mem_of_ne_of_mem e hk)).2

theorem Sound.moveLeave (h : f.Sound) {mv : Move} (hm : f.move = some mv) :
    Sound { f.setPool (f.pool.rebind mv.id mv.dst (f.pool.location mv.id)) with move := none } := by
  have hmv := h.move mv hm
  obtain ⟨slots, hsl⟩ := hmv.free
  have hs : SameShape f.pool (f.pool.rebind mv.id mv.dst (f.pool.location mv.id)) := by
    have := SameShape.moveBlock f.pool mv.id mv.dst (f.pool.location mv.id)
    exact ⟨this.1, this.2, this.3, this.4, this.5⟩
  have hinv : (f.pool.rebind mv.id mv.dst (f.pool.location mv.id)).Inv :=
    (h.inv.moveBlock hmv.refs hmv.noFlight hmv.tier hsl).setMem f.pool.mem
  exact ⟨hinv, h.queue.of_same rfl rfl rfl, h.noWrap.of_shape hs,
    h.sources.of_jobs hs fun j hj => ⟨j, hj, rfl, rfl⟩, nofun⟩

/-- **Every step keeps the invariant.** -/
theorem Sound.steps (h : f.Sound) {op : BytewiseOp} (hs : Steps f op f') : f'.Sound := by
  cases hs with
  | call hm _ ho => exact h.call hm ho
  | write hm ho => exact h.write hm ho
  | read _ _ => exact h
  | worker ha hp => exact h.worker ha hp _
  | copyByte _ hj hoff _ => exact h.copyByte hj hoff _
  | copyReturn hw _ _ => exact h.copyReturn hw
  | moveEnter _ hr ht hne hsl => exact h.moveEnter hr ht hne hsl
  | fetchByte hm hoff => exact h.fetchByte hm hoff
  | storeByte hm hoff _ hmem => exact h.storeByte hm hoff (h.stored_byte hm hmem)
  | moveLeave hm _ => exact h.moveLeave hm

end BytewisePool

end BlockPool

end KvsLab
