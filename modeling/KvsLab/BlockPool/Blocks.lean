import KvsLab.BlockPool.Queue

/-!
# What each call does to one block

* `target` — the tier a block's in-flight migration is headed to.
* `SameBlock p p' y` — references, location and migration of block `y` are as they were.
* One lemma per call: the block it is about changes as stated, every other block stays, and the
  free slots of each tier change by one where a slot changed hands.
* `Inv.drain_block` — a drain leaves a block alone or delivers it to its target.
* `releaseAll` — the last reference of each block of a list is dropped.
-/

namespace KvsLab

open Counting

namespace BlockPool

variable {p p' q : BlockPool} {id x y : BlockId}

/-- The tier an in-flight migration of `id` is headed to. -/
def target (p : BlockPool) (id : BlockId) : Option TierIndex :=
  (p.flights.find? fun j => j.id == id).map (·.dstTier)

/-- References, location and migration of block `y` are the same. -/
structure SameBlock (p p' : BlockPool) (y : BlockId) : Prop where
  refcount : p'.refcount y = p.refcount y
  location : p'.location y = p.location y
  target : p'.target y = p.target y

theorem SameBlock.refl (p : BlockPool) (y : BlockId) : SameBlock p p y := ⟨rfl, rfl, rfl⟩

theorem SameBlock.trans (h : SameBlock p p' y) (h' : SameBlock p' q y) : SameBlock p q y :=
  ⟨h'.1.trans h.1, h'.2.trans h.2, h'.3.trans h.3⟩

theorem target_congr (h : p'.flights = p.flights) (y : BlockId) : p'.target y = p.target y := by
  unfold target
  rw [h]

theorem target_eq_none : p.target id = none ↔ ∀ j ∈ p.flights, j.id ≠ id := by
  unfold target
  simp

theorem Inv.target_eq_some (h : p.Inv) {t : TierIndex} :
    p.target id = some t ↔ ∃ j ∈ p.flights, j.id = id ∧ j.dstTier = t := by
  unfold target
  rw [Option.map_eq_some_iff]
  constructor
  · rintro ⟨j, hj, rfl⟩
    exact ⟨j, List.mem_of_find?_eq_some hj, by simpa using List.find?_some hj, rfl⟩
  · rintro ⟨j, hj, rfl, rfl⟩
    have hs : (p.flights.find? fun k => k.id == j.id).isSome :=
      List.find?_isSome.mpr ⟨j, hj, by simp⟩
    obtain ⟨k, hk⟩ := Option.isSome_iff_exists.mp hs
    have hkj := h.flight_inj (List.mem_of_find?_eq_some hk) hj (by simpa using List.find?_some hk)
    exact ⟨k, hk, by rw [hkj]⟩

/-- `migrating` reads the target. -/
theorem Inv.migrating_eq_isSome (h : p.Inv) : p.migrating id = (p.target id).isSome := by
  rw [Bool.eq_iff_iff, h.migrating_iff, Option.isSome_iff_exists]
  constructor
  · rintro ⟨j, hj, hi⟩
    exact ⟨_, h.target_eq_some.mpr ⟨j, hj, hi, rfl⟩⟩
  · rintro ⟨t, ht⟩
    obtain ⟨j, hj, hi, _⟩ := h.target_eq_some.mp ht
    exact ⟨j, hj, hi⟩

/-- `migration_target` returns the target. -/
theorem Inv.migrationTarget_eq (h : p.Inv) {t : TierIndex} (ht : p.target id = some t) :
    p.migrationTarget id = .ok t := by
  obtain ⟨j, hj, hi, rfl⟩ := h.target_eq_some.mp ht
  unfold migrationTarget
  rw [h.flight?_eq_some.mpr ⟨hj, hi⟩]

/-- A block in flight is allocated and not at its target. -/
theorem Inv.of_target (h : p.Inv) {t : TierIndex} (ht : p.target id = some t) :
    p.refcount id ≠ 0 ∧ (p.location id).tier ≠ t := by
  obtain ⟨j, hj, hi, rfl⟩ := h.target_eq_some.mp ht
  obtain ⟨h1, _, h3⟩ := h.flight j hj
  exact ⟨hi ▸ h1, hi ▸ h3⟩

theorem Inv.target_of_free (h : p.Inv) (hr : p.refcount id = 0) : p.target id = none :=
  target_eq_none.mpr fun _ hj => h.flight_ne hr hj

theorem blockTier_eq (hlt : id < p.numBlocks) (hr : p.refcount id ≠ 0) :
    p.blockTier id = .ok (p.location id).tier := by
  unfold blockTier
  rw [locate_eq hlt hr]
  rfl

theorem Inv.blockTier_eq (h : p.Inv) (hr : p.refcount id ≠ 0) :
    p.blockTier id = .ok (p.location id).tier := BlockPool.blockTier_eq (h.lt_of_refcount hr) hr

theorem refcountOf_eq (hlt : id < p.numBlocks) : p.refcountOf id = .ok (p.refcount id) :=
  if_neg (Nat.not_le.mpr hlt)

/-! ## Cancelling -/

theorem Inv.cancel_target (h : p.Inv) (id : BlockId) : (p.cancelMigration id).target id = none :=
  target_eq_none.mpr fun _ hj => (h.cancel_no_flight hj).2

theorem Inv.cancel_same (h : p.Inv) (hy : y ≠ id) : SameBlock p (p.cancelMigration id) y := by
  refine ⟨by rw [cancel_refcount], by rw [cancel_location], ?_⟩
  unfold target
  rw [h.cancel_flights, List.find?_filter]
  congr 2
  funext j
  by_cases e : j.id = y
  · simp [e, hy]
  · simp [e]

theorem cancel_tierFree (t : TierIndex) : (p.cancelMigration id).tierFree t = p.tierFree t := by
  unfold tierFree
  rw [cancel_tiers]

theorem cancel_freed : (p.cancelMigration id).freed = p.freed := by
  unfold cancelMigration
  split <;> rfl

/-! ## Free slots -/

theorem tierFree_setFree (t u : TierIndex) (l : List Nat) :
    (p.setFree t l).tierFree u = if u = t then l.length else p.tierFree u := by
  unfold tierFree
  split
  · rename_i h; rw [h, setFree_tiers_self]
  · rename_i h; rw [setFree_tiers_of_ne l h]

theorem tierFree_pushSlot (t u : TierIndex) (s : Nat) :
    (p.pushSlot t s).tierFree u = p.tierFree u + if u = t then 1 else 0 := by
  unfold pushSlot
  rw [tierFree_setFree]
  split
  · rename_i h; rw [h]; rfl
  · rfl

theorem tierFree_popSlot {t : TierIndex} {s : Nat} {l : List Nat}
    (h : (p.tiers t).freeSlots = s :: l) (u : TierIndex) :
    (p.popSlot t).tierFree u + (if u = t then 1 else 0) = p.tierFree u := by
  unfold popSlot
  rw [tierFree_setFree, h]
  split
  · rename_i e; rw [e]; unfold tierFree; rw [h]; rfl
  · rfl

/-! ## Handing out, giving back and moving a block -/

theorem takeBlock_same {slot : Nat} (hy : y ≠ id) : SameBlock p (p.takeBlock id slot) y :=
  ⟨Function.update_of_ne hy _ _, Function.update_of_ne hy _ _, rfl⟩

theorem takeBlock_self (slot : Nat) : (p.takeBlock id slot).refcount id = 1 ∧
    (p.takeBlock id slot).location id = ⟨0, slot⟩ ∧
    (p.takeBlock id slot).target id = p.target id :=
  ⟨Function.update_self _ _ _, Function.update_self _ _ _, rfl⟩

theorem takeBlock_tierFree {slot : Nat} {slots : List Nat}
    (h : (p.tiers 0).freeSlots = slot :: slots) (u : TierIndex) :
    (p.takeBlock id slot).tierFree u + (if u = 0 then 1 else 0) = p.tierFree u :=
  tierFree_popSlot h u

theorem Inv.releaseBlock_same (h : p.Inv) (hy : y ≠ id) : SameBlock p (p.releaseBlock id) y := by
  have hc := h.cancel_same hy
  exact ⟨(Function.update_of_ne hy _ _).trans hc.1, hc.2, hc.3⟩

theorem releaseBlock_refcount : (p.releaseBlock id).refcount id = 0 := Function.update_self _ _ _

theorem releaseBlock_other (hy : y ≠ id) : (p.releaseBlock id).refcount y = p.refcount y := by
  show Function.update (p.cancelMigration id).refcount id 0 y = _
  rw [Function.update_of_ne hy, cancel_refcount]

theorem releaseBlock_tierFree (u : TierIndex) :
    (p.releaseBlock id).tierFree u = p.tierFree u + if u = (p.location id).tier then 1 else 0 := by
  have := tierFree_pushSlot (p := p.cancelMigration id) (p.location id).tier u (p.location id).slot
  rw [cancel_tierFree] at this
  unfold releaseBlock freeBlock
  rw [cancel_location]
  exact this

theorem releaseBlock_freed : (p.releaseBlock id).freed = p.freed ++ [id] := by
  unfold releaseBlock freeBlock
  show (p.cancelMigration id).freed ++ [id] = _
  rw [cancel_freed]

theorem SameShape.releaseBlock (p : BlockPool) (id : BlockId) : SameShape p (p.releaseBlock id) :=
  (SameShape.cancelMigration p id).trans (SameShape.freeBlock _ _)

theorem moveBlock_same {dst src : Location} (hy : y ≠ id) :
    SameBlock p (p.moveBlock id dst src) y := ⟨rfl, Function.update_of_ne hy _ _, rfl⟩

theorem moveBlock_tierFree {dst src : Location} {slots : List Nat}
    (h : (p.tiers dst.tier).freeSlots = dst.slot :: slots) (u : TierIndex) :
    (p.moveBlock id dst src).tierFree u + (if u = dst.tier then 1 else 0) =
      p.tierFree u + if u = src.tier then 1 else 0 := by
  have h1 := tierFree_pushSlot (p := p.popSlot dst.tier) src.tier u src.slot
  have h2 := tierFree_popSlot h u
  have h3 : (p.moveBlock id dst src).tierFree u =
      ((p.popSlot dst.tier).pushSlot src.tier src.slot).tierFree u := rfl
  omega

/-! ## Queueing a migration -/

theorem enqueue_flights (p : BlockPool) (id : BlockId) (dst src : Location) :
    ∃ j : MigrationJob, (p.enqueue id dst src).flights = p.flights ++ [j] ∧ j.id = id ∧
      j.dstTier = dst.tier := by
  refine ⟨{ ptr := p.nextJob, id := id, dstTier := dst.tier, dstSlot := dst.slot,
            src := p.slotAddr src, dst := p.slotAddr dst, bytes := p.blockBytes }, ?_, rfl, rfl⟩
  unfold enqueue flights
  simp only [List.filter_append, List.filter_cons, List.filter_nil]
  rfl

theorem enqueue_same {dst src : Location} (hy : y ≠ id) :
    SameBlock p (p.enqueue id dst src) y := by
  refine ⟨rfl, rfl, ?_⟩
  obtain ⟨j, hj, hi, _⟩ := enqueue_flights p id dst src
  unfold target
  rw [hj, List.find?_append]
  have : (j.id == y) = false := by simpa [hi] using Ne.symm hy
  simp [this]

theorem enqueue_target {dst src : Location} (h : p.target id = none) :
    (p.enqueue id dst src).target id = some dst.tier := by
  obtain ⟨j, hj, hi, ht⟩ := enqueue_flights p id dst src
  have hn : p.flights.find? (fun j => j.id == id) = none := by
    unfold target at h
    simpa using h
  unfold target
  rw [hj, List.find?_append, hn]
  simp [hi, ht]

theorem enqueue_tierFree {dst src : Location} {slots : List Nat}
    (h : (p.tiers dst.tier).freeSlots = dst.slot :: slots) (u : TierIndex) :
    (p.enqueue id dst src).tierFree u + (if u = dst.tier then 1 else 0) = p.tierFree u :=
  tierFree_popSlot h u

/-! ## Draining -/

/-- What a settlement does to block `y`: nothing, or it delivers it. -/
structure Delivered (p p' : BlockPool) (y : BlockId) : Prop where
  refcount : p'.refcount y = p.refcount y
  moved : (p'.location y = p.location y ∧ p'.target y = p.target y) ∨
    ∃ t, p.target y = some t ∧ (p'.location y).tier = t ∧ p'.target y = none

theorem Delivered.refl (p : BlockPool) (y : BlockId) : Delivered p p y := ⟨rfl, .inl ⟨rfl, rfl⟩⟩

theorem Delivered.trans (h : Delivered p p' y) (h' : Delivered p' q y) : Delivered p q y := by
  refine ⟨h'.1.trans h.1, ?_⟩
  rcases h.moved with ⟨h1, h2⟩ | ⟨t, h1, h2, h3⟩
  · rcases h'.moved with ⟨h3, h4⟩ | ⟨t, h3, h4, h5⟩
    · exact .inl ⟨h3.trans h1, h4.trans h2⟩
    · exact .inr ⟨t, h2 ▸ h3, h4, h5⟩
  · rcases h'.moved with ⟨h4, h5⟩ | ⟨t', h4, _⟩
    · exact .inr ⟨t, h1, h4 ▸ h2, h5.trans h3⟩
    · rw [h3] at h4
      cases h4

theorem Inv.settleFront_block (h : p.Inv) {j : MigrationJob} {js : List MigrationJob}
    (hj : p.jobs = j :: js) (y : BlockId) : Delivered p (p.settleFront j js) y := by
  have hfl := settleFront_flights p j js
  have hfl0 := flights_cons hj
  unfold BlockPool.settleFront applyFinished at hfl ⊢
  cases hc : j.cancelled with
  | true =>
    rw [hc] at hfl0 hfl
    exact ⟨rfl, .inl ⟨rfl, target_congr (hfl.trans hfl0.symm) y⟩⟩
  | false =>
    rw [hc] at hfl0 hfl
    simp only [Bool.false_eq_true, if_false] at hfl0 hfl ⊢
    refine ⟨rfl, ?_⟩
    have hnd : (p.flights.map (·.id)).Nodup := h.flight_ids
    rw [hfl0, List.map_cons, List.nodup_cons] at hnd
    by_cases e : y = j.id
    · subst e
      refine .inr ⟨j.dstTier, ?_, ?_, ?_⟩
      · unfold target
        rw [hfl0]
        simp
      · show (Function.update p.location j.id _ j.id).tier = _
        rw [Function.update_self]
      · rw [target_eq_none, hfl]
        intro k hk hki
        exact hnd.1 (hki ▸ List.mem_map_of_mem (f := fun k : MigrationJob => k.id) hk)
    · refine .inl ⟨Function.update_of_ne e _ _, ?_⟩
      unfold target
      rw [hfl, hfl0, List.find?_cons]
      have : (j.id == y) = false := by simpa using Ne.symm e
      rw [this]

/-- **A drain leaves a block alone or delivers it to its target.** -/
theorem Inv.drain_block (h : p.Inv) (y : BlockId) : Delivered p p.drainMigrations y :=
  (drain_induction (motive := fun q => q.Inv ∧ Delivered p q y)
    (fun _ _ _ hq hj _ => ⟨hq.1.settleFront hj, hq.2.trans (hq.1.settleFront_block hj y)⟩) p
    ⟨h, .refl p y⟩).2

theorem drain_refcount (p : BlockPool) : p.drainMigrations.refcount = p.refcount :=
  drain_induction (motive := fun q => q.refcount = p.refcount)
    (fun q j js h _ _ => by
      unfold settleFront applyFinished
      split <;> exact h) p rfl

theorem drain_freed (p : BlockPool) : p.drainMigrations.freed = p.freed :=
  drain_induction (motive := fun q => q.freed = p.freed)
    (fun q j js hq _ _ => by
      rw [← hq]
      unfold settleFront applyFinished
      split <;> rfl) p rfl

theorem SameBooks.flights_target (h : SameBooks p p') (y : BlockId) : p'.target y = p.target y := by
  obtain ⟨f, hf, hfj⟩ := h.jobs
  have hkeep : ∀ j, (f j).id = j.id ∧ (f j).dstTier = j.dstTier ∧ (f j).cancelled = j.cancelled := by
    intro j
    rcases hfj j with e | e <;> rw [e] <;> exact ⟨rfl, rfl, rfl⟩
  have hfl : p'.flights = p.flights.map f := by
    unfold flights
    rw [hf, List.filter_map]
    congr 1
    apply List.filter_congr
    intro j _
    simp [(hkeep j).2.2]
  unfold target
  rw [hfl, List.find?_map]
  have hp : ((fun j : MigrationJob => j.id == y) ∘ f) = fun j => j.id == y := by
    funext j
    simp [(hkeep j).1]
  rw [hp, Option.map_map]
  congr 1
  funext j
  exact (hkeep j).2.1

/-- A worker action leaves every block alone. -/
theorem SameBooks.sameBlock (h : SameBooks p p') (y : BlockId) : SameBlock p p' y :=
  ⟨by rw [h.refcount], by rw [h.location], h.flights_target y⟩

/-! ## Dropping a list of last references -/

def releaseAll (l : List BlockId) (p : BlockPool) : BlockPool := l.foldl releaseBlock p

/-- What dropping the last references of `l` leaves. -/
structure Released (l : List BlockId) (p p' : BlockPool) : Prop where
  inv : p'.Inv
  shape : SameShape p p'
  same : ∀ y, y ∉ l → SameBlock p p' y
  gone : ∀ y ∈ l, p'.refcount y = 0
  freed : p'.freed = p.freed ++ l
  free : ∀ u, p'.tierFree u = p.tierFree u + l.countP fun b => (p.location b).tier == u

theorem Inv.releaseAll : ∀ {l : List BlockId} {p : BlockPool}, p.Inv → l.Nodup →
    (∀ b ∈ l, p.refcount b ≠ 0) → Released l p (p.releaseAll l)
  | [], p, h, _, _ => by
    refine ⟨h, SameShape.refl p, fun y _ => .refl p y, nofun, ?_, fun u => rfl⟩
    rw [List.append_nil]
    rfl
  | b :: l, p, h, hn, hr => by
    rw [List.nodup_cons] at hn
    have hb : p.refcount b ≠ 0 := hr b List.mem_cons_self
    have hne : ∀ y ∈ l, y ≠ b := fun y hy e => hn.1 (e ▸ hy)
    have ih := Inv.releaseAll (h.releaseBlock hb) hn.2 fun y hy => by
      rw [(h.releaseBlock_same (hne y hy)).refcount]
      exact hr y (List.mem_cons_of_mem _ hy)
    refine ⟨ih.inv, (SameShape.releaseBlock p b).trans ih.shape, ?_, ?_, ?_, ?_⟩
    · intro y hy
      rw [List.mem_cons, not_or] at hy
      exact (h.releaseBlock_same hy.1).trans (ih.same y hy.2)
    · intro y hy
      rcases List.mem_cons.mp hy with rfl | hy
      · exact (ih.same y hn.1).refcount.trans releaseBlock_refcount
      · exact ih.gone y hy
    · rw [show BlockPool.releaseAll (b :: l) p = (p.releaseBlock b).releaseAll l from rfl, ih.freed,
        releaseBlock_freed, List.append_assoc]
      rfl
    · intro u
      have hloc : l.countP (fun c => ((p.releaseBlock b).location c).tier == u) =
          l.countP (fun c => (p.location c).tier == u) := by
        apply List.countP_congr
        intro c hc
        rw [(h.releaseBlock_same (hne c hc)).location]
      rw [show BlockPool.releaseAll (b :: l) p = (p.releaseBlock b).releaseAll l from rfl, ih.free,
        releaseBlock_tierFree, hloc, List.countP_cons]
      by_cases e : (p.location b).tier = u
      · simp [e]; omega
      · simp [e, Ne.symm e]

end BlockPool

end KvsLab
