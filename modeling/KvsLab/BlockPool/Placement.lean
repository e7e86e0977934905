import KvsLab.BlockPool.Blocks
import Mathlib.Algebra.BigOperators.Group.Finset.Piecewise

/-!
# Blocks given back are on the free lists

* `Placed` — locations and destinations lie in tiers of the pool.  It survives every step, also of
  callers that drop references they do not hold, so freed slots can be counted whatever the
  reference counts are.
* `Frees` — a list of blocks went back: that many ids and that many slots over all tiers.
-/

namespace KvsLab

namespace BlockPool

variable {p p' : BlockPool} {id : BlockId}

/-- Locations of blocks and destinations of jobs lie in tiers of the pool. -/
structure Placed (p : BlockPool) : Prop where
  tiers : 0 < p.numTiers
  location : ∀ id, (p.location id).tier < p.numTiers
  jobs : ∀ j ∈ p.jobs, j.dstTier < p.numTiers

theorem Placed.move (h : Placed p) {l : Location} (hl : l.tier < p.numTiers)
    (hn : p'.numTiers = p.numTiers) (hloc : p'.location = Function.update p.location id l)
    (hj : ∀ j ∈ p'.jobs, j.dstTier < p.numTiers) : Placed p' := by
  refine ⟨hn ▸ h.tiers, fun x => ?_, hn ▸ hj⟩
  rw [hn, hloc]
  by_cases e : x = id
  · rw [e, Function.update_self]
    exact hl
  · rw [Function.update_of_ne e]
    exact h.location x

theorem Placed.same (h : Placed p) (hn : p'.numTiers = p.numTiers)
    (hloc : p'.location = p.location) (hj : ∀ j ∈ p'.jobs, ∃ i ∈ p.jobs, j.dstTier = i.dstTier) :
    Placed p' := by
  refine ⟨hn ▸ h.tiers, fun x => hn ▸ hloc ▸ h.location x, fun j hm => ?_⟩
  obtain ⟨i, hi, e⟩ := hj j hm
  rw [hn, e]
  exact h.jobs i hi

theorem Placed.cancelMigration (h : Placed p) (id : BlockId) : Placed (p.cancelMigration id) := by
  refine h.same (cancel_numTiers p id) (cancel_location p id) fun j hj => ?_
  unfold BlockPool.cancelMigration at hj
  split at hj
  · exact ⟨j, hj, rfl⟩
  · obtain ⟨i, hi, rfl⟩ := List.mem_map.mp hj
    refine ⟨i, hi, ?_⟩
    split <;> rfl

theorem Placed.releaseBlock (h : Placed p) (id : BlockId) : Placed (p.releaseBlock id) :=
  (h.cancelMigration id).same rfl rfl fun j hj => ⟨j, hj, rfl⟩

theorem Placed.drainMigrations (h : Placed p) : Placed p.drainMigrations := by
  refine drain_induction (motive := Placed) (fun p j js h hj _ => ?_) p h
  have hjd : j.dstTier < p.numTiers := h.jobs j (hj ▸ List.mem_cons_self)
  have hjs : ∀ i ∈ js, i.dstTier < p.numTiers := fun i hi =>
    h.jobs i (hj ▸ List.mem_cons_of_mem _ hi)
  unfold settleFront applyFinished
  split
  · exact ⟨h.tiers, h.location, hjs⟩
  · exact h.move (l := ⟨j.dstTier, j.dstSlot⟩) hjd rfl rfl hjs

theorem Placed.next (h : Placed p) {op : PoolOp} (he : Step p op p') : Placed p' := by
  cases op with
  | allocate =>
    obtain ⟨a, ha⟩ := toOption_snd he
    unfold BlockPool.allocate at ha
    split at ha
    · split at ha
      · cases ha
      · cases ha
        exact h.move (l := ⟨0, _⟩) h.tiers rfl rfl h.jobs
    · cases ha
      exact h
  | incref id =>
    simp only [Step, BlockPool.next] at he
    split at he
    · obtain ⟨-, -, rfl⟩ := incref_ok (toOption_eq_some he)
      exact ⟨h.tiers, h.location, h.jobs⟩
    · cases he
  | decref id =>
    obtain ⟨a, ha⟩ := toOption_snd he
    obtain ⟨-, ⟨-, -, rfl⟩ | ⟨-, -, rfl⟩⟩ := decref_ok ha
    · exact h.releaseBlock id
    · exact ⟨h.tiers, h.location, h.jobs⟩
  | migrate id dst =>
    obtain ⟨a, ha⟩ := toOption_snd he
    have hc := h.cancelMigration id
    obtain ⟨-, hdst, ⟨-, -, rfl⟩ | ⟨-, -, -, rfl⟩ | ⟨-, -, slot, slots, -, rfl⟩⟩ := migrate_cases ha
    · exact hc
    · exact hc
    · exact hc.move (l := ⟨dst, slot⟩) ((cancel_numTiers p id).symm ▸ hdst) rfl rfl hc.jobs
  | migrateAsync id dst =>
    obtain ⟨a, ha⟩ := toOption_snd he
    obtain ⟨-, hdst, ⟨-, rfl, -⟩ | ⟨-, -, -, slot, slots, -, rfl⟩⟩ := migrateAsync_cases ha
    · exact h
    · refine ⟨h.tiers, h.location, fun j hj => ?_⟩
      rcases List.mem_append.mp hj with hj | hj
      · exact h.jobs j hj
      · rw [List.mem_singleton.mp hj]
        exact hdst
  | cancelMigration id =>
    cases he
    exact h.cancelMigration id
  | drainMigrations =>
    cases he
    exact h.drainMigrations
  | waitForMigrations =>
    obtain ⟨-, rfl⟩ := waitForMigrations_ok he
    exact h.drainMigrations
  | worker w act =>
    have hb := SameBooks.workerStep he
    obtain ⟨f, hf, hor⟩ := hb.jobs
    refine h.same hb.shape.numTiers hb.location fun j hj => ?_
    rw [hf] at hj
    obtain ⟨i, hi, rfl⟩ := List.mem_map.mp hj
    refine ⟨i, hi, ?_⟩
    rcases hor i with e | e <;> rw [e]

theorem init_placed {cfg : CacheConfig} {specs : List TierSpec} {mem : Arena.Mem TierIndex UInt8}
    (h : init cfg specs mem = .ok p) : Placed p := by
  obtain ⟨hne, states, hst, rfl⟩ := init_ok h
  have hpos : 0 < states.length := by
    rw [← hst.length_eq]
    exact List.length_pos_of_ne_nil hne
  exact ⟨hpos, fun _ => hpos, fun j hj => (by cases hj)⟩

/-- The free slots of all tiers. -/
def totalFree (p : BlockPool) : Nat := ∑ t ∈ Finset.range p.numTiers, p.tierFree t

/-- The blocks `l` went back on the free lists, and nothing else changed hands. -/
structure Frees (l : List BlockId) (p p' : BlockPool) : Prop where
  placed : Placed p'
  numBlocks : p'.numBlocks = p.numBlocks
  other : ∀ b, b ∉ l → p'.refcount b = p.refcount b
  freeIds : p'.freeIds.length = p.freeIds.length + l.length
  totalFree : p'.totalFree = p.totalFree + l.length

theorem cancel_freeIds (p : BlockPool) (id : BlockId) :
    (p.cancelMigration id).freeIds = p.freeIds := by
  unfold BlockPool.cancelMigration
  split <;> rfl

theorem Placed.frees_one (h : Placed p) (id : BlockId) : Frees [id] p (p.releaseBlock id) := by
  have hsh := SameShape.releaseBlock p id
  refine ⟨h.releaseBlock id, hsh.numBlocks, fun b hb => ?_, ?_, ?_⟩
  · exact releaseBlock_other (List.ne_of_not_mem_cons hb)
  · show (id :: (p.cancelMigration id).freeIds).length = _
    rw [cancel_freeIds]
    rfl
  · unfold BlockPool.totalFree
    simp only [hsh.numTiers, releaseBlock_tierFree, Finset.sum_add_distrib]
    rw [Finset.sum_ite_eq' (Finset.range p.numTiers) (p.location id).tier fun _ => 1,
      if_pos (Finset.mem_range.mpr (h.location id))]
    rfl

theorem Placed.frees : ∀ {l : List BlockId} {p : BlockPool}, Placed p → Frees l p (p.releaseAll l)
  | [], p, h => ⟨h, rfl, fun _ _ => rfl, rfl, rfl⟩
  | b :: l, p, h => by
    have h1 := h.frees_one b
    have h2 := Placed.frees (l := l) h1.placed
    refine ⟨h2.placed, h2.numBlocks.trans h1.numBlocks, fun c hc => ?_, ?_, ?_⟩
    · rw [← h1.other c fun hm => hc (List.mem_singleton.mp hm ▸ List.mem_cons_self)]
      exact h2.other c fun hm => hc (List.mem_cons_of_mem _ hm)
    · rw [show p.releaseAll (b :: l) = (p.releaseBlock b).releaseAll l from rfl, h2.freeIds,
        h1.freeIds]
      simp only [List.length_cons, List.length_nil]
      omega
    · rw [show p.releaseAll (b :: l) = (p.releaseBlock b).releaseAll l from rfl, h2.totalFree,
        h1.totalFree]
      simp only [List.length_cons, List.length_nil]
      omega

end BlockPool

end KvsLab
