import KvsLab.CacheManager
import KvsLab.BlockPool.Landing
import KvsLab.Lib.Lockstep

/-!
# Calls on a pool without a queue

Two pools with nothing queued that differ in the address of the next job only are `Twin`s.  Apart
from `migrate_async` no call reads that address, so every call of the tree and of the manager runs
in lockstep on twins: it fails on both alike, or returns the same value and leaves twins.
-/

namespace KvsLab

open Lockstep RadixTree

namespace BlockPool

variable {p q : BlockPool}

/-- Nothing is queued, and only the address of the next job differs. -/
structure Twin (p q : BlockPool) : Prop where
  still : p.Still
  eq : q = { p with nextJob := 0 }

/-- The same value, and twins. -/
def Twins {α : Type} (r r' : α × BlockPool) : Prop := r'.1 = r.1 ∧ Twin r.2 r'.2

theorem Still.migrating (h : p.Still) (id : BlockId) : p.migrating id = false := by
  unfold BlockPool.migrating
  rw [h.migratingIds]
  rfl

theorem Still.cancelMigration (h : p.Still) (id : BlockId) : p.cancelMigration id = p :=
  cancel_of_not_migrating (h.migrating id)

theorem Still.releaseBlock (h : p.Still) (id : BlockId) : p.releaseBlock id = p.freeBlock id := by
  unfold BlockPool.releaseBlock
  rw [h.cancelMigration]

namespace Twin

/-- A change that keeps the queue and does not read the next job's address. -/
theorem map (h : Twin p q) {f : BlockPool → BlockPool} (hj : (f p).jobs = p.jobs)
    (hm : (f p).migratingIds = p.migratingIds) (hn : (f p).nextUnclaimed = p.nextUnclaimed)
    (hw : (f p).workers = p.workers)
    (hf : f { p with nextJob := 0 } = { f p with nextJob := 0 }) : Twin (f p) (f q) := by
  refine ⟨⟨hj.trans h.still.jobs, hm.trans h.still.migratingIds, hn.trans h.still.nextUnclaimed,
    hw.trans h.still.workers⟩, ?_⟩
  rw [h.eq]
  exact hf

theorem still_right (h : Twin p q) : q.Still := by
  obtain ⟨hs, rfl⟩ := h
  exact ⟨hs.jobs, hs.migratingIds, hs.nextUnclaimed, hs.workers⟩

/-! ## The pool's calls -/

theorem locate (h : Twin p q) (id : BlockId) : q.locate id = p.locate id := by
  rw [h.eq]
  rfl

theorem blockTier (h : Twin p q) (id : BlockId) : q.blockTier id = p.blockTier id := by
  rw [h.eq]
  rfl

theorem refcountOf (h : Twin p q) (id : BlockId) : q.refcountOf id = p.refcountOf id := by
  rw [h.eq]
  rfl

theorem numFree (h : Twin p q) : q.numFree = p.numFree := by
  rw [h.eq]
  rfl

theorem incref (h : Twin p q) (id : BlockId) : Rel Twin (p.incref id) (q.incref id) := by
  have ht := h.map (f := fun p => { p with
    refcount := Function.update p.refcount id (toU32 (p.refcount id + 1)) }) rfl rfl rfl rfl rfl
  unfold BlockPool.incref
  rw [h.eq] at ht ⊢
  split_ifs
  · exact .error _
  · exact .error _
  · exact .ok ht

theorem decref (h : Twin p q) (id : BlockId) : Rel Twins (p.decref id) (q.decref id) := by
  have hfree := h.map (f := fun p => p.freeBlock id) rfl rfl rfl rfl rfl
  have hdrop := h.map (f := fun p => { p with
    refcount := Function.update p.refcount id (p.refcount id - 1) }) rfl rfl rfl rfl rfl
  unfold BlockPool.decref
  rw [h.still.releaseBlock, h.still_right.releaseBlock]
  rw [h.eq] at hfree hdrop ⊢
  split_ifs
  · exact .error _
  · exact .error _
  · exact .ok ⟨rfl, hfree⟩
  · exact .ok ⟨rfl, hdrop⟩

theorem migrate (h : Twin p q) (id : BlockId) (dst : TierIndex) :
    Rel Twins (p.migrate id dst) (q.migrate id dst) := by
  have hmove : ∀ slot src, Twin (p.moveBlock id ⟨dst, slot⟩ src) (q.moveBlock id ⟨dst, slot⟩ src) :=
    fun slot src => h.map (f := fun p => p.moveBlock id ⟨dst, slot⟩ src) rfl rfl rfl rfl rfl
  have htiers : q.tiers = p.tiers := by rw [h.eq]
  have hnum : q.numTiers = p.numTiers := by rw [h.eq]
  unfold BlockPool.migrate
  simp only [h.still.cancelMigration, h.still_right.cancelMigration, h.locate, htiers, hnum]
  refine (Rel.refl (p.locate id)).bind ?_
  rintro loc _ rfl
  by_cases hd : p.numTiers ≤ dst
  · simp only [if_pos hd]
    exact .error _
  simp only [if_neg hd]
  by_cases hl : loc.tier = dst
  · simp only [if_pos hl]
    exact .ok ⟨rfl, h⟩
  simp only [if_neg hl]
  cases (p.tiers dst).freeSlots with
  | nil => exact .ok ⟨rfl, h⟩
  | cons slot slots => exact .ok ⟨rfl, hmove _ _⟩

end Twin

end BlockPool

/-! ## The tree's calls -/

namespace RadixTree

open BlockPool

variable {p q : BlockPool} {key : List TokenId → UInt64}

/-- The same value and tree, and twins. -/
def TreeTwins {α : Type} (r r' : α × RadixTree × BlockPool) : Prop :=
  r'.1 = r.1 ∧ r'.2.1 = r.2.1 ∧ Twin r.2.2 r'.2.2

theorem treeIsSoleOwner_twin (h : Twin p q) : ∀ ids : List BlockId,
    treeIsSoleOwner q ids = treeIsSoleOwner p ids
  | [] => rfl
  | id :: ids => by
    rw [treeIsSoleOwner, treeIsSoleOwner, treeIsSoleOwner_twin h ids, h.refcountOf]

theorem takeEligible_twin (h : Twin p q) (n before : Nat) : ∀ ids out : List BlockId,
    takeEligible q n before ids out = takeEligible p n before ids out
  | [], _ => rfl
  | id :: ids, out => by
    rw [takeEligible, takeEligible, h.blockTier, h.refcountOf, h.still.migrating,
      h.still_right.migrating]
    simp only [takeEligible_twin h n before ids]

theorem pickLoop_twin (h : Twin p q) (t : RadixTree) (n before : Nat) :
    ∀ (fuel : Nat) (rejected : List NodeId) (out : List BlockId),
      pickLoop t q n before fuel rejected out = pickLoop t p n before fuel rejected out := by
  intro fuel
  induction fuel with
  | zero =>
    intro rejected out
    unfold pickLoop
    cases t.findLruLeaf rejected <;> rfl
  | succ fuel ih =>
    intro rejected out
    unfold pickLoop
    cases t.findLruLeaf rejected with
    | none => rfl
    | some victim => simp only [takeEligible_twin h, ih]

theorem pick_twin (h : Twin p q) (t : RadixTree) (n : Nat) (out : List BlockId) :
    t.pickDemotionVictims q n out = t.pickDemotionVictims p n out :=
  pickLoop_twin h t n _ _ _ _

theorem decrefAll_twin : ∀ (ids : List BlockId) {p q : BlockPool}, Twin p q →
    Rel Twins (decrefAll ids p) (decrefAll ids q)
  | [], _, _, h => .ok ⟨rfl, h⟩
  | id :: ids, p, q, h => by
    unfold decrefAll
    refine (h.decref id).bind ?_
    rintro ⟨b, p₁⟩ ⟨b', q₁⟩ ⟨rfl, h₁⟩
    refine (decrefAll_twin ids h₁).bind ?_
    rintro ⟨n, p₂⟩ ⟨n', q₂⟩ ⟨rfl, h₂⟩
    exact .ok ⟨rfl, h₂⟩

theorem dropLeaf_twin (h : Twin p q) (t : RadixTree) (victim : Node) :
    Rel TreeTwins (t.dropLeaf key p victim) (t.dropLeaf key q victim) := by
  unfold dropLeaf
  refine (decrefAll_twin victim.blocks h).bind ?_
  rintro ⟨n, p₁⟩ ⟨n', q₁⟩ ⟨rfl, h₁⟩
  cases victim.parent with
  | none => exact .error _
  | some parent => exact .ok ⟨rfl, rfl, h₁⟩

theorem evictLoop_twin (numBlocks : Nat) : ∀ (fuel freed : Nat) (rejected : List NodeId)
    (t : RadixTree) {p q : BlockPool}, Twin p q →
    Rel TreeTwins (evictLoop key numBlocks fuel freed rejected t p)
      (evictLoop key numBlocks fuel freed rejected t q) := by
  intro fuel
  induction fuel with
  | zero =>
    intro freed rejected t p q h
    unfold evictLoop
    split
    · exact .ok ⟨rfl, rfl, h⟩
    · cases t.findLruLeaf rejected with
      | none => exact .ok ⟨rfl, rfl, h⟩
      | some victim => exact .error _
  | succ fuel ih =>
    intro freed rejected t p q h
    unfold evictLoop
    split
    · exact .ok ⟨rfl, rfl, h⟩
    · cases t.findLruLeaf rejected with
      | none => exact .ok ⟨rfl, rfl, h⟩
      | some victim =>
        simp only [treeIsSoleOwner_twin h]
        refine (Rel.refl (treeIsSoleOwner p victim.blocks)).bind ?_
        rintro sole _ rfl
        split
        · exact ih _ _ _ h
        · refine (dropLeaf_twin h t victim).bind ?_
          rintro ⟨n, t₁, p₁⟩ ⟨n', t₁', q₁⟩ ⟨rfl, rfl, h₁⟩
          simp only
          split
          · exact .error _
          · exact ih _ _ _ h₁

theorem evict_twin (h : Twin p q) (t : RadixTree) (n : Nat) :
    Rel TreeTwins (t.evict key p n) (t.evict key q n) :=
  evictLoop_twin n _ _ _ _ h

theorem insert_twin (h : Twin p q) (t : RadixTree) (tokens : List TokenId) (blocks : List BlockId) :
    Rel TreeTwins (t.insert key p tokens blocks) (t.insert key q tokens blocks) := by
  unfold insert
  refine (Rel.refl (t.runWalk key tokens _)).bind ?_
  rintro ⟨t₁, w⟩ _ rfl
  simp only
  split
  · exact .ok ⟨rfl, rfl, h⟩
  · split
    · exact .ok ⟨rfl, rfl, h⟩
    · refine (Rel.foldlM (fun _ _ id h => h.incref id) _ h).bind ?_
      intro p₁ q₁ h₁
      exact .ok ⟨rfl, rfl, h₁⟩

end RadixTree

/-! ## The manager's loops -/

namespace CacheManager

open BlockPool

variable {p q : BlockPool} {key : List TokenId → UInt64}

theorem cancelDemotions_still (h : p.Still) : ∀ ids : List BlockId, cancelDemotions ids p = .ok p
  | [] => rfl
  | id :: ids => by
    unfold cancelDemotions
    rw [h.migrating]
    exact cancelDemotions_still h ids

theorem cancelDemotions_twin (h : Twin p q) (ids : List BlockId) :
    Rel Twin (cancelDemotions ids p) (cancelDemotions ids q) := by
  rw [cancelDemotions_still h.still, cancelDemotions_still h.still_right]
  exact .ok h

theorem countPromotions_twin (h : Twin p q) : ∀ ids : List BlockId,
    countPromotions q ids = countPromotions p ids
  | [] => rfl
  | id :: ids => by
    rw [countPromotions, countPromotions, countPromotions_twin h ids, h.blockTier,
      h.still.migrating, h.still_right.migrating]

theorem moveWhile_twin {move : BlockPool → BlockId → Except Fault (Bool × BlockPool)}
    (hmove : ∀ p q id, Twin p q → Rel Twins (move p id) (move q id)) :
    ∀ (ids : List BlockId) {p q : BlockPool}, Twin p q →
      Rel Twins (moveWhile move ids p) (moveWhile move ids q)
  | [], _, _, h => .ok ⟨rfl, h⟩
  | id :: ids, p, q, h => by
    unfold moveWhile
    refine (hmove p q id h).bind ?_
    rintro ⟨b, p₁⟩ ⟨b', q₁⟩ ⟨rfl, h₁⟩
    simp only
    split
    · exact .ok ⟨rfl, h₁⟩
    · refine (moveWhile_twin hmove ids h₁).bind ?_
      rintro ⟨n, p₂⟩ ⟨n', q₂⟩ ⟨rfl, h₂⟩
      exact .ok ⟨rfl, h₂⟩

theorem dropRefs_twin : ∀ (ids : List BlockId) {p q : BlockPool}, Twin p q →
    Rel Twin (dropRefs ids p) (dropRefs ids q)
  | [], _, _, h => .ok h
  | id :: ids, p, q, h => by
    unfold dropRefs
    refine (h.decref id).bind ?_
    rintro ⟨b, p₁⟩ ⟨b', q₁⟩ ⟨rfl, h₁⟩
    exact dropRefs_twin ids h₁

end CacheManager

end KvsLab
