import KvsLab.RadixTree.References
import Mathlib.Data.List.Sort

/-!
# `pick_demotion_victims` takes the coldest eligible blocks

* `coldOrder` — the unpinned leaves in increasing order of access, the order the picker is meant to
  go through them; `demotionOrder` — their eligible blocks in that order.
* `Coldest.prefix` — the leaves the picker went through are the first of `coldOrder`.
* `TreeState.pick_exact` — in every reachable state the picker appends the first blocks of
  `demotionOrder`, as many as asked for or all of them.
-/

namespace KvsLab

open KeyedForest Transition

namespace RadixTree

variable {key : List TokenId → UInt64} {t : RadixTree} {p : BlockPool} {x y : Place}

/-- The childless nodes below the root that nobody pins. -/
def unpinnedLeaves (t : RadixTree) : List Place :=
  (t.children.leaves Ctx.push .top).filter fun x => x.2.lockCount == 0

/-- `x` was used no later than `y`. -/
def NoLater (x y : Place) : Prop := x.2.lastAccess ≤ y.2.lastAccess

instance : DecidableRel NoLater := fun x y =>
  inferInstanceAs (Decidable (x.2.lastAccess ≤ y.2.lastAccess))

instance : Std.Total NoLater := ⟨fun _ _ => Nat.le_total _ _⟩

instance : IsTrans Place NoLater := ⟨fun _ _ _ h h' => Nat.le_trans h h'⟩

/-- The unpinned leaves in increasing order of access. -/
def coldOrder (t : RadixTree) : List Place := t.unpinnedLeaves.insertionSort NoLater

/-- The eligible blocks, leaf by leaf in increasing order of access and in block order inside a
leaf. -/
def demotionOrder (t : RadixTree) (p : BlockPool) : List BlockId := eligibleOf p t.coldOrder

theorem mem_unpinnedLeaves :
    x ∈ t.unpinnedLeaves ↔ x ∈ t.children.leaves Ctx.push .top ∧ x.2.lockCount = 0 := by
  unfold unpinnedLeaves
  rw [List.mem_filter, beq_iff_eq]

theorem mem_coldOrder :
    x ∈ t.coldOrder ↔ x ∈ t.children.leaves Ctx.push .top ∧ x.2.lockCount = 0 := by
  unfold coldOrder
  rw [List.mem_insertionSort, mem_unpinnedLeaves]

theorem coldOrder_sorted (t : RadixTree) : t.coldOrder.Pairwise NoLater :=
  List.pairwise_insertionSort NoLater _

theorem WF.unpinnedLeaves_nodup (h : WF key t) : t.unpinnedLeaves.Nodup :=
  ((List.Nodup.of_map _ h.ids_nodup).sublist (leaves_sublist _ _)).filter _

theorem WF.coldOrder_nodup (h : WF key t) : t.coldOrder.Nodup :=
  (List.perm_insertionSort NoLater _).nodup_iff.mpr h.unpinnedLeaves_nodup

theorem WF.cold_of_nodup (h : WF key t) {xs : List Place} (hn : xs.Nodup)
    (hx : ∀ x ∈ xs, x ∈ t.children.leaves Ctx.push .top ∧ x.2.lockCount = 0) : ColdLeaves t xs := by
  refine ⟨hn.map_on fun x hxs y hys e => ?_, hx⟩
  exact place_inj h.ids_nodup (mem_places_of_mem_leaves (hx x hxs).1)
    (mem_places_of_mem_leaves (hx y hys).1) e

theorem WF.coldOrder_cold (h : WF key t) : ColdLeaves t t.coldOrder :=
  h.cold_of_nodup h.coldOrder_nodup fun _ => mem_coldOrder.mp

/-- Leaves of one access time are one leaf, so the order is strict. -/
theorem Stamped.coldOrder_strict (h : Stamped t) (hw : WF key t) :
    t.coldOrder.Pairwise fun x y => x.2.lastAccess < y.2.lastAccess := by
  have hne : t.coldOrder.Pairwise fun x y => x ≠ y := hw.coldOrder_nodup
  refine ((coldOrder_sorted t).and hne).imp_of_mem fun {x y} hx hy hxy => ?_
  have hle : x.2.lastAccess ≤ y.2.lastAccess := hxy.1
  refine Nat.lt_of_le_of_ne hle fun e => hxy.2 ?_
  exact h.inj (mem_places_of_mem_leaves (mem_coldOrder.mp hx).1)
    (mem_places_of_mem_leaves (mem_coldOrder.mp hy).1) e

/-- **The leaves used longest ago, in order, are the first of all unpinned leaves in order.** -/
theorem Coldest.prefix {xs : List Place} (h : Coldest t xs) (hs : Stamped t) (hw : WF key t) :
    xs <+: t.coldOrder := by
  let rest := (t.unpinnedLeaves.filter fun y => !(ids xs).contains y.2.id).insertionSort NoLater
  have hrest : ∀ y, y ∈ rest ↔ y ∈ t.unpinnedLeaves ∧ y.2.id ∉ ids xs := by
    intro y
    simp [rest, List.mem_filter]
  have hxs : xs.Nodup := List.Nodup.of_map _ h.nodup
  have hnodup : rest.Nodup :=
    (List.perm_insertionSort NoLater _).nodup_iff.mpr (hw.unpinnedLeaves_nodup.filter _)
  have hdis : xs.Disjoint rest := fun y h1 h2 => ((hrest y).mp h2).2 (mem_ids h1)
  have hperm : (xs ++ rest).Perm t.coldOrder := by
    refine (List.perm_ext_iff_of_nodup (List.nodup_append'.mpr ⟨hxs, hnodup, hdis⟩)
      hw.coldOrder_nodup).mpr fun y => ?_
    rw [List.mem_append, hrest, mem_coldOrder, mem_unpinnedLeaves]
    constructor
    · rintro (hy | hy)
      · exact h.leaf y hy
      · exact hy.1
    · intro hy
      by_cases hid : y.2.id ∈ ids xs
      · obtain ⟨z, hz, hzy⟩ := List.mem_map.mp hid
        have e := place_inj hw.ids_nodup (mem_places_of_mem_leaves (h.leaf z hz).1)
          (mem_places_of_mem_leaves hy.1) hzy
        exact .inl (e ▸ hz)
      · exact .inr ⟨hy, hid⟩
  have hsorted : (xs ++ rest).Pairwise NoLater := by
    refine List.pairwise_append.mpr ⟨h.sorted, List.pairwise_insertionSort NoLater _, ?_⟩
    intro x hx y hy
    obtain ⟨hy, hid⟩ := (hrest y).mp hy
    obtain ⟨hleaf, h0⟩ := mem_unpinnedLeaves.mp hy
    exact h.least y hleaf h0 hid x hx
  -- two orders of the same leaves agree, since no two have one access time
  have hanti : ∀ a b, a ∈ xs ++ rest → b ∈ t.coldOrder → NoLater a b → NoLater b a → a = b := by
    intro a b ha hb hab hba
    exact hs.inj (mem_places_of_mem_leaves (mem_coldOrder.mp (hperm.mem_iff.mp ha)).1)
      (mem_places_of_mem_leaves (mem_coldOrder.mp hb).1) (Nat.le_antisymm hab hba)
  exact ⟨rest, hperm.eq_of_pairwise hanti hsorted (coldOrder_sorted t)⟩

/-- **The picker takes the coldest eligible blocks.** -/
theorem pickDemotionVictims_eq (hw : WF key t) (hs : Stamped t)
    (hal : ∀ b ∈ blocksOf t.places, b < p.numBlocks ∧ p.refcount b ≠ 0) (n : Nat)
    (out : List BlockId) :
    t.pickDemotionVictims p n out = .ok (out ++ (t.demotionOrder p).take n) := by
  obtain ⟨xs, he, hxs, hall⟩ := pickDemotionVictims_spec hal n out
  obtain ⟨rest, hrest⟩ := hxs.prefix hs hw
  have hord : t.demotionOrder p = eligibleOf p xs ++ eligibleOf p rest := by
    unfold demotionOrder eligibleOf
    rw [← hrest, List.flatMap_append]
  rw [he, hord]
  by_cases hlt : (eligibleOf p xs).length < n
  · -- every unpinned leaf was gone through
    have hnil : rest = [] := by
      refine List.eq_nil_iff_forall_not_mem.mpr fun y hy => ?_
      have hyc : y ∈ t.coldOrder := hrest ▸ List.mem_append_right _ hy
      obtain ⟨hleaf, h0⟩ := mem_coldOrder.mp hyc
      obtain ⟨z, hz, hzy⟩ := List.mem_map.mp (hall hlt y hleaf h0)
      have e := place_inj hw.ids_nodup (mem_places_of_mem_leaves (hxs.leaf z hz).1)
        (mem_places_of_mem_leaves hleaf) hzy
      have hnd := hw.coldOrder_nodup
      rw [← hrest] at hnd
      exact (List.nodup_append'.mp hnd).2.2 (e ▸ hz) hy
    rw [hnil]
    simp [eligibleOf]
  · rw [List.take_append_of_le_length (Nat.not_lt.mp hlt)]

end RadixTree

open RadixTree

namespace TreeState

variable {key : List TokenId → UInt64} {s : TreeState}

/-- **`pick_demotion_victims` appends exactly the coldest eligible blocks**, in every state reached
with respect for the tree's references whose tree stores no block twice. -/
theorem pick_exact {cfg : CacheConfig} {specs : List TierSpec} {mem : Arena.Mem TierIndex UInt8}
    {p₀ : BlockPool} {bt : Nat} {t₀ : RadixTree} {tr : List TreeOp}
    (hp : BlockPool.init cfg specs mem = .ok p₀) (h0 : RadixTree.create bt = .ok t₀)
    (hrun : Run (OwnedStep key) { tree := t₀, pool := p₀ } tr s)
    (hnd : (blocksOf s.tree.places).Nodup) (n : Nat) (out : List BlockId) :
    -- the order of the leaves, and the blocks that count
    ((∀ x, x ∈ s.tree.coldOrder ↔
        x ∈ s.tree.children.leaves Ctx.push .top ∧ x.2.lockCount = 0) ∧
      s.tree.coldOrder.Pairwise (fun x y => x.2.lastAccess < y.2.lastAccess) ∧
      s.tree.demotionOrder s.pool = s.tree.coldOrder.flatMap fun x => x.2.blocks.filter fun b =>
        (s.pool.location b).tier == 0 && s.pool.refcount b == 1 && !s.pool.migrating b) ∧
    -- what the call appends
    ∃ out', s.tree.pickDemotionVictims s.pool n out = .ok out' ∧
      out' = out ++ (s.tree.demotionOrder s.pool).take n ∧
      out'.length - out.length = min n (s.tree.demotionOrder s.pool).length ∧
      ((s.tree.demotionOrder s.pool).take n).Nodup ∧
      ∀ s', Step key s (.pickDemotionVictims n out) s' ↔ s' = s := by
  obtain ⟨hsound, hheld⟩ := owned_reach hp h0 hrun
  have hpick := pickDemotionVictims_eq (p := s.pool) hsound.wf hsound.stamped
    (fun b hb => ⟨hsound.range b hb, hheld.allocated hb⟩) n out
  refine ⟨⟨fun x => mem_coldOrder, hsound.stamped.coldOrder_strict hsound.wf, rfl⟩,
    _, hpick, rfl, ?_, ?_, fun s' => ?_⟩
  · rw [List.length_append, List.length_take, Nat.add_sub_cancel_left]
  · exact (eligibleOf_nodup hnd hsound.wf.coldOrder_cold).sublist (List.take_sublist _ _)
  · show (s.tree.pickDemotionVictims s.pool n out).toOption.map (fun _ => s) = some s' ↔ _
    rw [hpick]
    exact ⟨fun h => (Option.some.inj h).symm, fun h => congrArg some h.symm⟩

/-- Three compute blocks and a spill block. -/
def threeSpecs : List TierSpec := [⟨some ⟨4096, true⟩, 3⟩, ⟨some ⟨4096, true⟩, 1⟩]

/-- Two leaves; a block of the colder one is on its way to the second tier. -/
def migratingTrace : List TreeOp :=
  [.pool .allocate, .pool .allocate, .pool .allocate, .insert [1, 2, 3, 4] [0, 1],
    .insert [5, 6] [2], .pool (.decref 0), .pool (.decref 1), .pool (.decref 2),
    .pool (.migrateAsync 0 1)]

/-- The picker skips the block in flight and goes on into the next leaf. -/
theorem pick_exact_migrating : ∃ p₀ t₀ s,
    BlockPool.init BlockPool.smallConfig threeSpecs (fun _ _ => 0) = .ok p₀ ∧
    RadixTree.create 2 = .ok t₀ ∧
    Run (OwnedStep fun l => if l = [1, 2] then 1 else 0) { tree := t₀, pool := p₀ } migratingTrace
      s ∧
    s.tree.demotionOrder s.pool = [1, 2] ∧
    s.tree.pickDemotionVictims s.pool 2 [7] = .ok [7, 1, 2] := by
  have h : ((BlockPool.init BlockPool.smallConfig threeSpecs fun _ _ => 0).toOption.bind
      fun p => (RadixTree.create 2).toOption.bind fun t =>
        (exec (ownedNext fun l => if l = [1, 2] then 1 else 0) { tree := t, pool := p }
          migratingTrace).map fun s => (blocksOf s.tree.places, s.tree.demotionOrder s.pool)) =
        some ([2, 0, 1], [1, 2]) := by
    decide +kernel
  obtain ⟨p, hp, h⟩ := Option.bind_eq_some_iff.mp h
  obtain ⟨t, ht, h⟩ := Option.bind_eq_some_iff.mp h
  obtain ⟨s, hs, h⟩ := Option.map_eq_some_iff.mp h
  obtain ⟨hblocks, hord⟩ := Prod.mk.inj h
  have hrun := run_of_exec hs
  have h0 := BlockPool.toOption_eq_some ht
  have hp0 := BlockPool.toOption_eq_some hp
  have hnd : (blocksOf s.tree.places).Nodup := by
    rw [hblocks]
    decide
  obtain ⟨-, out', he, hout, -⟩ := pick_exact hp0 h0 hrun hnd 2 [7]
  rw [hout, hord] at he
  exact ⟨p, t, s, hp0, h0, hrun, hord, he⟩

end TreeState

end KvsLab
