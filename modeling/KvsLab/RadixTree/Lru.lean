import KvsLab.BlockPool.Placement
import KvsLab.RadixTree.AccessTimes
import KvsLab.RadixTree.Operations

/-!
# `evict` is exact LRU over the reclaimable leaves

* `Lru` — a leaf is the reclaimable one with the smallest access time; `evictLoop_lru` — the loop
  drops such leaves only, and stops as soon as it may.
* `TreeState.evict_exact` — the whole contract of `evict` in every reachable tree.
-/

namespace KvsLab

open KeyedForest Transition

namespace RadixTree

variable {key : List TokenId → UInt64} {t t' : RadixTree} {p p' : BlockPool} {x : Place}

/-! ## Eviction -/

/-- A childless, unpinned node that the tree alone owns. -/
structure Reclaimable (t : RadixTree) (p : BlockPool) (x : Place) : Prop where
  leaf : x ∈ t.children.leaves Ctx.push .top
  unpinned : x.2.lockCount = 0
  sole : ∀ b ∈ x.2.blocks, p.refcount b = 1

/-- The reclaimable node with the smallest access time. -/
structure Lru (t : RadixTree) (p : BlockPool) (x : Place) : Prop where
  reclaimable : Reclaimable t p x
  least : ∀ y, Reclaimable t p y → y ≠ x → x.2.lastAccess < y.2.lastAccess

/-- What the eviction loop relies on: every block is stored once and in the pool's range. -/
structure Evictable (key : List TokenId → UInt64) (t : RadixTree) (p : BlockPool) : Prop where
  wf : WF key t
  stamped : Stamped t
  nodup : (blocksOf t.places).Nodup
  range : ∀ b ∈ blocksOf t.places, b < p.numBlocks
  placed : p.Placed

/-- Leaves the loop passed over: distinct nodes of the tree that somebody else holds a block
of. -/
structure Rejected (t : RadixTree) (p : BlockPool) (rs : List Place) : Prop where
  nodup : (ids rs).Nodup
  held : ∀ y ∈ rs, y ∈ t.places ∧ ∃ b ∈ y.2.blocks, p.refcount b ≠ 1

/-- A node not passed over yet leaves room for one more. -/
theorem Rejected.length_lt {rs : List Place} (h : Rejected t p rs) (hx : x ∈ t.places)
    (hnew : x.2.id ∉ ids rs) : rs.length < t.children.size := by
  have hsub : x.2.id :: ids rs ⊆ ids t.places := by
    intro i hi
    rcases List.mem_cons.mp hi with rfl | hi
    · exact mem_ids hx
    · obtain ⟨y, hy, rfl⟩ := List.mem_map.mp hi
      exact mem_ids (h.held y hy).1
  have hle := ids_length_le (List.nodup_cons.mpr ⟨hnew, h.nodup⟩) hsub
  rwa [List.length_cons, length_ids] at hle

theorem Rejected.snoc {rs : List Place} (h : Rejected t p rs) (hx : x ∈ t.places)
    (hnew : x.2.id ∉ ids rs) (hheld : ∃ b ∈ x.2.blocks, p.refcount b ≠ 1) :
    Rejected t p (rs ++ [x]) := by
  constructor
  · unfold ids
    rw [List.map_append, List.nodup_append']
    refine ⟨h.nodup, List.nodup_singleton _, fun i h1 h2 => ?_⟩
    have h3 : i = x.2.id := List.mem_singleton.mp h2
    exact hnew (h3 ▸ h1)
  · intro y hy
    rcases List.mem_append.mp hy with hy | hy
    · exact h.held y hy
    · rw [List.mem_singleton.mp hy]
      exact ⟨hx, hheld⟩

/-- A reclaimable node has not been passed over. -/
theorem Rejected.notMem {rs : List Place} (h : Rejected t p rs) (hw : WF key t)
    (hx : Reclaimable t p x) : x.2.id ∉ ids rs := by
  intro hm
  obtain ⟨y, hy, hid⟩ := List.mem_map.mp hm
  obtain ⟨hyt, b, hb, hne⟩ := h.held y hy
  have e : y = x := place_inj hw.ids_nodup hyt (mem_places_of_mem_leaves hx.leaf) hid
  exact hne (hx.sole b (e ▸ hb))

/-- Dropping a reclaimable leaf frees exactly its blocks, and the rest stays as it was. -/
theorem Evictable.drop (h : Evictable key t p) (hx : Reclaimable t p x) :
    decrefAll x.2.blocks p = .ok (x.2.blocks.length, p.releaseAll x.2.blocks) ∧
      BlockPool.Frees x.2.blocks p (p.releaseAll x.2.blocks) ∧
      Evictable key (t.without key x) (p.releaseAll x.2.blocks) ∧
      LeafPlaces x t.places (t.without key x).places ∧
      ∀ y ∈ (t.without key x).places, ∀ b ∈ y.2.blocks,
        (p.releaseAll x.2.blocks).refcount b = p.refcount b := by
  obtain ⟨hw, hlp, -⟩ := h.wf.without hx.leaf
  have hxp : x ∈ t.places := mem_places_of_mem_leaves hx.leaf
  have hperm := hlp.blocksOf
  obtain ⟨hnx, hnt, hdis⟩ := List.nodup_append'.mp (hperm.nodup_iff.mp h.nodup)
  have hf : BlockPool.Frees x.2.blocks p (p.releaseAll x.2.blocks) := h.placed.frees
  refine ⟨decrefAll_ones hnx fun b hb => ⟨h.range b (mem_blocksOf hxp hb), hx.sole b hb⟩, hf,
    ⟨hw, h.stamped.sub (show t.places.Perm ([x] ++ _) from hlp.perm) rfl, hnt, fun b hb => ?_,
      hf.placed⟩, hlp, ?_⟩
  · rw [hf.numBlocks]
    exact h.range b (hperm.mem_iff.mpr (List.mem_append_right _ hb))
  · intro y hy b hb
    exact hf.other b fun hm => hdis hm (mem_blocksOf hy hb)

theorem Rejected.drop {rs : List Place} (h : Rejected t p rs) (he : Evictable key t p)
    (hx : Reclaimable t p x) :
    Rejected (t.without key x) (p.releaseAll x.2.blocks) rs := by
  obtain ⟨-, -, -, hlp, hsame⟩ := he.drop hx
  refine ⟨h.nodup, fun y hy => ?_⟩
  obtain ⟨hyt, b, hb, hne⟩ := h.held y hy
  have hy' : y ∈ (t.without key x).places := by
    rcases hlp.mem hyt with rfl | hy'
    · exact absurd (hx.sole b hb) hne
    · exact hy'
  exact ⟨hy', b, hb, by rwa [hsame y hy' b hb]⟩

/-- **The loop of `evict`** drops the least recently used reclaimable leaf until enough is freed or
none is left. -/
theorem evictLoop_lru (n : Nat) : ∀ (fuel freed : Nat) (rs : List Place) (t : RadixTree)
    (p : BlockPool), Evictable key t p → Rejected t p rs → t.children.size ≤ fuel + rs.length →
    ∃ xs t' p', evictLoop key n fuel freed (ids rs) t p =
        .ok (freed + (blocksOf xs).length, t', p') ∧
      Dropped key Lru t p xs t' p' ∧
      (∀ ys x, xs = ys ++ [x] → freed + (blocksOf ys).length < n) ∧
      (freed + (blocksOf xs).length < n → ∀ y, ¬ Reclaimable t' p' y)
  | fuel, freed, rs, t, p, he, hrs, hfuel => by
    unfold evictLoop
    split
    · rename_i hle
      refine ⟨[], t, p, rfl, .nil, fun ys x hnil => ?_, fun hlt => ?_⟩
      · simp at hnil
      · have hlt : freed + 0 < n := hlt
        omega
    rename_i hlt
    cases hv : t.findLruLeaf (ids rs) with
    | none =>
      refine ⟨[], t, p, rfl, .nil, fun ys x hnil => ?_, fun _ y hy => ?_⟩
      · simp at hnil
      · rcases findLruLeaf_none hv y hy.leaf with h' | h'
        · exact h' hy.unpinned
        · exact hrs.notMem he.wf hy h'
    | some v =>
      obtain ⟨s, hx, hl, hnew⟩ := findLruLeaf_some hv
      have hxp : (s, v) ∈ t.places := mem_places_of_mem_leaves hx
      have hsole := treeIsSoleOwner_spec (p := p) fun b hb => he.range b (mem_blocksOf hxp hb)
      have hroom : rs.length < t.children.size := hrs.length_lt hxp hnew
      obtain ⟨fuel, rfl⟩ : ∃ k, fuel = k + 1 := ⟨fuel - 1, by omega⟩
      by_cases hown : ∀ b ∈ v.blocks, p.refcount b = 1
      · rw [decide_eq_true hown] at hsole
        -- the victim is the least recently used of all reclaimable leaves
        have hrec : Reclaimable t p (s, v) := ⟨hx, hl, hown⟩
        have hlru : Lru t p (s, v) := by
          refine ⟨hrec, fun y hy hne => ?_⟩
          have hle := findLruLeaf_least hv hy.leaf hy.unpinned (hrs.notMem he.wf hy)
          refine Nat.lt_of_le_of_ne hle fun e => hne ?_
          exact (he.stamped.inj hxp (mem_places_of_mem_leaves hy.leaf) e).symm
        obtain ⟨hdec, -, he', -, -⟩ := he.drop hrec
        have hsize := (he.wf.without hx).2.2
        obtain ⟨xs, t', p', hrun, hdrop, hlast, hend⟩ := evictLoop_lru n fuel
          (freed + v.blocks.length) rs _ _ he' (hrs.drop he hrec) (by omega)
        have hpos : 0 < v.blocks.length := (he.wf.nodes _ hxp).blocks_pos
        have hlen : ∀ ys, freed + (blocksOf ((s, v) :: ys)).length =
            freed + v.blocks.length + (blocksOf ys).length := fun ys => by
          rw [show blocksOf ((s, v) :: ys) = v.blocks ++ blocksOf ys from List.flatMap_cons,
            List.length_append, Nat.add_assoc]
        refine ⟨(s, v) :: xs, t', p', ?_, .cons hx hl hlru hdec hdrop, ?_, ?_⟩
        · rw [hlen, ← hrun]
          have hd := he.wf.dropLeaf_eq hxp p
          rw [hdec] at hd
          simp only [hsole, hd, Except.map]
          show (if v.blocks.length = 0 then _ else _) = _
          rw [if_neg (by omega)]
        · intro ys x hys
          cases ys with
          | nil => simpa [blocksOf] using Nat.lt_of_not_le hlt
          | cons y ys =>
            rw [List.cons_append, List.cons.injEq] at hys
            rw [← hys.1, hlen]
            exact hlast ys x hys.2
        · rw [hlen]
          exact hend
      · rw [decide_eq_false hown] at hsole
        -- somebody else holds one of the blocks
        have hheld : ∃ b ∈ v.blocks, p.refcount b ≠ 1 := by
          by_contra hno
          exact hown fun b hb => by_contra fun hne => hno ⟨b, hb, hne⟩
        have hrs' := hrs.snoc (x := (s, v)) hxp hnew hheld
        obtain ⟨xs, t', p', hrun, hrest⟩ := evictLoop_lru n fuel freed (rs ++ [(s, v)]) t p he hrs'
          (by rw [List.length_append, List.length_singleton]; omega)
        refine ⟨xs, t', p', ?_, hrest⟩
        have hids : ids rs ++ [v.id] = ids (rs ++ [(s, v)]) := by simp [ids]
        simp only [hsole]
        show evictLoop key n fuel freed (ids rs ++ [v.id]) t p = _
        rw [hids]
        exact hrun

/-- The blocks of the dropped leaves are on the free lists. -/
theorem Dropped.frees {xs : List Place} (h : Dropped key Lru t p xs t' p')
    (he : Evictable key t p) :
    p'.freeIds.length = p.freeIds.length + (blocksOf xs).length ∧
      p'.totalFree = p.totalFree + (blocksOf xs).length := by
  induction h with
  | nil => exact ⟨rfl, rfl⟩
  | cons hx h0 hQ hd _ ih =>
    obtain ⟨hdec, hf, he', -, -⟩ := he.drop hQ.reclaimable
    cases hd.symm.trans hdec
    obtain ⟨h1, h2⟩ := ih he'
    unfold blocksOf at h1 h2 ⊢
    rw [List.flatMap_cons, List.length_append, h1, h2, hf.freeIds, hf.totalFree]
    omega

end RadixTree

open RadixTree

namespace TreeState

variable {key : List TokenId → UInt64} {s s' : TreeState} {op : TreeOp}

/-- What eviction needs beside the representation invariant. -/
structure Sound (key : List TokenId → UInt64) (s : TreeState) : Prop extends Inv key s where
  stamped : Stamped s.tree
  range : ∀ b ∈ blocksOf s.tree.places, b < s.pool.numBlocks
  placed : s.pool.Placed

/-- Blocks given back, freed or not, keep the pool's shape. -/
theorem decrefAll_placed {l : List BlockId} {p p' : BlockPool} {r : Nat}
    (he : decrefAll l p = .ok (r, p')) (h : p.Placed) :
    p'.Placed ∧ p'.numBlocks = p.numBlocks := by
  refine decrefAll_keeps (I := fun q => q.Placed ∧ q.numBlocks = p.numBlocks) ?_ he ⟨h, rfl⟩
  intro q q' b f hq hd
  have hstep := BlockPool.decref_step hd
  exact ⟨hq.1.next hstep, (BlockPool.SameShape.next hstep).numBlocks.trans hq.2⟩

theorem dropped_placed {Q : RadixTree → BlockPool → Place → Prop} {t t' : RadixTree}
    {p p' : BlockPool} {xs : List Place} (h : Dropped key Q t p xs t' p') (hp : p.Placed) :
    p'.Placed ∧ p'.numBlocks = p.numBlocks := by
  induction h with
  | nil => exact ⟨hp, rfl⟩
  | cons _ _ _ hd _ ih =>
    obtain ⟨h1, h2⟩ := decrefAll_placed hd hp
    obtain ⟨h3, h4⟩ := ih h1
    exact ⟨h3, h4.trans h2⟩

theorem Sound.insert (h : Sound key s) {tokens : List TokenId} {blocks : List BlockId} {n : Nat}
    {t' : RadixTree} {p' : BlockPool}
    (he : s.tree.insert key s.pool tokens blocks = .ok (n, t', p')) :
    Stamped t' ∧ (∀ b ∈ blocksOf t'.places, b < p'.numBlocks) ∧ p'.Placed := by
  obtain ⟨t₁, w, hrw, hf, hend⟩ := h.wf.insert_cases s.pool tokens blocks rfl
  have hr := hf.reshaped
  have hst := h.stamped.runWalk hrw
  rcases hend with ⟨-, he'⟩ | ⟨-, -, he'⟩ | ⟨-, -, x, t₂, hg, hx, hc, -, he'⟩
  · cases he.symm.trans he'
    refine ⟨hst.touch hr.wf _, fun b hb => h.range b ?_, h.placed⟩
    rwa [(hr.trans (hr.wf.touch _)).blocksOf] at hb
  · cases he.symm.trans he'
    refine ⟨⟨hst.nodup, hst.le⟩, fun b hb => h.range b ?_, h.placed⟩
    rwa [(hr.trans hr.wf.collided).blocksOf] at hb
  · obtain ⟨q, hq, e⟩ := map_ok (he'.symm.trans he)
    cases e
    obtain ⟨hlt, hpool, -⟩ := BlockPool.increfAll_ok hq
    refine ⟨hst.grown hg.leaf.perm hx hc, fun b hb => ?_, ?_⟩
    · rw [hpool]
      rcases List.mem_append.mp (hg.leaf.blocksOf.mem_iff.mp hb) with hb | hb
      · exact hlt b hb
      · exact h.range b (by rwa [hr.blocksOf] at hb)
    · rw [hpool]
      exact ⟨h.placed.tiers, h.placed.location, h.placed.jobs⟩

theorem Sound.next (h : Sound key s) (hstep : Step key s op s') : Sound key s' := by
  have hinv := h.toInv.next hstep
  have hends := step_ends hstep
  cases op with
  | matchPrefix tokens =>
    obtain ⟨r, t', he, rfl⟩ := hends
    obtain ⟨r', t₁, he', hm⟩ := h.wf.matchPrefix tokens
    cases he.symm.trans he'
    refine ⟨hinv, ?_, fun b hb => h.range b ?_, h.placed⟩
    · obtain ⟨w, hq⟩ := matchPrefix_walk he
      exact h.stamped.runWalk hq
    · rwa [show blocksOf t'.places = _ from hm.reshaped.blocksOf] at hb
  | insert tokens blocks =>
    obtain ⟨n, t', p', he, rfl⟩ := hends
    obtain ⟨h1, h2, h3⟩ := h.insert he
    exact ⟨hinv, h1, h2, h3⟩
  | evict numBlocks =>
    obtain ⟨n, t', p', he, rfl⟩ := hends
    obtain ⟨xs, hxs⟩ := evict_dropped h.wf he
    obtain ⟨-, hperm, -, hc⟩ := hxs.wf h.wf
    obtain ⟨hp, hn⟩ := dropped_placed hxs h.placed
    refine ⟨hinv, h.stamped.sub hperm hc, fun b hb => ?_, hp⟩
    have hmem : b ∈ blocksOf (xs ++ t'.places) := by
      unfold blocksOf
      rw [List.flatMap_append]
      exact List.mem_append_right _ hb
    rw [hn]
    exact h.range b ((hperm.flatMap_right fun x => x.2.blocks).mem_iff.mpr hmem)
  | pickDemotionVictims numSlots out =>
    rw [show s' = s from hends]
    exact h
  | lock node =>
    obtain ⟨hn, t', he, rfl⟩ := hends
    obtain ⟨x, hx, rfl⟩ := List.mem_map.mp hn
    cases he.symm.trans (lock_eq h.wf.linked hx)
    refine ⟨hinv, h.stamped.mapPath incLock_keeps (fun _ => rfl) _, fun b hb => h.range b ?_,
      h.placed⟩
    rwa [(h.wf.mapPath incLock_keeps (fun _ => rfl) _).blocksOf] at hb
  | unlock node =>
    obtain ⟨hn, t', he, rfl⟩ := hends
    obtain ⟨x, hx, rfl⟩ := List.mem_map.mp (h.pins node hn)
    have hu := (unlock_spec h.wf.linked hx (h.lockOK.perm (List.perm_cons_erase hn))).1
    cases he.symm.trans hu
    refine ⟨hinv, h.stamped.mapPath decLock_keeps (fun _ => rfl) _, fun b hb => h.range b ?_,
      h.placed⟩
    rwa [(h.wf.mapPath decLock_keeps (fun _ => rfl) _).blocksOf] at hb
  | pool op =>
    obtain ⟨p, hp, rfl⟩ := hends
    refine ⟨hinv, h.stamped, fun b hb => ?_, h.placed.next hp⟩
    rw [(BlockPool.SameShape.next hp).numBlocks]
    exact h.range b hb

theorem sound_reach {cfg : CacheConfig} {specs : List TierSpec} {mem : Arena.Mem TierIndex UInt8}
    {p₀ : BlockPool} {bt : Nat} {t₀ : RadixTree} {tr : List TreeOp}
    (hp : BlockPool.init cfg specs mem = .ok p₀) (h0 : RadixTree.create bt = .ok t₀)
    (hrun : Run (Step key) { tree := t₀, pool := p₀ } tr s) : Sound key s := by
  obtain ⟨-, hnil⟩ : WF key t₀ ∧ t₀.places = [] := create_wf h0
  refine hrun.invariant (fun s op s' h he => h.next he) ⟨reach h0 .nil, ⟨?_, ?_⟩, ?_, ?_⟩
  · show (t₀.places.map _).Nodup
    rw [hnil]
    exact List.nodup_nil
  · intro x (hx : x ∈ t₀.places)
    rw [hnil] at hx
    cases hx
  · intro b (hb : b ∈ blocksOf t₀.places)
    rw [hnil] at hb
    cases hb
  · exact BlockPool.init_placed hp

/-- **`evict` is exact LRU over the reclaimable leaves**, in every reachable tree that stores no
block twice, whatever is pinned and whoever else holds its blocks.  `xs` are the dropped nodes in
order. -/
theorem evict_exact {cfg : CacheConfig} {specs : List TierSpec} {mem : Arena.Mem TierIndex UInt8}
    {p₀ : BlockPool} {bt : Nat} {t₀ : RadixTree} {tr : List TreeOp}
    (hp : BlockPool.init cfg specs mem = .ok p₀) (h0 : RadixTree.create bt = .ok t₀)
    (hrun : Run (Step key) { tree := t₀, pool := p₀ } tr s)
    (hnd : (blocksOf s.tree.places).Nodup) (n : Nat) :
    ∃ r t' p' xs, s.tree.evict key s.pool n = .ok (r, t', p') ∧
      Dropped key Lru s.tree s.pool xs t' p' ∧ s.tree.places.Perm (xs ++ t'.places) ∧
      r = (blocksOf xs).length ∧ t'.storedBlocks + r = s.tree.storedBlocks ∧
      p'.totalFree = s.pool.totalFree + r ∧ p'.freeIds.length = s.pool.freeIds.length + r ∧
      (∀ ys x, xs = ys ++ [x] → r - x.2.blocks.length < n) ∧
      (r < n → ∀ y, ¬ Reclaimable t' p' y) := by
  have h := sound_reach hp h0 hrun
  have he : Evictable key s.tree s.pool := ⟨h.wf, h.stamped, hnd, h.range, h.placed⟩
  obtain ⟨xs, t', p', hev, hdrop, hlast, hend⟩ := evictLoop_lru n s.tree.children.size 0 [] s.tree
    s.pool he ⟨List.nodup_nil, fun y hy => (by cases hy)⟩ (Nat.le_refl _)
  rw [Nat.zero_add] at hev hend
  obtain ⟨hw', hperm, -, -⟩ := hdrop.wf h.wf
  obtain ⟨hids, hslots⟩ := hdrop.frees he
  refine ⟨_, t', p', xs, hev, hdrop, hperm, rfl, ?_, hslots, hids, fun ys x hxs => ?_, hend⟩
  · have hlen := (hperm.flatMap_right fun x => x.2.blocks).length_eq
    rw [List.flatMap_append, List.length_append] at hlen
    rw [hw'.storedBlocks, h.wf.storedBlocks]
    unfold blocksOf
    omega
  · have hlt := hlast ys x hxs
    have hlen : (blocksOf xs).length = (blocksOf ys).length + x.2.blocks.length := by
      rw [hxs]
      simp [blocksOf]
    omega

/-- Two leaves; the one used longer ago is held by somebody else. -/
def heldTrace : List TreeOp :=
  [.pool .allocate, .pool .allocate, .insert [1, 2] [0], .insert [3, 4] [1], .pool (.decref 1)]

/-- Eviction passes over the held leaf and drops the other one. -/
theorem evict_exact_held : ∃ p₀ t₀ s t' p' xs,
    BlockPool.init BlockPool.smallConfig BlockPool.smallSpecs (fun _ _ => 0) = .ok p₀ ∧
    RadixTree.create 2 = .ok t₀ ∧
    Run (Step fun l => if l = [1, 2] then 1 else 0) { tree := t₀, pool := p₀ } heldTrace s ∧
    s.tree.evict (fun l => if l = [1, 2] then 1 else 0) s.pool 2 = .ok (1, t', p') ∧
    Dropped (fun l => if l = [1, 2] then 1 else 0) Lru s.tree s.pool xs t' p' ∧
    p'.totalFree = s.pool.totalFree + 1 ∧ ∀ y, ¬ Reclaimable t' p' y := by
  have h : ((BlockPool.init BlockPool.smallConfig BlockPool.smallSpecs fun _ _ => 0).toOption.bind
      fun p => (RadixTree.create 2).toOption.bind fun t =>
        (exec (next fun l => if l = [1, 2] then 1 else 0) { tree := t, pool := p } heldTrace).map
          fun s => (blocksOf s.tree.places,
            (s.tree.evict (fun l => if l = [1, 2] then 1 else 0) s.pool 2).toOption.map (·.1))) =
        some ([1, 0], some 1) := by
    decide +kernel
  obtain ⟨p, hp, h⟩ := Option.bind_eq_some_iff.mp h
  obtain ⟨t, ht, h⟩ := Option.bind_eq_some_iff.mp h
  obtain ⟨s, hs, h⟩ := Option.map_eq_some_iff.mp h
  obtain ⟨hblocks, hr⟩ := Prod.mk.inj h
  have hrun := run_of_exec hs
  have h0 := BlockPool.toOption_eq_some ht
  have hp0 := BlockPool.toOption_eq_some hp
  have hnd : (blocksOf s.tree.places).Nodup := by
    rw [hblocks]
    decide
  obtain ⟨r, t', p', xs, he, hdrop, -, -, -, hfree, -, -, hend⟩ := evict_exact hp0 h0 hrun hnd 2
  rw [he] at hr
  cases hr
  exact ⟨p, t, s, t', p', xs, hp0, h0, hrun, he, hdrop, hfree, hend (by decide)⟩

end TreeState

end KvsLab
