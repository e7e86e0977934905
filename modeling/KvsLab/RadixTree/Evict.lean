import KvsLab.RadixTree.Insert
import KvsLab.BlockPool.Blocks
import KvsLab.Lib.Lockstep

/-!
# `evict` and `pick_demotion_victims` on a well-formed tree

* `lruScan_spec` — the scan returns a candidate leaf, and nothing only when there is none;
  `lruScan_least` — of the candidates it is the one with the smallest access time.
* `Pruned t D t'` — `t'` is `t` without the entries `D`, all of them unpinned; pins and the paths
  of pinned nodes stay.
* `WF.evict` — when the tree is the sole owner of its blocks, `evict n` returns, frees exactly
  the blocks it drops, and stops short of `n` only when every leaf left is pinned.
-/

namespace KvsLab

open KeyedForest Lockstep

namespace RadixTree

variable {key : List TokenId → UInt64} {t t' : RadixTree} {p : BlockPool} {x : Place}

/-! ## The scan -/

theorem better_cases (best : Option Node) (n : Node) :
    better best n = best ∨ better best n = some n := by
  unfold better
  split
  · exact .inr rfl
  · split
    · exact .inr rfl
    · exact .inl rfl

theorem better_ne_none (best : Option Node) (n : Node) : better best n ≠ none := by
  unfold better
  split
  · exact nofun
  · split <;> exact nofun

/-- The scan returns a candidate leaf or the best it came with, and nothing only when there is
no candidate. -/
theorem lruScan_spec (rejected : List NodeId) : ∀ (f : Children) (s : Ctx) (best : Option Node),
    (∀ v, lruScan rejected f best = some v →
      best = some v ∨ ∃ s', (s', v) ∈ f.leaves Ctx.push s ∧ candidate rejected v = true) ∧
    (lruScan rejected f best = none →
      best = none ∧ ∀ x ∈ f.leaves Ctx.push s, candidate rejected x.2 = false)
  | .nil, s, best => ⟨fun _ h => .inl h, fun h => ⟨h, nofun⟩⟩
  | .cons k n c r, s, best => by
    obtain ⟨hr1, hr2⟩ := lruScan_spec rejected r s best
    generalize hb : lruScan rejected r best = b₁ at hr1 hr2
    have hmid : ∃ b₂, (if c.isNil && candidate rejected n then better b₁ n else b₁) = b₂ := ⟨_, rfl⟩
    obtain ⟨b₂, hb₂⟩ := hmid
    obtain ⟨hc1, hc2⟩ := lruScan_spec rejected c (s.push n) b₂
    have hscan : lruScan rejected (.cons k n c r) best = lruScan rejected c b₂ := by
      simp only [lruScan, hb, hb₂]
    have hmem : ∀ y, y ∈ (KeyedForest.cons k n c r).leaves Ctx.push s ↔
        (c.isNil = true ∧ y = (s, n)) ∨ y ∈ c.leaves Ctx.push (s.push n) ∨
          y ∈ r.leaves Ctx.push s := by
      intro y
      simp only [KeyedForest.leaves, List.mem_append]
      cases c.isNil <;> simp
    rw [hscan]
    constructor
    · intro v hv
      rcases hc1 v hv with h | ⟨s', h, hcand⟩
      · -- the best before the children: this node, or what the siblings left
        split at hb₂
        · rename_i hcond
          rw [Bool.and_eq_true] at hcond
          rcases better_cases b₁ n with hbet | hbet
          · rw [hbet] at hb₂
            rcases hr1 v (hb₂.trans h) with h' | ⟨s', h', hcand⟩
            · exact .inl h'
            · exact .inr ⟨s', (hmem _).mpr (.inr (.inr h')), hcand⟩
          · rw [hbet, h] at hb₂
            cases hb₂
            exact .inr ⟨s, (hmem _).mpr (.inl ⟨hcond.1, rfl⟩), hcond.2⟩
        · rcases hr1 v (hb₂.trans h) with h' | ⟨s', h', hcand⟩
          · exact .inl h'
          · exact .inr ⟨s', (hmem _).mpr (.inr (.inr h')), hcand⟩
      · exact .inr ⟨s', (hmem _).mpr (.inr (.inl h)), hcand⟩
    · intro hnone
      obtain ⟨hb2n, hcl⟩ := hc2 hnone
      have hcond : (c.isNil && candidate rejected n) = false := by
        by_contra hcon
        rw [Bool.not_eq_false] at hcon
        rw [if_pos hcon] at hb₂
        exact better_ne_none b₁ n (hb₂.trans hb2n)
      rw [hcond] at hb₂
      obtain ⟨h1, h2⟩ := hr2 (hb₂.trans hb2n)
      refine ⟨h1, fun y hy => ?_⟩
      rcases (hmem y).mp hy with ⟨hnil, rfl⟩ | hy | hy
      · rw [hnil, Bool.true_and] at hcond
        exact hcond
      · exact hcl y hy
      · exact h2 y hy

theorem findLruLeaf_some {rejected : List NodeId} {v : Node} (h : t.findLruLeaf rejected = some v) :
    ∃ s, (s, v) ∈ t.children.leaves Ctx.push .top ∧ v.lockCount = 0 ∧ v.id ∉ rejected := by
  rcases (lruScan_spec rejected t.children .top none).1 v h with h' | ⟨s, hs, hc⟩
  · cases h'
  · unfold candidate at hc
    simp only [Bool.and_eq_true, beq_iff_eq, Bool.not_eq_true'] at hc
    refine ⟨s, hs, hc.1, fun hm => ?_⟩
    rw [List.contains_iff_mem.mpr hm] at hc
    cases hc.2

theorem findLruLeaf_none {rejected : List NodeId} (h : t.findLruLeaf rejected = none) :
    ∀ x ∈ t.children.leaves Ctx.push .top, x.2.lockCount ≠ 0 ∨ x.2.id ∈ rejected := by
  intro x hx
  have := ((lruScan_spec rejected t.children .top none).2 h).2 x hx
  unfold candidate at this
  simp only [Bool.and_eq_false_iff, beq_eq_false_iff_ne, Bool.not_eq_false',
    List.contains_iff_mem] at this
  exact this

/-- `n` is no better than the candidate `best`. -/
def LeastOf (best : Option Node) (n : Node) : Prop :=
  ∃ v, best = some v ∧ v.lastAccess ≤ n.lastAccess

theorem better_least (best : Option Node) (n : Node) :
    LeastOf (better best n) n ∧ ∀ m, LeastOf best m → LeastOf (better best n) m := by
  unfold better LeastOf
  cases best with
  | none => exact ⟨⟨n, rfl, Nat.le_refl _⟩, by rintro m ⟨v, hv, -⟩; cases hv⟩
  | some b =>
    by_cases hlt : n.lastAccess < b.lastAccess
    · simp only [if_pos hlt]
      refine ⟨⟨n, rfl, Nat.le_refl _⟩, ?_⟩
      rintro m ⟨v, hv, hle⟩
      cases hv
      exact ⟨n, rfl, by omega⟩
    · simp only [if_neg hlt]
      exact ⟨⟨b, rfl, by omega⟩, fun m hm => hm⟩

/-- The scan keeps the smallest access time it has seen. -/
theorem lruScan_least (rejected : List NodeId) : ∀ (f : Children) (s : Ctx) (best : Option Node),
    (∀ m, LeastOf best m → LeastOf (lruScan rejected f best) m) ∧
    ∀ x ∈ f.leaves Ctx.push s, candidate rejected x.2 = true →
      LeastOf (lruScan rejected f best) x.2
  | .nil, s, best => ⟨fun m h => h, fun x hx => (by cases hx)⟩
  | .cons k n c r, s, best => by
    obtain ⟨hr1, hr2⟩ := lruScan_least rejected r s best
    generalize hb₁ : lruScan rejected r best = b₁ at hr1 hr2
    generalize hb₂ : (if c.isNil && candidate rejected n then better b₁ n else b₁) = b₂
    obtain ⟨hc1, hc2⟩ := lruScan_least rejected c (s.push n) b₂
    have hscan : lruScan rejected (.cons k n c r) best = lruScan rejected c b₂ := by
      simp only [lruScan, hb₁, hb₂]
    have hmid : ∀ m, LeastOf b₁ m → LeastOf b₂ m := by
      intro m hm
      rw [← hb₂]
      split
      · exact (better_least b₁ n).2 m hm
      · exact hm
    rw [hscan]
    refine ⟨fun m hm => hc1 m (hmid m (hr1 m hm)), fun x hx hcand => ?_⟩
    simp only [KeyedForest.leaves, List.mem_append] at hx
    rcases hx with hx | hx | hx
    · by_cases hnil : c.isNil = true
      · rw [if_pos hnil, List.mem_singleton] at hx
        subst hx
        refine hc1 _ ?_
        rw [← hb₂, hnil, hcand]
        exact (better_least b₁ n).1
      · rw [if_neg hnil] at hx
        cases hx
    · exact hc2 x hx hcand
    · exact hc1 _ (hmid _ (hr2 x hx hcand))

theorem findLruLeaf_least {rejected : List NodeId} {v : Node}
    (h : t.findLruLeaf rejected = some v) (hx : x ∈ t.children.leaves Ctx.push .top)
    (h0 : x.2.lockCount = 0) (hr : x.2.id ∉ rejected) : v.lastAccess ≤ x.2.lastAccess := by
  have hcand : candidate rejected x.2 = true := by simp [candidate, h0, hr]
  obtain ⟨u, hu, hle⟩ := (lruScan_least rejected t.children .top none).2 x hx hcand
  rw [show lruScan rejected t.children none = some v from h] at hu
  cases hu
  exact hle

/-! ## Dropping a leaf -/

/-- `t'` is `t` without the entries `D`, none of them pinned. -/
structure Pruned (key : List TokenId → UInt64) (t : RadixTree) (D : List Entry) (t' : RadixTree) :
    Prop where
  wf : WF key t'
  blockTokens : t'.blockTokens = t.blockTokens
  entries : (entries t.blockTokens t.places).Perm (D ++ entries t.blockTokens t'.places)
  unpinned : ∀ e ∈ D, e.lock = 0
  lockOK : ∀ {pins : List NodeId}, LockOK pins t.places → LockOK pins t'.places
  covers : ∀ {pins : List NodeId}, LockOK pins t.places → ∀ i ∈ pins, ∀ {T B},
    Covers t.places i T B → Covers t'.places i T B

theorem Pruned.refl (h : WF key t) : Pruned key t [] t :=
  ⟨h, rfl, .refl _, nofun, fun hl => hl, fun _ _ _ _ _ hc => hc⟩

theorem Pruned.trans {t₁ t₂ t₃ : RadixTree} {D₁ D₂ : List Entry} (h : Pruned key t₁ D₁ t₂)
    (h' : Pruned key t₂ D₂ t₃) : Pruned key t₁ (D₁ ++ D₂) t₃ where
  wf := h'.wf
  blockTokens := h'.blockTokens.trans h.blockTokens
  entries := by
    have h2 := h'.entries
    rw [h.blockTokens] at h2
    rw [List.append_assoc]
    exact h.entries.trans (h2.append_left D₁)
  unpinned := by
    intro e he
    rcases List.mem_append.mp he with he | he
    · exact h.unpinned e he
    · exact h'.unpinned e he
  lockOK := fun hl => h'.lockOK (h.lockOK hl)
  covers := fun hl i hi _ _ hc => h'.covers (h.lockOK hl) i hi (h.covers hl i hi hc)

theorem Pruned.blocksOf {D : List Entry} (h : Pruned key t D t') :
    (blocksOf t.places).Perm (D.map (·.block) ++ blocksOf t'.places) := by
  have := h.entries.map (·.block)
  rwa [List.map_append, map_block_entries, map_block_entries] at this

/-- The tree holds the only reference to each of its blocks, and no block twice. -/
structure Sole (t : RadixTree) (p : BlockPool) : Prop where
  nodup : (blocksOf t.places).Nodup
  refcount : ∀ b ∈ blocksOf t.places, p.refcount b = 1

theorem mem_blocksOf {ps : List Place} (hx : x ∈ ps) {b : BlockId} (hb : b ∈ x.2.blocks) :
    b ∈ blocksOf ps := List.mem_flatMap.mpr ⟨x, hx, hb⟩

/-- `tree_is_sole_owner` on blocks in range. -/
theorem treeIsSoleOwner_spec : ∀ {l : List BlockId}, (∀ b ∈ l, b < p.numBlocks) →
    treeIsSoleOwner p l = .ok (decide (∀ b ∈ l, p.refcount b = 1))
  | [], _ => rfl
  | b :: l, h => by
    unfold treeIsSoleOwner
    rw [BlockPool.refcountOf_eq (h b List.mem_cons_self)]
    show (if p.refcount b ≠ 1 then _ else treeIsSoleOwner p l) = _
    rw [treeIsSoleOwner_spec fun c hc => h c (List.mem_cons_of_mem _ hc)]
    by_cases e : p.refcount b = 1
    · simp [e]
    · simp [e]
      rfl

theorem treeIsSoleOwner_eq (hi : p.Inv) {l : List BlockId} (h : ∀ b ∈ l, p.refcount b = 1) :
    treeIsSoleOwner p l = .ok true := by
  rw [treeIsSoleOwner_spec fun b hb => hi.lt_of_refcount (by rw [h b hb]; exact Nat.one_ne_zero)]
  simpa using h

/-- One reference of a list, and then the others. -/
theorem decrefAll_cons {id : BlockId} {l : List BlockId} {p' : BlockPool} {r : Nat}
    (h : decrefAll (id :: l) p = .ok (r, p')) : ∃ f q n, p.decref id = .ok (f, q) ∧
      decrefAll l q = .ok (n, p') ∧ r = (if f then 1 else 0) + n := by
  obtain ⟨⟨f, q⟩, hq, h⟩ := bind_ok h
  obtain ⟨⟨n, q'⟩, hq', h⟩ := bind_ok h
  cases h
  exact ⟨f, q, n, hq, hq', rfl⟩

/-- What every `decref` keeps survives a list of them. -/
theorem decrefAll_keeps {I : BlockPool → Prop}
    (hI : ∀ {p p' : BlockPool} {id : BlockId} {r : Bool}, I p → p.decref id = .ok (r, p') → I p') :
    ∀ {l : List BlockId} {p p' : BlockPool} {r : Nat}, decrefAll l p = .ok (r, p') → I p → I p'
  | [], p, p', r, h, hp => by
    cases h
    exact hp
  | id :: l, p, p', r, h, hp => by
    obtain ⟨f, q, n, hq, hl, -⟩ := decrefAll_cons h
    exact decrefAll_keeps hI hl (hI hp hq)

/-- Last references of different blocks are dropped without a fault, and all blocks are freed. -/
theorem decrefAll_ones : ∀ {l : List BlockId} {p : BlockPool}, l.Nodup →
    (∀ b ∈ l, b < p.numBlocks ∧ p.refcount b = 1) →
    decrefAll l p = .ok (l.length, p.releaseAll l)
  | [], _, _, _ => rfl
  | b :: l, p, hn, h => by
    rw [List.nodup_cons] at hn
    obtain ⟨hlt, hb⟩ := h b List.mem_cons_self
    have hdec : p.decref b = .ok (true, p.releaseBlock b) := by
      unfold BlockPool.decref
      rw [if_neg (Nat.not_le.mpr hlt), if_neg (by omega), if_pos hb]
    have ih := decrefAll_ones (p := p.releaseBlock b) hn.2 fun c hc => by
      have hne : c ≠ b := fun e => hn.1 (e ▸ hc)
      rw [BlockPool.releaseBlock_other hne, (BlockPool.SameShape.releaseBlock p b).numBlocks]
      exact h c (List.mem_cons_of_mem _ hc)
    unfold decrefAll
    rw [hdec]
    show decrefAll l (p.releaseBlock b) >>= _ = _
    rw [ih, List.length_cons, Nat.add_comm l.length 1]
    rfl

theorem decrefAll_eq {l : List BlockId} (hi : p.Inv) (hn : l.Nodup)
    (h : ∀ b ∈ l, p.refcount b = 1) : decrefAll l p = .ok (l.length, p.releaseAll l) :=
  decrefAll_ones hn fun b hb =>
    ⟨hi.lt_of_refcount (by rw [h b hb]; exact Nat.one_ne_zero), h b hb⟩

/-- The tree without the leaf `x`. -/
def without (key : List TokenId → UInt64) (t : RadixTree) (x : Place) : RadixTree :=
  RadixTree.setChildren { t with
    storedBlocks := t.storedBlocks - x.2.blocks.length
    numNodes := t.numNodes - 1 } x.1.parent (·.erase (keyOf key t.blockTokens x.2))

/-- What `drop_leaf` does to the tree does not depend on the pool. -/
theorem WF.dropLeaf_eq (h : WF key t) (hx : x ∈ t.places) (p : BlockPool) :
    t.dropLeaf key p x.2 =
      (decrefAll x.2.blocks p).map fun r => (r.1, t.without key x, r.2) := by
  unfold RadixTree.dropLeaf
  simp only [(h.nodes x hx).parent, bind, Except.bind, pure, Except.pure]
  cases decrefAll x.2.blocks p <;> rfl

/-- Without a leaf the tree is well formed, and every other node is where and as it was. -/
theorem WF.without (h : WF key t) (hx : x ∈ t.children.leaves Ctx.push .top) :
    WF key (t.without key x) ∧ LeafPlaces x t.places (t.without key x).places ∧
      (t.without key x).children.size + 1 = t.children.size := by
  have hpl := setChildren_erase h hx
  have hlp := plucked_leafPlaces hpl h.ids_nodup
  have hids := hlp.ids
  have hnd' := (List.nodup_cons.mp (hids.nodup_iff.mp h.ids_nodup)).2
  refine ⟨⟨h.bt_pos, h.root, ?_, h.keyed.pluck hpl, hnd', ?_, h.next_pos, ?_, ?_⟩, hlp,
    hpl.size.symm⟩
  · intro y hy
    exact h.nodes y (hlp.perm.mem_iff.mpr (List.mem_cons_of_mem _ hy))
  · intro i hi
    exact h.ids_lt i (hids.mem_iff.mpr (List.mem_cons_of_mem _ hi))
  · show t.numNodes - 1 = _
    rw [h.numNodes, hpl.size]
    rfl
  · show t.storedBlocks - x.2.blocks.length = _
    have hlen := hlp.blocksOf.length_eq
    have hst : t.storedBlocks = (RadixTree.blocksOf (t.children.places Ctx.push .top)).length :=
      h.storedBlocks
    rw [hst, hlen, List.length_append, Nat.add_sub_cancel_left]
    rfl

theorem WF.pruned_without (h : WF key t) (hx : x ∈ t.children.leaves Ctx.push .top)
    (hl : x.2.lockCount = 0) : Pruned key t (placeEntries t.blockTokens x) (t.without key x) := by
  obtain ⟨hwf, hlp, _⟩ := h.without hx
  refine ⟨hwf, rfl, hlp.entries _, ?_, fun hk => hlp.lockOK_pluck hk hl, ?_⟩
  · intro e he
    obtain ⟨_, _, _, rfl⟩ := mem_runEntries.mp he
    exact hl
  · intro pins hk i hi T B hc
    have hne : i ≠ x.2.id := fun e => hlp.not_pinned hk hl (e ▸ hi)
    exact (hlp.covers_iff hne).mp hc

/-- **`drop_leaf` takes one unpinned leaf out and frees its blocks.** -/
theorem WF.dropLeaf (h : WF key t) (hi : p.Inv) (hs : Sole t p)
    (hx : x ∈ t.children.leaves Ctx.push .top) (hl : x.2.lockCount = 0) :
    ∃ t', t.dropLeaf key p x.2 = .ok (x.2.blocks.length, t', p.releaseAll x.2.blocks) ∧
      Pruned key t (placeEntries t.blockTokens x) t' ∧ t'.children.size + 1 = t.children.size := by
  have hxp : x ∈ t.places := mem_places_of_mem_leaves hx
  obtain ⟨_, hlp, hsize⟩ := h.without hx
  have hnd : x.2.blocks.Nodup := by
    have := hlp.blocksOf.nodup_iff.mp hs.nodup
    exact (List.nodup_append'.mp this).1
  have hdec := decrefAll_eq hi hnd fun b hb => hs.refcount b (mem_blocksOf hxp hb)
  refine ⟨t.without key x, ?_, h.pruned_without hx hl, hsize⟩
  rw [h.dropLeaf_eq hxp, hdec]
  rfl

/-! ## Eviction -/

theorem releaseAll_append (l l' : List BlockId) (p : BlockPool) :
    p.releaseAll (l ++ l') = (p.releaseAll l).releaseAll l' := List.foldl_append

theorem Sole.pruned {D : List Entry} (hs : Sole t p) (hi : p.Inv) (h : Pruned key t D t') :
    (D.map (·.block)).Nodup ∧ (∀ b ∈ D.map (·.block), p.refcount b = 1) ∧
      Sole t' (p.releaseAll (D.map (·.block))) := by
  have hp := h.blocksOf
  have hnd := List.nodup_append'.mp (hp.nodup_iff.mp hs.nodup)
  have hD : ∀ b ∈ D.map (·.block), p.refcount b = 1 := fun b hb =>
    hs.refcount b (hp.mem_iff.mpr (List.mem_append_left _ hb))
  have hrel := hi.releaseAll hnd.1 fun b hb => by
    have := hD b hb
    omega
  refine ⟨hnd.1, hD, hnd.2.1, fun b hb => ?_⟩
  rw [(hrel.same b fun hm => hnd.2.2 hm hb).refcount]
  exact hs.refcount b (hp.mem_iff.mpr (List.mem_append_right _ hb))

/-- **`evict` drops unpinned leaves until enough is free or none is left.** -/
theorem evictLoop_spec (n : Nat) : ∀ (fuel freed : Nat) (t : RadixTree) (p : BlockPool),
    WF key t → p.Inv → Sole t p → t.children.size ≤ fuel →
    ∃ D t', evictLoop key n fuel freed [] t p =
        .ok (freed + D.length, t', p.releaseAll (D.map (·.block))) ∧
      Pruned key t D t' ∧
      (freed + D.length < n → ∀ x ∈ t'.children.leaves Ctx.push .top, x.2.lockCount ≠ 0)
  | fuel, freed, t, p, h, hi, hs, hf => by
    unfold evictLoop
    split
    · rename_i hle
      exact ⟨[], t, rfl, .refl h, fun hlt => by simp only [List.length_nil] at hlt; omega⟩
    cases hv : t.findLruLeaf [] with
    | none =>
      refine ⟨[], t, rfl, .refl h, fun _ x hx => ?_⟩
      rcases findLruLeaf_none hv x hx with h' | h'
      · exact h'
      · cases h'
    | some v =>
      obtain ⟨s, hx, hl, _⟩ := findLruLeaf_some hv
      obtain ⟨t₁, hd, hpr, hsz⟩ := h.dropLeaf hi hs hx hl
      obtain ⟨fuel, rfl⟩ : ∃ k, fuel = k + 1 := ⟨fuel - 1, by omega⟩
      have hxp : (s, v) ∈ t.places := mem_places_of_mem_leaves hx
      have hsole := treeIsSoleOwner_eq hi fun b hb => hs.refcount b (mem_blocksOf hxp hb)
      have hpos : 0 < v.blocks.length := (h.nodes _ hxp).blocks_pos
      have hmap : (placeEntries t.blockTokens (s, v)).map (·.block) = v.blocks :=
        map_block_runEntries _ _ _
      have hlen : (placeEntries t.blockTokens (s, v)).length = v.blocks.length := by
        rw [← hmap, List.length_map]
      obtain ⟨hnd, hone, hs₁⟩ := hs.pruned hi hpr
      rw [hmap] at hnd hone hs₁
      have hi₁ := (hi.releaseAll hnd fun b hb => by have := hone b hb; omega).inv
      obtain ⟨D, t', he, hpr', hlast⟩ := evictLoop_spec n fuel (freed + v.blocks.length) t₁ _
        hpr.wf hi₁ hs₁ (by omega)
      refine ⟨placeEntries t.blockTokens (s, v) ++ D, t', ?_, hpr.trans hpr', ?_⟩
      · simp only [hsole, hd]
        show (if v.blocks.length = 0 then _ else _) = _
        rw [if_neg (by omega), he, List.length_append, hlen, List.map_append, hmap,
          releaseAll_append, Nat.add_assoc]
      · rw [List.length_append, hlen, ← Nat.add_assoc]
        exact hlast

theorem WF.evict (h : WF key t) (hi : p.Inv) (hs : Sole t p) (n : Nat) :
    ∃ D t', t.evict key p n = .ok (D.length, t', p.releaseAll (D.map (·.block))) ∧
      Pruned key t D t' ∧
      (D.length < n → ∀ x ∈ t'.children.leaves Ctx.push .top, x.2.lockCount ≠ 0) := by
  obtain ⟨D, t', he, hp, hl⟩ := evictLoop_spec n t.children.size 0 t p h hi hs (Nat.le_refl _)
  rw [Nat.zero_add] at he hl
  exact ⟨D, t', he, hp, hl⟩

/-! ## Demotion victims -/

/-- A block the picker takes: in the compute tier, solely owned and not migrating. -/
def eligible (p : BlockPool) (b : BlockId) : Bool :=
  (p.location b).tier == 0 && p.refcount b == 1 && !p.migrating b

theorem takeEligible_eq (n before : Nat) : ∀ (l out : List BlockId),
    (∀ b ∈ l, b < p.numBlocks ∧ p.refcount b ≠ 0) → before ≤ out.length →
    takeEligible p n before l out =
      .ok (out ++ (l.filter (eligible p)).take (n - (out.length - before)))
  | [], out, _, _ => by simp [takeEligible]
  | b :: l, out, h, hbo => by
    obtain ⟨hlt, hb⟩ := h b List.mem_cons_self
    have hl : ∀ c ∈ l, c < p.numBlocks ∧ p.refcount c ≠ 0 := fun c hc =>
      h c (List.mem_cons_of_mem _ hc)
    unfold takeEligible
    split
    · rename_i hfull
      rw [Nat.sub_eq_zero_of_le hfull, List.take_zero, List.append_nil]
    rename_i hroom
    rw [BlockPool.blockTier_eq hlt hb, BlockPool.refcountOf_eq hlt]
    have hskip : eligible p b = false →
        takeEligible p n before l out =
          .ok (out ++ ((b :: l).filter (eligible p)).take (n - (out.length - before))) := by
      intro he
      rw [List.filter_cons, he, takeEligible_eq n before l out hl hbo]
      rfl
    show (if (p.location b).tier ≠ 0 then _ else
      if p.refcount b ≠ 1 then _ else if p.migrating b = true then _ else _) = _
    split
    · rename_i h1
      exact hskip (by simp [eligible, h1])
    rename_i h1
    split
    · rename_i h2
      exact hskip (by simp [eligible, h2])
    rename_i h2
    split
    · rename_i h3
      exact hskip (by simp [eligible, h3])
    · rename_i h3
      have he : eligible p b = true := by
        simp only [not_not] at h1 h2
        simp [eligible, h1, h2, h3]
      have hlen : n - (out.length - before) = n - ((out ++ [b]).length - before) + 1 := by
        rw [List.length_append, List.length_singleton]
        omega
      rw [takeEligible_eq n before l (out ++ [b]) hl (by rw [List.length_append]; omega),
        List.filter_cons, he, if_pos rfl, hlen, List.take_succ_cons, List.append_assoc]
      rfl

/-- The eligible blocks of a list of leaves, in order. -/
def eligibleOf (p : BlockPool) (xs : List Place) : List BlockId :=
  xs.flatMap fun x => x.2.blocks.filter (eligible p)

/-- Distinct unpinned leaves of the tree. -/
structure ColdLeaves (t : RadixTree) (xs : List Place) : Prop where
  nodup : (ids xs).Nodup
  leaf : ∀ x ∈ xs, x ∈ t.children.leaves Ctx.push .top ∧ x.2.lockCount = 0

/-- Eligible blocks of distinct leaves are distinct. -/
theorem eligibleOf_nodup (hn : (blocksOf t.places).Nodup) {xs : List Place}
    (hx : ColdLeaves t xs) : (eligibleOf p xs).Nodup := by
  have hpl : ∀ x ∈ xs, x ∈ t.places := fun x h => mem_places_of_mem_leaves (hx.leaf x h).1
  refine List.nodup_flatMap.mpr ⟨fun x h => ?_, ?_⟩
  · exact ((List.nodup_flatMap.mp hn).1 x (hpl x h)).filter _
  · have hne : xs.Pairwise fun x y => x.2.id ≠ y.2.id := List.pairwise_map.mp hx.nodup
    refine hne.imp_of_mem fun {x y} h1 h2 hxy b hb hb' => hxy ?_
    rw [block_place hn (hpl x h1) (hpl y h2) (List.mem_filter.mp hb).1 (List.mem_filter.mp hb').1]

/-- The unpinned leaves of the tree used longest ago, in order of access. -/
structure Coldest (t : RadixTree) (xs : List Place) : Prop extends ColdLeaves t xs where
  sorted : xs.Pairwise fun x y => x.2.lastAccess ≤ y.2.lastAccess
  least : ∀ y ∈ t.children.leaves Ctx.push .top, y.2.lockCount = 0 → y.2.id ∉ ids xs →
    ∀ x ∈ xs, x.2.lastAccess ≤ y.2.lastAccess

/-- The next leaf of the scan goes on with the order. -/
theorem Coldest.snoc {xs : List Place} (h : Coldest t xs) {v : Node}
    (hv : t.findLruLeaf (ids xs) = some v) :
    ∃ s, (s, v) ∈ t.children.leaves Ctx.push .top ∧ Coldest t (xs ++ [(s, v)]) := by
  obtain ⟨s, hx, hl, hnew⟩ := findLruLeaf_some hv
  refine ⟨s, hx, ⟨?_, fun x hm => ?_⟩, ?_, fun y hy h0 hy' x hm => ?_⟩
  · unfold ids
    rw [List.map_append, List.nodup_append']
    refine ⟨h.nodup, List.nodup_singleton _, fun i h1 h2 => ?_⟩
    have h3 : i = v.id := List.mem_singleton.mp h2
    exact hnew (h3 ▸ h1)
  · rcases List.mem_append.mp hm with hm | hm
    · exact h.leaf x hm
    · rw [List.mem_singleton.mp hm]
      exact ⟨hx, hl⟩
  · refine List.pairwise_append.mpr ⟨h.sorted, List.pairwise_singleton _ _, fun x hm y hy => ?_⟩
    rw [List.mem_singleton.mp hy]
    exact h.least (s, v) hx hl hnew x hm
  · have hold : y.2.id ∉ ids xs := fun hm => hy' (by unfold ids; simp [List.mem_map.mp hm])
    rcases List.mem_append.mp hm with hm | hm
    · exact h.least y hy h0 hold x hm
    · rw [List.mem_singleton.mp hm]
      exact findLruLeaf_least hv hy h0 hold

theorem length_ids (ps : List Place) : (ids ps).length = ps.length := List.length_map _

/-- Different nodes of the tree are no more than its size. -/
theorem ids_length_le {is : List NodeId} (hn : is.Nodup) (hs : is ⊆ ids t.places) :
    is.length ≤ t.children.size := by
  have hle := (List.subperm_of_subset hn hs).length_le
  rw [length_ids] at hle
  exact hle.trans_eq (length_places _ _)

theorem ColdLeaves.length_le {xs : List Place} (h : ColdLeaves t xs) :
    xs.length ≤ t.children.size := by
  have hsub : ids xs ⊆ ids t.places := by
    intro i hi
    obtain ⟨x, hx, rfl⟩ := List.mem_map.mp hi
    exact mem_ids (mem_places_of_mem_leaves (h.leaf x hx).1)
  rw [← length_ids]
  exact ids_length_le h.nodup hsub

theorem pickLoop_spec (hal : ∀ b ∈ blocksOf t.places, b < p.numBlocks ∧ p.refcount b ≠ 0)
    (n : Nat) (out₀ : List BlockId) : ∀ (fuel : Nat) (vs : List Place), Coldest t vs →
    t.children.size ≤ fuel + vs.length →
    ∃ xs, pickLoop t p n out₀.length fuel (ids vs) (out₀ ++ (eligibleOf p vs).take n) =
        .ok (out₀ ++ (eligibleOf p xs).take n) ∧ Coldest t xs ∧
      ((eligibleOf p xs).length < n →
        ∀ x ∈ t.children.leaves Ctx.push .top, x.2.lockCount = 0 → x.2.id ∈ ids xs)
  | fuel, vs, hvs, hf => by
    unfold pickLoop
    have hlen : (out₀ ++ (eligibleOf p vs).take n).length - out₀.length =
        min n (eligibleOf p vs).length := by
      rw [List.length_append, List.length_take, Nat.add_sub_cancel_left]
    rw [hlen]
    split
    · rename_i hfull
      exact ⟨vs, rfl, hvs, fun hlt => by omega⟩
    rename_i hroom
    have htake : (eligibleOf p vs).take n = eligibleOf p vs := List.take_of_length_le (by omega)
    cases hv : t.findLruLeaf (ids vs) with
    | none =>
      refine ⟨vs, rfl, hvs, fun _ x hx hl => ?_⟩
      rcases findLruLeaf_none hv x hx with h' | h'
      · exact absurd hl h'
      · exact h'
    | some v =>
      obtain ⟨s, hx, hvs'⟩ := hvs.snoc hv
      have hxp : (s, v) ∈ t.places := mem_places_of_mem_leaves hx
      have hle := hvs'.length_le
      rw [List.length_append, List.length_singleton] at hle
      obtain ⟨fuel, rfl⟩ : ∃ k, fuel = k + 1 := ⟨fuel - 1, by omega⟩
      have hids : ids vs ++ [v.id] = ids (vs ++ [(s, v)]) := by simp [ids]
      have hel : eligibleOf p (vs ++ [(s, v)]) = eligibleOf p vs ++ v.blocks.filter (eligible p) := by
        simp [eligibleOf]
      obtain ⟨xs, he, hxs, hcomp⟩ := pickLoop_spec hal n out₀ fuel (vs ++ [(s, v)]) hvs'
        (by rw [List.length_append, List.length_singleton]; omega)
      refine ⟨xs, ?_, hxs, hcomp⟩
      rw [← he, htake]
      have hte := takeEligible_eq n out₀.length v.blocks (out₀ ++ eligibleOf p vs)
        (fun b hb => hal b (mem_blocksOf hxp hb)) (by rw [List.length_append]; omega)
      simp only [hte]
      show pickLoop t p n out₀.length fuel (ids vs ++ [v.id]) _ = _
      rw [hids, hel, List.append_assoc, List.length_append, Nat.add_sub_cancel_left,
        List.take_append, htake]

/-- **`pick_demotion_victims` takes eligible blocks of the unpinned leaves used longest ago**, and
fewer than asked only when they are all taken. -/
theorem pickDemotionVictims_spec
    (hal : ∀ b ∈ blocksOf t.places, b < p.numBlocks ∧ p.refcount b ≠ 0) (n : Nat)
    (out : List BlockId) :
    ∃ xs, t.pickDemotionVictims p n out = .ok (out ++ (eligibleOf p xs).take n) ∧
      Coldest t xs ∧ ((eligibleOf p xs).length < n →
        ∀ x ∈ t.children.leaves Ctx.push .top, x.2.lockCount = 0 → x.2.id ∈ ids xs) := by
  have hnil : Coldest t [] := ⟨⟨List.nodup_nil, nofun⟩, List.Pairwise.nil, fun _ _ _ _ => nofun⟩
  have h := pickLoop_spec hal n out t.children.size [] hnil (by simp)
  have hz : out ++ (eligibleOf p []).take n = out := by simp [eligibleOf]
  rw [hz] at h
  exact h

end RadixTree

end KvsLab
