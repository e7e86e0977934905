import KvsLab.Lib.Lockstep
import KvsLab.RadixTree.Lru

/-!
# Victims do not depend on the order the children maps iterate in

The children of a node live in a hash map, so their order is anybody's guess and may change from
one call to the next.

* `Reordered t t'` — the same tree, its children maps iterating in another order.
* `findLruLeaf_reordered` — the scan ends at the same node; no two nodes have one access time.
* `evictLoop_reordered` — two evictions in lockstep drop the same nodes and leave the same tree and
  pool, or fail alike.
* `TreeState.victims_order_free` — so in every reachable state, whatever order the maps took in
  between.
-/

namespace KvsLab

open KeyedForest Transition Lockstep

namespace RadixTree

variable {key : List TokenId → UInt64} {t t' t'' : RadixTree} {p : BlockPool} {x : Place}

/-- `t'` is `t` with children maps that iterate in another order. -/
structure Reordered (t t' : RadixTree) : Prop where
  children : Shuffled t.children t'.children
  rest : t' = { t with children := t'.children }

theorem Reordered.symm (h : Reordered t t') : Reordered t' t := by
  refine ⟨h.children.symm, ?_⟩
  rw [h.rest]

theorem Reordered.trans (h : Reordered t t') (h' : Reordered t' t'') : Reordered t t'' := by
  refine ⟨h.children.trans h'.children, ?_⟩
  rw [h'.rest, h.rest]

theorem Reordered.places (h : Reordered t t') : t.places.Perm t'.places := h.children.places _

theorem Reordered.leaf (h : Reordered t t') :
    x ∈ t'.children.leaves Ctx.push .top ↔ x ∈ t.children.leaves Ctx.push .top :=
  (h.children.leaves _).mem_iff.symm

theorem Reordered.blocksOf (h : Reordered t t') :
    (blocksOf t.places).Perm (RadixTree.blocksOf t'.places) := h.places.flatMap_right _

theorem Reordered.wf (h : Reordered t t') (hw : WF key t) : WF key t' := by
  have hids := ids_perm h.places
  have hkeyed := h.children.keyed hw.keyed
  have hsize : t.numNodes = t'.children.size := hw.numNodes.trans h.children.size.symm
  have hstored := hw.storedBlocks.trans h.blocksOf.length_eq
  have hnodes : ∀ x ∈ t'.places, NodeOK t.blockTokens x := fun x hx =>
    hw.nodes x (h.places.mem_iff.mpr hx)
  have hlt : ∀ i ∈ ids t'.places, kRoot < i ∧ i < t.nextNode := fun i hi =>
    hw.ids_lt i (hids.mem_iff.mpr hi)
  have hnd := hids.nodup_iff.mp hw.ids_nodup
  rw [h.rest] at hnodes hlt hnd hstored ⊢
  exact ⟨hw.bt_pos, hw.root, hnodes, hkeyed, hnd, hlt, hw.next_pos, hsize, hstored⟩

theorem Reordered.stamped (h : Reordered t t') (hs : Stamped t) : Stamped t' := by
  constructor
  · exact (h.places.map _).nodup_iff.mp hs.nodup
  · intro x hx
    rw [h.rest]
    exact hs.le x (h.places.mem_iff.mpr hx)

theorem Reordered.lockOK (h : Reordered t t') {pins : List NodeId} (hl : LockOK pins t.places) :
    LockOK pins t'.places := by
  have hbelow : ∀ m, below t'.places m = below t.places m := fun m => funext fun i => by
    unfold below
    exact h.places.symm.any_eq
  intro y hy
  rw [hbelow]
  exact hl y (h.places.mem_iff.mpr hy)

/-! ## The scan -/

/-- **The scan ends at the same node.** -/
theorem findLruLeaf_reordered (hs : Stamped t) (h : Reordered t t') (rejected : List NodeId) :
    t'.findLruLeaf rejected = t.findLruLeaf rejected := by
  cases hv : t.findLruLeaf rejected with
  | none =>
    cases hv' : t'.findLruLeaf rejected with
    | none => rfl
    | some v' =>
      obtain ⟨s', hx', h0, hr⟩ := findLruLeaf_some hv'
      rcases findLruLeaf_none hv _ (h.leaf.mp hx') with hl | hl
      · exact absurd h0 hl
      · exact absurd hl hr
  | some v =>
    obtain ⟨s, hx, h0, hr⟩ := findLruLeaf_some hv
    cases hv' : t'.findLruLeaf rejected with
    | none =>
      rcases findLruLeaf_none hv' _ (h.leaf.mpr hx) with hl | hl
      · exact absurd h0 hl
      · exact absurd hl hr
    | some v' =>
      -- each is no later than the other
      obtain ⟨s', hx', h0', hr'⟩ := findLruLeaf_some hv'
      have hle := findLruLeaf_least hv (h.leaf.mp hx') h0' hr'
      have hge := findLruLeaf_least hv' (h.leaf.mpr hx) h0 hr
      have e := hs.inj (mem_places_of_mem_leaves (h.leaf.mp hx')) (mem_places_of_mem_leaves hx)
        (Nat.le_antisymm hge hle)
      rw [(Prod.mk.inj e).2]

/-! ## Eviction -/

theorem Reordered.without (h : Reordered t t') (hw : WF key t)
    (hx : x ∈ t.children.leaves Ctx.push .top) :
    Reordered (t.without key x) (t'.without key x) := by
  have hpl := setChildren_erase hw hx
  have hpl' := setChildren_erase (h.wf hw) (h.leaf.mpr hx)
  obtain ⟨g, hg, hsh⟩ := h.children.pluck hpl
  have hnd : t'.places.Nodup := List.Nodup.of_map _ (h.wf hw).ids_nodup
  have hbt : t'.blockTokens = t.blockTokens := by rw [h.rest]
  rw [hbt] at hpl'
  refine ⟨?_, ?_⟩
  · show Shuffled _ (t'.without key x).children
    unfold RadixTree.without
    rw [hbt]
    exact (hg.unique hnd hpl').symm ▸ hsh
  · unfold RadixTree.without RadixTree.setChildren
    rw [h.rest]

/-- The same nodes were dropped in the same order, and the same tree and pool are left. -/
structure SameEviction (key : List TokenId → UInt64) (t t' : RadixTree) (p : BlockPool)
    (r r' : Nat × RadixTree × BlockPool) : Prop where
  freed : r'.1 = r.1
  tree : Reordered r.2.1 r'.2.1
  pool : r'.2.2 = r.2.2
  dropped : ∃ xs, Dropped key (fun _ _ _ => True) t p xs r.2.1 r.2.2 ∧
    Dropped key (fun _ _ _ => True) t' p xs r'.2.1 r'.2.2

theorem evictLoop_reordered (n : Nat) : ∀ (fuel freed : Nat) (rejected : List NodeId)
    (t t' : RadixTree) (p : BlockPool), WF key t → Stamped t → Reordered t t' →
    Rel (SameEviction key t t' p) (evictLoop key n fuel freed rejected t p)
      (evictLoop key n fuel freed rejected t' p)
  | fuel, freed, rejected, t, t', p, hw, hs, h => by
    have hstop : Rel (SameEviction key t t' p) (.ok (freed, t, p) : Except Fault _)
        (.ok (freed, t', p)) := .ok ⟨rfl, h, rfl, [], .nil, .nil⟩
    unfold evictLoop
    rw [findLruLeaf_reordered hs h]
    split
    · exact hstop
    cases hv : t.findLruLeaf rejected with
    | none => exact hstop
    | some v =>
      cases fuel with
      | zero => exact .error _
      | succ fuel =>
        obtain ⟨s, hx, h0, -⟩ := findLruLeaf_some hv
        have hx' := h.leaf.mpr hx
        have hd := hw.dropLeaf_eq (mem_places_of_mem_leaves hx) p
        have hd' := (h.wf hw).dropLeaf_eq (mem_places_of_mem_leaves hx') p
        have hwo := hw.without hx
        refine (Rel.refl (treeIsSoleOwner p v.blocks)).bind ?_
        rintro sole _ rfl
        cases sole with
        | false => exact evictLoop_reordered n fuel freed _ t t' p hw hs h
        | true =>
          show Rel _ (t.dropLeaf key p v >>= _) (t'.dropLeaf key p v >>= _)
          rw [hd, hd']
          cases hdec : decrefAll v.blocks p with
          | error e => exact .error e
          | ok r =>
            show Rel _ (if r.1 = 0 then _ else _) (if r.1 = 0 then _ else _)
            split
            · exact .error _
            have hst := hs.sub (show t.places.Perm ([(s, v)] ++ _) from hwo.2.1.perm) rfl
            have ih := evictLoop_reordered n fuel (freed + r.1) rejected _ _ r.2 hwo.1 hst
              (h.without hw hx)
            refine ih.mono fun a a' ha => ⟨ha.freed, ha.tree, ha.pool, ?_⟩
            obtain ⟨xs, hxs, hxs'⟩ := ha.dropped
            exact ⟨(s, v) :: xs, .cons hx h0 trivial hdec hxs, .cons hx' h0 trivial hdec hxs'⟩

theorem evict_reordered (hw : WF key t) (hs : Stamped t) (h : Reordered t t') (p : BlockPool)
    (n : Nat) : Rel (SameEviction key t t' p) (t.evict key p n) (t'.evict key p n) := by
  unfold RadixTree.evict
  rw [h.children.size]
  exact evictLoop_reordered n _ 0 [] t t' p hw hs h

/-! ## Demotion victims -/

theorem pickLoop_reordered (hs : Stamped t) (h : Reordered t t') (p : BlockPool) (n before : Nat) :
    ∀ (fuel : Nat) (rejected : List NodeId) (out : List BlockId),
      pickLoop t' p n before fuel rejected out = pickLoop t p n before fuel rejected out
  | fuel, rejected, out => by
    unfold pickLoop
    rw [findLruLeaf_reordered hs h]
    split
    · rfl
    cases t.findLruLeaf rejected with
    | none => rfl
    | some v =>
      cases fuel with
      | zero => rfl
      | succ fuel => simp only [pickLoop_reordered hs h p n before fuel]

theorem pickDemotionVictims_reordered (hs : Stamped t) (h : Reordered t t') (p : BlockPool) (n : Nat)
    (out : List BlockId) : t'.pickDemotionVictims p n out = t.pickDemotionVictims p n out := by
  unfold RadixTree.pickDemotionVictims
  rw [h.children.size]
  exact pickLoop_reordered hs h p n _ _ _ _

end RadixTree

open RadixTree

namespace TreeState

variable {key : List TokenId → UInt64} {s s' : TreeState}

/-- A call, or the children maps going over to another order of iteration. -/
inductive OrderStep (key : List TokenId → UInt64) (s : TreeState) : Option TreeOp → TreeState → Prop
  | call {op : TreeOp} {s' : TreeState} : Step key s op s' → OrderStep key s (some op) s'
  | reorder {t' : RadixTree} : Reordered s.tree t' → OrderStep key s none { s with tree := t' }

theorem Sound.reorder (h : Sound key s) {t' : RadixTree} (hr : Reordered s.tree t') :
    Sound key { s with tree := t' } := by
  refine ⟨⟨hr.wf h.wf, hr.lockOK h.lockOK, fun i hi => ?_⟩, hr.stamped h.stamped, fun b hb => ?_,
    h.placed⟩
  · exact (ids_perm hr.places).mem_iff.mp (h.pins i hi)
  · exact h.range b (hr.blocksOf.mem_iff.mpr hb)

theorem sound_order_reach {cfg : CacheConfig} {specs : List TierSpec}
    {mem : Arena.Mem TierIndex UInt8} {p₀ : BlockPool} {bt : Nat} {t₀ : RadixTree}
    {tr : List (Option TreeOp)} (hp : BlockPool.init cfg specs mem = .ok p₀)
    (h0 : RadixTree.create bt = .ok t₀)
    (hrun : Run (OrderStep key) { tree := t₀, pool := p₀ } tr s) : Sound key s := by
  refine hrun.invariant (fun s op s' h he => ?_) (sound_reach hp h0 .nil)
  cases he with
  | call he => exact h.next he
  | reorder hr => exact h.reorder hr

/-- **Victims do not depend on the order the children maps iterate in.**  In every reachable state
no two nodes have one access time and none is ahead of the clock; so two orders of iteration lead
the scan, `evict` and `pick_demotion_victims` to the same nodes in the same order. -/
theorem victims_order_free {cfg : CacheConfig} {specs : List TierSpec}
    {mem : Arena.Mem TierIndex UInt8} {p₀ : BlockPool} {bt : Nat} {t₀ : RadixTree}
    {tr : List (Option TreeOp)} (hp : BlockPool.init cfg specs mem = .ok p₀)
    (h0 : RadixTree.create bt = .ok t₀)
    (hrun : Run (OrderStep key) { tree := t₀, pool := p₀ } tr s) :
    (s.tree.children.vals.map (·.lastAccess)).Nodup ∧
    (∀ n ∈ s.tree.children.vals, n.lastAccess ≤ s.tree.clock) ∧
    ∀ t₁ t₂, Reordered s.tree t₁ → Reordered s.tree t₂ →
      (∀ rejected, t₂.findLruLeaf rejected = t₁.findLruLeaf rejected) ∧
      (∀ p n, Rel (SameEviction key t₁ t₂ p) (t₁.evict key p n) (t₂.evict key p n)) ∧
      ∀ p n out, t₂.pickDemotionVictims p n out = t₁.pickDemotionVictims p n out := by
  have h := sound_order_reach hp h0 hrun
  have htime := stamped_iff.mp h.stamped
  refine ⟨htime.nodup, fun n hn => htime.le _ (List.mem_map_of_mem hn), fun t₁ t₂ h₁ h₂ => ?_⟩
  have hw := h₁.wf h.wf
  have hs := h₁.stamped h.stamped
  have hr := h₁.symm.trans h₂
  exact ⟨findLruLeaf_reordered hs hr, evict_reordered hw hs hr,
    pickDemotionVictims_reordered hs hr⟩

/-- The first two siblings change places. -/
def swapFirst : Children → Children
  | .cons k v c (.cons k' v' c' r) => .cons k' v' c' (.cons k v c r)
  | f => f

theorem swapFirst_shuffled (f : Children) : Shuffled f (swapFirst f) := by
  unfold swapFirst
  split
  · exact .swap
  · exact .refl _

/-- Two leaves below the root. -/
def twoLeavesTrace : List (Option TreeOp) :=
  [some (.pool .allocate), some (.pool .allocate), some (.insert [1, 2] [0]),
    some (.insert [3, 4] [1]), some (.pool (.decref 0)), some (.pool (.decref 1))]

/-- The map of the root goes over to the other order, and back for the second eviction. -/
theorem victims_order_free_swapped : ∃ p₀ t₀ s t₂,
    BlockPool.init BlockPool.smallConfig BlockPool.smallSpecs (fun _ _ => 0) = .ok p₀ ∧
    RadixTree.create 2 = .ok t₀ ∧
    Run (OrderStep fun l => if l = [1, 2] then 1 else 0) { tree := t₀, pool := p₀ }
      (twoLeavesTrace ++ [none]) s ∧
    Reordered s.tree t₂ ∧ t₂.children ≠ s.tree.children ∧
    (∀ rejected, t₂.findLruLeaf rejected = s.tree.findLruLeaf rejected) ∧
    Rel (SameEviction (fun l => if l = [1, 2] then 1 else 0) s.tree t₂ s.pool)
      (s.tree.evict (fun l => if l = [1, 2] then 1 else 0) s.pool 1)
      (t₂.evict (fun l => if l = [1, 2] then 1 else 0) s.pool 1) := by
  have h : ((BlockPool.init BlockPool.smallConfig BlockPool.smallSpecs fun _ _ => 0).toOption.bind
      fun p => (RadixTree.create 2).toOption.bind fun t =>
        (exec (fun s o => o.bind (next (fun l => if l = [1, 2] then 1 else 0) s))
          { tree := t, pool := p } twoLeavesTrace).map fun s =>
            decide (s.tree.children ≠ swapFirst s.tree.children)) = some true := by
    decide +kernel
  obtain ⟨p, hp, h⟩ := Option.bind_eq_some_iff.mp h
  obtain ⟨t, ht, h⟩ := Option.bind_eq_some_iff.mp h
  obtain ⟨s, hs, h⟩ := Option.map_eq_some_iff.mp h
  have hrun : Run (OrderStep fun l => if l = [1, 2] then 1 else 0) { tree := t, pool := p }
      twoLeavesTrace s := by
    refine (run_of_exec hs).mono fun s o s' he => ?_
    obtain ⟨op, rfl, he⟩ := Option.bind_eq_some_iff.mp he
    exact .call he
  have hr : Reordered s.tree { s.tree with children := swapFirst s.tree.children } :=
    ⟨swapFirst_shuffled _, rfl⟩
  have h0 := BlockPool.toOption_eq_some ht
  have hp0 := BlockPool.toOption_eq_some hp
  have hrun' := hrun.snoc (.reorder hr)
  obtain ⟨-, -, hfree⟩ := victims_order_free hp0 h0 hrun'
  obtain ⟨hscan, hevict, -⟩ := hfree _ s.tree ⟨.refl _, rfl⟩ hr.symm
  exact ⟨p, t, _, s.tree, hp0, h0, hrun', hr.symm, of_decide_eq_true h, hscan, hevict _ 1⟩

end TreeState

end KvsLab
