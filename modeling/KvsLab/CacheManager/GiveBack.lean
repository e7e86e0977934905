import KvsLab.CacheManager.PoolCalls
import KvsLab.RadixTree.References

/-!
# Pins and references, whatever a release publishes

A release may be called with tokens that have nothing to do with its table.  What it takes off the
lock counts and the references is a matter of the tree's shape alone.

* `PinnedBy t pins` — the tree is well formed and its lock counts are those of `pins`; pinning,
  unpinning, inserting and evicting keep it so.
* `Raises p p'` — no count is lower in `p'`; every call but `decref` raises.
* `Spares m m'` — a reference that is gone was the tree's; `acquire_pinned` — so an acquire only takes
  its own pin, and `unpin_locks` — unpinning takes one pin off the path to the node.
-/

namespace KvsLab

open RadixTree BlockPool Lockstep

namespace BlockPool

variable {p p' : BlockPool}

/-- No count falls. -/
def Raises (p p' : BlockPool) : Prop := ∀ b, p.refcount b ≤ p'.refcount b

theorem raises_next (op : PoolOp) (h : Step p op p') (hne : ∀ b, op ≠ .decref b) : Raises p p' :=
  fun b => (refcount_next h b).resolve_right fun hd => hne b hd.1

theorem raises_closed : MoveClosed Raises where
  refl _ _ := Nat.le_refl _
  trans h h' b := (h b).trans (h' b)
  allocate h := raises_next .allocate (by simp only [Step, next, h]; rfl) nofun
  migrate {_ _ id dst _} h :=
    raises_next (.migrate id dst) (by simp only [Step, next, h]; rfl) nofun
  migrateAsync {_ _ id dst _} h :=
    raises_next (.migrateAsync id dst) (by simp only [Step, next, h]; rfl) nofun
  cancel p id b := by rw [cancel_refcount]
  drain p b := by rw [drain_refcount]
  worker h b := by rw [(SameBooks.workerStep h).refcount]

/-- `dropRefs` drops one reference for each entry. -/
theorem dropRefs_counts : ∀ {l : List BlockId} {p : BlockPool},
    CacheManager.dropRefs l p = .ok p' → ∀ b, p'.refcount b + l.count b = p.refcount b
  | [], p, h, b => by
    cases h
    rfl
  | id :: l, p, h, b => by
    obtain ⟨⟨r, q⟩, hq, h⟩ := bind_ok h
    have h1 := (decref_counts hq).2.2 b
    have h2 := dropRefs_counts h b
    rw [List.count_cons, List.count_nil] at h1
    rw [List.count_cons]
    omega

end BlockPool

/-! ## Pins on a tree -/

namespace RadixTree

variable {key : List TokenId → UInt64} {t t' : RadixTree} {p p' : BlockPool} {pins : List NodeId}
  {o : Option NodeId} {tokens : List TokenId} {n : Nat}

/-- The tree is well formed, and `pins` are the pins on it. -/
structure PinnedBy (key : List TokenId → UInt64) (t : RadixTree) (pins : List NodeId) : Prop where
  wf : WF key t
  lockOK : LockOK pins t.places
  mem : ∀ i ∈ pins, i ∈ ids t.places

theorem PinnedBy.inv (h : PinnedBy key t pins) (p : BlockPool) : TreeState.Inv key ⟨t, p, pins⟩ :=
  ⟨h.wf, h.lockOK, h.mem⟩

theorem PinnedBy.of_inv (h : TreeState.Inv key ⟨t, p, pins⟩) : PinnedBy key t pins :=
  ⟨h.wf, h.lockOK, h.pins⟩

theorem PinnedBy.perm (h : PinnedBy key t pins) {pins' : List NodeId} (hp : pins.Perm pins') :
    PinnedBy key t pins' :=
  ⟨h.wf, h.lockOK.perm hp, fun i hi => h.mem i (hp.mem_iff.mpr hi)⟩

/-- One more pin. -/
theorem PinnedBy.pin (h : PinnedBy key t pins) (ho : ∀ i, o = some i → i ∈ ids t.places)
    (he : CacheManager.pin t o = .ok t') :
    PinnedBy key t' (o.toList ++ pins) ∧ blocksOf t'.places = blocksOf t.places := by
  cases o with
  | none =>
    cases he
    exact ⟨h, rfl⟩
  | some i =>
    obtain ⟨x, hx, rfl⟩ := List.mem_map.mp (ho i rfl)
    obtain ⟨t₁, he', hr, hl⟩ := h.wf.lock hx h.lockOK
    cases (show t.lock x.2.id = .ok t' from he).symm.trans he'
    refine ⟨⟨hr.wf, hl, fun i hi => ?_⟩, hr.blocksOf⟩
    rw [hr.ids]
    rcases List.mem_cons.mp hi with rfl | hi
    · exact mem_ids hx
    · exact h.mem i hi

/-- One pin less: the counts fall along the path to the node and nowhere else. -/
structure Unpinned (o : Option NodeId) (t t' : RadixTree) : Prop where
  nodes : ids t'.places = ids t.places
  blocks : blocksOf t'.places = blocksOf t.places
  locks : ∀ x ∈ t.places, ∀ x' ∈ t'.places, x'.2.id = x.2.id →
    x'.2.lockCount + o.toList.countP (below t.places x.2.id) = x.2.lockCount

theorem PinnedBy.unpin (h : PinnedBy key t (o.toList ++ pins))
    (he : CacheManager.unpin t o = .ok t') : PinnedBy key t' pins ∧ Unpinned o t t' := by
  cases o with
  | none =>
    cases he
    refine ⟨h, rfl, rfl, fun x hx x' hx' hid => ?_⟩
    rw [List.inj_on_of_nodup_map h.wf.ids_nodup hx' hx hid]
    rfl
  | some i =>
    obtain ⟨x, hx, rfl⟩ := List.mem_map.mp (h.mem i List.mem_cons_self)
    obtain ⟨t₁, he', hr, hl⟩ := h.wf.unlock hx h.lockOK
    cases (show t.unlock x.2.id = .ok t' from he).symm.trans he'
    have hbelow : below t'.places = below t.places := by
      obtain ⟨g, hk, hp, -⟩ := hr.nodes
      rw [hp]
      exact funext fun i => funext fun j => hk.below t.places i j
    refine ⟨⟨hr.wf, hl, fun i hi => ?_⟩, hr.ids, hr.blocksOf, fun y hy y' hy' hid => ?_⟩
    · rw [hr.ids]
      exact h.mem i (List.mem_cons_of_mem _ hi)
    · rw [hl y' hy', h.lockOK y hy, hbelow, hid, List.countP_append, Nat.add_comm]
      rfl

theorem PinnedBy.matchPrefix (h : PinnedBy key t pins) {r : MatchResult}
    (he : t.matchPrefix key tokens = .ok (r, t')) : PinnedBy key t' pins ∧
      blocksOf t'.places = blocksOf t.places ∧ ∀ i, r.node = some i → i ∈ ids t'.places := by
  obtain ⟨r', t₁, he', hm⟩ := h.wf.matchPrefix tokens
  cases he.symm.trans he'
  refine ⟨⟨hm.reshaped.wf, hm.reshaped.lockOK h.mem h.lockOK, fun i hi =>
    hm.reshaped.ids (h.mem i hi)⟩, hm.reshaped.blocksOf, fun i hi => ?_⟩
  rcases hm.node with ⟨-, hn⟩ | ⟨j, hj, -, hc⟩
  · rw [hn] at hi
    cases hi
  · rw [hj] at hi
    cases hi
    exact hc.mem

theorem PinnedBy.insert (h : PinnedBy key t pins) {blocks : List BlockId}
    (he : t.insert key p tokens blocks = .ok (n, t', p')) : PinnedBy key t' pins :=
  .of_inv ((h.inv p).insert he)

/-- An eviction takes references away with the blocks of the leaves it drops. -/
theorem PinnedBy.evict (h : PinnedBy key t pins) {k : Nat}
    (he : t.evict key p n = .ok (k, t', p')) : PinnedBy key t' pins ∧
      ∀ b, p'.refcount b + (blocksOf t.places).count b =
        p.refcount b + (blocksOf t'.places).count b := by
  obtain ⟨xs, hxs⟩ := evict_dropped h.wf he
  obtain ⟨hl, hp⟩ := hxs.lockOK h.wf h.lockOK h.mem
  obtain ⟨hw, hperm, -, -⟩ := hxs.wf h.wf
  refine ⟨⟨hw, hl, hp⟩, fun b => ?_⟩
  have h1 := hxs.counts b
  have h2 := (hperm.flatMap_right fun x => x.2.blocks).count_eq b
  rw [List.flatMap_append, List.count_append] at h2
  unfold blocksOf at h1 ⊢
  omega

end RadixTree

/-! ## Requests -/

namespace CacheManager

variable {key : List TokenId → UInt64} {m m' m₁ : CacheManager} {pins : List NodeId}
  {tokens : List TokenId} {al al' : Allocation} {n : Nat}

/-- A reference that is gone was the tree's, and the tree does not store the block as often. -/
def Spares (m m' : CacheManager) : Prop :=
  ∀ b, m.pool.refcount b + (blocksOf m'.tree.places).count b ≤
    m'.pool.refcount b + (blocksOf m.tree.places).count b

theorem Spares.trans (h : Spares m m₁) (h' : Spares m₁ m') : Spares m m' := fun b => by
  have h1 := h b
  have h2 := h' b
  omega

theorem Spares.of_raises (hp : Raises m.pool m'.pool)
    (hb : blocksOf m'.tree.places = blocksOf m.tree.places) : Spares m m' := fun b => by
  rw [hb]
  exact Nat.add_le_add_right (hp b) _

/-- The tree keeps its pins, up to the pin `o` of a new handle, and the pool the others' references. -/
structure Holds (key : List TokenId → UInt64) (pins : List NodeId) (o : Option NodeId)
    (m m' : CacheManager) : Prop where
  pinned : PinnedBy key m'.tree (o.toList ++ pins)
  spares : Spares m m'

theorem Holds.of_tree {o : Option NodeId} (h : Holds key pins o m m₁) (ht : m'.tree = m₁.tree)
    (hp : Raises m₁.pool m'.pool) : Holds key pins o m m' :=
  ⟨ht ▸ h.pinned, h.spares.trans (.of_raises hp (by rw [ht]))⟩

theorem maintain_tree (h : m.maintain = .ok m') : m'.tree = m.tree := by
  obtain rfl | ⟨V, k, p, -, -, rfl⟩ := maintain_cases h
  · rfl
  · rfl

theorem makeRoom_tree (h : m.makeRoom n = .ok m') : m'.tree = m.tree := by
  obtain rfl | ⟨V, k, p, -, -, rfl⟩ := makeRoom_cases h
  · rfl
  · rfl

theorem lookup_holds {r : Request} (h : PinnedBy key m.tree pins)
    (he : m.lookup key tokens = .ok r) : Holds key pins r.alloc.pinned m r.mgr := by
  have hpool := raises_closed.lookup he
  obtain ⟨⟨found, t⟩, hf, he⟩ := bind_ok he
  obtain ⟨t', ht, he⟩ := bind_ok he
  obtain ⟨p, -, he⟩ := bind_ok he
  obtain ⟨k, -, he⟩ := bind_ok he
  cases he
  obtain ⟨hm, hb, hn⟩ := h.matchPrefix hf
  obtain ⟨hp, hb'⟩ := hm.pin hn ht
  exact ⟨hp, .of_raises hpool (hb'.trans hb)⟩

theorem reclaim_holds {o : Option NodeId} {m₀ : CacheManager} : ∀ {fuel : Nat} {m : CacheManager},
    Holds key pins o m₀ m → reclaim key n fuel m = .ok m' → Holds key pins o m₀ m'
  | fuel, m, h, he => by
    obtain rfl | ⟨k, t, p, he, hend⟩ := reclaim_cases he
    · exact h
    obtain ⟨hp, hc⟩ := h.pinned.evict he
    have h₁ : ∀ st, Holds key pins o m₀ { m with tree := t, pool := p, stats := st } := fun st =>
      ⟨hp, h.spares.trans fun b => (hc b).ge⟩
    obtain rfl | ⟨rest, rfl, hrest⟩ := hend
    · exact h₁ _
    · exact reclaim_holds (h₁ _) hrest

/-- **An acquire pins its own node and gives back nothing but blocks the tree drops.** -/
theorem acquire_holds (h : PinnedBy key m.tree pins) (he : m.acquire key tokens = .ok (al, m')) :
    Holds key pins al.pinned m m' := by
  obtain ⟨-, rfl, rfl⟩ | ⟨-, r, m₁, m₂, hr, hm₁, hm₂, hend⟩ := acquire_cases he
  · exact ⟨h, fun _ => Nat.le_refl _⟩
  have h₁ := (lookup_holds h hr).of_tree (makeRoom_tree hm₁) (raises_closed.makeRoom hm₁)
  have h₂ := reclaim_holds h₁ hm₂
  rcases hend with ⟨-, hrf⟩ | ⟨-, hsv⟩
  · obtain ⟨t, hun, rfl, rfl⟩ := refuse_cases hrf
    obtain ⟨hp, hd⟩ := h₂.pinned.unpin hun
    exact ⟨hp, h₂.spares.trans (.of_raises (fun _ => Nat.le_refl _) hd.blocks)⟩
  · have hpool := raises_closed.serve hsv
    obtain ⟨m₃, hst, hmt⟩ := serve_cases hsv
    have htree := maintain_tree hmt
    obtain ⟨k, p, ids, q, -, -, rfl, rfl⟩ := stock_cases hst
    exact h₂.of_tree htree hpool

end CacheManager

end KvsLab
