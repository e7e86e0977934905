import KvsLab.CacheManager.Books

/-!
# The phases of a call

One specification per phase of `acquire`, and for `maintain`.  Each says that the phase returns,
keeps the books, and what it did to the blocks.

* `lookup_spec` — the request's claim on the longest cached prefix is added to the books.
* `makeRoom_spec` — demotion moves eligible blocks of unpinned leaves only.
* `reclaim_spec` — eviction takes unpinned entries only, and stops short of the demand only when
  every leaf is pinned.
* `maintain_spec` — background demotion touches blocks of unpinned nodes only.
-/

namespace KvsLab

open RadixTree BlockPool

namespace CacheManager

variable {key : List TokenId → UInt64} {cl : List Claim} {m m' : CacheManager}

/-! ## Victims -/

/-- Blocks picked for demotion. -/
structure Victims (t : RadixTree) (p : BlockPool) (V : List BlockId) : Prop where
  nodup : V.Nodup
  eligible : ∀ b ∈ V, eligible p b = true
  leaf : ∀ b ∈ V, ∃ x ∈ t.children.leaves Ctx.push .top, x.2.lockCount = 0 ∧ b ∈ x.2.blocks

theorem Victims.cold {t : RadixTree} {p : BlockPool} {V : List BlockId} (h : Victims t p V)
    {b : BlockId} (hb : b ∈ V) : Cold t b := by
  obtain ⟨x, hx, hl, hm⟩ := h.leaf b hb
  exact ⟨x, KeyedForest.mem_places_of_mem_leaves hx, hl, hm⟩

/-- **The picker returns at most `n` victims, and fewer only when there are no more.** -/
theorem pick_spec (h : Books key cl m.tree m.pool) (n : Nat) :
    ∃ V, m.tree.pickDemotionVictims m.pool n [] = .ok V ∧ Victims m.tree m.pool V ∧ V.length ≤ n ∧
      (V.length < n → ∀ x ∈ m.tree.children.leaves Ctx.push .top, x.2.lockCount = 0 →
        ∀ b ∈ x.2.blocks, eligible m.pool b = true → b ∈ V) := by
  have hal : ∀ b ∈ blocksOf m.tree.places, b < m.pool.numBlocks ∧ m.pool.refcount b ≠ 0 := by
    intro b hb
    have hr : m.pool.refcount b ≠ 0 := by
      rw [h.sole.refcount b hb]
      exact Nat.one_ne_zero
    exact ⟨h.inv.lt_of_refcount hr, hr⟩
  obtain ⟨xs, he, hcold, hall⟩ := pickDemotionVictims_spec hal n []
  have hxs := hcold.toColdLeaves
  rw [List.nil_append] at he
  have hmem : ∀ b ∈ (eligibleOf m.pool xs).take n, ∃ x ∈ xs, b ∈ x.2.blocks ∧
      eligible m.pool b = true := by
    intro b hb
    obtain ⟨x, hx, hbx⟩ := List.mem_flatMap.mp (List.mem_of_mem_take hb)
    exact ⟨x, hx, List.mem_filter.mp hbx⟩
  refine ⟨_, he, ⟨?_, ?_, ?_⟩, List.length_take_le _ _, ?_⟩
  · exact (eligibleOf_nodup h.sole.nodup hxs).sublist (List.take_sublist _ _)
  · exact fun b hb => (hmem b hb).choose_spec.2.2
  · intro b hb
    obtain ⟨x, hx, hbx, _⟩ := hmem b hb
    exact ⟨x, (hxs.leaf x hx).1, (hxs.leaf x hx).2, hbx⟩
  · intro hlt x hx hl b hb hel
    rw [List.length_take] at hlt
    have hlen : (eligibleOf m.pool xs).length < n := by omega
    obtain ⟨y, hy, hyx⟩ := List.mem_map.mp (hall hlen x hx hl)
    have hxy : y = x := place_inj h.wf.ids_nodup
      (KeyedForest.mem_places_of_mem_leaves (hxs.leaf y hy).1)
      (KeyedForest.mem_places_of_mem_leaves hx) hyx
    rw [List.take_of_length_le (Nat.le_of_lt hlen)]
    exact List.mem_flatMap.mpr ⟨y, hy, List.mem_filter.mpr ⟨hxy ▸ hb, hel⟩⟩

theorem eligible_iff {p : BlockPool} (h : p.Inv) {b : BlockId} : eligible p b = true ↔
    (p.location b).tier = 0 ∧ p.refcount b = 1 ∧ p.target b = none := by
  unfold eligible
  rw [h.migrating_eq_isSome]
  cases p.target b <;> simp

/-! ## Background demotion -/

/-- What `maintain` leaves. -/
structure Maintained (m m' : CacheManager) : Prop where
  cfg : m'.cfg = m.cfg
  options : m'.options = m.options
  tree : m'.tree = m.tree
  moved : ∃ V, Shifted V m.pool m'.pool ∧ ∀ b ∈ V, Cold m.tree b
  evicted : m'.stats.evictedBlocks = m.stats.evictedBlocks

theorem maintain_spec (h : Books key cl m.tree m.pool) :
    ∃ m', m.maintain = .ok m' ∧ Maintained m m' := by
  have hrefl : Maintained m m := ⟨rfl, rfl, rfl, ⟨[], .refl h.inv _, nofun⟩, rfl⟩
  unfold maintain
  split
  · exact ⟨m, rfl, hrefl⟩
  rename_i hcond
  dsimp only
  split
  · exact ⟨m, rfl, hrefl⟩
  rw [not_or, Nat.not_lt] at hcond
  obtain ⟨V, he, hv, _⟩ := pick_spec h
    (m.options.spillWatermark - (m.pool.numFree + m.pool.pendingDepartures 0))
  have hmove : ∀ (p : BlockPool) id, p.Inv → p.refcount id ≠ 0 → 1 < p.numTiers →
      ∃ b p', p.migrateAsync id 1 = .ok (b, p') ∧ Shifted [id] p p' := by
    intro p id hi hr ht
    rcases hi.migrateAsync_spec hr ht with he | ⟨p', he, hs, _⟩
    · exact ⟨_, _, he, .refl hi _⟩
    · exact ⟨_, _, he, hs⟩
  obtain ⟨n, p', hm, hs⟩ := moveWhile_shifted hmove V m.pool h.inv
    (fun b hb => by
      rw [((eligible_iff h.inv).mp (hv.eligible b hb)).2.1]; exact Nat.one_ne_zero) hcond.1
  simp only [he, hm, bind, Except.bind]
  exact ⟨_, rfl, rfl, rfl, rfl, ⟨V, hs, fun b hb => hv.cold hb⟩, rfl⟩

/-! ## Looking up -/

/-- The claim of a request on its cached prefix. -/
def Request.claim (r : Request) (tokens : List TokenId) : Claim :=
  { tokens := tokens.take r.alloc.cachedTokens
    cached := r.alloc.blocks
    pinned := r.alloc.pinned }

/-- What the first phase of `acquire(tokens)` leaves. -/
structure LookedUp (key : List TokenId → UInt64) (cl : List Claim) (m : CacheManager)
    (tokens : List TokenId) (r : Request) : Prop where
  books : Books key (r.claim tokens :: cl) r.mgr.tree r.mgr.pool
  cfg : r.mgr.cfg = m.cfg
  options : r.mgr.options = m.options
  evicted : r.mgr.stats.evictedBlocks = m.stats.evictedBlocks
  cachedTokens : r.alloc.cachedTokens = r.alloc.blocks.length * m.tree.blockTokens
  cachedBlocks : r.alloc.cachedBlocks = r.alloc.blocks.length
  le : r.alloc.cachedTokens ≤ tokens.length
  found : ∀ i b, r.alloc.blocks[i]? = some b → ∃ lock,
    ⟨tokens.take ((i + 1) * m.tree.blockTokens), b, lock⟩ ∈ entries m.tree.blockTokens m.tree.places
  longest : ∀ e ∈ entries m.tree.blockTokens m.tree.places, e.path <+: tokens →
    e.path.length ≤ r.alloc.cachedTokens
  tree : ∃ t₁, Reshaped key m.tree t₁ ∧ Relocked key t₁ r.mgr.tree
  leaves : ∃ l, KeptBeyond tokens (leafEntries m.tree.blockTokens m.tree.children .top) l ∧
    (leafEntries m.tree.blockTokens r.mgr.tree.children .top).map (fun e => (e.path, e.block)) =
      l.map fun e => (e.path, e.block)
  shifted : Shifted r.alloc.blocks m.pool.drainMigrations r.mgr.pool
  location : r.mgr.pool.location = m.pool.drainMigrations.location
  tierFree : ∀ u, r.mgr.pool.tierFree u = m.pool.drainMigrations.tierFree u
  reserved : ∀ u, r.mgr.pool.reservedTo u = m.pool.drainMigrations.reservedTo u
  target : ∀ b ∈ r.alloc.blocks,
    r.mgr.pool.target b = keepPromotion (m.pool.drainMigrations.target b)
  fresh : r.fresh = needBlocks m.cfg.blockTokens tokens.length - r.alloc.blocks.length
  demand : r.demand = r.fresh + r.alloc.blocks.countP (needsPromotion r.mgr.pool)
  matched : ∃ f t₁, m.tree.matchPrefix key tokens = .ok (f, t₁) ∧ f.blocks = r.alloc.blocks

theorem lookup_spec (h : Books key cl m.tree m.pool) (tokens : List TokenId) :
    ∃ r, m.lookup key tokens = .ok r ∧ LookedUp key cl m tokens r := by
  obtain ⟨f, t₁, hf, hm⟩ := h.wf.matchPrefix tokens
  have hcov : Claim.Pinned ⟨tokens.take f.numTokens, f.blocks, [], f.node⟩ t₁ := by
    rcases hm.node with ⟨h1, h2⟩ | ⟨i, h1, h2, h3⟩
    · refine .inl ⟨h2, ?_, h1⟩
      show tokens.take f.numTokens = []
      rw [hm.numTokens, h1, List.length_nil, Nat.zero_mul, List.take_zero]
    · exact .inr ⟨i, h1, h2, h3⟩
  obtain ⟨t₂, hl, hr, hb⟩ := (h.drain.reshaped hm.reshaped).pin hcov rfl
  obtain ⟨p', hc, hs, hloc, hfree, hres, htar⟩ :=
    cancelDemotions_spec f.blocks m.pool.drainMigrations h.inv.drainMigrations
  have hb' := hb.shifted hs
  have hrc : ∀ b ∈ f.blocks, p'.refcount b ≠ 0 := fun b hm => by
    rw [hb'.refcount_one (hb'.table_held List.mem_cons_self (List.mem_append_left _ hm))]
    exact Nat.one_ne_zero
  unfold lookup
  simp only [hf, bind, Except.bind, hl, hc, countPromotions_eq hs.inv hrc]
  exact ⟨_, rfl, hb', rfl, rfl, rfl, hm.numTokens, rfl, hm.le, hm.found, hm.longest,
    ⟨t₁, hm.reshaped, hr⟩, ⟨_, hm.leaves, hm.reshaped.blockTokens ▸ hr.leafEntries⟩, hs, hloc,
    hfree, hres, htar, rfl, rfl, f, t₁, hf, rfl⟩

/-- The matched blocks are whole blocks of the request. -/
theorem LookedUp.matched_le {tokens : List TokenId} {r : Request}
    (hl : LookedUp key cl m tokens r) (hpos : 0 < m.tree.blockTokens) :
    r.alloc.blocks.length ≤ tokens.length / m.tree.blockTokens :=
  (Nat.le_div_iff_mul_le hpos).mpr (hl.cachedTokens ▸ hl.le)

/-- A request for less than a block matches none. -/
theorem LookedUp.short {tokens : List TokenId} {r : Request}
    (hl : LookedUp key cl m tokens r) (hlt : tokens.length < m.tree.blockTokens) :
    r.alloc.blocks = [] ∧ r.demand = needBlocks m.cfg.blockTokens tokens.length := by
  have hle := hl.matched_le (Nat.zero_lt_of_lt hlt)
  rw [Nat.div_eq_of_lt hlt] at hle
  have hnil : r.alloc.blocks = [] := List.eq_nil_of_length_eq_zero (Nat.le_zero.mp hle)
  refine ⟨hnil, ?_⟩
  rw [hl.demand, hl.fresh, hnil]
  rfl

theorem lookup_short {tokens : List TokenId} (hlt : tokens.length < m.tree.blockTokens) :
    ∃ r, m.lookup key tokens = .ok r ∧ r.mgr.pool = m.pool.drainMigrations ∧
      r.mgr.tree = m.tree := by
  unfold lookup
  simp only [matchPrefix_short hlt, bind, Except.bind]
  exact ⟨_, rfl, rfl, rfl⟩

/-! ## Making room -/

/-- What demotion under pressure leaves: the first `n` of the victims `V` moved. -/
structure MadeRoom (m : CacheManager) (demand : Nat) (V : List BlockId) (n : Nat)
    (m' : CacheManager) : Prop where
  cfg : m'.cfg = m.cfg
  options : m'.options = m.options
  tree : m'.tree = m.tree
  evicted : m'.stats.evictedBlocks = m.stats.evictedBlocks
  victims : Victims m.tree m.pool V
  demoted : Demoted V n m.pool m'.pool
  idle : ¬ (m.pool.numFree < demand ∧ 1 < m.pool.numTiers) → n = 0
  full : m.pool.numFree < demand ∧ 1 < m.pool.numTiers → n = min V.length (m.pool.tierFree 1) ∧
    V.length ≤ demand - m.pool.numFree ∧ (V.length < demand - m.pool.numFree →
      ∀ x ∈ m.tree.children.leaves Ctx.push .top, x.2.lockCount = 0 →
        ∀ b ∈ x.2.blocks, eligible m.pool b = true → b ∈ V)

theorem makeRoom_spec (h : Books key cl m.tree m.pool) (demand : Nat) :
    ∃ m' V n, m.makeRoom demand = .ok m' ∧ MadeRoom m demand V n m' := by
  unfold makeRoom
  split
  · rename_i hcond
    obtain ⟨V, he, hv, hlen, hall⟩ := pick_spec h (demand - m.pool.numFree)
    obtain ⟨p', hm, hd⟩ := demote_spec V m.pool h.inv hv.nodup (fun b hb => by
      obtain ⟨h1, h2, h3⟩ := (eligible_iff h.inv).mp (hv.eligible b hb)
      exact ⟨by rw [h2]; exact Nat.one_ne_zero, h1, h3⟩) hcond.2
    simp only [he, hm, bind, Except.bind]
    exact ⟨_, V, _, rfl, rfl, rfl, rfl, rfl, hv, hd, fun h => absurd hcond h,
      fun _ => ⟨rfl, hlen, hall⟩⟩
  · rename_i hcond
    exact ⟨m, [], 0, rfl, rfl, rfl, rfl, rfl, ⟨List.nodup_nil, nofun, nofun⟩,
      ⟨.refl h.inv _, nofun, rfl, rfl, fun _ => rfl⟩, fun _ => rfl, fun h => absurd h hcond⟩

/-! ## Evicting -/

/-- What the eviction loop leaves: the entries `D` are gone. -/
structure Reclaimed (key : List TokenId → UInt64) (m : CacheManager) (demand : Nat)
    (D : List Entry) (m' : CacheManager) : Prop where
  cfg : m'.cfg = m.cfg
  options : m'.options = m.options
  pool : m'.pool = m.pool.releaseAll (D.map (·.block))
  evicted : m'.stats.evictedBlocks = m.stats.evictedBlocks + D.length
  pruned : Pruned key m.tree D m'.tree
  idle : demand ≤ m.pool.numFree → D = []
  full : m'.pool.numFree < demand →
    ∀ x ∈ m'.tree.children.leaves Ctx.push .top, x.2.lockCount ≠ 0

theorem reclaim_spec (demand : Nat) : ∀ (fuel : Nat) (m : CacheManager),
    Books key cl m.tree m.pool → (blocksOf m.tree.places).length < fuel →
    ∃ m' D, reclaim key demand fuel m = .ok m' ∧ Reclaimed key m demand D m'
  | 0, m, _, hf => by omega
  | fuel + 1, m, h, hf => by
    unfold reclaim
    split
    · rename_i hle
      exact ⟨m, [], rfl, rfl, rfl, rfl, rfl, .refl h.wf, fun _ => rfl, fun hlt => by omega⟩
    rename_i hlt
    obtain ⟨D, t', he, hp, hall⟩ := h.wf.evict h.inv h.sole (demand - m.pool.numFree)
    simp only [he, bind, Except.bind]
    split
    · rename_i h0
      have hD : D = [] := List.eq_nil_of_length_eq_zero h0
      subst hD
      exact ⟨_, [], rfl, rfl, rfl, rfl, rfl, hp, fun _ => rfl,
        fun _ => hall (by rw [List.length_nil]; omega)⟩
    · rename_i h0
      have hb := (h.pruned hp).1
      have hlen := hp.blocksOf.length_eq
      rw [List.length_append, List.length_map] at hlen
      obtain ⟨m', D', he', hr⟩ := reclaim_spec demand fuel
        { m with
          tree := t'
          pool := m.pool.releaseAll (D.map (·.block))
          stats := { m.stats with evictedBlocks := m.stats.evictedBlocks + D.length } } hb (by
            show (blocksOf t'.places).length < fuel
            omega)
      refine ⟨m', D ++ D', he', hr.cfg, hr.options, ?_, ?_, hp.trans hr.pruned, ?_, hr.full⟩
      · rw [hr.pool, List.map_append, releaseAll_append]
      · rw [hr.evicted, List.length_append]
        exact Nat.add_assoc _ _ _
      · intro hle
        exact absurd hle hlt

end CacheManager

end KvsLab
