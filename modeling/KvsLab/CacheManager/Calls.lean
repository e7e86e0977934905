import KvsLab.CacheManager.Outcomes
import KvsLab.CacheManager.Phases

/-!
# The manager's calls

`acquire`, `release`, `abandon` and `ready` return on every state whose books are in order, and
leave the books in order.

* `Settled cl p` — every block of the claims is in the compute tier or on its way there.
* `Carried cl m m'` — what a call does to the blocks of the claims `cl` it is not about: nothing,
  except that a promotion may have been delivered.
* `acquire_spec`, `release_spec`, `abandon_spec`, `ready_spec` — the outcome of each call.
-/

namespace KvsLab

open RadixTree BlockPool

/-- What a handle on `tokens` holds. -/
def Allocation.claim (a : Allocation) (tokens : List TokenId) : Claim :=
  { tokens := tokens.take a.cachedTokens
    cached := a.blocks.take a.cachedBlocks
    fresh := a.freshBlocks
    pinned := a.pinned }

theorem Allocation.claim_table (a : Allocation) (tokens : List TokenId) :
    (a.claim tokens).table = a.blocks := List.take_append_drop _ _

namespace CacheManager

variable {key : List TokenId → UInt64} {cl cl' : List Claim} {c : Claim}
  {m m' m₁ m₂ m₃ : CacheManager} {t t' : RadixTree} {p p' q : BlockPool} {b : BlockId}
  {tokens : List TokenId}

/-! ## The blocks of claims -/

/-- Every block of the claims is in the compute tier or on its way there. -/
def Settled (cl : List Claim) (p : BlockPool) : Prop := ∀ c ∈ cl, ∀ b ∈ c.table, Homed p b

/-- The blocks of the claims were left alone. -/
def Untouched (cl : List Claim) (p p' : BlockPool) : Prop :=
  ∀ c ∈ cl, ∀ b ∈ c.table, SameBlock p p' b

/-- What a call leaves of the claims it is not about. -/
structure Carried (cl : List Claim) (m m' : CacheManager) : Prop where
  cfg : m'.cfg = m.cfg
  options : m'.options = m.options
  shape : SameShape m.pool m'.pool
  kept : ∀ c ∈ cl, ∀ b ∈ c.table, Delivered m.pool m'.pool b

theorem Carried.trans (h : Carried cl m₁ m₂) (h' : Carried cl m₂ m₃) : Carried cl m₁ m₃ :=
  ⟨h'.cfg.trans h.cfg, h'.options.trans h.options, h.shape.trans h'.shape,
    fun c hc b hb => (h.kept c hc b hb).trans (h'.kept c hc b hb)⟩

theorem Carried.settled (h : Carried cl m m') (hs : Settled cl m.pool) : Settled cl m'.pool :=
  fun c hc b hb => (h.kept c hc b hb).homed (hs c hc b hb)

theorem Carried.tail (h : Carried (c :: cl) m m') : Carried cl m m' :=
  ⟨h.cfg, h.options, h.shape, fun d hd => h.kept d (List.mem_cons_of_mem _ hd)⟩

theorem Untouched.carried (h : Untouched cl m.pool m'.pool) (hc : m'.cfg = m.cfg)
    (ho : m'.options = m.options) (hs : SameShape m.pool m'.pool) : Carried cl m m' :=
  ⟨hc, ho, hs, fun c hc b hb => (h c hc b hb).delivered⟩

/-- Moving blocks of unpinned nodes touches no claim. -/
theorem untouched_of_cold (h : Books key cl t p) {V : List BlockId} (hs : Shifted V p p')
    (hV : ∀ b ∈ V, Cold t b) : Untouched cl p p' :=
  fun _ hc b hb => hs.same b fun hm => h.cold_table (hV b hm) hc hb

theorem Maintained.untouched (hm : Maintained m m') (h : Books key cl m.tree m.pool) :
    Untouched cl m.pool m'.pool := by
  obtain ⟨V, hs, hV⟩ := hm.moved
  exact untouched_of_cold h hs hV

theorem Maintained.books (hm : Maintained m m') (h : Books key cl m.tree m.pool) :
    Books key cl m'.tree m'.pool := by
  obtain ⟨V, hs, _⟩ := hm.moved
  rw [hm.tree]
  exact h.shifted hs

theorem Maintained.carried (hm : Maintained m m') (h : Books key cl m.tree m.pool) :
    Carried cl m m' := by
  obtain ⟨V, hs, _⟩ := hm.moved
  exact (hm.untouched h).carried hm.cfg hm.options hs.shape

theorem Maintained.retains (hm : Maintained m m') : Retains m.tree m'.tree m.pool m'.pool := by
  obtain ⟨V, hs, _⟩ := hm.moved
  rw [hm.tree]
  exact .of_pool _ hs.freed

/-! ## The room for a request -/

theorem MadeRoom.untouched {demand n : Nat} {V : List BlockId} (hr : MadeRoom m demand V n m')
    (h : Books key cl m.tree m.pool) : Untouched cl m.pool m'.pool :=
  untouched_of_cold h hr.demoted.shifted fun _ hb => hr.victims.cold (List.mem_of_mem_take hb)

theorem MadeRoom.books {demand n : Nat} {V : List BlockId} (hr : MadeRoom m demand V n m')
    (h : Books key cl m.tree m.pool) : Books key cl m'.tree m'.pool := by
  rw [hr.tree]
  exact h.shifted hr.demoted.shifted

theorem Reclaimed.untouched {demand : Nat} {D : List Entry} (hr : Reclaimed key m demand D m')
    (h : Books key cl m.tree m.pool) : Untouched cl m.pool m'.pool := by
  rw [hr.pool]
  exact fun c hc b hb => (h.pruned hr.pruned).2.same b fun hm =>
    h.cold_table (cold_of_pruned hr.pruned hm) hc hb

theorem Reclaimed.books {demand : Nat} {D : List Entry} (hr : Reclaimed key m demand D m')
    (h : Books key cl m.tree m.pool) : Books key cl m'.tree m'.pool := by
  rw [hr.pool]
  exact (h.pruned hr.pruned).1

theorem LookedUp.carried {tokens : List TokenId} {r : Request} (hl : LookedUp key cl m tokens r)
    (h : Books key cl m.tree m.pool) (hs : Settled cl m.pool) : Carried cl m r.mgr := by
  refine ⟨hl.cfg, hl.options, (SameShape.drainMigrations _).trans hl.shifted.shape, ?_⟩
  intro c hc b hb
  have hd := h.inv.drain_block b
  refine hd.trans ?_
  by_cases hm : b ∈ r.alloc.blocks
  · refine ⟨by rw [hl.shifted.refcount], .inl ⟨by rw [hl.location], ?_⟩⟩
    rw [hl.target b hm]
    -- a block of a live table has no demotion to cancel
    unfold keepPromotion
    rcases hd.homed (hs c hc b hb) with ⟨_, ht⟩ | ⟨_, ht⟩
    · rw [ht]; rfl
    · rw [ht]; rfl
  · exact (hl.shifted.same b hm).delivered

/-- A matched block is home or has a compute slot counted for it. -/
theorem LookedUp.promotable {tokens : List TokenId} {r : Request} (hl : LookedUp key cl m tokens r)
    (hb : b ∈ r.alloc.blocks) : needsPromotion r.mgr.pool b = true ∨ Homed r.mgr.pool b := by
  have ht := hl.target b hb
  unfold keepPromotion at ht
  unfold needsPromotion Homed
  split at ht
  · have := (hl.books.inv.of_target ht).2
    exact .inr (.inr ⟨this, ht⟩)
  · rw [ht]
    by_cases h0 : (r.mgr.pool.location b).tier = 0
    · exact .inr (.inl ⟨h0, rfl⟩)
    · exact .inl (by simpa using h0)

/-- The state of a request when its eviction loop is over. -/
structure Attempt (key : List TokenId → UInt64) (cl : List Claim) (m : CacheManager)
    (tokens : List TokenId) where
  request : Request
  demoted : CacheManager
  evicted : CacheManager
  V : List BlockId
  n : Nat
  D : List Entry
  lookup_eq : m.lookup key tokens = .ok request
  makeRoom_eq : request.mgr.makeRoom request.demand = .ok demoted
  reclaim_eq : reclaim key request.demand (demoted.tree.storedBlocks + 1) demoted = .ok evicted
  looked : LookedUp key cl m tokens request
  room : MadeRoom request.mgr request.demand V n demoted
  reclaimed : Reclaimed key demoted request.demand D evicted

theorem attempt (h : Books key cl m.tree m.pool) (tokens : List TokenId) :
    Nonempty (Attempt key cl m tokens) := by
  obtain ⟨r, he, hl⟩ := lookup_spec h tokens
  obtain ⟨m₁, V, n, he₁, hr⟩ := makeRoom_spec hl.books r.demand
  have hb := hr.books hl.books
  obtain ⟨m₂, D, he₂, hd⟩ := reclaim_spec r.demand (m₁.tree.storedBlocks + 1) m₁ hb
    (by rw [hb.wf.storedBlocks]; exact Nat.lt_succ_self _)
  exact ⟨r, m₁, m₂, V, n, D, he, he₁, he₂, hl, hr, hd⟩

namespace Attempt

variable {tokens : List TokenId} (a : Attempt key cl m tokens)
include a

theorem demoted_books : Books key (a.request.claim tokens :: cl) a.demoted.tree a.demoted.pool :=
  a.room.books a.looked.books

theorem books : Books key (a.request.claim tokens :: cl) a.evicted.tree a.evicted.pool :=
  a.reclaimed.books a.demoted_books

/-- Making room touches neither the request's blocks nor another claim's. -/
theorem untouched : Untouched (a.request.claim tokens :: cl) a.request.mgr.pool a.evicted.pool :=
  fun c hc b hb => (a.room.untouched a.looked.books c hc b hb).trans
    (a.reclaimed.untouched a.demoted_books c hc b hb)

theorem matched_same (hb : b ∈ a.request.alloc.blocks) :
    SameBlock a.request.mgr.pool a.evicted.pool b :=
  a.untouched _ List.mem_cons_self b (List.mem_append_left _ hb)

theorem matched_nodup : a.request.alloc.blocks.Nodup :=
  (List.nodup_append'.mp (a.books.table_nodup List.mem_cons_self)).1

theorem matched_needs (hb : b ∈ a.request.alloc.blocks) :
    needsPromotion a.evicted.pool b = needsPromotion a.request.mgr.pool b :=
  needsPromotion_congr (a.matched_same hb)

theorem matched_needs_count :
    a.request.alloc.blocks.countP (needsPromotion a.evicted.pool) =
      a.request.alloc.blocks.countP (needsPromotion a.request.mgr.pool) :=
  List.countP_congr fun b hb => by rw [a.matched_needs hb]

/-- Every matched block is home or has a slot counted for it still. -/
theorem matched_promotable (hb : b ∈ a.request.alloc.blocks) :
    needsPromotion a.evicted.pool b = true ∨ Homed a.evicted.pool b := by
  rw [a.matched_needs hb, (a.matched_same hb).homed]
  exact a.looked.promotable hb

theorem shape : SameShape a.request.mgr.pool a.evicted.pool := by
  rw [a.reclaimed.pool]
  exact a.room.demoted.shifted.shape.trans (a.demoted_books.pruned a.reclaimed.pruned).2.shape

theorem carried (h : Books key cl m.tree m.pool) (hs : Settled cl m.pool) :
    Carried cl m a.evicted := by
  have hu : Untouched cl a.request.mgr.pool a.evicted.pool := fun c hc =>
    a.untouched c (List.mem_cons_of_mem _ hc)
  exact (a.looked.carried h hs).trans (hu.carried (a.reclaimed.cfg.trans a.room.cfg)
    (a.reclaimed.options.trans a.room.options) a.shape)

theorem retains : Retains m.tree a.evicted.tree m.pool a.evicted.pool := by
  obtain ⟨t₁, hr, hl⟩ := a.looked.tree
  have h1 : Retains m.tree t₁ m.pool m.pool := .of_reshaped hr _
  have h2 : Retains t₁ a.request.mgr.tree m.pool m.pool := .of_relocked hl _
  have h3 : Retains a.request.mgr.tree a.request.mgr.tree m.pool a.request.mgr.pool :=
    .of_pool _ (a.looked.shifted.freed.trans (drain_freed _))
  have h4 : Retains a.request.mgr.tree a.demoted.tree a.request.mgr.pool a.demoted.pool := by
    rw [a.room.tree]
    exact .of_pool _ a.room.demoted.shifted.freed
  have h5 : Retains a.demoted.tree a.evicted.tree a.demoted.pool a.evicted.pool := by
    rw [a.reclaimed.pool]
    exact .of_pruned a.demoted_books a.reclaimed.pruned
  exact (((h1.trans h2).trans h3).trans h4).trans h5

theorem acquire_eq (ht : tokens ≠ []) : m.acquire key tokens =
    if a.evicted.pool.numFree < a.request.demand then a.evicted.refuse a.request.alloc
    else a.evicted.serve a.request.alloc a.request.fresh tokens := by
  unfold acquire
  rw [if_neg ht]
  simp only [a.lookup_eq, a.makeRoom_eq, a.reclaim_eq, bind, Except.bind]

end Attempt

/-! ## Acquiring -/

/-- The outcome of a request that is served. -/
structure Served (key : List TokenId → UInt64) (cl : List Claim) (m : CacheManager)
    (tokens : List TokenId) (a : Allocation) (m' : CacheManager) : Prop where
  carried : Carried cl m m'
  books : Books key (a.claim tokens :: cl) m'.tree m'.pool
  homed : ∀ b ∈ a.blocks, Homed m'.pool b
  retains : Retains m.tree m'.tree m.pool m'.pool
  ok : a.ok = true
  cachedTokens : a.cachedTokens = a.cachedBlocks * m.tree.blockTokens
  le_tokens : a.cachedTokens ≤ tokens.length
  le_blocks : a.cachedBlocks ≤ a.blocks.length
  owner : a.owner = false → a.blocks = [] ∧ a.pinned = none
  found : ∀ i b, i < a.cachedBlocks → a.blocks[i]? = some b →
    ∃ e ∈ entries m.tree.blockTokens m.tree.places,
      e.path = tokens.take ((i + 1) * m.tree.blockTokens) ∧ e.block = b

/-- The outcome of a request that is refused. -/
structure Refused (key : List TokenId → UInt64) (cl : List Claim) (m : CacheManager)
    (a : Allocation) (m' : CacheManager) : Prop where
  carried : Carried cl m m'
  books : Books key cl m'.tree m'.pool
  retains : Retains m.tree m'.tree m.pool m'.pool
  alloc : a = {}

theorem acquire_nil (h : Books key cl m.tree m.pool) :
    ∃ a m', m.acquire key [] = .ok (a, m') ∧ Served key cl m [] a m' := by
  unfold acquire
  rw [if_pos rfl]
  obtain ⟨t', he, _, hb⟩ := h.pin (c := {}) (.inl ⟨rfl, rfl, rfl⟩) rfl
  cases he
  exact ⟨_, _, rfl, ⟨rfl, rfl, .refl _, fun _ _ b _ => .refl _ b⟩, hb, nofun, .of_pool _ rfl, rfl,
    (Nat.zero_mul _).symm, Nat.le_refl _, Nat.le_refl _, fun _ => ⟨rfl, rfl⟩, nofun⟩

theorem Attempt.refuse_spec {tokens : List TokenId} (a : Attempt key cl m tokens)
    (h : Books key cl m.tree m.pool) (hs : Settled cl m.pool) :
    ∃ m', a.evicted.refuse a.request.alloc = .ok ({}, m') ∧ Refused key cl m {} m' ∧
      m'.pool = a.evicted.pool ∧ Relocked key a.evicted.tree m'.tree := by
  obtain ⟨t', he, hr, hb⟩ := a.books.unpin rfl
  have he : unpin a.evicted.tree a.request.alloc.pinned = .ok t' := he
  unfold refuse
  simp only [he, bind, Except.bind]
  have hc := a.carried h hs
  exact ⟨_, rfl, ⟨⟨hc.cfg, hc.options, hc.shape, hc.kept⟩, hb,
    a.retains.trans (.of_relocked hr _), rfl⟩, rfl, hr⟩

/-- The handle of a served request claims what the request did and the new blocks. -/
theorem claim_served {r : Request} {tokens : List TokenId} (ids : List BlockId)
    (h : r.alloc.cachedBlocks = r.alloc.blocks.length) :
    Allocation.claim { r.alloc with ok := true, blocks := r.alloc.blocks ++ ids, owner := true }
      tokens = { r.claim tokens with fresh := (r.claim tokens).fresh ++ ids } := by
  unfold Allocation.claim Allocation.freshBlocks Request.claim
  simp [h]

/-- What a request has once its table is filled. -/
structure Stocked (a : Attempt key cl m tokens) (al : Allocation) (m' : CacheManager) : Prop where
  alloc : ∃ ids, al =
    { a.request.alloc with ok := true, blocks := a.request.alloc.blocks ++ ids, owner := true }
  carried : Carried cl a.evicted m'
  tree : m'.tree = a.evicted.tree
  freed : m'.pool.freed = a.evicted.pool.freed
  books : Books key (al.claim tokens :: cl) m'.tree m'.pool
  homed : ∀ b ∈ al.blocks, Homed m'.pool b

theorem Attempt.stock_spec (a : Attempt key cl m tokens) (h : Books key cl m.tree m.pool)
    (hs : Settled cl m.pool) (hfree : a.request.demand ≤ a.evicted.pool.numFree) :
    ∃ al m', a.evicted.stock a.request.alloc a.request.fresh tokens = .ok (al, m') ∧
      Stocked a al m' := by
  have hb := a.books
  have htab : ∀ b ∈ a.request.alloc.blocks, b ∈ (a.request.claim tokens).table := fun b hb =>
    List.mem_append_left _ hb
  have hcount := a.matched_needs_count
  have hdem := a.looked.demand
  -- promote
  obtain ⟨p₁, he₁, hs₁, hh₁, hu₁, hf₁⟩ := promoteAll_spec a.evicted.options.asyncPromotion
    a.request.alloc.blocks a.evicted.pool hb.inv a.matched_nodup
    (fun b hm => by
      rw [hb.refcount_one (hb.table_held List.mem_cons_self (htab b hm))]
      exact Nat.one_ne_zero)
    (fun b hm => a.matched_promotable hm) (by omega)
  have hb₁ := hb.shifted hs₁
  -- allocate
  obtain ⟨ids, p₂, he₂, _, ht⟩ := allocateAll_spec a.request.fresh p₁ hs₁.inv (by omega)
  have hb₂ := hb₁.take ht
  rw [← claim_served ids a.looked.cachedBlocks] at hb₂
  -- the claims' blocks are allocated already, so they are not among the new ones
  have hnot : ∀ c ∈ a.request.claim tokens :: cl, ∀ b ∈ c.table, b ∉ ids := fun c hc b hbc hm => by
    have := ht.free b hm
    rw [hb₁.refcount_one (hb₁.table_held hc hbc)] at this
    cases this
  have hset := (a.carried h hs).settled hs
  unfold stock
  simp only [he₁, he₂, bind, Except.bind]
  refine ⟨_, _, rfl, ⟨ids, rfl⟩, ⟨rfl, rfl, hs₁.shape.trans ht.shape, ?_⟩, rfl,
    ht.freed.trans hs₁.freed, hb₂, ?_⟩
  · intro c hc b hbc
    exact (hu₁ b (hset c hc b hbc)).delivered.trans
      (ht.same b (hnot c (List.mem_cons_of_mem _ hc) b hbc)).delivered
  · intro b hbm
    rcases List.mem_append.mp hbm with hbm | hbm
    · exact (ht.same b (hnot _ List.mem_cons_self b (htab b hbm))).homed.mpr (hh₁ b hbm)
    · exact .inl (ht.taken b hbm).2

theorem Attempt.serve_spec (a : Attempt key cl m tokens) (h : Books key cl m.tree m.pool)
    (hs : Settled cl m.pool) (hfree : a.request.demand ≤ a.evicted.pool.numFree) :
    ∃ al m', a.evicted.serve a.request.alloc a.request.fresh tokens = .ok (al, m') ∧
      Served key cl m tokens al m' := by
  obtain ⟨al, m₁, he, hst⟩ := a.stock_spec h hs hfree
  obtain ⟨m', hm', hm⟩ := maintain_spec hst.books
  rw [serve_eq, he]
  simp only [bind, Except.bind, hm']
  have hcar := hm.carried hst.books
  have hret : Retains a.evicted.tree m₁.tree a.evicted.pool m₁.pool := by
    rw [hst.tree]
    exact .of_pool _ hst.freed
  obtain ⟨ids, rfl⟩ := hst.alloc
  refine ⟨_, m', rfl, ?_, hm.books hst.books, ?_, ?_, rfl, ?_, a.looked.le, ?_, nofun, ?_⟩
  · exact ((a.carried h hs).trans hst.carried).trans hcar.tail
  · intro b hbm
    have hunt := hm.untouched hst.books _ List.mem_cons_self b
      (by rw [Allocation.claim_table]; exact hbm)
    exact hunt.homed.mpr (hst.homed b hbm)
  · exact (a.retains.trans hret).trans hm.retains
  · show a.request.alloc.cachedTokens = a.request.alloc.cachedBlocks * _
    rw [a.looked.cachedTokens, a.looked.cachedBlocks]
  · show a.request.alloc.cachedBlocks ≤ (a.request.alloc.blocks ++ ids).length
    rw [a.looked.cachedBlocks, List.length_append]
    exact Nat.le_add_right _ _
  · intro i b hi hget
    have hi : i < a.request.alloc.blocks.length := a.looked.cachedBlocks ▸ hi
    have hget : (a.request.alloc.blocks ++ ids)[i]? = some b := hget
    rw [List.getElem?_append_left hi] at hget
    obtain ⟨l, hl⟩ := a.looked.found i b hget
    exact ⟨_, hl, rfl, rfl⟩

/-- **`acquire` serves the request or backs out.** -/
theorem acquire_spec (h : Books key cl m.tree m.pool) (hs : Settled cl m.pool)
    (tokens : List TokenId) : ∃ a m', m.acquire key tokens = .ok (a, m') ∧
      (Served key cl m tokens a m' ∨ Refused key cl m a m') := by
  by_cases ht : tokens = []
  · subst ht
    obtain ⟨a, m', he, hv⟩ := acquire_nil h
    exact ⟨a, m', he, .inl hv⟩
  · obtain ⟨a⟩ := attempt h tokens
    rw [a.acquire_eq ht]
    split
    · obtain ⟨m', he, hr, _⟩ := a.refuse_spec h hs
      exact ⟨_, m', he, .inr hr⟩
    · rename_i hf
      obtain ⟨al, m', he, hv⟩ := a.serve_spec h hs (Nat.le_of_not_lt hf)
      exact ⟨al, m', he, .inl hv⟩

/-! ## Releasing -/

/-- The outcome of the release of a handle with claim `c`. -/
structure GivenBack (key : List TokenId → UInt64) (cl : List Claim) (c : Claim) (m : CacheManager)
    (tokens : List TokenId) (m' : CacheManager) : Prop where
  carried : Carried cl m m'
  books : Books key cl m'.tree m'.pool
  blockTokens : m'.tree.blockTokens = m.tree.blockTokens
  freed : ∃ G, m'.pool.freed = m.pool.freed ++ G ∧ ∀ b ∈ G, b ∉ blocksOf m'.tree.places
  published : ∃ n t p, m.tree.insert key m.pool tokens c.table = .ok (n, t, p) ∧
    (∀ e ∈ entries m.tree.blockTokens m'.tree.places,
      ∃ e₁ ∈ entries m.tree.blockTokens t.places, e₁.path = e.path ∧ e₁.block = e.block) ∧
    ∀ e ∈ entries m.tree.blockTokens t.places, e ∈ entries m.tree.blockTokens m.tree.places ∨
      ((∀ e₀ ∈ entries m.tree.blockTokens m.tree.places, e₀.path ≠ e.path) ∧
        ∃ k, c.table[k]? = some e.block ∧ e.path = tokens.take ((k + 1) * m.tree.blockTokens) ∧
          (k + 1) * m.tree.blockTokens ≤ tokens.length)

/-- Blocks of the claims that stay, across a change that keeps every allocated block in place. -/
theorem delivered_of_same (h : Books key cl t p) (h' : Books key cl' t' p') (hc : c ∈ cl)
    (hc' : c ∈ cl')
    (hs : ∀ y, p'.refcount y ≠ 0 → p'.location y = p.location y ∧ p'.target y = p.target y)
    (hb : b ∈ c.table) : Delivered p p' b := by
  have h1 := h.refcount_one (h.table_held hc hb)
  have h2 := h'.refcount_one (h'.table_held hc' hb)
  exact ⟨h2.trans h1.symm, .inl (hs b (by rw [h2]; exact Nat.one_ne_zero))⟩

/-- Publishing, giving back and unpinning. -/
theorem giveBack_spec {a : Allocation} {tokens₀ : List TokenId}
    (h : Books key (a.claim tokens₀ :: cl) m.tree m.pool)
    (hag : tokens.take (a.claim tokens₀).tokens.length <+: (a.claim tokens₀).tokens) :
    ∃ t₁ t₂ p₁, m.giveBack key tokens a = .ok (a.disarm, { m with pool := p₁, tree := t₂ }) ∧
      Books.Published key (a.claim tokens₀) tokens m.tree t₁ m.pool p₁ ∧ Relocked key t₁ t₂ ∧
      Books key cl t₂ p₁ := by
  obtain ⟨t₁, p₁, hpub, hb₁⟩ := h.publish hag
  obtain ⟨n, q, hins, hdrop⟩ := hpub.inserted
  obtain ⟨t₂, hun, hrel, hb₂⟩ := hb₁.unpin rfl
  have hun : unpin t₁ a.pinned = .ok t₂ := hun
  have hdrop : dropRefs a.freshBlocks q = .ok p₁ := hdrop
  rw [Allocation.claim_table] at hins
  unfold giveBack
  simp only [hins, hdrop, hun, bind, Except.bind]
  exact ⟨t₁, t₂, p₁, rfl, hpub, hrel, hb₂⟩

/-- **`release` publishes, gives back and unpins.** -/
theorem release_spec {a : Allocation} {tokens₀ : List TokenId}
    (h : Books key (a.claim tokens₀ :: cl) m.tree m.pool) (hok : a.ok = true)
    (hag : tokens.take (a.claim tokens₀).tokens.length <+: (a.claim tokens₀).tokens)
    (ws : List (WorkerId × WorkerAct)) :
    ∃ m', m.release key tokens a ws = .ok (a.disarm, m') ∧
      GivenBack key cl (a.claim tokens₀) m tokens m' := by
  obtain ⟨t₁, t₂, p₁, hg, hpub, hrel, hb₂⟩ := giveBack_spec h hag
  obtain ⟨n, q, hins, -⟩ := hpub.inserted
  have hw := hb₂.inv.work ws
  have hb₃ := (hb₂.shifted hw).drain
  obtain ⟨m', he, hm⟩ := maintain_spec
    (m := { m with pool := (p₁.work ws).drainMigrations, tree := t₂ }) hb₃
  have hb' := hm.books hb₃
  have hret : Retains t₁ m'.tree p₁ m'.pool := by
    refine ((Retains.of_relocked hrel p₁).trans (.of_pool t₂ ?_)).trans hm.retains
    exact (drain_freed _).trans hw.freed
  unfold release
  simp only [hok, hg, he, bind, Except.bind]
  refine ⟨m', rfl, ⟨hm.cfg, hm.options, ?_, ?_⟩, hb', ?_, ?_, ⟨n, t₁, q, hins, ?_, hpub.entries⟩⟩
  · obtain ⟨V, hs, _⟩ := hm.moved
    exact ((hpub.shape.trans hw.shape).trans (SameShape.drainMigrations _)).trans hs.shape
  · intro c hc b hbc
    have h1 : Delivered m.pool p₁ b :=
      delivered_of_same h hb₂ (List.mem_cons_of_mem _ hc) hc hpub.same hbc
    have h2 : Delivered p₁ (p₁.work ws) b := (hw.same b List.not_mem_nil).delivered
    have h3 : Delivered (p₁.work ws) (p₁.work ws).drainMigrations b := hw.inv.drain_block b
    exact ((h1.trans h2).trans h3).trans (hm.untouched hb₃ c hc b hbc).delivered
  · rw [hret.blockTokens, hpub.blockTokens]
  · obtain ⟨G, hG, hn⟩ := hpub.freed
    obtain ⟨G', hG', hn'⟩ := hret.freed
    refine ⟨G ++ G', by rw [hG', hG, List.append_assoc], fun b hb hm => ?_⟩
    rcases List.mem_append.mp hb with hb | hb
    · exact hn b hb (hret.blocks hm)
    · exact hn' b hb hm
  · rw [← hpub.blockTokens]
    exact hret.entries

/-! ## Dropping a handle -/

/-- **`abandon` gives everything back.** -/
theorem abandon_spec {a : Allocation} {tokens₀ : List TokenId}
    (h : Books key (a.claim tokens₀ :: cl) m.tree m.pool) :
    ∃ m', m.abandon a = .ok (a.disarm, m') ∧ Carried cl m m' ∧ Books key cl m'.tree m'.pool ∧
      Retains m.tree m'.tree m.pool m'.pool := by
  obtain ⟨p₁, hdrop, hd, hb₁⟩ := h.drop
  obtain ⟨t₂, hun, hrel, hb₂⟩ := hb₁.unpin rfl
  have hdrop : dropRefs a.freshBlocks m.pool = .ok p₁ := hdrop
  have hun : unpin m.tree a.pinned = .ok t₂ := hun
  unfold abandon
  simp only [hdrop, hun, bind, Except.bind]
  refine ⟨_, rfl, ⟨rfl, rfl, hd.shape, ?_⟩, hb₂, (Retains.of_dropped h hd).trans (.of_relocked hrel _)⟩
  intro c hc b hbc
  exact delivered_of_same h hb₂ (List.mem_cons_of_mem _ hc) hc hd.same hbc

/-! ## Asking whether a handle is ready -/

theorem inCompute_eq (h : p.Inv) : ∀ {ids : List BlockId}, (∀ b ∈ ids, p.refcount b ≠ 0) →
    inCompute p ids = .ok (ids.all fun b => (p.location b).tier == 0)
  | [], _ => rfl
  | b :: ids, hr => by
    unfold inCompute
    simp only [h.blockTier_eq (hr b List.mem_cons_self), bind, Except.bind]
    by_cases h0 : (p.location b).tier = 0
    · simp only [h0, ne_eq, not_true_eq_false, if_false, List.all_cons, BEq.rfl, Bool.true_and]
      exact inCompute_eq h fun c hc => hr c (List.mem_cons_of_mem _ hc)
    · have hb : ((p.location b).tier == 0) = false := beq_false_of_ne h0
      rw [List.all_cons, hb, if_pos h0]
      rfl

/-- **`ready` says whether every block of the table is in the compute tier.** -/
theorem ready_spec {a : Allocation} {tokens₀ : List TokenId}
    (h : Books key cl m.tree m.pool) (hc : a.claim tokens₀ ∈ cl) (hok : a.ok = true)
    (ho : a.owner = true) :
    m.ready a = .ok (a.blocks.all fun b => (m.pool.drainMigrations.location b).tier == 0,
      { m with pool := m.pool.drainMigrations }) := by
  have hr : ∀ b ∈ a.blocks, m.pool.drainMigrations.refcount b ≠ 0 := fun b hb => by
    rw [h.drain.refcount_one (h.drain.table_held hc (by rw [Allocation.claim_table]; exact hb))]
    exact Nat.one_ne_zero
  unfold ready
  rw [hok, ho]
  simp only [inCompute_eq h.inv.drainMigrations hr, bind, Except.bind]
  rfl

theorem drain_carried (h : Books key cl m.tree m.pool) :
    Carried cl m { m with pool := m.pool.drainMigrations } :=
  ⟨rfl, rfl, .drainMigrations _, fun _ _ b _ => h.inv.drain_block b⟩

end CacheManager

end KvsLab
