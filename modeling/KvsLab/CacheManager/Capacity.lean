import KvsLab.CacheManager.Demotion
import Mathlib.Algebra.Order.Floor.Div

/-!
# Room for a request

A request can count on the free compute slots and on every compute block of the tree that no pin
protects: demotion moves such a block away, eviction drops it, and neither touches anything else
in the compute tier.

* `coldBlocks` — the blocks of unpinned nodes.
* `Attempt.numFree_evicted` — the slots demotion and eviction free.
* `Attempt.fits_iff` — the request fits exactly when its demand is at most the free slots and the
  cold compute blocks together.
* `SucceedsExactly` / `acquire_ok_iff` — **`acquire` succeeds exactly when the blocks its tokens lack
  fit**, unless the sum under `need_blocks` wraps and nothing is free.
* `ServesInFull` / `acquire_serves_iff` — **once the capacity check is passed nothing fails, and the
  table covers the request**, exactly when that sum does not wrap.
-/

namespace KvsLab

open RadixTree BlockPool CacheManager Transition Counting

namespace CacheManager

variable {key : List TokenId → UInt64} {cl : List Claim} {m m' : CacheManager}
  {tokens : List TokenId} {b : BlockId}

/-! ## Cold blocks -/

/-- The blocks of unpinned nodes. -/
def coldBlocks (t : RadixTree) : List BlockId :=
  (t.places.filter fun x => x.2.lockCount == 0).flatMap (·.2.blocks)

/-- How many of them are in the compute tier. -/
def coldCompute (m : CacheManager) : Nat :=
  (coldBlocks m.tree).countP fun b => (m.pool.location b).tier == 0

theorem mem_coldBlocks {t : RadixTree} : b ∈ coldBlocks t ↔ Cold t b := by
  unfold coldBlocks Cold
  simp only [List.mem_flatMap, List.mem_filter, beq_iff_eq, and_assoc]

theorem coldBlocks_nodup {t : RadixTree} (h : (blocksOf t.places).Nodup) :
    (coldBlocks t).Nodup := by
  have hsub : (coldBlocks t).Sublist (blocksOf t.places) :=
    List.Sublist.flatMap (List.filter_sublist) _
  exact h.sublist hsub

namespace Attempt

variable (a : Attempt key cl m tokens)
include a

theorem demoted_length : (a.V.take a.n).length = a.n := by
  rw [List.length_take]
  by_cases hc : a.request.mgr.pool.numFree < a.request.demand ∧ 1 < a.request.mgr.pool.numTiers
  · have := (a.room.full hc).1
    omega
  · rw [a.room.idle hc, Nat.zero_min]

/-- The slots that demotion and eviction free in the compute tier. -/
theorem numFree_evicted : a.evicted.pool.numFree = a.request.mgr.pool.numFree + a.n +
    (a.D.map (·.block)).countP fun b => (a.demoted.pool.location b).tier == 0 := by
  have hrel := (a.demoted_books.pruned a.reclaimed.pruned).2
  rw [a.reclaimed.pool, ← a.room.demoted.compute]
  exact hrel.free 0

/-- The blocks that were moved or dropped to free them. -/
def vacated : List BlockId :=
  a.V.take a.n ++ (a.D.map (·.block)).filter fun b => (a.demoted.pool.location b).tier == 0

theorem length_vacated : a.evicted.pool.numFree =
    a.request.mgr.pool.numFree + a.vacated.length := by
  rw [a.numFree_evicted, vacated, List.length_append, a.demoted_length,
    ← List.countP_eq_length_filter]
  omega

theorem evicted_nodup : (a.D.map (·.block)).Nodup :=
  (List.nodup_append'.mp
    ((Books.held_pruned a.reclaimed.pruned).nodup_iff.mp a.demoted_books.nodup)).1

/-- A block in the compute tier after demotion was not demoted. -/
theorem not_demoted (h : (a.demoted.pool.location b).tier = 0) : b ∉ a.V.take a.n := by
  intro hb
  have := (a.room.demoted.moved b hb).1
  rw [h] at this
  exact absurd this (by decide)

theorem vacated_nodup : a.vacated.Nodup := by
  refine List.nodup_append'.mpr ⟨(List.take_sublist _ _).nodup a.room.victims.nodup,
    a.evicted_nodup.filter _, fun b hv hd => ?_⟩
  rw [List.mem_filter, beq_iff_eq] at hd
  exact a.not_demoted hd.2 hv

/-- All of them were cold and in the compute tier. -/
theorem mem_vacated (h : b ∈ a.vacated) :
    Cold a.request.mgr.tree b ∧ (a.request.mgr.pool.location b).tier = 0 := by
  rcases List.mem_append.mp h with hv | hd
  · have hv := (List.take_sublist _ _).subset hv
    have hel := (eligible_iff a.looked.books.inv).mp (a.room.victims.eligible b hv)
    exact ⟨a.room.victims.cold hv, hel.1⟩
  · rw [List.mem_filter, beq_iff_eq] at hd
    have hc := cold_of_pruned a.reclaimed.pruned hd.1
    rw [a.room.tree] at hc
    rw [← (a.room.demoted.shifted.same b (a.not_demoted hd.2)).location]
    exact ⟨hc, hd.2⟩

/-- When the request is still short, all cold compute blocks are among them. -/
theorem vacated_of_cold (hfull : a.evicted.pool.numFree < a.request.demand)
    (hc : Cold a.request.mgr.tree b) (h0 : (a.request.mgr.pool.location b).tier = 0) :
    b ∈ a.vacated := by
  by_cases hv : b ∈ a.V.take a.n
  · exact List.mem_append_left _ hv
  refine List.mem_append_right _ (List.mem_filter.mpr ⟨?_, ?_⟩)
  · -- no leaf is left unpinned, hence no node, so the entry of `b` is gone
    have hlock := all_locked a.books.wf a.books.locks (a.reclaimed.full hfull)
    rw [← a.room.tree] at hc
    obtain ⟨x, hx, hl, hbx⟩ := hc
    obtain ⟨e, he, heb, hel⟩ := place_entry a.demoted.tree.blockTokens hbx
    have hmem := a.reclaimed.pruned.entries.mem_iff.mp (List.mem_flatMap.mpr ⟨x, hx, he⟩)
    rcases List.mem_append.mp hmem with hD | hleft
    · exact List.mem_map.mpr ⟨e, hD, heb⟩
    · obtain ⟨y, hy, hey⟩ := List.mem_flatMap.mp hleft
      exact absurd ((mem_placeEntries hey).2.1.symm.trans (hel.trans hl)) (hlock y hy)
  · rw [beq_iff_eq, (a.room.demoted.shifted.same b hv).location]
    exact h0

theorem coldCompute_eq_length : a.request.mgr.coldCompute =
    ((coldBlocks a.request.mgr.tree).filter
      fun b => (a.request.mgr.pool.location b).tier == 0).length :=
  List.countP_eq_length_filter

theorem numFree_evicted_le :
    a.evicted.pool.numFree ≤ a.request.mgr.pool.numFree + a.request.mgr.coldCompute := by
  have hsub : a.vacated ⊆ (coldBlocks a.request.mgr.tree).filter
      fun b => (a.request.mgr.pool.location b).tier == 0 := fun b hb => by
    obtain ⟨hc, h0⟩ := a.mem_vacated hb
    exact List.mem_filter.mpr ⟨mem_coldBlocks.mpr hc, beq_iff_eq.mpr h0⟩
  have := (a.vacated_nodup.subperm hsub).length_le
  rw [a.length_vacated, a.coldCompute_eq_length]
  omega

theorem numFree_evicted_ge (hfull : a.evicted.pool.numFree < a.request.demand) :
    a.request.mgr.pool.numFree + a.request.mgr.coldCompute ≤ a.evicted.pool.numFree := by
  have hsub : (coldBlocks a.request.mgr.tree).filter
      (fun b => (a.request.mgr.pool.location b).tier == 0) ⊆ a.vacated := fun b hb => by
    obtain ⟨hc, h0⟩ := List.mem_filter.mp hb
    exact a.vacated_of_cold hfull (mem_coldBlocks.mp hc) (beq_iff_eq.mp h0)
  have hnd := (coldBlocks_nodup a.looked.books.sole.nodup).filter
    fun b => (a.request.mgr.pool.location b).tier == 0
  have := (hnd.subperm hsub).length_le
  rw [a.length_vacated, a.coldCompute_eq_length]
  omega

/-- The request fits after eviction exactly when it fits the free slots and the cold compute
blocks. -/
theorem fits_iff : a.request.demand ≤ a.evicted.pool.numFree ↔
    a.request.demand ≤ a.request.mgr.pool.numFree + a.request.mgr.coldCompute := by
  refine ⟨fun h => h.trans a.numFree_evicted_le, fun h => ?_⟩
  by_contra hlt
  have := a.numFree_evicted_ge (Nat.lt_of_not_le hlt)
  omega

theorem demand_eq_need : a.request.demand =
    needBlocks m.cfg.blockTokens tokens.length - a.request.alloc.blocks.length +
      a.request.alloc.blocks.countP fun b =>
        (a.request.mgr.pool.location b).tier != 0 && !a.request.mgr.pool.migrating b := by
  have hneeds : needsPromotion a.request.mgr.pool = fun b =>
      (a.request.mgr.pool.location b).tier != 0 && !a.request.mgr.pool.migrating b := by
    funext b
    unfold needsPromotion
    rw [a.looked.books.inv.migrating_eq_isSome, Option.not_isSome]
  rw [a.looked.demand, a.looked.fresh, hneeds]

/-- No more blocks are matched than are needed. -/
theorem matched_le_need (hbt : m.cfg.blockTokens = m.tree.blockTokens) (hpos : 0 < m.tree.blockTokens)
    (hst : Storable tokens) :
    a.request.alloc.blocks.length ≤ needBlocks m.cfg.blockTokens tokens.length :=
  hbt ▸ (a.looked.matched_le hpos).trans (div_le_needBlocks hst.lt)

end Attempt

/-! ## Slots taken by a served request -/

/-- What queueing demotions leaves as it was. -/
def SameCompute (p p' : BlockPool) : Prop := p'.numFree = p.numFree ∧ p'.location = p.location

theorem SameCompute.trans {p p' q : BlockPool} (h : SameCompute p p') (h' : SameCompute p' q) :
    SameCompute p q := ⟨h'.1.trans h.1, h'.2.trans h.2⟩

theorem migrateAsync_compute {p p' : BlockPool} {id : BlockId} {moved : Bool}
    (h : p.migrateAsync id 1 = .ok (moved, p')) : SameCompute p p' := by
  unfold migrateAsync at h
  simp only [bind, Except.bind, pure, Except.pure] at h
  repeat' split at h
  -- a slot that was reserved is one of tier 1
  all_goals first
    | cases h; exact ⟨rfl, rfl⟩
    | cases h

theorem moveWhile_compute : ∀ {ids : List BlockId} {p p' : BlockPool} {n : Nat},
    moveWhile (fun p id => p.migrateAsync id 1) ids p = .ok (n, p') → SameCompute p p' := by
  intro ids
  induction ids with
  | nil =>
    intro p p' n h
    cases h
    exact ⟨rfl, rfl⟩
  | cons id ids ih =>
    intro p p' n h
    simp only [moveWhile, bind, Except.bind, pure, Except.pure] at h
    split at h
    · cases h
    rename_i r hr
    split at h
    · cases h
      exact migrateAsync_compute hr
    split at h
    · cases h
    rename_i hrest
    cases h
    exact (migrateAsync_compute hr).trans (ih hrest)

/-- Background demotion reserves slots of the spill tier only, and moves nothing yet. -/
theorem maintain_compute (h : m.maintain = .ok m') : SameCompute m.pool m'.pool := by
  obtain rfl | ⟨V, k, p, -, hmv, rfl⟩ := maintain_cases h
  · exact ⟨rfl, rfl⟩
  · exact moveWhile_compute hmv

theorem allocateAll_taken : ∀ {n : Nat} {p p' : BlockPool} {ids : List BlockId},
    allocateAll n p = .ok (ids, p') → (∀ b ∈ ids, b ≠ kInvalidBlock) ∧ p'.numFree + n = p.numFree := by
  intro n
  induction n with
  | zero =>
    intro p p' ids h
    cases h
    exact ⟨nofun, rfl⟩
  | succ n ih =>
    intro p p' ids h
    simp only [allocateAll, bind, Except.bind, pure, Except.pure] at h
    split at h
    · cases h
    rename_i r hr
    split at h
    · cases h
    rename_i hid
    split at h
    · cases h
    rename_i rest hrest
    obtain ⟨ids', q⟩ := rest
    cases h
    obtain ⟨hval, hnum⟩ := ih hrest
    refine ⟨List.forall_mem_cons.mpr ⟨hid, hval⟩, ?_⟩
    unfold allocate at hr
    split at hr
    · rename_i id _ slot _ _ hslots
      split at hr
      · cases hr
      · cases hr
        have htake : (p.takeBlock id slot).tierFree 0 + _ = p.tierFree 0 :=
          takeBlock_tierFree hslots 0
        rw [if_pos rfl] at htake
        have hnum : q.numFree + n = (p.takeBlock id slot).tierFree 0 := hnum
        show q.numFree + (n + 1) = p.tierFree 0
        omega
    · cases hr
      exact absurd rfl hid

/-- **What a request that passes the capacity check gets**: all promotions and allocations
succeed, the table has as many blocks as `need_blocks`, the new ones were free, and the compute tier
has `demand` free slots less. -/
theorem Attempt.serves (a : Attempt key cl m tokens) (h : Books key cl m.tree m.pool)
    (hs : Settled cl m.pool) (ht : tokens ≠ []) (hst : Storable tokens)
    (hbt : m.cfg.blockTokens = m.tree.blockTokens)
    (hfree : a.request.demand ≤ a.evicted.pool.numFree) :
    ∃ n p₁ ids p₂ al m',
      promoteAll a.evicted.options.asyncPromotion a.request.alloc.blocks a.evicted.pool =
        .ok (n, p₁) ∧ a.request.fresh + n = a.request.demand ∧
      allocateAll a.request.fresh p₁ = .ok (ids, p₂) ∧ (∀ b ∈ ids, b ≠ kInvalidBlock) ∧
      m.acquire key tokens = .ok (al, m') ∧ al.ok = true ∧
      al.cachedBlocks = a.request.alloc.blocks.length ∧
      al.cachedBlocks ≤ needBlocks m.cfg.blockTokens tokens.length ∧
      al.blocks = a.request.alloc.blocks ++ ids ∧
      al.blocks.length = needBlocks m.cfg.blockTokens tokens.length ∧ al.blocks.Nodup ∧
      (∀ b ∈ ids, b ∈ p₁.freeIds ∧ p₁.refcount b = 0 ∧ (m'.pool.location b).tier = 0) ∧
      m'.pool.numFree = a.evicted.pool.numFree - a.request.demand := by
  have hb := a.books
  have hcount := a.matched_needs_count
  have hdem := a.looked.demand
  obtain ⟨p₁, he₁, hs₁, _, _, hf₁⟩ := promoteAll_spec a.evicted.options.asyncPromotion
    a.request.alloc.blocks a.evicted.pool hb.inv a.matched_nodup
    (fun b hm => hb.held_iff.mpr
      (hb.table_held List.mem_cons_self (List.mem_append_left _ hm)))
    (fun b hm => a.matched_promotable hm) (by omega)
  obtain ⟨ids, p₂, he₂, hlen, htk⟩ := allocateAll_spec a.request.fresh p₁ hs₁.inv (by omega)
  obtain ⟨hval, hnum⟩ := allocateAll_taken he₂
  obtain ⟨al, m', hse, hsv⟩ := a.serve_spec h hs hfree
  have hacq : m.acquire key tokens = .ok (al, m') := by
    rw [a.acquire_eq ht, if_neg (Nat.not_lt.mpr hfree), hse]
  -- the table and the pool before `maintain`
  obtain ⟨m₃, hstock, hmt⟩ := serve_cases hse
  obtain ⟨k, p, ids', q, hp, hq, rfl, rfl⟩ := stock_cases hstock
  cases he₁.symm.trans hp
  cases he₂.symm.trans hq
  have hcomp := maintain_compute hmt
  have hle := a.matched_le_need hbt h.wf.bt_pos hst
  have hfresh := a.looked.fresh
  have hnd := hsv.books.table_nodup List.mem_cons_self
  rw [Allocation.claim_table] at hnd
  refine ⟨_, p₁, ids, p₂, _, m', he₁, by rw [hcount, hdem], he₂, hval, hacq, rfl,
    a.looked.cachedBlocks, ?_, rfl, ?_, hnd, ?_, ?_⟩
  · show a.request.alloc.cachedBlocks ≤ _
    rw [a.looked.cachedBlocks]
    exact hle
  · show (a.request.alloc.blocks ++ ids).length = _
    rw [List.length_append, hlen]
    omega
  · intro b hbm
    have hr0 := htk.free b hbm
    have hlt : b < p₁.numBlocks := by
      have hne : p₂.refcount b ≠ 0 := by
        rw [(htk.taken b hbm).1]
        exact Nat.one_ne_zero
      have := htk.inv.lt_of_refcount hne
      rwa [htk.shape.numBlocks] at this
    refine ⟨hs₁.inv.mem_freeIds.mpr ⟨hlt, hr0⟩, hr0, ?_⟩
    rw [show m'.pool.location = p₂.location from hcomp.2]
    exact (htk.taken b hbm).2.1
  · have hp₂ : m'.pool.numFree = p₂.numFree := hcomp.1
    omega

end CacheManager

namespace System

variable {key : List TokenId → UInt64} {s : System} {m₀ m₁ m₂ : CacheManager} {r : Request}
  {specs : List TierSpec} {cfg : CacheConfig} {options : Options}
  {mem : Arena.Mem TierIndex UInt8} {tr : List Op} {tokens : List TokenId}

/-- The compute slots that are free once the finished migrations are drained, and those that blocks
of unpinned nodes hold. -/
def room (s : System) : Nat :=
  s.mgr.pool.drainMigrations.numFree +
    coldCompute { s.mgr with pool := s.mgr.pool.drainMigrations }

/-- A request is served exactly when its demand is at most the free compute slots and the compute
blocks of unpinned nodes together. -/
theorem Inv.acquire_fits (hi : s.Inv key) (ht : tokens ≠ []) :
    ∃ (a : Attempt key (s.live.map Handle.claim) s.mgr tokens) (al : Allocation) (m' : CacheManager),
      s.mgr.acquire key tokens = .ok (al, m') ∧
      (al.ok = true ↔
        a.request.demand ≤ a.request.mgr.pool.numFree + a.request.mgr.coldCompute) := by
  have hb := Good.books hi
  have hs := Good.settled hi
  obtain ⟨a⟩ := attempt hb tokens
  have hacq := a.acquire_eq ht
  by_cases hfree : a.request.demand ≤ a.evicted.pool.numFree
  · obtain ⟨al, m', he, hsv⟩ := a.serve_spec hb hs hfree
    rw [if_neg (Nat.not_lt.mpr hfree), he] at hacq
    exact ⟨a, al, m', hacq, iff_of_true hsv.ok (a.fits_iff.mp hfree)⟩
  · obtain ⟨m', he, _⟩ := a.refuse_spec hb hs
    rw [if_pos (Nat.lt_of_not_le hfree), he] at hacq
    exact ⟨a, {}, m', hacq, iff_of_false nofun fun h => hfree (a.fits_iff.mpr h)⟩

/-- The phases before the check return, and the request is served exactly when the blocks of its
tokens that are not matched, and the matched ones to be promoted, are at most the free compute slots
and the compute blocks of unpinned nodes together, counted once the match is pinned and its
demotions are cancelled. -/
def SucceedsExactly (key : List TokenId → UInt64) (s : System) (tokens : List TokenId) : Prop :=
  ∃ r m₁ m₂ al m', s.mgr.lookup key tokens = .ok r ∧ r.mgr.makeRoom r.demand = .ok m₁ ∧
    reclaim key r.demand (m₁.tree.storedBlocks + 1) m₁ = .ok m₂ ∧
    s.mgr.acquire key tokens = .ok (al, m') ∧
    (al.ok = true ↔
      tokens.length ⌈/⌉ s.mgr.cfg.blockTokens - r.alloc.blocks.length +
        r.alloc.blocks.countP (fun b =>
          (r.mgr.pool.location b).tier != 0 && !r.mgr.pool.migrating b) ≤
      r.mgr.pool.numFree + r.mgr.coldCompute)

/-- **When `acquire` succeeds**: exactly when the blocks it lacks fit, unless `need_blocks` wraps to
zero and there is no room at all. -/
theorem acquire_ok_iff (h0 : CacheManager.create specs cfg options mem = .ok m₀)
    (hfit : (specs.map (·.numBlocks)).sum < 2 ^ 32) (hrun : Run (Step key) (start m₀) tr s)
    (ht : tokens ≠ []) (hst : Storable tokens) :
    SucceedsExactly key s tokens ↔
      tokens.length + s.mgr.cfg.blockTokens ≤ 2 ^ 64 ∨ 0 < s.room := by
  have hi := reach h0 hfit hrun
  obtain ⟨a, al, m', hacq, hiff⟩ := hi.acquire_fits ht
  have hsucc : SucceedsExactly key s tokens ↔ (al.ok = true ↔
      tokens.length ⌈/⌉ s.mgr.cfg.blockTokens - a.request.alloc.blocks.length +
        a.request.alloc.blocks.countP (fun b =>
          (a.request.mgr.pool.location b).tier != 0 && !a.request.mgr.pool.migrating b) ≤
      a.request.mgr.pool.numFree + a.request.mgr.coldCompute) := by
    constructor
    · rintro ⟨r, m₁, m₂, al', m'', hr, -, -, he, h⟩
      cases a.lookup_eq.symm.trans hr
      cases hacq.symm.trans he
      exact h
    · exact fun h => ⟨a.request, a.demoted, a.evicted, al, m', a.lookup_eq, a.makeRoom_eq,
        a.reclaim_eq, hacq, h⟩
  rw [hsucc]
  rcases Nat.lt_or_ge (2 ^ 64) (tokens.length + s.mgr.cfg.blockTokens) with hw | hw
  · -- nothing is matched and nothing asked for, though one block is needed
    have hlt := (needBlocks_wraps hw hst.lt).2
    have hshort := hlt.trans_eq (Good.bt hi).symm
    obtain ⟨r, hr, hpool, htree⟩ : ∃ r, s.mgr.lookup key tokens = .ok r ∧
        r.mgr.pool = s.mgr.pool.drainMigrations ∧ r.mgr.tree = s.mgr.tree := lookup_short hshort
    cases a.lookup_eq.symm.trans hr
    have hroom : a.request.mgr.pool.numFree + a.request.mgr.coldCompute = s.room := by
      unfold room coldCompute
      rw [hpool, htree]
    rw [(a.looked.short hshort).1, ceilDiv_of_short (List.length_pos_iff.mpr ht) hlt, hroom]
    have hok := hi.served_of_wraps ht hst hw hacq
    simp only [hok, true_iff, List.length_nil, List.countP_nil]
    omega
  · rw [hiff, a.demand_eq_need, needBlocks_eq_ceil hw]
    exact iff_of_true Iff.rfl (.inl hw)

/-- A request that needs all four compute slots finds three of them taken by the cached
conversation, and gets them. -/
theorem acquire_ok_iff_chain : ∃ (s : System) (r : Request) (al : Allocation) (m' : CacheManager),
    s.mgr.lookup blockKey [11, 12, 13, 14, 15, 16, 17, 18] = .ok r ∧ r.demand = 4 ∧
    r.mgr.pool.numFree = 1 ∧ r.mgr.coldCompute = 3 ∧
    s.mgr.acquire blockKey [11, 12, 13, 14, 15, 16, 17, 18] = .ok (al, m') ∧ al.ok = true := by
  have hs : ((CacheManager.create twoTierSpecs twoTierConfig {} (fun _ _ => 0)).toOption.bind
      fun m₀ => (exec (step? blockKey) (start m₀) chainTrace).bind fun s =>
        (s.mgr.lookup blockKey [11, 12, 13, 14, 15, 16, 17, 18]).toOption.map fun r =>
          (r.demand, r.mgr.pool.numFree, r.mgr.coldCompute, r.alloc.blocks,
            s.mgr.cfg.blockTokens)) = some (4, 1, 3, [], 2) := by
    decide +kernel
  obtain ⟨m₀, h0, hm⟩ := Option.bind_eq_some_iff.mp hs
  obtain ⟨s, hx, hm⟩ := Option.bind_eq_some_iff.mp hm
  obtain ⟨r, hr, he⟩ := Option.map_eq_some_iff.mp hm
  simp only [Prod.mk.injEq] at he
  obtain ⟨hd, hf, hc, hnil, hbt⟩ := he
  obtain ⟨r', m₁, m₂, al, m', hr', -, -, ha, hiff⟩ := (acquire_ok_iff (toOption_eq_some h0)
    (by decide) (run_of_step? hx)
    (show ([11, 12, 13, 14, 15, 16, 17, 18] : List TokenId) ≠ [] by decide) (by decide)).mpr
    (.inl (by rw [hbt]; decide))
  rw [toOption_eq_some hr] at hr'
  cases hr'
  refine ⟨s, r, al, m', toOption_eq_some hr, hd, hf, hc, ha, hiff.mpr ?_⟩
  rw [hnil, hf, hc, hbt, List.countP_nil]
  decide

/-- Blocks of almost `2 ^ 64` tokens without layers, so that they take no memory. -/
def hugeBlocks : CacheConfig :=
  { numBlocks := 4, blockTokens := 2 ^ 64 - 1, numLayers := 0 }

def hugeSpecs : List TierSpec := [⟨some ⟨4096, true⟩, 4⟩]

def oneTokenTrace : List Op := [.acquire [1], .acquire [1], .acquire [1], .acquire [1]]

/-- Four live handles hold all four blocks, and a request for one more is served. -/
theorem served_without_room : ∃ m₀ s al m', CacheManager.create hugeSpecs hugeBlocks {}
      (fun _ _ => 0) = .ok m₀ ∧
    Run (Step blockKey) (start m₀) oneTokenTrace s ∧
    s.live.map (·.alloc.blocks) = [[0], [1], [2], [3]] ∧
    s.mgr.acquire blockKey [1, 2] = .ok (al, m') ∧ al.ok = true ∧
    ¬ SucceedsExactly blockKey s [1, 2] := by
  have hs : ((CacheManager.create hugeSpecs hugeBlocks {} (fun _ _ => 0)).toOption.bind
      fun m₀ => (exec (step? blockKey) (start m₀) oneTokenTrace).bind fun s =>
        (s.mgr.lookup blockKey [1, 2]).toOption.bind fun r =>
          (s.mgr.acquire blockKey [1, 2]).toOption.map fun a =>
            (s.live.map (·.alloc.blocks), a.1.ok, r.mgr.pool.numFree + r.mgr.coldCompute,
              r.alloc.blocks, s.mgr.cfg.blockTokens)) =
      some ([[0], [1], [2], [3]], true, 0, [], 2 ^ 64 - 1) := by
    decide +kernel
  obtain ⟨m₀, h0, hm⟩ := Option.bind_eq_some_iff.mp hs
  obtain ⟨s, hx, hm⟩ := Option.bind_eq_some_iff.mp hm
  obtain ⟨r, hr, hm⟩ := Option.bind_eq_some_iff.mp hm
  obtain ⟨⟨al, m'⟩, ha, he⟩ := Option.map_eq_some_iff.mp hm
  simp only [Prod.mk.injEq] at he
  obtain ⟨hlive, hok, hroom, hnil, hbt⟩ := he
  have hr := toOption_eq_some hr
  have ha := toOption_eq_some ha
  refine ⟨m₀, s, al, m', toOption_eq_some h0, run_of_step? hx, hlive, ha, hok, ?_⟩
  rintro ⟨r', m₁, m₂, al', m'', hr', -, -, ha', hiff⟩
  cases hr.symm.trans hr'
  cases ha.symm.trans ha'
  have hle := hiff.mp hok
  rw [hnil, hroom, hbt, List.countP_nil] at hle
  exact absurd hle (by decide)

/-- What a request that passed the capacity check gets: every promotion and every allocation
succeeds, the table covers the tokens with distinct blocks, the new ones were free and are in the
compute tier, and that has `demand` free slots less. -/
def ServesInFull (key : List TokenId → UInt64) (s : System) (tokens : List TokenId) (r : Request)
    (m₂ : CacheManager) : Prop :=
  ∃ n p₁ ids p₂ al m',
    promoteAll m₂.options.asyncPromotion r.alloc.blocks m₂.pool = .ok (n, p₁) ∧
    r.fresh + n = r.demand ∧
    allocateAll r.fresh p₁ = .ok (ids, p₂) ∧ (∀ b ∈ ids, b ≠ kInvalidBlock) ∧
    s.mgr.acquire key tokens = .ok (al, m') ∧ al.ok = true ∧
    al.cachedBlocks = r.alloc.blocks.length ∧
    al.cachedBlocks ≤ tokens.length ⌈/⌉ s.mgr.cfg.blockTokens ∧
    al.blocks = r.alloc.blocks ++ ids ∧
    al.blocks.length = tokens.length ⌈/⌉ s.mgr.cfg.blockTokens ∧ al.blocks.Nodup ∧
    (∀ b ∈ ids, b ∈ p₁.freeIds ∧ p₁.refcount b = 0 ∧ (m'.pool.location b).tier = 0) ∧
    m'.pool.numFree = m₂.pool.numFree - r.demand

/-- **After the capacity check `acquire` cannot fail**, and its table covers the tokens exactly when
the sum under `need_blocks` does not wrap. -/
theorem acquire_serves_iff (h0 : CacheManager.create specs cfg options mem = .ok m₀)
    (hfit : (specs.map (·.numBlocks)).sum < 2 ^ 32) (hrun : Run (Step key) (start m₀) tr s)
    (ht : tokens ≠ []) (hst : Storable tokens) (hr : s.mgr.lookup key tokens = .ok r)
    (h₁ : r.mgr.makeRoom r.demand = .ok m₁)
    (h₂ : reclaim key r.demand (m₁.tree.storedBlocks + 1) m₁ = .ok m₂)
    (hfree : r.demand ≤ m₂.pool.numFree) :
    ServesInFull key s tokens r m₂ ↔ tokens.length + s.mgr.cfg.blockTokens ≤ 2 ^ 64 := by
  have hi := reach h0 hfit hrun
  obtain ⟨a⟩ := attempt (Good.books hi) tokens
  cases a.lookup_eq.symm.trans hr
  cases a.makeRoom_eq.symm.trans h₁
  cases a.reclaim_eq.symm.trans h₂
  have hserve := a.serves (Good.books hi) (Good.settled hi) ht hst (Good.bt hi).symm hfree
  constructor
  · rintro ⟨_, _, _, _, al, m', -, -, -, -, he, -, -, -, -, hlen, -⟩
    obtain ⟨_, _, _, _, al', m'', -, -, -, -, he', -, -, -, -, hlen', -⟩ := hserve
    cases he.symm.trans he'
    by_contra hw
    obtain ⟨hneed, hlt⟩ := needBlocks_wraps (Nat.lt_of_not_le hw) hst.lt
    rw [hlen', hneed, ceilDiv_of_short (List.length_pos_iff.mpr ht) hlt] at hlen
    exact absurd hlen (by decide)
  · intro hw
    rw [needBlocks_eq_ceil hw] at hserve
    exact hserve

/-- A hit on a spilled block that also needs a new one fills the compute tier. -/
theorem acquire_serves_iff_spilled : ∃ (s : System) (r : Request) (al : Allocation)
    (m' : CacheManager), s.mgr.lookup blockKey [1, 2, 9] = .ok r ∧ r.demand = 2 ∧ r.fresh = 1 ∧
    s.mgr.acquire blockKey [1, 2, 9] = .ok (al, m') ∧ al.ok = true ∧ al.cachedBlocks = 1 ∧
    al.blocks.length = 2 ∧ al.blocks.Nodup ∧ m'.pool.numFree = 0 := by
  have hs : ((CacheManager.create tightSpecs twoTierConfig ⟨0, true⟩ (fun _ _ => 0)).toOption.bind
      fun m₀ => (exec (step? blockKey) (start m₀) (promotionTrace.take 4)).bind fun s =>
        (s.mgr.lookup blockKey [1, 2, 9]).toOption.bind fun r =>
          (r.mgr.makeRoom r.demand).toOption.bind fun m₁ =>
            (reclaim blockKey r.demand (m₁.tree.storedBlocks + 1) m₁).toOption.map fun m₂ =>
              (r.demand, r.fresh, r.alloc.blocks.length, s.mgr.cfg.blockTokens,
                m₂.pool.numFree)) = some (2, 1, 1, 2, 2) := by
    decide +kernel
  obtain ⟨m₀, h0, hm⟩ := Option.bind_eq_some_iff.mp hs
  obtain ⟨s, hx, hm⟩ := Option.bind_eq_some_iff.mp hm
  obtain ⟨r, hr, hm⟩ := Option.bind_eq_some_iff.mp hm
  obtain ⟨m₁, h₁, hm⟩ := Option.bind_eq_some_iff.mp hm
  obtain ⟨m₂, h₂, he⟩ := Option.map_eq_some_iff.mp hm
  simp only [Prod.mk.injEq] at he
  obtain ⟨hd, hf, hl, hbt, hfree⟩ := he
  obtain ⟨n, p₁, ids, p₂, al, m', -, -, -, -, ha, hok, hcb, -, -, hlen, hnd, -, hnum⟩ :=
    (acquire_serves_iff (toOption_eq_some h0) (by decide) (run_of_step? hx) (by decide) (by decide)
      (toOption_eq_some hr) (toOption_eq_some h₁) (toOption_eq_some h₂) (by rw [hd, hfree])).mpr
      (by rw [hbt]; decide)
  refine ⟨s, r, al, m', toOption_eq_some hr, hd, hf, ha, hok, hcb.trans hl, ?_, hnd, ?_⟩
  · rw [hlen, hbt]
    rfl
  · rw [hnum, hfree, hd]

/-- Two tokens fit one block, and their table is empty. -/
theorem served_no_table : ∃ m₀ r m₁ m₂ al m', CacheManager.create hugeSpecs hugeBlocks {}
      (fun _ _ => 0) = .ok m₀ ∧
    m₀.lookup blockKey [1, 2] = .ok r ∧ r.mgr.makeRoom r.demand = .ok m₁ ∧
    reclaim blockKey r.demand (m₁.tree.storedBlocks + 1) m₁ = .ok m₂ ∧
    r.demand ≤ m₂.pool.numFree ∧ m₀.acquire blockKey [1, 2] = .ok (al, m') ∧ al.ok = true ∧
    al.blocks = [] ∧ ¬ ServesInFull blockKey (start m₀) [1, 2] r m₂ := by
  have hs : ((CacheManager.create hugeSpecs hugeBlocks {} (fun _ _ => 0)).toOption.bind fun m₀ =>
      (m₀.lookup blockKey [1, 2]).toOption.bind fun r =>
        (r.mgr.makeRoom r.demand).toOption.bind fun m₁ =>
          (reclaim blockKey r.demand (m₁.tree.storedBlocks + 1) m₁).toOption.bind fun m₂ =>
            (m₀.acquire blockKey [1, 2]).toOption.map fun a =>
              (decide (r.demand ≤ m₂.pool.numFree), a.1.ok, a.1.blocks, m₀.cfg.blockTokens)) =
      some (true, true, [], 2 ^ 64 - 1) := by
    decide +kernel
  obtain ⟨m₀, h0, hm⟩ := Option.bind_eq_some_iff.mp hs
  obtain ⟨r, hr, hm⟩ := Option.bind_eq_some_iff.mp hm
  obtain ⟨m₁, h₁, hm⟩ := Option.bind_eq_some_iff.mp hm
  obtain ⟨m₂, h₂, hm⟩ := Option.bind_eq_some_iff.mp hm
  obtain ⟨⟨al, m'⟩, ha, he⟩ := Option.map_eq_some_iff.mp hm
  simp only [Prod.mk.injEq] at he
  obtain ⟨hfree, hok, hnil, hbt⟩ := he
  have ha := toOption_eq_some ha
  refine ⟨m₀, r, m₁, m₂, al, m', toOption_eq_some h0, toOption_eq_some hr, toOption_eq_some h₁,
    toOption_eq_some h₂, of_decide_eq_true hfree, ha, hok, hnil, ?_⟩
  rintro ⟨_, _, _, _, al', m'', -, -, -, -, ha', -, -, -, -, hlen, -⟩
  cases ha.symm.trans ha'
  have hbt : (start m₀).mgr.cfg.blockTokens = 2 ^ 64 - 1 := hbt
  rw [hnil, hbt] at hlen
  exact absurd hlen (by decide)

end System

end KvsLab
