import KvsLab.CacheManager.BackOut

/-!
# Demotion before eviction

The picker looks at unpinned leaves only, and a demoted leaf stays where it is, so the blocks of
an unpinned node with children are never demoted.  Eviction takes leaves out, and reaches them.

* `spare` — a cold block that could be demoted: unpinned, not matched, sole owner, in the compute
  tier, not in flight.
* `victims_count` — the picker finds as many blocks as the leaves have, or as many as it is asked
  for.
* `none_left_iff` — after demoting `n` blocks no candidate is left exactly when there were `n`.
* `demotes_first_iff` — entries are dropped only for want of anything to demote exactly when the
  leaves have enough, or fill the spill tier, or are all there is; `drops_before_demoting` is a
  conversation extended once that fails this.
-/

namespace KvsLab

open RadixTree BlockPool CacheManager Transition Counting

namespace CacheManager

variable {key : List TokenId → UInt64} {cl : List Claim} {m m' : CacheManager}
  {tokens : List TokenId} {b : BlockId}

/-- An entry of an unpinned node whose block can be demoted. -/
def demotable (p : BlockPool) (e : Entry) : Bool := e.lock == 0 && eligible p e.block

/-- An entry that will be demotable once the request for `tokens` has pinned its match. -/
def spare (tokens : List TokenId) (p : BlockPool) (e : Entry) : Bool :=
  e.lock == 0 && !e.path.isPrefixOf tokens && eligible p e.block

theorem leafEntries_subset {t : RadixTree} {e : Entry}
    (he : e ∈ leafEntries t.blockTokens t.children .top) : e ∈ entries t.blockTokens t.places := by
  obtain ⟨x, hx, hex⟩ := List.mem_flatMap.mp he
  exact List.mem_flatMap.mpr ⟨x, KeyedForest.mem_places_of_mem_leaves hx, hex⟩

theorem eligible_congr {p p' : BlockPool} (hi : p.Inv) (hi' : p'.Inv) (h : SameBlock p p' b) :
    eligible p' b = eligible p b := by
  rw [Bool.eq_iff_iff, eligible_iff hi, eligible_iff hi', h.location, h.refcount, h.target]

/-- A block of a place is the block of one of its entries. -/
theorem place_entry (bt : Nat) {x : Place} (hb : b ∈ x.2.blocks) :
    ∃ e ∈ placeEntries bt x, e.block = b ∧ e.lock = x.2.lockCount := by
  have hm : b ∈ (placeEntries bt x).map (·.block) := by
    unfold placeEntries
    rw [map_block_runEntries]
    exact hb
  obtain ⟨e, he, heb⟩ := List.mem_map.mp hm
  exact ⟨e, he, heb, (mem_placeEntries he).2.1⟩

/-- The blocks of demotable entries are duplicate free. -/
theorem demotable_nodup (hb : Books key cl m.tree m.pool) {l : List Entry}
    (hl : l.Sublist (entries m.tree.blockTokens m.tree.places)) :
    ((l.filter (demotable m.pool)).map (·.block)).Nodup := by
  have hn := hb.sole.nodup
  rw [← map_block_entries m.tree.blockTokens] at hn
  exact hn.sublist ((List.filter_sublist.trans hl).map _)

/-! ## Picking -/

/-- The picker takes all demotable blocks of leaves, or as many as it is asked for. -/
theorem MadeRoom.victims_count (hb : Books key cl m.tree m.pool) {demand n : Nat}
    {V : List BlockId} (hr : MadeRoom m demand V n m') (hlt : m.pool.numFree < demand)
    (ht : 1 < m.pool.numTiers) :
    V.length ≤ (leafEntries m.tree.blockTokens m.tree.children .top).countP (demotable m.pool) ∧
    (V.length < demand - m.pool.numFree → V.length =
      (leafEntries m.tree.blockTokens m.tree.children .top).countP (demotable m.pool)) := by
  have hsub : (leafEntries m.tree.blockTokens m.tree.children .top).Sublist
      (entries m.tree.blockTokens m.tree.places) :=
    (KeyedForest.leaves_sublist _ _).flatMap _
  have hnd := demotable_nodup hb hsub
  have hlen : ∀ l : List Entry, l.countP (demotable m.pool) =
      ((l.filter (demotable m.pool)).map (·.block)).length := fun l => by
    rw [List.length_map, List.countP_eq_length_filter]
  have hle : V.length ≤
      (leafEntries m.tree.blockTokens m.tree.children .top).countP (demotable m.pool) := by
    rw [hlen]
    refine (hr.victims.nodup.subperm fun b hbV => ?_).length_le
    obtain ⟨x, hx, hl, hbx⟩ := hr.victims.leaf b hbV
    obtain ⟨e, he, rfl, hlock⟩ := place_entry m.tree.blockTokens hbx
    refine List.mem_map_of_mem (List.mem_filter.mpr ⟨List.mem_flatMap.mpr ⟨x, hx, he⟩, ?_⟩)
    unfold demotable
    rw [hlock, hl, hr.victims.eligible _ hbV]
    rfl
  refine ⟨hle, fun hshort => Nat.le_antisymm hle ?_⟩
  rw [hlen]
  refine (hnd.subperm fun b hbF => ?_).length_le
  obtain ⟨e, he, rfl⟩ := List.mem_map.mp hbF
  obtain ⟨hmem, hd⟩ := List.mem_filter.mp he
  obtain ⟨x, hx, hex⟩ := List.mem_flatMap.mp hmem
  obtain ⟨hbx, hlock, _⟩ := mem_placeEntries hex
  unfold demotable at hd
  rw [Bool.and_eq_true, beq_iff_eq] at hd
  exact (hr.full ⟨hlt, ht⟩).2.2 hshort x hx (hlock ▸ hd.1) e.block hbx hd.2

/-- Nothing demotable is left exactly when as many blocks were moved as there were. -/
theorem MadeRoom.none_left_iff (hb : Books key cl m.tree m.pool) {demand n : Nat}
    {V : List BlockId} (hr : MadeRoom m demand V n m') (hn : n ≤ V.length) :
    (∀ b, Cold m'.tree b → eligible m'.pool b = false) ↔
      (entries m.tree.blockTokens m.tree.places).countP (demotable m.pool) ≤ n := by
  have hb' := hr.books hb
  have hnd := demotable_nodup hb (.refl _)
  have hlen : (entries m.tree.blockTokens m.tree.places).countP (demotable m.pool) =
      (((entries m.tree.blockTokens m.tree.places).filter (demotable m.pool)).map
        (·.block)).length := by
    rw [List.length_map, List.countP_eq_length_filter]
  have hmem : ∀ b, b ∈ ((entries m.tree.blockTokens m.tree.places).filter (demotable m.pool)).map
      (·.block) ↔ Cold m.tree b ∧ eligible m.pool b = true := by
    intro b
    constructor
    · intro hm
      obtain ⟨e, he, rfl⟩ := List.mem_map.mp hm
      obtain ⟨hmem, hd⟩ := List.mem_filter.mp he
      unfold demotable at hd
      rw [Bool.and_eq_true, beq_iff_eq] at hd
      exact ⟨cold_of_entry hmem hd.1, hd.2⟩
    · rintro ⟨⟨x, hx, hl, hbx⟩, hel⟩
      obtain ⟨e, he, rfl, hlock⟩ := place_entry m.tree.blockTokens hbx
      refine List.mem_map_of_mem (List.mem_filter.mpr ⟨List.mem_flatMap.mpr ⟨x, hx, he⟩, ?_⟩)
      unfold demotable
      rw [hlock, hl, hel]
      rfl
  have htake : (V.take n).length = n := by rw [List.length_take, Nat.min_eq_left hn]
  have hV : V.take n ⊆ ((entries m.tree.blockTokens m.tree.places).filter
      (demotable m.pool)).map (·.block) := fun b hbV =>
    (hmem b).mpr ⟨hr.victims.cold (List.mem_of_mem_take hbV),
      hr.victims.eligible b (List.mem_of_mem_take hbV)⟩
  have hnV : (V.take n).Nodup := hr.victims.nodup.sublist (List.take_sublist _ _)
  rw [hlen]
  constructor
  · intro hnone
    rw [← htake]
    refine (hnd.subperm fun b hbm => ?_).length_le
    by_contra hout
    obtain ⟨hc, hel⟩ := (hmem b).mp hbm
    have hsame := eligible_congr hb.inv hb'.inv (hr.demoted.shifted.same b hout)
    rw [hnone b (hr.tree.symm ▸ hc), hel] at hsame
    cases hsame
  · intro hle b hc
    by_contra hel
    rw [Bool.not_eq_false] at hel
    have hperm := (hnV.subperm hV).perm_of_length_le (htake.symm ▸ hle)
    by_cases hout : b ∈ V.take n
    · have := ((eligible_iff hb'.inv).mp hel).1
      rw [(hr.demoted.moved b hout).1] at this
      cases this
    · rw [eligible_congr hb.inv hb'.inv (hr.demoted.shifted.same b hout)] at hel
      exact hout (hperm.mem_iff.mpr ((hmem b).mpr ⟨hr.tree ▸ hc, hel⟩))

namespace Attempt

variable (a : Attempt key cl m tokens)
include a

/-- An entry is demotable in the request's tree exactly when it is spare before the call. -/
theorem demotable_iff (hb : Books key cl m.tree m.pool) {e e' : Entry}
    (he : e ∈ entries m.tree.blockTokens m.tree.places)
    (he' : e' ∈ entries m.tree.blockTokens a.request.mgr.tree.places)
    (heq : (e'.path, e'.block) = (e.path, e.block)) :
    demotable a.request.mgr.pool e' = spare tokens m.pool.drainMigrations e := by
  obtain ⟨hpath, hblock⟩ := Prod.mk.inj heq
  have hbt := a.request_blockTokens
  have hlock := hb.entry_lock he
  have hlock' := a.looked.books.entry_lock (hbt.symm ▸ he')
  rw [List.countP_cons, hpath, ← hlock] at hlock'
  have hpre : e.path.isPrefixOf (a.request.claim tokens).tokens = e.path.isPrefixOf tokens := by
    rw [Bool.eq_iff_iff, List.isPrefixOf_iff_prefix, List.isPrefixOf_iff_prefix]
    refine ⟨fun h => h.trans (List.take_prefix _ _), fun h => ?_⟩
    exact List.prefix_take_iff.mpr ⟨h, a.looked.longest e he h⟩
  unfold demotable spare
  rw [hlock', hpre, hblock]
  cases hp : e.path.isPrefixOf tokens with
  | true => simp
  | false =>
    -- an entry outside the match has its block left alone
    have hout : e.block ∉ a.request.alloc.blocks := by
      intro hm
      obtain ⟨k, hk⟩ := List.mem_iff_getElem?.mp hm
      obtain ⟨lock, hent⟩ := a.looked.found k _ hk
      have hsame := congrArg Entry.path (entry_block_inj hb.sole.nodup hent he rfl)
      rw [← Bool.not_eq_true, List.isPrefixOf_iff_prefix, ← hsame] at hp
      exact hp (List.take_prefix _ _)
    rw [eligible_congr hb.drain.inv a.looked.books.inv (a.looked.shifted.same _ hout)]
    simp

/-- As many entries are demotable as were spare. -/
theorem demotable_count (hb : Books key cl m.tree m.pool) :
    (entries m.tree.blockTokens a.request.mgr.tree.places).countP
        (demotable a.request.mgr.pool) =
      (entries m.tree.blockTokens m.tree.places).countP
        (spare tokens m.pool.drainMigrations) :=
  countP_of_map_eq a.request_entries fun _ he _ he' heq => a.demotable_iff hb he he' heq

/-- And as many of those in leaves: what the match takes from a leaf is not spare. -/
theorem demotable_leaf_count (hb : Books key cl m.tree m.pool) :
    (leafEntries m.tree.blockTokens a.request.mgr.tree.children .top).countP
        (demotable a.request.mgr.pool) =
      (leafEntries m.tree.blockTokens m.tree.children .top).countP
        (spare tokens m.pool.drainMigrations) := by
  have hbt := a.request_blockTokens
  obtain ⟨l, ⟨H, hperm, hH⟩, hmap⟩ := a.looked.leaves
  have hzero : H.countP (spare tokens m.pool.drainMigrations) = 0 := by
    rw [List.countP_eq_zero]
    intro e he
    have := List.isPrefixOf_iff_prefix.mpr (hH e he)
    simp [spare, this]
  rw [hperm.countP_eq, List.countP_append, hzero, Nat.zero_add]
  refine countP_of_map_eq hmap fun e he e' he' heq => a.demotable_iff hb ?_ ?_ heq
  · exact leafEntries_subset (hperm.mem_iff.mpr (List.mem_append_right _ he))
  · exact hbt ▸ leafEntries_subset (hbt.symm ▸ he')

/-- A request that is still short and finds a cold block evicts. -/
theorem evicts (hlt : a.demoted.pool.numFree < a.request.demand) (hc : Cold a.demoted.tree b) :
    a.D ≠ [] := by
  intro hD
  have hpool : a.evicted.pool = a.demoted.pool := by
    rw [a.reclaimed.pool, hD]
    rfl
  have hlock := all_locked a.books.wf a.books.locks (a.reclaimed.full (hpool.symm ▸ hlt))
  have hpr := a.reclaimed.pruned
  obtain ⟨x, hx, hl, hbx⟩ := hc
  obtain ⟨e, he, _, hel⟩ := place_entry a.demoted.tree.blockTokens hbx
  have hmem := hpr.entries.mem_iff.mp (List.mem_flatMap.mpr ⟨x, hx, he⟩)
  rw [hD, List.nil_append] at hmem
  obtain ⟨y, hy, hey⟩ := List.mem_flatMap.mp hmem
  exact hlock y hy ((mem_placeEntries hey).2.1.symm.trans (hel.trans hl))

/-- Entries are dropped only for want of anything to demote exactly when the leaves have enough
candidates, or fill the spill tier, or have all of them. -/
theorem demotes_first (ht : 1 < a.request.mgr.pool.numTiers) :
    (a.D ≠ [] → a.demoted.pool.tierFree 1 = 0 ∨
      ∀ b, Cold a.demoted.tree b → eligible a.demoted.pool b = false) ↔
    a.request.demand - a.request.mgr.pool.numFree ≤
        (leafEntries a.request.mgr.tree.blockTokens a.request.mgr.tree.children .top).countP
          (demotable a.request.mgr.pool) ∨
      a.request.mgr.pool.tierFree 1 ≤
        (leafEntries a.request.mgr.tree.blockTokens a.request.mgr.tree.children .top).countP
          (demotable a.request.mgr.pool) ∨
      (entries a.request.mgr.tree.blockTokens a.request.mgr.tree.places).countP
          (demotable a.request.mgr.pool) ≤
        (leafEntries a.request.mgr.tree.blockTokens a.request.mgr.tree.children .top).countP
          (demotable a.request.mgr.pool) := by
  have hb := a.looked.books
  have hcomp := a.room.demoted.compute
  have hspill := a.room.demoted.spill
  by_cases hshort : a.request.mgr.pool.numFree < a.request.demand
  · obtain ⟨hle, heq⟩ := a.room.victims_count hb hshort ht
    obtain ⟨hn, hlen, _⟩ := a.room.full ⟨hshort, ht⟩
    have hleft := a.room.none_left_iff hb (n := a.n) (hn ▸ Nat.min_le_left _ _)
    constructor
    · intro hprop
      by_contra hno
      rw [not_or, not_or] at hno
      obtain ⟨h1, h2, h3⟩ := hno
      have hnone : ¬ ∀ b, Cold a.demoted.tree b → eligible a.demoted.pool b = false := by
        rw [hleft]
        omega
      obtain ⟨b, hb'⟩ := not_forall.mp hnone
      obtain ⟨hc, _⟩ := Classical.not_imp.mp hb'
      rcases hprop (a.evicts (by omega) hc) with h0 | h0
      · omega
      · exact hnone h0
    · intro hcond hD
      have hstill : a.demoted.pool.numFree < a.request.demand :=
        Nat.lt_of_not_le fun hge => hD (a.reclaimed.idle hge)
      rw [hleft]
      omega
  · refine ⟨fun _ => .inl (by omega), fun _ hD => absurd (a.reclaimed.idle ?_) hD⟩
    omega

end Attempt

/-! ## What a call evicts -/

theorem maintain_evicted (h : m.maintain = .ok m') :
    m'.stats.evictedBlocks = m.stats.evictedBlocks := by
  obtain rfl | ⟨V, k, p, -, -, rfl⟩ := maintain_cases h
  · rfl
  · rfl

theorem serve_evicted {al al' : Allocation} {fresh : Nat}
    (h : m.serve al fresh tokens = .ok (al', m')) :
    m'.stats.evictedBlocks = m.stats.evictedBlocks := by
  obtain ⟨m₁, hs, hm⟩ := serve_cases h
  obtain ⟨k, p, ids, q, -, -, -, rfl⟩ := stock_cases hs
  have hev := maintain_evicted hm
  exact hev

theorem refuse_evicted {al al' : Allocation} (h : m.refuse al = .ok (al', m')) :
    m'.stats.evictedBlocks = m.stats.evictedBlocks := by
  obtain ⟨t, -, -, rfl⟩ := refuse_cases h
  rfl

/-- The counter grows by the entries evicted. -/
theorem Attempt.acquire_evicted (a : Attempt key cl m tokens) (ht : tokens ≠ []) {al : Allocation}
    (h : m.acquire key tokens = .ok (al, m')) :
    m'.stats.evictedBlocks = m.stats.evictedBlocks + a.D.length := by
  have hev : a.evicted.stats.evictedBlocks = m.stats.evictedBlocks + a.D.length := by
    rw [a.reclaimed.evicted, a.room.evicted, a.looked.evicted]
  rw [a.acquire_eq ht] at h
  rw [← hev]
  split at h
  · exact refuse_evicted h
  · exact serve_evicted h

end CacheManager

namespace System

variable {key : List TokenId → UInt64} {s : System} {m₀ m' : CacheManager}
  {specs : List TierSpec} {cfg : CacheConfig} {options : Options}
  {mem : Arena.Mem TierIndex UInt8} {tr : List Op} {tokens : List TokenId} {al : Allocation}

/-- Matched blocks no promotion is bringing back. -/
def promotionNeed (key : List TokenId → UInt64) (s : System) (tokens : List TokenId) : Nat :=
  (s.matchedBlocks key tokens).countP fun b =>
    (s.mgr.pool.drainMigrations.location b).tier != 0 &&
      s.mgr.pool.drainMigrations.target b != some 0

/-- Compute slots a request has to make free. -/
def shortage (key : List TokenId → UInt64) (s : System) (tokens : List TokenId) : Nat :=
  s.freshNeed key tokens + s.promotionNeed key tokens - s.mgr.pool.drainMigrations.numFree

/-- Cold blocks that could be demoted for a request. -/
def spares (s : System) (tokens : List TokenId) : Nat :=
  (entries s.mgr.tree.blockTokens s.mgr.tree.places).countP
    (spare tokens s.mgr.pool.drainMigrations)

/-- Those in nodes without children. -/
def leafSpares (s : System) (tokens : List TokenId) : Nat :=
  (leafEntries s.mgr.tree.blockTokens s.mgr.tree.children .top).countP
    (spare tokens s.mgr.pool.drainMigrations)

/-- The call returns, and when it evicts, then at the start of the eviction loop tier 1 is full or
no block of an unpinned node can be demoted. -/
def DemotesFirst (key : List TokenId → UInt64) (s : System) (tokens : List TokenId) : Prop :=
  ∃ r m₁ al m', s.mgr.lookup key tokens = .ok r ∧ r.mgr.makeRoom r.demand = .ok m₁ ∧
    s.mgr.acquire key tokens = .ok (al, m') ∧
    (s.mgr.stats.evictedBlocks < m'.stats.evictedBlocks → m₁.pool.tierFree 1 = 0 ∨
      ∀ x ∈ m₁.tree.places, x.2.lockCount = 0 → ∀ b ∈ x.2.blocks, eligible m₁.pool b = false)

theorem cold_forall {t : RadixTree} {P : BlockId → Prop} :
    (∀ b, Cold t b → P b) ↔ ∀ x ∈ t.places, x.2.lockCount = 0 → ∀ b ∈ x.2.blocks, P b :=
  ⟨fun h x hx hl b hb => h b ⟨x, hx, hl, hb⟩, fun h b ⟨x, hx, hl, hb⟩ => h x hx hl b hb⟩

theorem demand_eq (a : Attempt key (s.live.map Handle.claim) s.mgr tokens) :
    a.request.demand = s.freshNeed key tokens + s.promotionNeed key tokens := by
  obtain ⟨hm, _⟩ := inUse_eq a
  rw [a.looked.demand, a.looked.fresh]
  unfold freshNeed promotionNeed
  rw [hm]
  congr 1
  refine List.countP_congr fun b hb => ?_
  unfold needsPromotion
  rw [a.looked.location, a.looked.target b hb]
  unfold keepPromotion
  by_cases ht : s.mgr.pool.drainMigrations.target b = some 0
  · simp [ht]
  · simp [ht]

/-- The empty request needs no slots. -/
theorem Inv.nil_demand (hi : s.Inv key) (a : Attempt key (s.live.map Handle.claim) s.mgr []) :
    a.request.demand = 0 := by
  have hpos := (Good.books hi).wf.bt_pos
  rw [(a.looked.short hpos).2, ← Good.bt hi]
  exact needBlocks_zero hpos

/-- **Demotion before eviction.**  In every state a program with at least two tiers reaches, a
request drops cached entries only when they can no longer be demoted, exactly when the leaves have
enough blocks to demote for it, or enough to fill the spill tier, or all there are. -/
theorem demotes_first_iff (h0 : CacheManager.create specs cfg options mem = .ok m₀)
    (hfit : (specs.map (·.numBlocks)).sum < 2 ^ 32) (hrun : Run (Step key) (start m₀) tr s)
    (htiers : 1 < s.mgr.pool.numTiers) (tokens : List TokenId) :
    DemotesFirst key s tokens ↔
      s.shortage key tokens ≤ s.leafSpares tokens ∨
      s.mgr.pool.drainMigrations.tierFree 1 ≤ s.leafSpares tokens ∨
      s.spares tokens ≤ s.leafSpares tokens := by
  have hi := reach h0 hfit hrun
  have hb := Good.books hi
  have hs := Good.settled hi
  obtain ⟨a⟩ := attempt hb tokens
  obtain ⟨al, m', he, _⟩ := acquire_spec hb hs tokens
  have hbt := a.request_blockTokens
  have ht : 1 < a.request.mgr.pool.numTiers := by
    rw [a.looked.shifted.shape.numTiers, (SameShape.drainMigrations _).numTiers]
    exact htiers
  have hiff := a.demotes_first ht
  rw [hbt, a.demotable_leaf_count hb, a.demotable_count hb, demand_eq a, a.looked.tierFree 1,
    cold_forall] at hiff
  have hfree : a.request.mgr.pool.numFree = s.mgr.pool.drainMigrations.numFree :=
    a.looked.tierFree 0
  rw [hfree] at hiff
  refine Iff.trans ?_ hiff
  by_cases hne : tokens = []
  · subst hne
    have hD : a.D = [] := a.reclaimed.idle (by rw [hi.nil_demand a]; exact Nat.zero_le _)
    refine ⟨fun _ h => absurd hD h, fun _ => ?_⟩
    refine ⟨_, _, _, _, a.lookup_eq, a.makeRoom_eq, rfl, fun hgrow => ?_⟩
    exact absurd hgrow (Nat.lt_irrefl _)
  have hev := a.acquire_evicted hne he
  constructor
  · rintro ⟨r, m₁, al₁, m₂, hr, hm, ha, himp⟩ hD
    rw [a.lookup_eq] at hr
    cases hr
    rw [a.makeRoom_eq] at hm
    cases hm
    rw [he] at ha
    cases ha
    refine himp ?_
    have := List.length_pos_iff.mpr hD
    omega
  · intro himp
    refine ⟨_, _, al, m', a.lookup_eq, a.makeRoom_eq, he, fun hgrow => himp fun hD => ?_⟩
    rw [hev, hD] at hgrow
    exact absurd hgrow (Nat.lt_irrefl _)

/-- One sequence is cached. -/
def cachedTrace : List Op := [.acquire [1, 2, 3, 4], .release 0 [1, 2, 3, 4] []]

theorem demotes_first_cached : ∃ s : System, s.spares [5, 6, 7, 8, 9, 10, 11, 12] = 2 ∧
    DemotesFirst blockKey s [5, 6, 7, 8, 9, 10, 11, 12] := by
  have hs : ((CacheManager.create twoTierSpecs twoTierConfig {} (fun _ _ => 0)).toOption.bind
      fun m₀ => (exec (step? blockKey) (start m₀) cachedTrace).map fun s =>
        (s.mgr.pool.numTiers, s.spares [5, 6, 7, 8, 9, 10, 11, 12],
          s.leafSpares [5, 6, 7, 8, 9, 10, 11, 12],
          s.shortage blockKey [5, 6, 7, 8, 9, 10, 11, 12])) = some (2, 2, 2, 2) := by
    decide +kernel
  obtain ⟨m₀, h0, hm⟩ := Option.bind_eq_some_iff.mp hs
  obtain ⟨s, hx, he⟩ := Option.map_eq_some_iff.mp hm
  obtain ⟨ht, hn⟩ := Prod.mk.inj he
  obtain ⟨hsp, hn⟩ := Prod.mk.inj hn
  obtain ⟨hl, hsh⟩ := Prod.mk.inj hn
  refine ⟨s, hsp, (demotes_first_iff (toOption_eq_some h0) (by decide) (run_of_step? hx)
    (by rw [ht]; decide) _).mpr (.inl ?_)⟩
  rw [hsh, hl]

/-- A cached sequence is extended and cached again: its first two blocks are those of a node with
a child. -/
def chainTrace : List Op :=
  cachedTrace ++ [.acquire [1, 2, 3, 4, 5, 6], .release 1 [1, 2, 3, 4, 5, 6] []]

/-- A request for four blocks demotes the last block of the conversation and evicts all three,
with three slots of the spill tier free. -/
theorem drops_before_demoting : ∃ m₀ s r m₁ al m',
    CacheManager.create twoTierSpecs twoTierConfig {} (fun _ _ => 0) = .ok m₀ ∧
    Run (Step blockKey) (start m₀) chainTrace s ∧ 1 < s.mgr.pool.numTiers ∧
    s.mgr.lookup blockKey [11, 12, 13, 14, 15, 16, 17, 18] = .ok r ∧
    r.mgr.makeRoom r.demand = .ok m₁ ∧
    s.mgr.acquire blockKey [11, 12, 13, 14, 15, 16, 17, 18] = .ok (al, m') ∧
    m'.stats.evictedBlocks = s.mgr.stats.evictedBlocks + 3 ∧ m₁.pool.tierFree 1 = 3 ∧
    ¬ DemotesFirst blockKey s [11, 12, 13, 14, 15, 16, 17, 18] := by
  have hs : ((CacheManager.create twoTierSpecs twoTierConfig {} (fun _ _ => 0)).toOption.bind
      fun m₀ => (exec (step? blockKey) (start m₀) chainTrace).bind fun s =>
        (s.mgr.lookup blockKey [11, 12, 13, 14, 15, 16, 17, 18]).toOption.bind fun r =>
          (r.mgr.makeRoom r.demand).toOption.bind fun m₁ =>
            (s.mgr.acquire blockKey [11, 12, 13, 14, 15, 16, 17, 18]).toOption.map fun a =>
              (s.mgr.pool.numTiers, s.mgr.stats.evictedBlocks, a.2.stats.evictedBlocks,
                m₁.pool.tierFree 1, m₁.tree.places.all fun x => x.2.lockCount != 0 ||
                  x.2.blocks.all fun b => !eligible m₁.pool b)) =
      some (2, 0, 3, 3, false) := by
    decide +kernel
  obtain ⟨m₀, h0, hm⟩ := Option.bind_eq_some_iff.mp hs
  obtain ⟨s, hx, hr⟩ := Option.bind_eq_some_iff.mp hm
  obtain ⟨r, hl, hr⟩ := Option.bind_eq_some_iff.mp hr
  obtain ⟨m₁, hmk, hr⟩ := Option.bind_eq_some_iff.mp hr
  obtain ⟨⟨al, m'⟩, ha, he⟩ := Option.map_eq_some_iff.mp hr
  obtain ⟨ht, hn⟩ := Prod.mk.inj he
  obtain ⟨hbefore, hn⟩ := Prod.mk.inj hn
  obtain ⟨hafter, hn⟩ := Prod.mk.inj hn
  obtain ⟨hfree, hcold⟩ := Prod.mk.inj hn
  have hl := toOption_eq_some hl
  have hmk := toOption_eq_some hmk
  have ha := toOption_eq_some ha
  refine ⟨m₀, s, r, m₁, al, m', toOption_eq_some h0, run_of_step? hx, by rw [ht]; decide, hl, hmk,
    ha, by rw [hbefore]; exact hafter, hfree, ?_⟩
  rintro ⟨r', m₁', al', m₂, hl', hmk', ha', himp⟩
  rw [hl] at hl'
  cases hl'
  rw [hmk] at hmk'
  cases hmk'
  rw [ha] at ha'
  cases ha'
  have hafter : m'.stats.evictedBlocks = 3 := hafter
  rcases himp (by rw [hbefore, hafter]; decide) with h | h
  · rw [hfree] at h
    cases h
  · rw [← Bool.not_eq_true] at hcold
    refine hcold (List.all_eq_true.mpr fun x hx => ?_)
    by_cases h0 : x.2.lockCount = 0
    · have : (x.2.blocks.all fun b => !eligible m₁.pool b) = true := by
        rw [List.all_eq_true]
        intro b hb
        rw [h x hx h0 b hb]
        rfl
      rw [this, Bool.or_true]
    · simp [h0]

end System

end KvsLab
