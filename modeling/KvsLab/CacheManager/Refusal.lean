import KvsLab.CacheManager.Readiness
import Mathlib.Data.List.Dedup

/-!
# When a request is refused

Compute slots are free, resident or reserved by a queued job.  At the end of the eviction loop of
a refused request every allocated block belongs to a live table or to the match, so the slots
nobody in flight needs are exactly the *stranded* ones: reserved by a queued promotion that was
cancelled, or whose block is in no live table and not matched.

* `reserved_split`, `length_split` — the accounting over a list of blocks.
* `refused_iff` — a request is refused exactly when the blocks in use, the fresh blocks it needs
  and the stranded slots do not fit the compute tier together.
* `no_spurious_refusal` — so the refusal is spurious exactly when the stranded slots make the
  difference; `refused_by_stranded_promotion` reaches such a state.
-/

namespace KvsLab

open RadixTree BlockPool CacheManager Transition Counting

/-! ## Accounting -/

namespace BlockPool

variable {p : BlockPool} {W : List BlockId}

/-- Jobs queued for tier `t` that no block of `W` waits for. -/
def strandedTo (p : BlockPool) (t : TierIndex) (W : List BlockId) : Nat :=
  p.jobs.countP fun j => j.dstTier == t && (j.cancelled || !W.contains j.id)

/-- A slot reserved in tier `t` is waited for by a block of `W` or stranded. -/
theorem Inv.reserved_split (h : p.Inv) (hW : W.Nodup) (t : TierIndex) :
    p.reservedTo t = W.countP (fun b => p.target b == some t) + p.strandedTo t W := by
  have hwait : W.countP (fun b => p.target b == some t) =
      p.jobs.countP fun j => j.dstTier == t && !(j.cancelled || !W.contains j.id) := by
    have hperm : (W.filter fun b => p.target b == some t).Perm
        ((p.jobs.filter fun j => j.dstTier == t && !(j.cancelled || !W.contains j.id)).map
          (·.id)) := by
      have hsub : ((p.jobs.filter fun j => j.dstTier == t && !(j.cancelled || !W.contains j.id)).map
          (·.id)).Sublist (p.flights.map (·.id)) := by
        refine List.Sublist.map _ ?_
        unfold flights
        refine List.monotone_filter_right _ fun j hj => ?_
        simp only [Bool.and_eq_true, Bool.not_eq_true', Bool.or_eq_false_iff] at hj
        simp [hj.2.1]
      refine (List.perm_ext_iff_of_nodup (hW.filter _) (h.flight_ids.sublist hsub)).mpr fun b => ?_
      simp only [List.mem_filter, beq_iff_eq, List.mem_map, Bool.and_eq_true, Bool.not_eq_true',
        Bool.or_eq_false_iff, Bool.not_eq_false', List.contains_iff_mem]
      rw [h.target_eq_some]
      constructor
      · rintro ⟨hb, j, hj, rfl, ht⟩
        exact ⟨j, ⟨(mem_flights.mp hj).1, ht, (mem_flights.mp hj).2, hb⟩, rfl⟩
      · rintro ⟨j, ⟨hj, ht, hc, hb⟩, rfl⟩
        exact ⟨hb, j, mem_flights.mpr ⟨hj, hc⟩, rfl, ht⟩
    rw [List.countP_eq_length_filter, hperm.length_eq, List.length_map,
      ← List.countP_eq_length_filter]
  rw [hwait]
  unfold reservedTo strandedTo
  induction p.jobs with
  | nil => rfl
  | cons j js ih =>
    simp only [List.countP_cons, ih]
    cases j.dstTier == t <;> cases (j.cancelled || !W.contains j.id) <;> simp <;> omega

theorem length_residentSlots (p : BlockPool) (t : TierIndex) :
    (p.residentSlots t).length = p.allocatedIds.countP fun id => (p.location id).tier == t := by
  unfold residentSlots
  rw [List.length_map, List.countP_eq_length_filter]

theorem length_reservedSlots (p : BlockPool) (t : TierIndex) :
    (p.reservedSlots t).length = p.reservedTo t := by
  unfold reservedSlots reservedTo
  rw [List.length_map, List.countP_eq_length_filter]

/-- A block is resident, on its way, or has to be brought back. -/
theorem length_split (h : p.Inv) : ∀ {W : List BlockId},
    (∀ b ∈ W, needsPromotion p b = true ∨ Homed p b) →
    W.length = W.countP (fun b => (p.location b).tier == 0) +
      W.countP (fun b => p.target b == some 0) + W.countP (needsPromotion p)
  | [], _ => rfl
  | b :: W, hW => by
    have ih := length_split h fun c hc => hW c (List.mem_cons_of_mem _ hc)
    simp only [List.length_cons, List.countP_cons]
    rcases hW b List.mem_cons_self with hb | hb
    · have hb' := hb
      unfold needsPromotion at hb'
      rw [Bool.and_eq_true, bne_iff_ne, Option.isNone_iff_eq_none] at hb'
      simp [hb, hb'.1, hb'.2]
      omega
    · rw [needsPromotion_of_homed hb]
      rcases hb with ⟨h1, h2⟩ | ⟨h1, h2⟩
      · simp [h1, h2]
        omega
      · simp [h1, h2]
        omega

/-- Blocks of `W` in a tier are among the residents of the tier. -/
theorem resident_ge (h : p.Inv) (hW : W.Nodup) (hal : ∀ b ∈ W, p.refcount b ≠ 0) (t : TierIndex) :
    W.countP (fun b => (p.location b).tier == t) ≤ (p.residentSlots t).length := by
  rw [length_residentSlots, List.countP_eq_length_filter, List.countP_eq_length_filter]
  have hsub : W.filter (fun b => (p.location b).tier == t) ⊆
      p.allocatedIds.filter fun b => (p.location b).tier == t := fun b hb => by
    rw [List.mem_filter] at hb ⊢
    exact ⟨(mem_allocatedIds h).mpr (hal b hb.1), hb.2⟩
  exact ((hW.filter _).subperm hsub).length_le

/-- When `W` lists every allocated block, there are no other residents. -/
theorem resident_eq (h : p.Inv) (hW : W.Nodup) (hall : ∀ b, p.refcount b ≠ 0 ↔ b ∈ W)
    (t : TierIndex) :
    (p.residentSlots t).length = W.countP fun b => (p.location b).tier == t := by
  rw [length_residentSlots]
  have hn : p.allocatedIds.Nodup := List.nodup_range.filter _
  have hperm : p.allocatedIds.Perm W :=
    (List.perm_ext_iff_of_nodup hn hW).mpr fun b => (mem_allocatedIds h).trans (hall b)
  exact hperm.countP_eq _

end BlockPool

namespace CacheManager

variable {key : List TokenId → UInt64} {cl : List Claim} {m : CacheManager}
  {tokens : List TokenId} {b : BlockId}

/-! ## Blocks in use -/

/-- The blocks of the claims' tables and the matched blocks `M`. -/
def inUse (cl : List Claim) (M : List BlockId) : List BlockId :=
  (cl.flatMap Claim.table ++ M).dedup

theorem mem_inUse {M : List BlockId} : b ∈ inUse cl M ↔ (∃ c ∈ cl, b ∈ c.table) ∨ b ∈ M := by
  unfold inUse
  rw [List.mem_dedup, List.mem_append, List.mem_flatMap]

namespace Attempt

variable (a : Attempt key cl m tokens)
include a

/-- The blocks in use are those of the books' claims, the request's included. -/
theorem mem_inUse_iff : b ∈ inUse cl a.request.alloc.blocks ↔
    ∃ c ∈ a.request.claim tokens :: cl, b ∈ c.table := by
  have htab : (a.request.claim tokens).table = a.request.alloc.blocks := List.append_nil _
  rw [mem_inUse, List.exists_mem_cons_iff, htab]
  exact or_comm

theorem inUse_allocated : ∀ b ∈ inUse cl a.request.alloc.blocks, a.evicted.pool.refcount b ≠ 0 := by
  intro b hb
  obtain ⟨c, hc, hm⟩ := a.mem_inUse_iff.mp hb
  exact a.books.held_iff.mpr (a.books.table_held hc hm)

/-- When the request is short of slots, nothing but blocks in use is allocated any more. -/
theorem allocated_inUse (hfull : a.evicted.pool.numFree < a.request.demand) :
    ∀ b, a.evicted.pool.refcount b ≠ 0 ↔ b ∈ inUse cl a.request.alloc.blocks := by
  refine fun b => ⟨fun hr => a.mem_inUse_iff.mpr ?_, a.inUse_allocated b⟩
  have hb := a.books
  have hlock := all_locked hb.wf hb.locks (a.reclaimed.full hfull)
  rcases List.mem_append.mp (hb.held_iff.mp hr) with ht | hf
  · -- a block of the tree lies in a locked node, so above some claim's pin
    rw [← map_block_entries a.evicted.tree.blockTokens] at ht
    obtain ⟨e, he, rfl⟩ := List.mem_map.mp ht
    have hne : e.lock ≠ 0 := by
      obtain ⟨x, hx, hex⟩ := List.mem_flatMap.mp he
      rw [(mem_placeEntries hex).2.1]
      exact hlock x hx
    obtain ⟨i, hi, T, B, hcov, _, hmem⟩ := locked_covered hb.wf hb.locks he hne
    obtain ⟨c, hc, hp⟩ := List.mem_filterMap.mp hi
    refine ⟨c, hc, List.mem_append_left _ ?_⟩
    rcases hb.pins c hc with ⟨h0, _⟩ | ⟨j, hj, _, hcov'⟩
    · rw [h0] at hp; cases hp
    · rw [hj] at hp
      cases hp
      exact (covers_unique hb.wf hcov hcov').2 ▸ hmem
  · obtain ⟨c, hc, hm⟩ := List.mem_flatMap.mp hf
    exact ⟨c, hc, List.mem_append_right _ hm⟩

/-- Slots reserved in the compute tier do not change once the drain is over. -/
theorem reservedTo_eq (t : TierIndex) :
    a.evicted.pool.reservedTo t = m.pool.drainMigrations.reservedTo t := by
  have hb := a.demoted_books
  have hnd : (a.D.map (·.block)).Nodup :=
    (List.nodup_append'.mp ((Books.held_pruned a.reclaimed.pruned).nodup_iff.mp hb.nodup)).1
  have hal : ∀ b ∈ a.D.map (·.block), a.demoted.pool.refcount b ≠ 0 := fun b hm =>
    hb.held_iff.mpr ((Books.held_pruned a.reclaimed.pruned).mem_iff.mpr
      (List.mem_append_left _ hm))
  rw [a.reclaimed.pool, hb.inv.releaseAll_reservedTo t hnd hal, a.room.demoted.reserved,
    a.looked.reserved]

/-- Nor do the blocks in use that a promotion is bringing back. -/
theorem promoting_iff (hb : b ∈ inUse cl a.request.alloc.blocks) :
    a.evicted.pool.target b = some 0 ↔ m.pool.drainMigrations.target b = some 0 := by
  obtain ⟨c, hc, hm⟩ := a.mem_inUse_iff.mp hb
  rw [(a.untouched c hc b hm).target]
  by_cases hmem : b ∈ a.request.alloc.blocks
  · rw [a.looked.target b hmem]
    unfold keepPromotion
    split <;> simp_all
  · rw [(a.looked.shifted.same b hmem).target]

/-- Blocks of live tables are home, so what has to be brought back was matched. -/
theorem inUse_promotable (hb : Books key cl m.tree m.pool) (hs : Settled cl m.pool) :
    (∀ b ∈ inUse cl a.request.alloc.blocks,
      needsPromotion a.evicted.pool b = true ∨ Homed a.evicted.pool b) ∧
    (inUse cl a.request.alloc.blocks).countP (needsPromotion a.evicted.pool) =
      a.request.alloc.blocks.countP (needsPromotion a.request.mgr.pool) := by
  have hset : Settled cl a.evicted.pool := (a.carried hb hs).settled hs
  constructor
  · intro b hm
    rcases mem_inUse.mp hm with ⟨c, hc, hbc⟩ | hbm
    · exact .inr (hset c hc b hbc)
    · exact a.matched_promotable hbm
  · rw [← a.matched_needs_count]
    refine countP_eq_of_mem_iff (List.nodup_dedup _) a.matched_nodup fun b hn => ?_
    refine Iff.trans mem_inUse ⟨?_, .inr⟩
    rintro (⟨c, hc, hbc⟩ | hbm)
    · rw [needsPromotion_of_homed (hset c hc b hbc)] at hn
      cases hn
    · exact hbm

/-- The request is refused exactly when the blocks in use, the fresh blocks and the stranded slots
do not fit together. -/
theorem short_iff (hb : Books key cl m.tree m.pool) (hs : Settled cl m.pool) :
    a.evicted.pool.numFree < a.request.demand ↔
    (m.pool.tiers 0).numBlocks < (inUse cl a.request.alloc.blocks).length + a.request.fresh +
      m.pool.drainMigrations.strandedTo 0 (inUse cl a.request.alloc.blocks) := by
  have hinv := a.books.inv
  have hnd : (inUse cl a.request.alloc.blocks).Nodup := List.nodup_dedup _
  obtain ⟨hprom, hneed⟩ := a.inUse_promotable hb hs
  have hlen := length_split hinv hprom
  have hsplit := hb.drain.inv.reserved_split hnd 0
  have htgt : (inUse cl a.request.alloc.blocks).countP
        (fun b => a.evicted.pool.target b == some 0) =
      (inUse cl a.request.alloc.blocks).countP
        (fun b => m.pool.drainMigrations.target b == some 0) :=
    List.countP_congr fun b hm => by simpa using a.promoting_iff hm
  have htot := hinv.tier_total hinv.tiers_pos
  rw [length_reservedSlots, a.reservedTo_eq, hsplit, ← htgt,
    (a.carried hb hs).shape.tierBlocks] at htot
  have hdem := a.looked.demand
  have hfree : a.evicted.pool.numFree = (a.evicted.pool.tiers 0).freeSlots.length := rfl
  constructor
  · intro hfull
    have hres := resident_eq hinv hnd (a.allocated_inUse hfull) 0
    omega
  · intro hgt
    have hres := resident_ge hinv hnd a.inUse_allocated 0
    omega

end Attempt

end CacheManager

namespace System

variable {key : List TokenId → UInt64} {s : System} {m₀ m' : CacheManager}
  {specs : List TierSpec} {cfg : CacheConfig} {options : Options}
  {mem : Arena.Mem TierIndex UInt8} {tr : List Op} {tokens : List TokenId} {al : Allocation}

/-! ## The measures of a request -/

/-- The blocks the index holds for a sequence. -/
def matchedBlocks (key : List TokenId → UInt64) (s : System) (tokens : List TokenId) :
    List BlockId :=
  match s.mgr.tree.matchPrefix key tokens with
  | .ok (found, _) => found.blocks
  | .error _ => []

/-- The distinct blocks of all live tables and of the request's match. -/
def inUse (key : List TokenId → UInt64) (s : System) (tokens : List TokenId) : List BlockId :=
  (s.live.flatMap (·.alloc.blocks) ++ s.matchedBlocks key tokens).dedup

/-- The fresh blocks a request needs, as `acquire` works them out. -/
def freshNeed (key : List TokenId → UInt64) (s : System) (tokens : List TokenId) : Nat :=
  needBlocks s.mgr.cfg.blockTokens tokens.length - (s.matchedBlocks key tokens).length

/-- Compute slots that queued promotions hold for no block in use: jobs behind the finished ones
that were cancelled, or whose block is in no live table and not matched. -/
def stranded (key : List TokenId → UInt64) (s : System) (tokens : List TokenId) : Nat :=
  (s.mgr.pool.jobs.dropWhile (·.done)).countP fun j =>
    j.dstTier == 0 && (j.cancelled || !(s.inUse key tokens).contains j.id)

/-- The blocks of the compute tier. -/
def computeBlocks (s : System) : Nat := (s.mgr.pool.tiers 0).numBlocks

theorem inUse_eq (a : Attempt key (s.live.map Handle.claim) s.mgr tokens) :
    s.matchedBlocks key tokens = a.request.alloc.blocks ∧ s.inUse key tokens =
      CacheManager.inUse (s.live.map Handle.claim) a.request.alloc.blocks := by
  have hm : s.matchedBlocks key tokens = a.request.alloc.blocks := by
    obtain ⟨f, t₁, he, hf⟩ := a.looked.matched
    unfold matchedBlocks
    rw [he]
    exact hf
  refine ⟨hm, ?_⟩
  unfold inUse CacheManager.inUse
  rw [hm, List.flatMap_map]
  simp only [Handle.claim, Allocation.claim_table]

/-- A request is refused exactly when the blocks in use, the fresh blocks it needs and the
stranded slots do not fit the compute tier together. -/
theorem Inv.refused_iff (hi : s.Inv key) (ht : tokens ≠ [])
    (he : s.mgr.acquire key tokens = .ok (al, m')) :
    al.ok = false ↔ s.computeBlocks <
      (s.inUse key tokens).length + s.freshNeed key tokens + s.stranded key tokens := by
  have hb := Good.books hi
  have hs := Good.settled hi
  obtain ⟨a⟩ := attempt hb tokens
  obtain ⟨hm, hu⟩ := inUse_eq a
  have hshort := a.short_iff hb hs
  have hfresh : s.freshNeed key tokens = a.request.fresh := by
    unfold freshNeed
    rw [hm, a.looked.fresh]
  have hstr : s.stranded key tokens = s.mgr.pool.drainMigrations.strandedTo 0
      (CacheManager.inUse (s.live.map Handle.claim) a.request.alloc.blocks) := by
    unfold stranded strandedTo
    rw [drain_jobs, hu]
  unfold computeBlocks
  rw [hu, hfresh, hstr, ← hshort]
  rw [a.acquire_eq ht] at he
  split at he
  · next hlt =>
    obtain ⟨m₁, hr, _⟩ := a.refuse_spec hb hs
    rw [hr] at he
    cases he
    exact ⟨fun _ => hlt, fun _ => rfl⟩
  · next hge =>
    obtain ⟨al₁, m₁, hr, hsv⟩ := a.serve_spec hb hs (Nat.le_of_not_lt hge)
    rw [hr] at he
    cases he
    exact ⟨fun hf => absurd (hsv.ok.symm.trans hf) nofun, fun h => absurd h hge⟩

/-- Where the sizes add up, the fresh blocks are what the match leaves of the blocks of the tokens. -/
theorem freshNeed_eq (h : tokens.length + s.mgr.cfg.blockTokens ≤ 2 ^ 64) :
    s.freshNeed key tokens =
      tokens.length ⌈/⌉ s.mgr.cfg.blockTokens - (s.matchedBlocks key tokens).length := by
  rw [freshNeed, needBlocks_eq_ceil h]

/-- Where the sum wraps a request asks for no block and is served. -/
theorem Inv.served_of_wraps (hi : s.Inv key) (ht : tokens ≠ []) (hst : Storable tokens)
    (hw : 2 ^ 64 < tokens.length + s.mgr.cfg.blockTokens)
    (he : s.mgr.acquire key tokens = .ok (al, m')) : al.ok = true := by
  obtain ⟨a⟩ := attempt (Good.books hi) tokens
  obtain ⟨hneed, hlt⟩ := needBlocks_wraps hw hst.lt
  obtain ⟨-, hdem⟩ := a.looked.short (hlt.trans_eq (Good.bt hi).symm)
  rw [hneed] at hdem
  have hfree : a.request.demand ≤ a.evicted.pool.numFree := hdem ▸ Nat.zero_le _
  obtain ⟨al₁, m₁, hr, hsv⟩ := a.serve_spec (Good.books hi) (Good.settled hi) hfree
  rw [a.acquire_eq ht, if_neg (Nat.not_lt.mpr hfree), hr] at he
  cases he
  exact hsv.ok

/-- The call returns, and refuses only when the blocks of the sequences in flight and those the
request needs exceed the compute tier. -/
def RefusesOversubscribed (key : List TokenId → UInt64) (s : System) (tokens : List TokenId) :
    Prop :=
  ∃ al m', s.mgr.acquire key tokens = .ok (al, m') ∧ (al.ok = false →
    s.computeBlocks < (s.inUse key tokens).length +
      (tokens.length ⌈/⌉ s.mgr.cfg.blockTokens - (s.matchedBlocks key tokens).length))

/-- **No spurious refusal.**  In every state a program reaches, a request is refused only for want
of blocks, unless it fits beside the blocks in use and fails to fit only because of the slots that
abandoned promotions hold until a worker is done with them. -/
theorem no_spurious_refusal (h0 : CacheManager.create specs cfg options mem = .ok m₀)
    (hfit : (specs.map (·.numBlocks)).sum < 2 ^ 32) (hrun : Run (Step key) (start m₀) tr s)
    (ht : tokens ≠ []) (hst : Storable tokens) :
    RefusesOversubscribed key s tokens ↔
      ¬ ((s.inUse key tokens).length + s.freshNeed key tokens ≤ s.computeBlocks ∧
        s.computeBlocks < (s.inUse key tokens).length + s.freshNeed key tokens +
          s.stranded key tokens) := by
  have hi := reach h0 hfit hrun
  obtain ⟨al, m', he, _⟩ := acquire_spec (Good.books hi) (Good.settled hi) tokens
  have hiff := hi.refused_iff ht he
  rcases Nat.lt_or_ge (2 ^ 64) (tokens.length + s.mgr.cfg.blockTokens) with hw | hw
  · -- the request is not refused at all
    have hok := hi.served_of_wraps ht hst hw he
    exact iff_of_true ⟨al, m', he, fun hf => absurd (hok.symm.trans hf) nofun⟩
      fun h => absurd (hok.symm.trans (hiff.mpr h.2)) nofun
  unfold RefusesOversubscribed
  rw [← freshNeed_eq hw]
  constructor
  · rintro ⟨al₁, m₁, he₁, himp⟩ ⟨hfits, hgt⟩
    rw [he] at he₁
    cases he₁
    exact absurd (himp (hiff.mpr hgt)) (Nat.not_lt.mpr hfits)
  · intro hcond
    refine ⟨al, m', he, fun hf => ?_⟩
    have hgt := hiff.mp hf
    exact Nat.lt_of_not_le fun hfits => hcond ⟨hfits, hgt⟩

/-- The handle of `promotionTrace` is dropped while its block is on its way back. -/
def strandedTrace : List Op := promotionTrace ++ [.destroy 2]

theorem no_spurious_refusal_pinned : ∃ s : System, s.live.map (·.alloc.blocks) = [[0]] ∧
    RefusesOversubscribed blockKey s [7, 8, 9, 10] := by
  have hs : ((CacheManager.create tightSpecs twoTierConfig ⟨0, true⟩ (fun _ _ => 0)).toOption.bind
      fun m₀ => (exec (step? blockKey) (start m₀) promotionTrace).map fun s =>
        (s.live.map (·.alloc.blocks), s.computeBlocks,
          (s.inUse blockKey [7, 8, 9, 10]).length + s.freshNeed blockKey [7, 8, 9, 10])) =
      some ([[0]], 2, 3) := by
    decide +kernel
  obtain ⟨m₀, h0, hm⟩ := Option.bind_eq_some_iff.mp hs
  obtain ⟨s, hx, he⟩ := Option.map_eq_some_iff.mp hm
  obtain ⟨hl, hn⟩ := Prod.mk.inj he
  obtain ⟨hc, hu⟩ := Prod.mk.inj hn
  refine ⟨s, hl, (no_spurious_refusal (toOption_eq_some h0) (by decide) (run_of_step? hx)
    (by decide) (by decide)).mpr ?_⟩
  rw [hc, hu]
  exact fun h => absurd h.1 (by decide)

/-- With no handle left and two compute slots, a request for two blocks is refused. -/
theorem refused_by_stranded_promotion : ∃ m₀ s al m',
    CacheManager.create tightSpecs twoTierConfig ⟨0, true⟩ (fun _ _ => 0) = .ok m₀ ∧
    Run (Step blockKey) (start m₀) strandedTrace s ∧ s.live = [] ∧
    s.mgr.acquire blockKey [7, 8, 9, 10] = .ok (al, m') ∧ al.ok = false ∧
    (s.inUse blockKey [7, 8, 9, 10]).length + s.freshNeed blockKey [7, 8, 9, 10] = 2 ∧
    s.computeBlocks = 2 ∧ ¬ RefusesOversubscribed blockKey s [7, 8, 9, 10] := by
  have hs : ((CacheManager.create tightSpecs twoTierConfig ⟨0, true⟩ (fun _ _ => 0)).toOption.bind
      fun m₀ => (exec (step? blockKey) (start m₀) strandedTrace).bind fun s =>
        (s.mgr.acquire blockKey [7, 8, 9, 10]).toOption.map fun r =>
          (s.live, r.1.ok, (s.inUse blockKey [7, 8, 9, 10]).length +
            s.freshNeed blockKey [7, 8, 9, 10], s.computeBlocks, s.mgr.cfg.blockTokens)) =
      some ([], false, 2, 2, 2) := by
    decide +kernel
  obtain ⟨m₀, h0, hm⟩ := Option.bind_eq_some_iff.mp hs
  obtain ⟨s, hx, hr⟩ := Option.bind_eq_some_iff.mp hm
  obtain ⟨⟨al, m'⟩, ha, he⟩ := Option.map_eq_some_iff.mp hr
  obtain ⟨hl, hn⟩ := Prod.mk.inj he
  obtain ⟨hok, hn⟩ := Prod.mk.inj hn
  obtain ⟨hu, hn⟩ := Prod.mk.inj hn
  obtain ⟨hc, hbt⟩ := Prod.mk.inj hn
  have ha := toOption_eq_some ha
  refine ⟨m₀, s, al, m', toOption_eq_some h0, run_of_step? hx, hl, ha, hok, hu, hc, ?_⟩
  rintro ⟨al₁, m₁, ha₁, himp⟩
  rw [ha] at ha₁
  cases ha₁
  have := himp hok
  rw [← freshNeed_eq (by rw [hbt]; decide), hu, hc] at this
  exact absurd this (Nat.lt_irrefl 2)

end System

end KvsLab
