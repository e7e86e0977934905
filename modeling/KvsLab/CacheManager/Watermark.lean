import KvsLab.CacheManager.Ownership
import KvsLab.RadixTree.Victims

/-!
# Background demotion keeps to the shortage

`maintain` compares the watermark with the compute slots that are free or will be once the pending
demotions land, and queues demotions for the difference.

* `pendingDepartures_eq` — the departures are the live jobs that leave the tier: a promotion is not
  one, and neither is a cancelled job.
* `Queued l p p'` — demotions of the blocks `l` went to the end of the queue and nothing else
  happened; `queue_spec` — they are queued until the spill tier is full.
* `MayMaintain` — the states a program is in when `maintain` runs, with the tables alive there.
* `System.maintain_exact` — **the projected slots grow by the shortage, as far as there are blocks
  to demote and room for them, and by no more.**
-/

namespace KvsLab

open RadixTree BlockPool Transition

namespace BlockPool

variable {p p' q : BlockPool} {id : BlockId} {l l' : List BlockId}

/-- A pool whose first two tiers are host addressable. -/
structure TwoHosts (p : BlockPool) : Prop where
  tiers : 1 < p.numTiers
  compute : (p.tiers 0).hostAddressable = true
  spill : (p.tiers 1).hostAddressable = true

theorem TwoHosts.of_shape (h : p.TwoHosts) (hs : SameShape p p') : p'.TwoHosts :=
  ⟨hs.numTiers ▸ h.tiers, hs.tierHost 0 ▸ h.compute, hs.tierHost 1 ▸ h.spill⟩

theorem Inv.pendingDepartures_eq (h : p.Inv) (t : TierIndex) :
    p.pendingDepartures t =
      p.flights.countP fun j => (p.location j.id).tier == t && j.dstTier != t := by
  unfold pendingDepartures
  rw [h.migrating_eq, List.countP_map]
  refine List.countP_congr fun j hj => ?_
  have hjob : p.job? j.ptr = some j := h.job?_eq_some.mpr ⟨(mem_flights.mp hj).1, rfl⟩
  simp [hjob]

/-- Demotions of the blocks `l` were queued, in order, behind the jobs there were. -/
structure Queued (l : List BlockId) (p p' : BlockPool) : Prop where
  shifted : Shifted l p p'
  location : p'.location = p.location
  compute : p'.numFree = p.numFree
  spill : p'.tierFree 1 + l.length = p.tierFree 1
  departures : p'.pendingDepartures 0 = p.pendingDepartures 0 + l.length
  jobs : ∃ js, p'.jobs = p.jobs ++ js ∧ js.map (·.id) = l ∧
    ∀ j ∈ js, j.dstTier = 1 ∧ j.cancelled = false
  migratingIds : p.migratingIds <+: p'.migratingIds
  queue : p'.nextUnclaimed = p.nextUnclaimed ∧ p'.workers = p.workers
  mem : p'.mem = p.mem

theorem Queued.nil (h : p.Inv) : Queued [] p p :=
  ⟨.refl h _, rfl, rfl, rfl, rfl, ⟨[], (List.append_nil _).symm, rfl, nofun⟩, List.prefix_rfl,
    ⟨rfl, rfl⟩, rfl⟩

theorem Queued.append (h : Queued l p q) (h' : Queued l' q p') : Queued (l ++ l') p p' := by
  have hsub : Shifted (l ++ l') p p' :=
    (h.shifted.mono (List.subset_append_left _ _)).trans
      (h'.shifted.mono (List.subset_append_right _ _))
  refine ⟨hsub, h'.location.trans h.location, h'.compute.trans h.compute, ?_, ?_, ?_,
    h.migratingIds.trans h'.migratingIds,
    ⟨h'.queue.1.trans h.queue.1, h'.queue.2.trans h.queue.2⟩, h'.mem.trans h.mem⟩
  · have h1 := h.spill
    have h2 := h'.spill
    rw [List.length_append]
    omega
  · rw [h'.departures, h.departures, List.length_append, Nat.add_assoc]
  · obtain ⟨js, hj, hids, hto⟩ := h.jobs
    obtain ⟨js', hj', hids', hto'⟩ := h'.jobs
    refine ⟨js ++ js', by rw [hj', hj, List.append_assoc], by rw [List.map_append, hids, hids'], ?_⟩
    intro j hm
    rcases List.mem_append.mp hm with hm | hm
    · exact hto j hm
    · exact hto' j hm

/-- One demotion. -/
theorem Inv.enqueue_queued (h : p.Inv) {slot : Nat} {slots : List Nat} (hr : p.refcount id ≠ 0)
    (ht : 1 < p.numTiers) (h0 : (p.location id).tier = 0) (hm : p.migrating id = false)
    (hs : (p.tiers 1).freeSlots = slot :: slots) :
    Queued [id] p (p.enqueue id ⟨1, slot⟩ (p.location id)) := by
  have hne : (p.location id).tier ≠ 1 := by rw [h0]; decide
  have hi := h.enqueue hr ht hne hm hs
  have hfree : ∀ u, (p.enqueue id ⟨1, slot⟩ (p.location id)).tierFree u +
      (if u = 1 then 1 else 0) = p.tierFree u := enqueue_tierFree hs
  obtain ⟨j, hj, hid, hdst⟩ := enqueue_flights p id ⟨1, slot⟩ (p.location id)
  refine ⟨⟨hi, .enqueue _ _ _ _, rfl, rfl, fun y hy => enqueue_same fun e => hy
    (List.mem_singleton.mpr e)⟩, rfl, hfree 0, hfree 1, ?_, ⟨_, rfl, rfl, ?_⟩,
    List.prefix_append _ _, ⟨rfl, rfl⟩, rfl⟩
  · have hloc : (p.enqueue id ⟨1, slot⟩ (p.location id)).location = p.location := rfl
    rw [hi.pendingDepartures_eq, h.pendingDepartures_eq, hj, List.countP_append, hloc]
    simp [hid, hdst, h0]
  · intro k hk
    rw [List.mem_singleton.mp hk]
    exact ⟨rfl, rfl⟩

end BlockPool

namespace CacheManager

variable {key : List TokenId → UInt64} {cl : List Claim} {m m' : CacheManager}

/-- **Demotions are queued until the spill tier is full.** -/
theorem queue_spec : ∀ (ids : List BlockId) (p : BlockPool), p.Inv → p.TwoHosts → ids.Nodup →
    (∀ b ∈ ids, p.refcount b ≠ 0 ∧ (p.location b).tier = 0 ∧ p.target b = none) →
    ∃ p', moveWhile (fun p id => p.migrateAsync id 1) ids p =
        .ok (min ids.length (p.tierFree 1), p') ∧
      Queued (ids.take (min ids.length (p.tierFree 1))) p p'
  | [], p, h, _, _, _ => by
    refine ⟨p, by simp [moveWhile], ?_⟩
    rw [List.take_nil]
    exact .nil h
  | id :: ids, p, h, hh, hn, hr => by
    rw [List.nodup_cons] at hn
    obtain ⟨hr1, hr2, hr3⟩ := hr id List.mem_cons_self
    have hm : p.migrating id = false := by
      rw [h.migrating_eq_isSome, hr3]
      rfl
    have hcond : ¬ ((p.location id).tier = 1 ∨ p.migrating id = true) := by
      rw [hr2, hm]
      decide
    have hstep := h.migrateAsync_eq hr1 hh.tiers
    rw [if_neg hcond] at hstep
    unfold moveWhile
    cases hs : (p.tiers 1).freeSlots with
    | nil =>
      have h0 : p.tierFree 1 = 0 := by
        unfold tierFree
        rw [hs]
        rfl
      rw [hs] at hstep
      simp only [hstep, bind, Except.bind, h0, Nat.min_zero]
      exact ⟨p, rfl, .nil h⟩
    | cons slot slots =>
      have hone := h.enqueue_queued hr1 hh.tiers hr2 hm hs
      rw [hs, hr2, hh.compute, hh.spill] at hstep
      have hstep : p.migrateAsync id 1 = .ok (true, p.enqueue id ⟨1, slot⟩ (p.location id)) := hstep
      generalize p.enqueue id ⟨1, slot⟩ (p.location id) = q at hstep hone
      have hsame : ∀ c ∈ ids, SameBlock p q c := fun c hc =>
        hone.shifted.same c fun hm => hn.1 (List.mem_singleton.mp hm ▸ hc)
      obtain ⟨p', he, hq⟩ := queue_spec ids q hone.shifted.inv (hh.of_shape hone.shifted.shape) hn.2
        fun c hc => by
          rw [(hsame c hc).refcount, (hsame c hc).location, (hsame c hc).target]
          exact hr c (List.mem_cons_of_mem _ hc)
      have hmin : min (id :: ids).length (p.tierFree 1) = min ids.length (q.tierFree 1) + 1 := by
        have := hone.spill
        rw [List.length_singleton] at this
        rw [List.length_cons]
        omega
      rw [hmin]
      simp only [hstep, he, bind, Except.bind]
      exact ⟨p', rfl, hone.append hq⟩

/-! ## The shortage -/

/-- Compute slots that are free or that a pending demotion hands back. -/
def projected (m : CacheManager) : Nat := m.pool.numFree + m.pool.pendingDepartures 0

/-- The tree's blocks that could be demoted now: in an unpinned leaf, in the compute tier, with
refcount one and no migration in flight. -/
def candidates (m : CacheManager) : List BlockId :=
  m.tree.unpinnedLeaves.flatMap fun x => x.2.blocks.filter fun b =>
    (m.pool.location b).tier == 0 && m.pool.refcount b == 1 && !m.pool.migrating b

/-- The demotions to queue: what is missing to the watermark, limited by the blocks there are to
demote and by the free slots of the spill tier. -/
def dueDemotions (m : CacheManager) : ℤ :=
  min (max ((m.options.spillWatermark : ℤ) - m.projected) 0)
    (min m.candidates.length (m.pool.tierFree 1))

theorem candidates_nodup (h : Books key cl m.tree m.pool) : m.candidates.Nodup :=
  eligibleOf_nodup h.sole.nodup
    (h.wf.cold_of_nodup h.wf.unpinnedLeaves_nodup fun _ => mem_unpinnedLeaves.mp)

theorem mem_candidates {b : BlockId} : b ∈ m.candidates ↔
    ∃ x ∈ m.tree.children.leaves Ctx.push .top, x.2.lockCount = 0 ∧ b ∈ x.2.blocks ∧
      eligible m.pool b = true := by
  constructor
  · intro hb
    obtain ⟨x, hx, hb⟩ := List.mem_flatMap.mp hb
    obtain ⟨hleaf, h0⟩ := mem_unpinnedLeaves.mp hx
    exact ⟨x, hleaf, h0, List.mem_filter.mp hb⟩
  · rintro ⟨x, hleaf, h0, hb⟩
    exact List.mem_flatMap.mpr ⟨x, mem_unpinnedLeaves.mpr ⟨hleaf, h0⟩, List.mem_filter.mpr hb⟩

/-- The picker finds as many victims as it is asked for, or all candidates. -/
theorem pick_count (h : Books key cl m.tree m.pool) (n : Nat) :
    ∃ V, m.tree.pickDemotionVictims m.pool n [] = .ok V ∧ Victims m.tree m.pool V ∧
      V.length = min n m.candidates.length := by
  obtain ⟨V, he, hv, hle, hall⟩ := pick_spec h n
  have hsub : V ⊆ m.candidates := fun b hb => by
    obtain ⟨x, hx, h0, hbx⟩ := hv.leaf b hb
    exact mem_candidates.mpr ⟨x, hx, h0, hbx, hv.eligible b hb⟩
  have hlen : V.length ≤ m.candidates.length := (hv.nodup.subperm hsub).length_le
  refine ⟨V, he, hv, ?_⟩
  by_cases hlt : V.length < n
  · have hsup : m.candidates ⊆ V := fun b hb => by
      obtain ⟨x, hx, h0, hbx, hel⟩ := mem_candidates.mp hb
      exact hall hlt x hx h0 b hbx hel
    have := ((candidates_nodup h).subperm hsup).length_le
    omega
  · omega

/-- What `maintain` does when there is a watermark and a spill tier to copy to, in the presence of
the given tables. -/
structure Scheduled (tables : List (List BlockId)) (m m' : CacheManager) : Prop where
  free : m'.pool.numFree = m.pool.numFree
  projected : (m'.projected : ℤ) = m.projected + m.dueDemotions
  counted : (m'.stats.backgroundDemotions : ℤ) = m.stats.backgroundDemotions + m.dueDemotions
  /-- the jobs in flight keep their place and their state, and the new ones are demotions of blocks
  of no table -/
  jobs : ∃ js, m'.pool.jobs = m.pool.jobs ++ js ∧ (js.length : ℤ) = m.dueDemotions ∧
    ∀ j ∈ js, j.dstTier = 1 ∧ j.cancelled = false ∧ ∀ table ∈ tables, j.id ∉ table
  migratingIds : m.pool.migratingIds <+: m'.pool.migratingIds
  location : m'.pool.location = m.pool.location
  queue : m'.pool.nextUnclaimed = m.pool.nextUnclaimed ∧ m'.pool.workers = m.pool.workers
  mem : m'.pool.mem = m.pool.mem

/-- The watermark is reached already. -/
theorem Scheduled.refl {tables : List (List BlockId)} (h : m.dueDemotions = 0) :
    Scheduled tables m m := by
  refine ⟨rfl, ?_, ?_, ⟨[], (List.append_nil _).symm, h.symm, nofun⟩, List.prefix_rfl, rfl,
    ⟨rfl, rfl⟩, rfl⟩
  · rw [h, add_zero]
  · rw [h, add_zero]

/-- **`maintain` queues the shortage.** -/
theorem maintain_scheduled (h : Books key cl m.tree m.pool) (hh : m.pool.TwoHosts)
    (hw : 0 < m.options.spillWatermark) :
    ∃ m', m.maintain = .ok m' ∧ Scheduled (cl.map Claim.table) m m' := by
  have htiers := hh.tiers
  unfold maintain
  rw [if_neg (by omega)]
  dsimp only
  by_cases hle : m.options.spillWatermark ≤ m.projected
  · have hdue : m.dueDemotions = 0 := by
      unfold dueDemotions
      omega
    exact ⟨m, if_pos hle, .refl hdue⟩
  obtain ⟨V, he, hv, hlen⟩ := pick_count h (m.options.spillWatermark - m.projected)
  obtain ⟨p', hm, hq⟩ := queue_spec V m.pool h.inv hh hv.nodup fun b hb => by
    obtain ⟨h1, h2, h3⟩ := (eligible_iff h.inv).mp (hv.eligible b hb)
    exact ⟨by rw [h2]; exact Nat.one_ne_zero, h1, h3⟩
  have htake : ((V.take (min V.length (m.pool.tierFree 1))).length : ℤ) = m.dueDemotions := by
    unfold dueDemotions
    rw [List.length_take]
    omega
  have hcount : ((min V.length (m.pool.tierFree 1) : Nat) : ℤ) = m.dueDemotions := by
    rw [← htake, List.length_take]
    omega
  have hlt : ¬ m.options.spillWatermark ≤ m.pool.numFree + m.pool.pendingDepartures 0 := hle
  rw [if_neg hlt]
  unfold projected at he
  simp only [he, hm, bind, Except.bind]
  refine ⟨_, rfl, hq.compute, ?_, ?_, ?_, hq.migratingIds, hq.location, hq.queue, hq.mem⟩
  · unfold projected
    rw [hq.compute, hq.departures, ← htake]
    omega
  · show ((m.stats.backgroundDemotions + _ : Nat) : ℤ) = _
    rw [← hcount]
    omega
  · obtain ⟨js, hj, hids, hto⟩ := hq.jobs
    refine ⟨js, hj, ?_, fun j hjs => ⟨(hto j hjs).1, (hto j hjs).2, ?_⟩⟩
    · rw [← htake, ← hids, List.length_map]
    · -- a victim is in no claim's table
      have hvictim : j.id ∈ V := List.mem_of_mem_take (hids ▸ List.mem_map_of_mem hjs)
      intro table htab
      obtain ⟨c, hc, rfl⟩ := List.mem_map.mp htab
      exact h.cold_table (hv.cold hvictim) hc

end CacheManager

open CacheManager

namespace System

variable {key : List TokenId → UInt64} {s : System} {m m' m₀ : CacheManager} {h : Handle}
  {specs : List TierSpec} {cfg : CacheConfig} {options : Options}
  {mem : Arena.Mem TierIndex UInt8} {tr : List Op} {tokens : List TokenId} {al : Allocation}
  {tables : List (List BlockId)} {i : Nat} {ws : List (WorkerId × WorkerAct)}

/-- The states `maintain` is about, and the tables alive in them: one between two calls, the one a
served `acquire` calls it in, and the one a `release` calls it in. -/
inductive MayMaintain (key : List TokenId → UInt64) (s : System) :
    List (List BlockId) → CacheManager → Prop where
  | idle : MayMaintain key s (s.live.map (·.alloc.blocks)) s.mgr
  | acquire {tokens : List TokenId} {r : Request} {m₁ m₂ m : CacheManager} {al : Allocation}
      (hne : tokens ≠ []) (hl : s.mgr.lookup key tokens = .ok r)
      (hm : r.mgr.makeRoom r.demand = .ok m₁)
      (hr : reclaim key r.demand (m₁.tree.storedBlocks + 1) m₁ = .ok m₂)
      (hf : r.demand ≤ m₂.pool.numFree)
      (hs : m₂.stock r.alloc r.fresh tokens = .ok (al, m)) :
      MayMaintain key s (al.blocks :: s.live.map (·.alloc.blocks)) m
  | release {i : Nat} {h : Handle} {tokens : List TokenId} {ws : List (WorkerId × WorkerAct)}
      {al : Allocation} {m : CacheManager} (hi : s.vars[i]? = some h) (hok : h.alloc.ok = true)
      (hag : h.Agrees tokens) (hg : s.mgr.giveBack key tokens h.alloc = .ok (al, m)) :
      MayMaintain key s
        ((live { s with vars := s.vars.set i { h with alloc := al } }).map (·.alloc.blocks))
        { m with pool := (m.pool.work ws).drainMigrations }

theorem claim_tables (L : List Handle) :
    (L.map Handle.claim).map Claim.table = L.map (·.alloc.blocks) := by
  rw [List.map_map]
  exact List.map_congr_left fun h _ => Allocation.claim_table h.alloc h.tokens

/-- `maintain` runs on books that are in order. -/
theorem MayMaintain.books (hd : MayMaintain key s tables m) (hi : s.Inv key) :
    ∃ cl, cl.map Claim.table = tables ∧ Books key cl m.tree m.pool ∧
      m.options = s.mgr.options ∧ SameShape s.mgr.pool m.pool := by
  cases hd with
  | idle => exact ⟨_, claim_tables _, Good.books hi, rfl, .refl _⟩
  | @acquire tokens r m₁ m₂ m al hne hl hm hr hf hs =>
    have hb := Good.books hi
    obtain ⟨a⟩ := attempt hb tokens
    -- the phases are functions, so these are the ones of the attempt
    obtain rfl : a.request = r := Except.ok.inj (a.lookup_eq.symm.trans hl)
    obtain rfl : a.demoted = m₁ := Except.ok.inj (a.makeRoom_eq.symm.trans hm)
    obtain rfl : a.evicted = m₂ := Except.ok.inj (a.reclaim_eq.symm.trans hr)
    obtain ⟨al', m'', he, hst⟩ := a.stock_spec hb (Good.settled hi) hf
    obtain ⟨rfl, rfl⟩ := Prod.mk.inj (Except.ok.inj (he.symm.trans hs))
    have hcar := (a.carried hb (Good.settled hi)).trans hst.carried
    refine ⟨_, ?_, hst.books, hcar.options, hcar.shape⟩
    rw [List.map_cons, claim_tables, Allocation.claim_table]
  | @release i h tokens ws al m hget hok hag hg =>
    obtain ⟨K, hK, hset⟩ := live_cons hget hok
    have hgood := Good.perm hi hK
    obtain ⟨t₁, t₂, p₁, he, hpub, -, hb⟩ := giveBack_spec hgood.books
      (agrees_take (hgood.handles h List.mem_cons_self) hag)
    obtain ⟨rfl, rfl⟩ := Prod.mk.inj (Except.ok.inj (he.symm.trans hg))
    have hw := hb.inv.work ws
    have hperm := hset h.disarm rfl
    refine ⟨_, claim_tables _, ?_, rfl,
      (hpub.shape.trans hw.shape).trans (SameShape.drainMigrations _)⟩
    exact ((hb.shifted hw).drain).perm (hperm.symm.map _)

/-- A served request ends in a call of `maintain`. -/
theorem acquire_maintains (hne : tokens ≠ []) (he : s.mgr.acquire key tokens = .ok (al, m'))
    (hok : al.ok = true) :
    ∃ m, MayMaintain key s (al.blocks :: s.live.map (·.alloc.blocks)) m ∧ m.maintain = .ok m' := by
  obtain ⟨ht, -⟩ | ⟨-, r, m₁, m₂, hr, h₁, h₂, hend⟩ := acquire_cases he
  · exact absurd ht hne
  rcases hend with ⟨-, hrf⟩ | ⟨hf, hsv⟩
  · obtain ⟨t, -, rfl, -⟩ := refuse_cases hrf
    cases hok
  · obtain ⟨m, hst, hm⟩ := serve_cases hsv
    exact ⟨m, .acquire hne hr h₁ h₂ hf hst, hm⟩

/-- And so does a release. -/
theorem release_maintains (hget : s.vars[i]? = some h) (hok : h.alloc.ok = true)
    (hag : h.Agrees tokens) (he : s.mgr.release key tokens h.alloc ws = .ok (al, m')) :
    ∃ m, MayMaintain key s
        ((live { s with vars := s.vars.set i { h with alloc := al } }).map (·.alloc.blocks)) m ∧
      m.maintain = .ok m' := by
  obtain ⟨hno, -⟩ | ⟨-, m₁, hg, hm⟩ := release_cases he
  · rw [hok] at hno
    cases hno
  · exact ⟨_, .release hget hok hag hg, hm⟩

/-- **`maintain` schedules exactly the shortage.**  In every state a program with two host
addressable tiers and a watermark reaches, whether between two calls or inside the calls that run
it, `maintain` returns, leaves the free compute slots and every job in flight as they are, queues
and counts as many demotions as are missing to the watermark, or as there are blocks to demote, or
slots to take them, and demotes no block of a live table. -/
theorem maintain_exact (h0 : CacheManager.create specs cfg options mem = .ok m₀)
    (hfit : (specs.map (·.numBlocks)).sum < 2 ^ 32) (hrun : Run (Step key) (start m₀) tr s)
    (hhost : s.mgr.pool.TwoHosts) (hmark : 0 < s.mgr.options.spillWatermark) :
    (∀ {tables m}, MayMaintain key s tables m →
      ∃ m', m.maintain = .ok m' ∧ Scheduled tables m m') ∧
    -- the calls that run it
    (∀ {tokens al m'}, tokens ≠ [] → s.mgr.acquire key tokens = .ok (al, m') → al.ok = true →
      ∃ m, MayMaintain key s (al.blocks :: s.live.map (·.alloc.blocks)) m ∧ m.maintain = .ok m') ∧
    ∀ {i h tokens ws al m'}, s.vars[i]? = some h → h.alloc.ok = true → h.Agrees tokens →
      s.mgr.release key tokens h.alloc ws = .ok (al, m') →
      ∃ m, MayMaintain key s
          ((live { s with vars := s.vars.set i { h with alloc := al } }).map (·.alloc.blocks)) m ∧
        m.maintain = .ok m' := by
  have hi := reach h0 hfit hrun
  refine ⟨fun hd => ?_, acquire_maintains, release_maintains⟩
  obtain ⟨cl, rfl, hb, hopt, hshape⟩ := hd.books hi
  exact maintain_scheduled hb (hhost.of_shape hshape) (hopt ▸ hmark)

/-- Two tables are alive; the first is about to be given back. -/
def watermarkTrace : List Op := [.acquire [1, 2, 3, 4], .acquire [5, 6]]

/-- Below a watermark of three with one slot free, the release of the first table demotes both of
its blocks. -/
theorem maintain_exact_short : ∃ m₀ s h al m m',
    CacheManager.create twoTierSpecs twoTierConfig { spillWatermark := 3 } (fun _ _ => 0) = .ok m₀ ∧
    Run (Step blockKey) (start m₀) watermarkTrace s ∧ s.vars[0]? = some h ∧
    s.mgr.giveBack blockKey [1, 2, 3, 4] h.alloc = .ok (al, m) ∧
    maintain { m with pool := (m.pool.work []).drainMigrations } = .ok m' ∧
    dueDemotions { m with pool := (m.pool.work []).drainMigrations } = 2 ∧ m'.projected = 3 ∧
    m'.stats.backgroundDemotions = 2 := by
  have hs : ((CacheManager.create twoTierSpecs twoTierConfig { spillWatermark := 3 }
      (fun _ _ => 0)).toOption.bind fun m₀ =>
        (exec (step? blockKey) (start m₀) watermarkTrace).bind fun s => s.vars[0]?.bind fun h =>
          (s.mgr.giveBack blockKey [1, 2, 3, 4] h.alloc).toOption.map fun r =>
            ((s.mgr.pool.numTiers, (s.mgr.pool.tiers 0).hostAddressable,
              (s.mgr.pool.tiers 1).hostAddressable, s.mgr.options.spillWatermark),
              (h.alloc.ok, decide (h.Agrees [1, 2, 3, 4])),
              projected { r.2 with pool := (r.2.pool.work []).drainMigrations },
              r.2.stats.backgroundDemotions,
              dueDemotions { r.2 with pool := (r.2.pool.work []).drainMigrations })) =
        some ((2, true, true, 3), (true, true), 1, 0, 2) := by
    decide +kernel
  obtain ⟨m₀, h0, hm⟩ := Option.bind_eq_some_iff.mp hs
  obtain ⟨s, hx, hr⟩ := Option.bind_eq_some_iff.mp hm
  obtain ⟨h, hget, hr⟩ := Option.bind_eq_some_iff.mp hr
  obtain ⟨⟨al, m⟩, hg, he⟩ := Option.map_eq_some_iff.mp hr
  obtain ⟨hpool, he⟩ := Prod.mk.inj he
  obtain ⟨ht, he0⟩ := Prod.mk.inj hpool
  obtain ⟨hc, he0⟩ := Prod.mk.inj he0
  obtain ⟨hsp, hmark⟩ := Prod.mk.inj he0
  obtain ⟨hhandle, he⟩ := Prod.mk.inj he
  obtain ⟨hok, hag⟩ := Prod.mk.inj hhandle
  obtain ⟨hproj, he⟩ := Prod.mk.inj he
  obtain ⟨hstat, hdue⟩ := Prod.mk.inj he
  have h0 := toOption_eq_some h0
  have hg := toOption_eq_some hg
  have hrun := run_of_step? hx
  have hmay : MayMaintain blockKey s _ { m with pool := (m.pool.work []).drainMigrations } :=
    .release hget hok (of_decide_eq_true hag) hg
  obtain ⟨m', he', hsch⟩ := (maintain_exact h0 (by decide) hrun ⟨by rw [ht]; decide, hc, hsp⟩
    (by rw [hmark]; decide)).1 hmay
  have hp := hsch.projected
  have hn := hsch.counted
  rw [hproj, hdue] at hp
  rw [hdue] at hn
  have hstat : m.stats.backgroundDemotions = 0 := hstat
  have hn : (m'.stats.backgroundDemotions : ℤ) = m.stats.backgroundDemotions + 2 := hn
  exact ⟨m₀, s, h, al, m, m', h0, hrun, hget, hg, he', hdue, by omega, by omega⟩

end System

end KvsLab
