import KvsLab.CacheManager.Recovery
import KvsLab.HostTier

/-!
# A manager over one tier

There is nowhere to demote to: whatever the options, "the only relief is eviction".

* `Lone` — a pool over one tier: every block is in it and no job is queued.  Every call keeps it
  (`Lone.closed`).
* `Stats.moves` — blocks demoted or promoted.
* `single_tier_exact` — **a manager over one tier never moves a block, its handles are born ready, no
  call waits, and a request is refused exactly when the sequences in flight leave no room for it.**
-/

namespace KvsLab

open RadixTree BlockPool CacheManager Transition Lockstep

/-- Blocks demoted, in the foreground or by a worker, or promoted. -/
def Stats.moves (st : Stats) : Nat := st.demotedBlocks + st.backgroundDemotions + st.promotedBlocks

namespace BlockPool

variable {p p' : BlockPool} {id : BlockId}

structure Lone (p : BlockPool) : Prop where
  tiers : p.numTiers = 1
  jobs : p.jobs = []
  migrating : p.migratingIds = []
  tier : ∀ b, (p.location b).tier = 0

theorem Lone.cancel (h : p.Lone) (id : BlockId) : p.cancelMigration id = p := by
  unfold cancelMigration
  rw [h.migrating]
  rfl

theorem Lone.drain (h : p.Lone) : p.drainMigrations = p := drain_nil h.jobs

theorem Lone.wait (h : p.Lone) : p.waitForMigrations = some p := by
  unfold waitForMigrations
  rw [h.jobs, List.all_nil, if_pos rfl, h.drain]

/-- A worker finds nothing to do. -/
theorem Lone.worker (h : p.Lone) {w : WorkerId} {act : WorkerAct} : p.workerStep w act = none := by
  have hjob : ∀ ptr, p.job? ptr = none := fun ptr => by
    unfold job?
    rw [h.jobs, List.find?_nil]
  cases hs : p.workerStep w act with
  | none => rfl
  | some p' =>
    obtain ⟨j, -, -, hj, -⟩ | ⟨ptr, j, -, -, hj, -⟩ | ⟨ptr, j, -, -, hj, -⟩ |
      ⟨-, ptr, j, -, -, hj, -⟩ | ⟨ptr, j, -, -, hj, -⟩ := workerStep_cases hs
    · rw [h.jobs] at hj
      cases hj
    all_goals
      rw [hjob] at hj
      cases hj

/-- A block of the one tier is where it is asked to go. -/
theorem Lone.migrate (h : p.Lone) {dst : TierIndex} {r : Bool}
    (he : p.migrate id dst = .ok (r, p')) : r = true ∧ p' = p := by
  obtain ⟨-, hlt, hcase⟩ := migrate_cases he
  rw [h.tiers] at hlt
  have ht : (p.location id).tier = dst := by rw [h.tier id, Nat.lt_one_iff.mp hlt]
  obtain ⟨hr, -, hp⟩ | ⟨-, hne, -⟩ | ⟨-, hne, -⟩ := hcase
  · exact ⟨hr, hp.trans (h.cancel id)⟩
  · exact absurd ht hne
  · exact absurd ht hne

theorem Lone.migrateAsync (h : p.Lone) {dst : TierIndex} {r : Bool}
    (he : p.migrateAsync id dst = .ok (r, p')) : r = false ∧ p' = p := by
  obtain ⟨-, hlt, hcase⟩ := migrateAsync_cases he
  rw [h.tiers] at hlt
  have ht : (p.location id).tier = dst := by rw [h.tier id, Nat.lt_one_iff.mp hlt]
  obtain ⟨hr, hp, -⟩ | ⟨-, hne, -⟩ := hcase
  · exact ⟨hr, hp⟩
  · exact absurd ht hne

theorem Lone.allocate (h : p.Lone) (he : p.allocate = .ok (id, p')) : p'.Lone := by
  unfold BlockPool.allocate at he
  split at he
  · rename_i b bs slot slots hf hs
    split at he
    · cases he
    · cases he
      refine ⟨h.tiers, h.jobs, h.migrating, fun c => ?_⟩
      show (Function.update p.location id ⟨0, slot⟩ c).tier = 0
      by_cases hc : c = id
      · subst hc
        rw [Function.update_self]
      · rw [Function.update_of_ne hc]
        exact h.tier c
  · cases he
    exact h

theorem Lone.decref (h : p.Lone) {r : Bool} (he : p.decref id = .ok (r, p')) : p'.Lone := by
  obtain ⟨-, ⟨-, -, rfl⟩ | ⟨-, -, rfl⟩⟩ := decref_ok he
  · unfold releaseBlock
    rw [h.cancel id]
    exact ⟨h.tiers, h.jobs, h.migrating, h.tier⟩
  · exact ⟨h.tiers, h.jobs, h.migrating, h.tier⟩

/-- **Every call on a pool over one tier keeps it so.** -/
theorem Lone.closed : CallClosed fun p p' => p.Lone → p'.Lone where
  refl _ h := h
  trans h h' hp := h' (h hp)
  allocate he h := h.allocate he
  decref he h := h.decref he
  migrate he h := (h.migrate he).2 ▸ h
  migrateAsync he h := (h.migrateAsync he).2 ▸ h
  cancel _ id h := (h.cancel id).symm ▸ h
  drain _ h := h.drain.symm ▸ h
  worker he h := by
    rw [h.worker] at he
    cases he

theorem Lone.insert {key : List TokenId → UInt64} {t t' : RadixTree} {tokens : List TokenId}
    {blocks : List BlockId} {n : Nat} (h : p.Lone)
    (he : t.insert key p tokens blocks = .ok (n, t', p')) : p'.Lone := by
  obtain ⟨⟨t₁, w⟩, -, he⟩ := bind_ok he
  dsimp only at he
  split at he
  · cases he
    exact h
  split at he
  · cases he
    exact h
  obtain ⟨q, hq, he⟩ := bind_ok he
  cases he
  obtain ⟨-, hp, -⟩ := increfAll_ok hq
  rw [hp]
  exact ⟨h.tiers, h.jobs, h.migrating, h.tier⟩

end BlockPool

namespace CacheManager

variable {key : List TokenId → UInt64} {m m' : CacheManager} {tokens : List TokenId}
  {al al' : Allocation}

/-- Nothing has to be promoted. -/
theorem promoteAll_lone {async : Bool} : ∀ {ids : List BlockId} {p p' : BlockPool} {n : Nat},
    p.Lone → promoteAll async ids p = .ok (n, p') → n = 0
  | [], _, _, _, _, he => by
    cases he
    rfl
  | id :: ids, p, p', n, h, he => by
    obtain ⟨tier, ht, he⟩ := bind_ok he
    obtain ⟨loc, hloc, ht⟩ := bind_ok ht
    cases ht
    obtain ⟨-, -, rfl⟩ := locate_ok hloc
    rw [if_pos (.inl (h.tier id))] at he
    exact promoteAll_lone h he

theorem maintain_lone (h : m.pool.Lone) : m.maintain = .ok m := by
  unfold maintain
  rw [if_pos (.inl (by rw [h.tiers]; decide))]

theorem makeRoom_lone (h : m.pool.Lone) (n : Nat) : m.makeRoom n = .ok m := by
  unfold makeRoom
  rw [if_neg (by rw [h.tiers]; omega)]

theorem reclaim_moves {n : Nat} : ∀ {fuel : Nat} {m : CacheManager},
    reclaim key n fuel m = .ok m' → m'.stats.moves = m.stats.moves := by
  intro fuel
  induction fuel with
  | zero =>
    intro m h
    obtain rfl | ⟨k, t, p, -, rfl | ⟨rest, hf, -⟩⟩ := reclaim_cases h
    · rfl
    · rfl
    · cases hf
  | succ fuel ih =>
    intro m h
    obtain rfl | ⟨k, t, p, -, rfl | ⟨rest, hf, h⟩⟩ := reclaim_cases h
    · rfl
    · rfl
    · cases hf
      exact (ih h).trans rfl

theorem acquire_moves (h : m.pool.Lone) (he : m.acquire key tokens = .ok (al, m')) :
    m'.stats.moves = m.stats.moves := by
  obtain ⟨-, -, rfl⟩ | ⟨-, r, m₁, m₂, hr, h₁, h₂, hend⟩ := acquire_cases he
  · rfl
  have hlook : r.mgr.pool.Lone := Lone.closed.lookup hr h
  have hr : r.mgr.stats.moves = m.stats.moves := by
    obtain ⟨found, t, t', p, k, -, -, -, -, he⟩ := lookup_cases hr
    rw [he]
    rfl
  cases (makeRoom_lone hlook r.demand).symm.trans h₁
  have hpool : m₂.pool.Lone := Lone.closed.reclaim h₂ hlook
  have hm₂ := (reclaim_moves h₂).trans hr
  obtain ⟨-, hrf⟩ | ⟨-, hsv⟩ := hend
  · obtain ⟨t, -, -, rfl⟩ := refuse_cases hrf
    exact hm₂
  · obtain ⟨m₃, hst, hmt⟩ := serve_cases hsv
    obtain ⟨k, p, ids, q, hp, hq, -, rfl⟩ := stock_cases hst
    have hlone : q.Lone := Lone.closed.allocateAll hq (Lone.closed.promoteAll hp hpool)
    cases (maintain_lone hlone).symm.trans hmt
    rw [promoteAll_lone hpool hp]
    exact hm₂

theorem release_moves {ws : List (WorkerId × WorkerAct)} (h : m.pool.Lone)
    (he : m.release key tokens al ws = .ok (al', m')) : m'.stats.moves = m.stats.moves := by
  obtain ⟨-, -, rfl⟩ | ⟨-, m₁, hg, hmt⟩ := release_cases he
  · rfl
  obtain ⟨k, t, p, p', t', hi, hd, -, -, rfl⟩ := giveBack_cases hg
  have hlone : ((p'.work ws).drainMigrations).Lone :=
    Lone.closed.drain _ (Lone.closed.work _ ws (Lone.closed.dropRefs hd (h.insert hi)))
  cases (maintain_lone hlone).symm.trans hmt
  rfl

theorem destruct_moves (he : m.destruct al = .ok (al', m')) : m'.stats.moves = m.stats.moves := by
  obtain ⟨-, -, rfl⟩ | ⟨-, -, p, t, -, -, rfl⟩ := destruct_cases he
  · rfl
  · rfl

end CacheManager

namespace System

variable {key : List TokenId → UInt64} {s s' : System} {m₀ m' : CacheManager} {h : Handle}
  {spec : TierSpec} {cfg : CacheConfig} {options : Options}
  {mem : Arena.Mem TierIndex UInt8} {tr : List Op} {tokens : List TokenId} {al : Allocation}

/-- **A step of a program over one tier moves nothing.** -/
theorem lone_step (h : s.mgr.pool.Lone) {op : Op} (hs : Step key s op s') :
    s'.mgr.pool.Lone ∧ s'.mgr.stats.moves = s.mgr.stats.moves := by
  refine ⟨Lone.closed.step (fun _ _ _ => fun _ hi h => h.insert hi) hs h, ?_⟩
  obtain ⟨tokens, al, he⟩ | ⟨al, al', he⟩ | ⟨tokens, al, ws, al', he⟩ | ⟨pool, he⟩ := step_calls hs
  · exact acquire_moves h he
  · exact destruct_moves he
  · exact release_moves h he
  · rw [he]

theorem start_lone (h0 : CacheManager.create [spec] cfg options mem = .ok m₀) :
    m₀.pool.Lone ∧ m₀.stats.moves = 0 ∧ (m₀.pool.tiers 0).numBlocks = spec.numBlocks := by
  obtain ⟨hp, -⟩ := create_ok h0
  have hspec : [spec][0]? = some spec := rfl
  have ht := (initTier_ok (init_tier_at hp hspec)).1
  obtain ⟨-, states, hall, he⟩ := init_ok hp
  refine ⟨?_, ?_, ht⟩
  · rw [he]
    exact ⟨hall.length_eq.symm, rfl, rfl, fun _ => rfl⟩
  · unfold CacheManager.create at h0
    obtain ⟨p, -, h0⟩ := bind_ok h0
    obtain ⟨t, -, h0⟩ := bind_ok h0
    cases h0
    rfl

/-- **A manager over one tier.**  In every state a program reaches with it, whatever the options:
every block is in the tier and none is migrating, nothing was ever demoted or promoted, a wait
returns at once, every live handle is ready, and a request is served exactly when the blocks in use
and the fresh ones it needs fit the tier; these are the blocks of its tokens that are not matched, as
long as the sum of sizes that counts them does not wrap. -/
theorem single_tier_exact (h0 : CacheManager.create [spec] cfg options mem = .ok m₀)
    (hfit : spec.numBlocks < 2 ^ 32) (hrun : Run (Step key) (start m₀) tr s) :
    (∀ b, (s.mgr.pool.location b).tier = 0 ∧ s.mgr.pool.migrating b = false) ∧
    s.mgr.stats.moves = 0 ∧ s.mgr.pool.waitForMigrations = some s.mgr.pool ∧
    (∀ h ∈ s.live, s.mgr.ready h.alloc = .ok (true, s.mgr)) ∧
    ∀ tokens, tokens ≠ [] → ∃ al m', s.mgr.acquire key tokens = .ok (al, m') ∧
      (al.ok = true ↔ (s.inUse key tokens).length + s.freshNeed key tokens ≤ spec.numBlocks) ∧
      (tokens.length + cfg.blockTokens ≤ 2 ^ 64 → s.freshNeed key tokens =
        tokens.length ⌈/⌉ cfg.blockTokens - (s.matchedBlocks key tokens).length) := by
  have hfit : ([spec].map (·.numBlocks)).sum < 2 ^ 32 := by simpa using hfit
  have hi := reach h0 hfit hrun
  obtain ⟨hl, hm, hblocks⟩ := start_lone h0
  obtain ⟨hlone, hmoves⟩ := hrun.invariant
    (I := fun t => t.mgr.pool.Lone ∧ t.mgr.stats.moves = m₀.stats.moves)
    (fun _ _ _ hi hs => ⟨(lone_step hi.1 hs).1, (lone_step hi.1 hs).2.trans hi.2⟩) ⟨hl, rfl⟩
  refine ⟨fun b => ⟨hlone.tier b, ?_⟩, hmoves.trans hm, hlone.wait, fun h hh => ?_,
    fun tokens ht => ?_⟩
  · unfold migrating
    rw [hlone.migrating]
    rfl
  · obtain ⟨m', he⟩ := ready_of_tier hi hh fun b _ => hlone.tier b
    obtain rfl | rfl := ready_cases he
    · exact he
    · rwa [hlone.drain] at he
  · obtain ⟨al, m', he, -⟩ := acquire_spec (Good.books hi) (Good.settled hi) tokens
    have hq : s.Quiet := fun j hj => by
      rw [hlone.jobs] at hj
      cases hj
    have hiff := hi.served_iff hq ht he
    obtain ⟨hcfg, htier⟩ := run_shape (start_inv h0 hfit) hrun
    rw [htier] at hiff
    refine ⟨al, m', he, hiff.trans (by rw [← hblocks]; rfl), fun hw => ?_⟩
    have hcfg : s.mgr.cfg = cfg := hcfg.trans (create_ok h0).2.2.2
    rw [freshNeed_eq (hcfg ▸ hw), hcfg]

def singleConfig : CacheConfig := { twoTierConfig with numBlocks := 2 }

/-- A cached sequence is evicted for the one in flight. -/
def replacedTrace : List Op := [.acquire [1, 2, 3, 4], .release 0 [1, 2, 3, 4] [], .acquire [5, 6]]

theorem single_tier_exact_replaced : ∃ m₀ s al m',
    CacheManager.single (fun _ => true) singleConfig (fun _ _ => 0) = some (.ok m₀) ∧
    Run (Step blockKey) (start m₀) replacedTrace s ∧ s.mgr.stats.evictedBlocks = 2 ∧
    s.mgr.stats.moves = 0 ∧ s.mgr.acquire blockKey [7, 8] = .ok (al, m') ∧ al.ok = true := by
  have hs : ((CacheManager.single (fun _ => true) singleConfig fun _ _ => 0).bind fun built =>
      built.toOption.bind fun m₀ => (exec (step? blockKey) (start m₀) replacedTrace).map fun s =>
        (s.mgr.stats.evictedBlocks,
          (s.inUse blockKey [7, 8]).length + s.freshNeed blockKey [7, 8])) = some (2, 2) := by
    decide +kernel
  obtain ⟨built, hb, hm⟩ := Option.bind_eq_some_iff.mp hs
  obtain ⟨m₀, h0, hm⟩ := Option.bind_eq_some_iff.mp hm
  obtain ⟨s, hx, he⟩ := Option.map_eq_some_iff.mp hm
  obtain ⟨hev, hneed⟩ := Prod.mk.inj he
  rw [toOption_eq_some h0] at hb
  obtain ⟨tier, -, hc⟩ := single_cases hb
  obtain ⟨-, hmoves, -, -, hserved⟩ := single_tier_exact hc
    (show singleConfig.numBlocks < 2 ^ 32 by decide) (run_of_step? hx)
  obtain ⟨al, m', ha, hiff, -⟩ := hserved [7, 8] (by decide)
  refine ⟨m₀, s, al, m', hb, run_of_step? hx, hev, hmoves, ha, hiff.mpr ?_⟩
  rw [hneed]
  show 2 ≤ singleConfig.numBlocks
  decide

end System

end KvsLab
