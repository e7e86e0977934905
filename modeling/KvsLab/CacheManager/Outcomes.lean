import KvsLab.CacheManager
import KvsLab.Lib.Lockstep

/-!
# What a call that returned has done

One inversion per function of the manager, with the calls it made and what it put together from
their results.  Facts about counters, slots or the queue that need no invariant are read off these
and do not unfold the functions again.
-/

namespace KvsLab

open BlockPool Lockstep

namespace CacheManager

variable {key : List TokenId → UInt64} {m m' : CacheManager} {tokens : List TokenId}
  {al al' : Allocation} {n : Nat}

theorem maintain_cases (h : m.maintain = .ok m') :
    m' = m ∨ ∃ V k p, m.tree.pickDemotionVictims m.pool
        (m.options.spillWatermark - (m.pool.numFree + m.pool.pendingDepartures 0)) [] = .ok V ∧
      moveWhile (fun p id => p.migrateAsync id 1) V m.pool = .ok (k, p) ∧
      m' = { m with
        pool := p
        stats := { m.stats with backgroundDemotions := m.stats.backgroundDemotions + k } } := by
  unfold maintain at h
  split at h
  · cases h
    exact .inl rfl
  dsimp only at h
  split at h
  · cases h
    exact .inl rfl
  obtain ⟨V, hV, h⟩ := bind_ok h
  obtain ⟨⟨k, p⟩, hp, h⟩ := bind_ok h
  cases h
  exact .inr ⟨V, k, p, hV, hp, rfl⟩

theorem lookup_cases {r : Request} (h : m.lookup key tokens = .ok r) :
    ∃ found t t' p k, m.tree.matchPrefix key tokens = .ok (found, t) ∧
      pin t found.node = .ok t' ∧ cancelDemotions found.blocks m.pool.drainMigrations = .ok p ∧
      countPromotions p found.blocks = .ok k ∧
      r.mgr = { m with
        pool := p, tree := t', stats := { m.stats with requests := m.stats.requests + 1 } } := by
  obtain ⟨⟨found, t⟩, hf, h⟩ := bind_ok h
  obtain ⟨t', ht, h⟩ := bind_ok h
  obtain ⟨p, hp, h⟩ := bind_ok h
  obtain ⟨k, hk, h⟩ := bind_ok h
  cases h
  exact ⟨found, t, t', p, k, hf, ht, hp, hk, rfl⟩

theorem makeRoom_cases (h : m.makeRoom n = .ok m') :
    m' = m ∨ ∃ V k p, m.tree.pickDemotionVictims m.pool (n - m.pool.numFree) [] = .ok V ∧
      moveWhile (fun p id => p.migrate id 1) V m.pool = .ok (k, p) ∧
      m' = { m with
        pool := p, stats := { m.stats with demotedBlocks := m.stats.demotedBlocks + k } } := by
  unfold makeRoom at h
  split at h
  · obtain ⟨V, hV, h⟩ := bind_ok h
    obtain ⟨⟨k, p⟩, hp, h⟩ := bind_ok h
    cases h
    exact .inr ⟨V, k, p, hV, hp, rfl⟩
  · cases h
    exact .inl rfl

/-- One round of the eviction loop. -/
theorem reclaim_cases {fuel : Nat} (h : reclaim key n fuel m = .ok m') :
    m' = m ∨ ∃ k t p, m.tree.evict key m.pool (n - m.pool.numFree) = .ok (k, t, p) ∧
      (m' = { m with tree := t, pool := p } ∨ ∃ rest, fuel = rest + 1 ∧ reclaim key n rest { m with
        tree := t
        pool := p
        stats := { m.stats with evictedBlocks := m.stats.evictedBlocks + k } } = .ok m') := by
  unfold reclaim at h
  split at h
  · cases h
    exact .inl rfl
  split at h
  · cases h
  rename_i rest
  obtain ⟨⟨k, t, p⟩, he, h⟩ := bind_ok h
  dsimp only at h
  split at h
  · cases h
    exact .inr ⟨k, t, p, he, .inl rfl⟩
  · exact .inr ⟨k, t, p, he, .inr ⟨rest, rfl, h⟩⟩

theorem refuse_cases (h : m.refuse al = .ok (al', m')) :
    ∃ t, unpin m.tree al.pinned = .ok t ∧ al' = {} ∧ m' = { m with
      tree := t, stats := { m.stats with allocFailures := m.stats.allocFailures + 1 } } := by
  obtain ⟨t, ht, h⟩ := bind_ok h
  cases h
  exact ⟨t, ht, rfl, rfl⟩

/-- `serve` up to its `maintain`. -/
def stock (m : CacheManager) (alloc : Allocation) (fresh : Nat) (tokens : List TokenId) :
    Except Fault (Allocation × CacheManager) := do
  let (promoted, pool) ← promoteAll m.options.asyncPromotion alloc.blocks m.pool
  let (ids, pool) ← allocateAll fresh pool
  let stats := { m.stats with
    promotedBlocks := m.stats.promotedBlocks + promoted
    served := m.stats.served + 1
    totalTokens := m.stats.totalTokens + tokens.length
    hitTokens := m.stats.hitTokens + alloc.cachedTokens }
  return ({ alloc with ok := true, blocks := alloc.blocks ++ ids, owner := true },
    { m with pool, stats })

theorem serve_eq (m : CacheManager) (alloc : Allocation) (fresh : Nat) (tokens : List TokenId) :
    m.serve alloc fresh tokens = do
      let (alloc, m) ← m.stock alloc fresh tokens
      let m ← m.maintain
      return (alloc, m) := by
  unfold serve stock
  cases promoteAll m.options.asyncPromotion alloc.blocks m.pool with
  | error e => rfl
  | ok r =>
    show (allocateAll fresh r.2 >>= _) = (allocateAll fresh r.2 >>= _) >>= _
    cases allocateAll fresh r.2 with
    | error e => rfl
    | ok r' => rfl

theorem stock_cases {fresh : Nat} (h : m.stock al fresh tokens = .ok (al', m')) :
    ∃ k p ids q, promoteAll m.options.asyncPromotion al.blocks m.pool = .ok (k, p) ∧
      allocateAll fresh p = .ok (ids, q) ∧
      al' = { al with ok := true, blocks := al.blocks ++ ids, owner := true } ∧
      m' = { m with
        pool := q
        stats := { m.stats with
          promotedBlocks := m.stats.promotedBlocks + k
          served := m.stats.served + 1
          totalTokens := m.stats.totalTokens + tokens.length
          hitTokens := m.stats.hitTokens + al.cachedTokens } } := by
  obtain ⟨⟨k, p⟩, hp, h⟩ := bind_ok h
  obtain ⟨⟨ids, q⟩, hq, h⟩ := bind_ok h
  cases h
  exact ⟨k, p, ids, q, hp, hq, rfl, rfl⟩

theorem serve_cases {fresh : Nat} (h : m.serve al fresh tokens = .ok (al', m')) :
    ∃ m₁, m.stock al fresh tokens = .ok (al', m₁) ∧ m₁.maintain = .ok m' := by
  rw [serve_eq] at h
  obtain ⟨⟨al₁, m₁⟩, hs, h⟩ := bind_ok h
  obtain ⟨m₂, hm, h⟩ := bind_ok h
  cases h
  exact ⟨m₁, hs, hm⟩

theorem acquire_cases (h : m.acquire key tokens = .ok (al, m')) :
    (tokens = [] ∧ al = { ok := true } ∧ m' = { m with stats := { m.stats with
      requests := m.stats.requests + 1, served := m.stats.served + 1 } }) ∨
    tokens ≠ [] ∧ ∃ r m₁ m₂, m.lookup key tokens = .ok r ∧ r.mgr.makeRoom r.demand = .ok m₁ ∧
      reclaim key r.demand (m₁.tree.storedBlocks + 1) m₁ = .ok m₂ ∧
      ((m₂.pool.numFree < r.demand ∧ m₂.refuse r.alloc = .ok (al, m')) ∨
        (r.demand ≤ m₂.pool.numFree ∧ m₂.serve r.alloc r.fresh tokens = .ok (al, m'))) := by
  unfold acquire at h
  split at h
  · rename_i ht
    cases h
    exact .inl ⟨ht, rfl, rfl⟩
  rename_i ht
  obtain ⟨r, hr, h⟩ := bind_ok h
  obtain ⟨m₁, h₁, h⟩ := bind_ok h
  obtain ⟨m₂, h₂, h⟩ := bind_ok h
  refine .inr ⟨ht, r, m₁, m₂, hr, h₁, h₂, ?_⟩
  split at h
  · rename_i hf
    exact .inl ⟨hf, h⟩
  · rename_i hf
    exact .inr ⟨Nat.le_of_not_lt hf, h⟩

theorem giveBack_cases (h : m.giveBack key tokens al = .ok (al', m')) :
    ∃ k t p p' t', m.tree.insert key m.pool tokens al.blocks = .ok (k, t, p) ∧
      dropRefs al.freshBlocks p = .ok p' ∧ unpin t al.pinned = .ok t' ∧ al' = al.disarm ∧
      m' = { m with pool := p', tree := t' } := by
  obtain ⟨⟨k, t, p⟩, hi, h⟩ := bind_ok h
  obtain ⟨p', hp, h⟩ := bind_ok h
  obtain ⟨t', ht, h⟩ := bind_ok h
  cases h
  exact ⟨k, t, p, p', t', hi, hp, ht, rfl, rfl⟩

theorem release_cases {ws : List (WorkerId × WorkerAct)}
    (h : m.release key tokens al ws = .ok (al', m')) :
    (al.ok = false ∧ al' = al ∧ m' = m) ∨
    al.ok = true ∧ ∃ m₁, m.giveBack key tokens al = .ok (al', m₁) ∧
      maintain { m₁ with pool := (m₁.pool.work ws).drainMigrations } = .ok m' := by
  unfold release at h
  split at h
  · rename_i hok
    cases h
    exact .inl ⟨by simpa using hok, rfl, rfl⟩
  · rename_i hok
    obtain ⟨⟨al₁, m₁⟩, hg, h⟩ := bind_ok h
    obtain ⟨m₂, hm, h⟩ := bind_ok h
    cases h
    exact .inr ⟨by simpa using hok, m₁, hg, hm⟩

/-- What a destructor does to the handle. -/
theorem destruct_cases (h : m.destruct al = .ok (al', m')) :
    ((al.ok && al.owner) = false ∧ al' = al ∧ m' = m) ∨
    ((al.ok && al.owner) = true ∧ al' = al.disarm ∧ ∃ p' t',
      dropRefs al.freshBlocks m.pool = .ok p' ∧ unpin m.tree al.pinned = .ok t' ∧
      m' = { m with
        pool := p', tree := t', stats := { m.stats with abandoned := m.stats.abandoned + 1 } }) := by
  unfold destruct at h
  split at h
  · rename_i ho
    obtain ⟨p', hp, h⟩ := bind_ok h
    obtain ⟨t', ht, h⟩ := bind_ok h
    cases h
    exact .inr ⟨ho, rfl, p', t', hp, ht, rfl⟩
  · rename_i ho
    cases h
    exact .inl ⟨Bool.eq_false_of_not_eq_true ho, rfl, rfl⟩

theorem ready_cases {b : Bool} (h : m.ready al = .ok (b, m')) :
    m' = m ∨ m' = { m with pool := m.pool.drainMigrations } := by
  unfold ready at h
  split at h
  · cases h
    exact .inl rfl
  · obtain ⟨b', -, h⟩ := bind_ok h
    cases h
    exact .inr rfl

end CacheManager

end KvsLab
