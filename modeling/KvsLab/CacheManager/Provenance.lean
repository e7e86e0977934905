import KvsLab.CacheManager.Ownership

/-!
# Where a served block comes from

* `Publishes` — a release adds its entry `i` to the index, for the tokens up to and including
  block `i`.
* `Origin` — an entry of the index goes back to a release earlier in the run, and its block has
  not been freed since.
* `run_origin` — every entry of every reachable index has an origin; a step keeps the origins of
  the entries that stay, and a release is the origin of those it adds.
* `serves_own_sequence` — so `acquire` never serves another sequence's blocks.
-/

namespace KvsLab

open RadixTree BlockPool CacheManager Transition

namespace System

variable {key : List TokenId → UInt64} {s s' s₀ : System} {m₀ : CacheManager} {h : Handle}
  {specs : List TierSpec} {cfg : CacheConfig} {options : Options}
  {mem : Arena.Mem TierIndex UInt8} {tr : List Op}

/-- Releasing handle `h` with `tokens` in state `s` publishes block `id` as entry `i` of its
table: `insert` adds an entry for the first `i + 1` blocks of the tokens, where there was none. -/
def Publishes (key : List TokenId → UInt64) (s : System) (h : Handle) (tokens : List TokenId)
    (i : Nat) (id : BlockId) : Prop :=
  h.alloc.ok = true ∧ h.alloc.blocks[i]? = some id ∧
    (i + 1) * s.mgr.tree.blockTokens ≤ tokens.length ∧
    ∃ n t p, s.mgr.tree.insert key s.mgr.pool tokens h.alloc.blocks = .ok (n, t, p) ∧
      (∃ e ∈ entries s.mgr.tree.blockTokens t.places,
        e.path = tokens.take ((i + 1) * s.mgr.tree.blockTokens) ∧ e.block = id) ∧
      ∀ e ∈ entries s.mgr.tree.blockTokens s.mgr.tree.places,
        e.path ≠ tokens.take ((i + 1) * s.mgr.tree.blockTokens)

/-- The run `tr` from `s₀` to `s` passes a release that published `id` as entry `i` for the token
path `path`, and `freed`, a log of the ids freed so far, lists `id` nowhere after that release
began. -/
def Origin (key : List TokenId → UInt64) (s₀ : System) (tr : List Op) (s : System)
    (freed : List BlockId) (path : List TokenId) (i : Nat) (id : BlockId) : Prop :=
  ∃ tr₁ tr₂ j tokens ws s₁ s₂ h F, tr = tr₁ ++ .release j tokens ws :: tr₂ ∧
    Run (Step key) s₀ tr₁ s₁ ∧ Step key s₁ (.release j tokens ws) s₂ ∧ Run (Step key) s₂ tr₂ s ∧
    s₁.vars[j]? = some h ∧ Publishes key s₁ h tokens i id ∧
    tokens.take ((i + 1) * s.mgr.cfg.blockTokens) = path ∧
    path.length = (i + 1) * s.mgr.cfg.blockTokens ∧
    freed = s₁.mgr.pool.freed ++ F ∧ id ∉ F

theorem evolves_cfg {op : Op} (hev : Evolves key s op s') : s'.mgr.cfg = s.mgr.cfg := by
  obtain ⟨_, _, _, _, _, hc, _⟩ := hev.handles
  exact hc.cfg

/-- More ids freed. -/
theorem Origin.freed {freed G : List BlockId} {path : List TokenId} {i : Nat} {id : BlockId}
    (ho : Origin key s₀ tr s freed path i id) (hG : id ∉ G) :
    Origin key s₀ tr s (freed ++ G) path i id := by
  obtain ⟨tr₁, tr₂, j, tokens, ws, s₁, s₂, h, F, h1, h2, h3, h4, h5, h6, h7, h8, h9, h10⟩ := ho
  refine ⟨tr₁, tr₂, j, tokens, ws, s₁, s₂, h, F ++ G, h1, h2, h3, h4, h5, h6, h7, h8, ?_, ?_⟩
  · rw [h9, List.append_assoc]
  · rw [List.mem_append, not_or]
    exact ⟨h10, hG⟩

/-- One more step. -/
theorem Origin.snoc {freed : List BlockId} {path : List TokenId} {i : Nat} {id : BlockId} {op : Op}
    (ho : Origin key s₀ tr s freed path i id) (hs : Step key s op s')
    (hc : s'.mgr.cfg = s.mgr.cfg) : Origin key s₀ (tr ++ [op]) s' freed path i id := by
  obtain ⟨tr₁, tr₂, j, tokens, ws, s₁, s₂, h, F, h1, h2, h3, h4, h5, h6, h7, h8, h9⟩ := ho
  refine ⟨tr₁, tr₂ ++ [op], j, tokens, ws, s₁, s₂, h, F, ?_, h2, h3, h4.snoc hs, h5, h6, ?_, ?_, h9⟩
  · rw [h1, List.append_assoc]
    rfl
  · rw [hc]
    exact h7
  · rw [hc]
    exact h8

/-- The release that just happened. -/
theorem origin_new {j i : Nat} {tokens : List TokenId} {ws : List (WorkerId × WorkerAct)}
    {F : List BlockId} {id : BlockId} (hr : Run (Step key) s₀ tr s)
    (hs : Step key s (.release j tokens ws) s') (hget : s.vars[j]? = some h)
    (hp : Publishes key s h tokens i id) (hbt : s.mgr.tree.blockTokens = s'.mgr.cfg.blockTokens)
    (hF : s'.mgr.pool.freed = s.mgr.pool.freed ++ F) (hn : id ∉ F) :
    Origin key s₀ (tr ++ [.release j tokens ws]) s' s'.mgr.pool.freed
      (tokens.take ((i + 1) * s.mgr.tree.blockTokens)) i id := by
  refine ⟨tr, [], j, tokens, ws, s, s', h, F, rfl, hr, hs, .nil, hget, hp, by rw [hbt], ?_, hF, hn⟩
  rw [List.length_take, Nat.min_eq_left hp.2.2.1, hbt]

/-- **Every entry of a reachable index has an origin.** -/
theorem run_origin (hi : s₀.Inv key) (h0 : s₀.mgr.tree.places = []) (hr : Run (Step key) s₀ tr s) :
    ∀ e ∈ entries s.mgr.tree.blockTokens s.mgr.tree.places,
      ∃ i, Origin key s₀ tr s s.mgr.pool.freed e.path i e.block := by
  induction hr with
  | nil =>
    intro e he
    rw [h0] at he
    cases he
  | @snoc tr op s s' hr hs ih =>
    intro e he
    have his := hi.run hr
    obtain ⟨hi', hev⟩ := his.step hs
    have hcfg := evolves_cfg hev
    have hblock : e.block ∈ blocksOf s'.mgr.tree.places := by
      rw [← map_block_entries s'.mgr.tree.blockTokens]
      exact List.mem_map_of_mem he
    rcases hev.index with hret | ⟨j, tokens, ws, h, cl, rfl, hget, hok, hgb⟩
    · -- the entry was there before
      obtain ⟨G, hG, hn⟩ := hret.freed
      rw [hret.blockTokens] at he
      obtain ⟨e₀, he₀, hp, hb⟩ := hret.entries e he
      obtain ⟨i, ho⟩ := ih e₀ he₀
      rw [hp, hb] at ho
      refine ⟨i, ?_⟩
      rw [hG]
      exact (ho.freed fun hm => hn _ hm hblock).snoc hs hcfg
    · obtain ⟨G, hG, hn⟩ := hgb.freed
      obtain ⟨n, t, p, hins, hkeep, hnew⟩ := hgb.published
      rw [hgb.blockTokens] at he
      obtain ⟨e₁, he₁, hp, hb⟩ := hkeep e he
      have hnot : e.block ∉ G := fun hm => hn _ hm hblock
      have hbt : s.mgr.tree.blockTokens = s'.mgr.cfg.blockTokens := by
        rw [hcfg]
        exact Good.bt his
      rcases hnew e₁ he₁ with hold | ⟨hfresh, k, hk, hpath, hle⟩
      · obtain ⟨i, ho⟩ := ih e₁ hold
        rw [hp, hb] at ho
        refine ⟨i, ?_⟩
        rw [hG]
        exact (ho.freed hnot).snoc hs hcfg
      · -- the release added it
        have htab : h.claim.table = h.alloc.blocks := Allocation.claim_table _ _
        rw [htab] at hk hins
        refine ⟨k, ?_⟩
        rw [← hp, ← hb, hpath]
        refine origin_new hr hs hget ⟨hok, hk, hle, n, t, p, hins, ⟨e₁, he₁, hpath, rfl⟩, ?_⟩ hbt hG
          (hb ▸ hnot)
        exact fun e₀ he₀ heq => hfresh e₀ he₀ (heq.trans hpath.symm)

/-- **Never serve another sequence's KV.**  Whenever `acquire(tokens)` returns a table in a state a
program reaches, its first `cached_blocks` entries cover whole blocks of the tokens, and each of
them is a block that an earlier release published as the same entry of its own table, for a
sequence that agrees with `tokens` up to the end of that block; the block was not freed at any
time since. -/
theorem serves_own_sequence (h0 : CacheManager.create specs cfg options mem = .ok m₀)
    (hfit : (specs.map (·.numBlocks)).sum < 2 ^ 32) (hrun : Run (Step key) (start m₀) tr s)
    (tokens : List TokenId) (a : Allocation) (m' : CacheManager)
    (hacq : s.mgr.acquire key tokens = .ok (a, m')) (hok : a.ok = true) :
    a.cachedTokens = a.cachedBlocks * cfg.blockTokens ∧ a.cachedTokens ≤ tokens.length ∧
    a.cachedBlocks ≤ a.blocks.length ∧
    ∀ i id, i < a.cachedBlocks → a.blocks[i]? = some id →
      ∃ tr₁ tr₂ j tokens' ws s₁ s₂ h F, tr = tr₁ ++ .release j tokens' ws :: tr₂ ∧
        Run (Step key) (start m₀) tr₁ s₁ ∧ Step key s₁ (.release j tokens' ws) s₂ ∧
        Run (Step key) s₂ tr₂ s ∧ s₁.vars[j]? = some h ∧ Publishes key s₁ h tokens' i id ∧
        tokens'.take ((i + 1) * cfg.blockTokens) = tokens.take ((i + 1) * cfg.blockTokens) ∧
        m'.pool.freed = s₁.mgr.pool.freed ++ F ∧ id ∉ F := by
  have hst : (start m₀).Inv key := start_inv h0 hfit
  have hi := hst.run hrun
  obtain ⟨_, _, ht, hc⟩ := create_ok h0
  have hcfg : s.mgr.cfg = cfg := by
    rw [← hc]
    exact (hrun.invariant (I := fun s => s.Inv key ∧ s.mgr.cfg = m₀.cfg) (fun _ _ _ hx hs =>
      ⟨(hx.1.step hs).1, (evolves_cfg (hx.1.step hs).2).trans hx.2⟩) ⟨hst, rfl⟩).2
  have hbt : s.mgr.tree.blockTokens = cfg.blockTokens := by
    rw [← hcfg]
    exact Good.bt hi
  obtain ⟨a', m'', he, hcase⟩ := acquire_spec (Good.books hi) (Good.settled hi) tokens
  rw [hacq] at he
  cases he
  rcases hcase with hv | hr
  swap
  · rw [hr.alloc] at hok
    cases hok
  refine ⟨hbt ▸ hv.cachedTokens, hv.le_tokens, hv.le_blocks, fun i id hi' hget => ?_⟩
  obtain ⟨e, hem, hpath, rfl⟩ := hv.found i id hi' hget
  have hplaces : (start m₀).mgr.tree.places = [] := by
    show m₀.tree.places = []
    rw [ht]
    rfl
  obtain ⟨k, ho⟩ := run_origin hst hplaces hrun e hem
  -- the block is cached for the new handle too, so the call did not free it
  obtain ⟨G, hG, hn⟩ := hv.retains.freed
  have hcached : e.block ∈ (a.claim tokens).cached := by
    have hget' : (a.blocks.take a.cachedBlocks)[i]? = some e.block := by
      rw [List.getElem?_take_of_lt hi']
      exact hget
    exact List.mem_of_getElem? hget'
  have hnot : e.block ∉ G := fun hm =>
    hn _ hm (hv.books.cached_tree List.mem_cons_self hcached)
  obtain ⟨tr₁, tr₂, j, tokens', ws, s₁, s₂, h, F, h1, h2, h3, h4, h5, h6, h7, h8, h9, h10⟩ :=
    ho.freed hnot
  rw [hcfg] at h7 h8
  rw [hpath, hbt] at h7 h8
  have hle : (i + 1) * cfg.blockTokens ≤ tokens.length := by
    have h1 : (i + 1) * cfg.blockTokens ≤ a.cachedBlocks * cfg.blockTokens :=
      Nat.mul_le_mul_right _ hi'
    have h2 := hv.cachedTokens
    have h3 := hv.le_tokens
    rw [hbt] at h2
    omega
  have hk : i = k := by
    rw [List.length_take, Nat.min_eq_left hle] at h8
    have := Nat.eq_of_mul_eq_mul_right (hbt ▸ (Good.books hi).wf.bt_pos) h8
    omega
  subst hk
  exact ⟨tr₁, tr₂, j, tokens', ws, s₁, s₂, h, F, h1, h2, h3, h4, h5, h6, h7, hG.trans h9, h10⟩

/-- One sequence is published, another one dropped. -/
def publishTrace : List Op :=
  [.acquire [1, 2, 3, 4], .acquire [9, 9], .release 0 [1, 2, 3, 4] [], .destroy 1]

theorem serves_own_sequence_extension : ∃ m₀ s a m',
    CacheManager.create twoTierSpecs twoTierConfig {} (fun _ _ => 0) = .ok m₀ ∧
    Run (Step blockKey) (start m₀) publishTrace s ∧
    s.mgr.acquire blockKey [1, 2, 3, 4, 5] = .ok (a, m') ∧ a.blocks[1]? = some 1 ∧
    ∃ tr₁ tr₂ j tokens' ws, publishTrace = tr₁ ++ .release j tokens' ws :: tr₂ ∧
      tokens'.take 4 = [1, 2, 3, 4] := by
  have hs : ((CacheManager.create twoTierSpecs twoTierConfig {} (fun _ _ => 0)).toOption.bind
      fun m₀ => (exec (step? blockKey) (start m₀) publishTrace).bind fun s =>
        (s.mgr.acquire blockKey [1, 2, 3, 4, 5]).toOption.map fun r =>
          (r.1.ok, r.1.cachedBlocks, r.1.blocks[1]?)) = some (true, 2, some 1) := by
    decide +kernel
  obtain ⟨m₀, h0, hm⟩ := Option.bind_eq_some_iff.mp hs
  obtain ⟨s, hx, hr⟩ := Option.bind_eq_some_iff.mp hm
  obtain ⟨⟨a, m'⟩, ha, he⟩ := Option.map_eq_some_iff.mp hr
  simp only [Prod.mk.injEq] at he
  have hc := toOption_eq_some h0
  have hrun := run_of_step? hx
  have hacq := toOption_eq_some ha
  obtain ⟨tr₁, tr₂, j, tokens', ws, _, _, _, _, htr, _, _, _, _, _, htok, _⟩ :=
    (serves_own_sequence hc (by decide) hrun [1, 2, 3, 4, 5] a m' hacq he.1).2.2.2 1 1 (by omega) he.2.2
  exact ⟨m₀, s, a, m', hc, hrun, hacq, he.2.2, tr₁, tr₂, j, tokens', ws, htr, htok⟩

end System

end KvsLab
