import KvsLab.BlockKey
import KvsLab.CacheManager.Freed
import KvsLab.RadixTree.Prefixes

/-!
# The manager is a prefix store

* `System.prefixes` — what is left of a system when blocks, tiers, pins and access times are
  forgotten: the cached prefixes, the live handles, and the two counters that tell of losses.
* `Shows` — the event of the store a step of the system shows as.
* `refines_prefix_store` — **every run shows as a run of the prefix store.**
* `no_collisions` — with one token in a block nothing released is turned away.
* `hit_again` — so a released sequence is found again until one of the counters moves.
* `live_prefix_hit` — and what a live handle was told is cached stays so while it lives.
-/

namespace KvsLab

open RadixTree BlockPool CacheManager Transition PrefixStore Lockstep

/-! ## The claims hold their prefixes -/

theorem Books.runs_paths {key : List TokenId → UInt64} {cl : List Claim} {c : Claim} {t : RadixTree}
    {p : BlockPool} (h : Books key cl t p) (hc : c ∈ cl) :
    runs t.blockTokens c.cached.length c.tokens ⊆ t.paths := by
  rcases h.pins c hc with ⟨-, -, h0⟩ | ⟨i, -, -, hcov⟩
  · rw [h0]
    simp [runs]
  · exact hcov.paths h.wf

namespace CacheManager

variable {key : List TokenId → UInt64} {cl : List Claim} {m m' : CacheManager}
  {tokens : List TokenId} {a a' : Allocation}

theorem unpin_collisions {t t' : RadixTree} {i : Option NodeId} (h : unpin t i = .ok t') :
    t'.collisions = t.collisions := by
  cases i with
  | none =>
    cases h
    rfl
  | some i => exact climb_collisions h

theorem pin_collisions {t t' : RadixTree} {i : Option NodeId} (h : pin t i = .ok t') :
    t'.collisions = t.collisions := by
  cases i with
  | none =>
    cases h
    rfl
  | some i => exact climb_collisions h

theorem reclaim_collisions {demand : Nat} : ∀ {fuel : Nat} {m : CacheManager},
    reclaim key demand fuel m = .ok m' → m'.tree.collisions = m.tree.collisions := by
  intro fuel
  induction fuel with
  | zero =>
    intro m h
    obtain rfl | ⟨k, t, p, he, rfl | ⟨rest, hf, -⟩⟩ := reclaim_cases h
    · rfl
    · exact evict_collisions he
    · cases hf
  | succ fuel ih =>
    intro m h
    obtain rfl | ⟨k, t, p, he, rfl | ⟨rest, hf, h⟩⟩ := reclaim_cases h
    · rfl
    · exact evict_collisions he
    · cases hf
      exact (ih h).trans (evict_collisions he)

/-! ## Acquiring -/

/-- What `acquire` answers and forgets. -/
structure Answers (m : CacheManager) (tokens : List TokenId) (hit : Nat) (m' : CacheManager) :
    Prop where
  longest : PrefixStore.Longest m.tree.paths tokens hit
  held : ∃ k, hit = k * m.tree.blockTokens ∧ runs m.tree.blockTokens k tokens ⊆ m'.tree.paths
  subset : m'.tree.paths ⊆ m.tree.paths
  evicted : m'.stats.evictedBlocks =
    m.stats.evictedBlocks + (m.tree.paths \ m'.tree.paths).card
  collisions : m'.tree.collisions = m.tree.collisions

theorem LookedUp.longest_paths {r : Request} (h : LookedUp key cl m tokens r) :
    PrefixStore.Longest m.tree.paths tokens r.alloc.cachedTokens := by
  refine ⟨h.le, fun hne => ?_, fun path hp hpre => ?_⟩
  · have hpos : 0 < r.alloc.blocks.length := by
      apply Nat.pos_of_ne_zero
      intro h0
      rw [h.cachedTokens, h0, Nat.zero_mul] at hne
      exact hne rfl
    obtain ⟨l, he⟩ := h.found (r.alloc.blocks.length - 1) _
      (List.getElem?_eq_getElem (by omega))
    rw [Nat.sub_add_cancel hpos, ← h.cachedTokens] at he
    exact mem_paths.mpr ⟨_, he, rfl⟩
  · obtain ⟨e, he, rfl⟩ := mem_paths.mp hp
    exact h.longest e he hpre

theorem LookedUp.paths {r : Request} (h : LookedUp key cl m tokens r) :
    r.mgr.tree.paths = m.tree.paths := by
  obtain ⟨t₁, hr, hl⟩ := h.tree
  rw [hl.paths, hr.paths]

/-- What a request has forgotten and counted when its eviction loop is over. -/
theorem Attempt.answers (x : Attempt key cl m tokens) :
    Answers m tokens x.request.alloc.cachedTokens x.evicted := by
  have hpaths : x.demoted.tree.paths = m.tree.paths := by
    rw [x.room.tree, x.looked.paths]
  have hb := x.demoted_books
  obtain ⟨hsub, hcard⟩ := x.reclaimed.pruned.paths hb.wf hb.sole.nodup
  have hbt : x.evicted.tree.blockTokens = m.tree.blockTokens := x.retains.blockTokens
  refine ⟨x.looked.longest_paths, ⟨x.request.alloc.blocks.length, x.looked.cachedTokens, ?_⟩,
    hpaths ▸ hsub, ?_, ?_⟩
  · have hr := x.books.runs_paths List.mem_cons_self
    rw [hbt] at hr
    have hclaim : (x.request.claim tokens).tokens =
        tokens.take (x.request.alloc.blocks.length * m.tree.blockTokens) := by
      rw [← x.looked.cachedTokens]
      rfl
    rwa [hclaim, show (x.request.claim tokens).cached = x.request.alloc.blocks from rfl,
      runs_take] at hr
  · rw [x.reclaimed.evicted, x.room.evicted, x.looked.evicted, ← hpaths, hcard]
  · rw [reclaim_collisions x.reclaim_eq, x.room.tree]
    obtain ⟨found, t, t', p, k, hf, ht, -, -, hr⟩ := lookup_cases x.lookup_eq
    rw [hr]
    exact (pin_collisions ht).trans (matchPrefix_collisions hf)

theorem Answers.of_tree {m₁ : CacheManager} {hit : Nat} (h : Answers m tokens hit m₁)
    (hp : m'.tree.paths = m₁.tree.paths) (hc : m'.tree.collisions = m₁.tree.collisions)
    (he : m'.stats.evictedBlocks = m₁.stats.evictedBlocks) : Answers m tokens hit m' := by
  refine ⟨h.longest, ?_, ?_, ?_, hc.trans h.collisions⟩
  · rw [hp]
    exact h.held
  · rw [hp]
    exact h.subset
  · rw [hp, he]
    exact h.evicted

/-- **`acquire` answers with the longest cached prefix and forgets what it evicts.** -/
theorem acquire_answers (h : Books key cl m.tree m.pool)
    (he : m.acquire key tokens = .ok (a, m')) :
    ∃ hit, Answers m tokens hit m' ∧ (a.ok = true → a.cachedTokens = hit) := by
  obtain ⟨rfl, rfl, rfl⟩ | ⟨ht, -⟩ := acquire_cases he
  · refine ⟨0, ⟨⟨Nat.zero_le _, by simp, fun p _ hp => ?_⟩, ⟨0, by simp, by simp [runs]⟩,
      Finset.Subset.refl _, by simp, rfl⟩, fun _ => rfl⟩
    rw [List.prefix_nil.mp hp]
    exact Nat.le_refl _
  obtain ⟨x⟩ := attempt h tokens
  have hx := x.answers
  rw [x.acquire_eq ht] at he
  split at he
  · obtain ⟨t, hun, rfl, rfl⟩ := refuse_cases he
    obtain ⟨t', hun', hrel, -⟩ := x.books.unpin rfl
    cases hun.symm.trans (show unpin x.evicted.tree x.request.alloc.pinned = .ok t' from hun')
    exact ⟨_, hx.of_tree hrel.paths (unpin_collisions hun) rfl,
      fun hno => by cases hno⟩
  · obtain ⟨m₁, hst, hmt⟩ := serve_cases he
    obtain ⟨k, p, ids, q, -, -, rfl, rfl⟩ := stock_cases hst
    have htree := maintain_tree hmt
    exact ⟨_, hx.of_tree (congrArg RadixTree.paths htree) (congrArg RadixTree.collisions htree)
      ((maintain_evicted hmt).trans rfl), fun _ => rfl⟩

/-! ## Ending a handle -/

/-- **`release` offers the words of its tokens that the table covers.** -/
theorem release_offers {tokens₀ : List TokenId} {ws : List (WorkerId × WorkerAct)}
    (h : Books key (a.claim tokens₀ :: cl) m.tree m.pool) (hok : a.ok = true)
    (hag : tokens.take (a.claim tokens₀).tokens.length <+: (a.claim tokens₀).tokens)
    (he : m.release key tokens a ws = .ok (a', m')) {n k : Nat} (hn : n = m.tree.blockTokens)
    (hk : k = min (tokens.length / n) a.blocks.length) :
    m'.stats.evictedBlocks = m.stats.evictedBlocks ∧
    ((m'.tree.collisions = m.tree.collisions ∧ m'.tree.paths = m.tree.paths ∪ runs n k tokens ∧
      ¬ Collides key n m.tree.paths (runs n k tokens)) ∨
    (m'.tree.collisions = m.tree.collisions + 1 ∧ m'.tree.paths = m.tree.paths ∧
      Collides key n m.tree.paths (runs n k tokens))) := by
  obtain ⟨-, ⟨hno, -⟩ | ⟨-, -, n', t, p, p', t', hins, -, hun, hmt⟩⟩ := release_handle he
  · rw [hok] at hno
    cases hno
  refine ⟨(maintain_evicted hmt).trans rfl, ?_⟩
  obtain ⟨t₁, p₁, hpub, hb₁⟩ := h.publish hag
  obtain ⟨n₁, q, hins₁, -⟩ := hpub.inserted
  rw [Allocation.claim_table] at hins₁
  cases hins.symm.trans hins₁
  obtain ⟨t₂, hun₂, hrel, -⟩ := hb₁.unpin rfl
  cases hun.symm.trans (show unpin t a.pinned = .ok t₂ from hun₂)
  have htree : m'.tree = t' := maintain_tree hmt
  subst hn
  rw [htree, hrel.paths, unpin_collisions hun]
  exact h.wf.insert_offers hins hb₁.wf hk

/-- A handle that is dropped leaves the cached prefixes as they are. -/
theorem destruct_paths {tokens₀ : List TokenId}
    (h : Books key (a.claim tokens₀ :: cl) m.tree m.pool) (he : m.destruct a = .ok (a', m')) :
    m'.tree.paths = m.tree.paths ∧ m'.tree.collisions = m.tree.collisions ∧
      m'.stats.evictedBlocks = m.stats.evictedBlocks := by
  obtain ⟨-, -, rfl⟩ | ⟨-, -, p', t', -, hun, rfl⟩ := destruct_cases he
  · exact ⟨rfl, rfl, rfl⟩
  obtain ⟨p₁, -, -, hb₁⟩ := h.drop
  obtain ⟨t₁, hun', hrel, -⟩ := hb₁.unpin rfl
  cases hun.symm.trans (show unpin m.tree a.pinned = .ok t₁ from hun')
  exact ⟨hrel.paths, unpin_collisions hun, rfl⟩

end CacheManager

/-! ## The store of a system -/

/-- A live handle as a session. -/
def Handle.session (h : Handle) : Session TokenId :=
  { id := h.serial, tokens := h.tokens, hit := h.alloc.cachedTokens }

namespace System

/-- What a system caches and for whom. -/
def prefixes (s : System) : Store TokenId :=
  { paths := s.mgr.tree.paths
    sessions := { x | ∃ h ∈ s.live, h.session = x }
    evicted := s.mgr.stats.evictedBlocks
    collisions := s.mgr.tree.collisions }

/-- How a step shows. -/
inductive Shows : Op → Event TokenId → Prop where
  | serve (x : Session TokenId) : Shows (.acquire x.tokens) (.serve x)
  | refuse (x : Session TokenId) : Shows (.acquire x.tokens) (.refuse x)
  | publish (i : Nat) (x : Session TokenId) (tokens : List TokenId)
      (ws : List (WorkerId × WorkerAct)) : Shows (.release i tokens ws) (.publish x tokens)
  | collide (i : Nat) (x : Session TokenId) (tokens : List TokenId)
      (ws : List (WorkerId × WorkerAct)) : Shows (.release i tokens ws) (.collide x tokens)
  | empty (i : Nat) (tokens : List TokenId) (ws : List (WorkerId × WorkerAct)) :
      Shows (.release i tokens ws) .idle
  | destroy (i : Nat) (x : Session TokenId) : Shows (.destroy i) (.drop x)
  | destroyed (i : Nat) : Shows (.destroy i) .idle
  | assign (i j : Nat) (x : Session TokenId) : Shows (.moveAssign i j) (.drop x)
  | assigned (i j : Nat) : Shows (.moveAssign i j) .idle
  | construct : Shows .construct .idle
  | move (i : Nat) : Shows (.moveConstruct i) .idle
  | ready (i : Nat) : Shows (.ready i) .idle
  | wait : Shows .wait .idle
  | worker (w : WorkerId) (act : WorkerAct) : Shows (.worker w act) .idle

variable {key : List TokenId → UInt64} {s s' s₁ s₂ : System} {m₀ m' : CacheManager} {h : Handle}
  {K : List Handle} {specs : List TierSpec} {cfg : CacheConfig} {options : Options}
  {mem : Arena.Mem TierIndex UInt8} {tr tr' : List Op} {tokens tokens' : List TokenId}

/-- What a live handle was told is cached. -/
theorem Inv.session_held (hi : s.Inv key) (hh : h ∈ s.live) :
    PrefixStore.Held s.mgr.cfg.blockTokens s.mgr.tree.paths h.session := by
  have hok := hi.handles h hh
  have hr := hi.books.runs_paths (List.mem_map_of_mem (f := Handle.claim) hh)
  rw [hi.bt] at hr
  have hlen : h.claim.cached.length = h.alloc.cachedBlocks := by
    show (h.alloc.blocks.take h.alloc.cachedBlocks).length = _
    rw [List.length_take, Nat.min_eq_left hok.le_blocks]
  have htok : h.claim.tokens = h.tokens.take (h.alloc.cachedBlocks * s.mgr.cfg.blockTokens) := by
    rw [← hok.cachedTokens]
    rfl
  rw [hlen, htok, runs_take] at hr
  exact ⟨h.alloc.cachedBlocks, hok.cachedTokens, hok.le_tokens, hr⟩

theorem sessions_perm (hl : s'.live.Perm s.live) : s'.prefixes.sessions = s.prefixes.sessions := by
  ext x
  simp [prefixes, hl.mem_iff]

theorem mem_sessions (hh : h ∈ s.live) : h.session ∈ s.prefixes.sessions := ⟨h, hh, rfl⟩

/-- Without the handle `h`. -/
theorem Inv.sessions_gone (hi : s.Inv key) (hl : s.live.Perm (h :: K)) (hl' : s'.live.Perm K) :
    s'.prefixes.sessions = s.prefixes.sessions \ {h.session} := by
  have hn := (hl.map Handle.serial).nodup_iff.mp hi.serials
  rw [List.map_cons, List.nodup_cons] at hn
  ext x
  simp only [prefixes, Set.mem_ofPred_eq, Set.mem_sdiff, Set.mem_singleton_iff, hl.mem_iff,
    hl'.mem_iff, List.mem_cons]
  constructor
  · rintro ⟨h', hh', rfl⟩
    refine ⟨⟨h', .inr hh', rfl⟩, fun e => hn.1 ?_⟩
    have hser : h'.serial = h.serial := congrArg Session.id e
    exact hser ▸ List.mem_map_of_mem hh'
  · rintro ⟨⟨h', rfl | hh', rfl⟩, hne⟩
    · exact absurd rfl hne
    · exact ⟨h', hh', rfl⟩

/-! ## One step -/

/-- A step that leaves the index, the counters and the live handles alone. -/
theorem prefixes_same (hl : s'.live.Perm s.live) (ht : s'.mgr.tree = s.mgr.tree)
    (hst : s'.mgr.stats = s.mgr.stats) : s'.prefixes = s.prefixes := by
  refine Store.ext ?_ (sessions_perm hl) ?_ ?_
  · exact congrArg RadixTree.paths ht
  · exact congrArg Stats.evictedBlocks hst
  · exact congrArg RadixTree.collisions ht

theorem step_idle {n : Nat} (h : s'.prefixes = s.prefixes) :
    PrefixStore.Step key n s.prefixes .idle s'.prefixes := by
  rw [h]
  exact .idle

theorem step_shows {n : Nat} {ev : Event TokenId} {x : Store TokenId}
    (h : PrefixStore.Step key n s.prefixes ev x) (hp : s'.mgr.tree.paths = x.paths)
    (hs : s'.prefixes.sessions = x.sessions) (he : s'.mgr.stats.evictedBlocks = x.evicted)
    (hc : s'.mgr.tree.collisions = x.collisions) :
    PrefixStore.Step key n s.prefixes ev s'.prefixes := by
  have hx : s'.prefixes = x := Store.ext hp hs he hc
  rw [hx]
  exact h

theorem Inv.acquire_shows (hi : s.Inv key) (hs : Step key s (.acquire tokens) s') :
    ∃ ev, Shows (.acquire tokens) ev ∧
      PrefixStore.Step key s.mgr.cfg.blockTokens s.prefixes ev s'.prefixes := by
  obtain ⟨hi', hev⟩ := hi.step hs
  have hcfg : s'.mgr.cfg = s.mgr.cfg := evolves_cfg hev
  obtain ⟨-, ⟨a, m'⟩, he, rfl⟩ := acquire_call hs
  obtain ⟨hit, hans, hhit⟩ := acquire_answers hi.books he
  have hl := live_append s.vars ⟨a, tokens, s.nextSerial⟩
  obtain ⟨k, hk, hr⟩ := hans.held
  rw [hi.bt] at hk hr
  have hclosed : Closed s.mgr.cfg.blockTokens m'.tree.paths := by
    have hc := hi'.books.wf.closed
    rw [hi'.bt, hcfg] at hc
    exact hc
  have hevicts : PrefixStore.Evicts s.mgr.cfg.blockTokens
      (insert ⟨s.nextSerial, tokens, hit⟩ s.prefixes.sessions) s.prefixes
      (prefixes ⟨m', s.vars ++ [⟨a, tokens, s.nextSerial⟩], s.nextSerial + 1⟩) := by
    refine ⟨hans.subset, hclosed, ?_, hans.evicted, hans.collisions⟩
    rintro x (rfl | ⟨h, hh, rfl⟩) -
    · exact ⟨k, hk, hans.longest.le, hr⟩
    · have hh' : h ∈ live ⟨m', s.vars ++ [⟨a, tokens, s.nextSerial⟩], s.nextSerial + 1⟩ := by
        refine List.mem_filter.mpr ⟨List.mem_append_left _ (List.mem_filter.mp hh).1, ?_⟩
        exact (List.mem_filter.mp hh).2
      have hheld := hi'.session_held hh'
      rw [hcfg] at hheld
      exact hheld
  by_cases hok : a.ok = true
  · rw [if_pos hok] at hl
    refine ⟨.serve ⟨s.nextSerial, tokens, hit⟩, .serve ⟨s.nextSerial, tokens, hit⟩,
      .serve ?_ hans.longest hevicts ?_⟩
    · rintro y ⟨h, hh, rfl⟩
      exact Nat.ne_of_lt (hi.serials_lt h hh)
    · ext x
      have hmem : ∀ h : Handle, h ∈ live ⟨m', s.vars ++ [⟨a, tokens, s.nextSerial⟩],
          s.nextSerial + 1⟩ ↔ h = ⟨a, tokens, s.nextSerial⟩ ∨ h ∈ s.live := fun h => by
        refine hl.mem_iff.trans ?_
        rw [List.singleton_append, List.mem_cons]
        rfl
      simp only [prefixes, Set.mem_ofPred_eq, Set.mem_insert_iff, hmem]
      constructor
      · rintro ⟨h, rfl | hh, rfl⟩
        · left
          rw [← hhit hok]
          rfl
        · exact .inr ⟨h, hh, rfl⟩
      · rintro (rfl | ⟨h, hh, rfl⟩)
        · refine ⟨_, .inl rfl, ?_⟩
          rw [← hhit hok]
          rfl
        · exact ⟨h, .inr hh, rfl⟩
  · rw [if_neg hok] at hl
    exact ⟨.refuse ⟨s.nextSerial, tokens, hit⟩, .refuse ⟨s.nextSerial, tokens, hit⟩,
      .refuse hans.longest hevicts (sessions_perm hl)⟩

/-- A handle that ends without publishing. -/
theorem Inv.drop_shows (hi : s.Inv key) {a' : Allocation} (hl : s.live.Perm (h :: K))
    (hl' : s'.live.Perm K) (he : s.mgr.destruct h.alloc = .ok (a', s'.mgr)) :
    PrefixStore.Step key s.mgr.cfg.blockTokens s.prefixes (.drop h.session) s'.prefixes := by
  obtain ⟨hp, hc, hev⟩ := destruct_paths (hi.perm hl).books he
  have hstore : s'.prefixes = { s.prefixes with sessions := s.prefixes.sessions \ {h.session} } :=
    Store.ext hp (hi.sessions_gone hl hl') hev hc
  rw [hstore]
  exact .drop (mem_sessions (hl.mem_iff.mpr List.mem_cons_self))

theorem Inv.destroy_shows (hi : s.Inv key) {i : Nat} (hs : Step key s (.destroy i) s') :
    ∃ ev, Shows (.destroy i) ev ∧
      PrefixStore.Step key s.mgr.cfg.blockTokens s.prefixes ev s'.prefixes := by
  obtain ⟨h, hget, hs⟩ := Option.bind_eq_some_iff.mp hs
  obtain ⟨⟨a', m'⟩, he, rfl⟩ := call_ok hs
  by_cases ho : (h.alloc.ok && h.alloc.owner) = true
  · obtain ⟨K, hK, hset⟩ := live_cons hget (Bool.and_eq_true_iff.mp ho).1
    obtain ⟨hno, -⟩ | ⟨-, rfl, -⟩ := destruct_cases he
    · rw [ho] at hno
      cases hno
    · exact ⟨_, .destroy i h.session, hi.drop_shows hK (hset _ rfl) he⟩
  · obtain ⟨-, rfl, rfl⟩ | ⟨ho', -⟩ := destruct_cases he
    · refine ⟨_, .destroyed i, step_idle (prefixes_same ?_ rfl rfl)⟩
      simp only [live, set_self hget, List.Perm.refl]
    · exact absurd ho' ho

theorem Inv.moveAssign_shows (hi : s.Inv key) {i j : Nat}
    (hs : Step key s (.moveAssign i j) s') :
    ∃ ev, Shows (.moveAssign i j) ev ∧
      PrefixStore.Step key s.mgr.cfg.blockTokens s.prefixes ev s'.prefixes := by
  obtain ⟨dst, hdst, hs⟩ := Option.bind_eq_some_iff.mp hs
  obtain ⟨src, hsrc, hs⟩ := Option.bind_eq_some_iff.mp hs
  split at hs
  · cases hs
    exact ⟨_, .assigned i j, .idle⟩
  · rename_i hij
    obtain ⟨⟨a', m'⟩, he, rfl⟩ := call_ok hs
    obtain ⟨K, hK, hset⟩ := live_assign hdst hsrc hij
    by_cases hok : dst.alloc.ok = true
    · rw [if_pos hok] at hK
      exact ⟨_, .assign i j dst.session, hi.drop_shows hK hset he⟩
    · rw [if_neg hok] at hK
      obtain ⟨-, rfl, rfl⟩ | ⟨ho, -⟩ := destruct_cases he
      · exact ⟨_, .assigned i j, step_idle (prefixes_same (hset.trans hK.symm) rfl rfl)⟩
      · exact absurd (Bool.and_eq_true_iff.mp ho).1 hok

/-- What the release of a live handle does to the system. -/
theorem Inv.releases (hi : s.Inv key) {i n k : Nat} {ws : List (WorkerId × WorkerAct)}
    (hget : s.vars[i]? = some h) (hok : h.alloc.ok = true)
    (hs : Step key s (.release i tokens ws) s') (hn : n = s.mgr.cfg.blockTokens)
    (hk : k = min (tokens.length / n) h.alloc.blocks.length) :
    s'.vars = s.vars.set i h.disarm ∧ s'.nextSerial = s.nextSerial ∧
    s'.mgr.stats.evictedBlocks = s.mgr.stats.evictedBlocks ∧
    ((s'.mgr.tree.collisions = s.mgr.tree.collisions ∧
        s'.mgr.tree.paths = s.mgr.tree.paths ∪ runs n k tokens ∧
        ¬ Collides key n s.mgr.tree.paths (runs n k tokens)) ∨
      (s'.mgr.tree.collisions = s.mgr.tree.collisions + 1 ∧
        s'.mgr.tree.paths = s.mgr.tree.paths ∧
        Collides key n s.mgr.tree.paths (runs n k tokens))) := by
  obtain ⟨h', hget', ⟨-, hag⟩, ⟨a', m'⟩, he, rfl⟩ := release_call hs
  cases hget.symm.trans hget'
  obtain ⟨K, hK, -⟩ := live_cons hget hok
  have hg := hi.perm hK
  obtain ⟨hev, hcase⟩ := release_offers hg.books hok
    (agrees_take (hg.handles h List.mem_cons_self) hag) he (hn.trans hi.bt.symm) hk
  obtain ⟨-, ⟨hno, -⟩ | ⟨-, rfl, -⟩⟩ := release_handle he
  · rw [hok] at hno
    cases hno
  · exact ⟨rfl, rfl, hev, hcase⟩

/-- The release of any other handle does nothing. -/
theorem release_unheld {i : Nat} {ws : List (WorkerId × WorkerAct)} (hget : s.vars[i]? = some h)
    (hok : h.alloc.ok ≠ true) (hs : Step key s (.release i tokens ws) s') : s' = s := by
  obtain ⟨h', hget', -, ⟨a', m'⟩, he, rfl⟩ := release_call hs
  cases hget.symm.trans hget'
  obtain ⟨-, rfl, rfl⟩ | ⟨hok', -⟩ := release_cases he
  · show { s with vars := s.vars.set i h } = s
    rw [set_self hget]
  · exact absurd hok' hok

/-- A live handle offers what its table covers. -/
theorem Tabled.offers (ht : Tabled s) (hh : h ∈ s.live) (hst : Storable tokens) :
    h.session.offers s.mgr.cfg.blockTokens tokens = runs s.mgr.cfg.blockTokens
      (min (tokens.length / s.mgr.cfg.blockTokens) h.alloc.blocks.length) tokens := by
  obtain ⟨hsth, hlen⟩ := ht h hh
  rw [hlen, min_needBlocks hsth.lt hst.lt]
  rfl

theorem Inv.release_shows (hi : s.Inv key) (ht : Tabled s) {i : Nat}
    {ws : List (WorkerId × WorkerAct)} (hs : Step key s (.release i tokens ws) s') :
    ∃ ev, Shows (.release i tokens ws) ev ∧
      PrefixStore.Step key s.mgr.cfg.blockTokens s.prefixes ev s'.prefixes := by
  obtain ⟨h, hget, ⟨hst, -⟩, -⟩ := release_call hs
  by_cases hok : h.alloc.ok = true
  · obtain ⟨K, hK, hset⟩ := live_cons hget hok
    have hmem : h ∈ s.live := hK.mem_iff.mpr List.mem_cons_self
    obtain ⟨hvars, -, hev, hcase⟩ := hi.releases hget hok hs rfl rfl
    rw [← ht.offers hmem hst] at hcase
    have hses : s'.prefixes.sessions = s.prefixes.sessions \ {h.session} := by
      refine hi.sessions_gone hK ?_
      unfold live
      rw [hvars]
      exact hset _ rfl
    rcases hcase with ⟨hc, hp, hno⟩ | ⟨hc, hp, hyes⟩
    · exact ⟨_, .publish i h.session tokens ws,
        step_shows (.publish (mem_sessions hmem) hno) hp hses hev hc⟩
    · exact ⟨_, .collide i h.session tokens ws,
        step_shows (.collide (mem_sessions hmem) hyes) hp hses hev hc⟩
  · rw [release_unheld hget hok hs]
    exact ⟨_, .empty i tokens ws, .idle⟩

/-- **Every step shows as a step of the store.** -/
theorem Inv.shows (hi : s.Inv key) (ht : Tabled s) {op : Op} (hs : Step key s op s') :
    ∃ ev, Shows op ev ∧ PrefixStore.Step key s.mgr.cfg.blockTokens s.prefixes ev s'.prefixes := by
  have hidle : ∀ {op}, Shows op .idle → s'.prefixes = s.prefixes →
      ∃ ev, Shows op ev ∧ PrefixStore.Step key s.mgr.cfg.blockTokens s.prefixes ev s'.prefixes :=
    fun hsh he => ⟨_, hsh, step_idle he⟩
  cases op with
  | acquire tokens => exact hi.acquire_shows hs
  | moveAssign i j => exact hi.moveAssign_shows hs
  | destroy i => exact hi.destroy_shows hs
  | release i tokens ws => exact hi.release_shows ht hs
  | construct =>
    cases hs
    exact hidle .construct (prefixes_same (live_append _ _) rfl rfl)
  | moveConstruct i =>
    obtain ⟨h, hget, hs⟩ := Option.bind_eq_some_iff.mp hs
    cases hs
    obtain ⟨K, hK, hset⟩ := live_at hget
    exact hidle (.move i) (prefixes_same
      (((live_append _ h).trans ((hset h.disarm).append_left _)).trans hK.symm) rfl rfl)
  | ready i =>
    obtain ⟨h, -, hs⟩ := Option.bind_eq_some_iff.mp hs
    obtain ⟨r, he, rfl⟩ := call_ok hs
    obtain hm | hm := ready_cases he
    · exact hidle (.ready i) (prefixes_same (.refl _) (congrArg (·.tree) hm) (congrArg (·.stats) hm))
    · exact hidle (.ready i) (prefixes_same (.refl _) (congrArg (·.tree) hm) (congrArg (·.stats) hm))
  | wait =>
    obtain ⟨p, -, hs⟩ := Option.bind_eq_some_iff.mp hs
    cases hs
    exact hidle .wait (prefixes_same (.refl _) rfl rfl)
  | worker w act =>
    obtain ⟨p, -, hs⟩ := Option.bind_eq_some_iff.mp hs
    cases hs
    exact hidle (.worker w act) (prefixes_same (.refl _) rfl rfl)

/-! ## Runs -/

/-- The invariant of the refinement, over blocks of `n` tokens. -/
def Refines (key : List TokenId → UInt64) (n : Nat) (s : System) : Prop :=
  s.Inv key ∧ Tabled s ∧ s.mgr.cfg.blockTokens = n

theorem Refines.step {n : Nat} (hi : s.Refines key n) {op : Op} (hs : Step key s op s') :
    s'.Refines key n ∧ ∃ ev, Shows op ev ∧ PrefixStore.Step key n s.prefixes ev s'.prefixes := by
  obtain ⟨hi, ht, rfl⟩ := hi
  obtain ⟨hi', hev⟩ := hi.step hs
  exact ⟨⟨hi', ht.step hi hs, by rw [evolves_cfg hev]⟩, hi.shows ht hs⟩

theorem Refines.run {n : Nat} (hi : s.Refines key n) (hrun : Run (Step key) s tr s') :
    s'.Refines key n ∧ ∃ evs, List.Forall₂ Shows tr evs ∧
      Run (PrefixStore.Step key n) s.prefixes evs s'.prefixes :=
  hrun.refines (I := Refines key n) (fun _ _ _ hi hs => hi.step hs) hi

theorem start_refines (h0 : CacheManager.create specs cfg options mem = .ok m₀)
    (hfit : (specs.map (·.numBlocks)).sum < 2 ^ 32) : (start m₀).Refines key cfg.blockTokens := by
  obtain ⟨-, -, -, hc⟩ := create_ok h0
  exact ⟨start_inv h0 hfit, nofun, congrArg CacheConfig.blockTokens hc⟩

theorem start_prefixes (h0 : CacheManager.create specs cfg options mem = .ok m₀) :
    (start m₀).prefixes = PrefixStore.empty := by
  have hst : m₀.stats = {} := by
    unfold CacheManager.create at h0
    obtain ⟨p, -, h0⟩ := bind_ok h0
    obtain ⟨t, -, h0⟩ := bind_ok h0
    cases h0
    rfl
  obtain ⟨-, -, ht, -⟩ := create_ok h0
  refine Store.ext ?_ ?_ ?_ ?_
  · show m₀.tree.paths = ∅
    rw [ht]
    rfl
  · ext x
    simp [prefixes, live, start, PrefixStore.empty]
  · show m₀.stats.evictedBlocks = 0
    rw [hst]
  · show m₀.tree.collisions = 0
    rw [ht]

/-- A release whose next block meets a sibling with its key; every block has the same one. -/
def collidingTrace : List Op :=
  [.acquire [1, 2, 3, 4], .acquire [5, 6], .release 0 [1, 2, 3, 4] [], .release 1 [5, 6] []]

/-- **With one token in a block `block_key` never collides**, whatever is released. -/
theorem no_collisions (h0 : CacheManager.create specs cfg options mem = .ok m₀)
    (hfit : (specs.map (·.numBlocks)).sum < 2 ^ 32) (hbt : cfg.blockTokens = 1)
    (hrun : Run (Step blockKey) (start m₀) tr s) : s.mgr.tree.collisions = 0 := by
  obtain ⟨-, evs, -, hr⟩ := (start_refines h0 hfit).run hrun
  rw [start_prefixes h0, hbt] at hr
  exact run_collisions (fun X X' hX hX' hk => blockKey_single hX hX' hk) hr

/-- One tier that holds everything. -/
def roomySpecs : List TierSpec := [⟨some ⟨64, true⟩, 16⟩]

def oneTokenConfig : CacheConfig := { twoTierConfig with blockTokens := 1 }

/-- Sequences that share a token, branch after it, and extend each other. -/
def branchingTrace : List Op :=
  [.acquire [1, 2], .acquire [1, -2, 3], .acquire [7], .release 1 [1, -2, 3] [],
    .release 0 [1, 2] [], .release 2 [7] []]

theorem no_collisions_branching : ∃ m₀ s,
    CacheManager.create roomySpecs oneTokenConfig {} (fun _ _ => 0) = .ok m₀ ∧
    Run (Step blockKey) (start m₀) branchingTrace s ∧ s.mgr.tree.storedBlocks = 5 ∧
    s.mgr.tree.collisions = 0 := by
  have hx : ((CacheManager.create roomySpecs oneTokenConfig {} fun _ _ => 0).toOption.bind fun m₀ =>
      (exec (step? blockKey) (start m₀) branchingTrace).map fun s => s.mgr.tree.storedBlocks) =
      some 5 := by
    decide +kernel
  obtain ⟨m₀, h0, hx⟩ := Option.bind_eq_some_iff.mp hx
  obtain ⟨s, hs, hx⟩ := Option.map_eq_some_iff.mp hx
  have hc₀ := toOption_eq_some h0
  exact ⟨m₀, s, hc₀, run_of_step? hs, hx,
    no_collisions hc₀ (by decide) rfl (run_of_step? hs)⟩

/-! ## Hits -/

/-- **What was released is found again until a counter moves.**  If no collision was counted when a
handle was released with `tokens`, and no block was evicted since, a request that begins with whole
blocks of `tokens` the table covered is served at least these from the cache. -/
theorem hit_again (h0 : CacheManager.create specs cfg options mem = .ok m₀)
    (hfit : (specs.map (·.numBlocks)).sum < 2 ^ 32) (hrun : Run (Step key) (start m₀) tr s) {i : Nat}
    {ws : List (WorkerId × WorkerAct)} (hget : s.vars[i]? = some h) (hok : h.alloc.ok = true)
    (hs : Step key s (.release i tokens ws) s₁) (hrun' : Run (Step key) s₁ tr' s₂)
    (hcol : s₁.mgr.tree.collisions = s.mgr.tree.collisions)
    (hev : s₂.mgr.stats.evictedBlocks = s.mgr.stats.evictedBlocks) {a : Allocation}
    (hacq : s₂.mgr.acquire key tokens' = .ok (a, m')) (hok' : a.ok = true) (k : Nat)
    (hk : k ≤ tokens.length / cfg.blockTokens) (hkt : k ≤ h.alloc.blocks.length)
    (hp : tokens.take (k * cfg.blockTokens) <+: tokens') : k * cfg.blockTokens ≤ a.cachedTokens := by
  have hi := ((start_refines h0 hfit).run hrun).1
  have hi₁ := (hi.step hs).1
  obtain ⟨hi₂, evs, -, hshow⟩ := hi₁.run hrun'
  obtain ⟨hit, hans, hhit⟩ := acquire_answers hi₂.1.books hacq
  -- the release
  have hpaths : s₁.mgr.stats.evictedBlocks = s.mgr.stats.evictedBlocks ∧
      runs cfg.blockTokens k tokens ⊆ s₁.mgr.tree.paths := by
    obtain ⟨-, -, hev₁, ⟨-, hp, -⟩ | ⟨hc, -⟩⟩ := hi.1.releases hget hok hs hi.2.2.symm rfl
    · refine ⟨hev₁, ?_⟩
      rw [hp]
      exact (runs_mono (by omega)).trans Finset.subset_union_right
    · omega
  -- everything since
  have hkept := (run_kept hshow).2 (hev.trans hpaths.1.symm)
  have hle : k * cfg.blockTokens ≤ tokens.length :=
    (Nat.mul_le_mul_right _ hk).trans (Nat.div_mul_le_self _ _)
  rw [hhit hok']
  exact hans.longest.ge (hpaths.2.trans hkept) hle hp

/-- A sequence is released, another request comes and goes, and the first one is extended. -/
theorem hit_again_extension : ∃ m₀ s s₁ s₂ a m',
    CacheManager.create twoTierSpecs twoTierConfig {} (fun _ _ => 0) = .ok m₀ ∧
    Run (Step blockKey) (start m₀) [.acquire [1, 2, 3, 4, 5]] s ∧
    Step blockKey s (.release 0 [1, 2, 3, 4, 5] []) s₁ ∧
    Run (Step blockKey) s₁ [.acquire [7, 8], .destroy 1] s₂ ∧
    s₂.mgr.acquire blockKey [1, 2, 3, 4, 9] = .ok (a, m') ∧ 2 * 2 ≤ a.cachedTokens := by
  have hx : ((CacheManager.create twoTierSpecs twoTierConfig {} fun _ _ => 0).toOption.bind fun m₀ =>
      (exec (step? blockKey) (start m₀) [.acquire [1, 2, 3, 4, 5]]).bind fun s =>
        (step? blockKey s (.release 0 [1, 2, 3, 4, 5] [])).bind fun s₁ =>
          (exec (step? blockKey) s₁ [.acquire [7, 8], .destroy 1]).bind fun s₂ =>
            (s₂.mgr.acquire blockKey [1, 2, 3, 4, 9]).toOption.bind fun r => s.vars[0]?.map fun h =>
              (h.alloc.ok, h.alloc.blocks.length, r.1.ok,
                [s.mgr.tree.collisions, s₁.mgr.tree.collisions, s.mgr.stats.evictedBlocks,
                  s₂.mgr.stats.evictedBlocks])) = some (true, 3, true, [0, 0, 0, 0]) := by
    decide +kernel
  obtain ⟨m₀, h0, hx⟩ := Option.bind_eq_some_iff.mp hx
  obtain ⟨s, hs, hx⟩ := Option.bind_eq_some_iff.mp hx
  obtain ⟨s₁, hs₁, hx⟩ := Option.bind_eq_some_iff.mp hx
  obtain ⟨s₂, hs₂, hx⟩ := Option.bind_eq_some_iff.mp hx
  obtain ⟨⟨a, m'⟩, ha, hx⟩ := Option.bind_eq_some_iff.mp hx
  obtain ⟨h, hget, hx⟩ := Option.map_eq_some_iff.mp hx
  simp only [Prod.mk.injEq, List.cons.injEq, and_true] at hx
  obtain ⟨hok, hlen, hok', hc, hc₁, he, he₂⟩ := hx
  have hc₀ := toOption_eq_some h0
  have hacq := toOption_eq_some ha
  have hstep := step_of_step? hs₁
  exact ⟨m₀, s, s₁, s₂, a, m', hc₀, run_of_step? hs, hstep, run_of_step? hs₂, hacq,
    hit_again hc₀ (by decide) (run_of_step? hs) hget hok hstep (run_of_step? hs₂) (hc₁.trans hc.symm)
      (he₂.trans he.symm) hacq hok' 2 (by decide) (by omega) (by decide)⟩

/-- **What a live handle was told is cached stays so while it lives.** -/
theorem live_prefix_hit (h0 : CacheManager.create specs cfg options mem = .ok m₀)
    (hfit : (specs.map (·.numBlocks)).sum < 2 ^ 32) (hrun : Run (Step key) (start m₀) tr s)
    (hh : h ∈ s.live) {a : Allocation} (hacq : s.mgr.acquire key tokens' = .ok (a, m'))
    (hok : a.ok = true) (k : Nat) (hk : k * cfg.blockTokens ≤ h.alloc.cachedTokens)
    (hp : h.tokens.take (k * cfg.blockTokens) <+: tokens') :
    k * cfg.blockTokens ≤ a.cachedTokens := by
  obtain ⟨hi, -, hbt⟩ := ((start_refines h0 hfit).run hrun).1
  obtain ⟨hit, hans, hhit⟩ := acquire_answers hi.books hacq
  obtain ⟨j, hj, hle, hr⟩ := hi.session_held hh
  rw [hbt] at hj hr
  have hj : h.alloc.cachedTokens = j * cfg.blockTokens := hj
  have hle : h.alloc.cachedTokens ≤ h.tokens.length := hle
  have hkj : k ≤ j := by
    have hpos : 0 < cfg.blockTokens := hbt ▸ hi.bt ▸ hi.books.wf.bt_pos
    exact Nat.le_of_mul_le_mul_right (hj ▸ hk) hpos
  rw [hhit hok]
  exact hans.longest.ge ((runs_mono hkj).trans hr) (hk.trans hle) hp

/-- Three blocks are cached and the first of them is in use when a request evicts the others. -/
def pressedTrace : List Op :=
  [.acquire [1, 2, 3, 4], .release 0 [1, 2, 3, 4] [], .acquire [1, 2, 9],
    .acquire [5, 6, 7, 8, 5, 6]]

theorem live_prefix_hit_pressed : ∃ m₀ s h a m',
    CacheManager.create twoTierSpecs twoTierConfig {} (fun _ _ => 0) = .ok m₀ ∧
    Run (Step blockKey) (start m₀) pressedTrace s ∧ h ∈ s.live ∧
    s.mgr.acquire blockKey [1, 2] = .ok (a, m') ∧ 1 * 2 ≤ a.cachedTokens := by
  have hx : ((CacheManager.create twoTierSpecs twoTierConfig {} fun _ _ => 0).toOption.bind fun m₀ =>
      (exec (step? blockKey) (start m₀) pressedTrace).bind fun s =>
        (s.mgr.acquire blockKey [1, 2]).toOption.bind fun r => s.vars[1]?.map fun h =>
          (h.alloc.ok, h.alloc.cachedTokens, h.tokens, r.1.ok)) =
      some (true, 2, [1, 2, 9], true) := by
    decide +kernel
  obtain ⟨m₀, h0, hx⟩ := Option.bind_eq_some_iff.mp hx
  obtain ⟨s, hs, hx⟩ := Option.bind_eq_some_iff.mp hx
  obtain ⟨⟨a, m'⟩, ha, hx⟩ := Option.bind_eq_some_iff.mp hx
  obtain ⟨h, hget, hx⟩ := Option.map_eq_some_iff.mp hx
  simp only [Prod.mk.injEq] at hx
  obtain ⟨hok, hcached, htok, hok'⟩ := hx
  have hc₀ := toOption_eq_some h0
  have hacq := toOption_eq_some ha
  have hlive := mem_live hget hok
  exact ⟨m₀, s, h, a, m', hc₀, run_of_step? hs, hlive, hacq,
    live_prefix_hit hc₀ (by decide) (run_of_step? hs) hlive hacq hok' 1 (by rw [hcached]; decide)
      (by rw [htok]; decide)⟩

end System

end KvsLab
