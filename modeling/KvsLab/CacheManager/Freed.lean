import KvsLab.CacheManager.ReleaseOrder

/-!
# What a call frees

The log of freed ids grows by the blocks of evicted leaves, and by the fresh blocks of a handle that
ends and that the index did not adopt.

* `acquire_freed`, `release_freed`, `destruct_freed` — what each call adds to the log, with the
  change of the index and of the counters.
* `live_not_freed` — **no step frees a block in the table of a handle that stays live.**
-/

namespace KvsLab

open RadixTree BlockPool CacheManager Transition Lockstep

namespace CacheManager

variable {key : List TokenId → UInt64} {cl : List Claim} {m m' : CacheManager} {p p' : BlockPool}
  {tokens tokens₀ : List TokenId} {a a' : Allocation}

/-! ## Acquiring -/

/-- What `acquire` frees it evicted. -/
structure Evicts (m m' : CacheManager) (G : List BlockId) : Prop where
  freed : m'.pool.freed = m.pool.freed ++ G
  tree : G ⊆ blocksOf m.tree.places
  stored : m'.tree.storedBlocks + G.length = m.tree.storedBlocks
  counted : m'.stats.evictedBlocks = m.stats.evictedBlocks + G.length

theorem Attempt.evicts_freed (x : Attempt key cl m tokens) (h : Books key cl m.tree m.pool) :
    Evicts m x.evicted (x.D.map (·.block)) := by
  have hb := x.demoted_books
  obtain ⟨t₁, hr, hl⟩ := x.looked.tree
  have hblocks : blocksOf x.demoted.tree.places = blocksOf m.tree.places := by
    rw [x.room.tree, hl.blocksOf, hr.blocksOf]
  have hperm := x.reclaimed.pruned.blocksOf
  refine ⟨?_, fun b hm => ?_, ?_, ?_⟩
  · rw [x.reclaimed.pool, (hb.pruned x.reclaimed.pruned).2.freed, x.room.demoted.shifted.freed,
      x.looked.shifted.freed, drain_freed]
  · rw [← hblocks]
    exact hperm.mem_iff.mpr (List.mem_append_left _ hm)
  · rw [x.reclaimed.pruned.wf.storedBlocks, h.wf.storedBlocks, ← hblocks, hperm.length_eq,
      List.length_append, Nat.add_comm]
  · rw [x.reclaimed.evicted, x.room.evicted, x.looked.evicted, List.length_map]

theorem acquire_freed (h : Books key cl m.tree m.pool) (hs : Settled cl m.pool)
    (he : m.acquire key tokens = .ok (a, m')) : ∃ G, Evicts m m' G := by
  by_cases ht : tokens = []
  · subst ht
    obtain ⟨-, -, rfl⟩ | ⟨ht, -⟩ := acquire_cases he
    · exact ⟨[], (List.append_nil _).symm, List.nil_subset _, rfl, rfl⟩
    · exact absurd rfl ht
  obtain ⟨x⟩ := attempt h tokens
  have hx := x.evicts_freed h
  rw [x.acquire_eq ht] at he
  refine ⟨x.D.map (·.block), ?_⟩
  split at he
  · obtain ⟨m₁, he', -, hp, hrel⟩ := x.refuse_spec h hs
    rw [he] at he'
    cases he'
    obtain ⟨t, -, -, hm⟩ := refuse_cases he
    have hst : m'.tree.storedBlocks = x.evicted.tree.storedBlocks := by
      rw [hrel.wf.storedBlocks, x.reclaimed.pruned.wf.storedBlocks, hrel.blocksOf]
    exact ⟨hp ▸ hx.freed, hx.tree, hst ▸ hx.stored, by rw [hm]; exact hx.counted⟩
  · rename_i hf
    obtain ⟨m₁, hst, hmt⟩ := serve_cases he
    obtain ⟨al, m₂, hst', hstock⟩ := x.stock_spec h hs (Nat.le_of_not_lt hf)
    rw [hst] at hst'
    cases hst'
    obtain ⟨m₃, hmt', hmain⟩ := maintain_spec hstock.books
    rw [hmt] at hmt'
    cases hmt'
    obtain ⟨V, hsh, -⟩ := hmain.moved
    obtain ⟨k, q, ids, q', -, -, -, hm₁⟩ := stock_cases hst
    refine ⟨?_, hx.tree, ?_, ?_⟩
    · rw [hsh.freed, hstock.freed]
      exact hx.freed
    · rw [hmain.tree, hstock.tree]
      exact hx.stored
    · rw [hmain.evicted, hm₁]
      exact hx.counted

/-! ## Ending a handle -/

/-- What a call that ends a handle with fresh blocks `fresh` frees: those that were not adopted. -/
structure GivesUp (fresh : List BlockId) (adopted : Nat) (m m' : CacheManager) (G : List BlockId) :
    Prop where
  freed : m'.pool.freed = m.pool.freed ++ G
  subset : G ⊆ fresh
  length : G.length + adopted = fresh.length
  stored : m'.tree.storedBlocks = m.tree.storedBlocks + adopted
  counted : m'.stats.evictedBlocks = m.stats.evictedBlocks

theorem relocked_stored {t t' : RadixTree} (hr : Relocked key t t') (hw : WF key t) :
    t'.storedBlocks = t.storedBlocks := by
  rw [hr.wf.storedBlocks, hw.storedBlocks, hr.blocksOf]

theorem destruct_freed (h : Books key (a.claim tokens₀ :: cl) m.tree m.pool)
    (ho : (a.ok && a.owner) = true) (he : m.destruct a = .ok (a', m')) :
    ∃ G, GivesUp a.freshBlocks 0 m m' G := by
  obtain ⟨hf, -⟩ | ⟨-, -, p', t', hdrop, hun, rfl⟩ := destruct_cases he
  · rw [ho] at hf
    cases hf
  obtain ⟨p₁, hdrop', hd, hb₁⟩ := h.drop
  cases hdrop.symm.trans (show dropRefs a.freshBlocks m.pool = .ok p₁ from hdrop')
  obtain ⟨t₁, hun', hrel, -⟩ := hb₁.unpin rfl
  cases hun.symm.trans (show unpin m.tree a.pinned = .ok t₁ from hun')
  have hone : ∀ b ∈ a.freshBlocks, m.pool.refcount b = 1 := fun b hb =>
    h.refcount_one (Books.mem_held_fresh _ List.mem_cons_self hb)
  have hall : a.freshBlocks.filter (fun b => m.pool.refcount b == 1) = a.freshBlocks :=
    List.filter_eq_self.mpr fun b hb => beq_iff_eq.mpr (hone b hb)
  exact ⟨a.freshBlocks, hd.freed.trans (congrArg _ hall), List.Subset.refl _, rfl,
    relocked_stored hrel h.wf, rfl⟩

/-- Of the references a table's fresh blocks lose, those on adopted blocks are not the last. -/
theorem length_filter_unadopted {fresh adopted : List BlockId} (hn : fresh.Nodup)
    (hs : adopted.Sublist fresh) {count : BlockId → Nat} (hone : ∀ b ∈ fresh, count b = 1) :
    (fresh.filter fun b => count b + adopted.count b == 1).length + adopted.length =
      fresh.length := by
  have hfilter : fresh.filter (fun b => count b + adopted.count b == 1) =
      fresh.filter fun b => !(adopted.contains b) := by
    refine List.filter_congr fun b hb => ?_
    rw [hone b hb]
    by_cases hm : b ∈ adopted
    · have := List.count_pos_iff.mpr hm
      simp [hm, Nat.ne_of_gt this]
    · simp [hm, List.count_eq_zero.mpr hm]
  have hkept : (fresh.filter fun b => adopted.contains b).length = adopted.length := by
    refine ((List.perm_ext_iff_of_nodup (hn.filter _) (hn.sublist hs)).mpr fun b => ?_).length_eq
    rw [List.mem_filter, List.contains_iff_mem]
    exact ⟨fun h => h.2, fun h => ⟨hs.subset h, h⟩⟩
  rw [hfilter, ← hkept, Nat.add_comm]
  exact (List.length_eq_length_filter_add _).symm

/-- A leaf stores the blocks it adopts. -/
theorem grown_stored {t t' : RadixTree} {blocks : List BlockId} {k n : Nat} {x : Place}
    (hw : WF key t) (hg : Grown key t tokens blocks k n x t') :
    t'.storedBlocks = t.storedBlocks + x.2.blocks.length := by
  rw [hg.wf.storedBlocks, hw.storedBlocks, hg.leaf.blocksOf.length_eq, List.length_append,
    Nat.add_comm]

theorem giveBack_freed (h : Books key (a.claim tokens₀ :: cl) m.tree m.pool)
    (hag : tokens.take (a.claim tokens₀).tokens.length <+: (a.claim tokens₀).tokens)
    (he : m.giveBack key tokens a = .ok (a', m')) :
    ∃ n t p G, m.tree.insert key m.pool tokens a.blocks = .ok (n, t, p) ∧
      GivesUp a.freshBlocks n m m' G := by
  obtain ⟨n, t, p, p', t', hins, hdrop, hun, -, rfl⟩ := giveBack_cases he
  have htab : (a.claim tokens₀).table = a.blocks := Allocation.claim_table _ _
  have hone : ∀ b ∈ (a.claim tokens₀).table, m.pool.refcount b = 1 := fun b hb =>
    h.refcount_one (h.table_held List.mem_cons_self hb)
  have hfresh : ∀ b ∈ a.freshBlocks, m.pool.refcount b = 1 := fun b hb =>
    hone b (List.mem_append_right _ hb)
  have hnd : a.freshBlocks.Nodup :=
    (List.nodup_append'.mp (h.table_nodup List.mem_cons_self)).2.1
  obtain ⟨n₁, t₁, p₁, hins', hcase⟩ := h.wf.insert m.pool tokens (a.claim tokens₀).table
    (fun b hb => ⟨h.inv.lt_of_refcount (by rw [hone b hb]; exact Nat.one_ne_zero),
      by rw [hone b hb]; exact Nat.one_ne_zero⟩)
    (fun b => by
      have h1 := List.nodup_iff_count_le_one.mp h.nodup b
      rw [← h.refs b] at h1
      have h2 := List.nodup_iff_count_le_one.mp (h.table_nodup List.mem_cons_self) b
      omega)
  rw [htab, hins] at hins'
  cases hins'
  rcases hcase with ⟨rfl, rfl, hr⟩ | ⟨t₁, k, j, x, hr, hg, rfl, rfl⟩
  · -- nothing was adopted
    obtain ⟨p₁, hdrop', hd, hb₁⟩ := (h.reshaped hr).drop
    cases hdrop.symm.trans (show dropRefs a.freshBlocks m.pool = .ok p₁ from hdrop')
    obtain ⟨t₂, hun', hrel, -⟩ := hb₁.unpin rfl
    cases hun.symm.trans (show unpin t a.pinned = .ok t₂ from hun')
    have hall : a.freshBlocks.filter (fun b => m.pool.refcount b == 1) = a.freshBlocks :=
      List.filter_eq_self.mpr fun b hb => beq_iff_eq.mpr (hfresh b hb)
    exact ⟨0, t, _, a.freshBlocks, hins, hd.freed.trans (congrArg _ hall), List.Subset.refl _, rfl,
      (relocked_stored hrel hr.wf).trans (hr.storedBlocks h.wf), rfl⟩
  · -- the leaf keeps what it adopted
    have hb₁ := h.reshaped hr
    obtain ⟨p₁, hdrop', hd, hb₂⟩ := hb₁.grown hag hg
    cases hdrop.symm.trans (show dropRefs a.freshBlocks (m.pool.addRefs x.2.blocks) = .ok p₁ from
      hdrop')
    obtain ⟨t₂, hun', hrel, -⟩ := hb₂.unpin rfl
    cases hun.symm.trans (show unpin t a.pinned = .ok t₂ from hun')
    have hsub : x.2.blocks.Sublist a.freshBlocks :=
      (hb₁.grown_fresh List.mem_cons_self hag hg).1
    refine ⟨_, t, _, _, hins, hd.freed, List.filter_subset_self _,
      length_filter_unadopted hnd hsub hfresh, ?_, rfl⟩
    show RadixTree.storedBlocks _ = _
    rw [relocked_stored hrel hb₂.wf, grown_stored hr.wf hg, hr.storedBlocks h.wf]

theorem release_freed (h : Books key (a.claim tokens₀ :: cl) m.tree m.pool) (hok : a.ok = true)
    (hag : tokens.take (a.claim tokens₀).tokens.length <+: (a.claim tokens₀).tokens)
    {ws : List (WorkerId × WorkerAct)} (he : m.release key tokens a ws = .ok (a', m')) :
    ∃ n t p G, m.tree.insert key m.pool tokens a.blocks = .ok (n, t, p) ∧
      GivesUp a.freshBlocks n m m' G := by
  obtain ⟨hno, -⟩ | ⟨-, m₁, hg, hmt⟩ := release_cases he
  · rw [hok] at hno
    cases hno
  obtain ⟨n, t, p, G, hins, hup⟩ := giveBack_freed h hag hg
  obtain ⟨t₁, t₂, p₁, hg', -, -, hb⟩ := giveBack_spec h hag
  cases hg.symm.trans hg'
  have hw : Shifted [] p₁ (p₁.work ws) := hb.inv.work ws
  obtain ⟨m₂, hmt', hmain⟩ := maintain_spec
    (m := { m with pool := (p₁.work ws).drainMigrations, tree := t₂ }) (hb.shifted hw).drain
  cases hmt.symm.trans hmt'
  obtain ⟨V, hsh, -⟩ := hmain.moved
  refine ⟨n, t, p, G, hins, ?_, hup.subset, hup.length, ?_, ?_⟩
  · rw [hsh.freed, drain_freed, hw.freed]
    exact hup.freed
  · rw [hmain.tree]
    exact hup.stored
  · exact hmain.evicted.trans hup.counted

end CacheManager

namespace System

variable {key : List TokenId → UInt64} {s s' : System} {h : Handle} {G : List BlockId}

/-! ## Steps -/

/-- Only an adoption moves a block from a table to the index, so what a step frees was in the index
or was a fresh block of the handle it ends. -/
def Ends (s s' : System) (G : List BlockId) : Prop :=
  G ⊆ blocksOf s.mgr.tree.places ∨
    ∃ h ∈ s.live, (∀ h' ∈ s'.live, h'.serial ≠ h.serial) ∧ G ⊆ h.alloc.freshBlocks

/-- A handle that is not among those left has a serial number none of them has. -/
theorem Inv.ended (hi : s.Inv key) {K : List Handle} (hl : s.live.Perm (h :: K))
    (hl' : s'.live.Perm K) (hG : G ⊆ h.alloc.freshBlocks) : Ends s s' G := by
  refine .inr ⟨h, hl.mem_iff.mpr List.mem_cons_self, fun h' hh' e => ?_, hG⟩
  have hn := (hl.map Handle.serial).nodup_iff.mp hi.serials
  rw [List.map_cons, List.nodup_cons] at hn
  exact hn.1 (e ▸ List.mem_map_of_mem (hl'.mem_iff.mp hh'))

/-- The destructor of a variable that is overwritten or goes out of scope. -/
theorem Inv.destruct_freed (hi : s.Inv key) {K : List Handle} {a' : Allocation} {m' : CacheManager}
    (hl : s.live.Perm ((if h.alloc.ok then [h] else []) ++ K)) (hl' : s'.live.Perm K)
    (he : s.mgr.destruct h.alloc = .ok (a', m')) :
    ∃ G, m'.pool.freed = s.mgr.pool.freed ++ G ∧ Ends s s' G := by
  by_cases ho : (h.alloc.ok && h.alloc.owner) = true
  · have hok := (Bool.and_eq_true_iff.mp ho).1
    rw [hok] at hl
    obtain ⟨G, hup⟩ := CacheManager.destruct_freed (hi.perm hl).books ho he
    exact ⟨G, hup.freed, hi.ended hl hl' hup.subset⟩
  · obtain ⟨-, -, rfl⟩ | ⟨ho', -⟩ := destruct_cases he
    · exact ⟨[], (List.append_nil _).symm, .inl (List.nil_subset _)⟩
    · exact absurd ho' ho

/-- What a step frees. -/
theorem Inv.step_freed (hi : s.Inv key) {op : Op} (hs : Step key s op s') :
    ∃ G, s'.mgr.pool.freed = s.mgr.pool.freed ++ G ∧ Ends s s' G := by
  have hnone : s'.mgr.pool.freed = s.mgr.pool.freed →
      ∃ G, s'.mgr.pool.freed = s.mgr.pool.freed ++ G ∧ Ends s s' G :=
    fun hf => ⟨[], by rw [hf, List.append_nil], .inl (List.nil_subset _)⟩
  cases op with
  | acquire tokens =>
    obtain ⟨-, r, he, rfl⟩ := acquire_call hs
    obtain ⟨G, hG⟩ := acquire_freed hi.books hi.settled he
    exact ⟨G, hG.freed, .inl hG.tree⟩
  | construct =>
    cases hs
    exact hnone rfl
  | moveConstruct i =>
    obtain ⟨h, -, hs⟩ := Option.bind_eq_some_iff.mp hs
    cases hs
    exact hnone rfl
  | moveAssign i j =>
    obtain ⟨dst, hdst, hs⟩ := Option.bind_eq_some_iff.mp hs
    obtain ⟨src, hsrc, hs⟩ := Option.bind_eq_some_iff.mp hs
    split at hs
    · cases hs
      exact hnone rfl
    · rename_i hij
      obtain ⟨r, he, rfl⟩ := call_ok hs
      obtain ⟨K, hK, hset⟩ := live_assign hdst hsrc hij
      exact hi.destruct_freed hK hset he
  | destroy i =>
    obtain ⟨h, hget, hs⟩ := Option.bind_eq_some_iff.mp hs
    obtain ⟨⟨a', m'⟩, he, rfl⟩ := call_ok hs
    by_cases ho : (h.alloc.ok && h.alloc.owner) = true
    · obtain ⟨K, hK, hset⟩ := live_at hget
      obtain ⟨ho', -⟩ | ⟨-, rfl, -⟩ := destruct_cases he
      · rw [ho] at ho'
        cases ho'
      · exact hi.destruct_freed hK (hset _) he
    · obtain ⟨-, -, rfl⟩ | ⟨ho', -⟩ := destruct_cases he
      · exact hnone rfl
      · exact absurd ho' ho
  | release i tokens ws =>
    obtain ⟨h, hget, ⟨-, hag⟩, ⟨a', m'⟩, he, rfl⟩ := release_call hs
    by_cases hok : h.alloc.ok = true
    · obtain ⟨K, hK, hset⟩ := live_cons hget hok
      have hg := hi.perm hK
      obtain ⟨n, t, p, G, -, hup⟩ := release_freed hg.books hok
        (agrees_take (hg.handles h List.mem_cons_self) hag) he
      obtain ⟨-, ⟨hno, -⟩ | ⟨-, rfl, -⟩⟩ := release_handle he
      · rw [hok] at hno
        cases hno
      · exact ⟨G, hup.freed, hi.ended hK (hset _ rfl) hup.subset⟩
    · obtain ⟨-, -, rfl⟩ | ⟨hok', -⟩ := release_cases he
      · exact hnone rfl
      · exact absurd hok' hok
  | ready i =>
    obtain ⟨h, -, hs⟩ := Option.bind_eq_some_iff.mp hs
    obtain ⟨r, he, rfl⟩ := call_ok hs
    obtain hm | hm := ready_cases he
    · exact hnone (congrArg (·.pool.freed) hm)
    · exact hnone ((congrArg (·.pool.freed) hm).trans (drain_freed _))
  | wait =>
    obtain ⟨p, hp, hs⟩ := Option.bind_eq_some_iff.mp hs
    obtain ⟨-, rfl⟩ := waitForMigrations_ok hp
    cases hs
    exact hnone (drain_freed _)
  | worker w act =>
    obtain ⟨p, hp, hs⟩ := Option.bind_eq_some_iff.mp hs
    cases hs
    exact hnone (SameBooks.workerStep hp).freed

/-- A block has one owner. -/
theorem Inv.fresh_disjoint (hi : s.Inv key) {h₀ : Handle} (hh : h ∈ s.live) (hh₀ : h₀ ∈ s.live)
    (hne : h ≠ h₀) : h.alloc.freshBlocks.Disjoint h₀.alloc.freshBlocks := by
  have hp := (List.nodup_flatMap.mp (List.nodup_append'.mp hi.books.nodup).2.1).2
  have hp : s.live.Pairwise fun h h₀ => h.alloc.freshBlocks.Disjoint h₀.alloc.freshBlocks :=
    (List.pairwise_map (f := Handle.claim)).mp hp
  have : Std.Symm fun h h₀ : Handle => h.alloc.freshBlocks.Disjoint h₀.alloc.freshBlocks :=
    ⟨fun _ _ hd => hd.symm⟩
  exact hp.forall hh hh₀ hne

/-- **No step frees a block in the table of a handle that stays live**, nor one that stays in the
index. -/
theorem live_not_freed (hi : s.Inv key) {op : Op} (hs : Step key s op s') :
    ∃ G, s'.mgr.pool.freed = s.mgr.pool.freed ++ G ∧
      (∀ b ∈ blocksOf s'.mgr.tree.places, b ∉ G) ∧
      ∀ h ∈ s.live, h ∈ s'.live → ∀ b ∈ h.alloc.blocks, b ∉ G := by
  obtain ⟨hi', hev⟩ := hi.step hs
  obtain ⟨G, hG, hend⟩ := hi.step_freed hs
  have htree : ∀ b ∈ blocksOf s'.mgr.tree.places, b ∉ G := by
    obtain ⟨G', hG', hn⟩ : ∃ G', s'.mgr.pool.freed = s.mgr.pool.freed ++ G' ∧
        ∀ b ∈ G', b ∉ blocksOf s'.mgr.tree.places := by
      rcases hev.index with hr | ⟨_, _, _, _, _, _, _, _, hgb⟩
      · exact hr.freed
      · exact hgb.freed
    cases List.append_cancel_left (hG.symm.trans hG')
    exact fun b hb hm => hn b hm hb
  refine ⟨G, hG, htree, fun h hh hh' b hb hm => ?_⟩
  rw [← Allocation.claim_table h.alloc h.tokens] at hb
  rcases List.mem_append.mp hb with hb | hb
  · exact htree b (hi'.books.cached_tree (List.mem_map_of_mem (f := Handle.claim) hh') hb) hm
  · rcases hend with hsub | ⟨h₀, hh₀, hne, hsub⟩
    · exact (List.nodup_append'.mp hi.books.nodup).2.2 (hsub hm)
        (List.mem_flatMap.mpr ⟨_, List.mem_map_of_mem (f := Handle.claim) hh, hb⟩)
    · exact hi.fresh_disjoint hh hh₀ (fun e => hne h hh' (e ▸ rfl)) hb (hsub hm)

end System

end KvsLab
