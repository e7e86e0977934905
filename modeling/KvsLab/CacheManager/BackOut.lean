import KvsLab.CacheManager.Refusal

/-!
# What a refused request leaves behind

A request that is refused has evicted first whatever it could.

* `BackedOut` — every lookup answers as before, and lock counts and reference counts are the same.
* `nothing_evicted` — nothing is evicted when every entry is pinned or part of the match.
* `pinned_of_refcount` — and when all references survived a refusal, every entry was.
* `backs_out_iff` — so a refusal backs out cleanly exactly when there was nothing to evict;
  `refusal_empties_index` is a run in which the refused request cost every cached entry.
-/

namespace KvsLab

open RadixTree BlockPool CacheManager Transition

namespace CacheManager

variable {key : List TokenId → UInt64} {cl : List Claim} {m m' : CacheManager}
  {tokens : List TokenId} {b : BlockId}

/-- What the index answers for a sequence: the cached tokens and their blocks. -/
def answer (key : List TokenId → UInt64) (m : CacheManager) (tokens : List TokenId) :
    Option (Nat × List BlockId) :=
  (m.tree.matchPrefix key tokens).toOption.map fun r => (r.1.numTokens, r.1.blocks)

/-- Lookups, the lock counts along surviving paths and all reference counts are as they were. -/
structure BackedOut (key : List TokenId → UInt64) (m m' : CacheManager) : Prop where
  answers : ∀ ts, answer key m' ts = answer key m ts
  locks : ∀ e ∈ entries m.tree.blockTokens m.tree.places,
    ∀ e' ∈ entries m.tree.blockTokens m'.tree.places, e'.path = e.path → e'.lock = e.lock
  refcount : ∀ id, m'.pool.refcount id = m.pool.refcount id

theorem exists_entry {l l' : List Entry}
    (hp : (l.map fun e => (e.path, e.block)).Perm (l'.map fun e => (e.path, e.block))) :
    ∀ e ∈ l, ∃ e' ∈ l', e'.path = e.path ∧ e'.block = e.block := by
  intro e hel
  obtain ⟨e', he', heq⟩ := List.mem_map.mp (hp.mem_iff.mp (List.mem_map_of_mem hel))
  exact ⟨e', he', (Prod.mk.inj heq).1, (Prod.mk.inj heq).2⟩

/-- Lookups depend on the entries only. -/
theorem answer_congr (hw : WF key m.tree) (hw' : WF key m'.tree)
    (hbt : m'.tree.blockTokens = m.tree.blockTokens)
    (he : ((entries m.tree.blockTokens m'.tree.places).map fun e => (e.path, e.block)).Perm
      ((entries m.tree.blockTokens m.tree.places).map fun e => (e.path, e.block)))
    (ts : List TokenId) : answer key m' ts = answer key m ts := by
  obtain ⟨r, t, hm, hr⟩ := hw.matchPrefix ts
  obtain ⟨r', t', hm', hr'⟩ := hw'.matchPrefix ts
  obtain ⟨h1, h2⟩ := hr.congr hw hr' hbt (exists_entry he.symm) (exists_entry he)
  unfold answer
  rw [hm, hm']
  simp only [Except.toOption, Option.map_some, h1, h2]

namespace Attempt

variable (a : Attempt key cl m tokens)
include a

/-- Looking up and demoting keep the entries. -/
theorem request_entries : (entries m.tree.blockTokens a.request.mgr.tree.places).map
      (fun e => (e.path, e.block)) =
    (entries m.tree.blockTokens m.tree.places).map fun e => (e.path, e.block) := by
  obtain ⟨t₁, hr, hl⟩ := a.looked.tree
  have := hl.entries
  rwa [hr.blockTokens, hr.entries] at this

theorem request_blockTokens : a.request.mgr.tree.blockTokens = m.tree.blockTokens := by
  obtain ⟨t₁, hr, hl⟩ := a.looked.tree
  rw [hl.blockTokens, hr.blockTokens]

theorem demoted_entries : (entries m.tree.blockTokens a.demoted.tree.places).map
      (fun e => (e.path, e.block)) =
    (entries m.tree.blockTokens m.tree.places).map fun e => (e.path, e.block) := by
  rw [a.room.tree, a.request_entries]

theorem demoted_blockTokens : a.demoted.tree.blockTokens = m.tree.blockTokens := by
  rw [a.room.tree, a.request_blockTokens]

/-- Where every entry is pinned or part of the match, the request evicts nothing. -/
theorem nothing_evicted (hb : Books key cl m.tree m.pool)
    (hpin : ∀ e ∈ entries m.tree.blockTokens m.tree.places, e.lock ≠ 0 ∨ e.path <+: tokens) :
    a.D = [] := by
  refine List.eq_nil_iff_forall_not_mem.mpr fun e he => ?_
  have hbt := a.demoted_blockTokens
  have hmem : e ∈ entries a.demoted.tree.blockTokens a.demoted.tree.places :=
    a.reclaimed.pruned.entries.mem_iff.mpr (List.mem_append_left _ he)
  have h0 := a.reclaimed.pruned.unpinned e he
  rw [a.demoted_books.entry_lock hmem, List.countP_eq_zero] at h0
  rw [hbt] at hmem
  obtain ⟨e₀, he₀, hpath, _⟩ := exists_entry (.of_eq a.demoted_entries) e hmem
  rcases hpin e₀ he₀ with hl | hp
  · rw [hb.entry_lock he₀] at hl
    obtain ⟨c, hc, hpre⟩ := List.countP_pos_iff.mp (Nat.pos_of_ne_zero hl)
    exact h0 c (List.mem_cons_of_mem _ hc) (hpath ▸ hpre)
  · -- a cached prefix of the request lies in its match
    have hle := a.looked.longest e₀ he₀ hp
    refine h0 _ List.mem_cons_self ?_
    rw [List.isPrefixOf_iff_prefix, ← hpath]
    exact List.prefix_take_iff.mpr ⟨hp, hle⟩

/-- Where all references survived a refusal, every entry was pinned or part of the match. -/
theorem pinned_of_refcount (hb : Books key cl m.tree m.pool)
    (hfull : a.evicted.pool.numFree < a.request.demand)
    (hr : ∀ id, a.evicted.pool.refcount id = m.pool.refcount id) :
    ∀ e ∈ entries m.tree.blockTokens m.tree.places, e.lock ≠ 0 ∨ e.path <+: tokens := by
  intro e he
  have htree : e.block ∈ blocksOf m.tree.places := by
    rw [← map_block_entries m.tree.blockTokens]
    exact List.mem_map_of_mem he
  have hinj : ∀ e' ∈ entries m.tree.blockTokens m.tree.places, e'.block = e.block → e' = e :=
    fun _ he' => entry_block_inj hb.sole.nodup he' he
  have hal : a.evicted.pool.refcount e.block ≠ 0 := by
    rw [hr]
    exact hb.held_iff.mpr (Books.mem_held_tree _ htree)
  rcases mem_inUse.mp ((a.allocated_inUse hfull e.block).mp hal) with ⟨c, hc, hbc⟩ | hbm
  · rcases List.mem_append.mp hbc with hcached | hfresh
    · -- in a live table's cached part, so below that handle's pin
      left
      rcases hb.pins c hc with ⟨_, _, h0⟩ | ⟨i, _, _, hcov⟩
      · rw [h0] at hcached; cases hcached
      · obtain ⟨k, hk⟩ := List.mem_iff_getElem?.mp hcached
        obtain ⟨lock, hent⟩ := covers_entry hb.wf hcov hk
        have hpath := congrArg Entry.path (hinj _ hent rfl)
        rw [hb.entry_lock he]
        refine Nat.ne_of_gt (List.countP_pos_iff.mpr ⟨c, hc, ?_⟩)
        rw [List.isPrefixOf_iff_prefix, ← hpath]
        exact List.take_prefix _ _
    · exact absurd (List.mem_flatMap.mpr ⟨c, hc, hfresh⟩)
        ((List.nodup_append'.mp hb.nodup).2.2 htree)
  · right
    obtain ⟨k, hk⟩ := List.mem_iff_getElem?.mp hbm
    obtain ⟨lock, hent⟩ := a.looked.found k _ hk
    rw [← congrArg Entry.path (hinj _ hent rfl)]
    exact List.take_prefix _ _

/-- A refusal that evicted nothing backed out. -/
theorem backed_out (hb : Books key cl m.tree m.pool) (hD : a.D = [])
    (hr : Refused key cl m {} m') (hp : m'.pool = a.evicted.pool)
    (ht : Relocked key a.evicted.tree m'.tree) : BackedOut key m m' := by
  have hbt := a.demoted_blockTokens
  have hpr := a.reclaimed.pruned
  have hents : ((entries m.tree.blockTokens m'.tree.places).map fun e => (e.path, e.block)).Perm
      ((entries m.tree.blockTokens m.tree.places).map fun e => (e.path, e.block)) := by
    have h1 := ht.entries
    have h2 := hpr.entries.map fun e => (e.path, e.block)
    rw [hD, List.nil_append, hbt] at h2
    rw [hpr.blockTokens, hbt] at h1
    rw [h1, ← a.demoted_entries]
    exact h2.symm
  have hbt' : m'.tree.blockTokens = m.tree.blockTokens := by
    rw [ht.blockTokens, hpr.blockTokens, hbt]
  refine ⟨answer_congr hb.wf ht.wf hbt' hents, fun e he e' he' hpath => ?_, fun id => ?_⟩
  · rw [hb.entry_lock he, hr.books.entry_lock (hbt'.symm ▸ he'), hpath]
  · rw [hp, a.reclaimed.pool, hD]
    show a.demoted.pool.refcount id = _
    rw [a.room.demoted.shifted.refcount, a.looked.shifted.refcount]
    exact (hb.inv.drain_block id).refcount

end Attempt

end CacheManager

namespace System

variable {key : List TokenId → UInt64} {s : System} {m₀ m' : CacheManager}
  {specs : List TierSpec} {cfg : CacheConfig} {options : Options}
  {mem : Arena.Mem TierIndex UInt8} {tr : List Op} {tokens : List TokenId} {al : Allocation}

/-- The call returns, and backs out when it refuses. -/
def BacksOut (key : List TokenId → UInt64) (s : System) (tokens : List TokenId) : Prop :=
  ∃ al m', s.mgr.acquire key tokens = .ok (al, m') ∧ (al.ok = false → BackedOut key s.mgr m')

/-- **A refused request backs out.**  In every state a program reaches, a request that is refused
leaves the index and all counts as they were exactly when every cached entry is pinned by a live
handle or is a prefix of the request.  A request is not refused exactly when it is empty or the
blocks in use, the fresh blocks it needs and the stranded slots fit the compute tier. -/
theorem backs_out_iff (h0 : CacheManager.create specs cfg options mem = .ok m₀)
    (hfit : (specs.map (·.numBlocks)).sum < 2 ^ 32) (hrun : Run (Step key) (start m₀) tr s)
    (tokens : List TokenId) :
    BacksOut key s tokens ↔
      tokens = [] ∨
      (s.inUse key tokens).length + s.freshNeed key tokens + s.stranded key tokens ≤
        s.computeBlocks ∨
      ∀ e ∈ entries s.mgr.tree.blockTokens s.mgr.tree.places, e.lock ≠ 0 ∨ e.path <+: tokens := by
  have hi := reach h0 hfit hrun
  have hb := Good.books hi
  have hs := Good.settled hi
  by_cases ht : tokens = []
  · refine ⟨fun _ => .inl ht, fun _ => ?_⟩
    obtain ⟨al, m', he, hsv⟩ := acquire_nil hb
    exact ⟨al, m', ht ▸ he, fun hf => absurd (hsv.ok.symm.trans hf) nofun⟩
  obtain ⟨a⟩ := attempt hb tokens
  by_cases hfull : a.evicted.pool.numFree < a.request.demand
  · obtain ⟨m', he, hr, hp, hrel⟩ := a.refuse_spec hb hs
    have hacq : s.mgr.acquire key tokens = .ok ({}, m') := by
      rw [a.acquire_eq ht, if_pos hfull, he]
    have hgt := (hi.refused_iff ht hacq).mp rfl
    constructor
    · rintro ⟨al, m₁, he₁, himp⟩
      rw [hacq] at he₁
      cases he₁
      exact .inr (.inr (a.pinned_of_refcount hb hfull (hp ▸ (himp rfl).refcount)))
    · rintro (h | h | hpin)
      · exact absurd h ht
      · exact absurd h (Nat.not_le.mpr hgt)
      · exact ⟨_, _, hacq, fun _ => a.backed_out hb (a.nothing_evicted hb hpin) hr hp hrel⟩
  · obtain ⟨al, m', he, hsv⟩ := a.serve_spec hb hs (Nat.le_of_not_lt hfull)
    have hacq : s.mgr.acquire key tokens = .ok (al, m') := by
      rw [a.acquire_eq ht, if_neg hfull, he]
    have hok : ¬ al.ok = false := fun hf => absurd (hsv.ok.symm.trans hf) nofun
    refine ⟨fun _ => .inr (.inl ?_), fun _ => ⟨al, m', hacq, fun hf => absurd hf hok⟩⟩
    exact Nat.le_of_not_lt fun hgt => hok ((hi.refused_iff ht hacq).mpr hgt)

def oneTierSpecs : List TierSpec := [⟨some ⟨64, true⟩, 4⟩]

/-- A cached sequence is extended under a pin. -/
def extendedTrace : List Op :=
  [.acquire [1, 2, 3, 4], .release 0 [1, 2, 3, 4] [], .acquire [1, 2, 3, 4, 5, 6]]

theorem backs_out_pinned : ∃ s : System, s.live.map (·.alloc.blocks) = [[0, 1, 2]] ∧
    BacksOut blockKey s [7, 8, 9, 10] := by
  have hs : ((CacheManager.create oneTierSpecs twoTierConfig {} (fun _ _ => 0)).toOption.bind
      fun m₀ => (exec (step? blockKey) (start m₀) extendedTrace).map fun s =>
        (s.live.map (·.alloc.blocks),
          (entries s.mgr.tree.blockTokens s.mgr.tree.places).map (·.lock))) =
      some ([[0, 1, 2]], [1, 1]) := by
    decide +kernel
  obtain ⟨m₀, h0, hm⟩ := Option.bind_eq_some_iff.mp hs
  obtain ⟨s, hx, he⟩ := Option.map_eq_some_iff.mp hm
  obtain ⟨hl, hlock⟩ := Prod.mk.inj he
  refine ⟨s, hl, (backs_out_iff (toOption_eq_some h0) (by decide) (run_of_step? hx) _).mpr
    (.inr (.inr fun e hmem => .inl ?_))⟩
  have hmem := List.mem_map_of_mem (f := Entry.lock) hmem
  rw [hlock] at hmem
  intro h
  rw [h] at hmem
  exact absurd hmem (by decide)

/-- Two blocks are cached and two in use. -/
def crowdedTrace : List Op :=
  [.acquire [1, 2, 3, 4], .release 0 [1, 2, 3, 4] [], .acquire [5, 6, 7, 8]]

/-- A request for three blocks is refused, and the cached sequence is gone. -/
theorem refusal_empties_index : ∃ m₀ s al m',
    CacheManager.create oneTierSpecs twoTierConfig {} (fun _ _ => 0) = .ok m₀ ∧
    Run (Step blockKey) (start m₀) crowdedTrace s ∧
    s.mgr.acquire blockKey [9, 10, 11, 12, 13, 14] = .ok (al, m') ∧ al.ok = false ∧
    answer blockKey s.mgr [1, 2, 3, 4] = some (4, [0, 1]) ∧
    answer blockKey m' [1, 2, 3, 4] = some (0, []) ∧
    ¬ BacksOut blockKey s [9, 10, 11, 12, 13, 14] := by
  have hs : ((CacheManager.create oneTierSpecs twoTierConfig {} (fun _ _ => 0)).toOption.bind
      fun m₀ => (exec (step? blockKey) (start m₀) crowdedTrace).bind fun s =>
        (s.mgr.acquire blockKey [9, 10, 11, 12, 13, 14]).toOption.map fun r =>
          (r.1.ok, answer blockKey s.mgr [1, 2, 3, 4], answer blockKey r.2 [1, 2, 3, 4])) =
      some (false, some (4, [0, 1]), some (0, [])) := by
    decide +kernel
  obtain ⟨m₀, h0, hm⟩ := Option.bind_eq_some_iff.mp hs
  obtain ⟨s, hx, hr⟩ := Option.bind_eq_some_iff.mp hm
  obtain ⟨⟨al, m'⟩, ha, he⟩ := Option.map_eq_some_iff.mp hr
  obtain ⟨hok, hn⟩ := Prod.mk.inj he
  obtain ⟨hbefore, hafter⟩ := Prod.mk.inj hn
  have ha := toOption_eq_some ha
  refine ⟨m₀, s, al, m', toOption_eq_some h0, run_of_step? hx, ha, hok, hbefore, hafter, ?_⟩
  rintro ⟨al₁, m₁, ha₁, himp⟩
  rw [ha] at ha₁
  cases ha₁
  have := (himp hok).answers [1, 2, 3, 4]
  rw [hbefore, hafter] at this
  exact absurd this (by decide)

end System

end KvsLab
