import KvsLab.CacheManager.Freed

/-!
# Where blocks and tokens go

Fresh blocks are handed out by `acquire`.  A release publishes some of them and gives the others
back; a handle that is dropped gives all of them back; eviction takes published ones out again.

* `Flow` — a system with five totals over the run so far: blocks handed out, adopted by `insert` and
  given back unpublished; tokens of served requests, and those of them found in the cache.
* `Conserved` — every block handed out is in a live table, adopted or given back; every block adopted
  is stored or evicted; the blocks in use and the log of freed ids account for all of them.
* `flow_conserved` — **the totals balance after every run**, and the counters in `Stats` are the
  totals.
-/

namespace KvsLab

open RadixTree BlockPool CacheManager Transition

/-- Tokens of served requests, and those of them the cache supplied. -/
def Stats.meter (st : Stats) : Nat × Nat := (st.totalTokens, st.hitTokens)

namespace CacheManager

variable {key : List TokenId → UInt64} {cl : List Claim} {m m' : CacheManager}
  {tokens : List TokenId} {al al' : Allocation}

/-! ## Token counters -/

theorem maintain_meter (h : m.maintain = .ok m') : m'.stats.meter = m.stats.meter := by
  obtain rfl | ⟨V, k, p, -, -, rfl⟩ := maintain_cases h
  · rfl
  · rfl

theorem makeRoom_meter {demand : Nat} (h : m.makeRoom demand = .ok m') :
    m'.stats.meter = m.stats.meter := by
  obtain rfl | ⟨V, k, p, -, -, rfl⟩ := makeRoom_cases h
  · rfl
  · rfl

theorem reclaim_meter {demand : Nat} : ∀ {fuel : Nat} {m : CacheManager},
    reclaim key demand fuel m = .ok m' → m'.stats.meter = m.stats.meter := by
  intro fuel
  induction fuel with
  | zero =>
    intro m h
    obtain rfl | ⟨k, t, p, -, rfl | ⟨rest, hf, -⟩⟩ := reclaim_cases h
    · rfl
    · rfl
    · cases hf
  | succ fuel ih =>
    intro m h
    obtain rfl | ⟨k, t, p, -, rfl | ⟨rest, hf, h⟩⟩ := reclaim_cases h
    · rfl
    · rfl
    · cases hf
      exact (ih h).trans rfl

/-- A served request counts its tokens and its hit, a refused one neither. -/
theorem acquire_meter (h : m.acquire key tokens = .ok (al, m')) : m'.stats.meter =
    (m.stats.totalTokens + (if al.ok then tokens.length else 0),
      m.stats.hitTokens + al.cachedTokens) := by
  obtain ⟨rfl, rfl, rfl⟩ | ⟨-, r, m₁, m₂, hr, hm₁, hm₂, hend⟩ := acquire_cases h
  · rfl
  have hmeter : m₂.stats.meter = m.stats.meter := by
    rw [reclaim_meter hm₂, makeRoom_meter hm₁]
    obtain ⟨found, t, t', p, k, -, -, -, -, hr⟩ := lookup_cases hr
    rw [hr]
    rfl
  simp only [Stats.meter, Prod.mk.injEq] at hmeter
  obtain ⟨ht, hh⟩ := hmeter
  rcases hend with ⟨-, hrf⟩ | ⟨-, hsv⟩
  · obtain ⟨t, -, rfl, rfl⟩ := refuse_cases hrf
    simp only [Stats.meter, ht, hh]
    rfl
  · obtain ⟨m₃, hst, hmt⟩ := serve_cases hsv
    obtain ⟨k, p, ids, q, -, -, rfl, rfl⟩ := stock_cases hst
    rw [maintain_meter hmt]
    simp only [Stats.meter, ht, hh, if_true]

theorem release_meter {ws : List (WorkerId × WorkerAct)}
    (h : m.release key tokens al ws = .ok (al', m')) : m'.stats.meter = m.stats.meter := by
  obtain ⟨-, -, rfl⟩ | ⟨-, m₁, hg, hmt⟩ := release_cases h
  · rfl
  · obtain ⟨n, t, p, p', t', -, -, -, -, rfl⟩ := giveBack_cases hg
    rw [maintain_meter hmt]

theorem destruct_meter (h : m.destruct al = .ok (al', m')) : m'.stats.meter = m.stats.meter := by
  obtain ⟨-, -, rfl⟩ | ⟨-, -, p, t, -, -, rfl⟩ := destruct_cases h
  · rfl
  · rfl

/-- A hit is a prefix of the request. -/
theorem acquire_hit (h : Books key cl m.tree m.pool) (hs : Settled cl m.pool)
    (he : m.acquire key tokens = .ok (al, m')) :
    al.cachedTokens ≤ if al.ok then tokens.length else 0 := by
  obtain ⟨a, m₁, he₁, hv | hr⟩ := acquire_spec h hs tokens
  · cases he.symm.trans he₁
    rw [hv.ok]
    exact hv.le_tokens
  · cases he.symm.trans he₁
    rw [hr.alloc]
    exact Nat.zero_le _

end CacheManager

/-! ## Totals -/

/-- A system, with totals over the run so far. -/
structure Flow where
  sys : System
  granted : Nat := 0
  adopted : Nat := 0
  returned : Nat := 0
  tokens : Nat := 0
  hits : Nat := 0

namespace Flow

variable (key : List TokenId → UInt64)

/-- Fresh blocks the destructor of variable `i` gives back. -/
def dropped (s : System) (i : Nat) : Nat :=
  match s.vars[i]? with
  | some h => if h.alloc.ok && h.alloc.owner then h.alloc.freshBlocks.length else 0
  | none => 0

/-- What `insert` adopts of the table in variable `i`, and what it leaves. -/
def published (s : System) (i : Nat) (tokens : List TokenId) : Nat × Nat :=
  match s.vars[i]? with
  | some h =>
    if h.alloc.ok then
      match s.mgr.tree.insert key s.mgr.pool tokens h.alloc.blocks with
      | .ok (n, _) => (n, h.alloc.freshBlocks.length - n)
      | .error _ => (0, 0)
    else (0, 0)
  | none => (0, 0)

/-- What a step that leads to `s'` adds to the totals. -/
def enter (g : Flow) (s' : System) : Op → Flow
  | .acquire tokens =>
    match s'.vars.getLast? with
    | some h => { g with
        sys := s'
        granted := g.granted + h.alloc.freshBlocks.length
        tokens := g.tokens + if h.alloc.ok then tokens.length else 0
        hits := g.hits + h.alloc.cachedTokens }
    | none => { g with sys := s' }
  | .release i tokens _ =>
    let (n, rest) := published key g.sys i tokens
    { g with sys := s', adopted := g.adopted + n, returned := g.returned + rest }
  | .destroy i => { g with sys := s', returned := g.returned + dropped g.sys i }
  | .moveAssign i j =>
    { g with sys := s', returned := g.returned + if i = j then 0 else dropped g.sys i }
  | _ => { g with sys := s' }

def next (g : Flow) (op : Op) : Option Flow := (g.sys.step? key op).map fun s' => g.enter key s' op

def Step (g : Flow) (op : Op) (g' : Flow) : Prop := g.next key op = some g'

/-- The totals balance. -/
structure Conserved (g : Flow) : Prop where
  handed : g.granted = g.sys.freshBlocks.length + g.adopted + g.returned
  stored : g.adopted = g.sys.mgr.tree.storedBlocks + g.sys.mgr.stats.evictedBlocks
  freed : g.sys.mgr.pool.freed.length = g.sys.mgr.stats.evictedBlocks + g.returned
  used : g.granted = g.sys.mgr.pool.numUsed + g.sys.mgr.pool.freed.length
  meter : g.sys.mgr.stats.meter = (g.tokens, g.hits)
  hits : g.hits ≤ g.tokens

/-- The invariant behind it. -/
structure Inv (g : Flow) : Prop where
  sys : g.sys.Inv key
  handed : g.granted = g.sys.freshBlocks.length + g.adopted + g.returned
  stored : g.adopted = g.sys.mgr.tree.storedBlocks + g.sys.mgr.stats.evictedBlocks
  freed : g.sys.mgr.pool.freed.length = g.sys.mgr.stats.evictedBlocks + g.returned
  meter : g.sys.mgr.stats.meter = (g.tokens, g.hits)
  hits : g.hits ≤ g.tokens

variable {key} {g g' : Flow} {s' : System} {h : Handle}

theorem Inv.conserved (hg : g.Inv key) : g.Conserved := by
  refine ⟨hg.handed, hg.stored, hg.freed, ?_, hg.meter, hg.hits⟩
  have hu := hg.sys.partitioned.numUsed
  rw [System.treeBlocks_eq hg.sys.books.wf, ← hg.sys.books.wf.storedBlocks] at hu
  have h1 := hg.handed
  have h2 := hg.stored
  have h3 := hg.freed
  omega

/-! ## Steps -/

theorem fresh_length {s : System} {L : List Handle} (hp : s.live.Perm L) :
    s.freshBlocks.length = (L.flatMap (·.alloc.freshBlocks)).length :=
  (hp.flatMap_right _).length_eq

/-- A step that hands out nothing and frees nothing. -/
theorem Inv.same (hg : g.Inv key) (hs : s'.Inv key) (hl : s'.live.Perm g.sys.live)
    (ht : s'.mgr.tree.storedBlocks = g.sys.mgr.tree.storedBlocks)
    (hf : s'.mgr.pool.freed = g.sys.mgr.pool.freed) (hst : s'.mgr.stats = g.sys.mgr.stats) :
    Inv key { g with sys := s' } := by
  refine ⟨hs, ?_, ?_, ?_, ?_, hg.hits⟩
  · show g.granted = s'.freshBlocks.length + _ + _
    rw [fresh_length hl]
    exact hg.handed
  · show g.adopted = s'.mgr.tree.storedBlocks + s'.mgr.stats.evictedBlocks
    rw [ht, hst]
    exact hg.stored
  · show s'.mgr.pool.freed.length = s'.mgr.stats.evictedBlocks + _
    rw [hf, hst]
    exact hg.freed
  · show s'.mgr.stats.meter = _
    rw [hst]
    exact hg.meter

/-- A step that gives up the handle `h`. -/
theorem Inv.ends (hg : g.Inv key) (hs : s'.Inv key) {K : List Handle} {n : Nat} {G : List BlockId}
    (hl : g.sys.live.Perm (h :: K)) (hl' : s'.live.Perm K)
    (hup : GivesUp h.alloc.freshBlocks n g.sys.mgr s'.mgr G)
    (hm : s'.mgr.stats.meter = g.sys.mgr.stats.meter) :
    Inv key { g with
      sys := s'
      adopted := g.adopted + n
      returned := g.returned + (h.alloc.freshBlocks.length - n) } := by
  have hfresh := fresh_length hl
  rw [List.flatMap_cons, List.length_append] at hfresh
  have hfresh' := fresh_length hl'
  have hlen := hup.length
  have h1 := hg.handed
  have h2 := hg.stored
  have h3 := hg.freed
  refine ⟨hs, ?_, ?_, ?_, hm.trans hg.meter, hg.hits⟩
  · show g.granted = s'.freshBlocks.length + (g.adopted + n) + (g.returned + _)
    omega
  · show g.adopted + n = s'.mgr.tree.storedBlocks + s'.mgr.stats.evictedBlocks
    rw [hup.stored, hup.counted]
    omega
  · show s'.mgr.pool.freed.length = s'.mgr.stats.evictedBlocks + (g.returned + _)
    rw [hup.freed, hup.counted, List.length_append]
    omega

theorem Inv.acquire (hg : g.Inv key) {tokens : List TokenId}
    (hs : System.Step key g.sys (.acquire tokens) s') :
    (g.enter key s' (.acquire tokens)).Inv key := by
  have hi := hg.sys
  have hi' := (hi.step hs).1
  obtain ⟨-, ⟨al, m'⟩, he, rfl⟩ := System.acquire_call hs
  obtain ⟨G, hG⟩ := acquire_freed hi.books hi.settled he
  have hmeter := acquire_meter he
  have hhit := acquire_hit hi.books hi.settled he
  have h1 := hg.handed
  have h2 := hg.stored
  have h3 := hg.freed
  have h4 := hg.meter
  have h5 := hg.hits
  have h6 := hG.stored
  simp only [Stats.meter, Prod.mk.injEq] at h4
  have hfresh : (System.freshBlocks ⟨m', g.sys.vars ++ [⟨al, tokens, g.sys.nextSerial⟩],
      g.sys.nextSerial + 1⟩).length = al.freshBlocks.length + g.sys.freshBlocks.length := by
    have hl := (System.live_append g.sys.vars ⟨al, tokens, g.sys.nextSerial⟩).flatMap_right
      (·.alloc.freshBlocks)
    refine hl.length_eq.trans ?_
    rw [List.flatMap_append, List.length_append]
    refine congrArg (· + g.sys.freshBlocks.length) ?_
    by_cases hok : al.ok = true
    · rw [if_pos hok, List.flatMap_singleton]
    · -- a refused request has an empty table
      rw [if_neg hok]
      obtain ⟨a, m₁, he₁, hv | hr⟩ := acquire_spec hi.books hi.settled tokens
      · cases he.symm.trans he₁
        exact absurd hv.ok hok
      · cases he.symm.trans he₁
        rw [hr.alloc]
        rfl
  simp only [enter, List.getLast?_concat]
  refine ⟨hi', ?_, ?_, ?_, ?_, ?_⟩
  · have hsum : g.granted + al.freshBlocks.length =
        al.freshBlocks.length + g.sys.freshBlocks.length + g.adopted + g.returned := by omega
    rw [← hfresh] at hsum
    exact hsum
  · show g.adopted = m'.tree.storedBlocks + m'.stats.evictedBlocks
    rw [hG.counted]
    omega
  · show m'.pool.freed.length = m'.stats.evictedBlocks + g.returned
    rw [hG.freed, hG.counted, List.length_append]
    omega
  · show m'.stats.meter = _
    rw [hmeter, h4.1, h4.2]
  · show g.hits + al.cachedTokens ≤ g.tokens + _
    omega

/-- A handle that is not an owner has no fresh blocks. -/
theorem idle_fresh {s : System} (hi : s.Inv key) (hh : h ∈ s.live) (ho : h.alloc.owner = false) :
    h.alloc.freshBlocks = [] := by
  unfold Allocation.freshBlocks
  rw [((hi.handles h hh).owner ho).1, List.drop_nil]

theorem dropped_eq {s : System} {i : Nat} (hget : s.vars[i]? = some h) :
    dropped s i = if h.alloc.ok && h.alloc.owner then h.alloc.freshBlocks.length else 0 := by
  unfold dropped
  rw [hget]

/-- The destructor of a variable that goes out of scope or is overwritten. -/
theorem Inv.drops (hg : g.Inv key) (hs : s'.Inv key) {i : Nat} {K : List Handle} {a' : Allocation}
    (hget : g.sys.vars[i]? = some h)
    (hl : g.sys.live.Perm ((if h.alloc.ok then [h] else []) ++ K)) (hl' : s'.live.Perm K)
    (he : g.sys.mgr.destruct h.alloc = .ok (a', s'.mgr)) :
    Inv key { g with sys := s', returned := g.returned + dropped g.sys i } := by
  rw [dropped_eq hget]
  by_cases ho : (h.alloc.ok && h.alloc.owner) = true
  · rw [(Bool.and_eq_true_iff.mp ho).1] at hl
    obtain ⟨G, hup⟩ := destruct_freed (hg.sys.perm hl).books ho he
    have hends := hg.ends hs hl hl' hup (destruct_meter he)
    rw [if_pos ho]
    exact hends
  · obtain ⟨-, -, hm⟩ | ⟨ho', -⟩ := destruct_cases he
    swap
    · exact absurd ho' ho
    have hfresh : s'.freshBlocks.length = g.sys.freshBlocks.length := by
      rw [fresh_length hl, fresh_length hl', List.flatMap_append, List.length_append]
      split at hl
      · rename_i hok
        have hof : h.alloc.owner = false := by
          rw [hok, Bool.true_and] at ho
          exact Bool.eq_false_of_not_eq_true ho
        simp [hok, idle_fresh hg.sys (hl.mem_iff.mpr List.mem_cons_self) hof]
      · rename_i hok
        simp [hok]
    rw [if_neg ho]
    refine ⟨hs, ?_, ?_, ?_, ?_, hg.hits⟩
    · show g.granted = s'.freshBlocks.length + _ + _
      rw [hfresh]
      exact hg.handed
    · show g.adopted = s'.mgr.tree.storedBlocks + s'.mgr.stats.evictedBlocks
      rw [hm]
      exact hg.stored
    · show s'.mgr.pool.freed.length = s'.mgr.stats.evictedBlocks + _
      rw [hm]
      exact hg.freed
    · show s'.mgr.stats.meter = _
      rw [hm]
      exact hg.meter

theorem Inv.destroy (hg : g.Inv key) {i : Nat} (hs : System.Step key g.sys (.destroy i) s') :
    (g.enter key s' (.destroy i)).Inv key := by
  have hi' := (hg.sys.step hs).1
  obtain ⟨h, hget, hs⟩ := Option.bind_eq_some_iff.mp hs
  obtain ⟨⟨a', m'⟩, he, rfl⟩ := System.call_ok hs
  obtain ⟨K, hK, hset⟩ := System.live_at hget
  by_cases ho : (h.alloc.ok && h.alloc.owner) = true
  · obtain ⟨ho', -⟩ | ⟨-, rfl, -⟩ := destruct_cases he
    · rw [ho] at ho'
      cases ho'
    · exact hg.drops hi' hget hK (hset _) he
  · obtain ⟨-, rfl, rfl⟩ | ⟨ho', -⟩ := destruct_cases he
    · simp only [enter, dropped_eq hget, if_neg ho, Nat.add_zero]
      exact hg.same hi' (by rw [System.live, System.set_self hget]; exact .refl _) rfl rfl rfl
    · exact absurd ho' ho

theorem Inv.moveAssign (hg : g.Inv key) {i j : Nat}
    (hs : System.Step key g.sys (.moveAssign i j) s') :
    (g.enter key s' (.moveAssign i j)).Inv key := by
  have hi' := (hg.sys.step hs).1
  obtain ⟨dst, hdst, hs⟩ := Option.bind_eq_some_iff.mp hs
  obtain ⟨src, hsrc, hs⟩ := Option.bind_eq_some_iff.mp hs
  split at hs
  · rename_i hij
    cases hs
    simp only [enter, if_pos hij, Nat.add_zero]
    exact hg
  · rename_i hij
    obtain ⟨⟨a', m'⟩, he, rfl⟩ := System.call_ok hs
    obtain ⟨K, hK, hset⟩ := System.live_assign hdst hsrc hij
    simp only [enter, if_neg hij]
    exact hg.drops hi' hdst hK hset he

theorem Inv.release (hg : g.Inv key) {i : Nat} {tokens : List TokenId}
    {ws : List (WorkerId × WorkerAct)} (hs : System.Step key g.sys (.release i tokens ws) s') :
    (g.enter key s' (.release i tokens ws)).Inv key := by
  have hi' := (hg.sys.step hs).1
  obtain ⟨h, hget, ⟨-, hag⟩, ⟨a', m'⟩, he, rfl⟩ := System.release_call hs
  by_cases hok : h.alloc.ok = true
  · obtain ⟨K, hK, hset⟩ := System.live_cons hget hok
    have hgood := hg.sys.perm hK
    obtain ⟨n, t, p, G, hins, hup⟩ := release_freed hgood.books hok
      (System.agrees_take (hgood.handles h List.mem_cons_self) hag) he
    have hpub : published key g.sys i tokens = (n, h.alloc.freshBlocks.length - n) := by
      simp only [published, hget, hok, if_true, hins]
    obtain ⟨-, ⟨hno, -⟩ | ⟨-, rfl, -⟩⟩ := release_handle he
    · rw [hok] at hno
      cases hno
    · simp only [enter, hpub]
      exact hg.ends hi' hK (hset _ rfl) hup (release_meter he)
  · have hpub : published key g.sys i tokens = (0, 0) := by
      simp [published, hget, hok]
    obtain ⟨-, rfl, rfl⟩ | ⟨hok', -⟩ := release_cases he
    · simp only [enter, hpub, Nat.add_zero]
      exact hg.same hi' (by rw [System.live, System.set_self hget]; exact .refl _) rfl rfl rfl
    · exact absurd hok' hok

theorem Inv.step (hg : g.Inv key) {op : Op} (hs : Step key g op g') : g'.Inv key := by
  obtain ⟨s', hx, rfl⟩ := Option.map_eq_some_iff.mp hs
  have hs := System.step_of_step? hx
  have hi' := (hg.sys.step hs).1
  cases op with
  | acquire tokens => exact hg.acquire hs
  | moveAssign i j => exact hg.moveAssign hs
  | destroy i => exact hg.destroy hs
  | release i tokens ws => exact hg.release hs
  | construct =>
    cases hs
    exact hg.same hi' (System.live_append _ _) rfl rfl rfl
  | moveConstruct i =>
    obtain ⟨h, hget, hs⟩ := Option.bind_eq_some_iff.mp hs
    cases hs
    obtain ⟨K, hK, hset⟩ := System.live_at hget
    refine hg.same hi' ?_ rfl rfl rfl
    exact ((System.live_append _ h).trans ((hset h.disarm).append_left _)).trans hK.symm
  | ready i =>
    obtain ⟨h, -, hs⟩ := Option.bind_eq_some_iff.mp hs
    obtain ⟨⟨b, m'⟩, he, rfl⟩ := System.call_ok hs
    obtain rfl | rfl := ready_cases he
    · exact hg.same hi' (.refl _) rfl rfl rfl
    · exact hg.same hi' (.refl _) rfl (drain_freed _) rfl
  | wait =>
    obtain ⟨p, hp, hs⟩ := Option.bind_eq_some_iff.mp hs
    obtain ⟨-, rfl⟩ := waitForMigrations_ok hp
    cases hs
    exact hg.same hi' (.refl _) rfl (drain_freed _) rfl
  | worker w act =>
    obtain ⟨p, hp, hs⟩ := Option.bind_eq_some_iff.mp hs
    cases hs
    exact hg.same hi' (.refl _) rfl (SameBooks.workerStep hp).freed rfl

/-- **The totals balance after every run.** -/
theorem flow_conserved {m₀ : CacheManager} {specs : List TierSpec} {cfg : CacheConfig}
    {options : Options} {mem : Arena.Mem TierIndex UInt8} {tr : List Op}
    (h0 : CacheManager.create specs cfg options mem = .ok m₀)
    (hfit : (specs.map (·.numBlocks)).sum < 2 ^ 32)
    (hrun : Run (Step key) { sys := System.start m₀ } tr g) : g.Conserved := by
  have hinit : Inv key { sys := System.start m₀ } := by
    obtain ⟨hp, -, ht, -⟩ := System.create_ok h0
    have hst : m₀.stats = {} := by
      obtain ⟨p, -, h⟩ := Lockstep.bind_ok h0
      obtain ⟨t, -, h⟩ := Lockstep.bind_ok h
      cases h
      rfl
    obtain ⟨_, states, _, hfresh⟩ := init_ok hp
    refine ⟨System.start_inv h0 hfit, rfl, ?_, ?_, ?_, Nat.le_refl _⟩
    · show 0 = m₀.tree.storedBlocks + m₀.stats.evictedBlocks
      rw [ht, hst]
      rfl
    · show m₀.pool.freed.length = m₀.stats.evictedBlocks + 0
      rw [hfresh, hst]
      rfl
    · show m₀.stats.meter = _
      rw [hst]
      rfl
  exact Inv.conserved (hrun.invariant (fun _ _ _ hg hs => hg.step hs) hinit)

/-- Two of three blocks are adopted, one dropped handle gives a block back, and a last request takes
an adopted one out again. -/
def turnover : List Op :=
  [.acquire [1, 2, 3, 4, 5], .release 0 [1, 2, 3, 4, 5] [], .acquire [1, 2, 9], .destroy 1,
    .acquire [1, 2, 7, 8, 9, 6]]

theorem flow_conserved_turnover : ∃ m₀ g, CacheManager.create [⟨some ⟨64, true⟩, 3⟩]
    System.twoTierConfig {} (fun _ _ => 0) = .ok m₀ ∧
    Run (Step blockKey) { sys := System.start m₀ } turnover g ∧
    (g.granted, g.adopted, g.returned) = (6, 2, 2) ∧ g.sys.mgr.stats.evictedBlocks = 1 ∧
    g.Conserved := by
  have hs : ((CacheManager.create [⟨some ⟨64, true⟩, 3⟩] System.twoTierConfig {}
      (fun _ _ => 0)).toOption.bind fun m₀ =>
        (exec (next blockKey) { sys := System.start m₀ } turnover).map fun g =>
          ((g.granted, g.adopted, g.returned), g.sys.mgr.stats.evictedBlocks)) =
      some ((6, 2, 2), 1) := by
    decide +kernel
  obtain ⟨m₀, h0, hm⟩ := Option.bind_eq_some_iff.mp hs
  obtain ⟨g, hx, hv⟩ := Option.map_eq_some_iff.mp hm
  simp only [Prod.mk.injEq] at hv
  obtain ⟨⟨h1, h2, h3⟩, h4⟩ := hv
  have hc := toOption_eq_some h0
  have hrun : Run (Step blockKey) { sys := System.start m₀ } turnover g := run_of_exec hx
  exact ⟨m₀, g, hc, hrun, by rw [h1, h2, h3], h4, flow_conserved hc (by decide) hrun⟩

end Flow

end KvsLab
