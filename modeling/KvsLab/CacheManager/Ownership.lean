import KvsLab.CacheManager.System

/-!
# Ownership and pins over whole runs

* `start_inv`, `reach` — the invariant holds in every state a program reaches.
* `ownership_partition` — every allocated block has one reference, held by the tree or by one
  live handle, and no call ends in a fault.
* `pin_accounting` — lock counts count the live handles pinned at a node or below it, and the
  path to a handle's pinned node is its cached prefix.
-/

namespace KvsLab

open RadixTree BlockPool CacheManager Transition

namespace System

variable {key : List TokenId → UInt64} {s s' : System} {m₀ : CacheManager} {h : Handle}
  {specs : List TierSpec} {cfg : CacheConfig} {options : Options}
  {mem : Arena.Mem TierIndex UInt8} {tr : List Op}

/-! ## Reachable states -/

/-- A manager no handle has been taken from. -/
def start (m : CacheManager) : System := { mgr := m }

/-- A step that returns, as a function. -/
def step? (key : List TokenId → UInt64) (s : System) (op : Op) : Option System :=
  (s.next key op).bind Except.toOption

theorem step_of_step? {op : Op} (h : s.step? key op = some s') : Step key s op s' := by
  obtain ⟨r, hr, hs⟩ := Option.bind_eq_some_iff.mp h
  rw [toOption_eq_some hs] at hr
  exact hr

theorem run_of_step? (h : exec (step? key) s tr = some s') : Run (Step key) s tr s' :=
  (run_of_exec h).mono fun _ _ _ => step_of_step?

theorem create_ok (h : CacheManager.create specs cfg options mem = .ok m₀) :
    BlockPool.init cfg specs mem = .ok m₀.pool ∧ 0 < cfg.blockTokens ∧
      m₀.tree = { blockTokens := cfg.blockTokens } ∧ m₀.cfg = cfg := by
  unfold CacheManager.create RadixTree.create at h
  cases hp : BlockPool.init cfg specs mem with
  | error e => rw [hp] at h; cases h
  | ok pool =>
    rw [hp] at h
    by_cases hbt : cfg.blockTokens = 0
    · simp only [hbt, if_true, bind, Except.bind] at h
      cases h
    · simp only [if_neg hbt, bind, Except.bind, pure, Except.pure, Except.ok.injEq] at h
      subst h
      exact ⟨rfl, Nat.pos_of_ne_zero hbt, rfl, rfl⟩

theorem start_inv (h0 : CacheManager.create specs cfg options mem = .ok m₀)
    (hfit : (specs.map (·.numBlocks)).sum < 2 ^ 32) : (start m₀).Inv key := by
  obtain ⟨hp, hbt, ht, hc⟩ := create_ok h0
  obtain ⟨_, states, _, hfresh⟩ := init_ok hp
  refine ⟨⟨init_inv hp hfit, ?_, ?_, ?_, ?_, nofun⟩, nofun, ?_, nofun, List.nodup_nil, nofun⟩
  · show WF key m₀.tree
    rw [ht]
    exact wf_new key hbt
  · intro id
    show m₀.pool.refcount id = (held [] m₀.tree).count id
    rw [hfresh, ht]
    rfl
  · show (held [] m₀.tree).Nodup
    rw [ht]
    exact List.nodup_nil
  · show LockOK [] m₀.tree.places
    rw [ht]
    exact nofun
  · show m₀.tree.blockTokens = m₀.cfg.blockTokens
    rw [ht, hc]

theorem Inv.step (hi : s.Inv key) {op : Op} (hs : Step key s op s') :
    s'.Inv key ∧ Evolves key s op s' := by
  obtain ⟨s₁, he, hi', hev⟩ := next_spec hi hs
  cases he
  exact ⟨hi', hev⟩

theorem Inv.run (hi : s.Inv key) (hr : Run (Step key) s tr s') : s'.Inv key :=
  hr.invariant (fun _ _ _ hi hs => (hi.step hs).1) hi

/-- **The invariant holds in every reachable state.** -/
theorem reach (h0 : CacheManager.create specs cfg options mem = .ok m₀)
    (hfit : (specs.map (·.numBlocks)).sum < 2 ^ 32) (hr : Run (Step key) (start m₀) tr s) :
    s.Inv key := (start_inv h0 hfit).run hr

/-! ## Ownership -/

/-- All positions of all nodes' blocks, the root's included. -/
def treeBlocks (t : RadixTree) : List BlockId :=
  t.root.blocks ++ t.children.vals.flatMap (·.blocks)

/-- Fresh blocks of the live handles. -/
def freshBlocks (s : System) : List BlockId := s.live.flatMap (·.alloc.freshBlocks)

/-- Blocks by owner. -/
def owned (s : System) : List BlockId := treeBlocks s.mgr.tree ++ s.freshBlocks

theorem treeBlocks_eq {t : RadixTree} (h : WF key t) : treeBlocks t = blocksOf t.places := by
  unfold treeBlocks RadixTree.blocksOf
  rw [h.root.2.2.1, List.nil_append, ← KeyedForest.map_snd_places t.children Ctx.top,
    List.flatMap_map]
  rfl

theorem owned_eq (hi : s.Inv key) : s.owned = held (s.live.map Handle.claim) s.mgr.tree := by
  unfold owned held freshBlocks
  rw [treeBlocks_eq (Good.books hi).wf, List.flatMap_map]
  rfl

/-- Every allocated block has one reference and one owner, and no other block has an owner. -/
structure Partitioned (s : System) : Prop where
  allocated : ∀ id, s.mgr.pool.refcount id ≠ 0 →
    s.mgr.pool.refcount id = 1 ∧ s.owned.count id = 1
  free : ∀ id, s.mgr.pool.refcount id = 0 → id ∉ s.owned
  numUsed : s.mgr.pool.numUsed = (treeBlocks s.mgr.tree).length + s.freshBlocks.length

theorem numUsed_eq {p : BlockPool} (h : p.Inv) : p.numUsed = p.allocatedIds.length := by
  have := h.ids_perm.length_eq
  rw [List.length_append, List.length_range] at this
  unfold BlockPool.numUsed
  omega

theorem Inv.partitioned (hi : s.Inv key) : Partitioned s := by
  have hb := Good.books hi
  have ho := owned_eq hi
  refine ⟨fun id hr => ?_, fun id hr hm => ?_, ?_⟩
  · have hm := hb.held_iff.mp hr
    rw [ho]
    exact ⟨hb.refcount_one hm, List.count_eq_one_of_mem hb.nodup hm⟩
  · exact hb.held_iff.mpr (ho ▸ hm) hr
  · rw [numUsed_eq hb.inv, ← List.length_append]
    have hn : s.mgr.pool.allocatedIds.Nodup := List.nodup_range.filter _
    have hmem : ∀ id, id ∈ s.mgr.pool.allocatedIds ↔ id ∈ s.owned := fun id => by
      rw [mem_allocatedIds hb.inv, ho]
      exact hb.held_iff
    exact ((List.perm_ext_iff_of_nodup hn (ho ▸ hb.nodup)).mpr hmem).length_eq

/-- **Ownership partition.**  In every state a program reaches, every allocated block has exactly
one reference and occurs exactly once among the blocks of the tree and the fresh blocks of live
handles, every other id occurs in neither, `num_used` is the sum of the two, and whatever the
program does next returns: no `fatal`, no assertion. -/
theorem ownership_partition (h0 : CacheManager.create specs cfg options mem = .ok m₀)
    (hfit : (specs.map (·.numBlocks)).sum < 2 ^ 32) (hrun : Run (Step key) (start m₀) tr s) :
    Partitioned s ∧ ∀ op r, s.next key op = some r → ∃ s', r = .ok s' := by
  have hi := reach h0 hfit hrun
  refine ⟨hi.partitioned, fun op r he => ?_⟩
  obtain ⟨s', hr, _⟩ := next_spec hi he
  exact ⟨s', hr⟩

/-- Blocks of two tokens, four compute slots and four spill slots. -/
def twoTierConfig : CacheConfig :=
  { numBlocks := 0, blockTokens := 2, numLayers := 1, numKvHeads := 1, headDim := 1, dtypeBytes := 1 }

def twoTierSpecs : List TierSpec := [⟨some ⟨64, true⟩, 4⟩, ⟨some ⟨64, true⟩, 4⟩]

/-- A sequence is published, extended under a pin, and its node split by a second request while
the pin is held; the first handle is moved and the second one dropped. -/
def splitTrace : List Op :=
  [.acquire [1, 2, 3, 4], .release 0 [1, 2, 3, 4] [], .acquire [1, 2, 3, 4, 5, 6], .construct,
    .moveAssign 2 1, .acquire [1, 2, 9], .destroy 3]

/-- The manager after `splitTrace`, with the lock counts and tables of the live handles. -/
theorem splitTrace_runs : ∃ m₀ s, CacheManager.create twoTierSpecs twoTierConfig {} (fun _ _ => 0) =
      .ok m₀ ∧ Run (Step blockKey) (start m₀) splitTrace s ∧
    s.mgr.tree.places.map (fun x => (x.2.id, x.2.lockCount)) = [(2, 1), (1, 1)] ∧
    s.live.map (·.alloc.blocks) = [[0, 1, 2]] := by
  have hs : ((CacheManager.create twoTierSpecs twoTierConfig {} (fun _ _ => 0)).toOption.bind
      fun m₀ => (exec (step? blockKey) (start m₀) splitTrace).map fun s =>
        (s.mgr.tree.places.map (fun x => (x.2.id, x.2.lockCount)),
          s.live.map (·.alloc.blocks))) = some ([(2, 1), (1, 1)], [[0, 1, 2]]) := by
    decide +kernel
  obtain ⟨m₀, h0, hm⟩ := Option.bind_eq_some_iff.mp hs
  obtain ⟨s, hx, he⟩ := Option.map_eq_some_iff.mp hm
  exact ⟨m₀, s, toOption_eq_some h0, run_of_step? hx, (Prod.mk.inj he).1, (Prod.mk.inj he).2⟩

theorem ownership_partition_split : ∃ s : System, s.live.map (·.alloc.blocks) = [[0, 1, 2]] ∧
    Partitioned s := by
  obtain ⟨m₀, s, h0, hr, _, hl⟩ := splitTrace_runs
  exact ⟨s, hl, (ownership_partition h0 (by decide) hr).1⟩

/-! ## Pins -/

/-- Whether a handle is pinned at node `n` or below it. -/
def pinnedBelow (t : RadixTree) (n : NodeId) (h : Handle) : Bool :=
  h.alloc.pinned.any (below t.places n)

/-- Lock counts count pins, in 32 bits while there are fewer handles, and pins hold the cached
prefixes in place. -/
structure PinsCounted (s : System) : Prop where
  locks : ∀ x ∈ s.mgr.tree.places,
    x.2.lockCount = s.live.countP (pinnedBelow s.mgr.tree x.2.id)
  word : s.live.length < 2 ^ 32 → ∀ x ∈ s.mgr.tree.places, x.2.lockCount < 2 ^ 32
  null : ∀ h ∈ s.live, h.alloc.pinned = none ↔ h.alloc.cachedBlocks = 0
  path : ∀ h ∈ s.live, ∀ i, h.alloc.pinned = some i →
    Covers s.mgr.tree.places i (h.tokens.take h.alloc.cachedTokens)
      (h.alloc.blocks.take h.alloc.cachedBlocks)

theorem countP_pins (f : NodeId → Bool) : ∀ L : List Handle,
    (pinsOf (L.map Handle.claim)).countP f = L.countP fun h => h.alloc.pinned.any f
  | [] => rfl
  | h :: L => by
    have ih := countP_pins f L
    unfold pinsOf at ih ⊢
    rw [List.map_cons, List.filterMap_cons, List.countP_cons]
    have hp : h.claim.pinned = h.alloc.pinned := rfl
    rw [hp]
    cases h.alloc.pinned with
    | none => simpa using ih
    | some i =>
      simp only [Option.any_some, List.countP_cons]
      rw [ih]

theorem Inv.pinsCounted (hi : s.Inv key) : PinsCounted s := by
  have hb := Good.books hi
  have hmem : ∀ h ∈ s.live, h.claim ∈ s.live.map Handle.claim := fun h hh => List.mem_map_of_mem hh
  have hlocks : ∀ x ∈ s.mgr.tree.places,
      x.2.lockCount = s.live.countP (pinnedBelow s.mgr.tree x.2.id) := fun x hx => by
    rw [hb.locks x hx]
    exact countP_pins _ _
  refine ⟨hlocks, fun hlive x hx => ?_, fun h hh => ?_, fun h hh i hp => ?_⟩
  · rw [hlocks x hx]
    exact Nat.lt_of_le_of_lt List.countP_le_length hlive
  · have hle := (Good.handles hi h hh).le_blocks
    have hlen : (h.claim.cached).length = h.alloc.cachedBlocks := by
      show (h.alloc.blocks.take _).length = _
      rw [List.length_take]
      exact Nat.min_eq_left hle
    rcases hb.pins _ (hmem h hh) with ⟨h1, _, h2⟩ | ⟨i, h1, h2, _⟩
    · rw [h2] at hlen
      exact ⟨fun _ => hlen.symm, fun _ => h1⟩
    · have hpin : h.alloc.pinned = some i := h1
      rw [hpin, ← hlen]
      exact ⟨nofun, fun h0 => absurd (List.eq_nil_of_length_eq_zero h0) h2⟩
  · rcases hb.pins _ (hmem h hh) with ⟨h1, _⟩ | ⟨j, h1, _, h2⟩
    · have : h.alloc.pinned = none := h1
      rw [hp] at this
      cases this
    · have hj : h.alloc.pinned = some j := h1
      rw [hp] at hj
      cases hj
      exact h2

/-- No eviction drops a block of a live handle's cached prefix. -/
theorem Inv.evict_keeps (hi : s.Inv key) {n k : Nat} {t' : RadixTree} {p' : BlockPool}
    (he : s.mgr.tree.evict key s.mgr.pool n = .ok (k, t', p')) :
    ∀ h ∈ s.live, ∀ b ∈ h.alloc.blocks.take h.alloc.cachedBlocks,
      b ∈ treeBlocks t' ∧ p'.refcount b = 1 := by
  have hb := Good.books hi
  obtain ⟨D, t₁, he', hp, _⟩ := hb.wf.evict hb.inv hb.sole n
  rw [he'] at he
  cases he
  have hb' := (hb.pruned hp).1
  intro h hh b hbm
  have hc : h.claim ∈ s.live.map Handle.claim := List.mem_map_of_mem hh
  have ht := hb'.cached_tree hc hbm
  exact ⟨treeBlocks_eq hb'.wf ▸ ht, hb'.refcount_one (Books.mem_held_tree _ ht)⟩

/-- **Pin accounting.**  In every state a program reaches, each lock count is the number of live
handles pinned at the node or below it, a live handle's pin is null exactly when nothing was
cached for it, and otherwise the path from the root to the pinned node holds exactly its cached
tokens and blocks.  So no unlock is unbalanced, and no eviction takes a block of a live handle's
cached prefix. -/
theorem pin_accounting (h0 : CacheManager.create specs cfg options mem = .ok m₀)
    (hfit : (specs.map (·.numBlocks)).sum < 2 ^ 32) (hrun : Run (Step key) (start m₀) tr s) :
    PinsCounted s ∧ (∀ op r, s.next key op = some r → ∃ s', r = .ok s') ∧
    ∀ n k t' p', s.mgr.tree.evict key s.mgr.pool n = .ok (k, t', p') →
      ∀ h ∈ s.live, ∀ b ∈ h.alloc.blocks.take h.alloc.cachedBlocks,
        b ∈ treeBlocks t' ∧ p'.refcount b = 1 := by
  have hi := reach h0 hfit hrun
  refine ⟨hi.pinsCounted, fun op r he => ?_, fun n k t' p' he => hi.evict_keeps he⟩
  obtain ⟨s', hr, _⟩ := next_spec hi he
  exact ⟨s', hr⟩

theorem pin_accounting_split : ∃ s : System,
    s.mgr.tree.places.map (fun x => (x.2.id, x.2.lockCount)) = [(2, 1), (1, 1)] ∧
    PinsCounted s := by
  obtain ⟨m₀, s, h0, hr, hp, _⟩ := splitTrace_runs
  exact ⟨s, hp, (pin_accounting h0 (by decide) hr).1⟩

end System

end KvsLab
