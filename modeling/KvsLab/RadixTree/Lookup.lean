import KvsLab.RadixTree.Operations

/-!
# `match_prefix` looks the longest cached prefix up

* `cached t` — the map from block-aligned token prefixes to block ids, read off the paths from the
  root.
* `Kept t t'` — every node of `t` is in `t'` with its address, lock count and full token path, and
  at most one node is new.
* `Longest` — what a match result says about `cached`.
* `TreeState.longest_cached_prefix` — in every reachable tree `match_prefix` returns the longest
  cached prefix and keeps the map and the nodes.
-/

namespace KvsLab

open KeyedForest Transition

namespace RadixTree

variable {key : List TokenId → UInt64} {t t' : RadixTree} {path : List TokenId} {b : BlockId}

/-! ## The map a tree stores -/

/-- The block cached for the token prefix `path`. -/
def cached (t : RadixTree) (path : List TokenId) : Option BlockId :=
  ((entries t.blockTokens t.places).find? fun e => e.path == path).map (·.block)

theorem WF.cached_eq_some (h : WF key t) :
    t.cached path = some b ↔ ∃ lock, ⟨path, b, lock⟩ ∈ entries t.blockTokens t.places := by
  unfold cached
  constructor
  · intro hc
    obtain ⟨e, he, rfl⟩ := Option.map_eq_some_iff.mp hc
    have hp : e.path = path := by simpa using List.find?_some he
    exact ⟨e.lock, hp ▸ List.mem_of_find?_eq_some he⟩
  · rintro ⟨lock, hm⟩
    have hsome : ((entries t.blockTokens t.places).find? fun e => e.path == path).isSome := by
      rw [List.find?_isSome]
      exact ⟨_, hm, by simp⟩
    obtain ⟨e, he⟩ := Option.isSome_iff_exists.mp hsome
    have hp : e.path = path := by simpa using List.find?_some he
    have heq := h.entry_inj (List.mem_of_find?_eq_some he) hm hp
    rw [he, heq]
    rfl

theorem WF.cached_ne_none (h : WF key t) :
    t.cached path ≠ none ↔ ∃ e ∈ entries t.blockTokens t.places, e.path = path := by
  rw [Option.ne_none_iff_exists']
  constructor
  · rintro ⟨b, hb⟩
    obtain ⟨lock, hm⟩ := h.cached_eq_some.mp hb
    exact ⟨_, hm, rfl⟩
  · rintro ⟨e, he, rfl⟩
    exact ⟨e.block, h.cached_eq_some.mpr ⟨e.lock, he⟩⟩

theorem Reshaped.cached (h : Reshaped key t t') : t'.cached = t.cached := by
  unfold RadixTree.cached
  rw [h.blockTokens, h.entries]

/-! ## Nodes that stay -/

/-- Every node of `t` is in `t'` with its address, lock count and token path, and at most one node
is new. -/
structure Kept (t t' : RadixTree) : Prop where
  nodes : ∀ x ∈ t.places, ∃ y ∈ t'.places, y.2.id = x.2.id ∧ y.2.lockCount = x.2.lockCount ∧
    y.1.toks ++ y.2.tokens = x.1.toks ++ x.2.tokens
  ids : (ids t'.places).Perm (ids t.places) ∨
    ∃ i, i ∉ RadixTree.ids t.places ∧ (RadixTree.ids t'.places).Perm (i :: RadixTree.ids t.places)

/-- A walk keeps every node. -/
theorem WF.runWalk_kept (h : WF key t) {tokens : List TokenId} {limit : Nat} {w : Walk}
    (he : t.runWalk key tokens limit = .ok (t', w)) : Kept t t' := by
  obtain ⟨f', w', M, L, hwalk, hw⟩ := walk_spec h.bt_pos t.children .top
    { clock := t.clock, nextNode := t.nextNode, numNodes := t.numNodes, rest := tokens.take limit }
    h.nodes h.keyed
  unfold RadixTree.runWalk at he
  rw [hwalk] at he
  cases he
  rcases hw.change with ⟨ht, -, -⟩ | ⟨n, j, f₁, -, hj, hs, ht, -, -⟩
  · refine ⟨fun x hx => ?_, .inl (.of_eq (ht.ids .top))⟩
    obtain ⟨y, hy, hxy⟩ := ht.sameNode .top x hx
    exact ⟨y, hy, hxy.id, hxy.lock, hxy.toks⟩
  · have hfresh : t.nextNode ∉ ids t.places := fun hm => Nat.lt_irrefl _ (h.ids_lt _ hm).2
    have hp := hs.splitPlaces hj h.ids_nodup hfresh
    constructor
    · intro x hx
      obtain ⟨y, hy, hxy⟩ := hp.sameNode x hx
      obtain ⟨z, hz, hyz⟩ := ht.sameNode .top y hy
      exact ⟨z, hz, (hxy.trans hyz).id, (hxy.trans hyz).lock, (hxy.trans hyz).toks⟩
    · refine .inr ⟨t.nextNode, hfresh, ?_⟩
      exact (List.Perm.of_eq (ht.ids .top)).trans hp.ids

/-! ## The longest match -/

/-- `r` is the longest prefix of `tokens` that `t` has cached, and `r.node` is where it ends in
`t'`. -/
structure Longest (t : RadixTree) (tokens : List TokenId) (r : MatchResult) (t' : RadixTree) :
    Prop where
  numTokens : r.numTokens = r.blocks.length * t.blockTokens ∧ r.numTokens ≤ tokens.length
  inMap : r.numTokens ≠ 0 → t.cached (tokens.take r.numTokens) ≠ none
  longest : ∀ path, path <+: tokens → t.cached path ≠ none → path.length ≤ r.numTokens
  blocks : ∀ i < r.blocks.length,
    t.cached (tokens.take ((i + 1) * t.blockTokens)) = r.blocks[i]?
  node : r.node = none ↔ r.numTokens = 0
  covers : ∀ i, r.node = some i →
    ∃ x ∈ t'.places, x.2.id = i ∧ x.1.toks ++ x.2.tokens = tokens.take r.numTokens

theorem Matched.longest_cached (h : WF key t) {tokens : List TokenId} {r : MatchResult}
    (hm : Matched key t tokens r t') : Longest t tokens r t' := by
  have hbt := h.bt_pos
  have hblocks : ∀ i < r.blocks.length,
      t.cached (tokens.take ((i + 1) * t.blockTokens)) = r.blocks[i]? := by
    intro i hi
    obtain ⟨b, hb⟩ : ∃ b, r.blocks[i]? = some b := ⟨_, List.getElem?_eq_getElem hi⟩
    rw [hb]
    exact h.cached_eq_some.mpr (hm.found i b hb)
  have hzero : r.numTokens = 0 ↔ r.blocks = [] := by
    rw [hm.numTokens, Nat.mul_eq_zero, List.length_eq_zero_iff]
    constructor
    · rintro (h' | h')
      · exact h'
      · omega
    · exact .inl
  refine ⟨⟨hm.numTokens, hm.le⟩, ?_, ?_, hblocks, ?_, ?_⟩
  · intro hne
    have hpos : 0 < r.blocks.length := List.length_pos_of_ne_nil fun e => hne (hzero.mpr e)
    have hlast := hblocks (r.blocks.length - 1) (by omega)
    rw [Nat.sub_add_cancel hpos, ← hm.numTokens, List.getElem?_eq_getElem (by omega)] at hlast
    rw [hlast]
    exact Option.some_ne_none _
  · intro path hp hc
    obtain ⟨e, he, rfl⟩ := h.cached_ne_none.mp hc
    exact hm.longest e he hp
  · rw [hzero]
    rcases hm.node with ⟨h1, h2⟩ | ⟨i, h1, h2, -⟩
    · exact ⟨fun _ => h1, fun _ => h2⟩
    · rw [h1]
      exact ⟨fun e => (by cases e), fun e => absurd e h2⟩
  · intro i hi
    rcases hm.node with ⟨-, h2⟩ | ⟨i', h1, -, x, hx, hid, hT, -⟩
    · rw [h2] at hi
      cases hi
    · rw [h1] at hi
      cases hi
      exact ⟨x, hx, hid, hT⟩

end RadixTree

open RadixTree

namespace TreeState

variable {key : List TokenId → UInt64} {s : TreeState}

/-- **`match_prefix` returns the longest cached prefix** of any tokens, in every tree reachable by
the tree's operations, and leaves the map, the pool and every node with its lock count and token
path as they were. -/
theorem longest_cached_prefix {bt : Nat} {t₀ : RadixTree} {p₀ : BlockPool} {tr : List TreeOp}
    (h0 : RadixTree.create bt = .ok t₀)
    (hrun : Run (Step key) { tree := t₀, pool := p₀ } tr s) (tokens : List TokenId) :
    ∃ r t', s.tree.matchPrefix key tokens = .ok (r, t') ∧
      Step key s (.matchPrefix tokens) { s with tree := t' } ∧
      Longest s.tree tokens r t' ∧ t'.cached = s.tree.cached ∧
      t'.storedBlocks = s.tree.storedBlocks ∧ Kept s.tree t' := by
  have h := (reach h0 hrun).wf
  obtain ⟨r, t', he, hm⟩ := h.matchPrefix tokens
  refine ⟨r, t', he, ?_, hm.longest_cached h, hm.reshaped.cached, ?_, ?_⟩
  · simp only [Step, next, he]
    rfl
  · rw [h.storedBlocks, hm.reshaped.wf.storedBlocks, hm.reshaped.blocksOf]
  · obtain ⟨w, hq⟩ := matchPrefix_walk he
    exact h.runWalk_kept hq

/-- Two blocks are cached under one node; all keys collide. -/
def oneNodeTrace : List TreeOp :=
  [.pool .allocate, .pool .allocate, .insert [1, 2, 3, 4] [0, 1]]

/-- The match ends inside the node, which is split. -/
theorem longest_cached_prefix_split : ∃ p₀ t₀ s r t',
    BlockPool.init BlockPool.smallConfig BlockPool.smallSpecs (fun _ _ => 0) = .ok p₀ ∧
    RadixTree.create 2 = .ok t₀ ∧
    Run (Step fun _ => 0) { tree := t₀, pool := p₀ } oneNodeTrace s ∧
    s.tree.matchPrefix (fun _ => 0) [1, 2, 9, 9, 7] = .ok (r, t') ∧
    r = { numTokens := 2, blocks := [0], node := some 2 } ∧
    Longest s.tree [1, 2, 9, 9, 7] r t' ∧ Kept s.tree t' := by
  have h : ((BlockPool.init BlockPool.smallConfig BlockPool.smallSpecs fun _ _ => 0).toOption.bind
      fun p => (RadixTree.create 2).toOption.bind fun t =>
        (exec (next fun _ => 0) { tree := t, pool := p } oneNodeTrace).bind fun s =>
          (s.tree.matchPrefix (fun _ => 0) [1, 2, 9, 9, 7]).toOption.map (·.1)) =
        some { numTokens := 2, blocks := [0], node := some 2 } := by
    decide +kernel
  obtain ⟨p, hp, h⟩ := Option.bind_eq_some_iff.mp h
  obtain ⟨t, ht, h⟩ := Option.bind_eq_some_iff.mp h
  obtain ⟨s, hs, h⟩ := Option.bind_eq_some_iff.mp h
  obtain ⟨r, hr, h⟩ := Option.map_eq_some_iff.mp h
  have hrun := run_of_exec hs
  have h0 := BlockPool.toOption_eq_some ht
  obtain ⟨r', t', he, -, hl, -, -, hk⟩ := longest_cached_prefix h0 hrun [1, 2, 9, 9, 7]
  cases (BlockPool.toOption_eq_some hr).symm.trans he
  exact ⟨p, t, s, r', t', BlockPool.toOption_eq_some hp, h0, hrun, he, h, hl, hk⟩

end TreeState

end KvsLab
