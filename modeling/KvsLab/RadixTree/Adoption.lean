import KvsLab.RadixTree.Lookup

/-!
# `insert` adds exactly the missing suffix, or nothing

* `Grown.cached_iff` — what a new leaf adds to the map of cached prefixes.
* `Found.occupied` — a child in the slot of the next block holds other tokens there, so a refused
  insert met a collision of keys.
* `TreeState.insert_exact` — the three ends of `insert` in every reachable tree, over the map.
-/

namespace KvsLab

open KeyedForest Transition

namespace RadixTree

variable {key : List TokenId → UInt64} {t t' : RadixTree} {tokens : List TokenId}
  {blocks : List BlockId} {k m limit : Nat} {x : Place} {w : Walk}

/-! ## The map after an insert -/

theorem WF.grown_cached (hw : WF key t) (hg : Grown key t tokens blocks k m x t')
    {path : List TokenId} {b : BlockId} :
    t'.cached path = some b ↔ t.cached path = some b ∨
      ∃ i, k ≤ i ∧ i < m ∧ path = tokens.take ((i + 1) * t.blockTokens) ∧ blocks[i]? = some b := by
  rw [hg.wf.cached_eq_some, hw.cached_eq_some, hg.blockTokens]
  have hmem : ∀ e, e ∈ entries t.blockTokens t'.places ↔
      e ∈ placeEntries t.blockTokens x ∨ e ∈ entries t.blockTokens t.places := fun e => by
    rw [(hg.leaf.entries t.blockTokens).mem_iff, List.mem_append]
  constructor
  · rintro ⟨lock, he⟩
    rcases (hmem _).mp he with he | he
    · obtain ⟨i, b', hk, hi, hb, e⟩ := hg.mem_leaf.mp he
      cases e
      exact .inr ⟨i, hk, hi, rfl, hb⟩
    · exact .inl ⟨lock, he⟩
  · rintro (⟨lock, he⟩ | ⟨i, hk, hi, rfl, hb⟩)
    · exact ⟨lock, (hmem _).mpr (.inr he)⟩
    · exact ⟨0, (hmem _).mpr (.inl (hg.mem_leaf.mpr ⟨i, b, hk, hi, hb, rfl⟩))⟩

/-- The walk passed exactly the leading blocks that are cached. -/
theorem Found.cached_iff (hw : WF key t) (hf : Found key t tokens (m * t.blockTokens) t' w)
    (hm : m * t.blockTokens ≤ tokens.length) {i : Nat} (hi : i < m) :
    t.cached (tokens.take ((i + 1) * t.blockTokens)) ≠ none ↔ i < w.blocks.length := by
  have hmul : (i + 1) * t.blockTokens ≤ m * t.blockTokens := Nat.mul_le_mul_right _ hi
  rw [hw.cached_ne_none]
  constructor
  · rintro ⟨e, he, hp⟩
    have hlen := hf.longest e he (hp ▸ List.take_prefix_take_left hmul)
    rw [hp, List.length_take, Nat.min_eq_left (hmul.trans hm), hf.aligned] at hlen
    exact Nat.le_of_mul_le_mul_right hlen hw.bt_pos
  · intro hlt
    obtain ⟨lock, he⟩ := hf.found i _ (List.getElem?_eq_getElem hlt)
    exact ⟨_, he, rfl⟩

/-- A child in the slot of the next block holds other tokens there. -/
theorem Found.occupied (hw : WF key t) (hf : Found key t tokens (m * t.blockTokens) t' w)
    (hm : m * t.blockTokens ≤ tokens.length) (hk : w.blocks.length < m)
    {e : UInt64 × Node} (he : e ∈ (t'.childrenOf (w.node.getD t'.root.id)).items) :
    e.2.tokens.take t.blockTokens ≠ w.rest.take t.blockTokens := by
  intro heq
  have hbt := hf.reshaped.blockTokens
  have hw' := hf.reshaped.wf
  obtain ⟨s, hs, hst⟩ := hf.ctx
  obtain ⟨hkeyed, hsub⟩ := childrenOf_spec hw'.linked hw'.keyed hs
  have hpl := hsub _ (mem_items (s := s) hkeyed he).1
  obtain ⟨b, hb⟩ : ∃ b, e.2.blocks[0]? = some b :=
    ⟨_, List.getElem?_eq_getElem (hw'.nodes _ hpl).blocks_pos⟩
  have hent : ⟨s.toks ++ e.2.tokens.take ((0 + 1) * t.blockTokens), b, e.2.lockCount⟩ ∈
      entries t.blockTokens t'.places :=
    List.mem_flatMap.mpr ⟨_, hpl, mem_runEntries.mpr ⟨0, b, hb, rfl⟩⟩
  have hmul : (w.blocks.length + 1) * t.blockTokens ≤ m * t.blockTokens :=
    Nat.mul_le_mul_right _ hk
  have hpath : s.toks ++ e.2.tokens.take ((0 + 1) * t.blockTokens) =
      tokens.take ((w.blocks.length + 1) * t.blockTokens) := by
    rw [Nat.zero_add, Nat.one_mul, heq, hst, hf.rest, hf.aligned, List.drop_take, List.take_take,
      Nat.min_eq_left (by rw [← Nat.sub_mul]; exact Nat.le_mul_of_pos_left _ (by omega)),
      Nat.succ_mul, List.take_add]
  rw [hpath, hf.reshaped.entries] at hent
  -- the walk would have gone on
  have hlen := hf.longest _ hent (List.take_prefix_take_left hmul)
  rw [List.length_take, Nat.min_eq_left (hmul.trans hm), hf.aligned] at hlen
  have := Nat.le_of_mul_le_mul_right hlen hw.bt_pos
  omega

/-- Blocks cached for all leading prefixes are found by `match_prefix`. -/
theorem WF.matches_cached (hw : WF key t) {m : Nat} (hm : m * t.blockTokens ≤ tokens.length)
    (hc : ∀ i < m, t.cached (tokens.take ((i + 1) * t.blockTokens)) ≠ none) :
    ∃ r t', t.matchPrefix key tokens = .ok (r, t') ∧ m ≤ r.blocks.length := by
  obtain ⟨r, t', he, hmt⟩ := hw.matchPrefix tokens
  refine ⟨r, t', he, ?_⟩
  rcases Nat.eq_zero_or_pos m with rfl | hpos
  · exact Nat.zero_le _
  have hl := hmt.longest_cached hw
  have hlast := hc (m - 1) (by omega)
  rw [Nat.sub_add_cancel hpos] at hlast
  have hlen := hl.longest _ (List.take_prefix _ _) hlast
  rw [List.length_take, Nat.min_eq_left hm, hl.numTokens.1] at hlen
  exact Nat.le_of_mul_le_mul_right hlen hw.bt_pos

/-! ## What an insert leaves -/

/-- Block `k` of the tokens. -/
def blockAt (t : RadixTree) (tokens : List TokenId) (k : Nat) : List TokenId :=
  (tokens.drop (k * t.blockTokens)).take t.blockTokens

/-- The tokens along the path from the root to the node at `i`, which may be the root, are
`path`. -/
def Reaches (t : RadixTree) (i : NodeId) (path : List TokenId) : Prop :=
  (i = t.root.id ∧ path = []) ∨ ∃ x ∈ t.places, x.2.id = i ∧ x.1.toks ++ x.2.tokens = path

/-- A later `match_prefix` of the tokens returns at least `L` blocks. -/
def Serves (key : List TokenId → UInt64) (t : RadixTree) (tokens : List TokenId) (L : Nat) :
    Prop :=
  ∃ r t', t.matchPrefix key tokens = .ok (r, t') ∧ L ≤ r.blocks.length

/-- Nothing was added; `c` collisions were counted. -/
structure AddsNothing (t : RadixTree) (c : Nat) (t' : RadixTree) : Prop where
  cached : t'.cached = t.cached
  storedBlocks : t'.storedBlocks = t.storedBlocks
  collisions : t'.collisions = t.collisions + c

/-- Exactly the prefixes of `k + 1 … L` blocks were added, and mapped to the blocks `k … L - 1`. -/
structure AddsSuffix (t : RadixTree) (tokens : List TokenId) (blocks : List BlockId) (k L : Nat)
    (t' : RadixTree) : Prop where
  cached : ∀ path b, t'.cached path = some b ↔ t.cached path = some b ∨
    ∃ i, k ≤ i ∧ i < L ∧ path = tokens.take ((i + 1) * t.blockTokens) ∧ blocks[i]? = some b
  kept : ∀ path b, t.cached path = some b → t'.cached path = some b
  storedBlocks : t'.storedBlocks = t.storedBlocks + (L - k)
  collisions : t'.collisions = t.collisions

theorem Reshaped.storedBlocks (h : Reshaped key t t') (hw : WF key t) :
    t'.storedBlocks = t.storedBlocks := by
  rw [hw.storedBlocks, h.wf.storedBlocks, h.blocksOf]

theorem touch_counters (t : RadixTree) (id : NodeId) :
    (t.touch id).collisions = t.collisions ∧ (t.touch id).storedBlocks = t.storedBlocks := by
  unfold touch setNode
  split <;> exact ⟨rfl, rfl⟩

/-- Everything was cached: the walk's last node is touched. -/
theorem Found.full (hw : WF key t) (hf : Found key t tokens (m * t.blockTokens) t' w)
    (hm : m * t.blockTokens ≤ tokens.length) (hk : w.blocks.length = m) (i : NodeId) :
    AddsNothing t 0 (t'.touch i) ∧ Serves key (t'.touch i) tokens m := by
  have hr := hf.reshaped.trans (hf.reshaped.wf.touch i)
  refine ⟨⟨hr.cached, hr.storedBlocks hw, ?_⟩, hr.wf.matches_cached (hr.blockTokens ▸ hm) ?_⟩
  · rw [(touch_counters t' i).1, hf.counters.2.1, Nat.add_zero]
  · intro j hj
    rw [hr.cached, hr.blockTokens, hf.cached_iff hw hm hj, hk]
    exact hj

/-- The slot was taken: only the collision is counted. -/
theorem Found.refused (hw : WF key t) (hf : Found key t tokens limit t' w) :
    AddsNothing t 1 { t' with collisions := t'.collisions + 1 } := by
  have hr := hf.reshaped.trans hf.reshaped.wf.collided
  exact ⟨hr.cached, hr.storedBlocks hw, congrArg (· + 1) hf.counters.2.1⟩

/-- The slot was free: a leaf holds the missing blocks. -/
theorem Found.adopted (hw : WF key t) {t₁ : RadixTree}
    (hf : Found key t tokens (m * t.blockTokens) t₁ w)
    (hg : Grown key t₁ tokens blocks w.blocks.length m x t') (hc : t'.collisions = t₁.collisions) :
    AddsSuffix t tokens blocks w.blocks.length m t' ∧ Serves key t' tokens m := by
  have hr := hf.reshaped
  have hbt₁ := hr.blockTokens
  have hm : m * t.blockTokens ≤ tokens.length := hbt₁ ▸ hg.le_tokens
  have hcached : ∀ path b, t'.cached path = some b ↔ t.cached path = some b ∨
      ∃ i, w.blocks.length ≤ i ∧ i < m ∧ path = tokens.take ((i + 1) * t.blockTokens) ∧
        blocks[i]? = some b := fun path b => by
    rw [hr.wf.grown_cached hg, hr.cached, hbt₁]
  refine ⟨⟨hcached, fun path b hb => (hcached path b).mpr (.inl hb), ?_, ?_⟩,
    hg.wf.matches_cached (hg.blockTokens ▸ hbt₁ ▸ hm) fun i hi => ?_⟩
  · have hlen := hg.leaf.blocksOf.length_eq
    have hlt := hg.lt
    have hle := hg.le_blocks
    rw [List.length_append, ← hg.wf.storedBlocks, ← hr.wf.storedBlocks, hr.storedBlocks hw,
      hg.leafBlocks, List.length_drop, List.length_take] at hlen
    omega
  · rw [hc, hf.counters.2.1]
  · rw [hg.blockTokens, hbt₁]
    by_cases hik : i < w.blocks.length
    · obtain ⟨b, hb⟩ := Option.ne_none_iff_exists'.mp ((hf.cached_iff hw hm hi).mpr hik)
      rw [(hcached _ b).mpr (.inl hb)]
      exact Option.some_ne_none _
    · have hib : i < blocks.length := hi.trans_le hg.le_blocks
      rw [(hcached _ _).mpr (.inr ⟨i, by omega, hi, rfl, List.getElem?_eq_getElem hib⟩)]
      exact Option.some_ne_none _

end RadixTree

open RadixTree

namespace TreeState

variable {key : List TokenId → UInt64} {s : TreeState}

/-- **`insert` adds exactly the missing suffix, or nothing**, in every tree reachable by the tree's
operations.  `k` of the `L` whole blocks are cached.  With `k = L` there is nothing to add; with
`k < L` the insert is refused when the node reached has a child under the key of block `k`, which
then holds other tokens there, and otherwise adopts the blocks `k … L - 1` and takes one reference
for each occurrence. -/
theorem insert_exact {bt : Nat} {t₀ : RadixTree} {p₀ : BlockPool} {tr : List TreeOp}
    (h0 : RadixTree.create bt = .ok t₀)
    (hrun : Run (Step key) { tree := t₀, pool := p₀ } tr s) (tokens : List TokenId)
    (blocks : List BlockId) {L : Nat}
    (hL : L = min (tokens.length / s.tree.blockTokens) blocks.length) :
    ∃ k ≤ L, (∀ i < L, s.tree.cached (tokens.take ((i + 1) * s.tree.blockTokens)) ≠ none ↔ i < k) ∧
      ∃ t₁ w cur, s.tree.runWalk key tokens (L * s.tree.blockTokens) = .ok (t₁, w) ∧
        cur = w.node.getD t₁.root.id ∧ Reaches t₁ cur (tokens.take (k * s.tree.blockTokens)) ∧
        (k = L → ∃ t', s.tree.insert key s.pool tokens blocks = .ok (0, t', s.pool) ∧
          AddsNothing s.tree 0 t' ∧ Serves key t' tokens L) ∧
        (k < L → key (blockAt s.tree tokens k) ∈ (t₁.childrenOf cur).keys →
          ∃ t', s.tree.insert key s.pool tokens blocks = .ok (0, t', s.pool) ∧
            AddsNothing s.tree 1 t' ∧
            ∃ e ∈ (t₁.childrenOf cur).items, e.1 = key (blockAt s.tree tokens k) ∧
              e.2.tokens.take s.tree.blockTokens ≠ blockAt s.tree tokens k) ∧
        (k < L → key (blockAt s.tree tokens k) ∉ (t₁.childrenOf cur).keys →
          ∃ t', (s.tree.insert key s.pool tokens blocks =
              (((blocks.take L).drop k).foldlM BlockPool.incref s.pool).map
                fun p' => (L - k, t', p')) ∧
            AddsSuffix s.tree tokens blocks k L t' ∧ Serves key t' tokens L ∧
            ((∀ b ∈ blocks, b < s.pool.numBlocks ∧ s.pool.refcount b ≠ 0) →
              (∀ b, s.pool.refcount b + ((blocks.take L).drop k).count b < 2 ^ 32) →
              s.tree.insert key s.pool tokens blocks =
                .ok (L - k, t', s.pool.addRefs ((blocks.take L).drop k))) ∧
            ∀ n p', s.tree.insert key s.pool tokens blocks = .ok (n, t', p') →
              p' = { s.pool with refcount := p'.refcount } ∧
              (∀ b, b ∉ (blocks.take L).drop k → p'.refcount b = s.pool.refcount b) ∧
              ∀ b, toU32 (p'.refcount b) =
                toU32 (s.pool.refcount b + ((blocks.take L).drop k).count b)) := by
  have hw := (reach h0 hrun).wf
  obtain ⟨t₁, w, hrw, hf, hend⟩ := hw.insert_cases s.pool tokens blocks hL
  have hr := hf.reshaped
  have hLt : L * s.tree.blockTokens ≤ tokens.length := by
    rw [hL]
    exact (Nat.mul_le_mul_right _ (Nat.min_le_left _ _)).trans (Nat.div_mul_le_self _ _)
  have hLb : L ≤ blocks.length := hL ▸ Nat.min_le_right _ _
  have hkL : w.blocks.length ≤ L := by
    rcases hend with ⟨h, -⟩ | ⟨h, -⟩ | ⟨h, -⟩ <;> omega
  have hiff : ∀ i < L, s.tree.cached (tokens.take ((i + 1) * s.tree.blockTokens)) ≠ none ↔
      i < w.blocks.length := fun i hi => hf.cached_iff hw hLt hi
  have hreach : Reaches t₁ (w.node.getD t₁.root.id)
      (tokens.take (w.blocks.length * s.tree.blockTokens)) := by
    rw [← hf.aligned]
    rcases hf.node with ⟨h1, h2⟩ | ⟨i, h1, x, hx, hid, hT, -⟩
    · rw [h1, h2]
      exact .inl ⟨rfl, rfl⟩
    · rw [h1]
      exact .inr ⟨x, hx, hid, hT⟩
  have hslot : w.blocks.length < L →
      w.rest.take s.tree.blockTokens = blockAt s.tree tokens w.blocks.length := by
    intro hk
    unfold blockAt
    rw [hf.rest, hf.aligned, List.drop_take, List.take_take,
      Nat.min_eq_left (by rw [← Nat.sub_mul]; exact Nat.le_mul_of_pos_left _ (by omega))]
  refine ⟨w.blocks.length, hkL, hiff, t₁, w, _, hrw, rfl, hreach, ?_, ?_, ?_⟩
  · intro hk
    rcases hend with ⟨-, he⟩ | ⟨hlt, -⟩ | ⟨hlt, -⟩
    · exact ⟨_, he, hf.full hw hLt hk _⟩
    · omega
    · omega
  · intro hk hocc
    rw [← hslot hk] at hocc ⊢
    rcases hend with ⟨heq, -⟩ | ⟨-, -, he⟩ | ⟨-, hfree, -⟩
    · omega
    · rw [← map_fst_items] at hocc
      obtain ⟨e, hm, hkey⟩ := List.mem_map.mp hocc
      exact ⟨_, he, hf.refused hw, e, hm, hkey, hf.occupied hw hLt hk hm⟩
    · exact absurd hocc hfree
  · intro hk hfree
    rw [← hslot hk] at hfree
    rcases hend with ⟨heq, -⟩ | ⟨-, hocc, -⟩ | ⟨-, -, x, t', hg, -, -, hc, he⟩
    · omega
    · exact absurd hocc hfree
    have hlen : x.2.blocks.length = L - w.blocks.length := by
      rw [hg.leafBlocks, List.length_drop, List.length_take, Nat.min_eq_left hLb]
    rw [hlen, hg.leafBlocks] at he
    obtain ⟨hadds, hserves⟩ := hf.adopted hw hg hc
    refine ⟨t', he, hadds, hserves, fun hok hlt => ?_, fun n p' hn => ?_⟩
    · have hsub : ∀ b ∈ (blocks.take L).drop w.blocks.length, b ∈ blocks := fun b hb =>
        List.mem_of_mem_take (List.mem_of_mem_drop hb)
      rw [he, BlockPool.increfAll_eq _ _ (fun b hb => hok b (hsub b hb)) hlt]
      rfl
    · obtain ⟨q, hq, e⟩ := map_ok (he.symm.trans hn)
      cases e
      exact (BlockPool.increfAll_ok hq).2

/-- One block of the two is cached, inside a longer node; the other is adopted below the head of
the split, beside a tail with another key. -/
theorem insert_exact_split : ∃ p₀ t₀ s t',
    BlockPool.init BlockPool.smallConfig BlockPool.smallSpecs (fun _ _ => 0) = .ok p₀ ∧
    RadixTree.create 2 = .ok t₀ ∧
    Run (Step fun l => if l = [5, 6] then 1 else 0) { tree := t₀, pool := p₀ } oneNodeTrace s ∧
    s.tree.insert (fun l => if l = [5, 6] then 1 else 0) s.pool [1, 2, 5, 6] [0, 1] =
      (([1] : List BlockId).foldlM BlockPool.incref s.pool).map (fun p' => (1, t', p')) ∧
    AddsSuffix s.tree [1, 2, 5, 6] [0, 1] 1 2 t' := by
  have h : ((BlockPool.init BlockPool.smallConfig BlockPool.smallSpecs fun _ _ => 0).toOption.bind
      fun p => (RadixTree.create 2).toOption.bind fun t =>
        (exec (next fun l => if l = [5, 6] then 1 else 0) { tree := t, pool := p }
          oneNodeTrace).map fun s =>
          (s.tree.blockTokens, s.tree.cached [1, 2], s.tree.cached [1, 2, 5, 6],
            (s.tree.insert (fun l => if l = [5, 6] then 1 else 0) s.pool
              [1, 2, 5, 6] [0, 1]).toOption.map (·.1))) = some (2, some 0, none, some 1) := by
    decide +kernel
  obtain ⟨p, hp, h⟩ := Option.bind_eq_some_iff.mp h
  obtain ⟨t, ht, h⟩ := Option.bind_eq_some_iff.mp h
  obtain ⟨s, hs, h⟩ := Option.map_eq_some_iff.mp h
  simp only [Prod.mk.injEq] at h
  obtain ⟨hbt, hc1, hc2, hn⟩ := h
  have hrun := run_of_exec hs
  have h0 := BlockPool.toOption_eq_some ht
  obtain ⟨k, -, hiff, t₁, w, cur, -, -, -, -, hrefused, hadopts⟩ :=
    insert_exact h0 hrun [1, 2, 5, 6] [0, 1] (L := 2) (by rw [hbt]; rfl)
  have hk1 : 0 < k := by
    refine (hiff 0 (by omega)).mp ?_
    rw [hbt]
    show s.tree.cached [1, 2] ≠ none
    simp [hc1]
  have hk2 : ¬ 1 < k := fun hlt => by
    refine (hiff 1 (by omega)).mpr hlt ?_
    rw [hbt]
    exact hc2
  obtain rfl : k = 1 := by omega
  by_cases hocc : (fun l => if l = [5, 6] then 1 else 0) (blockAt s.tree [1, 2, 5, 6] 1) ∈
      (t₁.childrenOf cur).keys
  · obtain ⟨t', he, -⟩ := hrefused (by omega) hocc
    rw [he] at hn
    cases hn
  · obtain ⟨t', he, hadds, -⟩ := hadopts (by omega) hocc
    exact ⟨p, t, s, t', BlockPool.toOption_eq_some hp, h0, hrun, he, hadds⟩

end TreeState

end KvsLab
