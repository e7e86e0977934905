import KvsLab.RadixTree.Leaf
import KvsLab.BlockPool.Drain

/-!
# `insert` on a well-formed tree

* `addRefs` — one more reference for every occurrence in a list.
* `Grown` — the tree gained one leaf: the blocks `k … m` of the table, under the tokens they
  cover, where `k` blocks of the tokens were cached before.
* `WF.insert_cases` — the three ways `insert` ends, for any pool and any table of blocks.
* `WF.insert` — with allocated blocks `insert` returns; the tree is reshaped only, or it is
  `Grown` and every adopted block has one more reference.
-/

namespace KvsLab

open KeyedForest

namespace BlockPool

/-- One more reference for every occurrence in `l`. -/
def addRefs (l : List BlockId) (p : BlockPool) : BlockPool :=
  { p with refcount := fun x => p.refcount x + l.count x }

theorem increfAll_eq : ∀ (l : List BlockId) (p : BlockPool),
    (∀ b ∈ l, b < p.numBlocks ∧ p.refcount b ≠ 0) → (∀ b, p.refcount b + l.count b < 2 ^ 32) →
    l.foldlM BlockPool.incref p = .ok (p.addRefs l)
  | [], p, _, _ => by simp [addRefs]; rfl
  | b :: l, p, hok, hlt => by
    have hb := hok b List.mem_cons_self
    have hbl : p.refcount b + 1 < 2 ^ 32 := by
      have := hlt b
      rw [List.count_cons_self] at this
      omega
    have hi : p.incref b = .ok (p.addRefs [b]) := by
      unfold BlockPool.incref
      rw [if_neg (Nat.not_le.mpr hb.1), if_neg hb.2, toU32_of_lt hbl]
      unfold addRefs
      congr 2
      funext x
      by_cases e : x = b
      · subst e; simp
      · simp [Function.update_of_ne e, Ne.symm e]
    have hstep : ∀ x, (p.addRefs [b]).refcount x + l.count x = p.refcount x + (b :: l).count x := by
      intro x
      show p.refcount x + [b].count x + l.count x = _
      rw [List.count_cons, List.count_cons, List.count_nil]
      omega
    rw [List.foldlM_cons, hi]
    show l.foldlM BlockPool.incref (p.addRefs [b]) = _
    rw [increfAll_eq l (p.addRefs [b])]
    · unfold addRefs
      congr 2
      funext x
      exact hstep x
    · intro c hc
      refine ⟨(hok c (List.mem_cons_of_mem _ hc)).1, ?_⟩
      have := (hok c (List.mem_cons_of_mem _ hc)).2
      show p.refcount c + [b].count c ≠ 0
      omega
    · intro x
      rw [hstep]
      exact hlt x

/-- References that were taken change nothing but the counts of the blocks in the list, each by
its number of occurrences in `uint32` arithmetic. -/
theorem increfAll_ok : ∀ {l : List BlockId} {p p' : BlockPool},
    l.foldlM BlockPool.incref p = .ok p' →
      (∀ b ∈ l, b < p.numBlocks) ∧ p' = { p with refcount := p'.refcount } ∧
      (∀ b, b ∉ l → p'.refcount b = p.refcount b) ∧
      ∀ b, toU32 (p'.refcount b) = toU32 (p.refcount b + l.count b)
  | [], p, p', h => by
    cases h
    exact ⟨fun b hb => (by cases hb), rfl, fun _ _ => rfl, fun _ => rfl⟩
  | c :: l, p, p', h => by
    rw [List.foldlM_cons] at h
    cases hc : p.incref c with
    | error e => rw [hc] at h; cases h
    | ok q =>
      rw [hc] at h
      obtain ⟨hlt, -, hq⟩ := incref_ok hc
      have hself : q.refcount c = toU32 (p.refcount c + 1) := by rw [hq]; simp
      have hne : ∀ b, b ≠ c → q.refcount b = p.refcount b := fun b e => by
        rw [hq]
        exact Function.update_of_ne e _ _
      obtain ⟨h0, h1, h2, h3⟩ := increfAll_ok (l := l) h
      refine ⟨fun b hb => ?_, h1.trans (by rw [hq]), fun b hb => ?_, fun b => ?_⟩
      · rcases List.mem_cons.mp hb with rfl | hb
        · exact hlt
        · have := h0 b hb
          rwa [hq] at this
      · rw [h2 b fun hm => hb (List.mem_cons_of_mem _ hm),
          hne b fun e => hb (e ▸ List.mem_cons_self)]
      · rw [h3 b]
        by_cases e : b = c
        · rw [e, hself, List.count_cons_self]
          unfold toU32
          rw [Nat.mod_add_mod]
          congr 1
          omega
        · rw [hne b e, List.count_cons_of_ne (Ne.symm e)]

end BlockPool

namespace RadixTree

variable {key : List TokenId → UInt64} {t t' : RadixTree}

theorem WF.touch (h : WF key t) (id : NodeId) : Reshaped key t (t.touch id) := by
  unfold RadixTree.touch setNode
  split
  · exact ⟨⟨h.bt_pos, h.root, h.nodes, h.keyed, h.ids_nodup, h.ids_lt, h.next_pos, h.numNodes,
      h.storedBlocks⟩, rfl, rfl, fun hc => hc, fun _ hl => hl⟩
  · have ht : Touched t.children
        (t.children.map fun n => if n.id = id then { n with lastAccess := t.clock + 1 } else n) := by
      unfold Touched
      rw [map_map]
      apply map_congr
      intro n _
      show n.unstamp = Node.unstamp (if n.id = id then { n with lastAccess := t.clock + 1 } else n)
      split <;> rfl
    exact h.touched ht _

theorem WF.collided (h : WF key t) :
    Reshaped key t { t with collisions := t.collisions + 1 } :=
  ⟨⟨h.bt_pos, h.root, h.nodes, h.keyed, h.ids_nodup, h.ids_lt, h.next_pos, h.numNodes,
    h.storedBlocks⟩, rfl, rfl, fun hc => hc, fun _ hl => hl⟩

/-- `t'` is `t` and a new leaf `x` that holds the blocks `k … m` of the table. -/
structure Grown (key : List TokenId → UInt64) (t : RadixTree) (tokens : List TokenId)
    (blocks : List BlockId) (k m : Nat) (x : Place) (t' : RadixTree) : Prop where
  wf : WF key t'
  blockTokens : t'.blockTokens = t.blockTokens
  leaf : LeafPlaces x t'.places t.places
  lt : k < m
  le_tokens : m * t.blockTokens ≤ tokens.length
  le_blocks : m ≤ blocks.length
  toks : x.1.toks = tokens.take (k * t.blockTokens)
  leafTokens : x.2.tokens = (tokens.take (m * t.blockTokens)).drop (k * t.blockTokens)
  leafBlocks : x.2.blocks = (blocks.take m).drop k
  lock : x.2.lockCount = 0
  longest : ∀ e ∈ entries t.blockTokens t.places, e.path <+: tokens.take (m * t.blockTokens) →
    e.path.length ≤ k * t.blockTokens

/-- The tokens above and in a new leaf, cut after one of its blocks. -/
theorem Grown.path {tokens : List TokenId} {blocks : List BlockId} {k m : Nat} {x : Place}
    (hg : Grown key t tokens blocks k m x t') {i : Nat} (hi : k + i < m) :
    x.1.toks ++ x.2.tokens.take ((i + 1) * t.blockTokens) =
      tokens.take ((k + i + 1) * t.blockTokens) := by
  have hmul : (k + i + 1) * t.blockTokens ≤ m * t.blockTokens := Nat.mul_le_mul_right _ hi
  have hsum : k * t.blockTokens + (i + 1) * t.blockTokens = (k + i + 1) * t.blockTokens := by
    rw [← Nat.add_mul]
    congr 1
  rw [hg.toks, hg.leafTokens, List.take_drop, hsum, List.take_take, Nat.min_eq_left hmul]
  have hk : k * t.blockTokens ≤ (k + i + 1) * t.blockTokens := Nat.mul_le_mul_right _ (by omega)
  have := List.take_append_drop (k * t.blockTokens) (tokens.take ((k + i + 1) * t.blockTokens))
  rwa [List.take_take, Nat.min_eq_left hk] at this

/-- The entries of a new leaf, by their position in the table. -/
theorem Grown.mem_leaf {tokens : List TokenId} {blocks : List BlockId} {k m : Nat} {x : Place}
    (hg : Grown key t tokens blocks k m x t') {e : Entry} :
    e ∈ placeEntries t.blockTokens x ↔ ∃ i b, k ≤ i ∧ i < m ∧ blocks[i]? = some b ∧
      e = ⟨tokens.take ((i + 1) * t.blockTokens), b, 0⟩ := by
  have hle := hg.le_blocks
  refine mem_runEntries.trans ⟨?_, ?_⟩
  · rintro ⟨i, b, hb, rfl⟩
    have hi : k + i < m := by
      have := (List.getElem?_eq_some_iff.mp hb).1
      rw [hg.leafBlocks, List.length_drop, List.length_take] at this
      omega
    rw [hg.leafBlocks, List.getElem?_drop] at hb
    refine ⟨k + i, b, by omega, hi, (List.getElem?_take_of_lt hi).symm.trans hb, ?_⟩
    rw [hg.path hi, hg.lock]
  · rintro ⟨i, b, hki, hi, hb, rfl⟩
    obtain ⟨j, rfl⟩ := Nat.exists_eq_add_of_le hki
    refine ⟨j, b, ?_, ?_⟩
    · rw [hg.leafBlocks, List.getElem?_drop]
      exact (List.getElem?_take_of_lt hi).trans hb
    · rw [hg.path hi, hg.lock]

/-- Hang a leaf below the last node of a walk. -/
theorem WF.grow (h : WF key t) {tokens : List TokenId} (blocks : List BlockId) {k m : Nat}
    {cur : NodeId} {s : Ctx} (stamp : Nat) (hs : CtxOf t cur s)
    (hkm : k < m) (hmt : m * t.blockTokens ≤ tokens.length) (hmb : m ≤ blocks.length)
    (hst : s.toks = tokens.take (k * t.blockTokens))
    (hlong : ∀ e ∈ entries t.blockTokens t.places, e.path <+: tokens.take (m * t.blockTokens) →
      e.path.length ≤ k * t.blockTokens) {leaf : Node}
    (hleaf : leaf = { id := t.nextNode
                      tokens := (tokens.take (m * t.blockTokens)).drop (k * t.blockTokens)
                      blocks := (blocks.take m).drop k
                      parent := some cur
                      lastAccess := stamp })
    (hfree : keyOf key t.blockTokens leaf ∉ (t.childrenOf cur).keys) :
    Grown key t tokens blocks k m (s, leaf)
      { t.setChildren cur (fun siblings => .cons (keyOf key t.blockTokens leaf) leaf .nil siblings) with
        clock := stamp
        nextNode := t.nextNode + 1
        storedBlocks := t.storedBlocks + leaf.blocks.length
        numNodes := t.numNodes + 1 } := by
  obtain ⟨hpl, hkeyed⟩ := setChildren_add h.linked h.keyed hs rfl hfree
  have hlen : leaf.tokens.length = (m - k) * t.blockTokens := by
    rw [hleaf]
    show ((tokens.take (m * t.blockTokens)).drop (k * t.blockTokens)).length = _
    rw [List.length_drop, List.length_take, Nat.min_eq_left hmt, Nat.sub_mul]
  have hblk : leaf.blocks.length = m - k := by
    rw [hleaf]
    show ((blocks.take m).drop k).length = _
    rw [List.length_drop, List.length_take, Nat.min_eq_left hmb]
  have hok : NodeOK t.blockTokens (s, leaf) := by
    refine ⟨fun e => ?_, by rw [hlen, hblk], ?_⟩
    · have hpos : 0 < (m - k) * t.blockTokens := Nat.mul_pos (by omega) h.bt_pos
      have e' : leaf.tokens = [] := e
      rw [← hlen, e', List.length_nil] at hpos
      omega
    · show leaf.parent = some s.parent
      rw [hleaf]
      show some cur = some s.parent
      rcases hs with ⟨rfl, rfl⟩ | ⟨x, hx, rfl, rfl⟩
      · rw [h.root.1]; rfl
      · rfl
  have hid : leaf.id = t.nextNode := by rw [hleaf]
  have hids : (ids ((t.setChildren cur fun siblings =>
      .cons (keyOf key t.blockTokens leaf) leaf .nil siblings).children.places Ctx.push .top)).Perm
      (leaf.id :: ids t.places) := ids_perm hpl.perm
  have hnd := hids.nodup_iff.mpr (List.nodup_cons.mpr
    ⟨fun hm => Nat.lt_irrefl _ (hid ▸ (h.ids_lt _ hm).2), h.ids_nodup⟩)
  have hlp := plucked_leafPlaces hpl hnd
  refine ⟨⟨h.bt_pos, h.root, ?_, hkeyed, hnd, ?_, Nat.lt_succ_of_lt h.next_pos, ?_, ?_⟩, rfl, hlp,
    hkm, hmt, hmb, hst, by rw [hleaf], by rw [hleaf], by rw [hleaf], hlong⟩
  · intro y hy
    rcases hlp.mem hy with rfl | hy
    · exact hok
    · exact h.nodes y hy
  · intro i hi
    show kRoot < i ∧ i < t.nextNode + 1
    rcases List.mem_cons.mp (hids.mem_iff.mp hi) with rfl | hi
    · exact ⟨hid ▸ h.next_pos, hid ▸ Nat.lt_succ_self _⟩
    · exact ⟨(h.ids_lt i hi).1, Nat.lt_succ_of_lt (h.ids_lt i hi).2⟩
  · show t.numNodes + 1 = _
    rw [h.numNodes]
    exact hpl.size.symm
  · show t.storedBlocks + leaf.blocks.length = _
    have hstored : t.storedBlocks = (blocksOf (t.children.places Ctx.push .top)).length :=
      h.storedBlocks
    have := hlp.blocksOf.length_eq
    rw [List.length_append, ← hstored] at this
    rw [Nat.add_comm]
    exact this.symm

/-- The context below the last node of a walk holds the tokens walked. -/
theorem Found.ctx {tokens : List TokenId} {limit : Nat} {t₁ : RadixTree} {w : Walk}
    (h : Found key t tokens limit t₁ w) :
    ∃ s, CtxOf t₁ (w.node.getD t₁.root.id) s ∧ s.toks = tokens.take w.pos := by
  rcases h.node with ⟨h1, h2⟩ | ⟨i, h1, x, hx, hi, hT, _⟩
  · rw [h1, h2]
    exact ⟨.top, .inl ⟨rfl, rfl⟩, by simp [Ctx.top]⟩
  · rw [h1]
    exact ⟨x.1.push x.2, .inr ⟨x, hx, hi, rfl⟩, hT⟩

/-- **The three ends of `insert`**, for a table of any blocks: everything is cached already, the
slot is taken, or a leaf is hung below the last node and its blocks are referenced in order. -/
theorem WF.insert_cases (h : WF key t) (p : BlockPool) (tokens : List TokenId)
    (blocks : List BlockId) {m : Nat}
    (hm : m = min (tokens.length / t.blockTokens) blocks.length) :
    ∃ t₁ w, t.runWalk key tokens (m * t.blockTokens) = .ok (t₁, w) ∧
      Found key t tokens (m * t.blockTokens) t₁ w ∧
      ((w.blocks.length = m ∧
        t.insert key p tokens blocks = .ok (0, t₁.touch (w.node.getD t₁.root.id), p)) ∨
      (w.blocks.length < m ∧
        key (w.rest.take t.blockTokens) ∈ (t₁.childrenOf (w.node.getD t₁.root.id)).keys ∧
        t.insert key p tokens blocks = .ok (0, { t₁ with collisions := t₁.collisions + 1 }, p)) ∨
      (w.blocks.length < m ∧
        key (w.rest.take t.blockTokens) ∉ (t₁.childrenOf (w.node.getD t₁.root.id)).keys ∧
        ∃ x t', Grown key t₁ tokens blocks w.blocks.length m x t' ∧
          x.2.lastAccess = t₁.clock + 1 ∧ t'.clock = t₁.clock + 1 ∧
          t'.collisions = t₁.collisions ∧
          t.insert key p tokens blocks =
            (x.2.blocks.foldlM BlockPool.incref p).map fun p' => (x.2.blocks.length, t', p'))) := by
  have hbt := h.bt_pos
  have hlim : min (tokens.length / t.blockTokens * t.blockTokens)
      (blocks.length * t.blockTokens) = m * t.blockTokens := by
    rw [hm]
    exact Nat.mul_min_mul_right _ _ _
  have hmt : m * t.blockTokens ≤ tokens.length := by
    rw [← hlim]
    exact (Nat.min_le_left _ _).trans (Nat.div_mul_le_self _ _)
  have hmb : m ≤ blocks.length := by
    rw [hm]
    exact Nat.min_le_right _ _
  obtain ⟨t₁, w, he, hf⟩ := h.runWalk tokens (m * t.blockTokens)
  have hbt₁ : t₁.blockTokens = t.blockTokens := hf.reshaped.blockTokens
  have hwm : w.blocks.length ≤ m := by
    have := hf.pos_le
    rw [hf.aligned, List.length_take, Nat.min_eq_left hmt] at this
    exact Nat.le_of_mul_le_mul_right this hbt
  refine ⟨t₁, w, he, hf, ?_⟩
  unfold RadixTree.insert
  simp only [hlim, he, bind, Except.bind]
  rcases Nat.eq_or_lt_of_le hwm with hwm | hwm
  · refine .inl ⟨hwm, ?_⟩
    rw [if_pos (by rw [hf.aligned, hwm])]
    rfl
  have hpos : ¬ m * t.blockTokens ≤ w.pos := by
    rw [hf.aligned]
    exact Nat.not_le.mpr (Nat.mul_lt_mul_of_pos_right hwm hbt)
  by_cases hocc :
      key (w.rest.take t.blockTokens) ∈ (t₁.childrenOf (w.node.getD t₁.root.id)).keys
  · refine .inr (.inl ⟨hwm, hocc, ?_⟩)
    rw [if_neg hpos, if_pos hocc]
    rfl
  have hdiv : w.pos / t.blockTokens = w.blocks.length := by
    rw [hf.aligned, Nat.mul_div_cancel _ hbt]
  have hdivm : m * t.blockTokens / t.blockTokens = m := Nat.mul_div_cancel _ hbt
  obtain ⟨s, hs, hst⟩ := hf.ctx
  have hg := hf.reshaped.wf.grow blocks (t₁.clock + 1) hs hwm
    (hbt₁.symm ▸ hmt) hmb (by rw [hst, hf.aligned, hbt₁])
    (by
      intro e hm hp
      rw [hbt₁] at hm hp ⊢
      rw [hf.reshaped.entries] at hm
      rw [← hf.aligned]
      exact hf.longest e hm hp) rfl
    (by
      rw [hbt₁, ← hf.aligned, ← hf.rest]
      exact hocc)
  rw [hbt₁, ← hf.aligned, ← hf.rest] at hg
  refine .inr (.inr ⟨hwm, hocc, _, _, hg, rfl, rfl, rfl, ?_⟩)
  rw [if_neg hpos, if_neg hocc]
  simp only [hdiv, hdivm]
  cases ((blocks.take m).drop w.blocks.length).foldlM BlockPool.incref p <;> rfl

/-- **`insert` adds the missing suffix as one leaf, or nothing.** -/
theorem WF.insert (h : WF key t) (p : BlockPool) (tokens : List TokenId) (blocks : List BlockId)
    (hok : ∀ b ∈ blocks, b < p.numBlocks ∧ p.refcount b ≠ 0)
    (hlt : ∀ b, p.refcount b + blocks.count b < 2 ^ 32) :
    ∃ n t' p', t.insert key p tokens blocks = .ok (n, t', p') ∧
      ((n = 0 ∧ p' = p ∧ Reshaped key t t') ∨
        ∃ t₁ k m x, Reshaped key t t₁ ∧ Grown key t₁ tokens blocks k m x t' ∧
          n = x.2.blocks.length ∧ p' = p.addRefs x.2.blocks) := by
  obtain ⟨t₁, w, -, hf, hend⟩ := h.insert_cases p tokens blocks rfl
  have hr := hf.reshaped
  rcases hend with ⟨-, he⟩ | ⟨-, -, he⟩ | ⟨-, -, x, t', hg, -, -, -, he⟩
  · exact ⟨0, _, p, he, .inl ⟨rfl, rfl, hr.trans (hr.wf.touch _)⟩⟩
  · exact ⟨0, _, p, he, .inl ⟨rfl, rfl, hr.trans hr.wf.collided⟩⟩
  · have hsub : x.2.blocks.Sublist blocks := by
      rw [hg.leafBlocks]
      exact (List.drop_sublist _ _).trans (List.take_sublist _ _)
    rw [BlockPool.increfAll_eq _ p (fun b hb => hok b (hsub.subset hb)) fun b => by
      have hle := hsub.count_le b
      have := hlt b
      omega] at he
    exact ⟨_, t', _, he, .inr ⟨t₁, _, _, x, hr, hg, rfl, rfl⟩⟩

end RadixTree

end KvsLab
