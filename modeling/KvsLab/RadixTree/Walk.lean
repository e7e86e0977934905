import KvsLab.RadixTree.Split

/-!
# The walk finds the longest cached prefix

* `Walked` — what the walk did to the forest it went down and what it found: it only touched
  nodes and split at most one, the blocks it collected are the entries of the tokens it
  consumed, the last node covers exactly those, and no entry covers a longer prefix of the
  tokens.
* `walk_spec` — the walk returns and is `Walked`, for any key function.
-/

namespace KvsLab

open KeyedForest

namespace RadixTree

variable {key : List TokenId → UInt64} {bt : Nat} {f f' : Children} {s : Ctx}

/-! ## Comparing runs -/

/-- The common blocks are common, and the next one is not unless the bound was reached. -/
theorem commonBlocks_spec (bt : Nat) : ∀ (max : Nat) (a b : List TokenId),
    commonBlocks bt max a b ≤ max ∧
    a.take (commonBlocks bt max a b * bt) = b.take (commonBlocks bt max a b * bt) ∧
    (commonBlocks bt max a b < max →
      (a.drop (commonBlocks bt max a b * bt)).take bt ≠
        (b.drop (commonBlocks bt max a b * bt)).take bt)
  | 0, a, b => by simp [commonBlocks]
  | max + 1, a, b => by
    unfold commonBlocks
    split
    · rename_i e
      obtain ⟨h1, h2, h3⟩ := commonBlocks_spec bt max (a.drop bt) (b.drop bt)
      have hs : ∀ c, (c + 1) * bt = bt + c * bt := fun c => by rw [Nat.succ_mul, Nat.add_comm]
      refine ⟨Nat.succ_le_succ h1, ?_, fun hlt => ?_⟩
      · rw [hs, List.take_add, List.take_add, e, h2]
      · have := h3 (Nat.lt_of_succ_lt_succ hlt)
        rwa [List.drop_drop, List.drop_drop, ← hs] at this
    · rename_i e
      refine ⟨Nat.zero_le _, by simp, fun _ => ?_⟩
      simpa using e

theorem take_prefix_eq {a l : List TokenId} {k : Nat} (h : a <+: l) (hk : k ≤ a.length) :
    a.take k = l.take k := by
  obtain ⟨r, rfl⟩ := h
  rw [List.take_append_of_le_length hk]

/-! ## Entries and contexts -/

theorem mem_entries_cons {k : UInt64} {n : Node} {c r : Children} {e : Entry} :
    e ∈ entries bt ((KeyedForest.cons k n c r).places Ctx.push s) ↔
      e ∈ placeEntries bt (s, n) ∨ e ∈ entries bt (c.places Ctx.push (s.push n)) ∨
        e ∈ entries bt (r.places Ctx.push s) := by
  simp [entries, KeyedForest.places, List.flatMap_cons, List.flatMap_append]

theorem nodes_cons {k : UInt64} {n : Node} {c r : Children} :
    (∀ x ∈ (KeyedForest.cons k n c r).places Ctx.push s, NodeOK bt x) ↔
      NodeOK bt (s, n) ∧ (∀ x ∈ c.places Ctx.push (s.push n), NodeOK bt x) ∧
        ∀ x ∈ r.places Ctx.push s, NodeOK bt x := by
  simp only [KeyedForest.places, List.mem_cons, List.mem_append]
  constructor
  · intro h
    exact ⟨h _ (.inl rfl), fun x hx => h x (.inr (.inl hx)), fun x hx => h x (.inr (.inr hx))⟩
  · rintro ⟨h1, h2, h3⟩ x (rfl | hx | hx)
    · exact h1
    · exact h2 x hx
    · exact h3 x hx

theorem NodeOK.blocks_pos {x : Place} (h : NodeOK bt x) : 0 < x.2.blocks.length := by
  by_contra hn
  have hz : x.2.blocks.length = 0 := by omega
  have := h.aligned
  rw [hz, Nat.zero_mul] at this
  exact h.tokens (List.eq_nil_of_length_eq_zero this)

theorem NodeOK.block_le {x : Place} (h : NodeOK bt x) : bt ≤ x.2.tokens.length := by
  rw [h.aligned]
  exact Nat.le_mul_of_pos_left _ h.blocks_pos

/-- Every entry extends its context by whole blocks, the first of which has the key of a
top-level sibling. -/
theorem entries_key : ∀ {f : Children} {s : Ctx} {e : Entry},
    (∀ x ∈ f.places Ctx.push s, NodeOK bt x) → f.Keyed (keyOf key bt) →
    e ∈ entries bt (f.places Ctx.push s) →
      ∃ B, B.length = bt ∧ s.toks ++ B <+: e.path ∧ key B ∈ f.keys
  | .nil, _, _, _, _, h => by cases h
  | .cons k n c r, s, e, hn, hk, he => by
    obtain ⟨hn1, hnc, hnr⟩ := nodes_cons.mp hn
    have hbl : (n.tokens.take bt).length = bt := by
      rw [List.length_take, Nat.min_eq_left hn1.block_le]
    rcases mem_entries_cons.mp he with he | he | he
    · obtain ⟨i, b, _, rfl⟩ := mem_runEntries.mp he
      refine ⟨n.tokens.take bt, hbl, ?_, .inl hk.1.symm |> List.mem_cons.mpr⟩
      simp only
      rw [List.prefix_append_right_inj]
      exact List.take_prefix_take_left (Nat.le_mul_of_pos_left _ (Nat.succ_pos _))
    · obtain ⟨B, _, hB, _⟩ := entries_key hnc hk.2.2.1 he
      refine ⟨n.tokens.take bt, hbl, ?_, .inl hk.1.symm |> List.mem_cons.mpr⟩
      refine List.IsPrefix.trans ?_ hB
      show s.toks ++ n.tokens.take bt <+: s.toks ++ n.tokens ++ B
      rw [List.append_assoc, List.prefix_append_right_inj]
      exact (List.take_prefix _ _).trans (List.prefix_append _ _)
    · obtain ⟨B, h1, h2, h3⟩ := entries_key hnr hk.2.2.2 he
      exact ⟨B, h1, h2, List.mem_cons_of_mem _ h3⟩

/-- An entry at or below a child starts with a block of the child's key. -/
theorem child_key {k : UInt64} {n : Node} {c r : Children} {e : Entry}
    (hn : ∀ x ∈ (KeyedForest.cons k n c r).places Ctx.push s, NodeOK bt x)
    (hk : (KeyedForest.cons k n c r).Keyed (keyOf key bt))
    (he : e ∈ placeEntries bt (s, n) ∨ e ∈ entries bt (c.places Ctx.push (s.push n))) :
    ∃ B, B.length = bt ∧ s.toks ++ B <+: e.path ∧ key B = k := by
  obtain ⟨hn1, hnc, _⟩ := nodes_cons.mp hn
  have hone : e ∈ entries bt ((KeyedForest.cons k n c .nil : Children).places Ctx.push s) := by
    rcases he with he | he
    · exact mem_entries_cons.mpr (.inl he)
    · exact mem_entries_cons.mpr (.inr (.inl he))
  have hnone : ∀ x ∈ (KeyedForest.cons k n c .nil : Children).places Ctx.push s, NodeOK bt x :=
    nodes_cons.mpr ⟨hn1, hnc, fun _ hx => by cases hx⟩
  obtain ⟨B, h1, h2, h3⟩ := entries_key hnone ⟨hk.1, List.not_mem_nil, hk.2.2.1, trivial⟩ hone
  exact ⟨B, h1, h2, by simpa [KeyedForest.keys] using h3⟩

/-- The first block of an entry that covers a prefix of the tokens ahead is theirs. -/
theorem firstBlock_eq {e : Entry} {toks B : List TokenId} (hB : B.length = bt)
    (h1 : s.toks ++ B <+: e.path) (hp : e.path <+: s.toks ++ toks) : B = toks.take bt := by
  have h3 : B <+: toks := by
    have := h1.trans hp
    rwa [List.prefix_append_right_inj] at this
  have h4 := take_prefix_eq h3 (Nat.le_of_eq hB.symm)
  rwa [List.take_of_length_le (Nat.le_of_eq hB)] at h4

/-- An entry that covers a prefix of the tokens ahead starts with their first block. -/
theorem firstBlock_key {e : Entry} {toks : List TokenId}
    (hn : ∀ x ∈ f.places Ctx.push s, NodeOK bt x) (hk : f.Keyed (keyOf key bt))
    (he : e ∈ entries bt (f.places Ctx.push s)) (hp : e.path <+: s.toks ++ toks) :
    key (toks.take bt) ∈ f.keys := by
  obtain ⟨B, hB, h1, h2⟩ := entries_key hn hk he
  rwa [← firstBlock_eq hB h1 hp]

/-- Blocks of a node that agree with the tokens ahead are counted as common. -/
theorem lt_common {n : Node} {toks : List TokenId} {i : Nat} (hn : NodeOK bt (s, n)) (hbt : 0 < bt)
    (hi : i < n.blocks.length) (hp : n.tokens.take ((i + 1) * bt) <+: toks) :
    i < commonBlocks bt (min n.blocks.length (toks.length / bt)) n.tokens toks := by
  obtain ⟨h1, _, h3⟩ := commonBlocks_spec bt (min n.blocks.length (toks.length / bt)) n.tokens toks
  generalize commonBlocks bt (min n.blocks.length (toks.length / bt)) n.tokens toks = c at h1 h3 ⊢
  by_contra hci
  have hci : c ≤ i := Nat.le_of_not_lt hci
  have hlen : (n.tokens.take ((i + 1) * bt)).length = (i + 1) * bt := by
    have hal : n.tokens.length = n.blocks.length * bt := hn.aligned
    rw [List.length_take, Nat.min_eq_left]
    rw [hal]
    exact Nat.mul_le_mul_right _ hi
  have htl : (i + 1) * bt ≤ toks.length := hlen ▸ hp.length_le
  have hdiv : i + 1 ≤ toks.length / bt := (Nat.le_div_iff_mul_le hbt).mpr htl
  have hlt : c < min n.blocks.length (toks.length / bt) := by omega
  have heq := take_prefix_eq hp (Nat.le_of_eq hlen.symm)
  rw [List.take_take, Nat.min_self] at heq
  -- cut block `c` out of the common part
  have hcut : ∀ l : List TokenId, ((l.take ((i + 1) * bt)).drop (c * bt)).take bt =
      (l.drop (c * bt)).take bt := by
    intro l
    have hle : bt ≤ (i + 1) * bt - c * bt := by
      rw [← Nat.sub_mul]
      exact Nat.le_mul_of_pos_left _ (by omega)
    rw [List.drop_take, List.take_take, Nat.min_eq_left hle]
  apply h3 hlt
  rw [← hcut n.tokens, ← hcut toks, heq]

/-- An entry at a node that covers a prefix of the tokens ahead lies in the common blocks. -/
theorem entry_at_common {n : Node} {toks : List TokenId} {e : Entry} (hn : NodeOK bt (s, n))
    (hbt : 0 < bt) (he : e ∈ placeEntries bt (s, n)) (hp : e.path <+: s.toks ++ toks) :
    e.path.length ≤ s.toks.length +
      commonBlocks bt (min n.blocks.length (toks.length / bt)) n.tokens toks * bt := by
  obtain ⟨i, b, hb, rfl⟩ := mem_runEntries.mp he
  simp only [List.prefix_append_right_inj] at hp
  have hlt := lt_common hn hbt (List.getElem?_eq_some_iff.mp hb).1 hp
  have hle : (i + 1) * bt ≤
      commonBlocks bt (min n.blocks.length (toks.length / bt)) n.tokens toks * bt :=
    Nat.mul_le_mul_right bt hlt
  show (s.toks ++ n.tokens.take ((i + 1) * bt)).length ≤ _
  rw [List.length_append, List.length_take]
  omega

/-- An entry below a node that covers a prefix of the tokens ahead passes through the whole
node. -/
theorem entry_below_common {n : Node} {c : Children} {toks : List TokenId} {e : Entry}
    (hn : NodeOK bt (s, n)) (hbt : 0 < bt) (hnc : ∀ x ∈ c.places Ctx.push (s.push n), NodeOK bt x)
    (hkc : c.Keyed (keyOf key bt)) (he : e ∈ entries bt (c.places Ctx.push (s.push n)))
    (hp : e.path <+: s.toks ++ toks) :
    n.blocks.length ≤
      commonBlocks bt (min n.blocks.length (toks.length / bt)) n.tokens toks := by
  obtain ⟨B, _, hB, _⟩ := entries_key hnc hkc he
  have hpre : s.toks ++ n.tokens <+: s.toks ++ toks :=
    ((List.prefix_append _ B).trans hB).trans hp
  rw [List.prefix_append_right_inj] at hpre
  have hpos : 0 < n.blocks.length := hn.blocks_pos
  have hal : n.tokens.length = n.blocks.length * bt := hn.aligned
  have hlt := lt_common (i := n.blocks.length - 1) hn hbt (by omega)
    ((List.take_prefix _ _).trans hpre)
  omega

/-! ## Entries in leaves -/

/-- The entries of the nodes without children. -/
def leafEntries (bt : Nat) (f : Children) (s : Ctx) : List Entry :=
  entries bt (f.leaves Ctx.push s)

theorem leafEntries_cons (k : UInt64) (n : Node) (c r : Children) (s : Ctx) :
    leafEntries bt (.cons k n c r) s =
      (if c.isNil then placeEntries bt (s, n) else []) ++
        (leafEntries bt c (s.push n) ++ leafEntries bt r s) := by
  unfold leafEntries entries
  rw [KeyedForest.leaves, List.flatMap_append, List.flatMap_append]
  cases c.isNil with
  | true => simp
  | false => simp

/-- Entries do not depend on the addresses above. -/
theorem leafEntries_congr : ∀ {f : Children} {s s' : Ctx}, s.toks = s'.toks →
    leafEntries bt f s = leafEntries bt f s'
  | .nil, _, _, _ => rfl
  | .cons k n c r, s, s', h => by
    have hc : (s.push n).toks = (s'.push n).toks := by
      show s.toks ++ n.tokens = s'.toks ++ n.tokens
      rw [h]
    rw [leafEntries_cons, leafEntries_cons, leafEntries_congr hc, leafEntries_congr h]
    unfold placeEntries
    rw [h]

/-- The entries `l'` are the entries `l` without some that lie in the tokens `T`. -/
def KeptBeyond (T : List TokenId) (l l' : List Entry) : Prop :=
  ∃ H : List Entry, l.Perm (H ++ l') ∧ ∀ e ∈ H, e.path <+: T

theorem KeptBeyond.refl (T : List TokenId) (l : List Entry) : KeptBeyond T l l :=
  ⟨[], .refl _, nofun⟩

theorem KeptBeyond.append {T : List TokenId} {l l' : List Entry} (h : KeptBeyond T l l')
    (a b : List Entry) : KeptBeyond T (a ++ (l ++ b)) (a ++ (l' ++ b)) := by
  obtain ⟨H, hp, hH⟩ := h
  refine ⟨H, ?_, hH⟩
  have h1 : (a ++ (l ++ b)).Perm (a ++ (H ++ (l' ++ b))) := by
    rw [← List.append_assoc H]
    exact (hp.append_right b).append_left a
  exact h1.trans (List.perm_append_comm_assoc a H (l' ++ b))

/-! ## What the walk did -/

/-- The walk `w` to `w'` over `f` left `f'`; it consumed the tokens `M` and found the blocks
`L`. -/
structure Walked (key : List TokenId → UInt64) (bt : Nat) (s : Ctx) (f : Children) (w : Walk)
    (f' : Children) (w' : Walk) (M : List TokenId) (L : List BlockId) : Prop where
  change : (Touched f f' ∧ w'.nextNode = w.nextNode ∧ w'.numNodes = w.numNodes) ∨
    ∃ n j f₁, 0 < j ∧ j < n.blocks.length ∧ SplitIn key bt w.nextNode n j f f₁ ∧ Touched f₁ f' ∧
      w'.nextNode = w.nextNode + 1 ∧ w'.numNodes = w.numNodes + 1
  rest : w.rest = M ++ w'.rest
  blocks : w'.blocks = w.blocks ++ L
  pos : w'.pos = w.pos + M.length
  aligned : M.length = L.length * bt
  node : (M = [] ∧ w'.node = w.node) ∨
    ∃ i, w'.node = some i ∧ Covers (f'.places Ctx.push s) i (s.toks ++ M) (s.blks ++ L)
  found : ∀ i b, L[i]? = some b →
    ∃ lock, ⟨s.toks ++ M.take ((i + 1) * bt), b, lock⟩ ∈ entries bt (f.places Ctx.push s)
  longest : ∀ e ∈ entries bt (f.places Ctx.push s), e.path <+: s.toks ++ w.rest →
    e.path.length ≤ s.toks.length + M.length
  leaves : KeptBeyond (s.toks ++ M) (leafEntries bt f s) (leafEntries bt f' s)

theorem Touched.isNil (h : Touched f f') : f'.isNil = f.isNil := by
  rw [← map_isNil Node.unstamp f', ← map_isNil Node.unstamp f]
  exact congrArg KeyedForest.isNil h.symm

theorem SplitIn.isNil {newId : NodeId} {n : Node} {j : Nat} (h : SplitIn key bt newId n j f f') :
    f'.isNil = f.isNil := by
  cases h <;> rfl

/-- The walk neither adds the first child of a node nor takes its last. -/
theorem Walked.isNil {w w' : Walk} {M : List TokenId} {L : List BlockId}
    (h : Walked key bt s f w f' w' M L) : f'.isNil = f.isNil := by
  rcases h.change with ⟨ht, _⟩ | ⟨n, j, f₁, _, _, hs, ht, _⟩
  · exact ht.isNil
  · exact ht.isNil.trans hs.isNil

/-- The walk stops where it stands. -/
theorem Walked.stop {w : Walk} (hl : ∀ e ∈ entries bt (f.places Ctx.push s),
    e.path <+: s.toks ++ w.rest → e.path.length ≤ s.toks.length) :
    Walked key bt s f w f w [] [] where
  change := .inl ⟨.refl f, rfl, rfl⟩
  rest := rfl
  blocks := (List.append_nil _).symm
  pos := rfl
  aligned := (Nat.zero_mul _).symm
  node := .inl ⟨rfl, rfl⟩
  found := nofun
  longest := hl
  leaves := .refl _ _

/-- The child's key does not fit: the walk goes on to its siblings. -/
theorem Walked.next {k : UInt64} {n : Node} {c r r' : Children} {w w' : Walk} {M : List TokenId}
    {L : List BlockId} (hn : ∀ x ∈ (KeyedForest.cons k n c r).places Ctx.push s, NodeOK bt x)
    (hk : (KeyedForest.cons k n c r).Keyed (keyOf key bt)) (hne : k ≠ key (w.rest.take bt))
    (h : Walked key bt s r w r' w' M L) :
    Walked key bt s (.cons k n c r) w (.cons k n c r') w' M L where
  change := by
    rcases h.change with ⟨ht, h1, h2⟩ | ⟨m, j, r₁, h1, h2, h3, h4, h5, h6⟩
    · exact .inl ⟨.cons rfl (.refl c) ht, h1, h2⟩
    · exact .inr ⟨m, j, .cons k n c r₁, h1, h2, .rest h3, .cons rfl (.refl c) h4, h5, h6⟩
  rest := h.rest
  blocks := h.blocks
  pos := h.pos
  aligned := h.aligned
  node := by
    rcases h.node with h1 | ⟨i, h1, x, hx, h2⟩
    · exact .inl h1
    · exact .inr ⟨i, h1, x, List.mem_cons_of_mem _ (List.mem_append_right _ hx), h2⟩
  found := by
    intro i b hb
    obtain ⟨lock, he⟩ := h.found i b hb
    exact ⟨lock, mem_entries_cons.mpr (.inr (.inr he))⟩
  longest := by
    intro e he hp
    have hchild : ¬ (e ∈ placeEntries bt (s, n) ∨
        e ∈ entries bt (c.places Ctx.push (s.push n))) := by
      intro hc
      obtain ⟨B, hB, h1, h2⟩ := child_key hn hk hc
      rw [firstBlock_eq hB h1 hp] at h2
      exact hne h2.symm
    rcases mem_entries_cons.mp he with he | he | he
    · exact absurd (.inl he) hchild
    · exact absurd (.inr he) hchild
    · exact h.longest e he hp
  leaves := by
    rw [leafEntries_cons, leafEntries_cons]
    have := h.leaves.append ((if c.isNil then placeEntries bt (s, n) else []) ++
      leafEntries bt c (s.push n)) []
    simpa only [List.append_assoc, List.append_nil] using this

/-- Entries of the siblings of a child whose key fits start with another block. -/
theorem not_sibling {k : UInt64} {n : Node} {c r : Children} {toks : List TokenId} {e : Entry}
    (hn : ∀ x ∈ (KeyedForest.cons k n c r).places Ctx.push s, NodeOK bt x)
    (hk : (KeyedForest.cons k n c r).Keyed (keyOf key bt)) (hkey : k = key (toks.take bt))
    (he : e ∈ entries bt (r.places Ctx.push s)) : ¬ e.path <+: s.toks ++ toks := by
  intro hp
  have := firstBlock_key (nodes_cons.mp hn).2.2 hk.2.2.2 he hp
  exact hk.2.1 (hkey ▸ this)

/-- The whole child matches: the walk goes on to its children. -/
theorem Walked.into {k : UInt64} {n : Node} {c c' r : Children} {w w₁ w' : Walk} {stamp : Nat}
    {M : List TokenId} {L : List BlockId} (hbt : 0 < bt)
    (hn : ∀ x ∈ (KeyedForest.cons k n c r).places Ctx.push s, NodeOK bt x)
    (hk : (KeyedForest.cons k n c r).Keyed (keyOf key bt)) (hkey : k = key (w.rest.take bt))
    (hpre : n.tokens <+: w.rest) (h1 : w₁.rest = w.rest.drop n.tokens.length)
    (h2 : w₁.blocks = w.blocks ++ n.blocks) (h3 : w₁.pos = w.pos + n.tokens.length)
    (h4 : w₁.nextNode = w.nextNode ∧ w₁.numNodes = w.numNodes ∧ w₁.node = some n.id)
    (h : Walked key bt (s.push n) c w₁ c' w' M L) :
    Walked key bt s (.cons k n c r) w (.cons k { n with lastAccess := stamp } c' r) w'
      (n.tokens ++ M) (n.blocks ++ L) where
  change := by
    rcases h.change with ⟨ht, h5, h6⟩ | ⟨m, j, c₁, h5, h6, h7, h8, h9, h10⟩
    · exact .inl ⟨.cons rfl ht (.refl r), h5.trans h4.1, h6.trans h4.2.1⟩
    · rw [h4.1] at h7 h9
      rw [h4.2.1] at h10
      exact .inr ⟨m, j, .cons k n c₁ r, h5, h6, .kids h7, .cons rfl h8 (.refl r), h9, h10⟩
  rest := by
    have : w.rest = n.tokens ++ w.rest.drop n.tokens.length := by
      obtain ⟨l, hl⟩ := hpre
      rw [← hl, List.drop_left]
    rw [this, ← h1, h.rest, List.append_assoc]
  blocks := by rw [h.blocks, h2, List.append_assoc]
  pos := by rw [h.pos, h3, List.length_append, Nat.add_assoc]
  aligned := by
    have hal : n.tokens.length = n.blocks.length * bt := (nodes_cons.mp hn).1.aligned
    rw [List.length_append, List.length_append, h.aligned, hal, Nat.add_mul]
  node := by
    refine .inr ?_
    rcases h.node with ⟨rfl, h5⟩ | ⟨i, h5, x, hx, h6, h7, h8⟩
    · have hL : L = [] := by
        rcases Nat.mul_eq_zero.mp h.aligned.symm with hz | hz
        · exact List.eq_nil_of_length_eq_zero hz
        · omega
      exact ⟨n.id, h5.trans h4.2.2, _, List.mem_cons_self, rfl, by simp, by simp [hL]⟩
    · refine ⟨i, h5, x, List.mem_cons_of_mem _ (List.mem_append_left _ ?_), h6, ?_, ?_⟩
      · exact hx
      · rw [h7, ← List.append_assoc]; rfl
      · rw [h8, ← List.append_assoc]; rfl
  found := by
    intro i b hb
    have hal : n.tokens.length = n.blocks.length * bt := (nodes_cons.mp hn).1.aligned
    by_cases hi : i < n.blocks.length
    · rw [List.getElem?_append_left hi] at hb
      have hle : (i + 1) * bt ≤ n.tokens.length := by
        rw [hal]
        exact Nat.mul_le_mul_right _ hi
      rw [List.take_append_of_le_length hle]
      exact ⟨n.lockCount, mem_entries_cons.mpr (.inl (mem_runEntries.mpr ⟨i, b, hb, rfl⟩))⟩
    · rw [List.getElem?_append_right (by omega)] at hb
      obtain ⟨lock, he⟩ := h.found _ b hb
      refine ⟨lock, mem_entries_cons.mpr (.inr (.inl ?_))⟩
      have hsum : (i + 1) * bt = n.tokens.length + (i - n.blocks.length + 1) * bt := by
        rw [hal, ← Nat.add_mul]
        congr 1
        omega
      rw [hsum, List.take_length_add_append, ← List.append_assoc]
      exact he
  longest := by
    intro e he hp
    obtain ⟨hn1, hnc, hnr⟩ := nodes_cons.mp hn
    rcases mem_entries_cons.mp he with he | he | he
    · obtain ⟨i, b, _, rfl⟩ := mem_runEntries.mp he
      show (s.toks ++ n.tokens.take ((i + 1) * bt)).length ≤ _
      rw [List.length_append, List.length_append, List.length_take]
      omega
    · have hp' : e.path <+: (s.push n).toks ++ w₁.rest := by
        show e.path <+: s.toks ++ n.tokens ++ w₁.rest
        obtain ⟨l, hl⟩ := hpre
        rw [h1, ← hl, List.drop_left, List.append_assoc, hl]
        exact hp
      have := h.longest e he hp'
      have hs : (s.push n).toks.length = s.toks.length + n.tokens.length := List.length_append
      rw [List.length_append]
      omega
    · exact absurd hp (not_sibling hn hk hkey he)
  leaves := by
    rw [leafEntries_cons, leafEntries_cons, h.isNil, ← List.append_assoc s.toks]
    exact h.leaves.append _ _

theorem splitNode_ok {n : Node} {j : Nat} (newId : NodeId) (hn : NodeOK bt (s, n)) (hbt : 0 < bt)
    (hj : 0 < j) (hlt : j < n.blocks.length) :
    splitNode key bt newId n (j * bt) = .ok
      { headKey := keyOf key bt n
        head := headOf bt newId n j
        tailKey := keyOf key bt (tailOf bt newId n j)
        tail := tailOf bt newId n j } := by
  have hal : n.tokens.length = n.blocks.length * bt := hn.aligned
  have h1 : 0 < j * bt := Nat.mul_pos hj hbt
  have h2 : j * bt < n.tokens.length := by
    rw [hal]
    exact Nat.mul_lt_mul_of_pos_right hlt hbt
  have h3 : j * bt / bt = j := Nat.mul_div_cancel _ hbt
  unfold splitNode
  rw [if_neg (not_not.mpr ⟨h1, h2⟩), if_neg (not_not.mpr (Nat.mul_mod_left _ _))]
  simp only [h3]
  rfl

/-- The common blocks lie inside the tokens ahead. -/
theorem length_take_common {n : Node} {toks : List TokenId} {j : Nat} (hbt : 0 < bt)
    (hj : j = commonBlocks bt (min n.blocks.length (toks.length / bt)) n.tokens toks) :
    (toks.take (j * bt)).length = j * bt := by
  have h1 := (commonBlocks_spec bt (min n.blocks.length (toks.length / bt)) n.tokens toks).1
  have h2 : j ≤ toks.length / bt := by omega
  rw [List.length_take, Nat.min_eq_left ((Nat.le_div_iff_mul_le hbt).mp h2)]

theorem take_common {n : Node} {toks : List TokenId} {j : Nat}
    (hj : j = commonBlocks bt (min n.blocks.length (toks.length / bt)) n.tokens toks) :
    n.tokens.take (j * bt) = toks.take (j * bt) := by
  rw [hj]
  exact (commonBlocks_spec bt _ n.tokens toks).2.1

/-- The match ends inside the child: it is split there. -/
theorem Walked.split {k : UInt64} {n : Node} {c r : Children} {w w' : Walk} {j stamp : Nat}
    (hbt : 0 < bt) (hn : ∀ x ∈ (KeyedForest.cons k n c r).places Ctx.push s, NodeOK bt x)
    (hk : (KeyedForest.cons k n c r).Keyed (keyOf key bt)) (hkey : k = key (w.rest.take bt))
    (hj : j = commonBlocks bt (min n.blocks.length (w.rest.length / bt)) n.tokens w.rest)
    (hj0 : 0 < j) (hlt : j < n.blocks.length) (h1 : w'.rest = w.rest.drop (j * bt))
    (h2 : w'.blocks = w.blocks ++ n.blocks.take j) (h3 : w'.pos = w.pos + j * bt)
    (h4 : w'.nextNode = w.nextNode + 1 ∧ w'.numNodes = w.numNodes + 1 ∧
      w'.node = some w.nextNode) :
    Walked key bt s (.cons k n c r) w
      (.cons k { headOf bt w.nextNode n j with lastAccess := stamp }
        (.cons (keyOf key bt (tailOf bt w.nextNode n j)) (tailOf bt w.nextNode n j) c .nil) r) w'
      (w.rest.take (j * bt)) (n.blocks.take j) where
  change := .inr ⟨n, j, _, hj0, hlt, .here, .cons rfl (.refl _) (.refl _), h4.1, h4.2.1⟩
  rest := by rw [h1, List.take_append_drop]
  blocks := h2
  pos := by
    rw [h3, length_take_common hbt hj]
  aligned := by rw [length_take_lt hlt, length_take_common hbt hj]
  node := by
    refine .inr ⟨w.nextNode, h4.2.2, _, List.mem_cons_self, rfl, ?_, rfl⟩
    rw [← take_common hj]
    rfl
  found := by
    intro i b hb
    have hij : i < j := by
      have := (List.getElem?_eq_some_iff.mp hb).1
      rwa [length_take_lt hlt] at this
    rw [List.getElem?_take_of_lt hij] at hb
    have hpath : (w.rest.take (j * bt)).take ((i + 1) * bt) = n.tokens.take ((i + 1) * bt) := by
      rw [← take_common hj, List.take_take, Nat.min_eq_left (Nat.mul_le_mul_right _ hij)]
    rw [hpath]
    exact ⟨n.lockCount, mem_entries_cons.mpr (.inl (mem_runEntries.mpr ⟨i, b, hb, rfl⟩))⟩
  longest := by
    intro e he hp
    obtain ⟨hn1, hnc, _⟩ := nodes_cons.mp hn
    rcases mem_entries_cons.mp he with he | he | he
    · rw [length_take_common hbt hj, hj]
      exact entry_at_common hn1 hbt he hp
    · have := entry_below_common hn1 hbt hnc hk.2.2.1 he hp
      omega
    · exact absurd hp (not_sibling hn hk hkey he)
  leaves := by
    rw [leafEntries_cons, leafEntries_cons, leafEntries_cons]
    have htoks : ((s.push { headOf bt w.nextNode n j with lastAccess := stamp }).push
        (tailOf bt w.nextNode n j)).toks = (s.push n).toks := by
      show s.toks ++ n.tokens.take (j * bt) ++ n.tokens.drop (j * bt) = s.toks ++ n.tokens
      rw [List.append_assoc, List.take_append_drop]
    rw [leafEntries_congr htoks]
    -- a leaf that is split keeps what lies beyond the match
    refine ⟨if c.isNil then placeEntries bt (s, headOf bt w.nextNode n j) else [], ?_, ?_⟩
    · cases c.isNil with
      | true =>
        rw [if_pos rfl, if_pos rfl, if_pos rfl, ← placeEntries_split s hlt]
        exact .of_eq (by simp [leafEntries, entries, KeyedForest.leaves, KeyedForest.isNil]; rfl)
      | false =>
        exact .of_eq (by simp [leafEntries, entries, KeyedForest.leaves, KeyedForest.isNil])
    · intro e he
      split at he
      · obtain ⟨i, b, _, rfl⟩ := mem_runEntries.mp he
        rw [← take_common hj]
        exact List.prefix_append_right_inj _ |>.mpr (List.take_prefix _ _)
      · cases he

/-- **The walk returns, and is `Walked`.** -/
theorem walk_spec (hbt : 0 < bt) : ∀ (f : Children) (s : Ctx) (w : Walk),
    (∀ x ∈ f.places Ctx.push s, NodeOK bt x) → f.Keyed (keyOf key bt) →
      ∃ f' w' M L, walk key bt f w = .ok (f', w') ∧ Walked key bt s f w f' w' M L
  | .nil, s, w, _, _ => ⟨.nil, w, [], [], rfl, .stop nofun⟩
  | .cons k n c r, s, w, hn, hk => by
    obtain ⟨hn1, hnc, hnr⟩ := nodes_cons.mp hn
    unfold walk
    split
    · -- no tokens left
      rename_i hrest
      refine ⟨_, w, [], [], rfl, .stop fun e _ hp => ?_⟩
      rw [hrest, List.append_nil] at hp
      exact hp.length_le
    · split
      · rename_i hkey
        simp only
        generalize hj : commonBlocks bt (min n.blocks.length (w.rest.length / bt)) n.tokens w.rest = j
        split
        · -- a collision
          rename_i hz
          refine ⟨_, w, [], [], rfl, .stop fun e he hp => ?_⟩
          rcases mem_entries_cons.mp he with he | he | he
          · have := entry_at_common hn1 hbt he hp
            rw [hj, hz] at this
            omega
          · have := entry_below_common hn1 hbt hnc hk.2.2.1 he hp
            have hpos : 0 < n.blocks.length := hn1.blocks_pos
            omega
          · exact absurd hp (not_sibling hn hk hkey he)
        · rename_i hz
          split
          · rename_i hlt
            rw [splitNode_ok _ hn1 hbt (Nat.pos_of_ne_zero hz) hlt]
            have hkn : keyOf key bt n = k := hk.1.symm
            refine ⟨_, _, w.rest.take (j * bt), n.blocks.take j, rfl, ?_⟩
            simp only [hkn]
            exact .split hbt hn hk hkey hj.symm (Nat.pos_of_ne_zero hz) hlt rfl rfl rfl
              ⟨rfl, rfl, rfl⟩
          · rename_i hge
            have hle := (commonBlocks_spec bt (min n.blocks.length (w.rest.length / bt)) n.tokens
              w.rest).1
            have hall : j = n.blocks.length := by omega
            have hal : n.tokens.length = n.blocks.length * bt := hn1.aligned
            have hjl : j * bt = n.tokens.length := by rw [hal, hall]
            have hpre : n.tokens <+: w.rest := by
              have := take_common hj.symm
              rw [hjl, List.take_length] at this
              rw [this]
              exact List.take_prefix _ _
            obtain ⟨c', w', M, L, he, hw⟩ := walk_spec hbt c (s.push n)
              { w with
                blocks := w.blocks ++ n.blocks.take j
                pos := w.pos + j * bt
                rest := w.rest.drop (j * bt)
                clock := w.clock + 1
                node := some n.id } hnc hk.2.2.1
            rw [he]
            refine ⟨_, _, n.tokens ++ M, n.blocks ++ L, rfl, ?_⟩
            refine .into hbt hn hk hkey hpre ?_ ?_ ?_ ⟨?_, ?_, ?_⟩ hw
            · rw [hjl]
            · rw [hall, List.take_length]
            · rw [hjl]
            all_goals rfl
      · rename_i hne
        obtain ⟨r', w', M, L, he, hw⟩ := walk_spec hbt r s w hnr hk.2.2.2
        rw [he]
        exact ⟨_, _, _, _, rfl, .next hn hk hne hw⟩

end RadixTree

end KvsLab
