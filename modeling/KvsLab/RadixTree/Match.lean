import KvsLab.RadixTree.Walk
import KvsLab.RadixTree.Pins

/-!
# `match_prefix` on a well-formed tree

* `Reshaped t t'` — `t'` stores what `t` stores: same entries, every path that ended at a node
  ends there still, and lock counts that were right are right.
* `WF.runWalk` — the walk leaves a reshaped, well-formed tree.
* `WF.matchPrefix` — the result is the longest cached block-aligned prefix.
* `WF.entry_inj` — a token path has one entry, so the result is determined by the entries.
-/

namespace KvsLab

open KeyedForest

namespace RadixTree

variable {key : List TokenId → UInt64} {t t' : RadixTree} {x : Place}

/-- `t'` stores what `t` stores, under the same addresses. -/
structure Reshaped (key : List TokenId → UInt64) (t t' : RadixTree) : Prop where
  wf : WF key t'
  blockTokens : t'.blockTokens = t.blockTokens
  entries : entries t.blockTokens t'.places = entries t.blockTokens t.places
  covers : ∀ {i T B}, Covers t.places i T B → Covers t'.places i T B
  lockOK : ∀ {pins : List NodeId}, (∀ p ∈ pins, p ∈ ids t.places) → LockOK pins t.places →
    LockOK pins t'.places

theorem Covers.mem {ps : List Place} {i : NodeId} {T : List TokenId} {B : List BlockId}
    (h : Covers ps i T B) : i ∈ ids ps := by
  obtain ⟨x, hx, rfl, _⟩ := h
  exact mem_ids hx

theorem mem_ids_covers {ps : List Place} {i : NodeId} (h : i ∈ ids ps) : ∃ T B, Covers ps i T B := by
  obtain ⟨x, hx, rfl⟩ := List.mem_map.mp h
  exact ⟨_, _, x, hx, rfl, rfl, rfl⟩

theorem Reshaped.ids (h : Reshaped key t t') {i : NodeId} (hi : i ∈ ids t.places) :
    i ∈ RadixTree.ids t'.places := by
  obtain ⟨T, B, hc⟩ := mem_ids_covers hi
  exact (h.covers hc).mem

theorem Reshaped.blocksOf (h : Reshaped key t t') : blocksOf t'.places = blocksOf t.places := by
  rw [← map_block_entries t.blockTokens, h.entries, map_block_entries]

theorem Touched.sameNode {f f' : Children} (h : Touched f f') (s : Ctx) :
    ∀ x ∈ f.places Ctx.push s, ∃ y ∈ f'.places Ctx.push s, SameNode x y := by
  intro x hx
  obtain ⟨y, hy, h1, h2⟩ := h.symm.mem hx
  obtain ⟨e1, e2, e3, _, e5⟩ := unstamp_eq h2
  exact ⟨y, hy, e1.symm, e5.symm, by rw [h1, e2], by rw [h1, e3]⟩

/-- New access times. -/
theorem WF.touched (h : WF key t) {f' : Children} (ht : Touched t.children f') (c : Nat) :
    Reshaped key t { t with children := f', clock := c } where
  wf :=
    { bt_pos := h.bt_pos
      root := h.root
      nodes := ht.nodes h.nodes
      keyed := ht.keyed h.keyed
      ids_nodup := (ht.ids .top).symm ▸ h.ids_nodup
      ids_lt := (ht.ids .top).symm ▸ h.ids_lt
      next_pos := h.next_pos
      numNodes := h.numNodes.trans ht.size.symm
      storedBlocks := h.storedBlocks.trans (congrArg List.length (ht.blocksOf .top).symm) }
  blockTokens := rfl
  entries := ht.entries _ .top
  covers := Covers.kept (ht.sameNode .top)
  lockOK := fun _ hl => ht.lockOK hl

/-- One split. -/
theorem WF.split (h : WF key t) {n : Node} {j : Nat} {f' : Children} (hj0 : 0 < j)
    (hj : j < n.blocks.length) (hs : SplitIn key t.blockTokens t.nextNode n j t.children f') :
    Reshaped key t
      { t with children := f', nextNode := t.nextNode + 1, numNodes := t.numNodes + 1 } := by
  have hfresh : t.nextNode ∉ ids t.places := fun hm => Nat.lt_irrefl _ (h.ids_lt _ hm).2
  have hp := hs.splitPlaces hj h.ids_nodup hfresh
  have hids := hp.ids
  have hnext := h.next_pos
  refine ⟨⟨h.bt_pos, h.root, hp.nodes h.bt_pos hj0 h.nodes, hs.keyed hj0 h.keyed, ?_, ?_, ?_, ?_,
    ?_⟩, rfl, hp.entries, Covers.kept hp.sameNode, hp.lockOK⟩
  · exact hids.nodup_iff.mpr (List.nodup_cons.mpr ⟨hfresh, h.ids_nodup⟩)
  · intro i hi
    show kRoot < i ∧ i < t.nextNode + 1
    rcases List.mem_cons.mp (hids.mem_iff.mp hi) with rfl | hi
    · exact ⟨h.next_pos, Nat.lt_succ_self _⟩
    · exact ⟨(h.ids_lt i hi).1, Nat.lt_succ_of_lt (h.ids_lt i hi).2⟩
  · exact Nat.lt_succ_of_lt h.next_pos
  · show t.numNodes + 1 = f'.size
    rw [hs.size, h.numNodes]
  · exact h.storedBlocks.trans (congrArg List.length hp.blocksOf.symm)

theorem Reshaped.trans {t₁ t₂ t₃ : RadixTree} (h : Reshaped key t₁ t₂) (h' : Reshaped key t₂ t₃) :
    Reshaped key t₁ t₃ where
  wf := h'.wf
  blockTokens := h'.blockTokens.trans h.blockTokens
  entries := by rw [← h.entries, ← h.blockTokens, h'.entries]
  covers := fun hc => h'.covers (h.covers hc)
  lockOK := fun hp hl => h'.lockOK (fun p hm => h.ids (hp p hm)) (h.lockOK hp hl)

/-- The leaves hold the same entries up to lock counts. -/
theorem Relocked.leafEntries (h : Relocked key t t') :
    (leafEntries t.blockTokens t'.children .top).map (fun e => (e.path, e.block)) =
      (leafEntries t.blockTokens t.children .top).map fun e => (e.path, e.block) := by
  obtain ⟨g, hk, _, hl⟩ := h.nodes
  unfold RadixTree.leafEntries
  rw [hl]
  exact hk.pairs _ _

/-! ## The walk over a tree -/

/-- What a walk over the first `limit` tokens found. -/
structure Found (key : List TokenId → UInt64) (t : RadixTree) (tokens : List TokenId)
    (limit : Nat) (t' : RadixTree) (w : Walk) : Prop where
  reshaped : Reshaped key t t'
  counters : t'.storedBlocks = t.storedBlocks ∧ t'.collisions = t.collisions ∧ t'.root = t.root
  pos_le : w.pos ≤ (tokens.take limit).length
  aligned : w.pos = w.blocks.length * t.blockTokens
  rest : w.rest = (tokens.take limit).drop w.pos
  node : (w.pos = 0 ∧ w.node = none) ∨
    ∃ i, w.node = some i ∧ Covers t'.places i (tokens.take w.pos) w.blocks
  found : ∀ i b, w.blocks[i]? = some b →
    ∃ lock, ⟨tokens.take ((i + 1) * t.blockTokens), b, lock⟩ ∈ entries t.blockTokens t.places
  longest : ∀ e ∈ entries t.blockTokens t.places, e.path <+: tokens.take limit →
    e.path.length ≤ w.pos
  leaves : KeptBeyond tokens (leafEntries t.blockTokens t.children .top)
    (leafEntries t.blockTokens t'.children .top)

theorem WF.runWalk (h : WF key t) (tokens : List TokenId) (limit : Nat) :
    ∃ t' w, t.runWalk key tokens limit = .ok (t', w) ∧ Found key t tokens limit t' w := by
  obtain ⟨f', w, M, L, he, hw⟩ := walk_spec h.bt_pos t.children .top
    { clock := t.clock, nextNode := t.nextNode, numNodes := t.numNodes, rest := tokens.take limit }
    h.nodes h.keyed
  unfold RadixTree.runWalk
  rw [he]
  refine ⟨_, _, rfl, ?_⟩
  have hrest : tokens.take limit = M ++ w.rest := hw.rest
  have hblocks : w.blocks = L := hw.blocks
  have hpos : w.pos = M.length := hw.pos.trans (Nat.zero_add _)
  have hM : (tokens.take limit).take w.pos = M := by rw [hrest, hpos, List.take_left]
  have hple : w.pos ≤ (tokens.take limit).length := by
    rw [hrest, hpos, List.length_append]
    omega
  have htake : ∀ k ≤ w.pos, M.take k = tokens.take k := by
    intro k hk
    rw [List.length_take] at hple
    rw [← hM, List.take_take, List.take_take]
    congr 1
    omega
  have hMtok : M = tokens.take w.pos := by rw [← htake w.pos (Nat.le_refl _), hpos, List.take_length]
  refine ⟨?_, ⟨rfl, rfl, rfl⟩, hple, ?_, ?_, ?_, ?_, ?_, ?_⟩
  · rcases hw.change with ⟨ht, h1, h2⟩ | ⟨n, j, f₁, h1, h2, h3, h4, h5, h6⟩
    · simp only [h1, h2]
      exact h.touched ht _
    · simp only [h5, h6]
      have hs := h.split h1 h2 h3
      exact hs.trans (hs.wf.touched h4 _)
  · rw [hpos, hw.aligned, hblocks]
  · show w.rest = _
    rw [hrest, hpos, List.drop_left]
  · rcases hw.node with ⟨h1, h2⟩ | ⟨i, h1, h2⟩
    · exact .inl ⟨by rw [hpos, h1]; rfl, h2⟩
    · refine .inr ⟨i, h1, ?_⟩
      rw [← hMtok, hblocks]
      exact h2
  · intro i b hb
    obtain ⟨lock, hl⟩ := hw.found i b (hblocks ▸ hb)
    refine ⟨lock, ?_⟩
    have hle : (i + 1) * t.blockTokens ≤ w.pos := by
      have hi : i < L.length := hblocks ▸ (List.getElem?_eq_some_iff.mp hb).1
      rw [hpos, hw.aligned]
      exact Nat.mul_le_mul_right _ hi
    rw [← htake _ hle]
    exact hl
  · intro e hm hp
    rw [hpos]
    have := hw.longest e hm hp
    simpa [Ctx.top] using this
  · obtain ⟨H, hp, hH⟩ := hw.leaves
    refine ⟨H, hp, fun e he => (hH e he).trans ?_⟩
    show [] ++ M <+: tokens
    rw [List.nil_append, hMtok]
    exact List.take_prefix _ _

/-! ## Entries as a map from token paths -/

/-- Token paths of entries are whole blocks longer than their context's. -/
theorem entries_aligned {bt : Nat} : ∀ {f : Children} {s : Ctx} {e : Entry},
    (∀ x ∈ f.places Ctx.push s, NodeOK bt x) → bt ∣ s.toks.length →
    e ∈ entries bt (f.places Ctx.push s) → bt ∣ e.path.length
  | .nil, _, _, _, _, h => by cases h
  | .cons k n c r, s, e, hn, hs, he => by
    obtain ⟨hn1, hnc, hnr⟩ := nodes_cons.mp hn
    have hal : n.tokens.length = n.blocks.length * bt := hn1.aligned
    rcases mem_entries_cons.mp he with he | he | he
    · obtain ⟨i, b, hb, rfl⟩ := mem_runEntries.mp he
      have hle : (i + 1) * bt ≤ n.tokens.length := by
        rw [hal]
        exact Nat.mul_le_mul_right _ (List.getElem?_eq_some_iff.mp hb).1
      show bt ∣ (s.toks ++ n.tokens.take ((i + 1) * bt)).length
      rw [List.length_append, List.length_take, Nat.min_eq_left hle]
      exact Nat.dvd_add hs (Nat.dvd_mul_left _ _)
    · refine entries_aligned hnc ?_ he
      show bt ∣ (s.toks ++ n.tokens).length
      rw [List.length_append, hal]
      exact Nat.dvd_add hs (Nat.dvd_mul_left _ _)
    · exact entries_aligned hnr hs he

/-- Two prefixes of one list of equal length are equal. -/
theorem prefix_unique {a b l : List TokenId} (ha : a <+: l) (hb : b <+: l)
    (h : a.length = b.length) : a = b :=
  (List.prefix_of_prefix_length_le ha hb (Nat.le_of_eq h)).eq_of_length h

/-- An entry of a child and an entry of one of its siblings have different paths. -/
theorem sibling_path_ne {bt : Nat} {k : UInt64} {n : Node} {c r : Children} {s : Ctx} {e e' : Entry}
    (hn : ∀ x ∈ (KeyedForest.cons k n c r).places Ctx.push s, NodeOK bt x)
    (hk : (KeyedForest.cons k n c r).Keyed (keyOf key bt))
    (he : e ∈ placeEntries bt (s, n) ∨ e ∈ entries bt (c.places Ctx.push (s.push n)))
    (he' : e' ∈ entries bt (r.places Ctx.push s)) : e.path ≠ e'.path := by
  intro hp
  obtain ⟨B, hB, h1, h2⟩ := child_key hn hk he
  obtain ⟨B', hB', h1', h2'⟩ := entries_key (nodes_cons.mp hn).2.2 hk.2.2.2 he'
  rw [hp] at h1
  have hBB : s.toks ++ B = s.toks ++ B' :=
    prefix_unique h1 h1' (by rw [List.length_append, List.length_append, hB, hB'])
  rw [List.append_cancel_left hBB] at h2
  exact hk.2.1 (h2 ▸ h2')

/-- **A token path has one entry.** -/
theorem entries_inj {bt : Nat} (hbt : 0 < bt) : ∀ {f : Children} {s : Ctx} {e e' : Entry},
    (∀ x ∈ f.places Ctx.push s, NodeOK bt x) → f.Keyed (keyOf key bt) →
    e ∈ entries bt (f.places Ctx.push s) → e' ∈ entries bt (f.places Ctx.push s) →
    e.path = e'.path → e = e'
  | .nil, _, _, _, _, _, h, _, _ => by cases h
  | .cons k n c r, s, e, e', hn, hk, he, he', hp => by
    obtain ⟨hn1, hnc, hnr⟩ := nodes_cons.mp hn
    have hal : n.tokens.length = n.blocks.length * bt := hn1.aligned
    have hlen : ∀ {i b}, n.blocks[i]? = some b →
        (s.toks ++ n.tokens.take ((i + 1) * bt)).length = s.toks.length + (i + 1) * bt := by
      intro i b hb
      have hle : (i + 1) * bt ≤ n.tokens.length := by
        rw [hal]
        exact Nat.mul_le_mul_right _ (List.getElem?_eq_some_iff.mp hb).1
      rw [List.length_append, List.length_take, Nat.min_eq_left hle]
    -- an entry below the node is longer than the node's own
    have hdeep : ∀ {d d' : Entry}, d ∈ placeEntries bt (s, n) →
        d' ∈ entries bt (c.places Ctx.push (s.push n)) → d.path ≠ d'.path := by
      intro d d' hd hd' h
      obtain ⟨i, b, hb, rfl⟩ := mem_runEntries.mp hd
      obtain ⟨B, hB, hpre, _⟩ := entries_key hnc hk.2.2.1 hd'
      have h1 : (s.toks ++ n.tokens ++ B).length ≤ d'.path.length := hpre.length_le
      rw [← h, hlen hb, List.length_append, List.length_append, hal, hB] at h1
      have h2 : (i + 1) * bt ≤ n.blocks.length * bt :=
        Nat.mul_le_mul_right _ (List.getElem?_eq_some_iff.mp hb).1
      omega
    rcases mem_entries_cons.mp he with h1 | h1 | h1 <;>
      rcases mem_entries_cons.mp he' with h2 | h2 | h2
    · obtain ⟨i, b, hb, rfl⟩ := mem_runEntries.mp h1
      obtain ⟨i', b', hb', rfl⟩ := mem_runEntries.mp h2
      have hl := congrArg List.length hp
      rw [hlen hb, hlen hb'] at hl
      have hii : i = i' := by
        have := Nat.eq_of_mul_eq_mul_right hbt (Nat.add_left_cancel hl)
        omega
      subst hii
      rw [hb] at hb'
      cases hb'
      rfl
    · exact absurd hp (hdeep h1 h2)
    · exact absurd hp (sibling_path_ne hn hk (.inl h1) h2)
    · exact absurd hp.symm (hdeep h2 h1)
    · exact entries_inj hbt hnc hk.2.2.1 h1 h2 hp
    · exact absurd hp (sibling_path_ne hn hk (.inr h1) h2)
    · exact absurd hp.symm (sibling_path_ne hn hk (.inl h2) h1)
    · exact absurd hp.symm (sibling_path_ne hn hk (.inr h2) h1)
    · exact entries_inj hbt hnr hk.2.2.2 h1 h2 hp

theorem WF.entry_inj (h : WF key t) {e e' : Entry} (he : e ∈ entries t.blockTokens t.places)
    (he' : e' ∈ entries t.blockTokens t.places) (hp : e.path = e'.path) : e = e' :=
  entries_inj h.bt_pos h.nodes h.keyed he he' hp

theorem WF.entry_aligned (h : WF key t) {e : Entry} (he : e ∈ entries t.blockTokens t.places) :
    t.blockTokens ∣ e.path.length := entries_aligned h.nodes (Nat.dvd_zero _) he

theorem WF.entry_path_ne (h : WF key t) {e : Entry} (he : e ∈ entries t.blockTokens t.places) :
    e.path ≠ [] := by
  obtain ⟨x, hx, he⟩ := List.mem_flatMap.mp he
  obtain ⟨k, b, _, rfl⟩ := mem_runEntries.mp he
  intro h0
  have h0 : x.2.tokens.take ((k + 1) * t.blockTokens) = [] := (List.append_eq_nil_iff.mp h0).2
  have hbt := h.bt_pos
  rcases List.take_eq_nil_iff.mp h0 with h0 | h0
  · rcases Nat.mul_eq_zero.mp h0 with h0 | h0 <;> omega
  · exact (h.nodes x hx).tokens h0

/-- An entry that covers a prefix of the tokens lies in their whole blocks. -/
theorem WF.entry_prefix_limit (h : WF key t) {e : Entry}
    (he : e ∈ entries t.blockTokens t.places) {tokens : List TokenId} (hp : e.path <+: tokens) :
    e.path <+: tokens.take (tokens.length / t.blockTokens * t.blockTokens) := by
  obtain ⟨m, hm⟩ := h.entry_aligned he
  have hle : e.path.length ≤ tokens.length / t.blockTokens * t.blockTokens := by
    rw [hm, Nat.mul_comm]
    apply Nat.mul_le_mul_right
    rw [Nat.le_div_iff_mul_le h.bt_pos, Nat.mul_comm, ← hm]
    exact hp.length_le
  rw [List.prefix_take_iff]
  exact ⟨hp, hle⟩

/-! ## `match_prefix` -/

/-- What `match_prefix(tokens)` returned and left. -/
structure Matched (key : List TokenId → UInt64) (t : RadixTree) (tokens : List TokenId)
    (r : MatchResult) (t' : RadixTree) : Prop where
  reshaped : Reshaped key t t'
  numTokens : r.numTokens = r.blocks.length * t.blockTokens
  le : r.numTokens ≤ tokens.length
  node : (r.blocks = [] ∧ r.node = none) ∨
    ∃ i, r.node = some i ∧ r.blocks ≠ [] ∧ Covers t'.places i (tokens.take r.numTokens) r.blocks
  found : ∀ i b, r.blocks[i]? = some b →
    ∃ lock, ⟨tokens.take ((i + 1) * t.blockTokens), b, lock⟩ ∈ entries t.blockTokens t.places
  longest : ∀ e ∈ entries t.blockTokens t.places, e.path <+: tokens →
    e.path.length ≤ r.numTokens
  leaves : KeptBeyond tokens (leafEntries t.blockTokens t.children .top)
    (leafEntries t.blockTokens t'.children .top)

/-- The tree `match_prefix` leaves is the one its walk leaves. -/
theorem matchPrefix_walk {tokens : List TokenId} {r : MatchResult} {t' : RadixTree}
    (h : t.matchPrefix key tokens = .ok (r, t')) :
    ∃ w, t.runWalk key tokens (tokens.length / t.blockTokens * t.blockTokens) = .ok (t', w) := by
  unfold RadixTree.matchPrefix at h
  cases hq : t.runWalk key tokens (tokens.length / t.blockTokens * t.blockTokens) with
  | error e =>
    simp only [hq] at h
    cases h
  | ok q =>
    simp only [hq] at h
    cases h
    exact ⟨q.2, rfl⟩

/-- Fewer tokens than a block match nothing, and the tree is left alone. -/
theorem matchPrefix_short {tokens : List TokenId} (h : tokens.length < t.blockTokens) :
    t.matchPrefix key tokens = .ok ({}, t) := by
  have hwalk : ∀ (c : Children) (w : Walk), w.rest = [] →
      walk key t.blockTokens c w = .ok (c, w) := by
    intro c w hw
    cases c with
    | nil => rfl
    | cons k child kids siblings => rw [walk, if_pos hw]
  unfold RadixTree.matchPrefix RadixTree.runWalk
  simp only [Nat.div_eq_of_lt h, Nat.zero_mul]
  rw [hwalk t.children { clock := t.clock, nextNode := t.nextNode, numNodes := t.numNodes
                         rest := tokens.take 0 } rfl]
  rfl

/-- **`match_prefix` returns the longest cached prefix.** -/
theorem WF.matchPrefix (h : WF key t) (tokens : List TokenId) :
    ∃ r t', t.matchPrefix key tokens = .ok (r, t') ∧ Matched key t tokens r t' := by
  obtain ⟨t', w, he, hf⟩ := h.runWalk tokens (tokens.length / t.blockTokens * t.blockTokens)
  unfold RadixTree.matchPrefix
  simp only [he]
  refine ⟨_, _, rfl, hf.reshaped, hf.aligned, ?_, ?_, hf.found, ?_, hf.leaves⟩
  · exact hf.pos_le.trans (by rw [List.length_take]; exact Nat.min_le_right _ _)
  · have hz : w.blocks = [] ↔ w.pos = 0 := by
      rw [hf.aligned, Nat.mul_eq_zero, List.length_eq_zero_iff]
      have := h.bt_pos
      constructor
      · exact .inl
      · rintro (h0 | h0)
        · exact h0
        · omega
    rcases hf.node with ⟨h1, h2⟩ | ⟨i, h1, h2⟩
    · exact .inl ⟨hz.mpr h1, h2⟩
    · refine .inr ⟨i, h1, ?_, h2⟩
      intro hb
      have hb' : w.blocks = [] := hb
      obtain ⟨x, hx, _, hT, _⟩ := h2
      rw [hz.mp hb', List.take_zero] at hT
      exact (hf.reshaped.wf.nodes x hx).tokens (List.append_eq_nil_iff.mp hT).2
  · intro e hm hp
    exact hf.longest e hm (h.entry_prefix_limit hm hp)

/-- The longest cached prefix of one tree is no longer than that of another that has its
entries. -/
theorem Matched.numTokens_le {t₁ t₂ t₁' t₂' : RadixTree} {tokens : List TokenId}
    {r₁ r₂ : MatchResult} (h₁ : Matched key t₁ tokens r₁ t₁') (h₂ : Matched key t₂ tokens r₂ t₂')
    (hbt : t₂.blockTokens = t₁.blockTokens)
    (hsub : ∀ e ∈ entries t₁.blockTokens t₁.places, ∃ e' ∈ entries t₁.blockTokens t₂.places,
      e'.path = e.path ∧ e'.block = e.block) : r₁.numTokens ≤ r₂.numTokens := by
  rcases Nat.eq_zero_or_pos r₁.blocks.length with h0 | hpos
  · rw [h₁.numTokens, h0, Nat.zero_mul]
    exact Nat.zero_le _
  · have hlast : r₁.blocks.length - 1 < r₁.blocks.length := by omega
    obtain ⟨l, he⟩ := h₁.found _ _ (List.getElem?_eq_getElem hlast)
    obtain ⟨e', he', hp, _⟩ := hsub _ he
    have hpath : e'.path = tokens.take r₁.numTokens := by
      rw [hp, h₁.numTokens]
      show tokens.take ((r₁.blocks.length - 1 + 1) * t₁.blockTokens) = _
      rw [Nat.sub_add_cancel hpos]
    rw [← hbt] at he'
    have := h₂.longest e' he' (hpath ▸ List.take_prefix _ _)
    rw [hpath, List.length_take, Nat.min_eq_left h₁.le] at this
    exact this

/-- **Lookups depend on the entries only.** -/
theorem Matched.congr {t₁ t₂ t₁' t₂' : RadixTree} {tokens : List TokenId} {r₁ r₂ : MatchResult}
    (hw : WF key t₁) (h₁ : Matched key t₁ tokens r₁ t₁') (h₂ : Matched key t₂ tokens r₂ t₂')
    (hbt : t₂.blockTokens = t₁.blockTokens)
    (h12 : ∀ e ∈ entries t₁.blockTokens t₁.places, ∃ e' ∈ entries t₁.blockTokens t₂.places,
      e'.path = e.path ∧ e'.block = e.block)
    (h21 : ∀ e ∈ entries t₁.blockTokens t₂.places, ∃ e' ∈ entries t₁.blockTokens t₁.places,
      e'.path = e.path ∧ e'.block = e.block) :
    r₂.numTokens = r₁.numTokens ∧ r₂.blocks = r₁.blocks := by
  have hnum : r₂.numTokens = r₁.numTokens :=
    Nat.le_antisymm (h₂.numTokens_le h₁ hbt.symm (hbt.symm ▸ h21)) (h₁.numTokens_le h₂ hbt h12)
  refine ⟨hnum, ?_⟩
  have hlen : r₂.blocks.length = r₁.blocks.length := by
    rw [h₁.numTokens, h₂.numTokens, hbt] at hnum
    exact Nat.eq_of_mul_eq_mul_right hw.bt_pos hnum
  refine List.ext_getElem hlen fun i hi₂ hi₁ => ?_
  obtain ⟨l₁, he₁⟩ := h₁.found i _ (List.getElem?_eq_getElem hi₁)
  obtain ⟨l₂, he₂⟩ := h₂.found i _ (List.getElem?_eq_getElem hi₂)
  rw [hbt] at he₂
  obtain ⟨e, he, hp, hb⟩ := h21 _ he₂
  have := hw.entry_inj he he₁ hp
  rw [this] at hb
  exact hb.symm

end RadixTree

end KvsLab
