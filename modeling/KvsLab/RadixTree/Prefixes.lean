import Mathlib.Data.List.Nodup
import KvsLab.Lib.PrefixStore
import KvsLab.RadixTree.Adoption
import KvsLab.RadixTree.Pinned

/-!
# The tree as a set of prefixes

* `paths t` — the token prefixes a tree caches.
* `WF.closed`, `WF.told` — they are the prefixes of a store: closed, and blocks that follow the same
  prefix have different keys.
* `Pruned.paths` — what an eviction forgets, counted.
* `WF.insert_offers` — **an insert adds every whole block of its tokens that the table covers, or
  meets a sibling with the key of its next block**, and counts a collision exactly then.
* `evict_collisions` and its like — no other operation counts one.
-/

namespace KvsLab

open KeyedForest PrefixStore Lockstep

namespace RadixTree

variable {key : List TokenId → UInt64} {t t' : RadixTree} {path tokens : List TokenId}

/-- The token prefixes a tree caches. -/
def paths (t : RadixTree) : Finset (List TokenId) :=
  ((entries t.blockTokens t.places).map (·.path)).toFinset

theorem mem_paths : path ∈ t.paths ↔ ∃ e ∈ entries t.blockTokens t.places, e.path = path := by
  simp [paths]

theorem WF.mem_paths (h : WF key t) : path ∈ t.paths ↔ t.cached path ≠ none := by
  rw [RadixTree.mem_paths, h.cached_ne_none]

theorem paths_congr (h : WF key t) (h' : WF key t') (hc : t'.cached = t.cached) :
    t'.paths = t.paths := by
  ext path
  rw [h'.mem_paths, h.mem_paths, hc]

theorem Reshaped.paths (h : Reshaped key t t') : t'.paths = t.paths := by
  unfold RadixTree.paths
  rw [h.blockTokens, h.entries]

theorem Relocked.paths (h : Relocked key t t') : t'.paths = t.paths := by
  have he := congrArg (List.map Prod.fst) h.entries
  rw [List.map_map, List.map_map] at he
  unfold RadixTree.paths
  rw [h.blockTokens]
  exact congrArg List.toFinset he

/-! ## Closed -/

/-- Every prefix of a cached prefix is cached. -/
theorem WF.closed (h : WF key t) : Closed t.blockTokens t.paths := by
  intro path hp
  obtain ⟨e, he, rfl⟩ := RadixTree.mem_paths.mp hp
  obtain ⟨r, t', -, hm⟩ := h.matchPrefix e.path
  have hl := hm.longest_cached h
  have hle := hl.longest e.path (List.prefix_refl _) (h.mem_paths.mp hp)
  obtain ⟨hn, hn'⟩ := hl.numTokens
  refine ⟨r.blocks.length, ?_, by omega, fun q hq => ?_⟩
  · apply Nat.pos_of_ne_zero
    intro h0
    rw [h0, Nat.zero_mul] at hn
    exact h.entry_path_ne he (List.eq_nil_of_length_eq_zero (by omega))
  · obtain ⟨i, hi, rfl⟩ := mem_runs.mp hq
    rw [h.mem_paths, hl.blocks i hi, List.getElem?_eq_getElem hi]
    exact Option.some_ne_none _

/-- The prefixes of a node's path are cached. -/
theorem Covers.paths (h : WF key t) {i : NodeId} {B : List BlockId}
    (hc : Covers t.places i path B) : runs t.blockTokens B.length path ⊆ t.paths := by
  intro q hq
  obtain ⟨j, hj, rfl⟩ := mem_runs.mp hq
  obtain ⟨l, he⟩ := covers_entry h hc (List.getElem?_eq_getElem hj)
  exact RadixTree.mem_paths.mpr ⟨_, he, rfl⟩

/-! ## Siblings -/

/-- An entry of a child and an entry of one of its siblings do not end in blocks with one key after
the same prefix. -/
theorem sibling_key_ne {bt : Nat} {k : UInt64} {n : Node} {c r : Children} {s : Ctx} {e e' : Entry}
    {u X X' : List TokenId} (hs : bt ∣ s.toks.length)
    (hn : ∀ x ∈ (KeyedForest.cons k n c r).places Ctx.push s, NodeOK bt x)
    (hk : (KeyedForest.cons k n c r).Keyed (keyOf key bt))
    (he : e ∈ placeEntries bt (s, n) ∨ e ∈ entries bt (c.places Ctx.push (s.push n)))
    (he' : e' ∈ entries bt (r.places Ctx.push s)) (hX : X.length = bt) (hX' : X'.length = bt)
    (hu : e.path = u ++ X) (hu' : e'.path = u ++ X') : key X ≠ key X' := by
  intro hkey
  obtain ⟨B, hB, h1, h2⟩ := child_key hn hk he
  obtain ⟨B', hB', h1', h2'⟩ := entries_key (nodes_cons.mp hn).2.2 hk.2.2.2 he'
  have hal : bt ∣ e'.path.length := entries_aligned (nodes_cons.mp hn).2.2 hs he'
  rw [hu] at h1
  rw [hu'] at h1' hal
  have hle := h1.length_le
  rw [List.length_append, List.length_append] at hle
  rcases Nat.lt_or_ge u.length (s.toks.length + bt) with hlt | hge
  · -- the siblings' first blocks are the two blocks
    have hlen : s.toks.length = u.length := by
      obtain ⟨i, hi⟩ := hs
      rw [List.length_append, hX'] at hal
      obtain ⟨j, hj⟩ := (Nat.dvd_add_left (Nat.dvd_refl bt)).mp hal
      have hij : bt * i ≤ bt * j := by omega
      have hji : bt * j < bt * (i + 1) := by
        rw [Nat.mul_succ]
        omega
      have h3 := Nat.lt_of_mul_lt_mul_left hji
      have h4 : 0 < bt := Nat.pos_of_ne_zero fun h0 => by simp [h0] at hji
      have h5 := Nat.le_of_mul_le_mul_left hij h4
      have h6 : i = j := by omega
      rw [hi, hj, h6]
    have hBX : B = X := by
      have := h1.eq_of_length (by simp [hlen, hB, hX])
      exact (List.append_inj this hlen).2
    have hBX' : B' = X' := by
      have := h1'.eq_of_length (by simp [hlen, hB', hX'])
      exact (List.append_inj this hlen).2
    rw [hBX] at h2
    rw [hBX'] at h2'
    exact hk.2.1 (h2 ▸ hkey ▸ h2')
  · -- both blocks lie below one first block
    have hpre : ∀ {C Y : List TokenId}, C.length = bt → s.toks ++ C <+: u ++ Y →
        s.toks ++ C <+: u := fun hC hpre =>
      List.prefix_of_prefix_length_le hpre (List.prefix_append _ _)
        (by rw [List.length_append, hC]; exact hge)
    have hBB := append_unique (hpre hB h1) (hpre hB' h1') (hB.trans hB'.symm)
    exact hk.2.1 (h2 ▸ hBB ▸ h2')

/-- **Blocks that follow the same prefix have different keys.** -/
theorem entries_told {bt : Nat} (hbt : 0 < bt) {u X X' : List TokenId} (hX : X.length = bt)
    (hX' : X'.length = bt) (hkey : key X = key X') : ∀ {f : Children} {s : Ctx} {e e' : Entry},
    (∀ x ∈ f.places Ctx.push s, NodeOK bt x) → f.Keyed (keyOf key bt) → bt ∣ s.toks.length →
    e ∈ entries bt (f.places Ctx.push s) → e' ∈ entries bt (f.places Ctx.push s) →
    e.path = u ++ X → e'.path = u ++ X' → X = X'
  | .nil, _, _, _, _, _, _, h, _, _, _ => by cases h
  | .cons k n c r, s, e, e', hn, hk, hs, he, he', hu, hu' => by
    obtain ⟨hn1, hnc, hnr⟩ := nodes_cons.mp hn
    have hal : n.tokens.length = n.blocks.length * bt := hn1.aligned
    -- a node's own entries are prefixes of its path, those below it are longer
    have hown : ∀ {d : Entry}, d ∈ placeEntries bt (s, n) → d.path <+: s.toks ++ n.tokens := by
      intro d hd
      obtain ⟨i, b, -, rfl⟩ := mem_runEntries.mp hd
      exact (List.prefix_append_right_inj _).mpr (List.take_prefix _ _)
    have hdeep : ∀ {d d' : Entry}, d ∈ placeEntries bt (s, n) →
        d' ∈ entries bt (c.places Ctx.push (s.push n)) → d.path.length < d'.path.length := by
      intro d d' hd hd'
      obtain ⟨B, hB, hpre, -⟩ := entries_key hnc hk.2.2.1 hd'
      have h1 := (hown hd).length_le
      have h2 : (s.toks ++ n.tokens ++ B).length ≤ d'.path.length := hpre.length_le
      rw [List.length_append, hB] at h2
      omega
    have hlen : e.path.length = e'.path.length := by simp [hu, hu', hX, hX']
    rcases mem_entries_cons.mp he with h1 | h1 | h1 <;>
      rcases mem_entries_cons.mp he' with h2 | h2 | h2
    · exact append_unique (hu ▸ hown h1) (hu' ▸ hown h2) (hX.trans hX'.symm)
    · have := hdeep h1 h2
      omega
    · exact absurd hkey (sibling_key_ne hs hn hk (.inl h1) h2 hX hX' hu hu')
    · have := hdeep h2 h1
      omega
    · refine entries_told hbt hX hX' hkey hnc hk.2.2.1 ?_ h1 h2 hu hu'
      show bt ∣ (s.toks ++ n.tokens).length
      rw [List.length_append, hal]
      exact Nat.dvd_add hs (Nat.dvd_mul_left _ _)
    · exact absurd hkey (sibling_key_ne hs hn hk (.inr h1) h2 hX hX' hu hu')
    · exact absurd hkey.symm (sibling_key_ne hs hn hk (.inl h2) h1 hX' hX hu' hu)
    · exact absurd hkey.symm (sibling_key_ne hs hn hk (.inr h2) h1 hX' hX hu' hu)
    · exact entries_told hbt hX hX' hkey hnr hk.2.2.2 hs h1 h2 hu hu'

theorem WF.told (h : WF key t) : Told key t.blockTokens t.paths := by
  intro u X X' hX hX' hm hm' hkey
  obtain ⟨e, he, hu⟩ := RadixTree.mem_paths.mp hm
  obtain ⟨e', he', hu'⟩ := RadixTree.mem_paths.mp hm'
  exact entries_told h.bt_pos hX hX' hkey h.nodes h.keyed (Nat.dvd_zero _) he he' hu hu'

/-! ## Evicting -/

theorem WF.nodup_paths (h : WF key t) (hn : (blocksOf t.places).Nodup) :
    ((entries t.blockTokens t.places).map (·.path)).Nodup := by
  rw [← map_block_entries t.blockTokens] at hn
  exact (List.Nodup.of_map _ hn).map_on fun e he e' he' hp => h.entry_inj he he' hp

/-- What is evicted is forgotten, and counted once. -/
theorem Pruned.paths {D : List Entry} (h : Pruned key t D t') (hw : WF key t)
    (hn : (RadixTree.blocksOf t.places).Nodup) :
    t'.paths ⊆ t.paths ∧ (t.paths \ t'.paths).card = D.length := by
  have hperm := h.entries.map (·.path)
  rw [List.map_append] at hperm
  have hnd := hperm.nodup_iff.mp (hw.nodup_paths hn)
  have hmem : ∀ path, path ∈ t.paths ↔ path ∈ D.map (·.path) ∨ path ∈ t'.paths := by
    intro path
    simp only [RadixTree.paths, List.mem_toFinset, h.blockTokens]
    rw [hperm.mem_iff, List.mem_append]
  refine ⟨fun path hp => (hmem path).mpr (.inr hp), ?_⟩
  have hgone : t.paths \ t'.paths = (D.map (·.path)).toFinset := by
    ext path
    rw [Finset.mem_sdiff, hmem, List.mem_toFinset]
    constructor
    · rintro ⟨hd | hp, hnot⟩
      · exact hd
      · exact absurd hp hnot
    · intro hd
      refine ⟨.inl hd, fun hp => ?_⟩
      simp only [RadixTree.paths, List.mem_toFinset, h.blockTokens] at hp
      exact (List.nodup_append'.mp hnd).2.2 hd hp
  rw [hgone, List.toFinset_card_of_nodup (List.nodup_append'.mp hnd).1, List.length_map]

/-! ## Inserting -/

/-- The child in the slot of the next block starts with a sibling of it. -/
theorem Found.sibling (hw : WF key t) {m : Nat} {w : Walk}
    (hf : Found key t tokens (m * t.blockTokens) t' w) (hm : m * t.blockTokens ≤ tokens.length)
    (hk : w.blocks.length < m)
    (hocc : key (w.rest.take t.blockTokens) ∈
      (t'.childrenOf (w.node.getD t'.root.id)).keys) :
    Collides key t.blockTokens t.paths (runs t.blockTokens m tokens) := by
  rw [← KeyedForest.map_fst_items] at hocc
  obtain ⟨e, he, hkey⟩ := List.mem_map.mp hocc
  have hw' := hf.reshaped.wf
  have hbt := hf.reshaped.blockTokens
  obtain ⟨s, hs, hst⟩ := hf.ctx
  obtain ⟨hkeyed, hsub⟩ := childrenOf_spec hw'.linked hw'.keyed hs
  obtain ⟨hpl, hown⟩ := mem_items (s := s) hkeyed he
  have hown : e.1 = key (e.2.tokens.take t.blockTokens) := hbt ▸ hown
  have hnode := hw'.nodes _ (hsub _ hpl)
  have hle : t.blockTokens ≤ e.2.tokens.length := hbt ▸ hnode.block_le
  have hmul : (w.blocks.length + 1) * t.blockTokens ≤ m * t.blockTokens := Nat.mul_le_mul_right _ hk
  have hnext : w.rest.take t.blockTokens =
      (tokens.drop (w.blocks.length * t.blockTokens)).take t.blockTokens := by
    rw [hf.rest, hf.aligned, List.drop_take, List.take_take, Nat.min_eq_left]
    rw [← Nat.sub_mul]
    exact Nat.le_mul_of_pos_left _ (by omega)
  rw [Nat.succ_mul] at hmul
  refine ⟨s.toks, e.2.tokens.take t.blockTokens, w.rest.take t.blockTokens, ?_, ?_, ?_, ?_,
    hf.occupied hw hm hk he, hown.symm.trans hkey⟩
  · rw [List.length_take, Nat.min_eq_left hle]
  · rw [hnext, List.length_take, List.length_drop]
    omega
  · obtain ⟨b, hb⟩ : ∃ b, e.2.blocks[0]? = some b := ⟨_, List.getElem?_eq_getElem hnode.blocks_pos⟩
    rw [← hf.reshaped.paths]
    refine RadixTree.mem_paths.mpr ⟨⟨_, b, e.2.lockCount⟩, ?_, rfl⟩
    rw [hbt]
    exact List.mem_flatMap.mpr ⟨_, hsub _ hpl, mem_runEntries.mpr ⟨0, b, hb, by simp⟩⟩
  · refine mem_runs.mpr ⟨w.blocks.length, hk, ?_⟩
    rw [hnext, hst, hf.aligned, Nat.succ_mul, List.take_add]

/-- **An insert adds every whole block of its tokens that the table covers, or meets a sibling with
the key of its next block.** -/
theorem WF.insert_offers (hw : WF key t) {p p' : BlockPool} {blocks : List BlockId} {n m : Nat}
    (he : t.insert key p tokens blocks = .ok (n, t', p')) (hw' : WF key t')
    (hm : m = min (tokens.length / t.blockTokens) blocks.length) :
    (t'.collisions = t.collisions ∧ t'.paths = t.paths ∪ runs t.blockTokens m tokens ∧
      ¬ Collides key t.blockTokens t.paths (runs t.blockTokens m tokens)) ∨
    (t'.collisions = t.collisions + 1 ∧ t'.paths = t.paths ∧
      Collides key t.blockTokens t.paths (runs t.blockTokens m tokens)) := by
  have hLt : m * t.blockTokens ≤ tokens.length := by
    rw [hm]
    exact (Nat.mul_le_mul_right _ (Nat.min_le_left _ _)).trans (Nat.div_mul_le_self _ _)
  obtain ⟨t₁, w, -, hf, hend⟩ := hw.insert_cases p tokens blocks hm
  rcases hend with ⟨hk, he'⟩ | ⟨hk, hocc, he'⟩ | ⟨hk, -, x, t₂, hg, -, -, hc, he'⟩
  · cases he.symm.trans he'
    obtain ⟨hadds, -⟩ := hf.full hw hLt hk (w.node.getD t₁.root.id)
    have hsub : runs t.blockTokens m tokens ⊆ t.paths := by
      intro q hq
      obtain ⟨i, hi, rfl⟩ := mem_runs.mp hq
      rw [hw.mem_paths, hf.cached_iff hw hLt hi, hk]
      exact hi
    exact .inl ⟨hadds.collisions, by
      rw [paths_congr hw hw' hadds.cached, Finset.union_eq_left.mpr hsub], hw.told.clear hsub⟩
  · cases he.symm.trans he'
    have hadds := hf.refused hw
    exact .inr ⟨hadds.collisions, paths_congr hw hw' hadds.cached, hf.sibling hw hLt hk hocc⟩
  · obtain ⟨q, -, e⟩ := map_ok (he'.symm.trans he)
    cases e
    have hadds := (hf.adopted hw hg hc).1
    have hbt : t'.blockTokens = t.blockTokens := hg.blockTokens.trans hf.reshaped.blockTokens
    have hpaths : t'.paths = t.paths ∪ runs t.blockTokens m tokens := by
      ext path
      rw [Finset.mem_union, hw'.mem_paths, hw.mem_paths, mem_runs, Option.ne_none_iff_exists',
        Option.ne_none_iff_exists']
      constructor
      · rintro ⟨b, hb⟩
        rcases (hadds.cached path b).mp hb with h | ⟨i, -, hi, rfl, -⟩
        · exact .inl ⟨b, h⟩
        · exact .inr ⟨i, hi, rfl⟩
      · rintro (⟨b, hb⟩ | ⟨i, hi, rfl⟩)
        · exact ⟨b, hadds.kept path b hb⟩
        · by_cases hik : i < w.blocks.length
          · obtain ⟨b, hb⟩ := Option.ne_none_iff_exists'.mp ((hf.cached_iff hw hLt hi).mpr hik)
            exact ⟨b, hadds.kept _ b hb⟩
          · have hib := List.getElem?_eq_getElem (hi.trans_le hg.le_blocks)
            exact ⟨_, (hadds.cached _ _).mpr (.inr ⟨i, by omega, hi, rfl, hib⟩)⟩
    refine .inl ⟨hadds.collisions, hpaths, ?_⟩
    -- the keys of the new tree tell its siblings apart
    rintro ⟨u, X, X', hX, hX', hm₁, hm₂, hne, hkey⟩
    have htold := hw'.told
    rw [hbt, hpaths] at htold
    exact hne (htold u X X' hX hX' (Finset.mem_union_left _ hm₁) (Finset.mem_union_right _ hm₂) hkey)

/-! ## Who counts collisions -/

@[simp] theorem setNode_collisions (t : RadixTree) (id : NodeId) (g : Node → Node) :
    (t.setNode id g).collisions = t.collisions := by
  unfold setNode
  split <;> rfl

theorem matchPrefix_collisions {r : MatchResult} (h : t.matchPrefix key tokens = .ok (r, t')) :
    t'.collisions = t.collisions := by
  obtain ⟨w, hw⟩ := matchPrefix_walk h
  obtain ⟨x, -, hx⟩ := bind_ok hw
  cases hx
  rfl

theorem climb_collisions {g : Node → Except Fault Node} : ∀ {fuel : Nat} {t : RadixTree}
    {id : Option NodeId}, climb g fuel t id = .ok t' → t'.collisions = t.collisions := by
  intro fuel
  induction fuel with
  | zero =>
    intro t id h
    cases id with
    | none =>
      cases h
      rfl
    | some id =>
      unfold climb at h
      split at h
      · cases h
        rfl
      · cases h
  | succ fuel ih =>
    intro t id h
    cases id with
    | none =>
      cases h
      rfl
    | some id =>
      unfold climb at h
      split at h
      · cases h
        rfl
      · split at h
        · cases h
        · cases h
        · rename_i hf _
          cases hf
          obtain ⟨n', -, h⟩ := bind_ok h
          rw [ih h, setNode_collisions]

theorem dropLeaf_collisions {p p' : BlockPool} {victim : Node} {n : Nat}
    (h : t.dropLeaf key p victim = .ok (n, t', p')) : t'.collisions = t.collisions := by
  obtain ⟨⟨k, q⟩, -, h⟩ := bind_ok h
  dsimp only at h
  split at h
  · cases h
  · cases h
    rfl

theorem evictLoop_collisions {limit n : Nat} : ∀ {fuel freed : Nat} {rejected : List NodeId}
    {t : RadixTree} {p p' : BlockPool},
    evictLoop key limit fuel freed rejected t p = .ok (n, t', p') → t'.collisions = t.collisions := by
  intro fuel
  induction fuel with
  | zero =>
    intro freed rejected t p p' h
    unfold evictLoop at h
    split at h
    · cases h
      rfl
    · split at h
      · cases h
        rfl
      · cases h
      · rename_i hf _
        cases hf
  | succ fuel ih =>
    intro freed rejected t p p' h
    unfold evictLoop at h
    split at h
    · cases h
      rfl
    · split at h
      · cases h
        rfl
      · rename_i hf _
        cases hf
      · rename_i hf _
        cases hf
        obtain ⟨sole, -, h⟩ := bind_ok h
        split at h
        · exact ih h
        · obtain ⟨⟨k, t₁, p₁⟩, hd, h⟩ := bind_ok h
          dsimp only at h
          split at h
          · cases h
          · rw [ih h, dropLeaf_collisions hd]

theorem evict_collisions {p p' : BlockPool} {limit n : Nat}
    (h : t.evict key p limit = .ok (n, t', p')) : t'.collisions = t.collisions :=
  evictLoop_collisions h

end RadixTree

end KvsLab
