import KvsLab.RadixTree.Leaf

/-!
# What a pin protects

* `ancestor` — every address of a context is a place above, with a shorter path.
* `path_entries` — the blocks along a path are entries of the nodes on it.
* `lock_ne_zero` — a node is locked exactly when a pin lies at it or below it.
* `covered_locked` — every block on the path of a pinned node lies in a locked node.
* `locked_covered` — every entry of a locked node lies on the path of a pinned node.
* `all_locked` — when every leaf is locked, every node is.
-/

namespace KvsLab

open KeyedForest

namespace RadixTree

variable {key : List TokenId → UInt64} {t : RadixTree} {x y z : Place} {pins : List NodeId}

/-! ## Ancestors -/

/-- Every address of a context is a place above, whose path is a prefix. -/
theorem ancestor : ∀ {l : List NodeId} {z : Place}, z ∈ t.places → z.1.path = l →
    ∀ i ∈ l, ∃ y ∈ t.places, y.2.id = i ∧ (∀ m ∈ y.2.id :: y.1.path, m ∈ l) ∧
      y.1.toks ++ y.2.tokens <+: z.1.toks ∧ y.1.blks ++ y.2.blocks <+: z.1.blks
  | [], _, _, _, _, hi => by cases hi
  | a :: l, z, hz, hl, i, hi => by
    rcases ctx_parent hz with he | ⟨y, hy, he⟩
    · rw [he] at hl
      cases hl
    · have hpath : y.2.id = a ∧ y.1.path = l := by
        rw [he] at hl
        simpa [Ctx.push] using hl
      have htoks : z.1.toks = y.1.toks ++ y.2.tokens := by rw [he]; rfl
      have hblks : z.1.blks = y.1.blks ++ y.2.blocks := by rw [he]; rfl
      rcases List.mem_cons.mp hi with rfl | hi
      · refine ⟨y, hy, hpath.1, ?_, htoks ▸ List.prefix_refl _, hblks ▸ List.prefix_refl _⟩
        rw [hpath.1, hpath.2]
        exact fun m hm => hm
      · obtain ⟨w, hw, h1, h2, h3, h4⟩ := ancestor hy hpath.2 i hi
        refine ⟨w, hw, h1, fun m hm => List.mem_cons_of_mem _ (h2 m hm), ?_, ?_⟩
        · exact h3.trans (htoks ▸ List.prefix_append _ _)
        · exact h4.trans (hblks ▸ List.prefix_append _ _)

/-- Being below is transitive along places. -/
theorem path_trans (hy : y ∈ t.places) (hz : z ∈ t.places) (hn : (ids t.places).Nodup)
    {m : NodeId} (hm : m ∈ y.2.id :: y.1.path) (hyz : y.2.id ∈ z.2.id :: z.1.path) :
    m ∈ z.2.id :: z.1.path := by
  rcases List.mem_cons.mp hyz with e | hi
  · rw [← place_inj hn hy hz e]
    exact hm
  · obtain ⟨w, hw, h1, h2, _⟩ := ancestor hz rfl _ hi
    rw [← place_inj hn hw hy h1] at hm
    exact List.mem_cons_of_mem _ (h2 m hm)

/-- The blocks above a node are blocks of its ancestors. -/
theorem mem_ctx_blks : ∀ {l : List NodeId} {z : Place}, z ∈ t.places → z.1.path = l →
    ∀ b ∈ z.1.blks, ∃ y ∈ t.places, y.2.id ∈ l ∧ b ∈ y.2.blocks
  | l, z, hz, hl, b, hb => by
    rcases ctx_parent hz with he | ⟨y, hy, he⟩
    · rw [he] at hb
      cases hb
    · have hblks : z.1.blks = y.1.blks ++ y.2.blocks := by rw [he]; rfl
      have hpath : l = y.2.id :: y.1.path := by rw [← hl, he]; rfl
      rw [hblks] at hb
      rcases List.mem_append.mp hb with hb | hb
      · have hlt : y.1.path.length < l.length := by rw [hpath]; exact Nat.lt_succ_self _
        obtain ⟨w, hw, h1, h2⟩ := mem_ctx_blks hy rfl b hb
        exact ⟨w, hw, hpath ▸ List.mem_cons_of_mem _ h1, h2⟩
      · exact ⟨y, hy, hpath ▸ List.mem_cons_self, hb⟩
  termination_by l => l.length

/-- A context is aligned, and the blocks above a node are the entries of its ancestors. -/
theorem ctx_entries (h : WF key t) : ∀ {l : List NodeId} {z : Place}, z ∈ t.places →
    z.1.path = l → z.1.toks.length = z.1.blks.length * t.blockTokens ∧
    ∀ k b, z.1.blks[k]? = some b → ∃ y ∈ t.places, y.2.id ∈ l ∧
      ⟨z.1.toks.take ((k + 1) * t.blockTokens), b, y.2.lockCount⟩ ∈ placeEntries t.blockTokens y
  | l, z, hz, hl => by
    rcases ctx_parent hz with he | ⟨y, hy, he⟩
    · rw [he]
      exact ⟨by simp [Ctx.top], fun k b hb => by simp [Ctx.top] at hb⟩
    · have hpath : l = y.2.id :: y.1.path := by rw [← hl, he]; rfl
      have hlt : y.1.path.length < l.length := by rw [hpath]; exact Nat.lt_succ_self _
      obtain ⟨ih1, ih2⟩ := ctx_entries h hy rfl
      have hal := (h.nodes y hy).aligned
      have htoks : z.1.toks = y.1.toks ++ y.2.tokens := by rw [he]; rfl
      have hblks : z.1.blks = y.1.blks ++ y.2.blocks := by rw [he]; rfl
      rw [htoks, hblks]
      refine ⟨by rw [List.length_append, List.length_append, ih1, hal, Nat.add_mul], ?_⟩
      intro k b hb
      by_cases hk : k < y.1.blks.length
      · rw [List.getElem?_append_left hk] at hb
        obtain ⟨w, hw, h1, h2⟩ := ih2 k b hb
        refine ⟨w, hw, hpath ▸ List.mem_cons_of_mem _ h1, ?_⟩
        rw [List.take_append_of_le_length (by rw [ih1]; exact Nat.mul_le_mul_right _ hk)]
        exact h2
      · rw [List.getElem?_append_right (Nat.le_of_not_lt hk)] at hb
        refine ⟨y, hy, hpath ▸ List.mem_cons_self, mem_runEntries.mpr ⟨_, b, hb, ?_⟩⟩
        have hsub : (k + 1) * t.blockTokens - y.1.toks.length =
            (k - y.1.blks.length + 1) * t.blockTokens := by
          rw [ih1, ← Nat.sub_mul]
          congr 1
          omega
        have hle : y.1.toks.length ≤ (k + 1) * t.blockTokens := by
          rw [ih1]
          exact Nat.mul_le_mul_right _ (by omega)
        rw [List.take_append, List.take_of_length_le hle, hsub]
  termination_by l => l.length

/-- **The blocks along a path are entries**, each under the tokens up to it. -/
theorem path_entries (h : WF key t) (hz : z ∈ t.places) {k : Nat} {b : BlockId}
    (hb : (z.1.blks ++ z.2.blocks)[k]? = some b) :
    ∃ y ∈ t.places, y.2.id ∈ z.2.id :: z.1.path ∧
      ⟨(z.1.toks ++ z.2.tokens).take ((k + 1) * t.blockTokens), b, y.2.lockCount⟩ ∈
        placeEntries t.blockTokens y := by
  obtain ⟨hal, hctx⟩ := ctx_entries h hz rfl
  by_cases hk : k < z.1.blks.length
  · rw [List.getElem?_append_left hk] at hb
    obtain ⟨y, hy, h1, h2⟩ := hctx k b hb
    refine ⟨y, hy, List.mem_cons_of_mem _ h1, ?_⟩
    rw [List.take_append_of_le_length (by rw [hal]; exact Nat.mul_le_mul_right _ hk)]
    exact h2
  · rw [List.getElem?_append_right (Nat.le_of_not_lt hk)] at hb
    refine ⟨z, hz, List.mem_cons_self, mem_runEntries.mpr ⟨_, b, hb, ?_⟩⟩
    have hsub : (k + 1) * t.blockTokens - z.1.toks.length =
        (k - z.1.blks.length + 1) * t.blockTokens := by
      rw [hal, ← Nat.sub_mul]
      congr 1
      omega
    have hle : z.1.toks.length ≤ (k + 1) * t.blockTokens := by
      rw [hal]
      exact Nat.mul_le_mul_right _ (by omega)
    rw [List.take_append, List.take_of_length_le hle, hsub]

theorem covers_aligned (h : WF key t) {i : NodeId} {T : List TokenId} {B : List BlockId}
    (hc : Covers t.places i T B) : T.length = B.length * t.blockTokens := by
  obtain ⟨z, hz, _, rfl, rfl⟩ := hc
  rw [List.length_append, List.length_append, (ctx_entries h hz rfl).1, (h.nodes z hz).aligned,
    Nat.add_mul]

theorem covers_entry (h : WF key t) {i : NodeId} {T : List TokenId} {B : List BlockId}
    (hc : Covers t.places i T B) {k : Nat} {b : BlockId} (hb : B[k]? = some b) :
    ∃ lock, ⟨T.take ((k + 1) * t.blockTokens), b, lock⟩ ∈ entries t.blockTokens t.places := by
  obtain ⟨z, hz, _, rfl, rfl⟩ := hc
  obtain ⟨y, hy, _, he⟩ := path_entries h hz hb
  exact ⟨_, List.mem_flatMap.mpr ⟨y, hy, he⟩⟩

/-! ## Locked nodes -/

theorem lock_ne_zero (hl : LockOK pins t.places) (hx : x ∈ t.places) :
    x.2.lockCount ≠ 0 ↔ ∃ i ∈ pins, below t.places x.2.id i = true := by
  rw [hl x hx, ← Nat.pos_iff_ne_zero, List.countP_pos_iff]

theorem lock_ne_zero_of_path (hn : (ids t.places).Nodup) (hl : LockOK pins t.places)
    (hx : x ∈ t.places) (hz : z ∈ t.places) (hp : z.2.id ∈ pins)
    (hm : x.2.id ∈ z.2.id :: z.1.path) : x.2.lockCount ≠ 0 :=
  (lock_ne_zero hl hx).mpr ⟨_, hp, (below_iff hn hz _).mpr hm⟩

/-- A block has one entry. -/
theorem entry_block_inj (hn : (blocksOf t.places).Nodup) {e e' : Entry}
    (he : e ∈ entries t.blockTokens t.places) (he' : e' ∈ entries t.blockTokens t.places)
    (hb : e.block = e'.block) : e = e' := by
  rw [← map_block_entries t.blockTokens] at hn
  exact List.inj_on_of_nodup_map hn he he' hb

theorem mem_placeEntries {bt : Nat} {e : Entry} (he : e ∈ placeEntries bt x) :
    e.block ∈ x.2.blocks ∧ e.lock = x.2.lockCount ∧ e.path <+: x.1.toks ++ x.2.tokens := by
  obtain ⟨k, b, hb, rfl⟩ := mem_runEntries.mp he
  refine ⟨List.mem_of_getElem? hb, rfl, ?_⟩
  rw [List.prefix_append_right_inj]
  exact List.take_prefix _ _

/-- **A node lies above another exactly when its entries cover a prefix of the other's path.** -/
theorem on_path_iff (h : WF key t) (hn : (blocksOf t.places).Nodup) (hy : y ∈ t.places)
    (hz : z ∈ t.places) {e : Entry} (he : e ∈ placeEntries t.blockTokens y) :
    y.2.id ∈ z.2.id :: z.1.path ↔ e.path <+: z.1.toks ++ z.2.tokens := by
  obtain ⟨hb, _, hpre⟩ := mem_placeEntries he
  constructor
  · intro hm
    rcases List.mem_cons.mp hm with hm | hm
    · rw [← place_inj h.ids_nodup hy hz hm]
      exact hpre
    · obtain ⟨w, hw, h1, _, h3, _⟩ := ancestor hz rfl _ hm
      rw [place_inj h.ids_nodup hw hy h1] at h3
      exact hpre.trans (h3.trans (List.prefix_append _ _))
  · intro hp
    -- the block at the end of the entry's path is on the path of `z`
    have hmem : e ∈ entries t.blockTokens t.places := List.mem_flatMap.mpr ⟨y, hy, he⟩
    have hcov : Covers t.places z.2.id (z.1.toks ++ z.2.tokens) (z.1.blks ++ z.2.blocks) :=
      ⟨z, hz, rfl, rfl, rfl⟩
    have hal := covers_aligned h hcov
    obtain ⟨k, hk⟩ := h.entry_aligned hmem
    have hpos : 0 < k := by
      rcases Nat.eq_zero_or_pos k with rfl | hk0
      · rw [Nat.mul_zero, List.length_eq_zero_iff] at hk
        exact absurd hk (h.entry_path_ne hmem)
      · exact hk0
    have hlt : k - 1 < (z.1.blks ++ z.2.blocks).length := by
      have hle := hp.length_le
      rw [hal, hk, Nat.mul_comm] at hle
      have := Nat.le_of_mul_le_mul_right hle h.bt_pos
      omega
    obtain ⟨w, hw, hwp, hwe⟩ := path_entries h hz (List.getElem?_eq_getElem hlt)
    have hpath : (z.1.toks ++ z.2.tokens).take ((k - 1 + 1) * t.blockTokens) = e.path := by
      rw [Nat.sub_add_cancel hpos, Nat.mul_comm, ← hk]
      exact (List.prefix_iff_eq_take.mp hp).symm
    have heq := h.entry_inj (List.mem_flatMap.mpr ⟨w, hw, hwe⟩) hmem hpath
    have hbw : e.block ∈ w.2.blocks := heq ▸ (mem_placeEntries hwe).1
    rw [block_place hn hy hw hb hbw]
    exact hwp

/-- **A pin protects the blocks on its path.** -/
theorem covered_locked (h : WF key t) (hn : (blocksOf t.places).Nodup)
    (hl : LockOK pins t.places) {i : NodeId} (hi : i ∈ pins) {T : List TokenId} {B : List BlockId}
    (hc : Covers t.places i T B) {b : BlockId} (hb : b ∈ B) (hx : x ∈ t.places)
    (hbx : b ∈ x.2.blocks) : x.2.lockCount ≠ 0 := by
  obtain ⟨z, hz, rfl, _, rfl⟩ := hc
  rcases List.mem_append.mp hb with hb | hb
  · obtain ⟨y, hy, h1, h2⟩ := mem_ctx_blks hz rfl b hb
    rw [block_place hn hx hy hbx h2]
    exact lock_ne_zero_of_path h.ids_nodup hl hy hz hi (List.mem_cons_of_mem _ h1)
  · rw [block_place hn hx hz hbx hb]
    exact lock_ne_zero_of_path h.ids_nodup hl hz hz hi List.mem_cons_self

/-- **An entry of a locked node lies on the path of a pin.** -/
theorem locked_covered (h : WF key t) (hl : LockOK pins t.places) {e : Entry}
    (he : e ∈ entries t.blockTokens t.places) (hlock : e.lock ≠ 0) :
    ∃ i ∈ pins, ∃ T B, Covers t.places i T B ∧ e.path <+: T ∧ e.block ∈ B := by
  obtain ⟨x, hx, he⟩ := List.mem_flatMap.mp he
  obtain ⟨k, b, hb, rfl⟩ := mem_runEntries.mp he
  obtain ⟨i, hi, hbelow⟩ := (lock_ne_zero hl hx).mp hlock
  have hin : i ∈ ids t.places := by
    unfold below at hbelow
    obtain ⟨y, hy, hc⟩ := List.any_eq_true.mp hbelow
    simp only [Bool.and_eq_true, beq_iff_eq] at hc
    exact hc.1 ▸ mem_ids hy
  obtain ⟨z, hz, rfl⟩ := List.mem_map.mp hin
  refine ⟨_, hi, _, _, ⟨z, hz, rfl, rfl, rfl⟩, ?_⟩
  have hself : x.1.toks ++ x.2.tokens.take ((k + 1) * t.blockTokens) <+: x.1.toks ++ x.2.tokens := by
    rw [List.prefix_append_right_inj]
    exact List.take_prefix _ _
  have hmem : b ∈ x.2.blocks := List.mem_of_getElem? hb
  rcases List.mem_cons.mp ((below_iff h.ids_nodup hz _).mp hbelow) with e | hm
  · rw [place_inj h.ids_nodup hz hx e.symm]
    exact ⟨hself, List.mem_append_right _ hmem⟩
  · obtain ⟨y, hy, h1, _, h3, h4⟩ := ancestor hz rfl _ hm
    rw [place_inj h.ids_nodup hy hx h1] at h3 h4
    exact ⟨hself.trans (h3.trans (List.prefix_append _ _)),
      List.mem_append_left _ (h4.subset (List.mem_append_right _ hmem))⟩

/-! ## Leaves -/

theorem ctx_suffix : ∀ {f : Children} {s : Ctx} {x : Place}, x ∈ f.places Ctx.push s →
    ∀ i ∈ s.path, i ∈ x.1.path
  | .nil, _, _, h, _, _ => by cases h
  | .cons k n c r, s, x, h, i, hi => by
    simp only [KeyedForest.places, List.mem_cons, List.mem_append] at h
    rcases h with rfl | h | h
    · exact hi
    · exact ctx_suffix h i (List.mem_cons_of_mem _ hi)
    · exact ctx_suffix h i hi

/-- Every node has a leaf at or below it. -/
theorem leaf_below : ∀ {f : Children} {s : Ctx} {x : Place}, x ∈ f.places Ctx.push s →
    ∃ y ∈ f.leaves Ctx.push s, x.2.id ∈ y.2.id :: y.1.path
  | .nil, _, _, h => by cases h
  | .cons k n c r, s, x, h => by
    simp only [KeyedForest.places, List.mem_cons, List.mem_append] at h
    simp only [KeyedForest.leaves, List.mem_append]
    rcases h with rfl | h | h
    · cases hc : c with
      | nil => exact ⟨(s, n), .inl (by simp [KeyedForest.isNil]), List.mem_cons_self⟩
      | cons k' m c' r' =>
        have hm : (s.push n, m) ∈ c.places Ctx.push (s.push n) := by
          rw [hc]
          exact List.mem_cons_self
        obtain ⟨y, hy, _⟩ := leaf_below hm
        refine ⟨y, .inr (.inl (hc ▸ hy)), List.mem_cons_of_mem _ ?_⟩
        exact ctx_suffix (mem_places_of_mem_leaves hy) n.id List.mem_cons_self
    · obtain ⟨y, hy, h1⟩ := leaf_below h
      exact ⟨y, .inr (.inl hy), h1⟩
    · obtain ⟨y, hy, h1⟩ := leaf_below h
      exact ⟨y, .inr (.inr hy), h1⟩

/-- **When every leaf is locked, every node is.** -/
theorem all_locked (h : WF key t) (hl : LockOK pins t.places)
    (hlv : ∀ y ∈ t.children.leaves Ctx.push .top, y.2.lockCount ≠ 0) :
    ∀ x ∈ t.places, x.2.lockCount ≠ 0 := by
  intro x hx
  obtain ⟨y, hy, hxy⟩ := leaf_below hx
  have hyp : y ∈ t.places := mem_places_of_mem_leaves hy
  obtain ⟨i, hi, hb⟩ := (lock_ne_zero hl hyp).mp (hlv y hy)
  refine (lock_ne_zero hl hx).mpr ⟨i, hi, ?_⟩
  unfold below at hb
  obtain ⟨z, hz, hc⟩ := List.any_eq_true.mp hb
  simp only [Bool.and_eq_true, beq_iff_eq, List.contains_iff_mem] at hc
  rw [← hc.1]
  exact (below_iff h.ids_nodup hz _).mpr (path_trans hyp hz h.ids_nodup hxy hc.2)

end RadixTree

end KvsLab
