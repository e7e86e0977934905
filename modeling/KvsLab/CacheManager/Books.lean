import KvsLab.CacheManager.Moves
import KvsLab.RadixTree.Evict
import KvsLab.RadixTree.Pinned

/-!
# Who holds what

* `Claim` — what a handle holds: a pinned path with its tokens and blocks, and the fresh blocks it
  carries a reference to.
* `Books key cl t p` — the tree and the pool are in order and agree with the claims `cl`: every
  reference is the tree's or a claim's, none twice, lock counts count the claims' pins, and each
  pin names a node whose path is the claim's cached prefix.
* One lemma per change the manager makes: reshaping the tree, pinning and unpinning, evicting,
  moving blocks, allocating, dropping references, publishing.
* `Retains` — the entries left were there before, and their blocks were not freed in between.
-/

namespace KvsLab

open RadixTree BlockPool

/-- What a handle holds. -/
structure Claim where
  tokens : List TokenId := []
  cached : List BlockId := []
  fresh : List BlockId := []
  pinned : Option NodeId := none
  deriving DecidableEq, Repr

/-- The block table. -/
def Claim.table (c : Claim) : List BlockId := c.cached ++ c.fresh

/-- The pin is null exactly for an empty cached prefix, and otherwise names the node whose path
is the cached prefix. -/
def Claim.Pinned (c : Claim) (t : RadixTree) : Prop :=
  (c.pinned = none ∧ c.tokens = [] ∧ c.cached = []) ∨
    ∃ i, c.pinned = some i ∧ c.cached ≠ [] ∧ Covers t.places i c.tokens c.cached

/-- Every reference: the tree's and the claims'. -/
def held (cl : List Claim) (t : RadixTree) : List BlockId :=
  blocksOf t.places ++ cl.flatMap (·.fresh)

def pinsOf (cl : List Claim) : List NodeId := cl.filterMap (·.pinned)

/-- The tree, the pool and the claims agree. -/
structure Books (key : List TokenId → UInt64) (cl : List Claim) (t : RadixTree) (p : BlockPool) :
    Prop where
  inv : p.Inv
  wf : WF key t
  refs : ∀ id, p.refcount id = (held cl t).count id
  nodup : (held cl t).Nodup
  locks : LockOK (pinsOf cl) t.places
  pins : ∀ c ∈ cl, c.Pinned t

variable {key : List TokenId → UInt64} {cl cl' : List Claim} {c : Claim} {t t' : RadixTree}
  {p p' q : BlockPool} {b : BlockId}

namespace Books

/-! ## Consequences -/

theorem perm (h : Books key cl t p) (hp : cl.Perm cl') : Books key cl' t p := by
  have hh : (held cl t).Perm (held cl' t) := (hp.flatMap_right _).append_left _
  refine ⟨h.inv, h.wf, fun id => (h.refs id).trans (hh.count_eq id), hh.nodup_iff.mp h.nodup, ?_,
    fun c hc => h.pins c (hp.mem_iff.mpr hc)⟩
  intro y hy
  rw [h.locks y hy]
  exact (hp.filterMap _).countP_eq _

theorem refcount_one (h : Books key cl t p) (hb : b ∈ held cl t) : p.refcount b = 1 := by
  rw [h.refs b]
  exact List.count_eq_one_of_mem h.nodup hb

theorem held_iff (h : Books key cl t p) : p.refcount b ≠ 0 ↔ b ∈ held cl t := by
  rw [h.refs b, ← Nat.pos_iff_ne_zero]
  exact List.count_pos_iff

theorem mem_held_tree (cl : List Claim) (hb : b ∈ blocksOf t.places) : b ∈ held cl t :=
  List.mem_append_left _ hb

theorem mem_held_fresh (t : RadixTree) (hc : c ∈ cl) (hb : b ∈ c.fresh) : b ∈ held cl t :=
  List.mem_append_right _ (List.mem_flatMap.mpr ⟨c, hc, hb⟩)

theorem sole (h : Books key cl t p) : Sole t p :=
  ⟨(List.nodup_append'.mp h.nodup).1, fun _ hb => h.refcount_one (mem_held_tree cl hb)⟩

theorem mem_pinsOf (hc : c ∈ cl) {i : NodeId} (hi : c.pinned = some i) : i ∈ pinsOf cl :=
  List.mem_filterMap.mpr ⟨c, hc, hi⟩

theorem pins_mem (h : Books key cl t p) : ∀ i ∈ pinsOf cl, i ∈ ids t.places := by
  intro i hi
  obtain ⟨c, hc, hci⟩ := List.mem_filterMap.mp hi
  rcases h.pins c hc with ⟨hn, _⟩ | ⟨j, hj, _, hcov⟩
  · rw [hn] at hci; cases hci
  · rw [hj] at hci
    cases hci
    exact hcov.mem

theorem covers_blocks {i : NodeId} {T : List TokenId} {B : List BlockId}
    (hc : Covers t.places i T B) : ∀ b ∈ B, b ∈ blocksOf t.places := by
  obtain ⟨z, hz, _, _, rfl⟩ := hc
  intro b hb
  rcases List.mem_append.mp hb with hb | hb
  · obtain ⟨y, hy, _, hyb⟩ := mem_ctx_blks hz rfl b hb
    exact mem_blocksOf hy hyb
  · exact mem_blocksOf hz hb

theorem cached_tree (h : Books key cl t p) (hc : c ∈ cl) (hb : b ∈ c.cached) :
    b ∈ blocksOf t.places := by
  rcases h.pins c hc with ⟨_, _, h0⟩ | ⟨i, _, _, hcov⟩
  · rw [h0] at hb; cases hb
  · exact covers_blocks hcov b hb

theorem table_held (h : Books key cl t p) (hc : c ∈ cl) (hb : b ∈ c.table) : b ∈ held cl t := by
  rcases List.mem_append.mp hb with hb | hb
  · exact mem_held_tree cl (h.cached_tree hc hb)
  · exact mem_held_fresh t hc hb

/-- A path holds no block twice. -/
theorem covers_nodup (h : Books key cl t p) {i : NodeId} {T : List TokenId} {B : List BlockId}
    (hc : Covers t.places i T B) : B.Nodup := by
  have hal := covers_aligned h.wf hc
  have hbt := h.wf.bt_pos
  have hinj : ∀ e ∈ entries t.blockTokens t.places, ∀ e' ∈ entries t.blockTokens t.places,
      e.block = e'.block → e = e' := by
    have hn := h.sole.nodup
    rw [← map_block_entries t.blockTokens] at hn
    exact List.inj_on_of_nodup_map hn
  rw [List.nodup_iff_getElem?_ne_getElem?]
  intro k k' hlt hlen heq
  have hk : B[k']? = some B[k'] := List.getElem?_eq_getElem hlen
  obtain ⟨l, he⟩ := covers_entry h.wf hc (heq.trans hk)
  obtain ⟨l', he'⟩ := covers_entry h.wf hc hk
  have hpath := congrArg (List.length ∘ Entry.path) (hinj _ he _ he' rfl)
  simp only [Function.comp, List.length_take, hal] at hpath
  have h1 : (k + 1) * t.blockTokens ≤ B.length * t.blockTokens := Nat.mul_le_mul_right _ (by omega)
  have h2 : (k' + 1) * t.blockTokens ≤ B.length * t.blockTokens := Nat.mul_le_mul_right _ hlen
  rw [Nat.min_eq_left h1, Nat.min_eq_left h2] at hpath
  have := Nat.eq_of_mul_eq_mul_right hbt hpath
  omega

/-- A table holds no block twice. -/
theorem table_nodup (h : Books key cl t p) (hc : c ∈ cl) : c.table.Nodup := by
  obtain ⟨_, hf, hdis⟩ := List.nodup_append'.mp h.nodup
  refine List.nodup_append'.mpr ⟨?_, ?_, ?_⟩
  · rcases h.pins c hc with ⟨_, _, h0⟩ | ⟨i, _, _, hcov⟩
    · rw [h0]; exact List.nodup_nil
    · exact h.covers_nodup hcov
  · exact (List.nodup_flatMap.mp hf).1 c hc
  · intro b hb hb'
    exact hdis (h.cached_tree hc hb) (List.mem_flatMap.mpr ⟨c, hc, hb'⟩)

/-! ## Changes of one side -/

theorem of_refcount (h : Books key cl t p) (hi : p'.Inv) (hr : p'.refcount = p.refcount) :
    Books key cl t p' :=
  ⟨hi, h.wf, fun id => by rw [hr, h.refs], h.nodup, h.locks, h.pins⟩

theorem shifted (h : Books key cl t p) {l : List BlockId} (hs : Shifted l p p') :
    Books key cl t p' := h.of_refcount hs.inv hs.refcount

theorem drain (h : Books key cl t p) : Books key cl t p.drainMigrations :=
  h.of_refcount h.inv.drainMigrations (drain_refcount p)

theorem held_congr (hb : blocksOf t'.places = blocksOf t.places) : held cl t' = held cl t := by
  unfold held
  rw [hb]

theorem reshaped (h : Books key cl t p) (hr : Reshaped key t t') : Books key cl t' p := by
  have hh : held cl t' = held cl t := held_congr hr.blocksOf
  refine ⟨h.inv, hr.wf, hh.symm ▸ h.refs, hh.symm ▸ h.nodup, hr.lockOK h.pins_mem h.locks, ?_⟩
  intro c hc
  rcases h.pins c hc with h0 | ⟨i, h1, h2, hcov⟩
  · exact .inl h0
  · exact .inr ⟨i, h1, h2, hr.covers hcov⟩

/-! ## Pinning and unpinning -/

theorem relocked (h : Books key cl t p) (hr : Relocked key t t') (hcl : ∀ c ∈ cl', c.Pinned t)
    (hf : cl'.flatMap (·.fresh) = cl.flatMap (·.fresh)) (hl : LockOK (pinsOf cl') t'.places) :
    Books key cl' t' p := by
  have hh : held cl' t' = held cl t := by
    unfold held
    rw [hr.blocksOf, hf]
  refine ⟨h.inv, hr.wf, hh.symm ▸ h.refs, hh.symm ▸ h.nodup, hl, ?_⟩
  intro c hc
  rcases hcl c hc with h0 | ⟨i, h1, h2, hcov⟩
  · exact .inl h0
  · exact .inr ⟨i, h1, h2, hr.covers_iff.mpr hcov⟩

/-- **Pinning a path makes it a claim.** -/
theorem pin (h : Books key cl t p) (hc : c.Pinned t) (hf : c.fresh = []) :
    ∃ t', CacheManager.pin t c.pinned = .ok t' ∧ Relocked key t t' ∧ Books key (c :: cl) t' p := by
  have hcl : ∀ d ∈ c :: cl, d.Pinned t := by
    intro d hd
    rcases List.mem_cons.mp hd with rfl | hd
    · exact hc
    · exact h.pins d hd
  have hflat : (c :: cl).flatMap (·.fresh) = cl.flatMap (·.fresh) := by
    rw [List.flatMap_cons, hf, List.nil_append]
  rcases hc with ⟨h0, _⟩ | ⟨i, hi, _, hcov⟩
  · rw [h0]
    refine ⟨t, rfl, .refl h.wf, h.relocked (.refl h.wf) hcl hflat ?_⟩
    have : pinsOf (c :: cl) = pinsOf cl := by simp [pinsOf, h0]
    rw [this]
    exact h.locks
  · rw [hi]
    obtain ⟨z, hz, rfl, _⟩ := hcov
    obtain ⟨t', he, hr, hl⟩ := h.wf.lock hz h.locks
    refine ⟨t', he, hr, h.relocked hr hcl hflat ?_⟩
    have : pinsOf (c :: cl) = z.2.id :: pinsOf cl := by simp [pinsOf, hi]
    rw [this]
    exact hl

/-- **Unpinning is balanced.** -/
theorem unpin (h : Books key (c :: cl) t p) (hf : c.fresh = []) :
    ∃ t', CacheManager.unpin t c.pinned = .ok t' ∧ Relocked key t t' ∧ Books key cl t' p := by
  have hcl : ∀ d ∈ cl, d.Pinned t := fun d hd => h.pins d (List.mem_cons_of_mem _ hd)
  have hflat : cl.flatMap (·.fresh) = (c :: cl).flatMap (·.fresh) := by
    rw [List.flatMap_cons, hf, List.nil_append]
  have hl := h.locks
  rcases h.pins c List.mem_cons_self with ⟨h0, _⟩ | ⟨i, hi, _, hcov⟩
  · rw [h0]
    refine ⟨t, rfl, .refl h.wf, h.relocked (.refl h.wf) hcl hflat ?_⟩
    have : pinsOf (c :: cl) = pinsOf cl := by simp [pinsOf, h0]
    rwa [this] at hl
  · rw [hi]
    obtain ⟨z, hz, rfl, _⟩ := hcov
    have : pinsOf (c :: cl) = z.2.id :: pinsOf cl := by simp [pinsOf, hi]
    rw [this] at hl
    obtain ⟨t', he, hr, hl'⟩ := h.wf.unlock hz hl
    exact ⟨t', he, hr, h.relocked hr hcl hflat hl'⟩

/-! ## Evicting -/

theorem held_pruned {D : List Entry} (hp : Pruned key t D t') :
    (held cl t).Perm (D.map (·.block) ++ held cl t') := by
  unfold held
  rw [← List.append_assoc]
  exact hp.blocksOf.append_right _

/-- **Evicting unpinned leaves keeps the books.** -/
theorem pruned (h : Books key cl t p) {D : List Entry} (hp : Pruned key t D t') :
    Books key cl t' (p.releaseAll (D.map (·.block))) ∧
      Released (D.map (·.block)) p (p.releaseAll (D.map (·.block))) := by
  obtain ⟨hn, hone, _⟩ := h.sole.pruned h.inv hp
  have hrel := h.inv.releaseAll hn fun b hb => by rw [hone b hb]; exact Nat.one_ne_zero
  have hperm : (held cl t).Perm (D.map (·.block) ++ held cl t') := held_pruned hp
  have hnd := hperm.nodup_iff.mp h.nodup
  obtain ⟨_, hnd', hdis⟩ := List.nodup_append'.mp hnd
  refine ⟨⟨hrel.inv, hp.wf, ?_, hnd', hp.lockOK h.locks, ?_⟩, hrel⟩
  · intro id
    by_cases hd : id ∈ D.map (·.block)
    · rw [hrel.gone id hd, List.count_eq_zero.mpr fun hm => hdis hd hm]
    · rw [(hrel.same id hd).refcount, h.refs id, hperm.count_eq, List.count_append,
        List.count_eq_zero.mpr hd, Nat.zero_add]
  · intro c hc
    rcases h.pins c hc with h0 | ⟨i, h1, h2, hcov⟩
    · exact .inl h0
    · exact .inr ⟨i, h1, h2, hp.covers h.locks i (mem_pinsOf hc h1) hcov⟩

/-! ## Allocating and giving back -/

/-- **New blocks belong to the claim they are allocated for.** -/
theorem take (h : Books key (c :: cl) t p) {ids : List BlockId}
    (ht : CacheManager.Taken ids p p') :
    Books key ({ c with fresh := c.fresh ++ ids } :: cl) t p' := by
  have hperm : (held ({ c with fresh := c.fresh ++ ids } :: cl) t).Perm (ids ++ held (c :: cl) t) := by
    unfold held
    simp only [List.flatMap_cons]
    rw [← List.append_assoc, ← List.append_assoc, ← List.append_assoc, ← List.append_assoc]
    refine List.Perm.append_right _ ?_
    rw [List.append_assoc ids]
    exact List.perm_append_comm
  have hnot : ∀ b ∈ ids, b ∉ held (c :: cl) t := fun b hb hm => by
    have := ht.free b hb
    rw [h.refcount_one hm] at this
    cases this
  refine ⟨ht.inv, h.wf, ?_, ?_, h.locks, ?_⟩
  · intro id
    rw [hperm.count_eq, List.count_append]
    by_cases hi : id ∈ ids
    · rw [(ht.taken id hi).1, List.count_eq_one_of_mem ht.nodup hi,
        List.count_eq_zero.mpr (hnot id hi)]
    · rw [(ht.same id hi).refcount, h.refs id, List.count_eq_zero.mpr hi, Nat.zero_add]
  · exact hperm.nodup_iff.mpr (List.nodup_append'.mpr
      ⟨ht.nodup, h.nodup, fun b hb hm => hnot b hb hm⟩)
  · intro d hd
    rcases List.mem_cons.mp hd with rfl | hd
    · exact h.pins c List.mem_cons_self
    · exact h.pins d (List.mem_cons_of_mem _ hd)

/-- **Dropping the references of a claim leaves its pin.** -/
theorem drop (h : Books key (c :: cl) t p) : ∃ p', CacheManager.dropRefs c.fresh p = .ok p' ∧
    CacheManager.Dropped c.fresh p p' ∧ Books key ({ c with fresh := [] } :: cl) t p' := by
  have hperm : (held (c :: cl) t).Perm (c.fresh ++ held ({ c with fresh := [] } :: cl) t) := by
    unfold held
    simp only [List.flatMap_cons, List.nil_append]
    rw [← List.append_assoc, ← List.append_assoc]
    exact List.perm_append_comm.append_right _
  obtain ⟨hnf, hnd, hdis⟩ := List.nodup_append'.mp (hperm.nodup_iff.mp h.nodup)
  have hone : ∀ b ∈ c.fresh, p.refcount b = 1 := fun b hb =>
    h.refcount_one (mem_held_fresh t List.mem_cons_self hb)
  obtain ⟨p', he, hd⟩ := CacheManager.dropRefs_spec c.fresh p h.inv hnf fun b hb => by
    rw [hone b hb]; exact Nat.one_ne_zero
  refine ⟨p', he, hd, hd.inv, h.wf, ?_, hnd, h.locks, ?_⟩
  · intro id
    rw [hd.refcount id, h.refs id, hperm.count_eq, List.count_append, Nat.add_sub_cancel_left]
  · intro d hd
    rcases List.mem_cons.mp hd with rfl | hd
    · exact h.pins c List.mem_cons_self
    · exact h.pins d (List.mem_cons_of_mem _ hd)

/-! ## Publishing -/

/-- The walk of `insert` passes the pinned prefix, so it adopts fresh blocks only. -/
theorem grown_fresh (h : Books key cl t p) (hc : c ∈ cl) {tokens : List TokenId} {k m : Nat}
    {x : Place} (hag : tokens.take c.tokens.length <+: c.tokens)
    (hg : Grown key t tokens c.table k m x t') :
    x.2.blocks.Sublist c.fresh ∧ c.cached.length ≤ k := by
  have hbt := h.wf.bt_pos
  have hle : c.cached.length ≤ k := by
    rcases h.pins c hc with ⟨_, _, h0⟩ | ⟨i, _, hne, hcov⟩
    · rw [h0]; exact Nat.zero_le _
    by_contra hlt
    have hal := covers_aligned h.wf hcov
    -- the entry just past the walk is still on the pinned path
    have hk : k < c.cached.length := Nat.lt_of_not_le hlt
    obtain ⟨l, he⟩ := covers_entry h.wf hcov (List.getElem?_eq_getElem hk)
    have hk1 : (k + 1) * t.blockTokens ≤ c.tokens.length := by
      rw [hal]
      exact Nat.mul_le_mul_right _ hk
    have hkm : (k + 1) * t.blockTokens ≤ m * t.blockTokens := Nat.mul_le_mul_right _ hg.lt
    have hmt := hg.le_tokens
    have hpre : c.tokens.take ((k + 1) * t.blockTokens) <+: tokens.take (m * t.blockTokens) := by
      have h1 : (tokens.take c.tokens.length).take ((k + 1) * t.blockTokens) =
          c.tokens.take ((k + 1) * t.blockTokens) := by
        have hlen : (k + 1) * t.blockTokens ≤ (tokens.take c.tokens.length).length := by
          rw [List.length_take]
          omega
        exact take_prefix_eq hag hlen
      rw [List.take_take, Nat.min_eq_left hk1] at h1
      rw [← h1]
      exact List.take_prefix_take_left hkm
    have := hg.longest _ he hpre
    simp only [List.length_take, Nat.min_eq_left hk1] at this
    have := Nat.le_of_mul_le_mul_right this hbt
    omega
  refine ⟨?_, hle⟩
  rw [hg.leafBlocks]
  have hdrop : c.table.drop k = c.fresh.drop (k - c.cached.length) := by
    unfold Claim.table
    rw [List.drop_append, List.drop_of_length_le hle, List.nil_append]
  have h1 : ((c.table.take m).drop k).Sublist (c.table.drop k) := (List.take_sublist _ _).drop _
  rw [hdrop] at h1
  exact h1.trans (List.drop_sublist _ _)

/-- What publishing a claim's table and dropping its references leaves. -/
structure Published (key : List TokenId → UInt64) (c : Claim) (tokens : List TokenId)
    (t t' : RadixTree) (p p' : BlockPool) : Prop where
  inserted : ∃ n p₁, t.insert key p tokens c.table = .ok (n, t', p₁) ∧
    CacheManager.dropRefs c.fresh p₁ = .ok p'
  blockTokens : t'.blockTokens = t.blockTokens
  shape : SameShape p p'
  same : ∀ y, p'.refcount y ≠ 0 → p'.location y = p.location y ∧ p'.target y = p.target y
  freed : ∃ G, p'.freed = p.freed ++ G ∧ ∀ b ∈ G, b ∉ blocksOf t'.places
  entries : ∀ e ∈ entries t.blockTokens t'.places, e ∈ entries t.blockTokens t.places ∨
    ((∀ e₀ ∈ entries t.blockTokens t.places, e₀.path ≠ e.path) ∧
      ∃ k, c.table[k]? = some e.block ∧ e.path = tokens.take ((k + 1) * t.blockTokens) ∧
        (k + 1) * t.blockTokens ≤ tokens.length)

theorem addRefs_inv (h : p.Inv) {l : List BlockId} (hl : ∀ b ∈ l, p.refcount b ≠ 0)
    (hlt : ∀ b, p.refcount b + l.count b < 2 ^ 32) : (p.addRefs l).Inv := by
  have hz : ∀ id, (p.addRefs l).refcount id = 0 ↔ p.refcount id = 0 := by
    intro id
    show p.refcount id + l.count id = 0 ↔ _
    by_cases hm : id ∈ l
    · have := hl id hm
      omega
    · rw [List.count_eq_zero.mpr hm, Nat.add_zero]
  refine h.of_same_jobs ⟨rfl, rfl, rfl, fun _ => rfl, fun _ => rfl⟩ rfl rfl rfl ?_ ?_ hlt ?_ ?_
  · intro l' _
    have : (p.addRefs l).residentCount l' = p.residentCount l' := by
      apply List.countP_congr
      intro id _
      unfold residesAt
      have := hz id
      by_cases h0 : p.refcount id = 0
      · simp [h0, this.mpr h0]
      · simp [h0, mt this.mp h0]
        rfl
    rw [this]
    rfl
  · intro id
    show p.freeIds.count id + _ = _
    simp only [hz id]
  · intro id hr
    exact h.loc_tier id (mt (hz id).mpr hr)
  · intro j hj
    exact ⟨mt (hz j.id).mp (h.flight j hj).1, rfl⟩

/-- The entries of a new leaf, by their position in the table. -/
theorem grown_entry {tokens : List TokenId} {blocks : List BlockId} {k m : Nat} {x : Place}
    (hg : Grown key t tokens blocks k m x t') {e : Entry}
    (he : e ∈ placeEntries t.blockTokens x) :
    (∀ e₀ ∈ RadixTree.entries t.blockTokens t.places, e₀.path ≠ e.path) ∧
      ∃ i, blocks[i]? = some e.block ∧
      e.path = tokens.take ((i + 1) * t.blockTokens) ∧ (i + 1) * t.blockTokens ≤ tokens.length := by
  obtain ⟨i, b, hki, hi, hb, rfl⟩ := hg.mem_leaf.mp he
  have hmul : (i + 1) * t.blockTokens ≤ m * t.blockTokens := Nat.mul_le_mul_right _ hi
  have hmt := hg.le_tokens
  have hlen : (tokens.take ((i + 1) * t.blockTokens)).length = (i + 1) * t.blockTokens := by
    rw [List.length_take]
    omega
  refine ⟨fun e₀ hm hp => ?_, i, hb, rfl, by omega⟩
  -- the walk would have gone past its end
  have hp : e₀.path = tokens.take ((i + 1) * t.blockTokens) := hp
  have := hg.longest e₀ hm (hp ▸ List.take_prefix_take_left hmul)
  rw [hp, hlen] at this
  have := Nat.le_of_mul_le_mul_right this (hg.blockTokens ▸ hg.wf.bt_pos)
  omega

/-- A block whose last reference was dropped is not in the tree. -/
theorem freed_notMem (h : Books key cl t p') {l : List BlockId}
    (hd : CacheManager.Dropped l p p') :
    ∀ b ∈ l.filter (fun b => p.refcount b == 1), b ∉ blocksOf t.places := by
  intro b hb hm
  obtain ⟨hbl, hb1⟩ := List.mem_filter.mp hb
  have hcount := List.count_pos_iff.mpr hbl
  have href := hd.refcount b
  rw [beq_iff_eq.mp hb1, h.refcount_one (mem_held_tree _ hm)] at href
  omega

/-- A new leaf takes over the references the claim drops. -/
theorem grown (h : Books key (c :: cl) t p) {tokens : List TokenId} {k m : Nat} {x : Place}
    (hag : tokens.take c.tokens.length <+: c.tokens)
    (hg : Grown key t tokens c.table k m x t') :
    ∃ p', CacheManager.dropRefs c.fresh (p.addRefs x.2.blocks) = .ok p' ∧
      CacheManager.Dropped c.fresh (p.addRefs x.2.blocks) p' ∧
      Books key ({ c with fresh := [] } :: cl) t' p' := by
  obtain ⟨hsub, _⟩ := h.grown_fresh List.mem_cons_self hag hg
  have hnd := (List.nodup_append'.mp (h.table_nodup List.mem_cons_self)).2.1
  have hone : ∀ b ∈ c.fresh, p.refcount b = 1 := fun b hb =>
    h.refcount_one (mem_held_fresh t List.mem_cons_self hb)
  have hle : ∀ b, p.refcount b ≤ 1 := fun b => by
    rw [h.refs b]
    exact List.nodup_iff_count_le_one.mp h.nodup b
  have hinv : (p.addRefs x.2.blocks).Inv := by
    refine addRefs_inv h.inv (fun b hb => ?_) fun b => ?_
    · rw [hone b (hsub.subset hb)]
      exact Nat.one_ne_zero
    · have h1 := hle b
      have h2 := List.nodup_iff_count_le_one.mp (hnd.sublist hsub) b
      omega
  obtain ⟨p', hd, hdr⟩ := CacheManager.dropRefs_spec c.fresh _ hinv hnd (fun b hb => by
    show p.refcount b + _ ≠ 0
    rw [hone b hb]
    omega)
  -- the tree gains the leaf's blocks, the claim loses its fresh ones
  have hheld : ∀ y, (held ({ c with fresh := [] } :: cl) t').count y + c.fresh.count y =
      (held (c :: cl) t).count y + x.2.blocks.count y := by
    intro y
    unfold held
    simp only [List.flatMap_cons, List.nil_append, List.count_append]
    rw [hg.leaf.blocksOf.count_eq, List.count_append]
    omega
  refine ⟨p', hd, hdr, hdr.inv, hg.wf, ?_, ?_, ?_, ?_⟩
  · intro y
    have h1 := hheld y
    have h2 := h.refs y
    have h3 : (p.addRefs x.2.blocks).refcount y = p.refcount y + x.2.blocks.count y := rfl
    rw [hdr.refcount y, h3]
    omega
  · rw [List.nodup_iff_count_le_one]
    intro y
    have h1 := hheld y
    have h2 := List.nodup_iff_count_le_one.mp h.nodup y
    have h3 := hsub.count_le y
    omega
  · exact hg.leaf.lockOK_add h.pins_mem h.locks hg.lock
  · intro d hd
    have hcov : d.Pinned t := by
      rcases List.mem_cons.mp hd with rfl | hd
      · exact h.pins c List.mem_cons_self
      · exact h.pins d (List.mem_cons_of_mem _ hd)
    rcases hcov with h0 | ⟨i, h1, h2, hcov⟩
    · exact .inl h0
    · have hne : i ≠ x.2.id := fun e => hg.leaf.notMem (e ▸ hcov.mem)
      exact .inr ⟨i, h1, h2, (hg.leaf.covers_iff hne).mpr hcov⟩

/-- **Publishing moves blocks from the claim to the tree.** -/
theorem publish (h : Books key (c :: cl) t p) {tokens : List TokenId}
    (hag : tokens.take c.tokens.length <+: c.tokens) :
    ∃ t' p', Published key c tokens t t' p p' ∧ Books key ({ c with fresh := [] } :: cl) t' p' := by
  have hone : ∀ b ∈ c.table, p.refcount b = 1 := fun b hb =>
    h.refcount_one (h.table_held List.mem_cons_self hb)
  obtain ⟨n, t', p₁, he, hcase⟩ := h.wf.insert p tokens c.table
    (fun b hb => ⟨h.inv.lt_of_refcount (by rw [hone b hb]; exact Nat.one_ne_zero),
      by rw [hone b hb]; exact Nat.one_ne_zero⟩)
    (fun b => by
      have h1 := List.nodup_iff_count_le_one.mp h.nodup b
      rw [← h.refs b] at h1
      have h2 := List.nodup_iff_count_le_one.mp (h.table_nodup List.mem_cons_self) b
      omega)
  rcases hcase with ⟨_, rfl, hr⟩ | ⟨t₁, k, m, x, hr, hg, _, rfl⟩
  · -- everything was there already, or a key collided
    obtain ⟨p', hd, hdr, hb⟩ := (h.reshaped hr).drop
    refine ⟨t', p', ⟨⟨n, _, he, hd⟩, hr.blockTokens, hdr.shape, hdr.same,
      ⟨_, hdr.freed, hb.freed_notMem hdr⟩, ?_⟩, hb⟩
    intro e he
    rw [hr.entries] at he
    exact .inl he
  · -- the missing suffix became a leaf
    have hbt := hr.blockTokens
    obtain ⟨p', hd, hdr, hb⟩ := (h.reshaped hr).grown hag hg
    have hshape : SameShape p p' := ⟨hdr.shape.blockBytes, hdr.shape.numTiers,
      hdr.shape.numBlocks, hdr.shape.tierBlocks, hdr.shape.tierHost⟩
    refine ⟨t', p', ⟨⟨n, _, he, hd⟩, hg.blockTokens.trans hbt, hshape, hdr.same,
      ⟨_, hdr.freed, hb.freed_notMem hdr⟩, ?_⟩, hb⟩
    intro e he
    have he' := (hg.leaf.entries t.blockTokens).mem_iff.mp he
    rcases List.mem_append.mp he' with he' | he'
    · have hnew := grown_entry hg (hbt.symm ▸ he')
      rw [hbt, hr.entries] at hnew
      exact .inr hnew
    · rw [hr.entries] at he'
      exact .inl he'

end Books

/-! ## Blocks no pin protects -/

/-- Block `b` lies in an unpinned node. -/
def Cold (t : RadixTree) (b : BlockId) : Prop := ∃ x ∈ t.places, x.2.lockCount = 0 ∧ b ∈ x.2.blocks

theorem Books.cold_table (h : Books key cl t p) (hb : Cold t b) (hc : c ∈ cl) : b ∉ c.table := by
  obtain ⟨x, hx, hl, hbx⟩ := hb
  intro hm
  rcases List.mem_append.mp hm with hm | hm
  · rcases h.pins c hc with ⟨_, _, h0⟩ | ⟨i, hi, _, hcov⟩
    · rw [h0] at hm; cases hm
    · exact covered_locked h.wf h.sole.nodup h.locks (Books.mem_pinsOf hc hi) hcov hm hx hbx hl
  · exact (List.nodup_append'.mp h.nodup).2.2 (mem_blocksOf hx hbx)
      (List.mem_flatMap.mpr ⟨c, hc, hm⟩)

theorem cold_of_entry {bt : Nat} {e : Entry} (he : e ∈ entries bt t.places) (hl : e.lock = 0) :
    Cold t e.block := by
  obtain ⟨x, hx, he⟩ := List.mem_flatMap.mp he
  obtain ⟨k, b, hb, rfl⟩ := mem_runEntries.mp he
  exact ⟨x, hx, hl, List.mem_of_getElem? hb⟩

theorem cold_of_pruned {D : List Entry} (hp : Pruned key t D t') (hb : b ∈ D.map (·.block)) :
    Cold t b := by
  obtain ⟨e, he, rfl⟩ := List.mem_map.mp hb
  exact cold_of_entry (hp.entries.mem_iff.mpr (List.mem_append_left _ he)) (hp.unpinned e he)

/-! ## Lock counts by path -/

theorem covers_unique (h : WF key t) {i : NodeId} {T T' : List TokenId} {B B' : List BlockId}
    (hc : Covers t.places i T B) (hc' : Covers t.places i T' B') : T = T' ∧ B = B' := by
  obtain ⟨x, hx, rfl, rfl, rfl⟩ := hc
  obtain ⟨y, hy, hyx, rfl, rfl⟩ := hc'
  rw [place_inj h.ids_nodup hx hy hyx.symm]
  exact ⟨rfl, rfl⟩

/-- **The lock count of an entry is the number of claims whose cached prefix it lies in.**  It
depends on the claims and on the token path only. -/
theorem Books.entry_lock (h : Books key cl t p) {e : Entry}
    (he : e ∈ entries t.blockTokens t.places) :
    e.lock = cl.countP fun c => e.path.isPrefixOf c.tokens := by
  have hne := h.wf.entry_path_ne he
  obtain ⟨y, hy, hye⟩ := List.mem_flatMap.mp he
  have hlock : e.lock = (pinsOf cl).countP (below t.places y.2.id) :=
    (mem_placeEntries hye).2.1.trans (h.locks y hy)
  have hn := h.sole.nodup
  have hcount : ∀ L : List Claim, (∀ c ∈ L, c.Pinned t) →
      (pinsOf L).countP (below t.places y.2.id) = L.countP fun c => e.path.isPrefixOf c.tokens := by
    intro L
    induction L with
    | nil => intro _; rfl
    | cons c L ih =>
      intro hL
      have ih := ih fun d hd => hL d (List.mem_cons_of_mem _ hd)
      rw [List.countP_cons]
      rcases hL c List.mem_cons_self with ⟨h0, hT, _⟩ | ⟨i, hi, _, hcov⟩
      · have hp : pinsOf (c :: L) = pinsOf L := by simp [pinsOf, h0]
        have hpre : e.path.isPrefixOf c.tokens = false := by
          rw [hT]
          cases hpath : e.path with
          | nil => exact absurd hpath hne
          | cons a l => rfl
        rw [hp, ih, hpre]
        rfl
      · have hp : pinsOf (c :: L) = i :: pinsOf L := by simp [pinsOf, hi]
        obtain ⟨z, hz, rfl, hT, _⟩ := hcov
        have hiff : below t.places y.2.id z.2.id = e.path.isPrefixOf c.tokens := by
          rw [Bool.eq_iff_iff, below_iff h.wf.ids_nodup hz, List.isPrefixOf_iff_prefix, ← hT]
          exact on_path_iff h.wf hn hy hz hye
        rw [hp, List.countP_cons, ih, hiff]
  rw [hlock]
  exact hcount cl h.pins

/-! ## What survives a call -/

/-- The entries left were there before, and no block of the tree was freed in between. -/
structure Retains (t t' : RadixTree) (p p' : BlockPool) : Prop where
  blockTokens : t'.blockTokens = t.blockTokens
  freed : ∃ G, p'.freed = p.freed ++ G ∧ ∀ b ∈ G, b ∉ blocksOf t'.places
  entries : ∀ e' ∈ entries t.blockTokens t'.places,
    ∃ e ∈ entries t.blockTokens t.places, e.path = e'.path ∧ e.block = e'.block

namespace Retains

theorem blocks (h : Retains t t' p p') (hb : b ∈ blocksOf t'.places) : b ∈ blocksOf t.places := by
  rw [← map_block_entries t.blockTokens] at hb ⊢
  obtain ⟨e', he', rfl⟩ := List.mem_map.mp hb
  obtain ⟨e, he, _, h2⟩ := h.entries e' he'
  exact h2 ▸ List.mem_map_of_mem he

theorem trans {t₁ t₂ t₃ : RadixTree} {p₁ p₂ p₃ : BlockPool} (h : Retains t₁ t₂ p₁ p₂)
    (h' : Retains t₂ t₃ p₂ p₃) : Retains t₁ t₃ p₁ p₃ := by
  obtain ⟨G, hG, hn⟩ := h.freed
  obtain ⟨G', hG', hn'⟩ := h'.freed
  refine ⟨h'.blockTokens.trans h.blockTokens, ⟨G ++ G', by rw [hG', hG, List.append_assoc], ?_⟩, ?_⟩
  · intro b hb hm
    rcases List.mem_append.mp hb with hb | hb
    · exact hn b hb (h'.blocks hm)
    · exact hn' b hb hm
  · intro e he
    rw [← h.blockTokens] at he
    obtain ⟨e', he', h1, h2⟩ := h'.entries e he
    rw [h.blockTokens] at he'
    obtain ⟨e'', he'', h3, h4⟩ := h.entries e' he'
    exact ⟨e'', he'', h3.trans h1, h4.trans h2⟩

/-- Nothing was freed. -/
theorem of_entries (hbt : t'.blockTokens = t.blockTokens) (hf : p'.freed = p.freed)
    (he : (RadixTree.entries t.blockTokens t'.places).map (fun e => (e.path, e.block)) =
      (RadixTree.entries t.blockTokens t.places).map fun e => (e.path, e.block)) :
    Retains t t' p p' := by
  refine ⟨hbt, ⟨[], by rw [hf, List.append_nil], nofun⟩, ?_⟩
  intro e' he'
  have hm := List.mem_map_of_mem (f := fun e : Entry => (e.path, e.block)) he'
  rw [he] at hm
  obtain ⟨e, h1, h2⟩ := List.mem_map.mp hm
  exact ⟨e, h1, (Prod.mk.inj h2).1, (Prod.mk.inj h2).2⟩

theorem of_pool (t : RadixTree) (hf : p'.freed = p.freed) : Retains t t p p' :=
  of_entries rfl hf rfl

theorem of_reshaped (h : Reshaped key t t') (p : BlockPool) : Retains t t' p p :=
  of_entries h.blockTokens rfl (by rw [h.entries])

theorem of_relocked (h : Relocked key t t') (p : BlockPool) : Retains t t' p p :=
  of_entries h.blockTokens rfl h.entries

theorem of_pruned (hb : Books key cl t p) {D : List Entry} (h : Pruned key t D t') :
    Retains t t' p (p.releaseAll (D.map (·.block))) := by
  refine ⟨h.blockTokens, ⟨_, (hb.pruned h).2.freed, ?_⟩, ?_⟩
  · exact fun b hb1 hb2 => (List.nodup_append'.mp (h.blocksOf.nodup_iff.mp hb.sole.nodup)).2.2 hb1 hb2
  · exact fun e he => ⟨e, h.entries.mem_iff.mpr (List.mem_append_right _ he), rfl, rfl⟩

theorem of_dropped (h : Books key (c :: cl) t p) (hd : CacheManager.Dropped c.fresh p p') :
    Retains t t p p' := by
  refine ⟨rfl, ⟨_, hd.freed, ?_⟩, fun e he => ⟨e, he, rfl, rfl⟩⟩
  intro b hb hm
  exact (List.nodup_append'.mp h.nodup).2.2 hm
    (List.mem_flatMap.mpr ⟨c, List.mem_cons_self, (List.mem_filter.mp hb).1⟩)

end Retains

end KvsLab
