import KvsLab.RadixTree.Lru

/-!
# The tree's references

The tree holds one reference on a block for each time it stores it.

* `decrefAll_counts` — references given back lower each count by its number of occurrences;
  `decrefAll_returns` — as many as are held go back without a fault.
* `TreeState.respects` — what the tree's neighbours owe it: they drop references of their own only,
  and no count is taken past `2 ^ 32 - 1`.
* `TreeState.Held` — every stored block is referenced as often as it is stored;
  `owned_reach` — so it is in every state that is reached with respect.
-/

namespace KvsLab

open KeyedForest Transition

namespace BlockPool

variable {p p' : BlockPool} {id : BlockId}

/-- One reference less. -/
theorem decref_counts {r : Bool} (he : p.decref id = .ok (r, p')) :
    id < p.numBlocks ∧ p'.numBlocks = p.numBlocks ∧
      ∀ b, p'.refcount b + [id].count b = p.refcount b := by
  obtain ⟨hlt, ⟨h1, -, rfl⟩ | ⟨h1, -, rfl⟩⟩ := decref_ok he
  · refine ⟨hlt, (SameShape.releaseBlock p id).numBlocks, fun b => ?_⟩
    by_cases e : b = id
    · rw [e, releaseBlock_refcount, h1]
      simp
    · rw [releaseBlock_other e, List.count_singleton]
      simp [Ne.symm e]
  · refine ⟨hlt, rfl, fun b => ?_⟩
    show Function.update p.refcount id (p.refcount id - 1) b + _ = _
    by_cases e : b = id
    · rw [e, Function.update_self, List.count_singleton_self]
      omega
    · rw [Function.update_of_ne e, List.count_singleton]
      simp [Ne.symm e]

/-- A step takes a reference away only when it is a `decref` of that block. -/
theorem refcount_next {op : PoolOp} (he : Step p op p') (b : BlockId) :
    p.refcount b ≤ p'.refcount b ∨ op = .decref b ∧ p'.refcount b + 1 = p.refcount b := by
  cases op with
  | allocate =>
    obtain ⟨a, ha⟩ := toOption_snd he
    unfold BlockPool.allocate at ha
    split at ha
    · split at ha
      · cases ha
      · rename_i hz
        cases ha
        left
        show p.refcount b ≤ Function.update p.refcount a 1 b
        by_cases e : b = a
        · rw [e, not_not.mp hz]
          exact Nat.zero_le _
        · rw [Function.update_of_ne e]
    · cases ha
      exact .inl (Nat.le_refl _)
  | incref id =>
    simp only [Step, BlockPool.next] at he
    split at he
    · rename_i hfit
      obtain ⟨-, -, rfl⟩ := incref_ok (toOption_eq_some he)
      left
      show p.refcount b ≤ Function.update p.refcount id (toU32 (p.refcount id + 1)) b
      by_cases e : b = id
      · rw [e, Function.update_self, toU32_of_lt hfit]
        exact Nat.le_succ _
      · rw [Function.update_of_ne e]
    · cases he
  | decref id =>
    obtain ⟨a, ha⟩ := toOption_snd he
    have hc := (decref_counts ha).2.2 b
    by_cases e : b = id
    · rw [e, List.count_singleton_self] at hc
      exact .inr ⟨by rw [e], by rw [e]; exact hc⟩
    · rw [List.count_singleton] at hc
      have hne : (id == b) = false := by simp [Ne.symm e]
      rw [hne] at hc
      exact .inl hc.ge
  | migrate id dst =>
    obtain ⟨a, ha⟩ := toOption_snd he
    obtain ⟨-, -, ⟨-, -, rfl⟩ | ⟨-, -, -, rfl⟩ | ⟨-, -, slot, slots, -, rfl⟩⟩ := migrate_cases ha
    · rw [cancel_refcount]
      exact .inl (Nat.le_refl _)
    · rw [cancel_refcount]
      exact .inl (Nat.le_refl _)
    · show p.refcount b ≤ (p.cancelMigration id).refcount b ∨ _
      rw [cancel_refcount]
      exact .inl (Nat.le_refl _)
  | migrateAsync id dst =>
    obtain ⟨a, ha⟩ := toOption_snd he
    obtain ⟨-, -, ⟨-, rfl, -⟩ | ⟨-, -, -, slot, slots, -, rfl⟩⟩ := migrateAsync_cases ha
    · exact .inl (Nat.le_refl _)
    · exact .inl (Nat.le_refl _)
  | cancelMigration id =>
    cases he
    rw [cancel_refcount]
    exact .inl (Nat.le_refl _)
  | drainMigrations =>
    cases he
    rw [drain_refcount]
    exact .inl (Nat.le_refl _)
  | waitForMigrations =>
    obtain ⟨-, rfl⟩ := waitForMigrations_ok he
    rw [drain_refcount]
    exact .inl (Nat.le_refl _)
  | worker w act =>
    rw [(SameBooks.workerStep he).refcount]
    exact .inl (Nat.le_refl _)

end BlockPool

namespace RadixTree

variable {key : List TokenId → UInt64} {t t' : RadixTree} {p p' : BlockPool}

/-- References given back lower each count by its number of occurrences. -/
theorem decrefAll_counts : ∀ {l : List BlockId} {p p' : BlockPool} {r : Nat},
    decrefAll l p = .ok (r, p') → ∀ b, p'.refcount b + l.count b = p.refcount b
  | [], p, p', r, he, b => by
    cases he
    rfl
  | id :: l, p, p', r, he, b => by
    obtain ⟨f, q, n, hq, hl, -⟩ := decrefAll_cons he
    have h1 := (BlockPool.decref_counts hq).2.2 b
    have h2 := decrefAll_counts hl b
    rw [List.count_cons, List.count_nil] at h1
    rw [List.count_cons]
    omega

/-- References that are held go back without a fault. -/
theorem decrefAll_returns : ∀ {l : List BlockId} {p : BlockPool}, (∀ b ∈ l, b < p.numBlocks) →
    (∀ b, l.count b ≤ p.refcount b) → ∃ r p', decrefAll l p = .ok (r, p')
  | [], p, _, _ => ⟨0, p, rfl⟩
  | id :: l, p, hlt, hc => by
    have hid : id < p.numBlocks := hlt id List.mem_cons_self
    have hpos : p.refcount id ≠ 0 := by
      have := hc id
      rw [List.count_cons_self] at this
      omega
    obtain ⟨r₁, p₁, h₁⟩ : ∃ r p', p.decref id = .ok (r, p') := by
      unfold BlockPool.decref
      rw [if_neg (Nat.not_le.mpr hid), if_neg hpos]
      split
      · exact ⟨_, _, rfl⟩
      · exact ⟨_, _, rfl⟩
    obtain ⟨-, hn, hcount⟩ := BlockPool.decref_counts h₁
    obtain ⟨r₂, p₂, h₂⟩ := decrefAll_returns (l := l) (p := p₁)
      (fun b hb => hn ▸ hlt b (List.mem_cons_of_mem _ hb)) fun b => by
        have h1 := hcount b
        have h2 := hc b
        rw [List.count_cons, List.count_nil] at h1
        rw [List.count_cons] at h2
        omega
    refine ⟨(if r₁ then 1 else 0) + r₂, p₂, ?_⟩
    unfold decrefAll
    rw [h₁]
    show decrefAll l p₁ >>= _ = _
    rw [h₂]
    rfl

theorem Dropped.counts {Q : RadixTree → BlockPool → Place → Prop} {xs : List Place}
    (h : Dropped key Q t p xs t' p') (b : BlockId) :
    p'.refcount b + (blocksOf xs).count b = p.refcount b := by
  induction h with
  | nil => rfl
  | @cons t t' p p₁ p' x xs r _ _ _ hd _ ih =>
    have h1 := decrefAll_counts hd b
    have hc : (blocksOf (x :: xs)).count b = x.2.blocks.count b + (blocksOf xs).count b := by
      unfold blocksOf
      rw [List.flatMap_cons, List.count_append]
    omega

end RadixTree

open RadixTree

namespace TreeState

variable {key : List TokenId → UInt64} {s s' : TreeState} {op : TreeOp}

/-- The neighbours of the tree drop references of their own only, and an insertion takes no count
past `2 ^ 32 - 1`. -/
def respects (s : TreeState) : TreeOp → Prop
  | .insert _ blocks => ∀ b ∈ blocks, s.pool.refcount b + blocks.count b < 2 ^ 32
  | .pool (.decref id) => (blocksOf s.tree.places).count id < s.pool.refcount id
  | _ => True

instance (s : TreeState) : DecidablePred s.respects
  | .insert _ blocks =>
    inferInstanceAs (Decidable (∀ b ∈ blocks, s.pool.refcount b + blocks.count b < 2 ^ 32))
  | .pool (.decref id) =>
    inferInstanceAs (Decidable ((blocksOf s.tree.places).count id < s.pool.refcount id))
  | .matchPrefix _ | .evict _ | .pickDemotionVictims .. | .lock _ | .unlock _ | .pool .allocate
  | .pool (.incref _) | .pool (.migrate ..) | .pool (.migrateAsync ..) | .pool (.cancelMigration _)
  | .pool .drainMigrations | .pool .waitForMigrations | .pool (.worker ..) => .isTrue trivial

/-- One operation that respects the tree's references. -/
def ownedNext (key : List TokenId → UInt64) (s : TreeState) (op : TreeOp) : Option TreeState :=
  if s.respects op then s.next key op else none

/-- Steps that respect the tree's references. -/
def OwnedStep (key : List TokenId → UInt64) (s : TreeState) (op : TreeOp) (s' : TreeState) : Prop :=
  s.ownedNext key op = some s'

theorem ownedStep_ok (h : OwnedStep key s op s') : Step key s op s' ∧ s.respects op := by
  unfold OwnedStep ownedNext at h
  split at h
  · rename_i hr
    exact ⟨h, hr⟩
  · cases h

/-- Every block is referenced at least as often as the tree stores it. -/
def Held (s : TreeState) : Prop :=
  ∀ b, (blocksOf s.tree.places).count b ≤ s.pool.refcount b

theorem Held.blocks {t' : RadixTree} (h : Held s)
    (hb : blocksOf t'.places = blocksOf s.tree.places) {pins : List NodeId} :
    Held { s with tree := t', pins := pins } := fun b => by
  show (blocksOf t'.places).count b ≤ _
  rw [hb]
  exact h b

theorem Held.insert (h : Held s) (hi : Inv key s) {tokens : List TokenId} {blocks : List BlockId}
    {n : Nat} {t' : RadixTree} {p' : BlockPool}
    (hr : ∀ b ∈ blocks, s.pool.refcount b + blocks.count b < 2 ^ 32)
    (he : s.tree.insert key s.pool tokens blocks = .ok (n, t', p')) :
    Held { s with tree := t', pool := p' } := by
  obtain ⟨t₁, w, -, hf, hend⟩ := hi.wf.insert_cases s.pool tokens blocks rfl
  have hsh := hf.reshaped
  rcases hend with ⟨-, he'⟩ | ⟨-, -, he'⟩ | ⟨-, -, x, t₂, hg, -, -, -, he'⟩
  · cases he.symm.trans he'
    exact h.blocks (hsh.trans (hsh.wf.touch _)).blocksOf
  · cases he.symm.trans he'
    exact h.blocks (hsh.trans hsh.wf.collided).blocksOf
  · obtain ⟨q, hq, e⟩ := map_ok (he'.symm.trans he)
    cases e
    obtain ⟨-, -, hsame, hcount⟩ := BlockPool.increfAll_ok hq
    intro b
    have hold := h b
    have hperm := hg.leaf.blocksOf.count_eq b
    rw [List.count_append, hsh.blocksOf] at hperm
    show (blocksOf t'.places).count b ≤ p'.refcount b
    by_cases hb : b ∈ x.2.blocks
    · -- the stored references are the new ones, and they fit
      have hsub : x.2.blocks.Sublist blocks := by
        rw [hg.leafBlocks]
        exact (List.drop_sublist _ _).trans (List.take_sublist _ _)
      have hlt := hr b (hsub.subset hb)
      have hle := hsub.count_le b
      have hc := hcount b
      rw [BlockPool.toU32_of_lt (show s.pool.refcount b + x.2.blocks.count b < 2 ^ 32 by omega)] at hc
      have hmod : toU32 (p'.refcount b) ≤ p'.refcount b := Nat.mod_le _ _
      omega
    · rw [hsame b hb, hperm, List.count_eq_zero_of_not_mem hb]
      omega

theorem Held.next (h : Held s) (hi : Inv key s) (hstep : OwnedStep key s op s') : Held s' := by
  obtain ⟨hstep, hr⟩ := ownedStep_ok hstep
  have hends := step_ends hstep
  cases op with
  | matchPrefix tokens =>
    obtain ⟨r, t', he, rfl⟩ := hends
    obtain ⟨r', t₁, he', hm⟩ := hi.wf.matchPrefix tokens
    cases he.symm.trans he'
    exact h.blocks hm.reshaped.blocksOf
  | insert tokens blocks =>
    obtain ⟨n, t', p', he, rfl⟩ := hends
    exact h.insert hi hr he
  | evict numBlocks =>
    obtain ⟨n, t', p', he, rfl⟩ := hends
    obtain ⟨xs, hxs⟩ := evict_dropped hi.wf he
    obtain ⟨-, hperm, -, -⟩ := hxs.wf hi.wf
    intro b
    have h1 := hxs.counts b
    have h2 := h b
    have h3 := (hperm.flatMap_right fun x => x.2.blocks).count_eq b
    rw [List.flatMap_append, List.count_append] at h3
    show (blocksOf t'.places).count b ≤ p'.refcount b
    unfold blocksOf at h1 h2 ⊢
    omega
  | pickDemotionVictims numSlots out =>
    rw [show s' = s from hends]
    exact h
  | lock node =>
    obtain ⟨hn, t', he, rfl⟩ := hends
    obtain ⟨x, hx, rfl⟩ := List.mem_map.mp hn
    cases he.symm.trans (lock_eq hi.wf.linked hx)
    exact h.blocks (hi.wf.mapPath incLock_keeps (fun _ => rfl) _).blocksOf
  | unlock node =>
    obtain ⟨hn, t', he, rfl⟩ := hends
    obtain ⟨x, hx, rfl⟩ := List.mem_map.mp (hi.pins node hn)
    have hu := (unlock_spec hi.wf.linked hx (hi.lockOK.perm (List.perm_cons_erase hn))).1
    cases he.symm.trans hu
    exact h.blocks (hi.wf.mapPath decLock_keeps (fun _ => rfl) _).blocksOf
  | pool op =>
    obtain ⟨p, hp, rfl⟩ := hends
    intro b
    show (blocksOf s.tree.places).count b ≤ p.refcount b
    have hb := h b
    rcases BlockPool.refcount_next hp b with hle | ⟨rfl, hc⟩
    · omega
    · have hlt : (blocksOf s.tree.places).count b < s.pool.refcount b := hr
      omega

/-- **Every stored block is referenced as often as it is stored**, and the tree and its pool are
sound, in every state reached with respect for the tree's references. -/
theorem owned_reach {cfg : CacheConfig} {specs : List TierSpec} {mem : Arena.Mem TierIndex UInt8}
    {p₀ : BlockPool} {bt : Nat} {t₀ : RadixTree} {tr : List TreeOp}
    (hp : BlockPool.init cfg specs mem = .ok p₀) (h0 : RadixTree.create bt = .ok t₀)
    (hrun : Run (OwnedStep key) { tree := t₀, pool := p₀ } tr s) : Sound key s ∧ Held s := by
  obtain ⟨-, hnil⟩ : WF key t₀ ∧ t₀.places = [] := create_wf h0
  refine hrun.invariant (I := fun s => Sound key s ∧ Held s)
    (fun s op s' h he => ⟨h.1.next (ownedStep_ok he).1, h.2.next h.1.toInv he⟩)
    ⟨sound_reach hp h0 .nil, fun b => ?_⟩
  show (blocksOf t₀.places).count b ≤ _
  rw [hnil]
  exact Nat.zero_le _

/-- Stored blocks are allocated. -/
theorem Held.allocated (h : Held s) {b : BlockId} (hb : b ∈ blocksOf s.tree.places) :
    s.pool.refcount b ≠ 0 := by
  have hpos := List.count_pos_iff.mpr hb
  have hle := h b
  omega

end TreeState

end KvsLab
