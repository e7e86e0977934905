import KvsLab.RadixTree.Evict
import KvsLab.BlockPool.Conservation

/-!
# The representation invariant over every sequence of tree operations

* `TreeOp` / `TreeState.next` — one call on the tree, or one step of the pool taken by somebody
  else.  Nodes that are locked are in the tree, and an unlock gives a pin back.
* `Dropped` — leaves taken out one after another; `evict_dropped` — that is all an eviction does
  to the tree, whatever state the pool is in.
* `TreeState.Inv.next` — every call keeps the tree well formed and its lock counts right.
* `Represents` — the invariant read off nodes and children maps;
  `TreeState.representation_invariant` — it holds after every sequence of operations.
-/

namespace KvsLab

open KeyedForest Transition

namespace RadixTree

variable {key : List TokenId → UInt64} {t t' : RadixTree} {p p' : BlockPool} {x : Place}

/-! ## Leaves taken out in a row -/

/-- The leaves `xs` were taken out one after another, each unpinned and with the property `Q` when
its turn came; the pool gave their blocks back. -/
inductive Dropped (key : List TokenId → UInt64) (Q : RadixTree → BlockPool → Place → Prop) :
    RadixTree → BlockPool → List Place → RadixTree → BlockPool → Prop where
  | nil {t : RadixTree} {p : BlockPool} : Dropped key Q t p [] t p
  | cons {t t' : RadixTree} {p p₁ p' : BlockPool} {x : Place} {xs : List Place} {r : Nat} :
      x ∈ t.children.leaves Ctx.push .top → x.2.lockCount = 0 → Q t p x →
      decrefAll x.2.blocks p = .ok (r, p₁) →
      Dropped key Q (t.without key x) p₁ xs t' p' → Dropped key Q t p (x :: xs) t' p'

variable {Q : RadixTree → BlockPool → Place → Prop} {xs : List Place}

/-- The nodes that were not taken out are where and as they were. -/
theorem Dropped.wf (h : Dropped key Q t p xs t' p') (hw : WF key t) :
    WF key t' ∧ t.places.Perm (xs ++ t'.places) ∧ t'.blockTokens = t.blockTokens ∧
      t'.clock = t.clock := by
  induction h with
  | nil => exact ⟨hw, .refl _, rfl, rfl⟩
  | cons hx _ _ _ _ ih =>
    obtain ⟨hw₁, hlp, _⟩ := hw.without hx
    obtain ⟨h1, h2, h3, h4⟩ := ih hw₁
    exact ⟨h1, hlp.perm.trans (h2.cons _), h3, h4⟩

theorem Dropped.lockOK (h : Dropped key Q t p xs t' p') (hw : WF key t) {pins : List NodeId}
    (hl : LockOK pins t.places) (hp : ∀ i ∈ pins, i ∈ ids t.places) :
    LockOK pins t'.places ∧ ∀ i ∈ pins, i ∈ ids t'.places := by
  induction h with
  | nil => exact ⟨hl, hp⟩
  | cons hx h0 _ _ _ ih =>
    obtain ⟨hw₁, hlp, _⟩ := hw.without hx
    refine ih hw₁ (hlp.lockOK_pluck hl h0) fun i hi => ?_
    rcases List.mem_cons.mp (hlp.ids.mem_iff.mp (hp i hi)) with rfl | h'
    · exact absurd hi (hlp.not_pinned hl h0)
    · exact h'

/-- A returned drop took out the victim and gave its blocks back. -/
theorem dropLeaf_ok (hw : WF key t) (hx : x ∈ t.places) {r : Nat}
    (he : t.dropLeaf key p x.2 = .ok (r, t', p')) :
    decrefAll x.2.blocks p = .ok (r, p') ∧ t' = t.without key x := by
  rw [hw.dropLeaf_eq hx] at he
  cases hd : decrefAll x.2.blocks p with
  | error e => rw [hd] at he; cases he
  | ok v => rw [hd] at he; cases he; exact ⟨rfl, rfl⟩

/-- A returned eviction took unpinned leaves out, and did nothing else to the tree. -/
theorem evictLoop_dropped (n : Nat) : ∀ (fuel freed : Nat) (rejected : List NodeId)
    (t : RadixTree) (p : BlockPool) (r : Nat), WF key t →
    evictLoop key n fuel freed rejected t p = .ok (r, t', p') →
      ∃ xs, Dropped key (fun _ _ _ => True) t p xs t' p'
  | fuel, freed, rejected, t, p, r, hw, he => by
    unfold evictLoop at he
    split at he
    · cases he
      exact ⟨[], .nil⟩
    split at he
    · cases he
      exact ⟨[], .nil⟩
    · cases he
    rename_i fuel v hv
    obtain ⟨s, hx, hl, _⟩ := findLruLeaf_some hv
    simp only [bind, Except.bind, throw, throwThe, MonadExceptOf.throw] at he
    split at he
    · cases he
    split at he
    · exact evictLoop_dropped n fuel _ _ t p r hw he
    split at he
    · cases he
    rename_i d hd
    split at he
    · cases he
    obtain ⟨hdec, ht₁⟩ := dropLeaf_ok (x := (s, v)) hw (mem_places_of_mem_leaves hx) hd
    rw [ht₁] at he
    obtain ⟨xs, hxs⟩ := evictLoop_dropped n fuel _ _ _ _ r (hw.without hx).1 he
    exact ⟨(s, v) :: xs, .cons hx hl trivial hdec hxs⟩

theorem evict_dropped (hw : WF key t) {n r : Nat} (he : t.evict key p n = .ok (r, t', p')) :
    ∃ xs, Dropped key (fun _ _ _ => True) t p xs t' p' :=
  evictLoop_dropped n _ _ _ t p r hw he

theorem map_ok {ε α β : Type} {e : Except ε α} {f : α → β} {b : β} (h : e.map f = .ok b) :
    ∃ a, e = .ok a ∧ f a = b := by
  cases e with
  | error e => cases h
  | ok a => cases h; exact ⟨a, rfl, rfl⟩

/-! ## Lock counts -/

theorem LockOK.perm {ps : List Place} {pins pins' : List NodeId} (h : pins.Perm pins')
    (hl : LockOK pins ps) : LockOK pins' ps := fun y hy => by
  rw [hl y hy, h.countP_eq]

theorem Relocked.ids (h : Relocked key t t') : ids t'.places = RadixTree.ids t.places := by
  obtain ⟨g, hk, hp, _⟩ := h.nodes
  rw [hp, hk.ids]

end RadixTree

open RadixTree

/-! ## Operations -/

/-- A call on the tree, or a step of the pool that somebody else takes. -/
inductive TreeOp where
  | matchPrefix (tokens : List TokenId)
  | insert (tokens : List TokenId) (blocks : List BlockId)
  | evict (numBlocks : Nat)
  | pickDemotionVictims (numSlots : Nat) (out : List BlockId)
  | lock (node : NodeId)
  | unlock (node : NodeId)
  | pool (op : BlockPool.PoolOp)
  deriving DecidableEq, Repr

/-- The tree, its pool, and the pins that have not been given back. -/
structure TreeState where
  tree : RadixTree
  pool : BlockPool
  pins : List NodeId := []

namespace TreeState

variable {key : List TokenId → UInt64} {s s' : TreeState} {op : TreeOp}

/-- One operation.  A call that fails a check, a lock of a node the tree does not have and an
unlock of one that is not pinned are no steps. -/
def next (key : List TokenId → UInt64) (s : TreeState) : TreeOp → Option TreeState
  | .matchPrefix tokens =>
    (s.tree.matchPrefix key tokens).toOption.map fun r => { s with tree := r.2 }
  | .insert tokens blocks =>
    (s.tree.insert key s.pool tokens blocks).toOption.map fun r =>
      { s with tree := r.2.1, pool := r.2.2 }
  | .evict numBlocks =>
    (s.tree.evict key s.pool numBlocks).toOption.map fun r =>
      { s with tree := r.2.1, pool := r.2.2 }
  | .pickDemotionVictims numSlots out =>
    (s.tree.pickDemotionVictims s.pool numSlots out).toOption.map fun _ => s
  | .lock node =>
    if node ∈ ids s.tree.places then
      (s.tree.lock node).toOption.map fun t => { s with tree := t, pins := node :: s.pins }
    else none
  | .unlock node =>
    if node ∈ s.pins then
      (s.tree.unlock node).toOption.map fun t => { s with tree := t, pins := s.pins.erase node }
    else none
  | .pool op => (s.pool.next op).map fun p => { s with pool := p }

/-- Steps as a relation. -/
def Step (key : List TokenId → UInt64) (s : TreeState) (op : TreeOp) (s' : TreeState) : Prop :=
  s.next key op = some s'

/-- The tree is well formed and its lock counts are right for the pins. -/
structure Inv (key : List TokenId → UInt64) (s : TreeState) : Prop where
  wf : WF key s.tree
  lockOK : LockOK s.pins s.tree.places
  pins : ∀ i ∈ s.pins, i ∈ ids s.tree.places

theorem Inv.reshaped (h : Inv key s) {t' : RadixTree} (hr : Reshaped key s.tree t')
    (p : BlockPool) : Inv key { s with tree := t', pool := p } :=
  ⟨hr.wf, hr.lockOK h.pins h.lockOK, fun i hi => hr.ids (h.pins i hi)⟩

theorem Inv.insert (h : Inv key s) {tokens : List TokenId} {blocks : List BlockId} {n : Nat}
    {t' : RadixTree} {p' : BlockPool}
    (he : s.tree.insert key s.pool tokens blocks = .ok (n, t', p')) :
    Inv key { s with tree := t', pool := p' } := by
  obtain ⟨t₁, w, -, hf, hend⟩ := h.wf.insert_cases s.pool tokens blocks rfl
  have hr := hf.reshaped
  rcases hend with ⟨-, he'⟩ | ⟨-, -, he'⟩ | ⟨-, -, x, t₂, hg, -, -, -, he'⟩
  · cases he.symm.trans he'
    exact h.reshaped (hr.trans (hr.wf.touch _)) _
  · cases he.symm.trans he'
    exact h.reshaped (hr.trans hr.wf.collided) _
  · obtain ⟨q, -, hq⟩ := map_ok (he'.symm.trans he)
    cases hq
    have h₁ := h.reshaped hr s.pool
    exact ⟨hg.wf, hg.leaf.lockOK_add h₁.pins h₁.lockOK hg.lock, fun i hi =>
      hg.leaf.ids.mem_iff.mpr (List.mem_cons_of_mem _ (h₁.pins i hi))⟩

theorem Inv.lock (h : Inv key s) {node : NodeId} (hn : node ∈ ids s.tree.places) {t' : RadixTree}
    (he : s.tree.lock node = .ok t') :
    Inv key { s with tree := t', pins := node :: s.pins } := by
  obtain ⟨x, hx, rfl⟩ := List.mem_map.mp hn
  obtain ⟨t₁, he', hr, hl⟩ := h.wf.lock hx h.lockOK
  cases he.symm.trans he'
  refine ⟨hr.wf, hl, fun i hi => ?_⟩
  show i ∈ ids t'.places
  rw [hr.ids]
  rcases List.mem_cons.mp hi with rfl | hi
  · exact hn
  · exact h.pins i hi

theorem Inv.unlock (h : Inv key s) {node : NodeId} (hn : node ∈ s.pins) {t' : RadixTree}
    (he : s.tree.unlock node = .ok t') :
    Inv key { s with tree := t', pins := s.pins.erase node } := by
  obtain ⟨x, hx, rfl⟩ := List.mem_map.mp (h.pins node hn)
  obtain ⟨t₁, he', hr, hl⟩ := h.wf.unlock hx (h.lockOK.perm (List.perm_cons_erase hn))
  cases he.symm.trans he'
  refine ⟨hr.wf, hl, fun i hi => ?_⟩
  show i ∈ ids t'.places
  rw [hr.ids]
  exact h.pins i (List.mem_of_mem_erase hi)

/-- What an operation returned and left. -/
def Ends (key : List TokenId → UInt64) (s : TreeState) : TreeOp → TreeState → Prop
  | .matchPrefix tokens, s' => ∃ r t', s.tree.matchPrefix key tokens = .ok (r, t') ∧
      s' = { s with tree := t' }
  | .insert tokens blocks, s' => ∃ n t' p', s.tree.insert key s.pool tokens blocks =
      .ok (n, t', p') ∧ s' = { s with tree := t', pool := p' }
  | .evict numBlocks, s' => ∃ n t' p', s.tree.evict key s.pool numBlocks = .ok (n, t', p') ∧
      s' = { s with tree := t', pool := p' }
  | .pickDemotionVictims .., s' => s' = s
  | .lock node, s' => node ∈ ids s.tree.places ∧ ∃ t', s.tree.lock node = .ok t' ∧
      s' = { s with tree := t', pins := node :: s.pins }
  | .unlock node, s' => node ∈ s.pins ∧ ∃ t', s.tree.unlock node = .ok t' ∧
      s' = { s with tree := t', pins := s.pins.erase node }
  | .pool op, s' => ∃ p', BlockPool.Step s.pool op p' ∧ s' = { s with pool := p' }

theorem step_ends (he : Step key s op s') : Ends key s op s' := by
  cases op with
  | matchPrefix tokens =>
    obtain ⟨r, hr, rfl⟩ := Option.map_eq_some_iff.mp he
    exact ⟨r.1, r.2, BlockPool.toOption_eq_some hr, rfl⟩
  | insert tokens blocks =>
    obtain ⟨r, hr, rfl⟩ := Option.map_eq_some_iff.mp he
    exact ⟨r.1, r.2.1, r.2.2, BlockPool.toOption_eq_some hr, rfl⟩
  | evict numBlocks =>
    obtain ⟨r, hr, rfl⟩ := Option.map_eq_some_iff.mp he
    exact ⟨r.1, r.2.1, r.2.2, BlockPool.toOption_eq_some hr, rfl⟩
  | pickDemotionVictims numSlots out =>
    obtain ⟨r, -, rfl⟩ := Option.map_eq_some_iff.mp he
    exact rfl
  | lock node =>
    simp only [Step, TreeState.next] at he
    split at he
    · rename_i hn
      obtain ⟨t', ht, rfl⟩ := Option.map_eq_some_iff.mp he
      exact ⟨hn, t', BlockPool.toOption_eq_some ht, rfl⟩
    · cases he
  | unlock node =>
    simp only [Step, TreeState.next] at he
    split at he
    · rename_i hn
      obtain ⟨t', ht, rfl⟩ := Option.map_eq_some_iff.mp he
      exact ⟨hn, t', BlockPool.toOption_eq_some ht, rfl⟩
    · cases he
  | pool op =>
    obtain ⟨p, hp, rfl⟩ := Option.map_eq_some_iff.mp he
    exact ⟨p, hp, rfl⟩

/-- **Every operation keeps the invariant.** -/
theorem Inv.next (h : Inv key s) (hstep : Step key s op s') : Inv key s' := by
  have hends := step_ends hstep
  cases op with
  | matchPrefix tokens =>
    obtain ⟨r, t', he, rfl⟩ := hends
    obtain ⟨r', t₁, he', hm⟩ := h.wf.matchPrefix tokens
    cases he.symm.trans he'
    exact h.reshaped hm.reshaped s.pool
  | insert tokens blocks =>
    obtain ⟨n, t', p', he, rfl⟩ := hends
    exact h.insert he
  | evict numBlocks =>
    obtain ⟨n, t', p', he, rfl⟩ := hends
    obtain ⟨xs, hxs⟩ := evict_dropped h.wf he
    obtain ⟨hl, hp⟩ := hxs.lockOK h.wf h.lockOK h.pins
    exact ⟨(hxs.wf h.wf).1, hl, hp⟩
  | pickDemotionVictims numSlots out =>
    rw [show s' = s from hends]
    exact h
  | lock node =>
    obtain ⟨hn, t', he, rfl⟩ := hends
    exact h.lock hn he
  | unlock node =>
    obtain ⟨hn, t', he, rfl⟩ := hends
    exact h.unlock hn he
  | pool op =>
    obtain ⟨p, -, rfl⟩ := hends
    exact ⟨h.wf, h.lockOK, h.pins⟩

theorem create_wf {bt : Nat} {t : RadixTree} (h : RadixTree.create bt = .ok t) :
    WF key t ∧ t.places = [] := by
  unfold RadixTree.create at h
  split at h
  · cases h
  · rename_i hbt
    cases h
    exact ⟨wf_new key (Nat.pos_of_ne_zero hbt), rfl⟩

/-- **The invariant along every sequence of operations.** -/
theorem reach {bt : Nat} {t : RadixTree} {p : BlockPool} {tr : List TreeOp}
    (h0 : RadixTree.create bt = .ok t) (hrun : Run (Step key) { tree := t, pool := p } tr s) :
    Inv key s := by
  obtain ⟨hw, hp⟩ : WF key t ∧ t.places = [] := create_wf h0
  refine hrun.invariant (fun s op s' h he => h.next he) ⟨hw, fun y hy => ?_, fun i hi => ?_⟩
  · have hy' : y ∈ t.places := hy
    rw [hp] at hy'
    cases hy'
  · cases hi

/-! ## The invariant read off the nodes -/

/-- The representation invariant, over the nodes below the root and the children map of every
node. -/
structure Represents (key : List TokenId → UInt64) (t : RadixTree) : Prop where
  root : t.root.tokens = [] ∧ t.root.blocks = [] ∧ t.root.parent = none
  addresses : (t.root.id :: t.children.vals.map (·.id)).Nodup
  tokens : ∀ n ∈ t.children.vals, n.tokens ≠ []
  aligned : ∀ n ∈ t.children.vals, n.tokens.length = n.blocks.length * t.blockTokens
  childKey : ∀ i, i = t.root.id ∨ i ∈ t.children.vals.map (·.id) → ∀ e ∈ (t.childrenOf i).items,
    e.2 ∈ t.children.vals ∧ e.1 = key (e.2.tokens.take t.blockTokens) ∧ e.2.parent = some i
  siblings : ∀ i, i = t.root.id ∨ i ∈ t.children.vals.map (·.id) →
    ((t.childrenOf i).items.map (·.1)).Nodup ∧
      ((t.childrenOf i).items.map fun e => e.2.tokens.take t.blockTokens).Nodup
  numNodes : t.numNodes = t.children.vals.length
  storedBlocks : t.storedBlocks = (t.children.vals.map (·.blocks.length)).sum

theorem ctxOf_id {t : RadixTree} {i : NodeId} (h : i = t.root.id ∨ i ∈ t.children.vals.map (·.id)) :
    ∃ s, CtxOf t i s := by
  rcases h with rfl | h
  · exact ⟨.top, .inl ⟨rfl, rfl⟩⟩
  · obtain ⟨n, hn, rfl⟩ := List.mem_map.mp h
    obtain ⟨s, hs⟩ := mem_vals hn
    exact ⟨s.push n, .inr ⟨(s, n), hs, rfl, rfl⟩⟩

theorem represents_of_wf {t : RadixTree} (h : WF key t) : Represents key t := by
  have hnode : ∀ n ∈ t.children.vals, ∃ s, NodeOK t.blockTokens (s, n) := fun n hn => by
    obtain ⟨s, hs⟩ := mem_vals hn
    exact ⟨s, h.nodes _ hs⟩
  refine ⟨h.root.2, ?_, ?_, ?_, ?_, ?_, ?_, ?_⟩
  · have hids : t.children.vals.map (·.id) = ids t.places := by
      rw [← map_snd_places t.children Ctx.top, List.map_map]
      rfl
    rw [hids, h.root.1]
    exact List.nodup_cons.mpr ⟨h.linked.notRoot, h.ids_nodup⟩
  · intro n hn
    obtain ⟨s, hok⟩ := hnode n hn
    exact hok.tokens
  · intro n hn
    obtain ⟨s, hok⟩ := hnode n hn
    exact hok.aligned
  · intro i hi e he
    obtain ⟨s, hs⟩ := ctxOf_id hi
    obtain ⟨hk, hsub⟩ := childrenOf_spec h.linked h.keyed hs
    obtain ⟨hpl, hkey⟩ := mem_items (s := s) hk he
    have hmem := hsub _ hpl
    refine ⟨vals_mem hmem, hkey, ?_⟩
    rw [show e.2.parent = some s.parent from (h.nodes _ hmem).parent]
    rcases hs with ⟨rfl, rfl⟩ | ⟨x, -, rfl, rfl⟩
    · rw [h.root.1]
      rfl
    · rfl
  · intro i hi
    obtain ⟨s, hs⟩ := ctxOf_id hi
    obtain ⟨hk, -⟩ := childrenOf_spec h.linked h.keyed hs
    have hkeys : ((t.childrenOf i).items.map (·.1)).Nodup := by
      rw [map_fst_items]
      exact hk.keys_nodup
    -- equal first blocks would give equal keys
    have hfst : (t.childrenOf i).items.map (·.1) =
        ((t.childrenOf i).items.map fun e => e.2.tokens.take t.blockTokens).map key := by
      rw [List.map_map]
      exact List.map_congr_left fun e he => (mem_items (s := s) hk he).2
    exact ⟨hkeys, List.Nodup.of_map key (hfst ▸ hkeys)⟩
  · rw [h.numNodes, length_vals]
  · rw [h.storedBlocks, ← map_snd_places t.children Ctx.top]
    unfold blocksOf RadixTree.places
    rw [List.length_flatMap, List.map_map]
    rfl

/-- **The representation invariant** holds after every sequence of operations on an empty tree,
for any key function and whatever happens to the pool meanwhile. -/
theorem representation_invariant {bt : Nat} {t : RadixTree} {p : BlockPool} {tr : List TreeOp}
    (h0 : RadixTree.create bt = .ok t) (hrun : Run (Step key) { tree := t, pool := p } tr s) :
    Represents key s.tree :=
  represents_of_wf (reach h0 hrun).wf

/-- All keys collide: an insert splits a node and is refused below the head, a match ends inside
a node, and an eviction passes over a pinned leaf. -/
def collidingTrace : List TreeOp :=
  [.pool .allocate, .pool .allocate, .insert [1, 2, 3, 4] [0, 1], .insert [1, 2, 5, 6] [0, 1],
    .matchPrefix [1, 2, 9, 9], .pool (.decref 0), .pool (.decref 1), .lock 1,
    .evict 1, .unlock 1, .pickDemotionVictims 1 [], .evict 1]

theorem representation_invariant_colliding : ∃ p t s,
    BlockPool.init BlockPool.smallConfig BlockPool.smallSpecs (fun _ _ => 0) = .ok p ∧
    RadixTree.create 2 = .ok t ∧
    Run (Step fun _ => 0) { tree := t, pool := p } collidingTrace s ∧
    s.tree.collisions = 1 ∧ s.tree.numNodes = 1 ∧ Represents (fun _ => 0) s.tree := by
  have h : ((BlockPool.init BlockPool.smallConfig BlockPool.smallSpecs fun _ _ => 0).toOption.bind
      fun p => (RadixTree.create 2).toOption.bind fun t =>
        (exec (next fun _ => 0) { tree := t, pool := p } collidingTrace).map fun s =>
          (s.tree.collisions, s.tree.numNodes)) = some (1, 1) := by
    decide +kernel
  obtain ⟨p, hp, h⟩ := Option.bind_eq_some_iff.mp h
  obtain ⟨t, ht, h⟩ := Option.bind_eq_some_iff.mp h
  obtain ⟨s, hs, h⟩ := Option.map_eq_some_iff.mp h
  have hrun := run_of_exec hs
  have h0 := BlockPool.toOption_eq_some ht
  exact ⟨p, t, s, BlockPool.toOption_eq_some hp, h0, hrun, (Prod.mk.inj h).1, (Prod.mk.inj h).2,
    representation_invariant h0 hrun⟩

end TreeState

end KvsLab
