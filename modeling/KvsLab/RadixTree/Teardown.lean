import KvsLab.RadixTree.References

/-!
# The destructor gives every reference back once

* `nodesIn` — the nodes owned by a stack of pointers, everything below them included; pushing a
  node's children in its place loses none and gains none (`nodesIn_push`).
* `tearDown_spec` — the loop empties any stack: each owned node dies once, and the pool sees one
  `decref` per stored block.
* `Backed` — the pool counts every reference the tree holds; `TreeState.backed_reach` — it does in
  every state that is reached with respect for them.
* `WF.destroy` — a whole tree comes apart.
-/

namespace KvsLab

open KeyedForest Transition

namespace RadixTree

variable {key : List TokenId → UInt64} {t : RadixTree} {p p' q : BlockPool}

/-- Two lists given back in a row. -/
theorem decrefAll_append : ∀ {l l' : List BlockId} {p q p' : BlockPool} {r r' : Nat},
    decrefAll l p = .ok (r, q) → decrefAll l' q = .ok (r', p') →
      decrefAll (l ++ l') p = .ok (r + r', p')
  | [], l', p, q, p', r, r', h, h' => by
    cases h
    rw [List.nil_append, Nat.zero_add]
    exact h'
  | id :: l, l', p, q, p', r, r', h, h' => by
    obtain ⟨f, q₁, n, ha, hb, rfl⟩ := decrefAll_cons h
    have ih := decrefAll_append hb h'
    simp only [List.cons_append, decrefAll, ha, ih, bind, Except.bind, pure, Except.pure,
      Nat.add_assoc]

/-! ## The stack -/

/-- The nodes owned by a stack of pointers. -/
def nodesIn : List (Option Owner) → List Node
  | [] => []
  | none :: pending => nodesIn pending
  | some o :: pending => o.1 :: (o.2.vals ++ nodesIn pending)

/-- The null pointers on a stack. -/
def nulls (pending : List (Option Owner)) : Nat := pending.countP (·.isNone)

/-- A children map pushed onto the stack. -/
theorem nodesIn_push : ∀ (c : Children) (pending : List (Option Owner)),
    (nodesIn ((owners c).foldl (fun pending child => some child :: pending) pending)).Perm
      (c.vals ++ nodesIn pending) ∧
    nulls ((owners c).foldl (fun pending child => some child :: pending) pending) = nulls pending
  | .nil, pending => ⟨.refl _, rfl⟩
  | .cons k v c r, pending => by
    obtain ⟨h1, h2⟩ := nodesIn_push r (some (v, c) :: pending)
    refine ⟨h1.trans ?_, h2.trans ?_⟩
    · simp only [nodesIn, KeyedForest.vals, List.cons_append, List.append_assoc]
      refine List.perm_middle.trans (List.Perm.cons v ?_)
      exact List.perm_append_comm_assoc _ _ _
    · simp [nulls]

/-- **The loop empties the stack**: each node on it dies once, and the pool sees the references of
their blocks go back one by one. -/
theorem tearDown_spec : ∀ (fuel : Nat) (pending : List (Option Owner)) (p : BlockPool),
    (nodesIn pending).length + nulls pending ≤ fuel →
    (∀ b ∈ (nodesIn pending).flatMap (·.blocks), b < p.numBlocks) →
    (∀ b, ((nodesIn pending).flatMap (·.blocks)).count b ≤ p.refcount b) →
    ∃ dead l r p', tearDown fuel pending p = .ok (dead, p') ∧
      (dead.map (·.id)).Perm ((nodesIn pending).map (·.id)) ∧ (∀ n ∈ dead, n.blocks = []) ∧
      l.Perm ((nodesIn pending).flatMap (·.blocks)) ∧ decrefAll l p = .ok (r, p')
  | fuel, [], p, _, _, _ => by
    refine ⟨[], [], 0, p, ?_, .refl _, nofun, .refl _, rfl⟩
    cases fuel <;> rfl
  | 0, none :: pending, p, hf, _, _ => by
    simp [nulls] at hf
  | 0, some o :: pending, p, hf, _, _ => by
    simp [nodesIn] at hf
  | fuel + 1, none :: pending, p, hf, hlt, hc => by
    have hf' : (nodesIn pending).length + nulls pending ≤ fuel := by
      simp only [nodesIn, nulls, List.countP_cons, Option.isNone_none, if_true] at hf ⊢
      omega
    exact tearDown_spec fuel pending p hf' hlt hc
  | fuel + 1, some (node, children) :: pending, p, hf, hlt, hc => by
    obtain ⟨hperm, hnull⟩ := nodesIn_push children pending
    generalize hst : (owners children).foldl (fun pending child => some child :: pending) pending =
      stack at hperm hnull
    have hblocks : (nodesIn (some (node, children) :: pending)).flatMap (·.blocks) =
        node.blocks ++ (children.vals ++ nodesIn pending).flatMap (·.blocks) := by
      simp only [nodesIn, List.flatMap_cons]
    have hstack := hperm.flatMap_right (fun n : Node => n.blocks)
    rw [hblocks] at hlt hc
    -- the node's own blocks first
    obtain ⟨r₁, p₁, h₁⟩ := decrefAll_returns (l := node.blocks) (p := p)
      (fun b hb => hlt b (List.mem_append_left _ hb)) fun b => by
        have := hc b
        rw [List.count_append] at this
        omega
    have hcount := decrefAll_counts h₁
    have hn := decrefAll_keeps (I := fun q => q.numBlocks = p.numBlocks)
      (fun h hd => (BlockPool.decref_counts hd).2.1.trans h) h₁ rfl
    obtain ⟨dead, l, r, p', he, hids, hclear, hl, hdec⟩ := tearDown_spec fuel stack p₁
      (by
        have hlen := hperm.length_eq
        simp only [nodesIn, List.length_cons, List.length_append] at hf hlen
        have hnl : nulls (some (node, children) :: pending) = nulls pending := by simp [nulls]
        omega)
      (fun b hb => hn ▸ hlt b (List.mem_append_right _ (hstack.mem_iff.mp hb)))
      (fun b => by
        have h1 := hcount b
        have h2 := hc b
        have h3 := hstack.count_eq b
        rw [List.count_append] at h2
        omega)
    refine ⟨{ node with blocks := [] } :: dead, node.blocks ++ l, r₁ + r, p', ?_, ?_, ?_, ?_,
      decrefAll_append h₁ hdec⟩
    · simp only [tearDown, releaseBlocks, h₁, hst, he, bind, Except.bind, pure, Except.pure]
    · exact (hids.trans (hperm.map _)).cons node.id
    · intro n hm
      rcases List.mem_cons.mp hm with rfl | hm
      · rfl
      · exact hclear n hm
    · rw [hblocks]
      exact (hl.trans hstack).append_left _

/-- The pool counts every reference the tree holds. -/
structure Backed (t : RadixTree) (p : BlockPool) : Prop where
  range : ∀ b ∈ blocksOf t.places, b < p.numBlocks
  held : ∀ b, (blocksOf t.places).count b ≤ p.refcount b

/-- **The destructor gives every reference of the tree back once.** -/
theorem WF.destroy (h : WF key t) (hb : Backed t p) :
    ∃ dead l r p', t.destroy p = .ok (dead, p') ∧
      (dead.map (·.id)).Perm (t.root.id :: t.children.vals.map (·.id)) ∧
      (∀ n ∈ dead, n.blocks = []) ∧
      l.Perm (blocksOf t.places) ∧ decrefAll l p = .ok (r, p') := by
  have hnodes : nodesIn [some (t.root, t.children)] = t.root :: t.children.vals := by
    simp [nodesIn]
  have hblocks : (nodesIn [some (t.root, t.children)]).flatMap (·.blocks) = blocksOf t.places := by
    rw [hnodes, List.flatMap_cons, h.root.2.2.1, List.nil_append,
      ← map_snd_places t.children Ctx.top, List.flatMap_map]
    rfl
  have hspec := tearDown_spec (t.children.size + 1) [some (t.root, t.children)] p
    (by rw [hnodes, List.length_cons, length_vals]; exact Nat.le_refl _)
    (hblocks ▸ hb.range) (hblocks ▸ hb.held)
  rw [hblocks, hnodes] at hspec
  exact hspec

end RadixTree

open RadixTree

namespace TreeState

variable {key : List TokenId → UInt64} {s : TreeState}

/-- A tree reached with respect for its references is well formed and backed. -/
theorem backed_reach {cfg : CacheConfig} {specs : List TierSpec} {mem : Arena.Mem TierIndex UInt8}
    {p₀ : BlockPool} {bt : Nat} {t₀ : RadixTree} {tr : List TreeOp}
    (hp : BlockPool.init cfg specs mem = .ok p₀) (h0 : RadixTree.create bt = .ok t₀)
    (hrun : Run (OwnedStep key) { tree := t₀, pool := p₀ } tr s) :
    WF key s.tree ∧ Backed s.tree s.pool := by
  obtain ⟨hsound, hheld⟩ := owned_reach hp h0 hrun
  exact ⟨hsound.wf, hsound.range, hheld⟩

end TreeState

end KvsLab
