import KvsLab.RadixTree.Match

/-!
# Putting a leaf in and taking one out

`insert` hangs a new leaf below a node and `drop_leaf` erases one.  Both are `Plucked` between
the smaller and the larger forest, so one set of lemmas serves both.

* `LeafPlaces` — the places of the larger tree are one leaf and the places of the smaller one.
* `setChildren_add`, `setChildren_erase` — what the source does to the children map of the parent.
-/

namespace KvsLab

open KeyedForest

namespace RadixTree

variable {key : List TokenId → UInt64} {bt : Nat} {t : RadixTree} {x : Place} {ps qs : List Place}

/-! ## Effects -/

/-- `ps` is `qs` and the leaf `x`, which no place of `qs` is below. -/
structure LeafPlaces (x : Place) (ps qs : List Place) : Prop where
  perm : ps.Perm (x :: qs)
  nodup : (ids ps).Nodup
  notAbove : ∀ y ∈ qs, x.2.id ∉ y.1.path

theorem LeafPlaces.mem (h : LeafPlaces x ps qs) {y : Place} (hy : y ∈ ps) : y = x ∨ y ∈ qs :=
  List.mem_cons.mp (h.perm.mem_iff.mp hy)

theorem LeafPlaces.ids (h : LeafPlaces x ps qs) : (ids ps).Perm (x.2.id :: ids qs) :=
  ids_perm h.perm

theorem LeafPlaces.notMem (h : LeafPlaces x ps qs) : x.2.id ∉ RadixTree.ids qs :=
  (List.nodup_cons.mp (h.ids.nodup_iff.mp h.nodup)).1

theorem LeafPlaces.entries (h : LeafPlaces x ps qs) (bt : Nat) :
    (entries bt ps).Perm (placeEntries bt x ++ entries bt qs) := h.perm.flatMap_right _

theorem LeafPlaces.blocksOf (h : LeafPlaces x ps qs) :
    (blocksOf ps).Perm (x.2.blocks ++ blocksOf qs) := h.perm.flatMap_right _

/-- The other nodes are below the same nodes with and without the leaf. -/
theorem LeafPlaces.below (h : LeafPlaces x ps qs) {m p : NodeId} (hp : p ≠ x.2.id) :
    below ps m p = below qs m p := by
  unfold RadixTree.below
  rw [h.perm.any_eq, List.any_cons]
  have : (x.2.id == p) = false := by simpa using Ne.symm hp
  rw [this, Bool.false_and, Bool.false_or]

/-- Nothing but the leaf is below the leaf. -/
theorem LeafPlaces.below_leaf (h : LeafPlaces x ps qs) {p : NodeId} (hp : p ≠ x.2.id) :
    RadixTree.below ps x.2.id p = false := by
  rw [h.below hp]
  unfold RadixTree.below
  rw [List.any_eq_false]
  intro y hy hc
  simp only [Bool.and_eq_true, beq_iff_eq, List.contains_iff_mem, List.mem_cons] at hc
  rcases hc.2 with e | e
  · exact hp (hc.1.symm.trans e.symm)
  · exact h.notAbove y hy e

theorem LeafPlaces.covers_iff (h : LeafPlaces x ps qs) {i : NodeId} (hi : i ≠ x.2.id)
    {T : List TokenId} {B : List BlockId} : Covers ps i T B ↔ Covers qs i T B := by
  constructor
  · rintro ⟨y, hy, rfl, hc⟩
    rcases h.mem hy with rfl | hy
    · exact absurd rfl hi
    · exact ⟨y, hy, rfl, hc⟩
  · rintro ⟨y, hy, hc⟩
    exact ⟨y, h.perm.mem_iff.mpr (List.mem_cons_of_mem _ hy), hc⟩

/-- An unpinned leaf carries no pin. -/
theorem LeafPlaces.not_pinned (h : LeafPlaces x ps qs) {pins : List NodeId}
    (hl : LockOK pins ps) (hx : x.2.lockCount = 0) : x.2.id ∉ pins := by
  intro hp
  have hm : x ∈ ps := h.perm.mem_iff.mpr List.mem_cons_self
  have hc := hl x hm
  rw [hx] at hc
  have hb : RadixTree.below ps x.2.id x.2.id = true := by
    unfold RadixTree.below
    rw [List.any_eq_true]
    exact ⟨x, hm, by simp⟩
  exact absurd hb (by simpa using List.countP_eq_zero.mp hc.symm x.2.id hp)

/-- Taking out an unpinned leaf keeps the lock counts right. -/
theorem LeafPlaces.lockOK_pluck (h : LeafPlaces x ps qs) {pins : List NodeId}
    (hl : LockOK pins ps) (hx : x.2.lockCount = 0) : LockOK pins qs := by
  intro y hy
  have hnp := h.not_pinned hl hx
  rw [hl y (h.perm.mem_iff.mpr (List.mem_cons_of_mem _ hy))]
  apply List.countP_congr
  intro p hp
  rw [h.below fun e => hnp (e ▸ hp)]

/-- Putting in a leaf that is not locked keeps the lock counts right for the pins that exist. -/
theorem LeafPlaces.lockOK_add (h : LeafPlaces x ps qs) {pins : List NodeId}
    (hpins : ∀ p ∈ pins, p ∈ RadixTree.ids qs) (hl : LockOK pins qs)
    (hx : x.2.lockCount = 0) : LockOK pins ps := by
  have hne : ∀ p ∈ pins, p ≠ x.2.id := fun p hp e => h.notMem (e ▸ hpins p hp)
  intro y hy
  rcases h.mem hy with rfl | hy
  · rw [hx, eq_comm, List.countP_eq_zero]
    intro p hp
    rw [h.below_leaf (hne p hp)]
    exact Bool.false_ne_true
  · rw [hl y hy]
    apply List.countP_congr
    intro p hp
    rw [h.below (hne p hp)]

/-! ## From forests to places -/

/-- A plucked leaf is nowhere in the contexts of the rest. -/
theorem plucked_leafPlaces {k : UInt64} {v : Node} {s : Ctx} {f g : Children}
    (h : Plucked Ctx.push k v s .top f g) (hn : (ids (f.places Ctx.push .top)).Nodup) :
    LeafPlaces (s, v) (f.places Ctx.push .top) (g.places Ctx.push .top) where
  perm := h.perm
  nodup := hn
  notAbove := by
    intro y hy hp
    have hids : (ids (f.places Ctx.push .top)).Perm (v.id :: ids (g.places Ctx.push .top)) :=
      ids_perm h.perm
    have hnot := (List.nodup_cons.mp (hids.nodup_iff.mp hn)).1
    rcases path_subset hy _ hp with h' | h'
    · exact hnot h'
    · cases h'

/-! ## Adding a child -/

theorem countP_id (hn : (ids t.places).Nodup) (hx : x ∈ t.places) :
    t.places.countP (fun y => y.2.id == x.2.id) = 1 := by
  have h1 : (ids t.places).count x.2.id = 1 := List.count_eq_one_of_mem hn (mem_ids hx)
  unfold ids at h1
  rw [List.count, List.countP_map] at h1
  exact h1

/-- The context of the children of the node at `id`, where `id` may be the root. -/
def CtxOf (t : RadixTree) (id : NodeId) (s : Ctx) : Prop :=
  (id = t.root.id ∧ s = .top) ∨ ∃ x ∈ t.places, x.2.id = id ∧ s = x.1.push x.2

/-- **Hanging a leaf below the node at `id`**, under a key no child of it has. -/
theorem setChildren_add (hl : Linked t) (hk : t.children.Keyed (keyOf key bt)) {id : NodeId}
    {s : Ctx} {k : UInt64} {leaf : Node} (hs : CtxOf t id s) (hkey : k = keyOf key bt leaf)
    (hfree : k ∉ (t.childrenOf id).keys) :
    Plucked Ctx.push k leaf s .top
        (t.setChildren id fun siblings => .cons k leaf .nil siblings).children t.children ∧
      (t.setChildren id fun siblings => .cons k leaf .nil siblings).children.Keyed (keyOf key bt) := by
  unfold setChildren childrenOf at *
  rcases hs with ⟨rfl, rfl⟩ | ⟨x, hx, rfl, rfl⟩
  · simp only [if_true] at hfree ⊢
    exact ⟨.here, hkey, hfree, trivial, hk⟩
  · simp only [if_neg (hl.ne_root hx)] at hfree ⊢
    have hone := countP_id hl.nodup hx
    have hp : (fun n : Node => n.id == x.2.id) x.2 = true := by simp
    constructor
    · obtain ⟨c, _, h⟩ := mapKids_rule (p := fun n : Node => n.id == x.2.id)
        (g := fun siblings => .cons k leaf .nil siblings)
        (Q := fun s c c' => s = x.1.push x.2 ∧ c' = .cons k leaf .nil c)
        (R := fun s f f' => Plucked Ctx.push k leaf (x.1.push x.2) s f' f)
        (by rintro s k' w c c' r _ ⟨h1, rfl⟩; exact .kids (h1 ▸ .here))
        (fun h => .kids h) (fun h => .rest h) hp hx hone
      exact h ⟨rfl, rfl⟩
    · obtain ⟨c, hc, h⟩ := mapKids_rule (p := fun n : Node => n.id == x.2.id)
        (g := fun siblings => .cons k leaf .nil siblings)
        (Q := fun _ c c' => c.Keyed (keyOf key bt) → c'.Keyed (keyOf key bt))
        (R := fun _ f f' => f.Keyed (keyOf key bt) → f'.Keyed (keyOf key bt) ∧ f'.keys = f.keys)
        (fun _ hq hf => ⟨⟨hf.1, hf.2.1, hq hf.2.2.1, hf.2.2.2⟩, rfl⟩)
        (fun hr hf => ⟨⟨hf.1, hf.2.1, (hr hf.2.2.1).1, hf.2.2.2⟩, rfl⟩)
        (fun hr hf => ⟨⟨hf.1, (hr hf.2.2.2).2 ▸ hf.2.1, hf.2.2.1, (hr hf.2.2.2).1⟩,
          by simp [KeyedForest.keys, (hr hf.2.2.2).2]⟩) hp hx hone
      rw [hc] at hfree
      exact (h (fun hck => ⟨hkey, hfree, trivial, hck⟩) hk).1

/-- The pairs of a children map are the places at its own level. -/
theorem mem_items : ∀ {f : Children} {s : Ctx} {e : UInt64 × Node}, f.Keyed (keyOf key bt) →
    e ∈ f.items → (s, e.2) ∈ f.places Ctx.push s ∧ e.1 = keyOf key bt e.2
  | .nil, _, _, _, h => by cases h
  | .cons k m c r, s, e, hk, h => by
    simp only [KeyedForest.places, List.mem_cons, List.mem_append]
    rcases List.mem_cons.mp h with rfl | h
    · exact ⟨.inl rfl, hk.1⟩
    · obtain ⟨h1, h2⟩ := mem_items (s := s) hk.2.2.2 h
      exact ⟨.inr (.inr h1), h2⟩

/-- The children map of a node is keyed, and lists places of the tree. -/
theorem childrenOf_spec (hl : Linked t) (hk : t.children.Keyed (keyOf key bt)) {id : NodeId}
    {s : Ctx} (hs : CtxOf t id s) :
    (t.childrenOf id).Keyed (keyOf key bt) ∧
      ∀ y ∈ (t.childrenOf id).places Ctx.push s, y ∈ t.places := by
  unfold childrenOf
  rcases hs with ⟨rfl, rfl⟩ | ⟨x, hx, rfl, rfl⟩
  · rw [if_pos rfl]
    exact ⟨hk, fun y hy => hy⟩
  · rw [if_neg (hl.ne_root hx)]
    have hp : (fun n : Node => n.id == x.2.id) x.2 = true := by simp
    generalize hc₀ : (t.children.kidsOf fun n => n.id == x.2.id).getD .nil = c₀
    obtain ⟨c, hc, h⟩ := mapKids_rule (p := fun n : Node => n.id == x.2.id) (g := fun c => c)
      (Q := fun s c _ => s = x.1.push x.2 ∧ c = c₀)
      (R := fun s f _ => f.Keyed (keyOf key bt) → c₀.Keyed (keyOf key bt) ∧
        ∀ y ∈ c₀.places Ctx.push (x.1.push x.2), y ∈ f.places Ctx.push s)
      (by
        rintro s k w c c' r _ ⟨h1, rfl⟩ hf
        rw [← h1]
        exact ⟨hf.2.2.1, fun y hy => List.mem_cons_of_mem _ (List.mem_append_left _ hy)⟩)
      (by
        rintro s k w c c' r hr hf
        obtain ⟨h1, h2⟩ := hr hf.2.2.1
        exact ⟨h1, fun y hy => List.mem_cons_of_mem _ (List.mem_append_left _ (h2 y hy))⟩)
      (by
        rintro s k w c r r' hr hf
        obtain ⟨h1, h2⟩ := hr hf.2.2.2
        exact ⟨h1, fun y hy => List.mem_cons_of_mem _ (List.mem_append_right _ (h2 y hy))⟩) hp hx
      (countP_id hl.nodup hx)
    rw [hc] at hc₀
    exact h ⟨rfl, hc₀⟩ hk

/-! ## Erasing a leaf -/

theorem path_length_ge : ∀ {f : Children} {s : Ctx} {x : Place}, x ∈ f.places Ctx.push s →
    s.path.length ≤ x.1.path.length
  | .nil, _, _, h => by cases h
  | .cons k m c r, s, x, h => by
    simp only [KeyedForest.places, List.mem_cons, List.mem_append] at h
    rcases h with rfl | h | h
    · exact Nat.le_refl _
    · have := path_length_ge h
      simp only [Ctx.push, List.length_cons] at this
      omega
    · exact path_length_ge h

/-- A top-level leaf is erased by its key. -/
theorem erase_plucked : ∀ {f : Children} {s : Ctx} {x : Place}, x ∈ f.leaves Ctx.push s →
    x.1.path.length = s.path.length → f.Keyed (keyOf key bt) →
      keyOf key bt x.2 ∈ f.keys ∧
      Plucked Ctx.push (keyOf key bt x.2) x.2 x.1 s f (f.erase (keyOf key bt x.2))
  | .nil, _, _, h, _, _ => by cases h
  | .cons k m c r, s, x, h, hs, hk => by
    simp only [KeyedForest.leaves, List.mem_append] at h
    rcases h with h | h | h
    · cases hc : c with
      | nil =>
        simp only [hc, KeyedForest.isNil, if_true, List.mem_singleton] at h
        subst h
        simp only [KeyedForest.erase, KeyedForest.keys, hk.1, if_true]
        exact ⟨List.mem_cons_self, .here⟩
      | cons _ _ _ _ =>
        simp only [hc, KeyedForest.isNil, Bool.false_eq_true, if_false] at h
        cases h
    · have := path_length_ge (mem_places_of_mem_leaves h)
      simp only [Ctx.push, List.length_cons] at this
      omega
    · obtain ⟨h1, h2⟩ := erase_plucked h hs hk.2.2.2
      have hne : k ≠ keyOf key bt x.2 := fun e => hk.2.1 (e ▸ h1)
      simp only [KeyedForest.erase, KeyedForest.keys, if_neg hne]
      exact ⟨List.mem_cons_of_mem _ h1, .rest h2⟩

/-- The ids of a forest, split along its first tree. -/
theorem nodup_cons {k : UInt64} {m : Node} {c r : Children} {s : Ctx}
    (hn : (ids ((KeyedForest.cons k m c r).places Ctx.push s)).Nodup) :
    m.id ∉ ids (c.places Ctx.push (s.push m)) ∧ m.id ∉ ids (r.places Ctx.push s) ∧
      (ids (c.places Ctx.push (s.push m))).Nodup ∧ (ids (r.places Ctx.push s)).Nodup ∧
      ∀ i ∈ ids (c.places Ctx.push (s.push m)), i ∉ ids (r.places Ctx.push s) := by
  simp only [KeyedForest.places, ids, List.map_cons, List.map_append, List.nodup_cons,
    List.mem_append, not_or, List.nodup_append'] at hn
  exact ⟨hn.1.1, hn.1.2, hn.2.1, hn.2.2.1, fun i hi hr => hn.2.2.2 hi hr⟩

theorem not_of_notMem {f : Children} {s : Ctx} {a : NodeId}
    (h : a ∉ ids (f.places Ctx.push s)) : ∀ x ∈ f.places Ctx.push s, (x.2.id == a) = false := by
  intro x hx
  simp only [beq_eq_false_iff_ne]
  exact fun e => h (e ▸ mem_ids hx)

/-- A leaf below the node `a` is erased from the children of `a`. -/
theorem mapKids_erase_plucked {a : NodeId} {l : List NodeId} : ∀ {f : Children} {s : Ctx}
    {x : Place}, x ∈ f.leaves Ctx.push s → x.1.path = a :: l → a ∉ s.path →
    (ids (f.places Ctx.push s)).Nodup → f.Keyed (keyOf key bt) →
      Plucked Ctx.push (keyOf key bt x.2) x.2 x.1 s f
        (f.mapKids (fun n => n.id == a) (·.erase (keyOf key bt x.2)))
  | .nil, _, _, h, _, _, _, _ => by cases h
  | .cons k m c r, s, x, h, hp, ha, hn, hk => by
    obtain ⟨hmc, hmr, hnc, hnr, hd⟩ := nodup_cons hn
    simp only [KeyedForest.leaves, List.mem_append] at h
    rcases h with h | h | h
    · -- the first node itself is in the outer context, where `a` is not
      split at h
      · rw [List.mem_singleton.mp h] at hp
        simp only at hp
        rw [hp] at ha
        exact absurd List.mem_cons_self ha
      · cases h
    · have hx := mem_places_of_mem_leaves h
      by_cases hm : m.id = a
      · have hctx : x.1.path.length = (s.push m).path.length := by
          rcases ctx_parent hx with he | ⟨y, hy, he⟩
          · rw [he]
          · rw [he] at hp
            simp only [Ctx.push, List.cons.injEq] at hp
            exact absurd (hp.1.trans hm.symm ▸ mem_ids hy) hmc
        simp only [KeyedForest.mapKids, hm, beq_self_eq_true, if_true]
        exact .kids (erase_plucked h hctx hk.2.2.1).2
      · have hb : (m.id == a) = false := by simpa using hm
        have ha' : a ∉ (s.push m).path := by
          simp only [Ctx.push, List.mem_cons, not_or]
          exact ⟨fun e => hm e.symm, ha⟩
        have hac : a ∈ ids (c.places Ctx.push (s.push m)) := by
          rcases path_subset hx a (hp ▸ List.mem_cons_self) with h' | h'
          · exact h'
          · exact absurd h' ha'
        have hr := mapKids_of_not (p := fun n : Node => n.id == a)
          (g := (·.erase (keyOf key bt x.2))) (not_of_notMem (hd a hac))
        simp only [KeyedForest.mapKids, hb, Bool.false_eq_true, if_false, hr.1]
        exact .kids (mapKids_erase_plucked h hp ha' hnc hk.2.2.1)
    · have hx := mem_places_of_mem_leaves h
      have har : a ∈ ids (r.places Ctx.push s) := by
        rcases path_subset hx a (hp ▸ List.mem_cons_self) with h' | h'
        · exact h'
        · exact absurd h' ha
      have hm : m.id ≠ a := fun e => hmr (e ▸ har)
      have hb : (m.id == a) = false := by simpa using hm
      have hc := mapKids_of_not (p := fun n : Node => n.id == a)
        (g := (·.erase (keyOf key bt x.2))) (not_of_notMem fun hac => hd a hac har)
      simp only [KeyedForest.mapKids, hb, Bool.false_eq_true, if_false, hc.1]
      exact .rest (mapKids_erase_plucked h hp ha hnr hk.2.2.2)

/-- **Erasing a leaf from its parent's children map.** -/
theorem setChildren_erase (h : WF key t) (hx : x ∈ t.children.leaves Ctx.push .top) :
    Plucked Ctx.push (keyOf key t.blockTokens x.2) x.2 x.1 .top t.children
      (t.setChildren x.1.parent (·.erase (keyOf key t.blockTokens x.2))).children := by
  cases hp : x.1.path with
  | nil =>
    have hpar : x.1.parent = t.root.id := by unfold Ctx.parent; rw [hp, h.root.1]; rfl
    unfold setChildren
    simp only [if_pos hpar]
    exact (erase_plucked hx (by rw [hp]; rfl) h.keyed).2
  | cons a l =>
    have hpar : x.1.parent = a := by unfold Ctx.parent; rw [hp]; rfl
    have ha : a ∈ ids t.places := by
      rcases path_subset (mem_places_of_mem_leaves hx) a (hp ▸ List.mem_cons_self) with h' | h'
      · exact h'
      · cases h'
    have hne : a ≠ t.root.id := by
      intro e
      rw [h.root.1] at e
      exact h.linked.notRoot (e ▸ ha)
    unfold setChildren
    rw [hpar]
    simp only [if_neg hne]
    exact mapKids_erase_plucked hx hp List.not_mem_nil h.ids_nodup h.keyed

end RadixTree

end KvsLab
