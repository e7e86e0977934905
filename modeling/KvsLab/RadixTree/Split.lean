import KvsLab.RadixTree.Places

/-!
# Touching and splitting nodes

* `Touched f f'` — the forests differ in access times only; nothing else about them does.
* `SplitIn … f f'` — one node of `f` has been split: a new parent took its first `j` blocks.
  `SplitIn.places` gives the new list of places in closed form, and from it follow the effects:
  the entries are the same list, the ids gain the new parent, and the lock counts stay right for
  the pins taken before.
-/

namespace KvsLab

open KeyedForest

/-- A node without its access time. -/
def Node.unstamp (n : Node) : Node := { n with lastAccess := 0 }

namespace RadixTree

variable {key : List TokenId → UInt64} {bt : Nat} {f f' : Children} {s : Ctx}

/-! ## Changes that places do not see -/

section Same

variable {g : Node → Node}

theorem push_congr {n m : Node} (hi : m.id = n.id) (ht : m.tokens = n.tokens)
    (hb : m.blocks = n.blocks) (s : Ctx) : s.push m = s.push n := by
  unfold Ctx.push
  rw [hi, ht, hb]

/-- Maps that keep address, tokens and blocks. -/
structure Keeps (g : Node → Node) : Prop where
  id : ∀ n, (g n).id = n.id
  tokens : ∀ n, (g n).tokens = n.tokens
  blocks : ∀ n, (g n).blocks = n.blocks

theorem Keeps.push (h : Keeps g) (s : Ctx) (n : Node) : s.push (g n) = s.push n :=
  push_congr (h.id n) (h.tokens n) (h.blocks n) s

theorem Keeps.places (h : Keeps g) (f : Children) (s : Ctx) :
    (f.map g).places Ctx.push s = (f.places Ctx.push s).map fun x => (x.1, g x.2) :=
  places_map h.push f s

theorem Keeps.ids (h : Keeps g) (ps : List Place) :
    ids (ps.map fun x => (x.1, g x.2)) = ids ps := by
  simp [RadixTree.ids, h.id, Function.comp_def]

theorem Keeps.blocksOf (h : Keeps g) (ps : List Place) :
    blocksOf (ps.map fun x => (x.1, g x.2)) = blocksOf ps := by
  simp [RadixTree.blocksOf, h.blocks, List.flatMap_map]

theorem Keeps.below (h : Keeps g) (ps : List Place) (m x : NodeId) :
    below (ps.map fun x => (x.1, g x.2)) m x = below ps m x := by
  simp [RadixTree.below, h.id, List.any_map, Function.comp_def]

theorem Keeps.entries (h : Keeps g) (hl : ∀ n, (g n).lockCount = n.lockCount) (bt : Nat)
    (ps : List Place) : entries bt (ps.map fun x => (x.1, g x.2)) = entries bt ps := by
  have hx : ∀ x : Place, placeEntries bt (x.1, g x.2) = placeEntries bt x := by
    intro x
    simp only [placeEntries, h.tokens, h.blocks, hl]
  unfold RadixTree.entries
  rw [List.flatMap_map]
  simp only [hx]

theorem unstamp_keeps : Keeps Node.unstamp := ⟨fun _ => rfl, fun _ => rfl, fun _ => rfl⟩

end Same

/-! ## Touching -/

/-- The forests are equal up to access times. -/
def Touched (f f' : Children) : Prop := f.map Node.unstamp = f'.map Node.unstamp

theorem Touched.refl (f : Children) : Touched f f := rfl

theorem Touched.cons {k : UInt64} {n n' : Node} {c c' r r' : Children}
    (hn : n.unstamp = n'.unstamp) (hc : Touched c c') (hr : Touched r r') :
    Touched (.cons k n c r) (.cons k n' c' r') := by
  unfold Touched at *
  simp only [KeyedForest.map, hn, hc, hr]

theorem Touched.places (h : Touched f f') (s : Ctx) :
    ((f.places Ctx.push s).map fun x => (x.1, x.2.unstamp)) =
      (f'.places Ctx.push s).map fun x => (x.1, x.2.unstamp) := by
  rw [← unstamp_keeps.places, ← unstamp_keeps.places, h]

theorem Touched.ids (h : Touched f f') (s : Ctx) :
    ids (f'.places Ctx.push s) = ids (f.places Ctx.push s) := by
  rw [← unstamp_keeps.ids (f.places _ _), h.places s, unstamp_keeps.ids]

theorem Touched.blocksOf (h : Touched f f') (s : Ctx) :
    blocksOf (f'.places Ctx.push s) = blocksOf (f.places Ctx.push s) := by
  rw [← unstamp_keeps.blocksOf (f.places _ _), h.places s, unstamp_keeps.blocksOf]

theorem Touched.below (h : Touched f f') (s : Ctx) (m x : NodeId) :
    below (f'.places Ctx.push s) m x = below (f.places Ctx.push s) m x := by
  rw [← unstamp_keeps.below (f.places _ _), h.places s, unstamp_keeps.below]

theorem Touched.entries (h : Touched f f') (bt : Nat) (s : Ctx) :
    entries bt (f'.places Ctx.push s) = entries bt (f.places Ctx.push s) := by
  rw [← unstamp_keeps.entries (fun _ => rfl) bt (f.places _ _), h.places s,
    unstamp_keeps.entries fun _ => rfl]

theorem Touched.size (h : Touched f f') : f'.size = f.size := by
  rw [← map_size Node.unstamp f, h, map_size]

theorem Touched.keyed (h : Touched f f') (hk : f.Keyed (keyOf key bt)) :
    f'.Keyed (keyOf key bt) := by
  rw [← keyed_map (h := Node.unstamp) fun _ => rfl] at hk ⊢
  rwa [← h]

/-- A node of the touched forest is a node of the old one up to its access time. -/
theorem Touched.mem (h : Touched f f') {x : Place} (hx : x ∈ f'.places Ctx.push s) :
    ∃ y ∈ f.places Ctx.push s, x.1 = y.1 ∧ x.2.unstamp = y.2.unstamp := by
  have hm : (x.1, x.2.unstamp) ∈ (f.places Ctx.push s).map fun x => (x.1, x.2.unstamp) := by
    rw [h.places s]
    exact List.mem_map_of_mem (f := fun x : Place => (x.1, x.2.unstamp)) hx
  obtain ⟨y, hy, he⟩ := List.mem_map.mp hm
  simp only [Prod.mk.injEq] at he
  exact ⟨y, hy, he.1.symm, he.2.symm⟩

theorem Touched.symm (h : Touched f f') : Touched f' f := Eq.symm h

theorem unstamp_eq {n m : Node} (h : n.unstamp = m.unstamp) :
    n.id = m.id ∧ n.tokens = m.tokens ∧ n.blocks = m.blocks ∧ n.parent = m.parent ∧
      n.lockCount = m.lockCount := by
  simpa [Node.unstamp] using h

theorem Touched.nodes (h : Touched f f') (hn : ∀ x ∈ f.places Ctx.push s, NodeOK bt x) :
    ∀ x ∈ f'.places Ctx.push s, NodeOK bt x := by
  intro x hx
  obtain ⟨y, hy, h1, h2⟩ := h.mem hx
  obtain ⟨_, ht, hb, hp, _⟩ := unstamp_eq h2
  obtain ⟨a, b, c⟩ := hn y hy
  exact ⟨ht ▸ a, by rw [ht, hb]; exact b, by rw [hp, h1]; exact c⟩

theorem Touched.lockOK (h : Touched f f') {pins : List NodeId}
    (hl : LockOK pins (f.places Ctx.push s)) : LockOK pins (f'.places Ctx.push s) := by
  intro x hx
  obtain ⟨y, hy, _, h2⟩ := h.mem hx
  obtain ⟨hi, _, _, _, hc⟩ := unstamp_eq h2
  rw [hc, hl y hy, hi]
  apply List.countP_congr
  intro p _
  rw [h.below]

/-! ## Splitting -/

/-- The new parent made by a split of `n` after `j` blocks. -/
def headOf (bt : Nat) (newId : NodeId) (n : Node) (j : Nat) : Node :=
  { n with id := newId, tokens := n.tokens.take (j * bt), blocks := n.blocks.take j }

/-- What the split leaves of `n`. -/
def tailOf (bt : Nat) (newId : NodeId) (n : Node) (j : Nat) : Node :=
  { n with
    tokens := n.tokens.drop (j * bt)
    blocks := n.blocks.drop j
    parent := some newId }

/-- `f'` is `f` with the node `n` split after `j` blocks. -/
inductive SplitIn (key : List TokenId → UInt64) (bt : Nat) (newId : NodeId) (n : Node) (j : Nat) :
    Children → Children → Prop where
  | here {k c r} : SplitIn key bt newId n j (.cons k n c r)
      (.cons k (headOf bt newId n j)
        (.cons (keyOf key bt (tailOf bt newId n j)) (tailOf bt newId n j) c .nil) r)
  | kids {k m c c' r} : SplitIn key bt newId n j c c' →
      SplitIn key bt newId n j (.cons k m c r) (.cons k m c' r)
  | rest {k m c r r'} : SplitIn key bt newId n j r r' →
      SplitIn key bt newId n j (.cons k m c r) (.cons k m c r')

/-- Interpose `b` above `a` in a context. -/
def graft (a b : NodeId) (s : Ctx) : Ctx :=
  { s with path := s.path.flatMap fun i => if i = a then [a, b] else [i] }

/-- Where the places of the old forest went. -/
def splitPlace (bt : Nat) (newId : NodeId) (n : Node) (j : Nat) (x : Place) : List Place :=
  if x.2.id = n.id then
    [(x.1, headOf bt newId n j), (x.1.push (headOf bt newId n j), tailOf bt newId n j)]
  else [(graft n.id newId x.1, x.2)]

variable {newId : NodeId} {n : Node} {j : Nat} {a b : NodeId}

theorem graft_of_notMem (h : a ∉ s.path) : graft a b s = s := by
  unfold graft
  have hp : (s.path.flatMap fun i => if i = a then [a, b] else [i]) = s.path.flatMap fun i => [i] := by
    apply List.flatMap_congr
    intro i hi
    exact if_neg fun e : i = a => h (e ▸ hi)
  rw [hp, List.flatMap_singleton']

theorem mem_graft {m : NodeId} (hm : m ≠ b) : m ∈ (graft a b s).path ↔ m ∈ s.path := by
  unfold graft
  simp only [List.mem_flatMap]
  constructor
  · rintro ⟨i, hi, h⟩
    split at h
    · rename_i e
      simp only [List.mem_cons, List.not_mem_nil, or_false] at h
      rcases h with h | h
      · rw [h, ← e]; exact hi
      · exact absurd h hm
    · rw [List.mem_singleton.mp h]; exact hi
  · intro h
    refine ⟨m, h, ?_⟩
    split
    · rename_i e; simp [e]
    · simp

theorem new_mem_graft (hb : b ∉ s.path) : b ∈ (graft a b s).path ↔ a ∈ s.path := by
  unfold graft
  simp only [List.mem_flatMap]
  constructor
  · rintro ⟨i, hi, h⟩
    split at h
    · rename_i e; rw [← e]; exact hi
    · rw [List.mem_singleton.mp h] at hb; exact absurd hi hb
  · intro h
    exact ⟨a, h, by simp⟩

theorem push_graft {m : Node} (hm : m.id ≠ a) : (graft a b s).push m = graft a b (s.push m) := by
  simp [graft, Ctx.push, hm]

/-- Below the split node every context gains the new parent. -/
theorem places_graft : ∀ {f : Children} {s : Ctx}, a ∉ ids (f.places Ctx.push s) →
    f.places Ctx.push (graft a b s) = (f.places Ctx.push s).map fun x => (graft a b x.1, x.2)
  | .nil, _, _ => rfl
  | .cons k m c r, s, h => by
    simp only [KeyedForest.places, ids, List.map_cons, List.map_append, List.mem_cons,
      List.mem_append, not_or] at h
    obtain ⟨hm, hc, hr⟩ := h
    simp only [KeyedForest.places, List.map_cons, List.map_append]
    rw [push_graft (fun e => hm e.symm), places_graft hc, places_graft hr]

theorem SplitIn.mem (h : SplitIn key bt newId n j f f') (s : Ctx) :
    ∃ s₀, (s₀, n) ∈ f.places Ctx.push s := by
  induction h generalizing s with
  | here => exact ⟨s, List.mem_cons_self⟩
  | kids _ ih =>
    obtain ⟨s₀, hs⟩ := ih (s.push _)
    exact ⟨s₀, List.mem_cons_of_mem _ (List.mem_append_left _ hs)⟩
  | rest _ ih =>
    obtain ⟨s₀, hs⟩ := ih s
    exact ⟨s₀, List.mem_cons_of_mem _ (List.mem_append_right _ hs)⟩

theorem SplitIn.mem_ids (h : SplitIn key bt newId n j f f') (s : Ctx) :
    n.id ∈ ids (f.places Ctx.push s) := by
  obtain ⟨s₀, hs⟩ := h.mem s
  exact RadixTree.mem_ids hs

/-- Places that are not the split node and whose context does not contain it stay. -/
theorem flatMap_splitPlace_of_notMem (ha : n.id ∉ s.path) (hi : n.id ∉ ids (f.places Ctx.push s)) :
    (f.places Ctx.push s).flatMap (splitPlace bt newId n j) = f.places Ctx.push s := by
  have hne : ∀ x ∈ f.places Ctx.push s,
      splitPlace bt newId n j x = [(graft n.id newId x.1, x.2)] := by
    intro x hx
    unfold splitPlace
    rw [if_neg]
    intro e
    exact hi (e ▸ List.mem_map_of_mem (f := fun x : Place => x.2.id) hx)
  rw [List.flatMap_congr hne, ← List.map_eq_flatMap, ← places_graft hi, graft_of_notMem ha]

theorem push_split (s : Ctx) : (s.push (headOf bt newId n j)).push (tailOf bt newId n j) =
    { s.push n with path := n.id :: newId :: s.path } := by
  simp [Ctx.push, headOf, tailOf, List.append_assoc]

/-- **The places after a split.** -/
theorem SplitIn.places (h : SplitIn key bt newId n j f f') :
    ∀ s : Ctx, n.id ∉ s.path → (ids (f.places Ctx.push s)).Nodup →
      f'.places Ctx.push s = (f.places Ctx.push s).flatMap (splitPlace bt newId n j) := by
  induction h with
  | @here k c r =>
    intro s ha hn
    simp only [KeyedForest.places, ids, List.map_cons, List.map_append, List.nodup_cons,
      List.mem_append, not_or] at hn
    obtain ⟨⟨hc, hr⟩, _⟩ := hn
    have hg : { s.push n with path := n.id :: newId :: s.path } = graft n.id newId (s.push n) := by
      have hp : (graft n.id newId s).path = s.path := by rw [graft_of_notMem ha]
      simp only [graft] at hp
      simp only [graft, Ctx.push, List.flatMap_cons, if_true, hp]
      rfl
    have hcn : ∀ x ∈ c.places Ctx.push (s.push n),
        splitPlace bt newId n j x = [(graft n.id newId x.1, x.2)] := by
      intro x hx
      unfold splitPlace
      rw [if_neg]
      intro e
      exact hc (e ▸ List.mem_map_of_mem (f := fun x : Place => x.2.id) hx)
    simp only [KeyedForest.places, List.flatMap_cons, List.flatMap_append, List.append_nil]
    rw [push_split, hg, places_graft hc, flatMap_splitPlace_of_notMem ha hr,
      List.flatMap_congr hcn, ← List.map_eq_flatMap]
    simp [splitPlace]
  | @kids k m c c' r hs ih =>
    intro s ha hn
    have hmem := hs.mem_ids (s.push m)
    simp only [KeyedForest.places, ids, List.map_cons, List.map_append, List.nodup_cons,
      List.mem_append, not_or, List.nodup_append'] at hn
    obtain ⟨⟨hmc, hmr⟩, hnc, hnr, hd⟩ := hn
    have hne : n.id ≠ m.id := fun e => hmc (e ▸ hmem)
    have hr : n.id ∉ ids (r.places Ctx.push s) := fun hx => hd hmem hx
    have ha' : n.id ∉ (s.push m).path := by simp [Ctx.push, hne, ha]
    simp only [KeyedForest.places, List.flatMap_cons, List.flatMap_append]
    rw [ih _ ha' hnc, flatMap_splitPlace_of_notMem ha hr]
    simp [splitPlace, Ne.symm hne, graft_of_notMem ha]
  | @rest k m c r r' hs ih =>
    intro s ha hn
    have hmem := hs.mem_ids s
    simp only [KeyedForest.places, ids, List.map_cons, List.map_append, List.nodup_cons,
      List.mem_append, not_or, List.nodup_append'] at hn
    obtain ⟨⟨hmc, hmr⟩, hnc, hnr, hd⟩ := hn
    have hne : n.id ≠ m.id := fun e => hmr (e ▸ hmem)
    have hc : n.id ∉ ids (c.places Ctx.push (s.push m)) := fun hx => hd hx hmem
    have ha' : n.id ∉ (s.push m).path := by simp [Ctx.push, hne, ha]
    simp only [KeyedForest.places, List.flatMap_cons, List.flatMap_append]
    rw [ih _ ha hnr, flatMap_splitPlace_of_notMem ha' hc]
    simp [splitPlace, Ne.symm hne, graft_of_notMem ha]

/-! ## What a split keeps -/

theorem length_take_lt (hj : j < n.blocks.length) : (n.blocks.take j).length = j := by
  rw [List.length_take, Nat.min_eq_left (Nat.le_of_lt hj)]

/-- The two halves hold the entries of the node. -/
theorem placeEntries_split (s : Ctx) (hj : j < n.blocks.length) :
    placeEntries bt (s, headOf bt newId n j) ++
      placeEntries bt (s.push (headOf bt newId n j), tailOf bt newId n j) =
    placeEntries bt (s, n) := by
  have := runEntries_append bt n.lockCount (n.blocks.take j) (n.blocks.drop j) s.toks n.tokens
  rw [List.take_append_drop, length_take_lt hj] at this
  exact this.symm

section Effects

variable {ps ps' : List Place}

/-- The list of places changed as by a split. -/
structure SplitPlaces (bt : Nat) (newId : NodeId) (n : Node) (j : Nat) (ps ps' : List Place) :
    Prop where
  eq : ps' = ps.flatMap (splitPlace bt newId n j)
  mem : ∃ s₀, (s₀, n) ∈ ps
  nodup : (ids ps).Nodup
  fresh : newId ∉ ids ps
  paths : ∀ x ∈ ps, newId ∉ x.1.path
  blocks : j < n.blocks.length

/-- The split node is found under its address only. -/
theorem SplitPlaces.node (h : SplitPlaces bt newId n j ps ps') {x : Place} (hx : x ∈ ps)
    (e : x.2.id = n.id) : x.2 = n := by
  obtain ⟨s₀, hs⟩ := h.mem
  rw [place_inj h.nodup hx hs e]

theorem SplitPlaces.mem_split (h : SplitPlaces bt newId n j ps ps') {y : Place} (hy : y ∈ ps') :
    (∃ s, (s, n) ∈ ps ∧ y = (s, headOf bt newId n j)) ∨
    (∃ s, (s, n) ∈ ps ∧ y = (s.push (headOf bt newId n j), tailOf bt newId n j)) ∨
    ∃ x ∈ ps, x.2.id ≠ n.id ∧ y = (graft n.id newId x.1, x.2) := by
  rw [h.eq, List.mem_flatMap] at hy
  obtain ⟨x, hx, hy⟩ := hy
  unfold splitPlace at hy
  split at hy
  · rename_i e
    have hxn : (x.1, n) ∈ ps := h.node hx e ▸ hx
    simp only [List.mem_cons, List.not_mem_nil, or_false] at hy
    rcases hy with rfl | rfl
    · exact .inl ⟨x.1, hxn, rfl⟩
    · exact .inr (.inl ⟨x.1, hxn, rfl⟩)
  · rename_i e
    exact .inr (.inr ⟨x, hx, e, List.mem_singleton.mp hy⟩)

/-- **A split keeps the entries.** -/
theorem SplitPlaces.entries (h : SplitPlaces bt newId n j ps ps') :
    entries bt ps' = entries bt ps := by
  unfold RadixTree.entries
  rw [h.eq, List.flatMap_assoc]
  apply List.flatMap_congr
  intro x hx
  unfold splitPlace
  split
  · rename_i e
    have hxn : x = (x.1, n) := by rw [← h.node hx e]
    rw [List.flatMap_cons, List.flatMap_singleton, placeEntries_split _ h.blocks, ← hxn]
  · rw [List.flatMap_singleton]
    rfl

theorem SplitPlaces.blocksOf (h : SplitPlaces bt newId n j ps ps') :
    blocksOf ps' = blocksOf ps := by
  rw [← map_block_entries bt, h.entries, map_block_entries]

theorem perm_cons_of_flatMap {a b : NodeId} : ∀ {l : List NodeId}, l.Nodup → a ∈ l →
    (l.flatMap fun i => if i = a then [b, a] else [i]).Perm (b :: l)
  | [], _, h => by cases h
  | i :: l, hn, h => by
    rw [List.nodup_cons] at hn
    rw [List.flatMap_cons]
    by_cases e : i = a
    · subst e
      have hl : (l.flatMap fun x => if x = i then [b, i] else [x]) = l := by
        have : ∀ x ∈ l, (if x = i then [b, i] else [x]) = [x] := fun x hx =>
          if_neg fun e : x = i => hn.1 (e ▸ hx)
        rw [List.flatMap_congr this, List.flatMap_singleton']
      rw [if_pos rfl, hl]
      rfl
    · have ha : a ∈ l := (List.mem_cons.mp h).resolve_left fun e' => e e'.symm
      rw [if_neg e]
      exact ((perm_cons_of_flatMap hn.2 ha).cons i).trans (.swap _ _ _)

/-- A split adds one address. -/
theorem SplitPlaces.ids (h : SplitPlaces bt newId n j ps ps') :
    (ids ps').Perm (newId :: ids ps) := by
  have he : RadixTree.ids ps' =
      (RadixTree.ids ps).flatMap fun i => if i = n.id then [newId, n.id] else [i] := by
    unfold RadixTree.ids
    rw [h.eq, List.map_flatMap, List.flatMap_map]
    apply List.flatMap_congr
    intro x hx
    unfold splitPlace
    split
    · rename_i e
      rfl
    · rfl
  obtain ⟨s₀, hs⟩ := h.mem
  rw [he]
  exact perm_cons_of_flatMap h.nodup (mem_ids hs)

theorem SplitPlaces.nodes (h : SplitPlaces bt newId n j ps ps') (hbt : 0 < bt) (hj : 0 < j)
    (hn : ∀ x ∈ ps, NodeOK bt x) : ∀ y ∈ ps', NodeOK bt y := by
  intro y hy
  rcases h.mem_split hy with ⟨s, hs, rfl⟩ | ⟨s, hs, rfl⟩ | ⟨x, hx, _, rfl⟩
  · obtain ⟨_, hal, hp⟩ := hn _ hs
    simp only at hal hp
    have hlt : j * bt ≤ n.tokens.length := by
      rw [hal]
      exact Nat.mul_le_mul_right _ (Nat.le_of_lt h.blocks)
    have hpos : 0 < j * bt := Nat.mul_pos hj hbt
    refine ⟨?_, ?_, hp⟩
    · show n.tokens.take (j * bt) ≠ []
      intro e
      have := congrArg List.length e
      rw [List.length_take, List.length_nil] at this
      omega
    · show (n.tokens.take (j * bt)).length = (n.blocks.take j).length * bt
      rw [length_take_lt h.blocks, List.length_take, Nat.min_eq_left hlt]
  · obtain ⟨_, hal, _⟩ := hn _ hs
    simp only at hal
    have hlt : j * bt < n.tokens.length := by
      rw [hal]
      exact Nat.mul_lt_mul_of_pos_right h.blocks hbt
    refine ⟨?_, ?_, rfl⟩
    · show n.tokens.drop (j * bt) ≠ []
      intro e
      have := congrArg List.length e
      rw [List.length_drop, List.length_nil] at this
      omega
    · show (n.tokens.drop (j * bt)).length = (n.blocks.drop j).length * bt
      rw [List.length_drop, List.length_drop, hal, Nat.sub_mul]
  · obtain ⟨ht, hal, hp⟩ := hn x hx
    refine ⟨ht, hal, ?_⟩
    show x.2.parent = some (graft n.id newId x.1).parent
    rw [hp]
    -- the nearest ancestor keeps its address; the new node stands above it
    unfold Ctx.parent graft
    cases x.1.path with
    | nil => rfl
    | cons i l =>
      simp only [List.flatMap_cons, List.headD_cons]
      split
      · rename_i e; rw [e]; rfl
      · rfl

/-- Every old node is on its path still. -/
theorem SplitPlaces.sameNode (h : SplitPlaces bt newId n j ps ps') :
    ∀ x ∈ ps, ∃ y ∈ ps', SameNode x y := by
  intro x hx
  by_cases e : x.2.id = n.id
  · have hxn := h.node hx e
    refine ⟨(x.1.push (headOf bt newId n j), tailOf bt newId n j), ?_, e.symm, ?_, ?_, ?_⟩
    · rw [h.eq, List.mem_flatMap]
      exact ⟨x, hx, by simp [splitPlace, e]⟩
    · rw [hxn]
      rfl
    · simp [Ctx.push, headOf, tailOf, List.append_assoc, hxn]
    · simp [Ctx.push, headOf, tailOf, List.append_assoc, hxn]
  · refine ⟨(graft n.id newId x.1, x.2), ?_, rfl, rfl, rfl, rfl⟩
    rw [h.eq, List.mem_flatMap]
    exact ⟨x, hx, by simp [splitPlace, e]⟩

theorem any_congr {α : Type} {p q : α → Bool} : ∀ {l : List α}, (∀ x ∈ l, p x = q x) →
    l.any p = l.any q
  | [], _ => rfl
  | x :: l, h => by
    rw [List.any_cons, List.any_cons, h x List.mem_cons_self,
      any_congr fun y hy => h y (List.mem_cons_of_mem _ hy)]

/-- Old nodes are below the same old nodes, and below the new parent exactly when they were
below the node it was split from. -/
theorem SplitPlaces.below (h : SplitPlaces bt newId n j ps ps') {m x : NodeId} (hx : x ≠ newId) :
    below ps' m x = below ps (if m = newId then n.id else m) x := by
  unfold RadixTree.below
  rw [h.eq, List.any_flatMap]
  apply any_congr
  intro y hy
  have hnew : newId ∉ y.1.path := h.paths y hy
  have hidy : y.2.id ≠ newId := fun e => h.fresh (e ▸ mem_ids hy)
  unfold splitPlace
  by_cases e : y.2.id = n.id
  · rw [if_pos e]
    have hne : n.id ≠ newId := e ▸ hidy
    by_cases hm : m = newId
    · subst hm
      simp [headOf, tailOf, Ctx.push, e, Ne.symm hx]
    · simp [headOf, tailOf, Ctx.push, e, Ne.symm hx, hm]
  · rw [if_neg e]
    by_cases hm : m = newId
    · subst hm
      have := new_mem_graft (a := n.id) hnew
      simp [this, Ne.symm hidy, Ne.symm e]
    · have := mem_graft (a := n.id) (s := y.1) hm
      simp [this, hm]

/-- **A split keeps the lock counts right** for the pins that exist. -/
theorem SplitPlaces.lockOK (h : SplitPlaces bt newId n j ps ps') {pins : List NodeId}
    (hpins : ∀ p ∈ pins, p ∈ RadixTree.ids ps) (hl : LockOK pins ps) : LockOK pins ps' := by
  have hcount : ∀ m, pins.countP (RadixTree.below ps' m) =
      pins.countP (RadixTree.below ps (if m = newId then n.id else m)) := by
    intro m
    apply List.countP_congr
    intro p hp
    rw [h.below fun e => h.fresh (e ▸ hpins p hp)]
  intro y hy
  rcases h.mem_split hy with ⟨s, hs, rfl⟩ | ⟨s, hs, rfl⟩ | ⟨x, hx, _, rfl⟩
  · show n.lockCount = pins.countP (RadixTree.below ps' newId)
    rw [hcount, if_pos rfl]
    exact hl _ hs
  · show n.lockCount = pins.countP (RadixTree.below ps' n.id)
    rw [hcount, if_neg fun e : n.id = newId => h.fresh (e ▸ mem_ids hs)]
    exact hl _ hs
  · show x.2.lockCount = pins.countP (RadixTree.below ps' x.2.id)
    rw [hcount, if_neg fun e : x.2.id = newId => h.fresh (e ▸ mem_ids hx)]
    exact hl x hx

end Effects

theorem SplitIn.keys (h : SplitIn key bt newId n j f f') : f'.keys = f.keys := by
  induction h with
  | here => rfl
  | kids _ _ => rfl
  | rest _ ih => simp [KeyedForest.keys, ih]

theorem SplitIn.keyed (h : SplitIn key bt newId n j f f') (hj : 0 < j)
    (hk : f.Keyed (keyOf key bt)) : f'.Keyed (keyOf key bt) := by
  induction h with
  | here =>
    obtain ⟨h1, h2, h3, h4⟩ := hk
    refine ⟨?_, h2, ⟨rfl, List.not_mem_nil, h3, trivial⟩, h4⟩
    rw [h1]
    show key (n.tokens.take bt) = key ((n.tokens.take (j * bt)).take bt)
    rw [List.take_take, Nat.min_eq_left (Nat.le_mul_of_pos_left _ hj)]
  | kids _ ih => exact ⟨hk.1, hk.2.1, ih hk.2.2.1, hk.2.2.2⟩
  | rest hs ih => exact ⟨hk.1, hs.keys ▸ hk.2.1, hk.2.2.1, ih hk.2.2.2⟩

theorem SplitIn.size (h : SplitIn key bt newId n j f f') : f'.size = f.size + 1 := by
  induction h with
  | here => simp only [KeyedForest.size]; omega
  | kids _ ih => simp only [KeyedForest.size, ih]; omega
  | rest _ ih => simp only [KeyedForest.size, ih]; omega

/-- Contexts are made of the addresses of the forest. -/
theorem path_subset : ∀ {f : Children} {s : Ctx} {x : Place}, x ∈ f.places Ctx.push s →
    ∀ i ∈ x.1.path, i ∈ ids (f.places Ctx.push s) ∨ i ∈ s.path
  | .nil, _, _, h, _, _ => by cases h
  | .cons k m c r, s, x, h, i, hi => by
    simp only [KeyedForest.places, List.mem_cons, List.mem_append] at h
    simp only [KeyedForest.places, ids, List.map_cons, List.map_append, List.mem_cons,
      List.mem_append]
    rcases h with rfl | h | h
    · exact .inr hi
    · rcases path_subset h i hi with h' | h'
      · exact .inl (.inr (.inl h'))
      · rcases List.mem_cons.mp h' with rfl | h'
        · exact .inl (.inl rfl)
        · exact .inr h'
    · rcases path_subset h i hi with h' | h'
      · exact .inl (.inr (.inr h'))
      · exact .inr h'

/-- A split in a forest is a split of its places. -/
theorem SplitIn.splitPlaces (h : SplitIn key bt newId n j f f') (hj : j < n.blocks.length)
    (hn : (ids (f.places Ctx.push .top)).Nodup) (hf : newId ∉ ids (f.places Ctx.push .top)) :
    SplitPlaces bt newId n j (f.places Ctx.push .top) (f'.places Ctx.push .top) := by
  refine ⟨h.places .top List.not_mem_nil hn, h.mem .top, hn, hf, ?_, hj⟩
  intro x hx hp
  rcases path_subset hx newId hp with h' | h'
  · exact hf h'
  · cases h'

end RadixTree

end KvsLab
