import KvsLab.RadixTree.Split

/-!
# Pins

`lock` and `unlock` follow parent pointers.  In a well-formed tree that is the path from the node
to the root (`climb_spec`), so a lock adds one to the count of every node at or above the pinned
one, an unlock takes one away, and the counts stay equal to the number of pins at or below each
node (`WF.lock`, `WF.unlock`).  `Relocked` — nothing but lock counts changed.
-/

namespace KvsLab

open KeyedForest

namespace RadixTree

variable {key : List TokenId → UInt64} {bt : Nat} {f : Children} {s : Ctx} {x : Place}
  {t t' : RadixTree}

/-! ## Contexts lead to the root -/

/-- A context is the root's or belongs to the children of a place. -/
theorem ctx_parent : ∀ {f : Children} {s : Ctx} {x : Place}, x ∈ f.places Ctx.push s →
    x.1 = s ∨ ∃ y ∈ f.places Ctx.push s, x.1 = y.1.push y.2
  | .nil, _, _, h => by cases h
  | .cons k m c r, s, x, h => by
    simp only [KeyedForest.places, List.mem_cons, List.mem_append] at h ⊢
    rcases h with rfl | h | h
    · exact .inl rfl
    · rcases ctx_parent h with h' | ⟨y, hy, h'⟩
      · exact .inr ⟨(s, m), .inl rfl, h'⟩
      · exact .inr ⟨y, .inr (.inl hy), h'⟩
    · rcases ctx_parent h with h' | ⟨y, hy, h'⟩
      · exact .inl h'
      · exact .inr ⟨y, .inr (.inr hy), h'⟩

theorem notMem_path : ∀ {f : Children} {s : Ctx} {x : Place}, x ∈ f.places Ctx.push s →
    (ids (f.places Ctx.push s)).Nodup → (∀ i ∈ ids (f.places Ctx.push s), i ∉ s.path) →
    x.2.id ∉ x.1.path
  | .nil, _, _, h, _, _ => by cases h
  | .cons k m c r, s, x, h, hn, hs => by
    simp only [KeyedForest.places, ids, List.map_cons, List.map_append, List.nodup_cons,
      List.mem_append, not_or, List.nodup_append', List.mem_cons, forall_eq_or_imp] at hn hs
    obtain ⟨⟨hmc, _⟩, hnc, hnr, _⟩ := hn
    simp only [KeyedForest.places, List.mem_cons, List.mem_append] at h
    rcases h with rfl | h | h
    · exact hs.1
    · refine notMem_path h hnc fun i hi hp => ?_
      rcases List.mem_cons.mp hp with rfl | hp
      · exact hmc hi
      · exact hs.2 i (.inl hi) hp
    · exact notMem_path h hnr fun i hi => hs.2 i (.inr hi)

theorem depth_le : ∀ {f : Children} {s : Ctx} {x : Place}, x ∈ f.places Ctx.push s →
    x.1.path.length + 1 ≤ s.path.length + f.size
  | .nil, _, _, h => by cases h
  | .cons k m c r, s, x, h => by
    simp only [KeyedForest.places, List.mem_cons, List.mem_append] at h
    simp only [KeyedForest.size]
    rcases h with rfl | h | h
    · show s.path.length + 1 ≤ _
      omega
    · have := depth_le h
      simp only [Ctx.push, List.length_cons] at this
      omega
    · have := depth_le h
      omega

/-! ## Climbing -/

/-- Apply `h` to the nodes of a list of addresses. -/
def onPath (h : Node → Node) (l : List NodeId) (n : Node) : Node := if n.id ∈ l then h n else n

theorem Keeps.onPath {h : Node → Node} (hk : Keeps h) (l : List NodeId) : Keeps (onPath h l) := by
  refine ⟨fun n => ?_, fun n => ?_, fun n => ?_⟩ <;> unfold RadixTree.onPath <;> split
  · exact hk.id n
  · rfl
  · exact hk.tokens n
  · rfl
  · exact hk.blocks n
  · rfl

/-- What `climb` relies on: addresses are unique, none is the root's, and parent pointers name
the node above. -/
structure Linked (t : RadixTree) : Prop where
  nodup : (ids t.places).Nodup
  root : t.root.id = kRoot
  notRoot : kRoot ∉ ids t.places
  parent : ∀ x ∈ t.places, x.2.parent = some x.1.parent

theorem WF.linked (h : WF key t) : Linked t where
  nodup := h.ids_nodup
  root := h.root.1
  notRoot := fun hm => Nat.lt_irrefl _ (h.ids_lt _ hm).1
  parent := fun x hx => (h.nodes x hx).parent

theorem mem_vals {v : Node} (h : v ∈ t.children.vals) : ∃ s, (s, v) ∈ t.places := by
  have hv : t.places.map (·.2) = t.children.vals := map_snd_places t.children Ctx.top
  rw [← hv] at h
  obtain ⟨x, hx, rfl⟩ := List.mem_map.mp h
  exact ⟨x.1, hx⟩

theorem vals_mem (h : x ∈ t.places) : x.2 ∈ t.children.vals := by
  have hv : t.places.map (·.2) = t.children.vals := map_snd_places t.children Ctx.top
  rw [← hv]
  exact List.mem_map_of_mem (f := fun x : Place => x.2) h

theorem Linked.node? (h : Linked t) (hx : x ∈ t.places) : t.node? x.2.id = some x.2 := by
  unfold RadixTree.node?
  have hs : (t.children.vals.find? fun n => n.id == x.2.id).isSome :=
    List.find?_isSome.mpr ⟨x.2, vals_mem hx, by simp⟩
  obtain ⟨v, hv⟩ := Option.isSome_iff_exists.mp hs
  obtain ⟨s, hm⟩ := mem_vals (List.mem_of_find?_eq_some hv)
  have he : v.id = x.2.id := by simpa using List.find?_some hv
  rw [hv, ← place_inj h.nodup hm hx he]

theorem map_congr {g h : Node → Node} : ∀ {f : Children}, (∀ v ∈ f.vals, g v = h v) →
    f.map g = f.map h
  | .nil, _ => rfl
  | .cons k v c r, hv => by
    simp only [KeyedForest.vals, List.mem_cons, List.mem_append] at hv
    simp only [KeyedForest.map]
    rw [hv v (.inl rfl), map_congr fun w hw => hv w (.inr (.inl hw)),
      map_congr fun w hw => hv w (.inr (.inr hw))]

theorem Linked.ne_root (h : Linked t) (hx : x ∈ t.places) : x.2.id ≠ t.root.id := by
  intro e
  apply h.notRoot
  rw [← h.root, ← e]
  exact mem_ids hx

/-- One step of the climb writes the node at its address only. -/
theorem Linked.setNode (h : Linked t) {g : Node → Node} (hx : x ∈ t.places) :
    t.setNode x.2.id (fun _ => g x.2) = { t with children := t.children.map (onPath g [x.2.id]) } := by
  unfold RadixTree.setNode
  rw [if_neg (h.ne_root hx)]
  congr 1
  apply map_congr
  intro v hv
  obtain ⟨s, hm⟩ := mem_vals hv
  unfold onPath
  simp only [List.mem_singleton]
  split
  · rename_i e
    rw [← place_inj h.nodup hm hx e]
  · rfl

/-- The tree with `g` applied along a list of addresses. -/
def mapPath (t : RadixTree) (g : Node → Node) (l : List NodeId) : RadixTree :=
  { t with children := t.children.map (onPath g l) }

theorem mapPath_places {g : Node → Node} (hk : Keeps g) (t : RadixTree) (l : List NodeId) :
    (t.mapPath g l).places = t.places.map fun x => (x.1, onPath g l x.2) :=
  (hk.onPath l).places t.children .top

theorem Linked.mapPath (h : Linked t) {g : Node → Node} (hk : Keeps g)
    (hp : ∀ n, (g n).parent = n.parent) (l : List NodeId) : Linked (t.mapPath g l) := by
  have hpl := mapPath_places hk t l
  refine ⟨?_, h.root, ?_, ?_⟩
  · rw [hpl, (hk.onPath l).ids]
    exact h.nodup
  · rw [hpl, (hk.onPath l).ids]
    exact h.notRoot
  · intro x hx
    rw [hpl] at hx
    obtain ⟨y, hy, rfl⟩ := List.mem_map.mp hx
    rw [← h.parent y hy]
    show (onPath g l y.2).parent = y.2.parent
    unfold onPath
    split
    · exact hp _
    · rfl

theorem Linked.notMem_path (h : Linked t) (hx : x ∈ t.places) : x.2.id ∉ x.1.path :=
  RadixTree.notMem_path hx h.nodup fun _ _ => List.not_mem_nil

/-- **A climb goes along the path to the root.** -/
theorem climb_spec {g : Node → Except Fault Node} {g' : Node → Node} (hk : Keeps g')
    (hp : ∀ n, (g' n).parent = n.parent) : ∀ (l : List NodeId) (fuel : Nat) (t : RadixTree)
    (x : Place), Linked t → x ∈ t.places → x.1.path = l → l.length < fuel →
    (∀ y ∈ t.places, y.2.id ∈ x.2.id :: l → g y.2 = .ok (g' y.2)) →
    climb g fuel t (some x.2.id) = .ok (t.mapPath g' (x.2.id :: l))
  | l, 0, t, x, _, _, _, hf, _ => by omega
  | l, fuel + 1, t, x, h, hx, hl, hf, hg => by
    unfold climb
    rw [if_neg (h.ne_root hx), h.node? hx]
    simp only [hg x hx List.mem_cons_self]
    show climb g fuel (t.setNode x.2.id fun _ => g' x.2) (g' x.2).parent = _
    rw [h.setNode hx, hp, h.parent x hx]
    have hl1 : Linked (t.mapPath g' [x.2.id]) := h.mapPath hk hp _
    cases l with
    | nil =>
      -- the node is a child of the root
      have hpar : x.1.parent = kRoot := by unfold Ctx.parent; rw [hl]; rfl
      rw [hpar]
      unfold climb
      rw [if_pos h.root.symm]
      rfl
    | cons a rest =>
      have hpar : x.1.parent = a := by unfold Ctx.parent; rw [hl]; rfl
      rcases ctx_parent hx with he | ⟨y, hy, he⟩
      · rw [he] at hl
        cases hl
      · have hya : y.2.id = a ∧ y.1.path = rest := by
          rw [he] at hl
          simpa [Ctx.push] using hl
        have hnot := h.notMem_path hx
        rw [hl] at hnot
        have hne : ∀ i ∈ a :: rest, i ≠ x.2.id := fun i hi e => hnot (e ▸ hi)
        -- below the list the first write changed nothing
        have hsame : ∀ n : Node, n.id ∈ a :: rest → onPath g' [x.2.id] n = n := fun n hn =>
          if_neg fun hm => hne n.id hn (List.mem_singleton.mp hm)
        have hpl := mapPath_places hk t [x.2.id]
        have hy1 : y ∈ (t.mapPath g' [x.2.id]).places := by
          rw [hpl]
          refine List.mem_map.mpr ⟨y, hy, ?_⟩
          rw [hsame y.2 (hya.1 ▸ List.mem_cons_self)]
        rw [hpar, ← hya.1]
        have ih := climb_spec hk hp rest fuel (t.mapPath g' [x.2.id]) y hl1 hy1 hya.2
          (by simp only [List.length_cons] at hf; omega) (by
            intro z hz hzi
            rw [hya.1] at hzi
            rw [hpl] at hz
            obtain ⟨w, hw, rfl⟩ := List.mem_map.mp hz
            have hwi : w.2.id ∈ a :: rest := by
              have := (hk.onPath [x.2.id]).id w.2
              rwa [← this]
            simp only [hsame w.2 hwi]
            exact hg w hw (List.mem_cons_of_mem _ hwi))
        refine ih.trans ?_
        unfold RadixTree.mapPath
        simp only [map_map, hya.1]
        congr 2
        apply map_congr
        intro n _
        show onPath g' (a :: rest) (onPath g' [x.2.id] n) = onPath g' (x.2.id :: a :: rest) n
        by_cases hn : n.id ∈ a :: rest
        · rw [hsame n hn]
          simp only [onPath, hn, if_true, List.mem_cons_of_mem]
        · have hid := (hk.onPath [x.2.id]).id n
          unfold onPath at hid ⊢
          rw [if_neg (by rw [hid]; exact hn)]
          have hiff : n.id ∈ x.2.id :: a :: rest ↔ n.id ∈ [x.2.id] := by
            rw [List.mem_cons, List.mem_singleton]
            exact or_iff_left hn
          simp only [hiff]

/-! ## Locking and unlocking -/

def incLock (n : Node) : Node := { n with lockCount := n.lockCount + 1 }

def decLock (n : Node) : Node := { n with lockCount := n.lockCount - 1 }

theorem incLock_keeps : Keeps incLock := ⟨fun _ => rfl, fun _ => rfl, fun _ => rfl⟩

theorem decLock_keeps : Keeps decLock := ⟨fun _ => rfl, fun _ => rfl, fun _ => rfl⟩

/-- Being at or below a node is lying on the path. -/
theorem below_iff (hn : (ids t.places).Nodup) (hx : x ∈ t.places) (m : NodeId) :
    below t.places m x.2.id = true ↔ m ∈ x.2.id :: x.1.path := by
  unfold below
  rw [List.any_eq_true]
  constructor
  · rintro ⟨y, hy, h⟩
    simp only [Bool.and_eq_true, beq_iff_eq, List.contains_iff_mem] at h
    rw [place_inj hn hx hy h.1.symm]
    exact h.2
  · intro h
    exact ⟨x, hx, by simpa using h⟩

theorem lock_eq (h : Linked t) (hx : x ∈ t.places) :
    t.lock x.2.id = .ok (t.mapPath incLock (x.2.id :: x.1.path)) :=
  climb_spec incLock_keeps (fun _ => rfl) _ _ t x h hx rfl
    (by have := depth_le hx; simp only [Ctx.top, List.length_nil] at this; omega) fun _ _ _ => rfl

/-- **A lock counts one more pin.** -/
theorem lockOK_lock (h : Linked t) (hx : x ∈ t.places) {pins : List NodeId}
    (hl : LockOK pins t.places) :
    LockOK (x.2.id :: pins) (t.mapPath incLock (x.2.id :: x.1.path)).places := by
  rw [mapPath_places incLock_keeps]
  intro z hz
  obtain ⟨y, hy, rfl⟩ := List.mem_map.mp hz
  have hk := incLock_keeps.onPath (x.2.id :: x.1.path)
  have hb : (below (t.places.map fun z => (z.1, onPath incLock (x.2.id :: x.1.path) z.2))
      y.2.id) = below t.places y.2.id := funext fun p => hk.below t.places _ p
  simp only [hk.id, hb]
  rw [List.countP_cons, ← hl y hy]
  by_cases hm : y.2.id ∈ x.2.id :: x.1.path
  · rw [if_pos ((below_iff h.nodup hx _).mpr hm), onPath, if_pos hm]
    rfl
  · rw [if_neg fun hb => hm ((below_iff h.nodup hx _).mp hb), onPath, if_neg hm]
    rfl

/-- **A balanced unlock returns and takes one pin away.** -/
theorem unlock_spec (h : Linked t) (hx : x ∈ t.places) {pins : List NodeId}
    (hl : LockOK (x.2.id :: pins) t.places) :
    t.unlock x.2.id = .ok (t.mapPath decLock (x.2.id :: x.1.path)) ∧
      LockOK pins (t.mapPath decLock (x.2.id :: x.1.path)).places := by
  have hpos : ∀ y ∈ t.places, y.2.id ∈ x.2.id :: x.1.path →
      y.2.lockCount = pins.countP (below t.places y.2.id) + 1 := by
    intro y hy hm
    rw [hl y hy, List.countP_cons, if_pos ((below_iff h.nodup hx _).mpr hm)]
  constructor
  · refine climb_spec decLock_keeps (fun _ => rfl) _ _ t x h hx rfl
      (by have := depth_le hx; simp only [Ctx.top, List.length_nil] at this; omega) ?_
    intro y hy hm
    have := hpos y hy hm
    rw [if_neg (by omega)]
    rfl
  · rw [mapPath_places decLock_keeps]
    intro z hz
    obtain ⟨y, hy, rfl⟩ := List.mem_map.mp hz
    have hk := decLock_keeps.onPath (x.2.id :: x.1.path)
    have hb : (below (t.places.map fun z => (z.1, onPath decLock (x.2.id :: x.1.path) z.2))
        y.2.id) = below t.places y.2.id := funext fun p => hk.below t.places _ p
    simp only [hk.id, hb]
    by_cases hm : y.2.id ∈ x.2.id :: x.1.path
    · rw [onPath, if_pos hm]
      show y.2.lockCount - 1 = _
      rw [hpos y hy hm, Nat.add_sub_cancel]
    · rw [onPath, if_neg hm, hl y hy, List.countP_cons,
        if_neg fun hb => hm ((below_iff h.nodup hx _).mp hb)]
      rfl

/-! ## Trees that differ in lock counts -/

/-- `t'` is `t` with other lock counts. -/
structure Relocked (key : List TokenId → UInt64) (t t' : RadixTree) : Prop where
  wf : WF key t'
  blockTokens : t'.blockTokens = t.blockTokens
  nodes : ∃ g : Node → Node, Keeps g ∧ t'.places = t.places.map (fun x => (x.1, g x.2)) ∧
    t'.children.leaves Ctx.push .top =
      (t.children.leaves Ctx.push .top).map fun x => (x.1, g x.2)

theorem Relocked.refl (h : WF key t) : Relocked key t t :=
  ⟨h, rfl, id, ⟨fun _ => rfl, fun _ => rfl, fun _ => rfl⟩, by simp, by simp⟩

theorem WF.mapPath (h : WF key t) {g : Node → Node} (hk : Keeps g)
    (hp : ∀ n, (g n).parent = n.parent) (l : List NodeId) : Relocked key t (t.mapPath g l) := by
  have hko := hk.onPath l
  have hpl := mapPath_places hk t l
  have hkey : ∀ v, keyOf key t.blockTokens (onPath g l v) = keyOf key t.blockTokens v := by
    intro v
    unfold keyOf
    rw [hko.tokens]
  have hids : ids (t.mapPath g l).places = ids t.places := by rw [hpl]; exact hko.ids _
  refine ⟨⟨h.bt_pos, h.root, ?_, (keyed_map hkey _).mpr h.keyed, ?_, ?_, h.next_pos, ?_, ?_⟩, rfl,
    onPath g l, hko, hpl, leaves_map hko.push t.children .top⟩
  · rw [hpl]
    intro y hy
    obtain ⟨x, hx, rfl⟩ := List.mem_map.mp hy
    have hx := h.nodes x hx
    refine ⟨?_, ?_, ?_⟩
    · exact (hko.tokens x.2).symm ▸ hx.tokens
    · show (onPath g l x.2).tokens.length = (onPath g l x.2).blocks.length * _
      rw [hko.tokens, hko.blocks]
      exact hx.aligned
    · show (onPath g l x.2).parent = _
      rw [← hx.parent]
      unfold onPath
      split
      · exact hp _
      · rfl
  · rw [hids]
    exact h.ids_nodup
  · rw [hids]
    exact h.ids_lt
  · show t.numNodes = (t.children.map _).size
    rw [map_size, h.numNodes]
  · rw [hpl, hko.blocksOf]
    exact h.storedBlocks

theorem Relocked.blocksOf (h : Relocked key t t') : blocksOf t'.places = blocksOf t.places := by
  obtain ⟨g, hk, hp, _⟩ := h.nodes
  rw [hp, hk.blocksOf]

theorem Relocked.covers_iff (h : Relocked key t t') {i : NodeId} {T : List TokenId}
    {B : List BlockId} : Covers t'.places i T B ↔ Covers t.places i T B := by
  obtain ⟨g, hk, hp, _⟩ := h.nodes
  unfold Covers
  rw [hp]
  constructor
  · rintro ⟨y, hy, h1, h2, h3⟩
    obtain ⟨x, hx, rfl⟩ := List.mem_map.mp hy
    exact ⟨x, hx, (hk.id x.2).symm.trans h1, hk.tokens x.2 ▸ h2, hk.blocks x.2 ▸ h3⟩
  · rintro ⟨x, hx, h1, h2, h3⟩
    exact ⟨_, List.mem_map_of_mem hx, (hk.id x.2).trans h1, (hk.tokens x.2).symm ▸ h2,
      (hk.blocks x.2).symm ▸ h3⟩

theorem Keeps.pairs {g : Node → Node} (hk : Keeps g) (bt : Nat) (ps : List Place) :
    (RadixTree.entries bt (ps.map fun x => (x.1, g x.2))).map (fun e => (e.path, e.block)) =
      (RadixTree.entries bt ps).map fun e => (e.path, e.block) := by
  have hrun : ∀ (bs : List BlockId) (path toks : List TokenId) (l l' : Nat),
      (runEntries bt path toks bs l).map (fun e => (e.path, e.block)) =
        (runEntries bt path toks bs l').map fun e => (e.path, e.block) := by
    intro bs
    induction bs with
    | nil => intros; rfl
    | cons b bs ih =>
      intro path toks l l'
      simp only [runEntries, List.map_cons, ih _ _ l l']
  unfold RadixTree.entries
  rw [List.flatMap_map, List.map_flatMap, List.map_flatMap]
  apply List.flatMap_congr
  intro x _
  unfold placeEntries
  rw [hk.tokens, hk.blocks]
  exact hrun _ _ _ _ _

/-- The entries are the same up to lock counts. -/
theorem Relocked.entries (h : Relocked key t t') :
    (entries t.blockTokens t'.places).map (fun e => (e.path, e.block)) =
      (entries t.blockTokens t.places).map fun e => (e.path, e.block) := by
  obtain ⟨g, hk, hp, _⟩ := h.nodes
  rw [hp]
  exact hk.pairs _ _

theorem WF.lock (h : WF key t) (hx : x ∈ t.places) {pins : List NodeId}
    (hl : LockOK pins t.places) :
    ∃ t', t.lock x.2.id = .ok t' ∧ Relocked key t t' ∧ LockOK (x.2.id :: pins) t'.places :=
  ⟨_, lock_eq h.linked hx, h.mapPath incLock_keeps (fun _ => rfl) _, lockOK_lock h.linked hx hl⟩

theorem WF.unlock (h : WF key t) (hx : x ∈ t.places) {pins : List NodeId}
    (hl : LockOK (x.2.id :: pins) t.places) :
    ∃ t', t.unlock x.2.id = .ok t' ∧ Relocked key t t' ∧ LockOK pins t'.places := by
  obtain ⟨he, hl'⟩ := unlock_spec h.linked hx hl
  exact ⟨_, he, h.mapPath decLock_keeps (fun _ => rfl) _, hl'⟩

end RadixTree

end KvsLab
