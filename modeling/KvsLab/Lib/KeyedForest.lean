import Mathlib.Data.List.Perm.Basic
import Mathlib.Data.List.Nodup

/-!
# Keyed forests

A finite forest whose siblings carry keys, in first-child / next-sibling form, so that every
function on it is structurally recursive.

* `places push f s` — the nodes of `f` in preorder, each with its context: the root context `s`
  extended by `push` along the ancestors.  Most facts about a forest are facts about this list.
* `leaves` — the places without children.
* `mapKids p g` — apply `g` to the children of the nodes satisfying `p`.
* `Plucked` — one forest is another with one leaf taken out; read backwards, with one leaf put
  in.  `Plucked.perm` says what that does to the places.
* `Keyed` — every node is stored under its own key and siblings have different keys.
* `Shuffled` — the siblings at every node in another order.  Places and leaves are the same up to
  order, and a leaf taken out on one side can be taken out on the other (`Shuffled.pluck`).
-/

inductive KeyedForest (κ α : Type) where
  | nil
  | cons (key : κ) (val : α) (kids rest : KeyedForest κ α)
  deriving Repr, DecidableEq

namespace KeyedForest

variable {κ α σ : Type}

def isNil : KeyedForest κ α → Bool
  | nil => true
  | cons .. => false

/-- Keys of the top-level siblings. -/
def keys : KeyedForest κ α → List κ
  | nil => []
  | cons k _ _ r => k :: r.keys

/-- The top-level siblings with their keys. -/
def items : KeyedForest κ α → List (κ × α)
  | nil => []
  | cons k v _ r => (k, v) :: r.items

def size : KeyedForest κ α → Nat
  | nil => 0
  | cons _ _ c r => c.size + r.size + 1

/-- Nodes in preorder. -/
def vals : KeyedForest κ α → List α
  | nil => []
  | cons _ v c r => v :: (c.vals ++ r.vals)

def map (g : α → α) : KeyedForest κ α → KeyedForest κ α
  | nil => nil
  | cons k v c r => cons k (g v) (c.map g) (r.map g)

@[simp] theorem map_keys (g : α → α) : ∀ f : KeyedForest κ α, (f.map g).keys = f.keys
  | nil => rfl
  | cons k v c r => by simp [map, keys, map_keys g r]

@[simp] theorem map_isNil (g : α → α) (f : KeyedForest κ α) : (f.map g).isNil = f.isNil := by
  cases f <;> rfl

theorem map_map (g h : α → α) : ∀ f : KeyedForest κ α, (f.map g).map h = f.map (h ∘ g)
  | nil => rfl
  | cons k v c r => by simp [map, map_map g h c, map_map g h r]

theorem map_size (g : α → α) : ∀ f : KeyedForest κ α, (f.map g).size = f.size
  | nil => rfl
  | cons k v c r => by simp [map, size, map_size g c, map_size g r]

theorem map_fst_items : ∀ f : KeyedForest κ α, f.items.map (·.1) = f.keys
  | nil => rfl
  | cons k v c r => by simp only [items, keys, List.map_cons, map_fst_items r]

theorem length_vals : ∀ f : KeyedForest κ α, f.vals.length = f.size
  | nil => rfl
  | cons k v c r => by
    simp only [vals, size, List.length_cons, List.length_append, length_vals c, length_vals r]

/-! ## Places -/

section Places

variable (push : σ → α → σ)

/-- Nodes in preorder with their contexts. -/
def places : KeyedForest κ α → σ → List (σ × α)
  | nil, _ => []
  | cons _ v c r, s => (s, v) :: (c.places (push s v) ++ r.places s)

/-- Nodes without children, in preorder with their contexts. -/
def leaves : KeyedForest κ α → σ → List (σ × α)
  | nil, _ => []
  | cons _ v c r, s =>
    (if c.isNil then [(s, v)] else []) ++ (c.leaves (push s v) ++ r.leaves s)

variable {push}

theorem map_snd_places : ∀ (f : KeyedForest κ α) (s : σ), (f.places push s).map (·.2) = f.vals
  | nil, _ => rfl
  | cons k v c r, s => by
    simp only [places, vals, List.map_cons, List.map_append, map_snd_places c, map_snd_places r]

theorem length_places : ∀ (f : KeyedForest κ α) (s : σ), (f.places push s).length = f.size
  | nil, _ => rfl
  | cons k v c r, s => by
    simp only [places, size, List.length_cons, List.length_append, length_places c,
      length_places r]

theorem leaves_sublist : ∀ (f : KeyedForest κ α) (s : σ),
    (f.leaves push s).Sublist (f.places push s)
  | nil, _ => .slnil
  | cons k v c r, s => by
    have ih := (leaves_sublist c (push s v)).append (leaves_sublist r s)
    rw [leaves, places]
    split
    · exact ih.cons_cons (s, v)
    · exact ih.cons (s, v)

theorem mem_places_of_mem_leaves {x : σ × α} {f : KeyedForest κ α} {s : σ}
    (h : x ∈ f.leaves push s) : x ∈ f.places push s :=
  (leaves_sublist f s).subset h

/-- A map that contexts do not see. -/
theorem places_map {g : α → α} (hg : ∀ s v, push s (g v) = push s v) :
    ∀ (f : KeyedForest κ α) (s : σ),
      (f.map g).places push s = (f.places push s).map fun x => (x.1, g x.2)
  | nil, _ => rfl
  | cons k v c r, s => by
    simp only [map, places, List.map_cons, List.map_append, hg, places_map hg c, places_map hg r]

theorem leaves_map {g : α → α} (hg : ∀ s v, push s (g v) = push s v) :
    ∀ (f : KeyedForest κ α) (s : σ),
      (f.map g).leaves push s = (f.leaves push s).map fun x => (x.1, g x.2)
  | nil, _ => rfl
  | cons k v c r, s => by
    simp only [map, leaves, List.map_append, hg, leaves_map hg c, leaves_map hg r, map_isNil]
    cases c.isNil <;> rfl

end Places

/-! ## Taking a leaf out -/

/-- `g` is `f` without the leaf `v`, which is stored under `k` in context `t`. -/
inductive Plucked (push : σ → α → σ) (k : κ) (v : α) (t : σ) :
    σ → KeyedForest κ α → KeyedForest κ α → Prop where
  | here {r} : Plucked push k v t t (cons k v nil r) r
  | kids {s k' w c c' r} : Plucked push k v t (push s w) c c' →
      Plucked push k v t s (cons k' w c r) (cons k' w c' r)
  | rest {s k' w c r r'} : Plucked push k v t s r r' →
      Plucked push k v t s (cons k' w c r) (cons k' w c r')

section Plucked

variable {push : σ → α → σ} {k : κ} {v : α} {s t : σ} {f g : KeyedForest κ α}

/-- **A plucked forest lost one place.** -/
theorem Plucked.perm (h : Plucked push k v t s f g) :
    (f.places push s).Perm ((t, v) :: g.places push s) := by
  induction h with
  | here => simp [places]
  | kids _ ih =>
    simp only [places]
    exact ((ih.append_right _).cons _).trans (.swap _ _ _)
  | rest _ ih =>
    simp only [places]
    refine ((ih.append_left _).cons _).trans ?_
    exact (List.perm_middle.cons _).trans (.swap _ _ _)

theorem Plucked.keys_subset (h : Plucked push k v t s f g) : g.keys ⊆ f.keys := by
  induction h with
  | here => exact List.subset_cons_self _ _
  | kids _ _ => exact List.Subset.refl _
  | rest _ ih => exact List.cons_subset_cons _ ih

theorem Plucked.size (h : Plucked push k v t s f g) : f.size = g.size + 1 := by
  have := h.perm.length_eq
  simpa [length_places] using this

theorem Plucked.mem (h : Plucked push k v t s f g) : (t, v) ∈ f.places push s :=
  h.perm.mem_iff.mpr List.mem_cons_self

/-- A place that occurs once is taken out in one way. -/
theorem Plucked.unique (h : Plucked push k v t s f g) (hn : (f.places push s).Nodup)
    {g' : KeyedForest κ α} (h' : Plucked push k v t s f g') : g' = g := by
  induction h generalizing g' with
  | here =>
    rw [places, List.nodup_cons, List.mem_append, not_or] at hn
    cases h' with
    | here => rfl
    | kids h' => exact absurd h'.mem hn.1.1
    | rest h' => exact absurd h'.mem hn.1.2
  | kids h ih =>
    rw [places, List.nodup_cons, List.mem_append, not_or, List.nodup_append'] at hn
    cases h' with
    | here => exact absurd h.mem hn.1.1
    | kids h' => rw [ih hn.2.1 h']
    | rest h' => exact absurd h'.mem (hn.2.2.2 h.mem)
  | rest h ih =>
    rw [places, List.nodup_cons, List.mem_append, not_or, List.nodup_append'] at hn
    cases h' with
    | here => exact absurd h.mem hn.1.2
    | kids h' => exact absurd h.mem (hn.2.2.2 h'.mem)
    | rest h' => rw [ih hn.2.2.1 h']

end Plucked

/-! ## Keys -/

/-- Every node is stored under its own key, and siblings have different keys. -/
def Keyed (keyOf : α → κ) : KeyedForest κ α → Prop
  | nil => True
  | cons k v c r => k = keyOf v ∧ k ∉ r.keys ∧ c.Keyed keyOf ∧ r.Keyed keyOf

section Keyed

variable {keyOf : α → κ} {push : σ → α → σ} {k : κ} {v : α} {s t : σ} {f g : KeyedForest κ α}

theorem keyed_map {h : α → α} (hk : ∀ v, keyOf (h v) = keyOf v) :
    ∀ f : KeyedForest κ α, (f.map h).Keyed keyOf ↔ f.Keyed keyOf
  | nil => Iff.rfl
  | cons k v c r => by simp only [map, Keyed, hk, map_keys, keyed_map hk c, keyed_map hk r]

theorem Keyed.keys_nodup : ∀ {f : KeyedForest κ α}, f.Keyed keyOf → f.keys.Nodup
  | nil, _ => List.nodup_nil
  | cons _ _ _ _, h => List.nodup_cons.mpr ⟨h.2.1, h.2.2.2.keys_nodup⟩

theorem Keyed.pluck (hf : f.Keyed keyOf) (h : Plucked push k v t s f g) : g.Keyed keyOf := by
  induction h with
  | here => exact hf.2.2.2
  | kids _ ih => exact ⟨hf.1, hf.2.1, ih hf.2.2.1, hf.2.2.2⟩
  | rest hp ih => exact ⟨hf.1, fun hm => hf.2.1 (hp.keys_subset hm), hf.2.2.1, ih hf.2.2.2⟩

end Keyed

/-! ## Order of siblings -/

/-- `g` is `f` with the siblings at every node in another order. -/
inductive Shuffled : KeyedForest κ α → KeyedForest κ α → Prop where
  | nil : Shuffled nil nil
  | cons {k v c c' r r'} : Shuffled c c' → Shuffled r r' → Shuffled (cons k v c r) (cons k v c' r')
  | swap {k v c k' v' c' r} :
      Shuffled (cons k v c (cons k' v' c' r)) (cons k' v' c' (cons k v c r))
  | trans {f g h} : Shuffled f g → Shuffled g h → Shuffled f h

section Shuffled

variable {push : σ → α → σ} {keyOf : α → κ} {k : κ} {v : α} {s t : σ} {f g f' : KeyedForest κ α}

theorem Shuffled.refl : ∀ f : KeyedForest κ α, Shuffled f f
  | .nil => .nil
  | .cons _ _ c r => .cons (Shuffled.refl c) (Shuffled.refl r)

theorem Shuffled.symm (h : Shuffled f g) : Shuffled g f := by
  induction h with
  | nil => exact .nil
  | cons _ _ ihc ihr => exact .cons ihc ihr
  | swap => exact .swap
  | trans _ _ ih ih' => exact .trans ih' ih

theorem Shuffled.isNil (h : Shuffled f g) : g.isNil = f.isNil := by
  induction h with
  | nil | cons | swap => rfl
  | trans _ _ ih ih' => exact ih'.trans ih

theorem Shuffled.keys (h : Shuffled f g) : f.keys.Perm g.keys := by
  induction h with
  | nil => exact .refl _
  | cons _ _ _ ihr => exact ihr.cons _
  | swap => exact .swap _ _ _
  | trans _ _ ih ih' => exact ih.trans ih'

theorem Shuffled.places (h : Shuffled f g) (s : σ) : (f.places push s).Perm (g.places push s) := by
  induction h generalizing s with
  | nil => exact .refl _
  | cons _ _ ihc ihr => exact ((ihc _).append (ihr s)).cons _
  | @swap k v c k' v' c' r =>
    exact List.perm_append_comm_assoc ((s, v) :: c.places push (push s v))
      ((s, v') :: c'.places push (push s v')) (r.places push s)
  | trans _ _ ih ih' => exact (ih s).trans (ih' s)

theorem Shuffled.leaves (h : Shuffled f g) (s : σ) : (f.leaves push s).Perm (g.leaves push s) := by
  induction h generalizing s with
  | nil => exact .refl _
  | cons hc _ ihc ihr =>
    simp only [KeyedForest.leaves, hc.isNil]
    exact ((ihc _).append (ihr s)).append_left _
  | @swap k v c k' v' c' r =>
    have h := List.perm_append_comm_assoc
      ((if c.isNil then [(s, v)] else []) ++ c.leaves push (push s v))
      ((if c'.isNil then [(s, v')] else []) ++ c'.leaves push (push s v')) (r.leaves push s)
    simpa only [KeyedForest.leaves, List.append_assoc] using h
  | trans _ _ ih ih' => exact (ih s).trans (ih' s)

theorem Shuffled.size (h : Shuffled f g) : g.size = f.size := by
  have hperm : (f.places (fun (s : Unit) _ => s) ()).Perm (g.places (fun s _ => s) ()) := h.places ()
  have hlen := hperm.length_eq
  rw [length_places, length_places] at hlen
  exact hlen.symm

theorem Shuffled.keyed (h : Shuffled f g) (hf : f.Keyed keyOf) : g.Keyed keyOf := by
  induction h with
  | nil => trivial
  | cons _ hr ihc ihr =>
    exact ⟨hf.1, fun hm => hf.2.1 (hr.keys.mem_iff.mpr hm), ihc hf.2.2.1, ihr hf.2.2.2⟩
  | swap =>
    obtain ⟨hk, hn, hc, hk', hn', hc', hr⟩ := hf
    refine ⟨hk', fun hm => ?_, hc', hk, fun hm => hn (List.mem_cons_of_mem _ hm), hc, hr⟩
    rcases List.mem_cons.mp hm with e | hm
    · exact hn (e ▸ List.mem_cons_self)
    · exact hn' hm
  | trans _ _ ih ih' => exact ih' (ih hf)

/-- **A leaf can be taken out in any order of the siblings.** -/
theorem Shuffled.pluck (h : Shuffled f f') (hp : Plucked push k v t s f g) :
    ∃ g', Plucked push k v t s f' g' ∧ Shuffled g g' := by
  induction h generalizing s g with
  | nil => cases hp
  | @cons _ _ c c' r r' hc hr ihc ihr =>
    cases hp with
    | here =>
      have hnil := hc.isNil
      cases c' with
      | nil => exact ⟨r', .here, hr⟩
      | cons => cases hnil
    | kids hp =>
      obtain ⟨g', hp', hg⟩ := ihc hp
      exact ⟨_, .kids hp', .cons hg hr⟩
    | rest hp =>
      obtain ⟨g', hp', hg⟩ := ihr hp
      exact ⟨_, .rest hp', .cons hc hg⟩
  | swap =>
    cases hp with
    | here => exact ⟨_, .rest .here, .refl _⟩
    | kids hp => exact ⟨_, .rest (.kids hp), .swap⟩
    | rest hp =>
      cases hp with
      | here => exact ⟨_, .here, .refl _⟩
      | kids hp => exact ⟨_, .kids hp, .swap⟩
      | rest hp => exact ⟨_, .rest (.rest hp), .swap⟩
  | trans _ _ ih ih' =>
    obtain ⟨g₁, hp₁, hg₁⟩ := ih hp
    obtain ⟨g₂, hp₂, hg₂⟩ := ih' hp₁
    exact ⟨g₂, hp₂, .trans hg₁ hg₂⟩

end Shuffled

/-! ## Children of a node -/

/-- Children of the first node, in preorder, that satisfies `p`. -/
def kidsOf (p : α → Bool) : KeyedForest κ α → Option (KeyedForest κ α)
  | nil => none
  | cons _ v c r => if p v then some c else (c.kidsOf p).or (r.kidsOf p)

/-- Apply `g` to the children of every node that satisfies `p`. -/
def mapKids (p : α → Bool) (g : KeyedForest κ α → KeyedForest κ α) :
    KeyedForest κ α → KeyedForest κ α
  | nil => nil
  | cons k v c r => if p v then cons k v (g c) r else cons k v (c.mapKids p g) (r.mapKids p g)

section Kids

variable {push : σ → α → σ} {p : α → Bool} {g : KeyedForest κ α → KeyedForest κ α}

theorem mapKids_of_not : ∀ {f : KeyedForest κ α} {s : σ},
    (∀ x ∈ f.places push s, p x.2 = false) → f.mapKids p g = f ∧ f.kidsOf p = none
  | nil, _, _ => ⟨rfl, rfl⟩
  | cons k v c r, s, h => by
    simp only [places, List.mem_cons, List.mem_append] at h
    have hv : p v = false := h (s, v) (.inl rfl)
    have hc := mapKids_of_not fun x hx => h x (.inr (.inl hx))
    have hr := mapKids_of_not fun x hx => h x (.inr (.inr hx))
    simp [mapKids, kidsOf, hv, hc.1, hc.2, hr.1, hr.2]

theorem none_of_countP {f : KeyedForest κ α} {s : σ}
    (h : (f.places push s).countP (fun x => p x.2) = 0) :
    ∀ x ∈ f.places push s, p x.2 = false := by
  intro x hx
  have := List.countP_eq_zero.mp h x hx
  simpa using this

/-- **Rule for a change below one node.**  If exactly one node satisfies `p`, a relation that
holds of its children and follows the path up to it holds of the whole change. -/
theorem mapKids_rule {Q R : σ → KeyedForest κ α → KeyedForest κ α → Prop}
    (h0 : ∀ {s k w c c' r}, p w = true → Q (push s w) c c' → R s (cons k w c r) (cons k w c' r))
    (hk : ∀ {s k w c c' r}, R (push s w) c c' → R s (cons k w c r) (cons k w c' r))
    (hr : ∀ {s k w c r r'}, R s r r' → R s (cons k w c r) (cons k w c r')) {x : σ × α}
    (hp : p x.2 = true) : ∀ {f : KeyedForest κ α} {s : σ}, x ∈ f.places push s →
      (f.places push s).countP (fun x => p x.2) = 1 →
      ∃ c, f.kidsOf p = some c ∧ (Q (push x.1 x.2) c (g c) → R s f (f.mapKids p g))
  | nil, _, hx, _ => by cases hx
  | cons k v c r, s, hx, hone => by
    simp only [places, List.mem_cons, List.mem_append] at hx
    simp only [places, List.countP_cons, List.countP_append] at hone
    cases hv : p v with
    | true =>
      rw [if_pos (by simpa using hv)] at hone
      refine ⟨c, by simp [kidsOf, hv], fun hq => ?_⟩
      have hxs : x = (s, v) := by
        rcases hx with hx | hx | hx
        · exact hx
        · have hz : (c.places push (push s v)).countP (fun x => p x.2) = 0 := by omega
          have := none_of_countP hz x hx
          rw [hp] at this
          cases this
        · have hz : (r.places push s).countP (fun x => p x.2) = 0 := by omega
          have := none_of_countP hz x hx
          rw [hp] at this
          cases this
      subst hxs
      simp only [mapKids, hv, if_true]
      exact h0 hv hq
    | false =>
      rw [if_neg (by simp [hv])] at hone
      rcases hx with hx | hx | hx
      · rw [hx] at hp
        simp only [hv] at hp
        cases hp
      · have hpos : 0 < (c.places push (push s v)).countP (fun x => p x.2) :=
          List.countP_pos_iff.mpr ⟨x, hx, hp⟩
        obtain ⟨c', hc', ih⟩ := mapKids_rule h0 hk hr hp hx (by omega)
        have hz : (r.places push s).countP (fun x => p x.2) = 0 := by omega
        have hn := mapKids_of_not (g := g) (none_of_countP hz)
        refine ⟨c', by simp [kidsOf, hv, hc'], fun hq => ?_⟩
        simp only [mapKids, hv, hn.1]
        exact hk (ih hq)
      · have hpos : 0 < (r.places push s).countP (fun x => p x.2) :=
          List.countP_pos_iff.mpr ⟨x, hx, hp⟩
        obtain ⟨c', hc', ih⟩ := mapKids_rule h0 hk hr hp hx (by omega)
        have hz : (c.places push (push s v)).countP (fun x => p x.2) = 0 := by omega
        have hn := mapKids_of_not (g := g) (none_of_countP hz)
        refine ⟨c', by simp [kidsOf, hv, hc', hn.2], fun hq => ?_⟩
        simp only [mapKids, hv, hn.1]
        exact hr (ih hq)

end Kids

/-- Remove the sibling stored under `k`. -/
def erase [DecidableEq κ] (k : κ) : KeyedForest κ α → KeyedForest κ α
  | nil => nil
  | cons k' v c r => if k' = k then r else cons k' v c (r.erase k)

end KeyedForest
