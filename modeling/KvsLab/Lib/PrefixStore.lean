import Mathlib.Algebra.Order.Floor.Div
import Mathlib.Data.Finset.Card
import Mathlib.Data.Finset.Image
import Mathlib.Data.Finset.Lattice.Basic
import Mathlib.Data.Set.Insert
import KvsLab.Lib.Run

/-!
# A store of prefixes

What a prefix cache is, over any alphabet.  It holds prefixes of words, cut after whole blocks of
`n` letters.  A session is told how much of its word is stored and keeps that much in the store until
it ends; it may then offer the word.  Siblings, blocks that follow the same prefix, are told apart by
`key`, and a word that meets a sibling with the key of its own next block is turned away.

* `runs n k w` — the prefixes of `w` of `1 … k` blocks.
* `Longest` — the answer to a lookup.
* `Evicts` — forgetting prefixes that no session holds, last blocks first.
* `Step` — the events of a store.
* `Sound` — every stored prefix has its own prefixes stored, siblings have different keys, sessions
  hold what they were told.  `run_sound`: that is so after every run.
* `run_kept` — **while the count of forgotten prefixes stands still, nothing is forgotten.**
-/

namespace PrefixStore

open Transition

variable {α κ : Type}

/-! ## Prefixes of whole blocks -/

/-- The prefixes of `w` of `1 … k` blocks. -/
def runs [DecidableEq α] (n k : Nat) (w : List α) : Finset (List α) :=
  (Finset.range k).image fun i => w.take ((i + 1) * n)

/-- A request that was answered: its word, and how many letters of it were stored. -/
structure Session (α : Type) where
  id : Nat
  tokens : List α
  hit : Nat

/-- The state of a store, with how many prefixes it forgot and how often it turned a word away. -/
@[ext]
structure Store (α : Type) where
  paths : Finset (List α)
  sessions : Set (Session α)
  evicted : Nat
  collisions : Nat

/-- What happens to a store. -/
inductive Event (α : Type) where
  | serve (x : Session α)
  | refuse (x : Session α)
  | publish (x : Session α) (tokens : List α)
  | collide (x : Session α) (tokens : List α)
  | drop (x : Session α)
  | idle

/-- `hit` is the length of the longest prefix of `w` in `P`. -/
structure Longest (P : Finset (List α)) (w : List α) (hit : Nat) : Prop where
  le : hit ≤ w.length
  stored : hit ≠ 0 → w.take hit ∈ P
  longest : ∀ p ∈ P, p <+: w → p.length ≤ hit

/-- Blocks that follow the same prefix in `P` have different keys. -/
def Told (key : List α → κ) (n : Nat) (P : Finset (List α)) : Prop :=
  ∀ u X X', X.length = n → X'.length = n → u ++ X ∈ P → u ++ X' ∈ P → key X = key X' → X = X'

/-- One of the prefixes `Q` has a sibling in `P` with its key. -/
def Collides (key : List α → κ) (n : Nat) (P Q : Finset (List α)) : Prop :=
  ∃ u X X', X.length = n ∧ X'.length = n ∧ u ++ X ∈ P ∧ u ++ X' ∈ Q ∧ X ≠ X' ∧ key X = key X'

section

variable {key : List α → κ} {n : Nat} {P Q : Finset (List α)} {w : List α}

/-- One word has one block after each prefix. -/
theorem append_unique {u X X' : List α} (h : u ++ X <+: w) (h' : u ++ X' <+: w)
    (hl : X.length = X'.length) : X = X' := by
  have heq : u ++ X = u ++ X' :=
    (List.prefix_of_prefix_length_le h h' (by simp [hl])).eq_of_length (by simp [hl])
  exact List.append_cancel_left heq

theorem Told.subset (h : Told key n Q) (hs : P ⊆ Q) : Told key n P :=
  fun u X X' hX hX' hm hm' hk => h u X X' hX hX' (hs hm) (hs hm') hk

/-- A word whose prefixes are stored already meets no sibling. -/
theorem Told.clear (h : Told key n P) (hs : Q ⊆ P) : ¬ Collides key n P Q := by
  rintro ⟨u, X, X', hX, hX', hm, hm', hne, hk⟩
  exact hne (h u X X' hX hX' hm (hs hm') hk)

/-- A lookup has one answer. -/
theorem Longest.unique {hit hit' : Nat} (h : Longest P w hit) (h' : Longest P w hit') :
    hit = hit' := by
  have key : ∀ {a b : Nat}, Longest P w a → Longest P w b → a ≤ b := by
    intro a b ha hb
    rcases Nat.eq_zero_or_pos a with h0 | hpos
    · omega
    · have hlen := hb.longest _ (ha.stored (by omega)) (List.take_prefix _ _)
      rwa [List.length_take, Nat.min_eq_left ha.le] at hlen
  exact Nat.le_antisymm (key h h') (key h' h)

theorem offers_le (tokens tokens' : List α) :
    min (tokens.length / n) (tokens'.length ⌈/⌉ n) * n ≤ tokens.length :=
  (Nat.mul_le_mul_right n (Nat.min_le_left _ _)).trans (Nat.div_mul_le_self _ _)

end

section

variable [DecidableEq α]

/-- Every stored prefix has its own prefixes stored. -/
def Closed (n : Nat) (P : Finset (List α)) : Prop :=
  ∀ p ∈ P, ∃ k, 0 < k ∧ p.length = k * n ∧ runs n k p ⊆ P

/-- What a session was told is stored. -/
def Held (n : Nat) (P : Finset (List α)) (x : Session α) : Prop :=
  ∃ k, x.hit = k * n ∧ x.hit ≤ x.tokens.length ∧ runs n k x.tokens ⊆ P

/-- What session `x` may add for a word: no more blocks than it asked for. -/
def Session.offers (n : Nat) (x : Session α) (tokens : List α) : Finset (List α) :=
  runs n (min (tokens.length / n) (x.tokens.length ⌈/⌉ n)) tokens

/-- Prefixes are forgotten, none of them held by a session in `K`. -/
structure Evicts (n : Nat) (K : Set (Session α)) (s s' : Store α) : Prop where
  subset : s'.paths ⊆ s.paths
  closed : Closed n s'.paths
  held : ∀ x ∈ K, Held n s.paths x → Held n s'.paths x
  evicted : s'.evicted = s.evicted + (s.paths \ s'.paths).card
  collisions : s'.collisions = s.collisions

/-- The events of a store. -/
inductive Step (key : List α → κ) (n : Nat) (s : Store α) : Event α → Store α → Prop where
  | serve {x : Session α} {s' : Store α} (fresh : ∀ y ∈ s.sessions, y.id ≠ x.id)
      (hit : Longest s.paths x.tokens x.hit) (evicts : Evicts n (insert x s.sessions) s s')
      (sessions : s'.sessions = insert x s.sessions) : Step key n s (.serve x) s'
  | refuse {x : Session α} {s' : Store α} (hit : Longest s.paths x.tokens x.hit)
      (evicts : Evicts n (insert x s.sessions) s s') (sessions : s'.sessions = s.sessions) :
      Step key n s (.refuse x) s'
  | publish {x : Session α} {tokens : List α} (mem : x ∈ s.sessions)
      (clear : ¬ Collides key n s.paths (x.offers n tokens)) :
      Step key n s (.publish x tokens)
        { s with paths := s.paths ∪ x.offers n tokens, sessions := s.sessions \ {x} }
  | collide {x : Session α} {tokens : List α} (mem : x ∈ s.sessions)
      (taken : Collides key n s.paths (x.offers n tokens)) :
      Step key n s (.collide x tokens)
        { s with sessions := s.sessions \ {x}, collisions := s.collisions + 1 }
  | drop {x : Session α} (mem : x ∈ s.sessions) :
      Step key n s (.drop x) { s with sessions := s.sessions \ {x} }
  | idle : Step key n s .idle s

/-- The empty store. -/
def empty : Store α := ⟨∅, ∅, 0, 0⟩

/-- The invariant of a store. -/
structure Sound (key : List α → κ) (n : Nat) (s : Store α) : Prop where
  closed : Closed n s.paths
  told : Told key n s.paths
  held : ∀ x ∈ s.sessions, Held n s.paths x

variable {key : List α → κ} {n k m hit : Nat} {P Q : Finset (List α)} {p w w' : List α}
  {s s' : Store α} {x : Session α} {e : Event α} {tr : List (Event α)}

theorem mem_runs : p ∈ runs n k w ↔ ∃ i < k, w.take ((i + 1) * n) = p := by
  simp [runs]

theorem runs_mono (h : k ≤ m) : runs n k w ⊆ runs n m w := by
  intro p hp
  obtain ⟨i, hi, rfl⟩ := mem_runs.mp hp
  exact mem_runs.mpr ⟨i, by omega, rfl⟩

/-- Words that agree on `k` blocks have the same prefixes there. -/
theorem runs_congr (h : w.take (k * n) = w'.take (k * n)) : runs n k w = runs n k w' := by
  refine Finset.image_congr fun i hi => ?_
  have hi : i < k := by simpa using hi
  have hle : (i + 1) * n ≤ k * n := Nat.mul_le_mul_right n hi
  have := congrArg (List.take ((i + 1) * n)) h
  rwa [List.take_take, List.take_take, Nat.min_eq_left hle] at this

theorem runs_take : runs n k (w.take (k * n)) = runs n k w :=
  runs_congr (by rw [List.take_take, Nat.min_self])

/-- The prefixes of a word are closed. -/
theorem closed_runs (h : k * n ≤ w.length) : Closed n (runs n k w) := by
  intro p hp
  obtain ⟨i, hi, rfl⟩ := mem_runs.mp hp
  have hle : (i + 1) * n ≤ k * n := Nat.mul_le_mul_right n hi
  refine ⟨i + 1, Nat.succ_pos i, ?_, ?_⟩
  · rw [List.length_take]
    omega
  · rw [runs_take]
    exact runs_mono hi

theorem Closed.union (h : Closed n P) (h' : Closed n Q) : Closed n (P ∪ Q) := by
  intro p hp
  rcases Finset.mem_union.mp hp with hp | hp
  · obtain ⟨k, hk, hl, hr⟩ := h p hp
    exact ⟨k, hk, hl, hr.trans Finset.subset_union_left⟩
  · obtain ⟨k, hk, hl, hr⟩ := h' p hp
    exact ⟨k, hk, hl, hr.trans Finset.subset_union_right⟩

theorem Held.mono (h : Held n P x) (hs : P ⊆ Q) : Held n Q x := by
  obtain ⟨k, h1, h2, h3⟩ := h
  exact ⟨k, h1, h2, h3.trans hs⟩

/-- What is answered is held. -/
theorem Longest.held (h : Longest P x.tokens x.hit) (hc : Closed n P) : Held n P x := by
  rcases Nat.eq_zero_or_pos x.hit with h0 | hpos
  · exact ⟨0, by simpa using h0, h.le, by simp [runs]⟩
  · obtain ⟨k, -, hl, hr⟩ := hc _ (h.stored (by omega))
    have hlen : x.hit = k * n := by
      rw [← hl, List.length_take, Nat.min_eq_left h.le]
    refine ⟨k, hlen, h.le, ?_⟩
    rwa [hlen, runs_take] at hr

/-- A lookup finds what is stored of a word it agrees with. -/
theorem Longest.ge (h : Longest P w hit) (hr : runs n k w' ⊆ P) (hk : k * n ≤ w'.length)
    (hp : w'.take (k * n) <+: w) : k * n ≤ hit := by
  rcases Nat.eq_zero_or_pos k with rfl | hpos
  · omega
  · have hmem : w'.take (k * n) ∈ runs n k w' :=
      mem_runs.mpr ⟨k - 1, by omega, by rw [Nat.sub_add_cancel hpos]⟩
    have hlen := h.longest _ (hr hmem) hp
    rwa [List.length_take, Nat.min_eq_left hk] at hlen

/-! ## Keys -/

theorem prefix_of_mem_runs (h : p ∈ runs n k w) : p <+: w := by
  obtain ⟨i, -, rfl⟩ := mem_runs.mp h
  exact List.take_prefix _ _

/-- A word that meets no sibling with its key can be added. -/
theorem Told.union (h : Told key n P) (hc : ¬ Collides key n P (runs n k w)) :
    Told key n (P ∪ runs n k w) := by
  intro u X X' hX hX' hm hm' hk
  by_contra hne
  rcases Finset.mem_union.mp hm with hm | hm <;> rcases Finset.mem_union.mp hm' with hm' | hm'
  · exact hne (h u X X' hX hX' hm hm' hk)
  · exact hc ⟨u, X, X', hX, hX', hm, hm', hne, hk⟩
  · exact hc ⟨u, X', X, hX', hX, hm', hm, fun e => hne e.symm, hk.symm⟩
  · exact hne (append_unique (prefix_of_mem_runs hm) (prefix_of_mem_runs hm') (hX.trans hX'.symm))

/-! ## Runs -/

theorem Step.sound (h : Step key n s e s') (hs : Sound key n s) : Sound key n s' := by
  cases h with
  | serve _ hit ev hses =>
    refine ⟨ev.closed, hs.told.subset ev.subset, fun x hx => ?_⟩
    rw [hses] at hx
    apply ev.held x hx
    rcases Set.mem_insert_iff.mp hx with rfl | hx
    · exact hit.held hs.closed
    · exact hs.held x hx
  | refuse _ ev hses =>
    refine ⟨ev.closed, hs.told.subset ev.subset, fun x hx => ?_⟩
    rw [hses] at hx
    exact ev.held x (Set.mem_insert_of_mem _ hx) (hs.held x hx)
  | publish _ hclear =>
    refine ⟨hs.closed.union (closed_runs (offers_le _ _)), hs.told.union hclear, fun x hx => ?_⟩
    exact (hs.held x hx.1).mono Finset.subset_union_left
  | collide => exact ⟨hs.closed, hs.told, fun x hx => hs.held x hx.1⟩
  | drop => exact ⟨hs.closed, hs.told, fun x hx => hs.held x hx.1⟩
  | idle => exact hs

/-- **Every run keeps the store sound.** -/
theorem run_sound (h : Run (Step key n) s tr s') (hs : Sound key n s) : Sound key n s' :=
  h.invariant (fun _ _ _ hs hstep => hstep.sound hs) hs

/-- With keys that tell all blocks apart no word is turned away. -/
theorem run_collisions (hinj : ∀ X X' : List α, X.length = n → X'.length = n → key X = key X' → X = X')
    (h : Run (Step key n) s tr s') : s'.collisions = s.collisions := by
  refine h.invariant (I := fun t => t.collisions = s.collisions) ?_ rfl
  intro t e t' ht hstep
  cases hstep with
  | serve _ _ ev => exact ev.collisions.trans ht
  | refuse _ ev => exact ev.collisions.trans ht
  | publish => exact ht
  | collide _ taken =>
    obtain ⟨u, X, X', hX, hX', -, -, hne, hk⟩ := taken
    exact absurd (hinj X X' hX hX' hk) hne
  | drop => exact ht
  | idle => exact ht

/-- The count of forgotten prefixes never falls, and while it stands still nothing is forgotten. -/
theorem Step.kept (h : Step key n s e s') :
    s.evicted ≤ s'.evicted ∧ (s'.evicted = s.evicted → s.paths ⊆ s'.paths) := by
  have hev : ∀ {K : Set (Session α)}, Evicts n K s s' →
      s.evicted ≤ s'.evicted ∧ (s'.evicted = s.evicted → s.paths ⊆ s'.paths) := by
    intro K hev
    have hcount := hev.evicted
    refine ⟨by omega, fun heq => ?_⟩
    have hcard : (s.paths \ s'.paths).card = 0 := by omega
    exact Finset.sdiff_eq_empty_iff_subset.mp (Finset.card_eq_zero.mp hcard)
  cases h with
  | serve _ _ ev => exact hev ev
  | refuse _ ev => exact hev ev
  | publish => exact ⟨Nat.le_refl _, fun _ => Finset.subset_union_left⟩
  | collide => exact ⟨Nat.le_refl _, fun _ => Finset.Subset.refl _⟩
  | drop => exact ⟨Nat.le_refl _, fun _ => Finset.Subset.refl _⟩
  | idle => exact ⟨Nat.le_refl _, fun _ => Finset.Subset.refl _⟩

/-- **While the count of forgotten prefixes stands still, nothing is forgotten.** -/
theorem run_kept (h : Run (Step key n) s tr s') :
    s.evicted ≤ s'.evicted ∧ (s'.evicted = s.evicted → s.paths ⊆ s'.paths) := by
  refine h.invariant
    (I := fun t => s.evicted ≤ t.evicted ∧ (t.evicted = s.evicted → s.paths ⊆ t.paths)) ?_
    ⟨Nat.le_refl _, fun _ => Finset.Subset.refl _⟩
  intro t e t' hi hstep
  obtain ⟨hle, hsub⟩ := hstep.kept
  refine ⟨hi.1.trans hle, fun heq => ?_⟩
  have hmid : t.evicted = s.evicted := by omega
  exact (hi.2 hmid).trans (hsub (by omega))

end

end PrefixStore
