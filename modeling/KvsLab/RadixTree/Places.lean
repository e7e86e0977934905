import KvsLab.RadixTree
import Mathlib.Data.List.Flatten
import Mathlib.Data.List.Pairwise

/-!
# The tree as a list of places

* `Ctx` — what lies above a node: its ancestors, and the tokens and blocks along them.  A place
  is a node with its context, and `RadixTree.places` lists them.
* `Entry` — one cached block: the token path it covers, its id, and the lock count of its node.
  `entries` lists the entries of a list of places; it is the map from block-aligned prefixes to
  blocks that the tree stores.
* `below ps m x` — node `x` is node `m` or a descendant of it.
* `WF` — the representation invariant; `LockOK pins` — each lock count is the number of pins at
  the node or below it.
-/

namespace KvsLab

/-- The ancestors of a node, nearest first and without the root, and what they hold. -/
structure Ctx where
  path : List NodeId
  toks : List TokenId
  blks : List BlockId
  deriving DecidableEq, Repr

namespace Ctx

def top : Ctx := ⟨[], [], []⟩

/-- The context of the children of `n`. -/
def push (s : Ctx) (n : Node) : Ctx := ⟨n.id :: s.path, s.toks ++ n.tokens, s.blks ++ n.blocks⟩

/-- The node whose children live here. -/
def parent (s : Ctx) : NodeId := s.path.headD kRoot

end Ctx

abbrev Place := Ctx × Node

/-- A cached block, with the token path it covers and the lock count of its node. -/
structure Entry where
  path : List TokenId
  block : BlockId
  lock : Nat
  deriving DecidableEq, Repr

namespace RadixTree

def places (t : RadixTree) : List Place := t.children.places Ctx.push Ctx.top

/-- The entries of a run of tokens and blocks that starts after `path`. -/
def runEntries (bt : Nat) (path toks : List TokenId) : List BlockId → Nat → List Entry
  | [], _ => []
  | b :: bs, lock =>
    ⟨path ++ toks.take bt, b, lock⟩ :: runEntries bt (path ++ toks.take bt) (toks.drop bt) bs lock

def placeEntries (bt : Nat) (x : Place) : List Entry :=
  runEntries bt x.1.toks x.2.tokens x.2.blocks x.2.lockCount

def entries (bt : Nat) (ps : List Place) : List Entry := ps.flatMap (placeEntries bt)

def ids (ps : List Place) : List NodeId := ps.map fun x => x.2.id

def blocksOf (ps : List Place) : List BlockId := ps.flatMap fun x => x.2.blocks

/-- Node `x` is `m` or a descendant of `m`. -/
def below (ps : List Place) (m x : NodeId) : Bool :=
  ps.any fun y => y.2.id == x && (y.2.id :: y.1.path).contains m

/-- Each lock count is the number of pins at the node or below it. -/
def LockOK (pins : List NodeId) (ps : List Place) : Prop :=
  ∀ y ∈ ps, y.2.lockCount = pins.countP (below ps y.2.id)

/-- The tokens and blocks along the path from the root to node `i`, inclusive, are `T` and `B`. -/
def Covers (ps : List Place) (i : NodeId) (T : List TokenId) (B : List BlockId) : Prop :=
  ∃ x ∈ ps, x.2.id = i ∧ x.1.toks ++ x.2.tokens = T ∧ x.1.blks ++ x.2.blocks = B

/-- `y` is the node of `x` with the same pins, on the same path. -/
structure SameNode (x y : Place) : Prop where
  id : y.2.id = x.2.id
  lock : y.2.lockCount = x.2.lockCount
  toks : y.1.toks ++ y.2.tokens = x.1.toks ++ x.2.tokens
  blks : y.1.blks ++ y.2.blocks = x.1.blks ++ x.2.blocks

theorem SameNode.trans {x y z : Place} (h : SameNode x y) (h' : SameNode y z) : SameNode x z :=
  ⟨h'.id.trans h.id, h'.lock.trans h.lock, h'.toks.trans h.toks, h'.blks.trans h.blks⟩

/-- Nodes that stay on their paths cover what they did. -/
theorem Covers.kept {ps ps' : List Place} (h : ∀ x ∈ ps, ∃ y ∈ ps', SameNode x y) {i : NodeId}
    {T : List TokenId} {B : List BlockId} (hc : Covers ps i T B) : Covers ps' i T B := by
  obtain ⟨x, hx, hi, hT, hB⟩ := hc
  obtain ⟨y, hy, hs⟩ := h x hx
  exact ⟨y, hy, hs.id.trans hi, hs.toks.trans hT, hs.blks.trans hB⟩

/-- A node is well formed in its context. -/
structure NodeOK (bt : Nat) (x : Place) : Prop where
  tokens : x.2.tokens ≠ []
  aligned : x.2.tokens.length = x.2.blocks.length * bt
  parent : x.2.parent = some x.1.parent

/-- Key of a node's first block. -/
def keyOf (key : List TokenId → UInt64) (bt : Nat) (n : Node) : UInt64 := key (n.tokens.take bt)

/-- The representation invariant. -/
structure WF (key : List TokenId → UInt64) (t : RadixTree) : Prop where
  bt_pos : 0 < t.blockTokens
  root : t.root.id = kRoot ∧ t.root.tokens = [] ∧ t.root.blocks = [] ∧ t.root.parent = none
  nodes : ∀ x ∈ t.places, NodeOK t.blockTokens x
  keyed : t.children.Keyed (keyOf key t.blockTokens)
  ids_nodup : (ids t.places).Nodup
  ids_lt : ∀ i ∈ ids t.places, kRoot < i ∧ i < t.nextNode
  next_pos : kRoot < t.nextNode
  numNodes : t.numNodes = t.children.size
  storedBlocks : t.storedBlocks = (blocksOf t.places).length

/-- A new tree. -/
theorem wf_new (key : List TokenId → UInt64) {bt : Nat} (h : 0 < bt) :
    WF key { blockTokens := bt } :=
  ⟨h, ⟨rfl, rfl, rfl, rfl⟩, nofun, trivial, List.nodup_nil, nofun, Nat.one_pos, rfl, rfl⟩

/-! ## Runs of entries -/

section Runs

variable {bt lock : Nat} {path toks : List TokenId} {blks : List BlockId}

/-- Cutting a run after `b₁.length` blocks. -/
theorem runEntries_append (bt lock : Nat) : ∀ (b₁ b₂ : List BlockId) (path toks : List TokenId),
    runEntries bt path toks (b₁ ++ b₂) lock =
      runEntries bt path (toks.take (b₁.length * bt)) b₁ lock ++
        runEntries bt (path ++ toks.take (b₁.length * bt)) (toks.drop (b₁.length * bt)) b₂ lock
  | [], b₂, path, toks => by simp [runEntries]
  | b :: b₁, b₂, path, toks => by
    have h1 : (toks.take ((b₁.length + 1) * bt)).take bt = toks.take bt := by
      rw [List.take_take, Nat.min_eq_left (Nat.le_mul_of_pos_left _ (Nat.succ_pos _))]
    have h2 : (toks.take ((b₁.length + 1) * bt)).drop bt = (toks.drop bt).take (b₁.length * bt) := by
      rw [List.drop_take, Nat.succ_mul, Nat.add_sub_cancel]
    have h3 : path ++ toks.take bt ++ (toks.drop bt).take (b₁.length * bt) =
        path ++ toks.take ((b₁.length + 1) * bt) := by
      rw [List.append_assoc, Nat.succ_mul, Nat.add_comm (b₁.length * bt) bt, List.take_add]
    have h4 : (toks.drop bt).drop (b₁.length * bt) = toks.drop ((b₁.length + 1) * bt) := by
      rw [List.drop_drop, Nat.succ_mul, Nat.add_comm]
    simp only [List.cons_append, runEntries, List.length_cons, h1, h2]
    rw [runEntries_append bt lock b₁ b₂, h3, h4]

/-- The entries of a run by position. -/
theorem mem_runEntries : ∀ {blks : List BlockId} {path toks : List TokenId} {e : Entry},
    e ∈ runEntries bt path toks blks lock ↔
      ∃ i b, blks[i]? = some b ∧ e = ⟨path ++ toks.take ((i + 1) * bt), b, lock⟩
  | [], path, toks, e => by simp [runEntries]
  | b :: bs, path, toks, e => by
    have hs : ∀ i, path ++ toks.take bt ++ (toks.drop bt).take ((i + 1) * bt) =
        path ++ toks.take ((i + 1 + 1) * bt) := by
      intro i
      rw [List.append_assoc, Nat.succ_mul (i + 1), Nat.add_comm ((i + 1) * bt) bt, List.take_add]
    simp only [runEntries, List.mem_cons, mem_runEntries, hs]
    constructor
    · rintro (rfl | ⟨i, c, hc, rfl⟩)
      · exact ⟨0, b, rfl, by simp⟩
      · exact ⟨i + 1, c, by simpa using hc, rfl⟩
    · rintro ⟨i, c, hc, rfl⟩
      cases i with
      | zero =>
        simp only [List.getElem?_cons_zero, Option.some.injEq] at hc
        exact .inl (by simp [hc])
      | succ i => exact .inr ⟨i, c, by simpa using hc, rfl⟩

theorem map_block_runEntries : ∀ (blks : List BlockId) (path toks : List TokenId),
    (runEntries bt path toks blks lock).map (·.block) = blks
  | [], _, _ => rfl
  | b :: bs, path, toks => by
    simp only [runEntries, List.map_cons, map_block_runEntries bs]

end Runs

/-- The entries list the blocks of the places in order. -/
theorem map_block_entries (bt : Nat) (ps : List Place) :
    (entries bt ps).map (·.block) = blocksOf ps := by
  unfold entries blocksOf placeEntries
  rw [List.map_flatMap]
  simp only [map_block_runEntries]

theorem mem_ids {ps : List Place} {x : Place} (hx : x ∈ ps) : x.2.id ∈ ids ps :=
  List.mem_map_of_mem (f := fun x : Place => x.2.id) hx

/-- Places with one address are one place. -/
theorem place_inj {ps : List Place} (h : (ids ps).Nodup) {x y : Place} (hx : x ∈ ps) (hy : y ∈ ps)
    (e : x.2.id = y.2.id) : x = y := List.inj_on_of_nodup_map h hx hy e

/-- In a tree without duplicates a block lies in one place. -/
theorem block_place {t : RadixTree} {x y : Place} (hn : (blocksOf t.places).Nodup)
    (hx : x ∈ t.places) (hy : y ∈ t.places) {b : BlockId} (hbx : b ∈ x.2.blocks)
    (hby : b ∈ y.2.blocks) : x = y := by
  by_contra hne
  have hpw := (List.nodup_flatMap.mp hn).2
  have hsymm : Std.Symm (Function.onFun List.Disjoint fun x : Place => x.2.blocks) :=
    ⟨fun _ _ h _ h1 h2 => h h2 h1⟩
  exact hpw.forall hx hy hne hbx hby

theorem ids_perm {ps qs : List Place} (h : ps.Perm qs) : (ids ps).Perm (ids qs) :=
  h.map fun x : Place => x.2.id

end RadixTree

end KvsLab
