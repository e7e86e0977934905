import KvsLab.BlockPool
import KvsLab.Lib.KeyedForest

/-!
# The radix tree

Model of `radix_tree.hpp` / `radix_tree.cpp`.  The nodes below the root form a keyed forest: the
children map of a node is a list of siblings, in the order the map iterates in.

* A `Node*` is the node's address `id`, drawn fresh for every node; `parent` is kept in the node
  as the source keeps it, and `lock`, `unlock` and `drop_leaf` follow it.
* The two walks of `match_prefix` and `insert` run the same loop; it is `walk` here, with the
  loop's variables in `Walk`.  The walk goes down one forest, so the nodes it touches or splits
  are replaced in place.
* The key of a block is a parameter, so colliding keys are covered.
* Loops over the whole tree carry a bound on their iterations; hitting it is a `Fault`.
-/

namespace KvsLab

abbrev NodeId := Nat

/-- `RadixTree::Node`, with its own address and without its children. -/
structure Node where
  id : NodeId
  tokens : List TokenId
  blocks : List BlockId
  parent : Option NodeId
  lockCount : Nat := 0
  lastAccess : Nat := 0
  deriving DecidableEq, Repr

abbrev Children := KeyedForest UInt64 Node

/-- The address of the root. -/
def kRoot : NodeId := 0

/-- The tree; `children` are the root's. -/
structure RadixTree where
  blockTokens : Nat
  root : Node := { id := kRoot, tokens := [], blocks := [], parent := none }
  children : Children := .nil
  clock : Nat := 0
  storedBlocks : Nat := 0
  numNodes : Nat := 0
  collisions : Nat := 0
  nextNode : NodeId := kRoot + 1
  deriving DecidableEq, Repr

/-- `RadixTree::MatchResult`. -/
structure MatchResult where
  numTokens : Nat := 0
  blocks : List BlockId := []
  node : Option NodeId := none
  deriving DecidableEq, Repr

namespace RadixTree

/-- The constructor. -/
def create (blockTokens : Nat) : Except Fault RadixTree :=
  if blockTokens = 0 then .error (.assertion "block_tokens_ > 0") else .ok { blockTokens }

variable (key : List TokenId → UInt64)

/-! ## The walk -/

/-- Leading blocks in which two token runs agree, at most `max`. -/
def commonBlocks (bt : Nat) : (max : Nat) → List TokenId → List TokenId → Nat
  | 0, _, _ => 0
  | max + 1, a, b =>
    if a.take bt = b.take bt then commonBlocks bt max (a.drop bt) (b.drop bt) + 1 else 0

/-- The two halves of a split node, with the keys they are stored under. -/
structure Split where
  headKey : UInt64
  head : Node
  tailKey : UInt64
  tail : Node
  deriving DecidableEq, Repr

/-- `RadixTree::split_node`: a new parent `newId` takes the first `offset` tokens, the node
itself keeps the rest. -/
def splitNode (bt : Nat) (newId : NodeId) (node : Node) (offset : Nat) : Except Fault Split :=
  if ¬ (0 < offset ∧ offset < node.tokens.length) then
    .error (.assertion "offset > 0 && offset < node->tokens.size()")
  else if offset % bt ≠ 0 then .error (.assertion "offset % block_tokens_ == 0")
  else
    let headBlocks := offset / bt
    let head : Node :=
      { id := newId
        tokens := node.tokens.take offset
        blocks := node.blocks.take headBlocks
        parent := node.parent
        lastAccess := node.lastAccess
        lockCount := node.lockCount }
    let tail : Node :=
      { node with
        tokens := node.tokens.drop offset
        blocks := node.blocks.drop headBlocks
        parent := some newId }
    .ok
      { headKey := key (node.tokens.take bt)
        head := head
        tailKey := key (tail.tokens.take bt)
        tail := tail }

/-- Variables of the walk: the tree's counters, the position `pos`, the tokens of whole blocks
from there on, the matched blocks, and the last node walked into. -/
structure Walk where
  clock : Nat
  nextNode : NodeId
  numNodes : Nat
  pos : Nat := 0
  rest : List TokenId
  blocks : List BlockId := []
  node : Option NodeId := none
  deriving DecidableEq, Repr

/-- The loop shared by `match_prefix` and `insert`, from the children of the current node on. -/
def walk (bt : Nat) : Children → Walk → Except Fault (Children × Walk)
  | .nil, w => .ok (.nil, w)
  | .cons k child kids siblings, w =>
    if w.rest = [] then .ok (.cons k child kids siblings, w)
    else if k = key (w.rest.take bt) then
      let maxBlocks := min child.blocks.length (w.rest.length / bt)
      let common := commonBlocks bt maxBlocks child.tokens w.rest
      -- a hash collision is treated as a miss
      if common = 0 then .ok (.cons k child kids siblings, w)
      else
        let w := { w with
          blocks := w.blocks ++ child.blocks.take common
          pos := w.pos + common * bt
          rest := w.rest.drop (common * bt)
          clock := w.clock + 1 }
        if common < child.blocks.length then do
          let s ← splitNode key bt w.nextNode child (common * bt)
          let head := { s.head with lastAccess := w.clock }
          return (.cons s.headKey head (.cons s.tailKey s.tail kids .nil) siblings,
            { w with
              nextNode := w.nextNode + 1
              numNodes := w.numNodes + 1
              node := some s.head.id })
        else do
          let r ← walk bt kids { w with node := some child.id }
          return (.cons k { child with lastAccess := w.clock } r.1 siblings, r.2)
    else do
      let r ← walk bt siblings w
      return (.cons k child kids r.1, r.2)

/-- Run the walk over the first `limit` tokens. -/
def runWalk (t : RadixTree) (tokens : List TokenId) (limit : Nat) :
    Except Fault (RadixTree × Walk) := do
  let r ← walk key t.blockTokens t.children
    { clock := t.clock, nextNode := t.nextNode, numNodes := t.numNodes, rest := tokens.take limit }
  return ({ t with
    children := r.1
    clock := r.2.clock
    nextNode := r.2.nextNode
    numNodes := r.2.numNodes }, r.2)

/-- `RadixTree::match_prefix`. -/
def matchPrefix (t : RadixTree) (tokens : List TokenId) :
    Except Fault (MatchResult × RadixTree) := do
  let limit := tokens.length / t.blockTokens * t.blockTokens
  let r ← t.runWalk key tokens limit
  return ({ numTokens := r.2.pos, blocks := r.2.blocks, node := r.2.node }, r.1)

/-! ## Nodes by address -/

def node? (t : RadixTree) (id : NodeId) : Option Node :=
  t.children.vals.find? fun n => n.id == id

/-- Write to the node at `id`. -/
def setNode (t : RadixTree) (id : NodeId) (g : Node → Node) : RadixTree :=
  if id = t.root.id then { t with root := g t.root }
  else { t with children := t.children.map fun n => if n.id = id then g n else n }

/-- `touch`. -/
def touch (t : RadixTree) (id : NodeId) : RadixTree :=
  { t.setNode id (fun n => { n with lastAccess := t.clock + 1 }) with clock := t.clock + 1 }

/-- The children map of the node at `id`. -/
def childrenOf (t : RadixTree) (id : NodeId) : Children :=
  if id = t.root.id then t.children else (t.children.kidsOf fun n => n.id == id).getD .nil

/-- Write to the children map of the node at `id`. -/
def setChildren (t : RadixTree) (id : NodeId) (g : Children → Children) : RadixTree :=
  { t with children :=
      if id = t.root.id then g t.children else t.children.mapKids (fun n => n.id == id) g }

/-! ## Insertion -/

/-- `RadixTree::insert`; the number of blocks adopted.  `blocks.size() * block_tokens_` is not cut
to `std::size_t`: it passes `2 ^ 64` only for vectors of more than 32 GiB, and never for a table of
`acquire` (`Tabled.product_fits`). -/
def insert (t : RadixTree) (pool : BlockPool) (tokens : List TokenId) (blocks : List BlockId) :
    Except Fault (Nat × RadixTree × BlockPool) := do
  let bt := t.blockTokens
  let limit := min (tokens.length / bt * bt) (blocks.length * bt)
  let (t, w) ← t.runWalk key tokens limit
  let cur := w.node.getD t.root.id
  if limit ≤ w.pos then return (0, t.touch cur, pool)
  let k := key (w.rest.take bt)
  if k ∈ (t.childrenOf cur).keys then
    return (0, { t with collisions := t.collisions + 1 }, pool)
  let leaf : Node :=
    { id := t.nextNode
      tokens := w.rest
      blocks := (blocks.take (limit / bt)).drop (w.pos / bt)
      parent := some cur
      lastAccess := t.clock + 1 }
  let pool ← leaf.blocks.foldlM BlockPool.incref pool
  let t := t.setChildren cur fun siblings => .cons k leaf .nil siblings
  return (leaf.blocks.length, { t with
    clock := t.clock + 1
    nextNode := t.nextNode + 1
    storedBlocks := t.storedBlocks + leaf.blocks.length
    numNodes := t.numNodes + 1 }, pool)

/-! ## Pins -/

/-- Apply `g` to the node at `id` and its ancestors, following the parent pointers up to the
root. -/
def climb (g : Node → Except Fault Node) :
    (fuel : Nat) → RadixTree → Option NodeId → Except Fault RadixTree
  | _, t, none => .ok t
  | fuel, t, some id =>
    if id = t.root.id then .ok t
    else
      match fuel, t.node? id with
      | 0, _ => .error .loopBound
      | _, none => .error .danglingNode
      | fuel + 1, some n => do
        let n' ← g n
        climb g fuel (t.setNode id fun _ => n') n'.parent

/-- `RadixTree::lock`.  The count is a `uint32_t` in the source, which agrees with it below `2 ^ 32`
pins (`PinsCounted.word`). -/
def lock (t : RadixTree) (node : NodeId) : Except Fault RadixTree :=
  climb (fun n => .ok { n with lockCount := n.lockCount + 1 }) t.children.size t (some node)

/-- `RadixTree::unlock`. -/
def unlock (t : RadixTree) (node : NodeId) : Except Fault RadixTree :=
  climb (fun n =>
    if n.lockCount = 0 then .error (.assertion "n->lock_count > 0 && \"unbalanced unlock\"")
    else .ok { n with lockCount := n.lockCount - 1 }) t.children.size t (some node)

/-! ## Victims -/

/-- `RadixTree::tree_is_sole_owner`. -/
def treeIsSoleOwner (pool : BlockPool) : List BlockId → Except Fault Bool
  | [] => .ok true
  | id :: ids => do
    if (← pool.refcountOf id) ≠ 1 then return false
    treeIsSoleOwner pool ids

/-- Whether a node without children may be picked. -/
def candidate (rejected : List NodeId) (n : Node) : Bool :=
  n.lockCount == 0 && !rejected.contains n.id

/-- The better of the best candidate so far and `n`. -/
def better (best : Option Node) (n : Node) : Option Node :=
  match best with
  | none => some n
  | some b => if n.lastAccess < b.lastAccess then some n else some b

/-- The scan of `find_lru_leaf`.  Siblings come off the stack last one first, each with its whole
subtree. -/
def lruScan (rejected : List NodeId) : Children → Option Node → Option Node
  | .nil, best => best
  | .cons _ n kids siblings, best =>
    let best := lruScan rejected siblings best
    let best := if kids.isNil && candidate rejected n then better best n else best
    lruScan rejected kids best

/-- `RadixTree::find_lru_leaf`. -/
def findLruLeaf (t : RadixTree) (rejected : List NodeId) : Option Node :=
  lruScan rejected t.children none

/-- Drop one reference on each block; how many went back on the free list. -/
def decrefAll : List BlockId → BlockPool → Except Fault (Nat × BlockPool)
  | [], pool => .ok (0, pool)
  | id :: ids, pool => do
    let (freed, pool) ← pool.decref id
    let (n, pool) ← decrefAll ids pool
    return ((if freed then 1 else 0) + n, pool)

/-- `RadixTree::drop_leaf`. -/
def dropLeaf (t : RadixTree) (pool : BlockPool) (victim : Node) :
    Except Fault (Nat × RadixTree × BlockPool) := do
  let (freed, pool) ← decrefAll victim.blocks pool
  let t := { t with
    storedBlocks := t.storedBlocks - victim.blocks.length
    numNodes := t.numNodes - 1 }
  let k := key (victim.tokens.take t.blockTokens)
  match victim.parent with
  | none => .error .danglingNode
  | some parent => return (freed, t.setChildren parent (·.erase k), pool)

/-- The loop of `evict`. -/
def evictLoop (numBlocks : Nat) : (fuel freed : Nat) → (rejected : List NodeId) → RadixTree →
    BlockPool → Except Fault (Nat × RadixTree × BlockPool)
  | fuel, freed, rejected, t, pool =>
    if numBlocks ≤ freed then .ok (freed, t, pool)
    else
      match fuel, t.findLruLeaf rejected with
      | _, none => .ok (freed, t, pool)
      | 0, some _ => .error .loopBound
      | fuel + 1, some victim => do
        if !(← treeIsSoleOwner pool victim.blocks) then
          evictLoop numBlocks fuel freed (rejected ++ [victim.id]) t pool
        else
          let (reclaimed, t, pool) ← t.dropLeaf key pool victim
          if reclaimed = 0 then
            throw (.assertion "reclaimed > 0 && \"a sole-owner leaf freed nothing\"")
          evictLoop numBlocks fuel (freed + reclaimed) rejected t pool

/-- `RadixTree::evict`; the number of blocks back on the free list. -/
def evict (t : RadixTree) (pool : BlockPool) (numBlocks : Nat) :
    Except Fault (Nat × RadixTree × BlockPool) :=
  evictLoop key numBlocks t.children.size 0 [] t pool

/-- The loop over one victim's blocks in `pick_demotion_victims`; `before` is the size `out`
came with. -/
def takeEligible (pool : BlockPool) (numSlots before : Nat) :
    List BlockId → List BlockId → Except Fault (List BlockId)
  | [], out => .ok out
  | id :: ids, out =>
    if numSlots ≤ out.length - before then .ok out
    else do
      if (← pool.blockTier id) ≠ 0 then takeEligible pool numSlots before ids out
      else if (← pool.refcountOf id) ≠ 1 then takeEligible pool numSlots before ids out
      else if pool.migrating id then takeEligible pool numSlots before ids out
      else takeEligible pool numSlots before ids (out ++ [id])

/-- The loop of `pick_demotion_victims`. -/
def pickLoop (t : RadixTree) (pool : BlockPool) (numSlots before : Nat) :
    (fuel : Nat) → (rejected : List NodeId) → List BlockId → Except Fault (List BlockId)
  | fuel, rejected, out =>
    if numSlots ≤ out.length - before then .ok out
    else
      match fuel, t.findLruLeaf rejected with
      | _, none => .ok out
      | 0, some _ => .error .loopBound
      | fuel + 1, some victim => do
        let out ← takeEligible pool numSlots before victim.blocks out
        pickLoop t pool numSlots before fuel (rejected ++ [victim.id]) out

/-- `RadixTree::pick_demotion_victims`; `out` with the victims appended. -/
def pickDemotionVictims (t : RadixTree) (pool : BlockPool) (numSlots : Nat) (out : List BlockId) :
    Except Fault (List BlockId) :=
  pickLoop t pool numSlots out.length t.children.size [] out

/-! ## Destruction -/

/-- What a `unique_ptr` to a node owns: the node and everything below it. -/
abbrev Owner := Node × Children

/-- The pointers in a children map, in the order the map iterates in.  None of them is null. -/
def owners : Children → List Owner
  | .nil => []
  | .cons _ child kids siblings => (child, kids) :: owners siblings

/-- `RadixTree::release_blocks`. -/
def releaseBlocks (pool : BlockPool) (node : Node) : Except Fault (Node × BlockPool) := do
  let (_, pool) ← decrefAll node.blocks pool
  return ({ node with blocks := [] }, pool)

/-- The loop of the destructor; the nodes in the order they die.  The head of `pending` is the back
of the vector, and `none` is a null pointer. -/
def tearDown : (fuel : Nat) → (pending : List (Option Owner)) → BlockPool →
    Except Fault (List Node × BlockPool)
  | _, [], pool => .ok ([], pool)
  | 0, _ :: _, _ => .error .loopBound
  | fuel + 1, none :: pending, pool => tearDown fuel pending pool
  | fuel + 1, some (node, children) :: pending, pool => do
    let (node, pool) ← releaseBlocks pool node
    let pending := (owners children).foldl (fun pending child => some child :: pending) pending
    let (dead, pool) ← tearDown fuel pending pool
    return (node :: dead, pool)

/-- `RadixTree::~RadixTree`. -/
def destroy (t : RadixTree) (pool : BlockPool) : Except Fault (List Node × BlockPool) :=
  tearDown (t.children.size + 1) [some (t.root, t.children)] pool

end RadixTree

end KvsLab
