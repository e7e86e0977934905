import KvsLab.CacheManager.Settlement
import KvsLab.CacheManager.Capacity
import KvsLab.CacheManager.Provenance
import KvsLab.RadixTree.Adoption

/-!
# Release order does not matter to what is cached

Two releases leave different trees and different surviving blocks in the two orders, so they are
compared by the token prefixes they cache.

* `Tabled` — the table of a live handle has `need_blocks` blocks for its tokens, so it covers every
  whole block of them, and the product `insert` takes of it never wraps (`Tabled.product_fits`).
* `insert_paths` — with keys that tell blocks apart no insert is refused: the cached prefixes gain
  exactly the whole-block prefixes of the tokens.
* `release_paths` — so does a release.
* `release_order` — **both orders lead to the same cached prefixes, the same number of stored
  blocks and the same number of used blocks.**
-/

namespace KvsLab

open RadixTree BlockPool CacheManager Transition

/-! ## Prefixes of whole blocks -/

/-- `path` is a non-empty prefix of `tokens` made of whole blocks. -/
def WholeBlocks (bt : Nat) (tokens path : List TokenId) : Prop :=
  ∃ i < tokens.length / bt, path = tokens.take ((i + 1) * bt)

/-- `X` is a whole block of the token sequence `path`. -/
def BlockOf (bt : Nat) (path X : List TokenId) : Prop :=
  ∃ i, (i + 1) * bt ≤ path.length ∧ X = (path.drop (i * bt)).take bt

theorem BlockOf.length_eq {bt : Nat} {path X : List TokenId} (h : BlockOf bt path X) :
    X.length = bt := by
  obtain ⟨i, hi, rfl⟩ := h
  rw [Nat.succ_mul] at hi
  rw [List.length_take, List.length_drop]
  omega

/-- The key function tells apart the blocks of the token sequences in `P`. -/
def Separates (key : List TokenId → UInt64) (bt : Nat) (P : List TokenId → Prop) : Prop :=
  ∀ path path' X X', P path → P path' → BlockOf bt path X → BlockOf bt path' X' →
    key X = key X' → X = X'

/-- A key function that tells all blocks of `bt` tokens apart separates any sequences. -/
theorem separates_of_injective {key : List TokenId → UInt64} {bt : Nat}
    (h : ∀ X X' : List TokenId, X.length = bt → X'.length = bt → key X = key X' → X = X')
    (P : List TokenId → Prop) : Separates key bt P :=
  fun _ _ X X' _ _ hX hX' => h X X' hX.length_eq hX'.length_eq

namespace RadixTree

variable {key : List TokenId → UInt64} {t t' : RadixTree}

theorem Relocked.cached (h : Relocked key t t') (hw : WF key t) : t'.cached = t.cached := by
  have hpairs := h.entries
  have hmem : ∀ path b,
      (∃ lock, (⟨path, b, lock⟩ : Entry) ∈ RadixTree.entries t.blockTokens t'.places) ↔
      ∃ lock, (⟨path, b, lock⟩ : Entry) ∈ RadixTree.entries t.blockTokens t.places := by
    have key : ∀ (l : List Entry) path b, (∃ lock, (⟨path, b, lock⟩ : Entry) ∈ l) ↔
        (path, b) ∈ l.map fun e => (e.path, e.block) := by
      intro l path b
      rw [List.mem_map]
      constructor
      · rintro ⟨lock, hm⟩
        exact ⟨_, hm, rfl⟩
      · rintro ⟨e, hm, he⟩
        cases he
        exact ⟨e.lock, hm⟩
    intro path b
    rw [key, key, hpairs]
  funext path
  refine Option.ext fun b => ?_
  rw [h.wf.cached_eq_some, hw.cached_eq_some, h.blockTokens]
  exact hmem path b

/-- With keys that tell blocks apart, the slot of the next block is free. -/
theorem Found.free (hw : WF key t) {P : List TokenId → Prop} (hsep : Separates key t.blockTokens P)
    (hcached : ∀ path, t.cached path ≠ none → P path) {tokens : List TokenId} (htok : P tokens)
    {m : Nat} {w : Walk} (hf : Found key t tokens (m * t.blockTokens) t' w)
    (hm : m * t.blockTokens ≤ tokens.length) (hk : w.blocks.length < m) :
    key (w.rest.take t.blockTokens) ∉ (t'.childrenOf (w.node.getD t'.root.id)).keys := by
  intro hocc
  rw [← KeyedForest.map_fst_items] at hocc
  obtain ⟨e, he, hkey⟩ := List.mem_map.mp hocc
  have hw' := hf.reshaped.wf
  have hbt := hf.reshaped.blockTokens
  have hmul : (w.blocks.length + 1) * t.blockTokens ≤ m * t.blockTokens := Nat.mul_le_mul_right _ hk
  obtain ⟨s, hs, hst⟩ := hf.ctx
  obtain ⟨hkeyed, hsub⟩ := childrenOf_spec hw'.linked hw'.keyed hs
  obtain ⟨hpl, hown⟩ := mem_items (s := s) hkeyed he
  have hown : e.1 = key (e.2.tokens.take t.blockTokens) := hbt ▸ hown
  have hnode := hw'.nodes _ (hsub _ hpl)
  have hle : t.blockTokens ≤ e.2.tokens.length := hbt ▸ hnode.block_le
  -- the first block of the child ends a cached path
  have hpath : t.cached (s.toks ++ e.2.tokens.take t.blockTokens) ≠ none := by
    obtain ⟨b, hb⟩ : ∃ b, e.2.blocks[0]? = some b := ⟨_, List.getElem?_eq_getElem hnode.blocks_pos⟩
    refine hw.cached_ne_none.mpr ⟨⟨_, b, e.2.lockCount⟩, ?_, rfl⟩
    rw [← hf.reshaped.entries]
    exact List.mem_flatMap.mpr ⟨_, hsub _ hpl, mem_runEntries.mpr ⟨0, b, hb, by simp⟩⟩
  have hslen : s.toks.length = w.blocks.length * t.blockTokens := by
    rw [hst, hf.aligned, List.length_take]
    rw [Nat.succ_mul] at hmul
    omega
  have hchild : BlockOf t.blockTokens (s.toks ++ e.2.tokens.take t.blockTokens)
      (e.2.tokens.take t.blockTokens) := by
    refine ⟨w.blocks.length, ?_, ?_⟩
    · rw [List.length_append, hslen, List.length_take, Nat.min_eq_left hle, Nat.succ_mul]
    · rw [← hslen, List.drop_left, List.take_take, Nat.min_self]
  have hnext : BlockOf t.blockTokens tokens (w.rest.take t.blockTokens) := by
    refine ⟨w.blocks.length, hmul.trans hm, ?_⟩
    rw [hf.rest, hf.aligned, List.drop_take, List.take_take, Nat.min_eq_left]
    rw [← Nat.sub_mul]
    exact Nat.le_mul_of_pos_left _ (by omega)
  exact hf.occupied hw hm hk he
    (hsep _ _ _ _ (hcached _ hpath) htok hchild hnext (hown.symm.trans hkey))

/-- With keys that tell blocks apart, an insert adds every whole block the table covers. -/
theorem WF.insert_paths (hw : WF key t) {P : List TokenId → Prop}
    (hsep : Separates key t.blockTokens P) (hcached : ∀ path, t.cached path ≠ none → P path)
    {p p' : BlockPool} {tokens : List TokenId} (htok : P tokens) {blocks : List BlockId} {n : Nat}
    (he : t.insert key p tokens blocks = .ok (n, t', p'))
    (hlen : tokens.length / t.blockTokens ≤ blocks.length) (path : List TokenId) :
    t'.cached path ≠ none ↔
      t.cached path ≠ none ∨ WholeBlocks t.blockTokens tokens path := by
  have hLt : tokens.length / t.blockTokens * t.blockTokens ≤ tokens.length :=
    Nat.div_mul_le_self _ _
  obtain ⟨t₁, w, -, hf, hend⟩ := hw.insert_cases p tokens blocks (Nat.min_eq_left hlen).symm
  rcases hend with ⟨hk, he'⟩ | ⟨hk, hocc, -⟩ | ⟨hk, -, x, t₂, hg, -, -, hc, he'⟩
  · cases he.symm.trans he'
    rw [(hf.full hw hLt hk _).1.cached]
    refine ⟨.inl, ?_⟩
    rintro (h | ⟨i, hi, rfl⟩)
    · exact h
    · rw [hf.cached_iff hw hLt hi, hk]
      exact hi
  · exact absurd hocc (hf.free hw hsep hcached htok hLt hk)
  · obtain ⟨q, -, e⟩ := map_ok (he'.symm.trans he)
    cases e
    have hadds := (hf.adopted hw hg hc).1
    constructor
    · intro hne
      obtain ⟨b, hb⟩ := Option.ne_none_iff_exists'.mp hne
      rcases (hadds.cached path b).mp hb with h | ⟨i, -, hi, hp, -⟩
      · exact .inl (by simp [h])
      · exact .inr ⟨i, hi, hp⟩
    · rintro (hne | ⟨i, hi, rfl⟩)
      · obtain ⟨b, hb⟩ := Option.ne_none_iff_exists'.mp hne
        rw [hadds.kept path b hb]
        exact Option.some_ne_none b
      · by_cases hik : i < w.blocks.length
        · obtain ⟨b, hb⟩ := Option.ne_none_iff_exists'.mp ((hf.cached_iff hw hLt hi).mpr hik)
          rw [hadds.kept _ b hb]
          exact Option.some_ne_none b
        · have hib := List.getElem?_eq_getElem (hi.trans_le hlen)
          rw [(hadds.cached _ _).mpr (.inr ⟨i, by omega, hi, rfl, hib⟩)]
          exact Option.some_ne_none _

end RadixTree

/-! ## A release -/

namespace CacheManager

variable {key : List TokenId → UInt64} {cl : List Claim} {m m' : CacheManager}

/-- A release caches the whole blocks of its tokens, and keeps what was cached. -/
theorem release_paths {a a' : Allocation} {tokens₀ tokens : List TokenId}
    {ws : List (WorkerId × WorkerAct)} (h : Books key (a.claim tokens₀ :: cl) m.tree m.pool)
    (hok : a.ok = true)
    (hag : tokens.take (a.claim tokens₀).tokens.length <+: (a.claim tokens₀).tokens)
    {P : List TokenId → Prop} (hsep : Separates key m.tree.blockTokens P)
    (hcached : ∀ path, m.tree.cached path ≠ none → P path) (htok : P tokens)
    (hlen : tokens.length / m.tree.blockTokens ≤ a.blocks.length)
    (he : m.release key tokens a ws = .ok (a', m')) (path : List TokenId) :
    m'.tree.cached path ≠ none ↔
      m.tree.cached path ≠ none ∨ WholeBlocks m.tree.blockTokens tokens path := by
  obtain ⟨-, ⟨hno, -⟩ | ⟨-, -, n, t, p, p', t', hins, hdrop, hun, hmt⟩⟩ := release_handle he
  · rw [hok] at hno
    cases hno
  obtain ⟨t₁, p₁, hpub, hb₁⟩ := h.publish hag
  obtain ⟨n₁, q, hins₁, -⟩ := hpub.inserted
  rw [Allocation.claim_table] at hins₁
  cases hins.symm.trans hins₁
  obtain ⟨t₂, hun₂, hrel, -⟩ := hb₁.unpin rfl
  cases hun.symm.trans (show unpin t a.pinned = .ok t₂ from hun₂)
  have htree : m'.tree = t' := maintain_tree hmt
  rw [htree, hrel.cached hb₁.wf]
  exact h.wf.insert_paths hsep hcached htok hins hlen path

/-- The table of a served request has `need_blocks` blocks. -/
theorem acquire_table (h : Books key cl m.tree m.pool) (hs : Settled cl m.pool)
    (hbt : m.cfg.blockTokens = m.tree.blockTokens) {tokens : List TokenId} {a : Allocation}
    (hst : Storable tokens) (he : m.acquire key tokens = .ok (a, m')) (hok : a.ok = true) :
    a.blocks.length = needBlocks m.cfg.blockTokens tokens.length := by
  by_cases ht : tokens = []
  · subst ht
    cases he
    exact (needBlocks_zero (hbt ▸ h.wf.bt_pos)).symm
  obtain ⟨at'⟩ := attempt h tokens
  by_cases hfree : at'.request.demand ≤ at'.evicted.pool.numFree
  · obtain ⟨_, _, _, _, al, m₁, -, -, -, -, hacq, -, -, -, -, hlen, -⟩ := at'.serves h hs ht hst hbt hfree
    cases he.symm.trans hacq
    exact hlen
  · rw [at'.acquire_eq ht, if_pos (Nat.lt_of_not_le hfree)] at he
    obtain ⟨m₁, hr, -⟩ := at'.refuse_spec h hs
    cases he.symm.trans hr
    cases hok

end CacheManager

namespace System

variable {key : List TokenId → UInt64} {s s' : System} {m₀ : CacheManager} {h A B : Handle}
  {specs : List TierSpec} {cfg : CacheConfig} {options : Options}
  {mem : Arena.Mem TierIndex UInt8} {tr : List Op}

/-! ## Tables of live handles -/

/-- The table of a live handle has `need_blocks` blocks. -/
def Tabled (s : System) : Prop :=
  ∀ h ∈ s.live, Storable h.tokens ∧
    h.alloc.blocks.length = needBlocks s.mgr.cfg.blockTokens h.tokens.length

/-- Only `acquire` hands out a serial number. -/
theorem nextSerial_eq {op : Op} (hs : Step key s op s') (hne : ∀ tokens, op ≠ .acquire tokens) :
    s'.nextSerial = s.nextSerial := by
  cases op with
  | acquire tokens => exact absurd rfl (hne tokens)
  | construct =>
    cases hs
    rfl
  | moveConstruct i =>
    obtain ⟨h, -, hs⟩ := Option.bind_eq_some_iff.mp hs
    cases hs
    rfl
  | moveAssign i j =>
    obtain ⟨dst, -, hs⟩ := Option.bind_eq_some_iff.mp hs
    obtain ⟨src, -, hs⟩ := Option.bind_eq_some_iff.mp hs
    split at hs
    · cases hs
      rfl
    · obtain ⟨_, -, rfl⟩ := call_ok hs
      rfl
  | destroy i =>
    obtain ⟨h, -, hs⟩ := Option.bind_eq_some_iff.mp hs
    obtain ⟨_, -, rfl⟩ := call_ok hs
    rfl
  | release i tokens ws =>
    obtain ⟨h, -, -, _, -, rfl⟩ := release_call hs
    rfl
  | ready i =>
    obtain ⟨h, -, hs⟩ := Option.bind_eq_some_iff.mp hs
    obtain ⟨_, -, rfl⟩ := call_ok hs
    rfl
  | wait =>
    obtain ⟨p, -, hs⟩ := Option.bind_eq_some_iff.mp hs
    cases hs
    rfl
  | worker w act =>
    obtain ⟨p, -, hs⟩ := Option.bind_eq_some_iff.mp hs
    cases hs
    rfl

theorem Tabled.step {op : Op} (ht : Tabled s) (hi : s.Inv key) (hs : Step key s op s') :
    Tabled s' := by
  obtain ⟨hi', hev⟩ := hi.step hs
  have hcfg : s'.mgr.cfg = s.mgr.cfg := evolves_cfg hev
  intro h hm
  rw [hcfg]
  by_cases hacq : ∃ tokens, op = .acquire tokens
  · obtain ⟨tokens, rfl⟩ := hacq
    obtain ⟨hst, r, he, rfl⟩ := acquire_call hs
    obtain ⟨hmem, hok⟩ := List.mem_filter.mp hm
    rcases List.mem_append.mp hmem with hmem | hmem
    · exact ht h (List.mem_filter.mpr ⟨hmem, hok⟩)
    · cases List.mem_singleton.mp hmem
      exact ⟨hst, acquire_table hi.books hi.settled hi.bt.symm hst he hok⟩
  · -- every live handle was live before
    obtain ⟨K, gone, new, hl, hl', -, hnew⟩ := hev.handles
    rcases List.mem_append.mp (hl'.mem_iff.mp hm) with hn | hK
    · have h1 := hnew h hn
      have h2 := hi'.serials_lt h hm
      rw [nextSerial_eq hs fun tokens e => hacq ⟨tokens, e⟩] at h2
      omega
    · exact ht h (hl.mem_iff.mpr (List.mem_append_right _ hK))

theorem tabled_reach (h0 : CacheManager.create specs cfg options mem = .ok m₀)
    (hfit : (specs.map (·.numBlocks)).sum < 2 ^ 32) (hrun : Run (Step key) (start m₀) tr s) :
    s.Inv key ∧ Tabled s :=
  hrun.invariant (I := fun s => s.Inv key ∧ Tabled s)
    (fun _ _ _ h hs => ⟨(h.1.step hs).1, h.2.step h.1 hs⟩)
    ⟨start_inv h0 hfit, fun h hm => (by cases hm)⟩

/-- The product `insert` takes of a table and `block_tokens` stays in `std::size_t`. -/
theorem Tabled.product_fits (ht : Tabled s) {h : Handle} (hh : h ∈ s.live) :
    sizeMul h.alloc.blocks.length s.mgr.cfg.blockTokens =
      h.alloc.blocks.length * s.mgr.cfg.blockTokens := by
  rw [sizeMul, (ht h hh).2]
  exact Nat.mod_eq_of_lt needBlocks_mul_lt

/-! ## Two releases -/

/-- Trees that cache the same prefixes store the same number of blocks. -/
theorem storedBlocks_of_paths {t t' : RadixTree} (hw : WF key t) (hw' : WF key t')
    (hn : (blocksOf t.places).Nodup) (hn' : (blocksOf t'.places).Nodup)
    (hp : ∀ path, t'.cached path ≠ none ↔ t.cached path ≠ none) :
    t'.storedBlocks = t.storedBlocks := by
  have hnodup : ∀ {t : RadixTree}, WF key t → (blocksOf t.places).Nodup →
      ((entries t.blockTokens t.places).map (·.path)).Nodup := by
    intro t hw hn
    rw [← map_block_entries t.blockTokens] at hn
    exact (List.Nodup.of_map _ hn).map_on fun e he e' he' h => hw.entry_inj he he' h
  have hmem : ∀ {t : RadixTree}, WF key t → ∀ path,
      path ∈ (entries t.blockTokens t.places).map (·.path) ↔ t.cached path ≠ none := by
    intro t hw path
    rw [hw.cached_ne_none, List.mem_map]
  have hperm := (List.perm_ext_iff_of_nodup (hnodup hw' hn') (hnodup hw hn)).mpr fun path => by
    rw [hmem hw', hmem hw, hp]
  have hlen := hperm.length_eq
  rw [List.length_map, List.length_map] at hlen
  rw [hw.storedBlocks, hw'.storedBlocks, ← map_block_entries t.blockTokens t.places,
    ← map_block_entries t'.blockTokens t'.places, List.length_map, List.length_map, hlen]

theorem agrees_self (h : Handle) : h.Agrees h.tokens := fun _ _ _ _ => rfl

/-- A live handle is released for the tokens it was acquired for. -/
theorem release_one (hi : s.Inv key) (ht : Tabled s) {P : List TokenId → Prop}
    (hsep : Separates key s.mgr.cfg.blockTokens P)
    (hcached : ∀ path, s.mgr.tree.cached path ≠ none → P path) (htok : P A.tokens) {i : Nat}
    (hA : s.vars[i]? = some A) (hok : A.alloc.ok = true) (ws : List (WorkerId × WorkerAct)) :
    ∃ s', Step key s (.release i A.tokens ws) s' ∧ s'.Inv key ∧ Tabled s' ∧
      s'.mgr.cfg = s.mgr.cfg ∧ s'.vars = s.vars.set i A.disarm ∧
      ∀ path, s'.mgr.tree.cached path ≠ none ↔
        s.mgr.tree.cached path ≠ none ∨ WholeBlocks s.mgr.cfg.blockTokens A.tokens path := by
  obtain ⟨hst, htab⟩ := ht A (mem_live hA hok)
  have hag : Storable A.tokens ∧ A.Agrees A.tokens := ⟨hst, agrees_self A⟩
  obtain ⟨s', hs, hi', hev⟩ : ∃ s', s.next key (.release i A.tokens ws) = some (.ok s') ∧
      s'.Inv key ∧ Evolves key s (.release i A.tokens ws) s' := release_step hi hA hag
  refine ⟨s', hs, hi', ht.step hi hs, evolves_cfg hev, ?_⟩
  obtain ⟨K, hlive, -⟩ := live_cons hA hok
  have hg := hi.perm hlive
  have hlen : A.tokens.length / s.mgr.tree.blockTokens ≤ A.alloc.blocks.length := by
    rw [htab, hi.bt]
    exact div_le_needBlocks hst.lt
  simp only [next, hA, if_pos hag, bind, Option.bind] at hs
  obtain ⟨⟨a', m'⟩, he, rfl⟩ := call_ok hs
  constructor
  · obtain ⟨-, ⟨hno, -⟩ | ⟨-, hd, -⟩⟩ := release_handle he
    · rw [hok] at hno
      cases hno
    · rw [hd]
      rfl
  · intro path
    rw [← hi.bt]
    exact release_paths hg.books hok (agrees_take (hg.handles A List.mem_cons_self) (agrees_self A))
      (hi.bt ▸ hsep) hcached htok hlen he path

/-- The token sequences that two handles and the tree hold. -/
def Occurs (s : System) (A B : Handle) (path : List TokenId) : Prop :=
  s.mgr.tree.cached path ≠ none ∨ path <+: A.tokens ∨ path <+: B.tokens

/-- Two releases in a row, of the handles in variables `i` and `j`. -/
theorem release_two (hi : s.Inv key) (ht : Tabled s)
    (hsep : Separates key s.mgr.cfg.blockTokens (Occurs s A B)) {i j : Nat} (hij : i ≠ j)
    (hA : s.vars[i]? = some A) (hB : s.vars[j]? = some B) (hAok : A.alloc.ok = true)
    (hBok : B.alloc.ok = true) (ws₁ ws₂ : List (WorkerId × WorkerAct)) :
    ∃ s₁ s₂, Step key s (.release i A.tokens ws₁) s₁ ∧ Step key s₁ (.release j B.tokens ws₂) s₂ ∧
      s₂.Inv key ∧ s₂.vars = (s.vars.set i A.disarm).set j B.disarm ∧
      ∀ path, s₂.mgr.tree.cached path ≠ none ↔ s.mgr.tree.cached path ≠ none ∨
        WholeBlocks s.mgr.cfg.blockTokens A.tokens path ∨
        WholeBlocks s.mgr.cfg.blockTokens B.tokens path := by
  obtain ⟨s₁, hs₁, hi₁, ht₁, hc₁, hv₁, hp₁⟩ := release_one hi ht hsep (fun _ => .inl)
    (.inr (.inl (List.prefix_refl _))) hA hAok ws₁
  have hcached₁ : ∀ path, s₁.mgr.tree.cached path ≠ none → Occurs s A B path := by
    intro path hne
    rcases (hp₁ path).mp hne with h | ⟨n, -, rfl⟩
    · exact .inl h
    · exact .inr (.inl (List.take_prefix _ _))
  have hB₁ : s₁.vars[j]? = some B := by rw [hv₁, List.getElem?_set_ne hij, hB]
  obtain ⟨s₂, hs₂, hi₂, -, -, hv₂, hp₂⟩ := release_one hi₁ ht₁ (hc₁ ▸ hsep) hcached₁
    (.inr (.inr (List.prefix_refl _))) hB₁ hBok ws₂
  refine ⟨s₁, s₂, hs₁, hs₂, hi₂, by rw [hv₂, hv₁], fun path => ?_⟩
  rw [hp₂, hp₁, hc₁, or_assoc]

theorem separates_swap {bt : Nat} (h : Separates key bt (Occurs s A B)) :
    Separates key bt (Occurs s B A) := by
  have hsw : ∀ path, Occurs s B A path → Occurs s A B path := by
    rintro path (h | h | h)
    · exact .inl h
    · exact .inr (.inr h)
    · exact .inr (.inl h)
  exact fun path path' X X' hp hp' => h path path' X X' (hsw _ hp) (hsw _ hp')

/-- **Release order does not matter to what is cached.**  Two live handles, however their
sequences overlap, are released in either order: the cached prefixes are the previous ones and the
whole-block prefixes of both sequences, and as many blocks are stored and in use.  The key function
need only tell apart the blocks that occur in the cache and in the two sequences. -/
theorem release_order (h0 : CacheManager.create specs cfg options mem = .ok m₀)
    (hfit : (specs.map (·.numBlocks)).sum < 2 ^ 32) (hrun : Run (Step key) (start m₀) tr s)
    {i j : Nat} (hij : i ≠ j) (hA : s.vars[i]? = some A) (hB : s.vars[j]? = some B)
    (hAok : A.alloc.ok = true) (hBok : B.alloc.ok = true)
    (hsep : Separates key s.mgr.cfg.blockTokens (Occurs s A B))
    (ws₁ ws₂ ws₃ ws₄ : List (WorkerId × WorkerAct)) :
    ∃ s₁ sAB s₂ sBA, Step key s (.release i A.tokens ws₁) s₁ ∧
      Step key s₁ (.release j B.tokens ws₂) sAB ∧ Step key s (.release j B.tokens ws₃) s₂ ∧
      Step key s₂ (.release i A.tokens ws₄) sBA ∧
      (∀ path, sAB.mgr.tree.cached path ≠ none ↔ s.mgr.tree.cached path ≠ none ∨
        WholeBlocks s.mgr.cfg.blockTokens A.tokens path ∨
        WholeBlocks s.mgr.cfg.blockTokens B.tokens path) ∧
      (∀ path, sBA.mgr.tree.cached path ≠ none ↔ sAB.mgr.tree.cached path ≠ none) ∧
      sBA.mgr.tree.storedBlocks = sAB.mgr.tree.storedBlocks ∧
      sBA.mgr.pool.numUsed = sAB.mgr.pool.numUsed := by
  obtain ⟨hi, ht⟩ := tabled_reach h0 hfit hrun
  obtain ⟨s₁, sAB, h1, h2, hi₁, hv₁, hp₁⟩ := release_two hi ht hsep hij hA hB hAok hBok ws₁ ws₂
  obtain ⟨s₂, sBA, h3, h4, hi₂, hv₂, hp₂⟩ := release_two hi ht (separates_swap hsep) hij.symm hB hA
    hBok hAok ws₃ ws₄
  have hsame : ∀ path, sBA.mgr.tree.cached path ≠ none ↔ sAB.mgr.tree.cached path ≠ none := by
    intro path
    rw [hp₁, hp₂, or_comm (a := WholeBlocks _ B.tokens path)]
  have hstored := storedBlocks_of_paths hi₁.books.wf hi₂.books.wf hi₁.books.sole.nodup
    hi₂.books.sole.nodup hsame
  refine ⟨s₁, sAB, s₂, sBA, h1, h2, h3, h4, hp₁, hsame, hstored, ?_⟩
  have hlive : sBA.freshBlocks = sAB.freshBlocks := by
    unfold freshBlocks live
    rw [hv₁, hv₂, List.set_comm _ _ hij.symm]
  rw [hi₁.partitioned.numUsed, hi₂.partitioned.numUsed, treeBlocks_eq hi₁.books.wf,
    treeBlocks_eq hi₂.books.wf, ← hi₁.books.wf.storedBlocks, ← hi₂.books.wf.storedBlocks, hstored,
    hlive]

/-- A key that tells all blocks of two tokens apart: the two tokens side by side. -/
def pairKey : List TokenId → UInt64
  | [a, b] => UInt64.ofNat (a.toUInt32.toNat * 2 ^ 32 + b.toUInt32.toNat)
  | _ => 0

theorem pairKey_injective (X X' : List TokenId) (h : X.length = 2) (h' : X'.length = 2)
    (he : pairKey X = pairKey X') : X = X' := by
  obtain ⟨a, b, rfl⟩ := List.length_eq_two.mp h
  obtain ⟨a', b', rfl⟩ := List.length_eq_two.mp h'
  have hlt : ∀ c : TokenId, c.toUInt32.toNat < 2 ^ 32 := fun c => c.toUInt32.toNat_lt
  have h1 := hlt a
  have h2 := hlt b
  have h3 := hlt a'
  have h4 := hlt b'
  have hn := congrArg UInt64.toNat he
  simp only [pairKey, UInt64.toNat_ofNat'] at hn
  rw [Nat.mod_eq_of_lt (by omega), Nat.mod_eq_of_lt (by omega)] at hn
  have hinj : ∀ {c d : TokenId}, c.toUInt32.toNat = d.toUInt32.toNat → c = d :=
    fun e => congrArg UInt32.toInt32 (UInt32.toNat_inj.mp e)
  rw [hinj (show a.toUInt32.toNat = a'.toUInt32.toNat by omega),
    hinj (show b.toUInt32.toNat = b'.toUInt32.toNat by omega)]

/-- One sequence is published; two handles then extend it and part from each other inside a block
both have to write. -/
def overlapTrace : List Op :=
  [.acquire [1, 2], .release 0 [1, 2] [], .acquire [1, 2, 3, 4, 5], .acquire [1, 2, 3, 4]]

theorem release_order_overlap : ∃ m₀ s s₁ sAB s₂ sBA,
    CacheManager.create twoTierSpecs twoTierConfig {} (fun _ _ => 0) = .ok m₀ ∧
    Run (Step pairKey) (start m₀) overlapTrace s ∧
    Step pairKey s (.release 1 [1, 2, 3, 4, 5] []) s₁ ∧
    Step pairKey s₁ (.release 2 [1, 2, 3, 4] []) sAB ∧
    Step pairKey s (.release 2 [1, 2, 3, 4] []) s₂ ∧
    Step pairKey s₂ (.release 1 [1, 2, 3, 4, 5] []) sBA ∧
    sBA.mgr.tree.storedBlocks = sAB.mgr.tree.storedBlocks := by
  have hs : ((CacheManager.create twoTierSpecs twoTierConfig {} (fun _ _ => 0)).toOption.bind
      fun m₀ => (exec (step? pairKey) (start m₀) overlapTrace).bind fun s =>
        s.vars[1]?.bind fun A => s.vars[2]?.map fun B =>
          (s.mgr.cfg.blockTokens, A.alloc.ok, A.tokens, B.alloc.ok, B.tokens)) =
      some (2, true, [1, 2, 3, 4, 5], true, [1, 2, 3, 4]) := by
    decide +kernel
  obtain ⟨m₀, h0, hm⟩ := Option.bind_eq_some_iff.mp hs
  obtain ⟨s, hx, hv⟩ := Option.bind_eq_some_iff.mp hm
  obtain ⟨A, hA, hv⟩ := Option.bind_eq_some_iff.mp hv
  obtain ⟨B, hB, he⟩ := Option.map_eq_some_iff.mp hv
  simp only [Prod.mk.injEq] at he
  obtain ⟨hbt, hAok, hAt, hBok, hBt⟩ := he
  have hc := toOption_eq_some h0
  have hrun := run_of_step? hx
  obtain ⟨s₁, sAB, s₂, sBA, h1, h2, h3, h4, -, -, hstored, -⟩ :=
    release_order hc (by decide) hrun (by decide) hA hB hAok hBok
      (separates_of_injective (hbt ▸ pairKey_injective) _) [] [] [] []
  rw [hAt] at h1 h4
  rw [hBt] at h2 h3
  exact ⟨m₀, s, s₁, sAB, s₂, sBA, hc, hrun, h1, h2, h3, h4, hstored⟩

end System

end KvsLab
