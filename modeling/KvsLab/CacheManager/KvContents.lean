import KvsLab.BlockPool.Access
import KvsLab.CacheManager.PoolCalls
import KvsLab.CacheManager.Freed

/-!
# A hit is as good as a computation

A program acquires a table, runs the model, writes KV data into the fresh blocks and releases the
table for the tokens it stands for.  What the data of a block is depends on the tokens up to and
including the block, in a way the cache knows nothing about: any function `kv` of them.

* `KvOp` / `kvNext` — a call of the program, an action of a worker, or a write to a fresh block of a
  live handle.  A program that releases a table has written the data of its fresh blocks.
* `KvInv` — every entry of the index holds the data of its path.
* `cached_data` — **so does every cached block of every live handle, for the tokens it was acquired
  for**: wherever its bytes were moved since, and whichever copies are under way.
* `Seen` / `reads_own_writes` — **a handle reads what was in its table when it was acquired, and its
  own writes**, until it is given back.
-/

namespace KvsLab

open RadixTree BlockPool CacheManager Transition

/-! ## What the manager's calls keep of the bytes -/

namespace BlockPool

variable {p p' q : BlockPool} {id : BlockId}

/-- From a pool whose bytes are in order. -/
def Carries (p p' : BlockPool) : Prop := p.ByteSafe → KeepsBytes p p'

theorem Carries.of_next (op : PoolOp) (h : p.next op = some p') : Carries p p' :=
  fun hp => hp.next h

theorem Carries.closed : CallClosed Carries where
  refl _ hp := hp.refl
  trans h h' hp := (h hp).trans (h' (h hp).safe)
  allocate {_ _ _} h := .of_next .allocate (by simp only [BlockPool.next, h]; rfl)
  decref {_ _ id _} h := .of_next (.decref id) (by simp only [BlockPool.next, h]; rfl)
  migrate {_ _ id dst _} h := .of_next (.migrate id dst) (by simp only [BlockPool.next, h]; rfl)
  migrateAsync {_ _ id dst _} h :=
    .of_next (.migrateAsync id dst) (by simp only [BlockPool.next, h]; rfl)
  cancel _ id := .of_next (.cancelMigration id) rfl
  drain _ := .of_next .drainMigrations rfl
  worker {_ _ w act} h := .of_next (.worker w act) h

/-- Taking references writes nothing. -/
theorem Carries.increfAll : ∀ {l : List BlockId} {p p' : BlockPool},
    (∀ b, p.refcount b + l.count b < 2 ^ 32) → l.foldlM BlockPool.incref p = .ok p' → Carries p p'
  | [], p, p', _, h => by
    cases h
    exact Carries.closed.refl _
  | id :: l, p, p', hlt, h => by
    rw [List.foldlM_cons] at h
    obtain ⟨q, hq, h⟩ := Lockstep.bind_ok h
    have hid : p.refcount id + 1 < 2 ^ 32 := by
      have := hlt id
      rw [List.count_cons_self] at this
      omega
    have hstep : Carries p q := .of_next (.incref id) (by
      simp only [BlockPool.next, if_pos hid, hq]
      rfl)
    refine Carries.closed.trans hstep (increfAll (fun b => ?_) h)
    obtain ⟨_, _, rfl⟩ := incref_ok hq
    have := hlt b
    rw [List.count_cons] at this
    show Function.update p.refcount id _ b + _ < _
    by_cases e : b = id
    · subst e
      rw [Function.update_self, toU32_of_lt hid]
      simpa [Nat.add_assoc, Nat.add_comm 1] using this
    · rw [Function.update_of_ne e]
      omega

end BlockPool

namespace RadixTree

variable {key : List TokenId → UInt64} {t t' : RadixTree} {p p' : BlockPool} {n : Nat}

theorem insert_carries {tokens : List TokenId} {blocks : List BlockId}
    (hlt : ∀ b, p.refcount b + blocks.count b < 2 ^ 32)
    (h : t.insert key p tokens blocks = .ok (n, t', p')) : Carries p p' := by
  obtain ⟨⟨t₁, w⟩, -, h⟩ := Lockstep.bind_ok h
  dsimp only at h
  split at h
  · cases h
    exact Carries.closed.refl _
  split at h
  · cases h
    exact Carries.closed.refl _
  obtain ⟨q, hq, h⟩ := Lockstep.bind_ok h
  cases h
  refine .increfAll (fun b => Nat.lt_of_le_of_lt (Nat.add_le_add_left ?_ _) (hlt b)) hq
  exact ((List.drop_sublist _ _).trans (List.take_sublist _ _)).count_le b

end RadixTree

namespace CacheManager

variable {key : List TokenId → UInt64} {cl : List Claim} {m m' : CacheManager}
  {tokens : List TokenId} {a : Allocation}

/-- The fresh blocks of a table start out in the compute tier. -/
theorem acquire_fresh_home (h : Books key cl m.tree m.pool) (hs : Settled cl m.pool)
    (hbt : m.cfg.blockTokens = m.tree.blockTokens) (hst : Storable tokens)
    (he : m.acquire key tokens = .ok (a, m')) (hok : a.ok = true) :
    ∀ b ∈ a.freshBlocks, (m'.pool.location b).tier = 0 := by
  by_cases ht : tokens = []
  · subst ht
    cases he
    nofun
  obtain ⟨x⟩ := attempt h tokens
  by_cases hfree : x.request.demand ≤ x.evicted.pool.numFree
  · obtain ⟨_, _, ids, _, al, m₁, -, -, -, -, hacq, -, hcached, -, hblocks, -, -, hids, -⟩ :=
      x.serves h hs ht hst hbt hfree
    cases he.symm.trans hacq
    intro b hb
    unfold Allocation.freshBlocks at hb
    rw [hblocks, hcached, List.drop_left] at hb
    exact (hids b hb).2.2
  · rw [x.acquire_eq ht, if_pos (Nat.lt_of_not_le hfree)] at he
    obtain ⟨m₁, hr, -⟩ := x.refuse_spec h hs
    cases he.symm.trans hr
    cases hok

end CacheManager

/-! ## A program that runs the model -/

/-- A call, an action of a worker, or a write of `bs` into fresh block `n` of the table in variable
`i`, `off` bytes from the start of the block. -/
inductive KvOp where
  | call (op : Op)
  | write (i n off : Nat) (bs : List UInt8)
  deriving DecidableEq, Repr

namespace System

section Program

variable (key : List TokenId → UInt64) (kv : List TokenId → List UInt8)

/-- One step; `none` when it cannot be taken: the call cannot, or there is no such block, or the
write does not fit in it. -/
def kvNext (s : System) : KvOp → Option System
  | .call op => s.step? key op
  | .write i n off bs => do
    let h ← s.vars[i]?
    let id ← h.alloc.freshBlocks[n]?
    if h.alloc.ok = true ∧ off + bs.length ≤ s.mgr.pool.blockBytes then
      let pool ← (s.mgr.pool.writeBlock id off bs).toOption
      return { s with mgr := { s.mgr with pool } }
    else none

/-- Past its cached prefix, the table of `h` holds the data of every whole block of `tokens`. -/
def Computed (s : System) (h : Handle) (tokens : List TokenId) : Prop :=
  ∀ n < h.alloc.blocks.length, h.alloc.cachedBlocks ≤ n →
    (n + 1) * s.mgr.cfg.blockTokens ≤ tokens.length → ∀ b ∈ h.alloc.blocks[n]?,
      (s.mgr.pool.readBlock b).toOption =
        some (kv (tokens.take ((n + 1) * s.mgr.cfg.blockTokens)))

instance (s : System) (h : Handle) (tokens : List TokenId) : Decidable (s.Computed kv h tokens) :=
  inferInstanceAs (Decidable (∀ n < h.alloc.blocks.length, _))

/-- A table that is released has been computed. -/
def Honours (s : System) : KvOp → Prop
  | .call (.release i tokens _) => ∀ h ∈ s.vars[i]?, h.alloc.ok = true → s.Computed kv h tokens
  | _ => True

instance (s : System) (op : KvOp) : Decidable (s.Honours kv op) := by
  unfold Honours
  split <;> infer_instance

/-- One step of a program that computes what it publishes. -/
def kvStep? (s : System) (op : KvOp) : Option System :=
  if s.Honours kv op then s.kvNext key op else none

def KvStep (s : System) (op : KvOp) (s' : System) : Prop := s.kvStep? key kv op = some s'

/-- What makes the bytes of every block follow it, and no worker touch a fresh block. -/
structure Sound (s : System) : Prop where
  inv : s.Inv key
  bytes : s.mgr.pool.ByteSafe
  fresh : ∀ h ∈ s.live, ∀ b ∈ h.alloc.freshBlocks, (s.mgr.pool.location b).tier = 0

/-- Every entry of the index holds the data of its path. -/
structure KvInv (s : System) : Prop extends Sound key s where
  cached : ∀ e ∈ entries s.mgr.cfg.blockTokens s.mgr.tree.places,
    s.mgr.pool.contents e.block = kv e.path

end Program

variable {key : List TokenId → UInt64} {kv : List TokenId → List UInt8} {s s' : System}
  {h : Handle} {b : BlockId} {m₀ : CacheManager} {specs : List TierSpec} {cfg : CacheConfig}
  {options : Options} {mem : Arena.Mem TierIndex UInt8}

/-! ## Calls -/

theorem Inv.carries (hi : s.Inv key) {op : Op} (hs : Step key s op s') :
    Carries s.mgr.pool s'.mgr.pool := by
  refine Carries.closed.step (fun h hh hok => ?_) hs
  intro tokens n t p _ hins
  have hlive : h ∈ s.live := List.mem_filter.mpr ⟨hh, hok⟩
  refine insert_carries (fun b => ?_) hins
  have h1 := List.nodup_iff_count_le_one.mp hi.books.nodup b
  rw [← hi.books.refs b] at h1
  have hnd := hi.books.table_nodup (List.mem_map_of_mem (f := Handle.claim) hlive)
  rw [Handle.claim, Allocation.claim_table] at hnd
  have h2 := List.nodup_iff_count_le_one.mp hnd b
  omega

/-- A call changes no byte of a block that stays in the index or in a live table. -/
structure Leaves (s s' : System) : Prop where
  safe : s'.mgr.pool.ByteSafe
  blockBytes : s'.mgr.pool.blockBytes = s.mgr.pool.blockBytes
  index : ∀ b ∈ blocksOf s'.mgr.tree.places, s.mgr.pool.refcount b ≠ 0 →
    s'.mgr.pool.contents b = s.mgr.pool.contents b
  live : ∀ h ∈ s.live, h ∈ s'.live → ∀ b ∈ h.alloc.blocks,
    s'.mgr.pool.contents b = s.mgr.pool.contents b

theorem Inv.leaves (hi : s.Inv key) (hb : s.mgr.pool.ByteSafe) {op : Op} (hs : Step key s op s') :
    Leaves s s' := by
  have hk := hi.carries hs hb
  obtain ⟨G, hG, hkept⟩ := hk.freed
  obtain ⟨G', hG', htree, hlive⟩ := live_not_freed hi hs
  cases List.append_cancel_left (hG.symm.trans hG')
  refine ⟨hk.safe, hk.blockBytes, fun b hm hr => (hkept b hr (htree b hm)).2,
    fun h hh hh' b hm => (hkept b ?_ (hlive h hh hh' b hm)).2⟩
  refine hi.books.held_iff.mpr (hi.books.table_held (List.mem_map_of_mem (f := Handle.claim) hh) ?_)
  rwa [Handle.claim, Allocation.claim_table]

/-- A handle that is live after a step was live before it, or is the one the step handed out. -/
theorem Inv.live_cases (hi : s.Inv key) {op : Op} (hs : Step key s op s') (hh : h ∈ s'.live) :
    (h ∈ s.live ∧ ∀ b ∈ h.alloc.blocks, Delivered s.mgr.pool s'.mgr.pool b) ∨
      ∃ tokens al m', op = .acquire tokens ∧ Storable tokens ∧
        s.mgr.acquire key tokens = .ok (al, m') ∧
        al.ok = true ∧ h = ⟨al, tokens, s.nextSerial⟩ ∧ m' = s'.mgr := by
  obtain ⟨hi', hev⟩ := hi.step hs
  by_cases hacq : ∃ tokens, op = .acquire tokens
  · obtain ⟨tokens, rfl⟩ := hacq
    obtain ⟨hst, ⟨al, m'⟩, he, rfl⟩ := acquire_call hs
    obtain ⟨hmem, hok⟩ := List.mem_filter.mp hh
    rcases List.mem_append.mp hmem with hmem | hmem
    · have hl : h ∈ s.live := List.mem_filter.mpr ⟨hmem, hok⟩
      exact .inl ⟨hl, ((run_handles hi (Run.single hs)).handle h hl h hh rfl).2⟩
    · cases List.mem_singleton.mp hmem
      exact .inr ⟨tokens, al, m', rfl, hst, he, hok, rfl, rfl⟩
  · obtain ⟨K, gone, new, hl, hl', -, hnew⟩ := hev.handles
    rcases List.mem_append.mp (hl'.mem_iff.mp hh) with hn | hK
    · have h1 := hnew h hn
      have h2 := hi'.serials_lt h hh
      rw [nextSerial_eq hs fun tokens e => hacq ⟨tokens, e⟩] at h2
      omega
    · have hl : h ∈ s.live := hl.mem_iff.mpr (List.mem_append_right _ hK)
      exact .inl ⟨hl, ((run_handles hi (Run.single hs)).handle h hl h hh rfl).2⟩

theorem Sound.call (hk : Sound key s) {op : Op} (hs : Step key s op s') : Sound key s' := by
  have hi := hk.inv
  refine ⟨(hi.step hs).1, (hi.leaves hk.bytes hs).safe, fun h hh b hb => ?_⟩
  rcases hi.live_cases hs hh with ⟨hl, hd⟩ | ⟨tokens, al, m', -, hst, he, hok, rfl, rfl⟩
  · have hbl : b ∈ h.alloc.blocks := List.mem_of_mem_drop hb
    rw [delivered_location (hd b hbl) (homed_of_live hi hl hbl) (hk.fresh h hl b hb)]
    exact hk.fresh h hl b hb
  · exact acquire_fresh_home hi.books hi.settled hi.bt.symm hst he hok b hb

/-- What a release publishes had no entry, so it is past the cached prefix. -/
theorem Inv.published_fresh (hi : s.Inv key) (hh : h ∈ s.live) {tokens : List TokenId} {k : Nat}
    (ha : h.Agrees tokens) (hlen : (k + 1) * s.mgr.tree.blockTokens ≤ tokens.length)
    (hb : h.claim.table[k]? = some b)
    (hnew : ∀ e ∈ entries s.mgr.tree.blockTokens s.mgr.tree.places,
      e.path ≠ tokens.take ((k + 1) * s.mgr.tree.blockTokens)) : h.alloc.cachedBlocks ≤ k := by
  by_contra hlt
  have hok := hi.handles h hh
  have hc := List.mem_map_of_mem (f := Handle.claim) hh
  have hk : k < h.alloc.cachedBlocks := Nat.lt_of_not_le hlt
  have hlen' : h.claim.cached.length = h.alloc.cachedBlocks := by
    show (h.alloc.blocks.take h.alloc.cachedBlocks).length = _
    rw [List.length_take, Nat.min_eq_left hok.le_blocks]
  rcases hi.books.pins _ hc with ⟨_, _, h0⟩ | ⟨i, _, _, hcov⟩
  · rw [h0] at hlen'
    rw [← hlen'] at hk
    cases hk
  · have hb' : h.claim.cached[k]? = some b := by
      rw [← hb]
      exact (List.getElem?_append_left (hlen'.symm ▸ hk)).symm
    obtain ⟨l, he⟩ := covers_entry hi.books.wf hcov hb'
    refine hnew _ he ?_
    have hbt : h.alloc.cachedTokens = h.alloc.cachedBlocks * s.mgr.tree.blockTokens := by
      rw [hok.cachedTokens, hi.bt]
    have hle : (k + 1) * s.mgr.tree.blockTokens ≤ h.alloc.cachedTokens := by
      rw [hbt]
      exact Nat.mul_le_mul_right _ hk
    show (h.tokens.take h.alloc.cachedTokens).take _ = _
    rw [List.take_take, Nat.min_eq_left hle]
    refine List.ext_getElem? fun n => ?_
    have hle' := hok.le_tokens
    by_cases hn : n < (k + 1) * s.mgr.tree.blockTokens
    · rw [List.getElem?_take_of_lt hn, List.getElem?_take_of_lt hn]
      exact (ha n (by omega) (by omega) (by omega)).symm
    · rw [List.getElem?_eq_none (by rw [List.length_take]; omega),
        List.getElem?_eq_none (by rw [List.length_take]; omega)]

/-- **A call keeps the data of the index.** -/
theorem KvInv.call (hk : KvInv key kv s) {op : Op} (hh : s.Honours kv (.call op))
    (hs : Step key s op s') : KvInv key kv s' := by
  have hi := hk.inv
  obtain ⟨hi', hev⟩ := hi.step hs
  have hl := hi.leaves hk.bytes hs
  refine ⟨hk.toSound.call hs, fun e he => ?_⟩
  have hblock : e.block ∈ blocksOf s'.mgr.tree.places := by
    rw [← map_block_entries s'.mgr.cfg.blockTokens]
    exact List.mem_map_of_mem he
  rw [evolves_cfg hev, ← hi.bt] at he
  -- an entry that was there before
  have hold : ∀ e₀ ∈ entries s.mgr.tree.blockTokens s.mgr.tree.places, e₀.path = e.path →
      e₀.block = e.block → s'.mgr.pool.contents e.block = kv e.path := by
    intro e₀ he₀ hp hb
    have hm₀ : e₀.block ∈ blocksOf s.mgr.tree.places := by
      rw [← map_block_entries s.mgr.tree.blockTokens]
      exact List.mem_map_of_mem he₀
    rw [hl.index _ hblock (hi.books.held_iff.mpr (Books.mem_held_tree _ (hb ▸ hm₀))), ← hb, ← hp]
    exact hk.cached e₀ (hi.bt ▸ he₀)
  rcases hev.index with hret | ⟨i, tokens, ws, h, cl, rfl, hget, hok, hgb⟩
  · obtain ⟨e₀, he₀, hp, hb⟩ := hret.entries e he
    exact hold e₀ he₀ hp hb
  obtain ⟨n, t, p, -, hkeep, hnew⟩ := hgb.published
  obtain ⟨e₁, he₁, hp, hb⟩ := hkeep e he
  rcases hnew e₁ he₁ with he₁ | ⟨hnone, k, htab, hpath, hlen⟩
  · exact hold e₁ he₁ hp hb
  -- one the release published
  have hlive := mem_live hget hok
  obtain ⟨h', hget', ⟨-, hag⟩, -⟩ := release_call hs
  cases hget.symm.trans hget'
  have hge := hi.published_fresh hlive hag hlen htab fun e he => hpath ▸ hnone e he
  have hb₁ : h.alloc.blocks[k]? = some e₁.block := by
    rwa [Handle.claim, Allocation.claim_table] at htab
  have hheld := hi.books.held_iff.mpr (hi.books.table_held
    (List.mem_map_of_mem (f := Handle.claim) hlive) (List.mem_of_getElem? htab))
  have hdata := hh h hget hok k (List.getElem?_eq_some_iff.mp hb₁).1 hge (hi.bt ▸ hlen) _ hb₁
  rw [Inv.readBlock_eq hi.books.inv hk.bytes.noWrap hheld] at hdata
  rw [hl.index _ hblock (hb ▸ hheld), ← hb, ← hp, hpath]
  exact (Option.some.inj hdata).trans (by rw [hi.bt])

/-! ## Writes -/

/-- What a write of `bs` at `off` leaves of a block. -/
def splice (old : List UInt8) (off : Nat) (bs : List UInt8) : List UInt8 :=
  old.take off ++ bs ++ old.drop (off + bs.length)

/-- A write through a live handle: it is spliced into one fresh block. -/
structure Wrote (s : System) (i n off : Nat) (bs : List UInt8) (s' : System) : Prop where
  wrote : ∃ h b m, s.vars[i]? = some h ∧ h ∈ s.live ∧ h.alloc.freshBlocks[n]? = some b ∧
    s' = { s with mgr := { s.mgr with pool := { s.mgr.pool with mem := m } } } ∧
    (∀ x ≠ b, s.mgr.pool.refcount x ≠ 0 → s'.mgr.pool.contents x = s.mgr.pool.contents x) ∧
    s'.mgr.pool.contents b = splice (s.mgr.pool.contents b) off bs
  safe : s'.mgr.pool.ByteSafe

theorem Sound.wrote (hk : Sound key s) {i n off : Nat} {bs : List UInt8}
    (hs : s.kvNext key (.write i n off bs) = some s') : Wrote s i n off bs s' := by
  have hi := hk.inv
  obtain ⟨h, hget, hs⟩ := Option.bind_eq_some_iff.mp hs
  obtain ⟨b, hb, hs⟩ := Option.bind_eq_some_iff.mp hs
  split at hs
  swap
  · cases hs
  rename_i hguard
  have hlive := mem_live hget hguard.1
  have hf : b ∈ h.alloc.freshBlocks := List.mem_of_getElem? hb
  have hbl : b ∈ h.alloc.blocks := List.mem_of_mem_drop hf
  have hr := hi.books.held_iff.mpr (Books.mem_held_fresh s.mgr.tree
    (List.mem_map_of_mem (f := Handle.claim) hlive) hf)
  -- a fresh block is in the compute tier, so nothing moves it
  have hm : s.mgr.pool.migrating b = false := by
    rw [hi.books.inv.migrating_eq_isSome]
    rcases homed_of_live hi hlive hbl with ⟨_, ht⟩ | ⟨h0, _⟩
    · rw [ht]
      rfl
    · exact absurd (hk.fresh h hlive b hf) h0
  obtain ⟨m, he, hsafe, hoff, hon⟩ := hk.bytes.write hr hm hguard.2
  obtain ⟨p, hp, hs⟩ := Option.bind_eq_some_iff.mp hs
  cases hs
  cases (toOption_eq_some hp).symm.trans he
  exact ⟨⟨h, b, m, hget, hlive, hb, rfl, hoff, hon⟩, hsafe⟩

/-- Bytes are not part of the books. -/
theorem Inv.of_mem (hi : s.Inv key) {m : Arena.Mem TierIndex UInt8}
    (hp : BlockPool.Inv { s.mgr.pool with mem := m }) :
    System.Inv key { s with mgr := { s.mgr with pool := { s.mgr.pool with mem := m } } } :=
  ⟨hi.books.of_refcount hp rfl, hi.settled, hi.bt, hi.handles, hi.serials, hi.serials_lt⟩

theorem Sound.write (hk : Sound key s) {i n off : Nat} {bs : List UInt8}
    (hs : s.kvNext key (.write i n off bs) = some s') : Sound key s' := by
  obtain ⟨⟨h, b, m, -, -, -, rfl, -, -⟩, hsafe⟩ := hk.wrote hs
  exact ⟨hk.inv.of_mem hsafe.inv, hsafe, hk.fresh⟩

/-- **A write leaves the data of the index alone.** -/
theorem KvInv.write (hk : KvInv key kv s) {i n off : Nat} {bs : List UInt8}
    (hs : s.kvNext key (.write i n off bs) = some s') : KvInv key kv s' := by
  have hi := hk.inv
  refine ⟨hk.toSound.write hs, fun e he => ?_⟩
  obtain ⟨⟨h, b, m, -, hlive, hb, rfl, hoff, -⟩, -⟩ := hk.toSound.wrote hs
  have hblock : e.block ∈ blocksOf s.mgr.tree.places := by
    rw [← map_block_entries s.mgr.cfg.blockTokens]
    exact List.mem_map_of_mem he
  have hne : e.block ≠ b := fun e' => (List.nodup_append'.mp hi.books.nodup).2.2 (e' ▸ hblock)
    (List.mem_flatMap.mpr ⟨_, List.mem_map_of_mem (f := Handle.claim) hlive,
      List.mem_of_getElem? hb⟩)
  rw [hoff _ hne (hi.books.held_iff.mpr (Books.mem_held_tree _ hblock))]
  exact hk.cached e he

/-! ## Runs -/

theorem kvStep_eq {op : KvOp} (h : KvStep key kv s op s') :
    s.Honours kv op ∧ s.kvNext key op = some s' := by
  unfold KvStep kvStep? at h
  split at h
  · rename_i hh
    exact ⟨hh, h⟩
  · cases h

theorem KvInv.step (hk : KvInv key kv s) {op : KvOp} (hs : KvStep key kv s op s') :
    KvInv key kv s' := by
  obtain ⟨hh, hs⟩ := kvStep_eq hs
  cases op with
  | call op => exact hk.call hh (step_of_step? hs)
  | write i n off bs => exact hk.write hs

theorem start_sound (h0 : CacheManager.create specs cfg options mem = .ok m₀)
    (hfit : (specs.map (·.numBlocks)).sum < 2 ^ 32)
    (hwrap : ∀ spec ∈ specs, spec.numBlocks * cfg.blockBytes < 2 ^ 64) :
    Sound key (start m₀) := by
  obtain ⟨hp, -⟩ := create_ok h0
  refine ⟨start_inv h0 hfit, ⟨init_inv hp hfit, init_queueInv hp, init_noWrap hp hwrap, ?_, ?_⟩,
    nofun⟩
  · intro id _ i _ b hb
    cases hb
  · obtain ⟨_, states, _, hinit⟩ := init_ok hp
    intro j hj
    have hj : j ∈ m₀.pool.flights := hj
    rw [hinit] at hj
    cases hj

theorem start_kvInv (h0 : CacheManager.create specs cfg options mem = .ok m₀)
    (hfit : (specs.map (·.numBlocks)).sum < 2 ^ 32)
    (hwrap : ∀ spec ∈ specs, spec.numBlocks * cfg.blockBytes < 2 ^ 64) :
    KvInv key kv (start m₀) := by
  obtain ⟨-, -, ht, -⟩ := create_ok h0
  refine ⟨start_sound h0 hfit hwrap, fun e he => ?_⟩
  have he : e ∈ entries _ m₀.tree.places := he
  rw [ht] at he
  cases he

/-- **A hit is as good as a computation.**  A program that has computed the data of what it
publishes finds in every cached block of every live table the data of the tokens up to and including
that block: the data it would have computed itself. -/
theorem cached_data (h0 : CacheManager.create specs cfg options mem = .ok m₀)
    (hfit : (specs.map (·.numBlocks)).sum < 2 ^ 32)
    (hwrap : ∀ spec ∈ specs, spec.numBlocks * cfg.blockBytes < 2 ^ 64) {tr : List KvOp}
    (hrun : Run (KvStep key kv) (start m₀) tr s) (hh : h ∈ s.live) {i : Nat}
    (hi : i < h.alloc.cachedBlocks) : ∃ b, h.alloc.blocks[i]? = some b ∧
      s.mgr.pool.readBlock b = .ok (kv (h.tokens.take ((i + 1) * s.mgr.cfg.blockTokens))) := by
  have hk : KvInv key kv s := hrun.invariant (fun _ _ _ hk hs => hk.step hs)
    (start_kvInv h0 hfit hwrap)
  have hok := hk.inv.handles h hh
  have hc := List.mem_map_of_mem (f := Handle.claim) hh
  have hlt : i < h.alloc.blocks.length := Nat.lt_of_lt_of_le hi hok.le_blocks
  refine ⟨h.alloc.blocks[i], List.getElem?_eq_getElem hlt, ?_⟩
  have hb : h.claim.cached[i]? = some h.alloc.blocks[i] := by
    show (h.alloc.blocks.take h.alloc.cachedBlocks)[i]? = _
    rw [List.getElem?_take_of_lt hi]
    exact List.getElem?_eq_getElem hlt
  rcases hk.inv.books.pins _ hc with ⟨_, _, h0⟩ | ⟨node, _, _, hcov⟩
  · rw [h0] at hb
    cases hb
  obtain ⟨l, he⟩ := covers_entry hk.inv.books.wf hcov hb
  have hdata := hk.cached _ (hk.inv.bt ▸ he)
  have hr := hk.inv.books.held_iff.mpr
    (hk.inv.books.table_held hc (List.mem_append_left _ (List.mem_of_getElem? hb)))
  rw [hk.inv.books.inv.readBlock_eq hk.bytes.noWrap hr]
  refine congrArg _ (hdata.trans (congrArg kv ?_))
  have hle : (i + 1) * s.mgr.cfg.blockTokens ≤ h.alloc.cachedTokens := by
    rw [hok.cachedTokens]
    exact Nat.mul_le_mul_right _ hi
  show (h.tokens.take h.alloc.cachedTokens).take _ = _
  rw [List.take_take, Nat.min_eq_left hle]

/-- Data of four bytes that depends on every token. -/
def toyData (tokens : List TokenId) : List UInt8 :=
  List.replicate 4 (tokens.foldl (fun acc token => 31 * acc + token.toUInt32.toUInt8) 7)

/-- A computed block is demoted under pressure and hit again, its promotion under way. -/
def spilledHit : List KvOp :=
  [.call (.acquire [1, 2]), .write 0 0 0 (toyData [1, 2]), .call (.release 0 [1, 2] []),
    .call (.acquire [3, 4, 5, 6]), .call (.destroy 1), .call (.acquire [1, 2])]

theorem cached_data_spilled : ∃ m₀ s, CacheManager.create tightSpecs twoTierConfig
    { asyncPromotion := true } (fun _ _ => 0) = .ok m₀ ∧
    Run (KvStep blockKey toyData) (start m₀) spilledHit s ∧ s.mgr.pool.location 0 = ⟨1, 0⟩ ∧
    s.mgr.pool.readBlock 0 = .ok (toyData [1, 2]) := by
  have hs : ((CacheManager.create tightSpecs twoTierConfig { asyncPromotion := true }
      (fun _ _ => 0)).toOption.bind fun m₀ =>
        (exec (kvStep? blockKey toyData) (start m₀) spilledHit).bind fun s =>
          s.vars[2]?.map fun h => (s.mgr.pool.location 0, s.mgr.cfg.blockTokens, h)) =
      some (⟨1, 0⟩, 2, ⟨⟨true, 2, 1, [0], some 1, true⟩, [1, 2], 2⟩) := by
    decide +kernel
  obtain ⟨m₀, h0, hm⟩ := Option.bind_eq_some_iff.mp hs
  obtain ⟨s, hx, hv⟩ := Option.bind_eq_some_iff.mp hm
  obtain ⟨h, hget, he⟩ := Option.map_eq_some_iff.mp hv
  simp only [Prod.mk.injEq] at he
  obtain ⟨hloc, hbt, rfl⟩ := he
  have hc := toOption_eq_some h0
  have hrun : Run (KvStep blockKey toyData) (start m₀) spilledHit s := run_of_exec hx
  obtain ⟨b, hb, hread⟩ := cached_data hc (by decide) (by decide) hrun (mem_live hget rfl)
    (show 0 < 1 by decide)
  cases hb
  rw [hbt] at hread
  exact ⟨m₀, s, hc, hrun, hloc, hread⟩

end System

/-! ## What a handle reads -/

/-- A program, with what was put into each table: by serial number and table entry. -/
structure Reader where
  sys : System
  image : Nat → Nat → List UInt8

namespace Reader

/-- The bytes of a table's blocks. -/
def tableImage (p : BlockPool) (blocks : List BlockId) (n : Nat) : List UInt8 :=
  (blocks[n]?.map p.contents).getD []

/-- A table starts out with what is in its blocks; a write is spliced into the entry it is for. -/
def note (g : Reader) (s' : System) : KvOp → Nat → Nat → List UInt8
  | .call (.acquire _) => Function.update g.image g.sys.nextSerial
      (tableImage s'.mgr.pool ((s'.vars.getLast?.map (·.alloc.blocks)).getD []))
  | .call _ => g.image
  | .write i n off bs =>
    match g.sys.vars[i]? with
    | none => g.image
    | some h =>
      let entry := h.alloc.cachedBlocks + n
      Function.update g.image h.serial (Function.update (g.image h.serial) entry
        (System.splice (g.image h.serial entry) off bs))

def next (key : List TokenId → UInt64) (g : Reader) (op : KvOp) : Option Reader := do
  let sys ← g.sys.kvNext key op
  return { sys, image := g.note sys op }

def Step (key : List TokenId → UInt64) (g : Reader) (op : KvOp) (g' : Reader) : Prop :=
  g.next key op = some g'

/-- Every live table holds its image. -/
structure Faithful (key : List TokenId → UInt64) (g : Reader) : Prop where
  sound : System.Sound key g.sys
  reads : ∀ h ∈ g.sys.live, ∀ n b, h.alloc.blocks[n]? = some b →
    g.sys.mgr.pool.contents b = g.image h.serial n

variable {key : List TokenId → UInt64} {g g' : Reader} {s' : System}

theorem Faithful.call (hg : g.Faithful key) {op : Op} (hs : System.Step key g.sys op s') :
    Faithful key ⟨s', g.note s' (.call op)⟩ := by
  have hi := hg.sound.inv
  refine ⟨hg.sound.call hs, fun h hh n b hb => ?_⟩
  show s'.mgr.pool.contents b = g.note s' (.call op) h.serial n
  rcases hi.live_cases hs hh with ⟨hl, -⟩ | ⟨tokens, al, m', rfl, -, he, hok, rfl, rfl⟩
  · have hsame := (hi.leaves hg.sound.bytes hs).live h hl hh b (List.mem_of_getElem? hb)
    rw [hsame, hg.reads h hl n b hb]
    cases op with
    | acquire tokens =>
      have hne : h.serial ≠ g.sys.nextSerial := Nat.ne_of_lt (hi.serials_lt h hl)
      exact (congrFun (Function.update_of_ne hne _ _) n).symm
    | _ => rfl
  · obtain ⟨-, ⟨al₁, m₁⟩, he₁, rfl⟩ := System.acquire_call hs
    cases he.symm.trans he₁
    have hb : al.blocks[n]? = some b := hb
    simp only [note, Function.update_self, List.getLast?_concat, Option.map_some, Option.getD_some,
      tableImage, hb]

theorem Faithful.write (hg : g.Faithful key) {i n off : Nat} {bs : List UInt8}
    (hs : g.sys.kvNext key (.write i n off bs) = some s') :
    Faithful key ⟨s', g.note s' (.write i n off bs)⟩ := by
  have hi := hg.sound.inv
  obtain ⟨⟨h, b, m, hget, hlive, hb, rfl, hoff, hon⟩, -⟩ := hg.sound.wrote hs
  refine ⟨hg.sound.write hs, fun h' hh' n' b' hb' => ?_⟩
  have hf : b ∈ h.alloc.freshBlocks := List.mem_of_getElem? hb
  have hentry : h.alloc.blocks[h.alloc.cachedBlocks + n]? = some b := by
    rw [← hb]
    exact List.getElem?_drop.symm
  have hold := hg.reads h' hh' n' b' hb'
  have hc' := List.mem_map_of_mem (f := Handle.claim) hh'
  have htab' : b' ∈ h'.claim.table := by
    rw [Handle.claim, Allocation.claim_table]
    exact List.mem_of_getElem? hb'
  simp only [note, hget]
  by_cases hbb : b' = b
  · -- the block has one owner and one place in its table
    subst hbb
    have hsame : h' = h := by
      by_contra hne
      rcases List.mem_append.mp htab' with hm | hm
      · exact (List.nodup_append'.mp hi.books.nodup).2.2 (hi.books.cached_tree hc' hm)
          (List.mem_flatMap.mpr ⟨_, List.mem_map_of_mem (f := Handle.claim) hlive, hf⟩)
      · exact hi.fresh_disjoint hh' hlive hne hm hf
    subst hsame
    have hnd := hi.books.table_nodup hc'
    rw [Handle.claim, Allocation.claim_table] at hnd
    have hn' : n' = h'.alloc.cachedBlocks + n := by
      obtain ⟨h1, e1⟩ := List.getElem?_eq_some_iff.mp hb'
      obtain ⟨h2, e2⟩ := List.getElem?_eq_some_iff.mp hentry
      exact (@List.Nodup.getElem_inj_iff _ _ hnd _ h1 _ h2).mp (e1.trans e2.symm)
    subst hn'
    rw [Function.update_self, Function.update_self]
    exact hon.trans (congrArg (System.splice · off bs) hold)
  · have hr := hi.books.held_iff.mpr (hi.books.table_held hc' htab')
    refine (hoff b' hbb hr).trans (hold.trans ?_)
    by_cases hser : h'.serial = h.serial
    · have hsame := System.serial_inj hi hlive hh' hser
      subst hsame
      have hne : n' ≠ h'.alloc.cachedBlocks + n := by
        rintro rfl
        exact hbb (Option.some.inj (hb'.symm.trans hentry))
      rw [Function.update_self, Function.update_of_ne hne]
    · rw [Function.update_of_ne hser]

theorem Faithful.next (hg : g.Faithful key) {op : KvOp} (hs : Step key g op g') :
    g'.Faithful key := by
  obtain ⟨s', hk, he⟩ := Option.bind_eq_some_iff.mp hs
  cases he
  cases op with
  | call op => exact hg.call (System.step_of_step? hk)
  | write i n off bs => exact hg.write hk

/-- **A handle reads what was in its table when it was acquired, and its own writes**: no other
handle, no call and no worker changes a byte of it before it is given back. -/
theorem reads_own_writes {m₀ : CacheManager} {specs : List TierSpec} {cfg : CacheConfig}
    {options : Options} {mem : Arena.Mem TierIndex UInt8} {tr : List KvOp}
    (h0 : CacheManager.create specs cfg options mem = .ok m₀)
    (hfit : (specs.map (·.numBlocks)).sum < 2 ^ 32)
    (hwrap : ∀ spec ∈ specs, spec.numBlocks * cfg.blockBytes < 2 ^ 64)
    (hrun : Run (Step key) ⟨System.start m₀, fun _ _ => []⟩ tr g) :
    ∀ h ∈ g.sys.live, ∀ n < h.alloc.blocks.length, ∃ b, h.alloc.blocks[n]? = some b ∧
      g.sys.mgr.pool.readBlock b = .ok (g.image h.serial n) := by
  have hg : g.Faithful key := hrun.invariant (fun _ _ _ hg hs => hg.next hs)
    ⟨System.start_sound h0 hfit hwrap, nofun⟩
  have hi := hg.sound.inv
  intro h hh n hn
  have hb : h.alloc.blocks[n]? = some h.alloc.blocks[n] := List.getElem?_eq_getElem hn
  refine ⟨_, hb, ?_⟩
  have hr := hi.books.held_iff.mpr (hi.books.table_held (c := h.claim)
    (b := h.alloc.blocks[n]) (List.mem_map_of_mem hh) (by
      rw [Handle.claim, Allocation.claim_table]
      exact List.mem_of_getElem? hb))
  rw [hi.books.inv.readBlock_eq hg.sound.bytes.noWrap hr]
  exact congrArg _ (hg.reads h hh n _ hb)

/-- Two handles share a cached block; both write past it, and one of them is dropped. -/
def sharedPrefix : List KvOp :=
  [.call (.acquire [1, 2]), .write 0 0 0 [9, 9, 9, 9], .call (.release 0 [1, 2] []),
    .call (.acquire [1, 2, 3]), .call (.acquire [1, 2, 4]), .write 1 0 1 [5], .write 2 0 1 [6],
    .call (.destroy 2)]

theorem reads_own_writes_shared : ∃ m₀ g, CacheManager.create System.twoTierSpecs System.twoTierConfig {}
    (fun _ _ => 0) = .ok m₀ ∧
    Run (Step blockKey) ⟨System.start m₀, fun _ _ => []⟩ sharedPrefix g ∧
    g.sys.mgr.pool.readBlock 1 = .ok [0, 5, 0, 0] := by
  have hs : ((CacheManager.create System.twoTierSpecs System.twoTierConfig {} (fun _ _ => 0)).toOption.bind
      fun m₀ => (exec (next blockKey) ⟨System.start m₀, fun _ _ => []⟩ sharedPrefix).bind fun g =>
        g.sys.vars[1]?.map fun h => (g.image 1 1, h)) =
      some ([0, 5, 0, 0], ⟨⟨true, 2, 1, [0, 1], some 1, true⟩, [1, 2, 3], 1⟩) := by
    decide +kernel
  obtain ⟨m₀, h0, hm⟩ := Option.bind_eq_some_iff.mp hs
  obtain ⟨g, hx, hv⟩ := Option.bind_eq_some_iff.mp hm
  obtain ⟨h, hget, he⟩ := Option.map_eq_some_iff.mp hv
  simp only [Prod.mk.injEq] at he
  obtain ⟨himage, rfl⟩ := he
  have hc := toOption_eq_some h0
  have hrun : Run (Step blockKey) ⟨System.start m₀, fun _ _ => []⟩ sharedPrefix g := run_of_exec hx
  obtain ⟨b, hb, hread⟩ := reads_own_writes hc (by decide) (by decide) hrun _
    (System.mem_live hget rfl) 1 (by decide)
  cases hb
  exact ⟨m₀, g, hc, hrun, hread.trans (congrArg _ himage)⟩

end Reader

end KvsLab
