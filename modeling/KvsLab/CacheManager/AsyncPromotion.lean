import KvsLab.CacheManager.Twins
import KvsLab.CacheManager.Readiness

/-!
# Asynchronous promotion refines synchronous promotion

Two managers over the same host-addressable tiers, without background demotion, run the same calls;
the first promotes on the workers and waits for them after each acquire.

* `Paired` — managers that agree on all but how they promote, with related pools.
* `InFlight` — after an acquire the synchronous pool is the landed view of the other; `Launched`
  before the workers have noticed.
* `acquire_paired`, `release_paired`, `destruct_paired` — the calls run in lockstep.
* `AsyncStep` / `SyncStep` — a call on either manager, worker actions included.
* `async_refines_sync` — **after every call both have the same handles, tree, references, locations,
  free lists, bytes and statistics.**
-/

namespace KvsLab

open Lockstep RadixTree BlockPool Transition

namespace BlockPool

variable {p q : BlockPool} {id : BlockId}

/-- Every tier is host addressable. -/
def Hosted (p : BlockPool) : Prop := ∀ t < p.numTiers, (p.tiers t).hostAddressable = true

theorem Hosted.of_shape {p' : BlockPool} (h : p.Hosted) (hs : SameShape p p') : p'.Hosted := by
  intro t ht
  rw [hs.tierHost]
  exact h t (hs.numTiers ▸ ht)

theorem init_hosted {cfg : CacheConfig} {specs : List TierSpec} {mem : Arena.Mem TierIndex UInt8}
    (h : init cfg specs mem = .ok p)
    (hhost : ∀ spec ∈ specs, ∀ tier, spec.tier = some tier → tier.hostAddressable = true) :
    p.Hosted := by
  intro t ht
  obtain ⟨spec, hs, hok⟩ := init_tier h ht
  obtain ⟨tier, htier, -, -, hst⟩ := initTier_accepts hok
  rw [hst]
  exact hhost spec hs tier htier

/-- The second pool is the first once its promotions have landed. -/
structure InFlight (p q : BlockPool) : Prop where
  rising : p.Rising
  hosted : p.Hosted
  eq : q = p.landed

/-- So it is, and the workers have not noticed yet. -/
structure Launched (p q : BlockPool) : Prop extends InFlight p q where
  idle : p.workers = fun _ => .idle

/-- The same value, and such pools. -/
def Launches {α : Type} (r r' : α × BlockPool) : Prop := r'.1 = r.1 ∧ Launched r.2 r'.2

theorem Twin.launched (h : Twin p q) (hi : p.Inv) (hw : p.NoWrap) (hh : p.Hosted) : Launched p q :=
  ⟨⟨h.still.rising hi hw, hh, h.eq.trans h.still.landed.symm⟩, h.still.workers⟩

namespace Launched

theorem still (h : Launched p q) : q.Still := by
  rw [h.eq]
  exact ⟨rfl, rfl, rfl, rfl⟩

theorem target_none (h : Launched p q) (hm : p.migrating id = false) : p.target id = none := by
  have hsome : p.migrating id = (p.target id).isSome := h.rising.inv.migrating_eq_isSome
  rw [hm] at hsome
  simpa using hsome.symm

/-! ## Promoting -/

/-- A synchronous promotion on the landed side. -/
theorem migrate (h : Launched p q) (hr : p.refcount id ≠ 0) (hm : p.migrating id = false)
    (hne : (p.location id).tier ≠ 0) :
    q.migrate id 0 =
      match (p.tiers 0).freeSlots with
      | [] => .ok (false, q)
      | slot :: _ => .ok (true, q.moveBlock id ⟨0, slot⟩ (q.location id)) := by
  have hloc : q.location id = p.location id := by rw [h.eq, h.rising.landed_location hm]
  have hlocate : q.locate id = .ok (q.location id) := by
    rw [h.eq]
    exact locate_eq (p := p.landed) (h.rising.inv.lt_of_refcount hr) hr
  have htier : q.tiers 0 = p.tiers 0 := by rw [h.eq, h.rising.landed_tiers_zero]
  have hnum : ¬ q.numTiers ≤ 0 := by
    rw [h.eq]
    exact Nat.not_le_of_lt h.rising.inv.tiers_pos
  unfold BlockPool.migrate
  cases hs : (p.tiers 0).freeSlots with
  | nil =>
    simp only [h.still.cancelMigration, hlocate, bind, Except.bind, if_neg hnum, hloc, if_neg hne,
      htier, hs, pure, Except.pure]
  | cons slot slots =>
    simp only [h.still.cancelMigration, hlocate, bind, Except.bind, if_neg hnum, hloc, if_neg hne,
      htier, hs, pure, Except.pure]

theorem promote (h : Launched p q) (hr : p.refcount id ≠ 0) (hm : p.migrating id = false)
    (hne : (p.location id).tier ≠ 0) :
    Rel Launches (CacheManager.promote true p id) (CacheManager.promote false q id) := by
  have hi := h.rising.inv
  have hcond : ¬ ((p.location id).tier = 0 ∨ p.migrating id = true) := by
    simp [hne, hm]
  have hhost : ((p.tiers (p.location id).tier).hostAddressable && (p.tiers 0).hostAddressable) =
      true := by
    rw [h.hosted _ (hi.loc_tier id hr), h.hosted 0 hi.tiers_pos]
    rfl
  have hasync : p.migrateAsync id 0 = _ := hi.migrateAsync_eq hr hi.tiers_pos
  have hfall := hi.migrate_eq hr hi.tiers_pos (target_none h hm) hne
  rw [if_neg hcond] at hasync
  unfold CacheManager.promote
  rw [if_pos rfl, if_neg Bool.false_ne_true, hasync, h.migrate hr hm hne]
  cases hs : (p.tiers 0).freeSlots with
  | nil =>
    rw [hs] at hfall
    simp only [bind, Except.bind, Bool.not_false, if_true, hfall]
    exact .ok ⟨rfl, h⟩
  | cons slot slots =>
    simp only [hhost, if_true, bind, Except.bind, Bool.not_true, Bool.false_eq_true, if_false]
    have hi' := hi.enqueue hr hi.tiers_pos hne hm hs
    refine .ok ⟨rfl, ⟨h.rising.enqueue hi', h.hosted.of_shape (SameShape.enqueue _ _ _ _), ?_⟩,
      h.idle⟩
    rw [h.eq]
    exact (h.rising.landed_enqueue hm slot).symm

/-- The promotions of a hit. -/
theorem promoteAll : ∀ (ids : List BlockId) {p q : BlockPool}, Launched p q →
    Rel Launches (CacheManager.promoteAll true ids p) (CacheManager.promoteAll false ids q)
  | [], _, _, h => .ok ⟨rfl, h⟩
  | id :: ids, p, q, h => by
    have hbound : ∀ i, q.locate i = if p.numBlocks ≤ i then
        .error (.fatal "access to an out-of-range block" i)
        else if p.refcount i = 0 then .error (.fatal "access to a block that is not allocated" i)
        else .ok (q.location i) := by
      intro i
      rw [h.eq]
      rfl
    unfold CacheManager.promoteAll BlockPool.blockTier
    rw [hbound, h.still.migrating]
    unfold BlockPool.locate
    by_cases hb : p.numBlocks ≤ id
    · rw [if_pos hb, if_pos hb]
      exact .error _
    rw [if_neg hb, if_neg hb]
    by_cases hr : p.refcount id = 0
    · rw [if_pos hr, if_pos hr]
      exact .error _
    rw [if_neg hr, if_neg hr]
    simp only [bind, Except.bind, pure, Except.pure]
    cases hm : p.migrating id with
    | true =>
      -- the block is on its way on one side and has arrived on the other
      have h0 : (q.location id).tier = 0 := by
        rw [h.eq]
        exact h.rising.landed_compute hm
      rw [if_pos (.inr rfl), if_pos (.inl h0)]
      exact promoteAll ids h
    | false =>
      have hloc : q.location id = p.location id := by rw [h.eq, h.rising.landed_location hm]
      rw [hloc]
      by_cases h0 : (p.location id).tier = 0
      · rw [if_pos (.inl h0), if_pos (.inl h0)]
        exact promoteAll ids h
      · have hc : ¬ ((p.location id).tier = 0 ∨ false = true) := by simp [h0]
        rw [if_neg hc, if_neg hc]
        refine (h.promote hr hm h0).bind ?_
        rintro ⟨_, p₁⟩ ⟨moved, q₁⟩ ⟨rfl, h₁⟩
        cases moved with
        | false => exact .error _
        | true =>
          refine (promoteAll ids h₁).bind ?_
          rintro ⟨n, p₂⟩ ⟨_, q₂⟩ ⟨rfl, h₂⟩
          exact .ok ⟨rfl, h₂⟩

/-! ## Allocating -/

theorem allocate (h : Launched p q) : Rel Launches p.allocate q.allocate := by
  have hids : q.freeIds = p.freeIds := by rw [h.eq]; rfl
  have hrefs : q.refcount = p.refcount := by rw [h.eq]; rfl
  have htier : q.tiers 0 = p.tiers 0 := by rw [h.eq, h.rising.landed_tiers_zero]
  unfold BlockPool.allocate
  rw [hids, hrefs, htier]
  cases hi : p.freeIds with
  | nil => exact .ok ⟨rfl, h⟩
  | cons id ids =>
    cases hs : (p.tiers 0).freeSlots with
    | nil => exact .ok ⟨rfl, h⟩
    | cons slot slots =>
      simp only
      by_cases hr : p.refcount id = 0
      · have he : p.allocate = .ok (id, p.takeBlock id slot) := by
          unfold BlockPool.allocate
          rw [hi, hs]
          simp [hr]
        rw [if_neg (not_not.mpr hr), if_neg (not_not.mpr hr)]
        refine .ok ⟨rfl, ⟨h.rising.allocate he rfl, h.hosted.of_shape (SameShape.takeBlock _ _ _),
          ?_⟩, h.idle⟩
        rw [h.eq]
        exact (h.rising.landed_takeBlock hr slot).symm
      · rw [if_pos hr, if_pos hr]
        exact .error _

theorem allocateAll : ∀ (n : Nat) {p q : BlockPool}, Launched p q →
    Rel Launches (CacheManager.allocateAll n p) (CacheManager.allocateAll n q)
  | 0, _, _, h => .ok ⟨rfl, h⟩
  | n + 1, p, q, h => by
    unfold CacheManager.allocateAll
    refine h.allocate.bind ?_
    rintro ⟨id, p₁⟩ ⟨_, q₁⟩ ⟨rfl, h₁⟩
    simp only
    split
    · exact .error _
    · refine (allocateAll n h₁).bind ?_
      rintro ⟨ids, p₂⟩ ⟨_, q₂⟩ ⟨rfl, h₂⟩
      exact .ok ⟨rfl, h₂⟩

end Launched

end BlockPool

/-! ## The calls in lockstep -/

namespace CacheManager

variable {key : List TokenId → UInt64} {cl : List Claim} {m m' : CacheManager}
  {P Q : BlockPool → BlockPool → Prop} {tokens : List TokenId}

/-- Managers without background demotion that agree on everything but their pools and how they
promote: the first does it on the workers, the second does not. -/
structure Paired (P : BlockPool → BlockPool → Prop) (m m' : CacheManager) : Prop where
  async : m.options = ⟨0, true⟩
  eq : m' = { m with pool := m'.pool, options := ⟨0, false⟩ }
  pool : P m.pool m'.pool

/-- The same value, and paired managers. -/
def Pairs (P : BlockPool → BlockPool → Prop) {α : Type} (r r' : α × CacheManager) : Prop :=
  r'.1 = r.1 ∧ Paired P r.2 r'.2

theorem Paired.cases (h : Paired P m m') :
    ∃ q, P m.pool q ∧ m' = { m with pool := q, options := ⟨0, false⟩ } :=
  ⟨m'.pool, h.pool, h.eq⟩

theorem Paired.mono (h : Paired P m m') (hP : P m.pool m'.pool → Q m.pool m'.pool) :
    Paired Q m m' :=
  ⟨h.async, h.eq, hP h.pool⟩

theorem maintain_off (h : m.options.spillWatermark = 0) : m.maintain = .ok m := by
  unfold maintain
  rw [if_pos (.inr h)]

theorem lookup_paired (h : Paired Twin m m') (tokens : List TokenId) :
    Rel (fun r r' => r'.alloc = r.alloc ∧ r'.fresh = r.fresh ∧ r'.demand = r.demand ∧
      Paired Twin r.mgr r'.mgr) (m.lookup key tokens) (m'.lookup key tokens) := by
  obtain ⟨q, hq, rfl⟩ := h.cases
  unfold lookup
  simp only [drain_nil hq.still.jobs, drain_nil hq.still_right.jobs]
  refine (Rel.refl (m.tree.matchPrefix key tokens)).bind ?_
  rintro ⟨found, t₁⟩ _ rfl
  refine (Rel.refl (pin t₁ found.node)).bind ?_
  rintro t₂ _ rfl
  refine (cancelDemotions_twin hq found.blocks).bind ?_
  intro p₁ q₁ h₁
  simp only [countPromotions_twin h₁]
  refine (Rel.refl (countPromotions p₁ found.blocks)).bind ?_
  rintro n _ rfl
  exact .ok ⟨rfl, rfl, rfl, h.async, rfl, h₁⟩

theorem makeRoom_paired (h : Paired Twin m m') (demand : Nat) :
    Rel (Paired Twin) (m.makeRoom demand) (m'.makeRoom demand) := by
  obtain ⟨q, hq, rfl⟩ := h.cases
  have hnum : q.numTiers = m.pool.numTiers := by rw [hq.eq]
  unfold makeRoom
  simp only [hq.numFree, hnum, pick_twin hq]
  split
  · refine (Rel.refl (m.tree.pickDemotionVictims m.pool _ [])).bind ?_
    rintro victims _ rfl
    refine (moveWhile_twin (fun p q id hpq => hpq.migrate id 1) victims hq).bind ?_
    rintro ⟨_, p₁⟩ ⟨n, q₁⟩ ⟨rfl, h₁⟩
    exact .ok ⟨h.async, rfl, h₁⟩
  · exact .ok h

theorem reclaim_paired (demand : Nat) : ∀ (fuel : Nat) {m m' : CacheManager}, Paired Twin m m' →
    Rel (Paired Twin) (reclaim key demand fuel m) (reclaim key demand fuel m') := by
  intro fuel
  induction fuel with
  | zero =>
    intro m m' h
    unfold reclaim
    rw [h.pool.numFree]
    split
    · exact .ok h
    · exact .error _
  | succ fuel ih =>
    intro m m' h
    obtain ⟨q, hq, rfl⟩ := h.cases
    unfold reclaim
    simp only [hq.numFree]
    split
    · exact .ok h
    · refine (evict_twin hq m.tree _).bind ?_
      rintro ⟨_, _, p₁⟩ ⟨n, t, q₁⟩ ⟨rfl, rfl, h₁⟩
      simp only
      split
      · exact .ok ⟨h.async, rfl, h₁⟩
      · exact ih ⟨h.async, rfl, h₁⟩

theorem refuse_paired (h : Paired P m m') (alloc : Allocation) :
    Rel (Pairs P) (m.refuse alloc) (m'.refuse alloc) := by
  obtain ⟨q, hq, rfl⟩ := h.cases
  unfold refuse
  refine (Rel.refl (unpin m.tree alloc.pinned)).bind ?_
  rintro t _ rfl
  exact .ok ⟨rfl, h.async, rfl, hq⟩

theorem serve_paired (h : Paired Launched m m') (alloc : Allocation) (fresh : Nat)
    (tokens : List TokenId) :
    Rel (Pairs Launched) (m.serve alloc fresh tokens) (m'.serve alloc fresh tokens) := by
  obtain ⟨q, hq, rfl⟩ := h.cases
  unfold serve
  simp only [h.async]
  refine (Launched.promoteAll alloc.blocks hq).bind ?_
  rintro ⟨_, p₁⟩ ⟨n, q₁⟩ ⟨rfl, h₁⟩
  refine (Launched.allocateAll fresh h₁).bind ?_
  rintro ⟨_, p₂⟩ ⟨ids, q₂⟩ ⟨rfl, h₂⟩
  dsimp only
  rw [maintain_off rfl, maintain_off rfl]
  exact .ok ⟨rfl, rfl, rfl, h₂⟩

/-- An acquire on both sides. -/
theorem acquire_paired (h : Paired Twin m m') (hb : Books key cl m.tree m.pool)
    (hs : Settled cl m.pool) (hw : m.pool.NoWrap) (hh : m.pool.Hosted) (tokens : List TokenId) :
    Rel (Pairs Launched) (m.acquire key tokens) (m'.acquire key tokens) := by
  have hland : ∀ {n n' : CacheManager}, Paired Twin n n' → n.pool.Inv → SameShape m.pool n.pool →
      Paired Launched n n' :=
    fun hn hi hsh => hn.mono fun ht => ht.launched hi (hw.of_shape hsh) (hh.of_shape hsh)
  by_cases ht : tokens = []
  · have hin := hland h hb.inv (.refl _)
    obtain ⟨q, hq, rfl⟩ := hin.cases
    unfold acquire
    rw [if_pos ht, if_pos ht]
    exact .ok ⟨rfl, h.async, rfl, hq⟩
  · obtain ⟨a⟩ := attempt hb tokens
    obtain ⟨r', hl', hal, hfr, hde, h₁⟩ := (lookup_paired h tokens).of_ok a.lookup_eq
    obtain ⟨m₁, hm₁, h₂⟩ := (makeRoom_paired h₁ a.request.demand).of_ok a.makeRoom_eq
    have htree : m₁.tree = a.demoted.tree := by rw [h₂.eq]
    obtain ⟨m₂, hm₂, h₃⟩ := (reclaim_paired a.request.demand _ h₂).of_ok a.reclaim_eq
    have hin := hland h₃ a.books.inv (a.carried hb hs).shape
    have hacq : m'.acquire key tokens =
        if m₂.pool.numFree < a.request.demand then m₂.refuse a.request.alloc
        else m₂.serve a.request.alloc a.request.fresh tokens := by
      unfold acquire
      rw [if_neg ht]
      simp only [hl', hal, hfr, hde, hm₁, htree, hm₂, bind, Except.bind]
    rw [hacq, a.acquire_eq ht, h₃.pool.numFree]
    split
    · exact refuse_paired hin _
    · exact serve_paired hin _ _ _

/-- A release on both sides. -/
theorem release_paired (h : Paired Twin m m') (tokens : List TokenId) (alloc : Allocation)
    (ws ws' : List (WorkerId × WorkerAct)) :
    Rel (Pairs Twin) (m.release key tokens alloc ws) (m'.release key tokens alloc ws') := by
  obtain ⟨q, hq, rfl⟩ := h.cases
  unfold release
  split
  · exact .ok ⟨rfl, h⟩
  · have hgive : Rel (Pairs Twin) (m.giveBack key tokens alloc)
        (giveBack key { m with pool := q, options := ⟨0, false⟩ } tokens alloc) := by
      unfold giveBack
      refine (insert_twin hq m.tree tokens alloc.blocks).bind ?_
      rintro ⟨_, _, p₁⟩ ⟨n, t, q₁⟩ ⟨rfl, rfl, h₁⟩
      refine (dropRefs_twin alloc.freshBlocks h₁).bind ?_
      intro p₂ q₂ h₂
      refine (Rel.refl (unpin t alloc.pinned)).bind ?_
      rintro t' _ rfl
      exact .ok ⟨rfl, h.async, rfl, h₂⟩
    refine hgive.bind ?_
    rintro ⟨_, n⟩ ⟨a, n'⟩ ⟨rfl, hn⟩
    have hn : Paired Twin n n' := hn
    obtain ⟨q₁, h₁, rfl⟩ := hn.cases
    simp only [h₁.still.work, h₁.still_right.work, drain_nil h₁.still.jobs,
      drain_nil h₁.still_right.jobs]
    have hoff : n.options.spillWatermark = 0 := by rw [hn.async]
    rw [maintain_off hoff, maintain_off rfl]
    exact .ok ⟨rfl, hn⟩

/-- A handle is dropped on both sides. -/
theorem destruct_paired (h : Paired Twin m m') (alloc : Allocation) :
    Rel (Pairs Twin) (m.destruct alloc) (m'.destruct alloc) := by
  obtain ⟨q, hq, rfl⟩ := h.cases
  unfold destruct abandon
  split
  · refine (dropRefs_twin alloc.freshBlocks hq).bind ?_
    intro p₁ q₁ h₁
    refine (Rel.refl (unpin m.tree alloc.pinned)).bind ?_
    rintro t _ rfl
    exact .ok ⟨rfl, h.async, rfl, h₁⟩
  · exact .ok ⟨rfl, h⟩

end CacheManager

/-! ## Runs -/

/-- One call of the program: an acquire, a release, the end of a handle's life, or a write of its
owner into a block. -/
inductive Call where
  | acquire (tokens : List TokenId)
  | release (i : Nat) (tokens : List TokenId)
  | drop (i : Nat)
  | write (id : BlockId) (off : Nat) (bs : List UInt8)
  deriving DecidableEq, Repr

namespace System

open CacheManager

variable {key : List TokenId → UInt64} {s s' s₁ t : System} {mA mS : CacheManager}
  {P : BlockPool → BlockPool → Prop} {specs : List TierSpec} {cfg : CacheConfig}
  {mem : Arena.Mem TierIndex UInt8} {cs : List Call}

/-- An owner writes `bs` at offset `off` of block `id`. -/
def store (s : System) (id : BlockId) (off : Nat) (bs : List UInt8) : Option System := do
  let loc ← (s.mgr.pool.locate id).toOption
  if off + bs.length ≤ s.mgr.pool.blockBytes then
    let addr := s.mgr.pool.slotAddr loc
    return { s with mgr := { s.mgr with pool := { s.mgr.pool with
      mem := Arena.write s.mgr.pool.mem (addr.1, addr.2 + off) bs } } }
  else none

/-- A call on the asynchronous manager.  Workers act at any moment, and `wait_for_migrations`
follows every acquire. -/
inductive AsyncStep (key : List TokenId → UInt64) : System → Call → System → Prop where
  | work {s s₁ s' : System} {c : Call} (w : WorkerId) (act : WorkerAct) :
      Step key s (.worker w act) s₁ → AsyncStep key s₁ c s' → AsyncStep key s c s'
  | acquire {s s₁ s₂ s' : System} {tokens : List TokenId} (ws : List (WorkerId × WorkerAct)) :
      Step key s (.acquire tokens) s₁ →
      Run (Step key) s₁ (ws.map fun a => .worker a.1 a.2) s₂ → Step key s₂ .wait s' →
      AsyncStep key s (.acquire tokens) s'
  | release {s s' : System} {i : Nat} {tokens : List TokenId} (ws : List (WorkerId × WorkerAct)) :
      Step key s (.release i tokens ws) s' → AsyncStep key s (.release i tokens) s'
  | drop {s s' : System} {i : Nat} : Step key s (.destroy i) s' → AsyncStep key s (.drop i) s'
  | write {s s' : System} {id : BlockId} {off : Nat} {bs : List UInt8} :
      s.store id off bs = some s' → AsyncStep key s (.write id off bs) s'

/-- A call on the synchronous manager; `none` when it cannot be made. -/
def syncNext (key : List TokenId → UInt64) (s : System) : Call → Option System
  | .acquire tokens => s.step? key (.acquire tokens)
  | .release i tokens => s.step? key (.release i tokens [])
  | .drop i => s.step? key (.destroy i)
  | .write id off bs => s.store id off bs

def SyncStep (key : List TokenId → UInt64) (s : System) (c : Call) (s' : System) : Prop :=
  s.syncNext key c = some s'

theorem step?_eq_some {op : Op} (h : Step key s op s') : s.step? key op = some s' := by
  unfold step?
  rw [h]
  rfl

/-- What both managers have in common after a call. -/
structure Agree (s s' : System) : Prop where
  handles : s'.vars = s.vars
  tree : s'.mgr.tree = s.mgr.tree
  stats : s'.mgr.stats = s.mgr.stats
  refcount : s'.mgr.pool.refcount = s.mgr.pool.refcount
  location : s'.mgr.pool.location = s.mgr.pool.location
  freeSlots : ∀ t, (s'.mgr.pool.tiers t).freeSlots = (s.mgr.pool.tiers t).freeSlots
  freeIds : s'.mgr.pool.freeIds = s.mgr.pool.freeIds
  bytes : ∀ id, s.mgr.pool.refcount id ≠ 0 → ∀ i < s.mgr.pool.blockBytes,
    s'.mgr.pool.byteAt (s'.mgr.pool.location id) i = s.mgr.pool.byteAt (s.mgr.pool.location id) i

/-! ## The simulation -/

/-- A reachable asynchronous system, and a synchronous one beside it. -/
structure Beside (key : List TokenId → UInt64) (P : BlockPool → BlockPool → Prop) (s t : System) :
    Prop where
  inv : s.Inv key
  noWrap : s.mgr.pool.NoWrap
  hosted : s.mgr.pool.Hosted
  eq : t = { s with mgr := t.mgr }
  mgr : Paired P s.mgr t.mgr

theorem Beside.cases (h : Beside key P s t) : ∃ m, Paired P s.mgr m ∧ t = { s with mgr := m } :=
  ⟨t.mgr, h.mgr, h.eq⟩

/-- A step of the asynchronous system that the synchronous one answers. -/
theorem Beside.step {Q : BlockPool → BlockPool → Prop} {t' : System} {op : Op}
    (h : Beside key P s t) (hs : Step key s op s') (heq : t' = { s' with mgr := t'.mgr })
    (hm : Paired Q s'.mgr t'.mgr) : Beside key Q s' t' := by
  obtain ⟨hi, hev⟩ := h.inv.step hs
  obtain ⟨_, _, _, _, _, hc, _⟩ := hev.handles
  exact ⟨hi, h.noWrap.of_shape hc.shape, h.hosted.of_shape hc.shape, heq, hm⟩

theorem Beside.acquire (h : Beside key Twin s t) {tokens : List TokenId}
    (hs : Step key s (.acquire tokens) s') :
    ∃ t', Step key t (.acquire tokens) t' ∧ Beside key Launched s' t' := by
  obtain ⟨m, hm, rfl⟩ := h.cases
  obtain ⟨hst, ⟨a, m₁⟩, ha, hs'⟩ := acquire_call hs
  obtain ⟨⟨a', m₂⟩, ha', he, hp⟩ :=
    (acquire_paired hm h.inv.books h.inv.settled h.noWrap h.hosted tokens).of_ok ha
  cases he
  refine ⟨{ mgr := m₂, vars := s.vars ++ [⟨a, tokens, s.nextSerial⟩]
            nextSerial := s.nextSerial + 1 }, ?_, h.step hs ?_ ?_⟩
  · simp only [Step, next, if_pos hst, ha', bind, Except.bind]
    rfl
  · rw [hs']
  · rw [hs']
    exact hp

theorem Beside.inFlight (h : Beside key Launched s t) : Beside key InFlight s t :=
  ⟨h.inv, h.noWrap, h.hosted, h.eq, h.mgr.mono Launched.toInFlight⟩

theorem Beside.worker (h : Beside key InFlight s t) {w : WorkerId} {act : WorkerAct}
    (hs : Step key s (.worker w act) s') : Beside key InFlight s' t := by
  obtain ⟨m, hm, rfl⟩ := h.cases
  obtain ⟨p, hp, hs'⟩ := Option.bind_eq_some_iff.mp hs
  cases hs'
  obtain ⟨hr, hl⟩ := hm.pool.rising.workerStep hp
  refine h.step hs rfl ⟨hm.async, hm.eq, hr, hm.pool.hosted.of_shape ?_, ?_⟩
  · exact (SameBooks.workerStep hp).shape
  · rw [hm.pool.eq, ← hl]

theorem Beside.workers (h : Beside key InFlight s t) {ws : List (WorkerId × WorkerAct)}
    (hr : Run (Step key) s (ws.map fun a => .worker a.1 a.2) s') : Beside key InFlight s' t := by
  have hmem : ∀ op ∈ ws.map fun a => Op.worker a.1 a.2, ∃ w act, op = .worker w act := by
    intro op hop
    obtain ⟨a, -, rfl⟩ := List.mem_map.mp hop
    exact ⟨a.1, a.2, rfl⟩
  generalize (ws.map fun a => Op.worker a.1 a.2) = tr at hr hmem
  induction hr with
  | nil => exact h
  | snoc _ hl ih =>
    obtain ⟨w, act, rfl⟩ := hmem _ (List.mem_append_right _ List.mem_cons_self)
    exact (ih fun op hop => hmem op (List.mem_append_left _ hop)).worker hl

theorem Beside.wait (h : Beside key InFlight s t) (hs : Step key s .wait s') :
    Beside key Twin s' t := by
  obtain ⟨m, hm, rfl⟩ := h.cases
  obtain ⟨p, hp, hs'⟩ := Option.bind_eq_some_iff.mp hs
  cases hs'
  obtain ⟨hst, hl⟩ := hm.pool.rising.waited hp
  refine h.step hs rfl ⟨hm.async, hm.eq, hst, ?_⟩
  rw [hm.pool.eq, ← hl]
  exact hst.landed

theorem Beside.release (h : Beside key Twin s t) {i : Nat} {tokens : List TokenId}
    {ws : List (WorkerId × WorkerAct)} (hs : Step key s (.release i tokens ws) s') :
    ∃ t', Step key t (.release i tokens []) t' ∧ Beside key Twin s' t' := by
  obtain ⟨m, hm, rfl⟩ := h.cases
  obtain ⟨v, hv, hs₁⟩ := Option.bind_eq_some_iff.mp hs
  by_cases hag : Storable tokens ∧ v.Agrees tokens
  · rw [if_pos hag] at hs₁
    obtain ⟨⟨a, m₁⟩, ha, hs'⟩ := call_ok hs₁
    obtain ⟨⟨a', m₂⟩, ha', he, hp⟩ := (release_paired hm tokens v.alloc ws []).of_ok ha
    cases he
    refine ⟨{ s with mgr := m₂, vars := s.vars.set i { v with alloc := a } }, ?_, h.step hs ?_ ?_⟩
    · simp only [Step, next, hv, bind, Option.bind, if_pos hag, ha', Except.bind]
      rfl
    · rw [hs']
    · rw [hs']
      exact hp
  · rw [if_neg hag] at hs₁
    cases hs₁

theorem Beside.destroy (h : Beside key Twin s t) {i : Nat} (hs : Step key s (.destroy i) s') :
    ∃ t', Step key t (.destroy i) t' ∧ Beside key Twin s' t' := by
  obtain ⟨m, hm, rfl⟩ := h.cases
  obtain ⟨v, hv, hs₁⟩ := Option.bind_eq_some_iff.mp hs
  obtain ⟨⟨a, m₁⟩, ha, hs'⟩ := call_ok hs₁
  obtain ⟨⟨a', m₂⟩, ha', he, hp⟩ := (destruct_paired hm v.alloc).of_ok ha
  cases he
  refine ⟨{ s with mgr := m₂, vars := s.vars.set i { v with alloc := a } }, ?_, h.step hs ?_ ?_⟩
  · simp only [Step, next, hv, bind, Option.bind, ha', Except.bind]
    rfl
  · rw [hs']
  · rw [hs']
    exact hp

theorem Beside.store (h : Beside key Twin s t) {id : BlockId} {off : Nat} {bs : List UInt8}
    (hs : s.store id off bs = some s') :
    ∃ t', t.store id off bs = some t' ∧ Beside key Twin s' t' := by
  obtain ⟨m, hm, rfl⟩ := h.cases
  obtain ⟨q, hq, rfl⟩ := hm.cases
  obtain ⟨loc, hloc, hs₁⟩ := Option.bind_eq_some_iff.mp hs
  by_cases hlen : off + bs.length ≤ s.mgr.pool.blockBytes
  · rw [if_pos hlen] at hs₁
    cases hs₁
    have ht := hq.map (f := fun p => { p with
      mem := Arena.write p.mem ((p.slotAddr loc).1, (p.slotAddr loc).2 + off) bs })
      rfl rfl rfl rfl rfl
    have hbytes : q.blockBytes = s.mgr.pool.blockBytes := by rw [hq.eq]
    refine ⟨{ s with mgr := { s.mgr with options := ⟨0, false⟩, pool := { q with
      mem := Arena.write q.mem ((q.slotAddr loc).1, (q.slotAddr loc).2 + off) bs } } }, ?_, ?_⟩
    · unfold System.store
      simp only [hq.locate, hloc, bind, Option.bind, hbytes, if_pos hlen]
      rfl
    · have hg := h.inv
      refine ⟨⟨⟨hg.books.inv.setMem _, hg.books.wf, hg.books.refs, hg.books.nodup, hg.books.locks,
        hg.books.pins⟩, hg.settled, hg.bt, hg.handles, hg.serials, hg.serials_lt⟩, h.noWrap,
        h.hosted, rfl, hm.async, rfl, ht⟩
  · rw [if_neg hlen] at hs₁
    cases hs₁

/-- The synchronous manager answers every call of the other. -/
theorem Beside.call {c : Call} (h : Beside key Twin s t) (hs : AsyncStep key s c s') :
    ∃ t', SyncStep key t c t' ∧ Beside key Twin s' t' := by
  induction hs with
  | work w act hw _ _ =>
    -- nothing is queued between two calls, so no worker can act
    obtain ⟨p, hp, -⟩ := Option.bind_eq_some_iff.mp hw
    rw [h.mgr.pool.still.workerStep] at hp
    cases hp
  | acquire ws ha hr hw =>
    obtain ⟨t', ht, h₁⟩ := h.acquire ha
    exact ⟨t', step?_eq_some ht, (h₁.inFlight.workers hr).wait hw⟩
  | release ws hr =>
    obtain ⟨t', ht, h₁⟩ := h.release hr
    exact ⟨t', step?_eq_some ht, h₁⟩
  | drop hd =>
    obtain ⟨t', ht, h₁⟩ := h.destroy hd
    exact ⟨t', step?_eq_some ht, h₁⟩
  | write hw => exact h.store hw

theorem Beside.agree (h : Beside key Twin s t) : Agree s t := by
  obtain ⟨m, hm, rfl⟩ := h.cases
  obtain ⟨q, hq, rfl⟩ := hm.cases
  obtain ⟨-, rfl⟩ := hq
  exact ⟨rfl, rfl, rfl, rfl, rfl, fun _ => rfl, rfl, fun _ _ _ _ => rfl⟩

/-- The constructor stores the options and does not read them. -/
theorem create_options {options : Options} (h : CacheManager.create specs cfg options mem = .ok mA)
    (options' : Options) : mA.options = options ∧
      CacheManager.create specs cfg options' mem = .ok { mA with options := options' } := by
  unfold CacheManager.create at h ⊢
  cases hp : BlockPool.init cfg specs mem with
  | error e =>
    rw [hp] at h
    cases h
  | ok pool =>
    cases ht : RadixTree.create cfg.blockTokens with
    | error e =>
      rw [hp, ht] at h
      cases h
    | ok tree =>
      rw [hp, ht] at h
      cases h
      exact ⟨rfl, rfl⟩

theorem Beside.start (hA : CacheManager.create specs cfg ⟨0, true⟩ mem = .ok mA)
    (hS : CacheManager.create specs cfg ⟨0, false⟩ mem = .ok mS)
    (hhost : ∀ spec ∈ specs, ∀ tier, spec.tier = some tier → tier.hostAddressable = true)
    (hfit : (specs.map (·.numBlocks)).sum < 2 ^ 32)
    (hwrap : ∀ spec ∈ specs, spec.numBlocks * cfg.blockBytes < 2 ^ 64) :
    Beside key Twin (start mA) (start mS) := by
  obtain ⟨hp, -, -, -⟩ := create_ok hA
  obtain ⟨ha, hS'⟩ := create_options hA ⟨0, false⟩
  cases hS.symm.trans hS'
  refine ⟨start_inv hA hfit, init_noWrap hp hwrap, init_hosted hp hhost, rfl, ha, rfl, ?_⟩
  obtain ⟨_, states, _, hfresh⟩ := init_ok hp
  show Twin mA.pool mA.pool
  rw [hfresh]
  exact ⟨⟨rfl, rfl, rfl, rfl⟩, rfl⟩

/-! ## The asynchronous manager is never stuck -/

theorem run_works {ws : List (WorkerId × WorkerAct)} {p : BlockPool}
    (h : Run Works s.mgr.pool ws p) :
    Run (Step key) s (ws.map fun a => .worker a.1 a.2) { s with mgr := { s.mgr with pool := p } } := by
  induction h with
  | nil => exact Run.nil
  | @snoc tr a p₁ p₂ _ ha ih =>
    rw [List.map_append]
    refine Run.snoc ih ?_
    have ha : p₁.workerStep a.1 a.2 = some p₂ := ha
    simp only [Step, next, bind, Option.bind, ha]
    rfl

/-- A call that can be made on one side can be made on the other. -/
theorem Beside.enabled {op : Op} {r : Except Fault System} (h : Beside key Twin s t)
    (hop : (∃ tokens, op = .acquire tokens) ∨ (∃ i tokens ws, op = .release i tokens ws) ∨
      ∃ i, op = .destroy i) (he : t.next key op = some r) : ∃ s', Step key s op s' := by
  have hen : ∃ r', s.next key op = some r' := by
    obtain ⟨m, -, rfl⟩ := h.cases
    rcases hop with ⟨tokens, rfl⟩ | ⟨i, tokens, ws, rfl⟩ | ⟨i, rfl⟩
    · by_cases hst : Storable tokens
      · simp only [next, if_pos hst]
        exact ⟨_, rfl⟩
      · simp only [next, if_neg hst] at he
        cases he
    · obtain ⟨v, hv, he⟩ := Option.bind_eq_some_iff.mp he
      by_cases hag : Storable tokens ∧ v.Agrees tokens
      · have hv : s.vars[i]? = some v := hv
        simp only [next, hv, bind, Option.bind, if_pos hag]
        exact ⟨_, rfl⟩
      · rw [if_neg hag] at he
        cases he
    · obtain ⟨v, hv, -⟩ := Option.bind_eq_some_iff.mp he
      have hv : s.vars[i]? = some v := hv
      simp only [next, hv, bind, Option.bind]
      exact ⟨_, rfl⟩
  obtain ⟨r', hr⟩ := hen
  obtain ⟨s', rfl, -⟩ := next_spec h.inv hr
  exact ⟨s', hr⟩

theorem Beside.answer {c : Call} {t' : System} (h : Beside key Twin s t)
    (ht : SyncStep key t c t') : ∃ s', AsyncStep key s c s' := by
  cases c with
  | acquire tokens =>
    obtain ⟨s₁, hs⟩ := h.enabled (.inl ⟨tokens, rfl⟩) (step_of_step? ht)
    obtain ⟨_, -, hl⟩ := h.acquire hs
    have hidle : ∀ w, s₁.mgr.pool.workers w = .idle := fun w => by rw [hl.mgr.pool.idle]
    obtain ⟨n, hn⟩ := Nat.exists_eq_add_of_le hl.mgr.pool.rising.bytes.queue.cursor
    obtain ⟨ws, q, p', hr, hw⟩ := hl.mgr.pool.rising.exists_waited n hidle hn
    refine ⟨{ s₁ with mgr := { s₁.mgr with pool := p' } }, .acquire ws hs (run_works hr) ?_⟩
    simp only [Step, next, bind, Option.bind, hw]
    rfl
  | release i tokens =>
    obtain ⟨s₁, hs⟩ := h.enabled (.inr (.inl ⟨i, tokens, [], rfl⟩)) (step_of_step? ht)
    exact ⟨s₁, .release [] hs⟩
  | drop i =>
    obtain ⟨s₁, hs⟩ := h.enabled (.inr (.inr ⟨i, rfl⟩)) (step_of_step? ht)
    exact ⟨s₁, .drop hs⟩
  | write id off bs =>
    obtain ⟨m, hm, rfl⟩ := h.cases
    obtain ⟨q, hq, rfl⟩ := hm.cases
    obtain ⟨loc, hloc, ht⟩ := Option.bind_eq_some_iff.mp ht
    have hbytes : q.blockBytes = s.mgr.pool.blockBytes := by rw [hq.eq]
    by_cases hlen : off + bs.length ≤ q.blockBytes
    · have hloc : (s.mgr.pool.locate id).toOption = some loc := by rw [← hq.locate]; exact hloc
      rw [hbytes] at hlen
      have hs : ∃ s', s.store id off bs = some s' := by
        simp only [System.store, hloc, bind, Option.bind, if_pos hlen]
        exact ⟨_, rfl⟩
      obtain ⟨s', hs⟩ := hs
      exact ⟨s', .write hs⟩
    · rw [if_neg hlen] at ht
      cases ht

/-- **Asynchronous promotion refines synchronous promotion.**  Two managers over the same
host-addressable tiers without background demotion are fed the same calls; one promotes on any
number of workers, under any schedule, and waits for them after each acquire, the other promotes
in place.  What one can be fed, the other can, and after every call both have the same handles,
tree, statistics, references, locations and free lists, and allocated blocks hold the same
bytes. -/
theorem async_refines_sync (hA : CacheManager.create specs cfg ⟨0, true⟩ mem = .ok mA)
    (hS : CacheManager.create specs cfg ⟨0, false⟩ mem = .ok mS)
    (hhost : ∀ spec ∈ specs, ∀ tier, spec.tier = some tier → tier.hostAddressable = true)
    (hfit : (specs.map (·.numBlocks)).sum < 2 ^ 32)
    (hwrap : ∀ spec ∈ specs, spec.numBlocks * cfg.blockBytes < 2 ^ 64) :
    (∀ cs s t, Run (AsyncStep key) (start mA) cs s → Run (SyncStep key) (start mS) cs t →
      Agree s t) ∧
    ∀ cs, (∃ s, Run (AsyncStep key) (start mA) cs s) ↔ ∃ t, Run (SyncStep key) (start mS) cs t := by
  have h0 : Beside key Twin (start mA) (start mS) := Beside.start hA hS hhost hfit hwrap
  have hdet : ∀ s c s' s'', SyncStep key s c s' → SyncStep key s c s'' → s' = s'' :=
    fun _ _ _ _ h h' => Option.some.inj (h.symm.trans h')
  have hforward : ∀ s c s' t, Beside key Twin s t → AsyncStep key s c s' →
      ∃ t', SyncStep key t c t' ∧ Beside key Twin s' t' := fun _ _ _ _ h hs => h.call hs
  have hback : ∀ t c t' s, Beside key Twin s t → SyncStep key t c t' →
      ∃ s', AsyncStep key s c s' ∧ Beside key Twin s' t' := by
    intro t c t' s h ht
    obtain ⟨s', hs⟩ := h.answer ht
    obtain ⟨t'', ht', h'⟩ := h.call hs
    rw [hdet t c t' t'' ht ht']
    exact ⟨s', hs, h'⟩
  refine ⟨fun cs s t hs ht => ?_, fun cs => ⟨?_, ?_⟩⟩
  · obtain ⟨t', ht', hb⟩ := hs.simulation hforward h0
    rw [Run.unique hdet ht ht']
    exact hb.agree
  · rintro ⟨s, hs⟩
    obtain ⟨t, ht, -⟩ := hs.simulation hforward h0
    exact ⟨t, ht⟩
  · rintro ⟨t, ht⟩
    obtain ⟨s, hs, -⟩ := ht.simulation hback h0
    exact ⟨s, hs⟩

/-- A block is written and published, demoted under pressure, and hit again. -/
def spillCalls : List Call :=
  [.acquire [1, 2], .write 0 1 [7], .release 0 [1, 2], .acquire [3, 4, 5, 6], .drop 1,
    .acquire [1, 2]]

theorem async_refines_sync_spill : ∃ mA mS s t,
    CacheManager.create tightSpecs twoTierConfig ⟨0, true⟩ (fun _ _ => 0) = .ok mA ∧
    CacheManager.create tightSpecs twoTierConfig ⟨0, false⟩ (fun _ _ => 0) = .ok mS ∧
    Run (AsyncStep blockKey) (start mA) spillCalls s ∧
    Run (SyncStep blockKey) (start mS) spillCalls t ∧ t.mgr.stats.promotedBlocks = 1 ∧
    t.mgr.pool.byteAt (t.mgr.pool.location 0) 1 = 7 ∧ Agree s t := by
  have hs : ((CacheManager.create tightSpecs twoTierConfig ⟨0, true⟩ (fun _ _ => 0)).toOption.bind
      fun _ => (CacheManager.create tightSpecs twoTierConfig ⟨0, false⟩
        (fun _ _ => 0)).toOption.bind fun mS =>
          (exec (syncNext blockKey) (start mS) spillCalls).map fun t =>
            (t.mgr.stats.promotedBlocks, t.mgr.pool.byteAt (t.mgr.pool.location 0) 1)) =
      some (1, 7) := by
    decide +kernel
  obtain ⟨mA, hA, hs⟩ := Option.bind_eq_some_iff.mp hs
  obtain ⟨mS, hS, hs⟩ := Option.bind_eq_some_iff.mp hs
  obtain ⟨t, ht, he⟩ := Option.map_eq_some_iff.mp hs
  have hA := toOption_eq_some hA
  have hS := toOption_eq_some hS
  have ht : Run (SyncStep blockKey) (start mS) spillCalls t := run_of_exec ht
  obtain ⟨hagree, hfed⟩ := async_refines_sync hA hS (by decide) (by decide) (by decide)
  obtain ⟨s, hrun⟩ := (hfed spillCalls).mpr ⟨t, ht⟩
  exact ⟨mA, mS, s, t, hA, hS, hrun, ht, (Prod.mk.inj he).1, (Prod.mk.inj he).2,
    hagree spillCalls s t hrun ht⟩

end System

end KvsLab
