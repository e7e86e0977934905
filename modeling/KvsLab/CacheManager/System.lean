import KvsLab.CacheManager.Calls

/-!
# A program over handles

The system is a manager, the handle variables of the program that uses it, and the workers inside
the pool.

* `Handle` — a variable of type `Allocation`, with two ghosts: the tokens it was acquired for and
  a serial number.  A move takes both along, so the serial number is the identity of the handle.
* `Op` / `next` — one call on the manager or on a handle, or one action of a worker.  Tokens are
  vectors (`Storable`).
* `Inv` — the system invariant: the books are in order for the live handles, their blocks are
  settled, and serial numbers are unique.
* `Evolves` — what one step does to the live handles and to the index.
* `next_spec` — **every step returns, keeps the invariant and evolves.**
* `step_calls` — what a step is to the manager.
-/

namespace KvsLab

open RadixTree BlockPool CacheManager Transition

/-- A handle variable. -/
structure Handle where
  alloc : Allocation := {}
  tokens : List TokenId := []
  serial : Nat := 0
  deriving DecidableEq, Repr

namespace Handle

/-- What the handle holds. -/
def claim (h : Handle) : Claim := h.alloc.claim h.tokens

/-- A moved-from handle. -/
def disarm (h : Handle) : Handle := { h with alloc := h.alloc.disarm }

/-- The tokens of a release agree with the acquired ones on the cached prefix, as far as both
reach. -/
def Agrees (h : Handle) (tokens : List TokenId) : Prop :=
  ∀ n < h.alloc.cachedTokens, n < tokens.length → n < h.tokens.length → tokens[n]? = h.tokens[n]?

instance (h : Handle) (tokens : List TokenId) : Decidable (h.Agrees tokens) :=
  inferInstanceAs (Decidable (∀ n < h.alloc.cachedTokens, _))

end Handle

/-- A manager with the handles of the program. -/
structure System where
  mgr : CacheManager
  vars : List Handle := []
  nextSerial : Nat := 0

/-- One step. -/
inductive Op where
  | acquire (tokens : List TokenId)
  | construct
  | moveConstruct (i : Nat)
  | moveAssign (i j : Nat)
  | destroy (i : Nat)
  | release (i : Nat) (tokens : List TokenId) (ws : List (WorkerId × WorkerAct))
  | ready (i : Nat)
  | wait
  | worker (w : WorkerId) (act : WorkerAct)
  deriving DecidableEq, Repr

namespace System

variable (key : List TokenId → UInt64)

/-- The outcome of a step; `none` when it cannot be taken: tokens that no vector holds, no such
variable, tokens that do not agree, a wait that blocks, an action its worker is not at. -/
def next (s : System) : Op → Option (Except Fault System)
  | .acquire tokens =>
    if Storable tokens then
      some do
        let (alloc, mgr) ← s.mgr.acquire key tokens
        return {
          mgr
          vars := s.vars ++ [⟨alloc, tokens, s.nextSerial⟩]
          nextSerial := s.nextSerial + 1 }
    else none
  | .construct => some (.ok { s with vars := s.vars ++ [{}] })
  | .moveConstruct i => do
    let h ← s.vars[i]?
    return .ok { s with vars := s.vars.set i h.disarm ++ [h] }
  | .moveAssign i j => do
    let dst ← s.vars[i]?
    let src ← s.vars[j]?
    if i = j then return .ok s
    return do
      let (_, mgr) ← s.mgr.destruct dst.alloc
      return { s with mgr, vars := (s.vars.set i src).set j src.disarm }
  | .destroy i => do
    let h ← s.vars[i]?
    return do
      let (alloc, mgr) ← s.mgr.destruct h.alloc
      return { s with mgr, vars := s.vars.set i { h with alloc } }
  | .release i tokens ws => do
    let h ← s.vars[i]?
    if Storable tokens ∧ h.Agrees tokens then
      return do
        let (alloc, mgr) ← s.mgr.release key tokens h.alloc ws
        return { s with mgr, vars := s.vars.set i { h with alloc } }
    else none
  | .ready i => do
    let h ← s.vars[i]?
    return do
      let (_, mgr) ← s.mgr.ready h.alloc
      return { s with mgr }
  | .wait => do
    let pool ← s.mgr.pool.waitForMigrations
    return .ok { s with mgr := { s.mgr with pool } }
  | .worker w act => do
    let pool ← s.mgr.pool.workerStep w act
    return .ok { s with mgr := { s.mgr with pool } }

/-- Steps that return. -/
def Step (s : System) (op : Op) (s' : System) : Prop := s.next key op = some (.ok s')

/-- Handles that hold a table. -/
def live (s : System) : List Handle := s.vars.filter (·.alloc.ok)

/-- A call on the manager that returned. -/
theorem call_ok {α : Type} {x : Except Fault α} {g : α → System} {s' : System}
    (h : (some (x >>= fun r => .ok (g r)) : Option (Except Fault System)) = some (.ok s')) :
    ∃ r, x = .ok r ∧ s' = g r := by
  cases x with
  | error e => cases h
  | ok r =>
    cases h
    exact ⟨r, rfl, rfl⟩

/-! ## The invariant -/

/-- A live handle is well formed. -/
structure HandleOK (bt : Nat) (h : Handle) : Prop where
  ok : h.alloc.ok = true
  cachedTokens : h.alloc.cachedTokens = h.alloc.cachedBlocks * bt
  le_tokens : h.alloc.cachedTokens ≤ h.tokens.length
  le_blocks : h.alloc.cachedBlocks ≤ h.alloc.blocks.length
  owner : h.alloc.owner = false → h.alloc.blocks = [] ∧ h.alloc.pinned = none

/-- A manager and the handles live on it. -/
structure Good (key : List TokenId → UInt64) (m : CacheManager) (L : List Handle) (next : Nat) :
    Prop where
  books : Books key (L.map Handle.claim) m.tree m.pool
  settled : Settled (L.map Handle.claim) m.pool
  bt : m.tree.blockTokens = m.cfg.blockTokens
  handles : ∀ h ∈ L, HandleOK m.cfg.blockTokens h
  serials : (L.map Handle.serial).Nodup
  serials_lt : ∀ h ∈ L, h.serial < next

/-- The system invariant. -/
def Inv (key : List TokenId → UInt64) (s : System) : Prop := Good key s.mgr s.live s.nextSerial

/-- What a step does: `gone` are the handles it gives back, `new` the one it hands out, and the
blocks of all others are left alone or delivered.  The index keeps entries, or gains what a
release publishes. -/
structure Evolves (key : List TokenId → UInt64) (s : System) (op : Op) (s' : System) : Prop where
  handles : ∃ K gone new, s.live.Perm (gone ++ K) ∧ s'.live.Perm (new ++ K) ∧
    Carried (K.map Handle.claim) s.mgr s'.mgr ∧ ∀ h ∈ new, h.serial = s.nextSerial
  serial : s.nextSerial ≤ s'.nextSerial
  index : Retains s.mgr.tree s'.mgr.tree s.mgr.pool s'.mgr.pool ∨
    ∃ i tokens ws h cl, op = .release i tokens ws ∧ s.vars[i]? = some h ∧ h.alloc.ok = true ∧
      GivenBack key cl h.claim s.mgr tokens s'.mgr

variable {key} {s s' : System} {m m' : CacheManager} {L L' : List Handle} {h : Handle} {n : Nat}

theorem Good.perm (hg : Good key m L n) (hp : L.Perm L') : Good key m L' n :=
  ⟨hg.books.perm (hp.map _),
    fun c hc => hg.settled c ((hp.map _).mem_iff.mpr hc), hg.bt,
    fun h hh => hg.handles h (hp.mem_iff.mpr hh), (hp.map _).nodup_iff.mp hg.serials,
    fun h hh => hg.serials_lt h (hp.mem_iff.mpr hh)⟩

/-- A call that is about no live handle. -/
theorem Good.carried (hg : Good key m L n) (hc : Carried (L.map Handle.claim) m m')
    (hb : Books key (L.map Handle.claim) m'.tree m'.pool)
    (hbt : m'.tree.blockTokens = m.tree.blockTokens) : Good key m' L n :=
  ⟨hb, hc.settled hg.settled, by rw [hbt, hg.bt, hc.cfg],
    fun h hh => hc.cfg ▸ hg.handles h hh, hg.serials, hg.serials_lt⟩

/-- A call that gives one live handle back. -/
theorem Good.gone (hg : Good key m (h :: L) n) (hc : Carried (L.map Handle.claim) m m')
    (hb : Books key (L.map Handle.claim) m'.tree m'.pool)
    (hbt : m'.tree.blockTokens = m.tree.blockTokens) : Good key m' L n := by
  refine ⟨hb, hc.settled fun c hm => hg.settled c (List.mem_cons_of_mem _ hm), by
    rw [hbt, hg.bt, hc.cfg], fun k hk => hc.cfg ▸ hg.handles k (List.mem_cons_of_mem _ hk), ?_,
    fun k hk => hg.serials_lt k (List.mem_cons_of_mem _ hk)⟩
  have := hg.serials
  rw [List.map_cons, List.nodup_cons] at this
  exact this.2

/-! ## Variables -/

/-- The live handles around one variable. -/
theorem live_at {vars : List Handle} {i : Nat} (hi : vars[i]? = some h) :
    ∃ K, (vars.filter (·.alloc.ok)).Perm ((if h.alloc.ok then [h] else []) ++ K) ∧
      ∀ h' : Handle, ((vars.set i h').filter (·.alloc.ok)).Perm
        ((if h'.alloc.ok then [h'] else []) ++ K) := by
  obtain ⟨K, hK, hset⟩ := Counting.filter_around (fun h : Handle => h.alloc.ok) hi
  simp only [List.filter_cons, List.filter_nil] at hK hset
  exact ⟨K, hK, hset⟩

theorem live_append (vars : List Handle) (h : Handle) :
    ((vars ++ [h]).filter (·.alloc.ok)).Perm
      ((if h.alloc.ok then [h] else []) ++ vars.filter (·.alloc.ok)) := by
  rw [List.filter_append, List.filter_cons, List.filter_nil]
  refine List.perm_append_comm.trans ?_
  split <;> rfl

/-- Assigning over one variable from another leaves the live handles without the first. -/
theorem live_assign {vars : List Handle} {i j : Nat} {src : Handle} (hi : vars[i]? = some h)
    (hj : vars[j]? = some src) (hij : i ≠ j) :
    ∃ K, (vars.filter (·.alloc.ok)).Perm ((if h.alloc.ok then [h] else []) ++ K) ∧
      (((vars.set i src).set j src.disarm).filter (·.alloc.ok)).Perm K := by
  obtain ⟨K, hK, hset⟩ := live_at hi
  have hj' : (vars.set i src)[j]? = some src := by
    rw [List.getElem?_set_ne hij]
    exact hj
  obtain ⟨K', hK', hset'⟩ := live_at hj'
  refine ⟨K, hK, (hset' src.disarm).trans ?_⟩
  -- both lists are what is left of the handles without `src`
  have hperm := hK'.symm.trans (hset src)
  show (([] : List Handle) ++ K').Perm K
  rw [List.nil_append]
  exact (List.perm_append_left_iff _).mp hperm

theorem agrees_take {bt : Nat} {tokens : List TokenId} (hh : HandleOK bt h)
    (ha : h.Agrees tokens) : tokens.take h.claim.tokens.length <+: h.claim.tokens := by
  have hlen : h.claim.tokens.length = h.alloc.cachedTokens := by
    show (h.tokens.take h.alloc.cachedTokens).length = _
    rw [List.length_take]
    exact Nat.min_eq_left hh.le_tokens
  rw [hlen]
  show tokens.take h.alloc.cachedTokens <+: h.tokens.take h.alloc.cachedTokens
  rw [List.prefix_iff_getElem?]
  intro n hn
  rw [List.length_take] at hn
  have hn1 : n < h.alloc.cachedTokens := by omega
  rw [List.getElem?_take_of_lt hn1, ← ha n hn1 (by omega) (by have := hh.le_tokens; omega),
    ← List.getElem?_take_of_lt hn1]
  exact List.getElem?_eq_getElem _

/-! ## One step -/

theorem release_call {i : Nat} {tokens : List TokenId} {ws : List (WorkerId × WorkerAct)}
    (hs : Step key s (.release i tokens ws) s') :
    ∃ h, s.vars[i]? = some h ∧ (Storable tokens ∧ h.Agrees tokens) ∧
      ∃ r, s.mgr.release key tokens h.alloc ws = .ok r ∧
        s' = { s with mgr := r.2, vars := s.vars.set i { h with alloc := r.1 } } := by
  obtain ⟨h, hget, hs⟩ := Option.bind_eq_some_iff.mp hs
  split at hs
  · rename_i hag
    exact ⟨h, hget, hag, call_ok hs⟩
  · cases hs

theorem acquire_call {tokens : List TokenId} (h : Step key s (.acquire tokens) s') :
    Storable tokens ∧ ∃ r, s.mgr.acquire key tokens = .ok r ∧ s' = { s with
      mgr := r.2, vars := s.vars ++ [⟨r.1, tokens, s.nextSerial⟩], nextSerial := s.nextSerial + 1 } := by
  simp only [Step, next] at h
  split at h
  · rename_i hst
    exact ⟨hst, call_ok h⟩
  · cases h

/-- A step that hands out no handle and gives none back. -/
theorem Inv.same (hi : s.Inv key) {op : Op} (hl : s'.live.Perm s.live)
    (hn : s'.nextSerial = s.nextSerial) (hc : Carried (s.live.map Handle.claim) s.mgr s'.mgr)
    (hb : Books key (s.live.map Handle.claim) s'.mgr.tree s'.mgr.pool)
    (hr : Retains s.mgr.tree s'.mgr.tree s.mgr.pool s'.mgr.pool) :
    s'.Inv key ∧ Evolves key s op s' := by
  refine ⟨?_, ⟨s.live, [], [], .refl _, hl, hc, nofun⟩, Nat.le_of_eq hn.symm, .inl hr⟩
  unfold Inv
  rw [hn]
  exact (Good.carried hi hc hb hr.blockTokens).perm hl.symm

/-- A step that gives one handle back. -/
theorem Inv.gives (hi : s.Inv key) {op : Op} {K : List Handle} (hl : s.live.Perm (h :: K))
    (hl' : s'.live.Perm K) (hn : s'.nextSerial = s.nextSerial)
    (hc : Carried (K.map Handle.claim) s.mgr s'.mgr)
    (hb : Books key (K.map Handle.claim) s'.mgr.tree s'.mgr.pool)
    (hbt : s'.mgr.tree.blockTokens = s.mgr.tree.blockTokens)
    (hx : Retains s.mgr.tree s'.mgr.tree s.mgr.pool s'.mgr.pool ∨
      ∃ i tokens ws h cl, op = .release i tokens ws ∧ s.vars[i]? = some h ∧ h.alloc.ok = true ∧
        GivenBack key cl h.claim s.mgr tokens s'.mgr) :
    s'.Inv key ∧ Evolves key s op s' := by
  refine ⟨?_, ⟨K, [h], [], hl, hl', hc, nofun⟩, Nat.le_of_eq hn.symm, hx⟩
  unfold Inv
  rw [hn]
  exact (Good.gone (Good.perm hi hl) hc hb hbt).perm hl'.symm

theorem carried_refl (cl : List Claim) (m : CacheManager) : Carried cl m m :=
  ⟨rfl, rfl, .refl _, fun _ _ b _ => .refl _ b⟩

theorem acquire_step (hi : s.Inv key) {tokens : List TokenId} (hst : Storable tokens) :
    ∃ s', s.next key (.acquire tokens) = some (.ok s') ∧ s'.Inv key ∧
      Evolves key s (.acquire tokens) s' := by
  obtain ⟨a, m', he, hcase⟩ := acquire_spec (Good.books hi) (Good.settled hi) tokens
  refine ⟨{ mgr := m', vars := s.vars ++ [⟨a, tokens, s.nextSerial⟩], nextSerial := s.nextSerial + 1 },
    by simp only [next, if_pos hst, he]; rfl, ?_⟩
  have hl := live_append s.vars ⟨a, tokens, s.nextSerial⟩
  rcases hcase with hv | hr
  · have hl : (live ⟨m', s.vars ++ [⟨a, tokens, s.nextSerial⟩], s.nextSerial + 1⟩).Perm
        ([⟨a, tokens, s.nextSerial⟩] ++ s.live) := by
      simp only [hv.ok, if_true] at hl
      exact hl
    refine ⟨Good.perm ?_ hl.symm, ⟨s.live, [], [⟨a, tokens, s.nextSerial⟩], .refl _, hl, hv.carried,
      fun h hh => by rw [List.mem_singleton.mp hh]⟩, Nat.le_succ _, .inl hv.retains⟩
    refine ⟨hv.books, ?_, ?_, ?_, ?_, ?_⟩
    · intro c hc b hb
      rcases List.mem_cons.mp hc with rfl | hc
      · have hb : b ∈ (a.claim tokens).table := hb
        rw [Allocation.claim_table] at hb
        exact hv.homed b hb
      · exact hv.carried.settled (Good.settled hi) c hc b hb
    · rw [hv.retains.blockTokens, hv.carried.cfg]
      exact Good.bt hi
    · intro h hh
      rcases List.mem_cons.mp hh with rfl | hh
      · refine ⟨hv.ok, ?_, hv.le_tokens, hv.le_blocks, hv.owner⟩
        rw [hv.carried.cfg, ← Good.bt hi]
        exact hv.cachedTokens
      · rw [hv.carried.cfg]
        exact Good.handles hi h hh
    · show (s.nextSerial :: s.live.map Handle.serial).Nodup
      refine List.nodup_cons.mpr ⟨fun hm => ?_, Good.serials hi⟩
      obtain ⟨h, hh, he⟩ := List.mem_map.mp hm
      exact Nat.lt_irrefl _ (he ▸ Good.serials_lt hi h hh)
    · intro h hh
      rcases List.mem_cons.mp hh with rfl | hh
      · exact Nat.lt_succ_self _
      · exact Nat.lt_succ_of_lt (Good.serials_lt hi h hh)
  · have hl : (live ⟨m', s.vars ++ [⟨a, tokens, s.nextSerial⟩], s.nextSerial + 1⟩).Perm s.live := by
      rw [hr.alloc] at hl ⊢
      exact hl
    have hg := Good.carried hi hr.carried hr.books hr.retains.blockTokens
    refine ⟨Good.perm ⟨hg.books, hg.settled, hg.bt, hg.handles, hg.serials, fun h hh =>
      Nat.lt_succ_of_lt (hg.serials_lt h hh)⟩ hl.symm, ⟨s.live, [], [], .refl _, hl, hr.carried, nofun⟩,
      Nat.le_succ _, .inl hr.retains⟩

/-- The destructor of a handle that owns something. -/
theorem destruct_owner (hg : Good key m (h :: L) n) (ho : h.alloc.owner = true) :
    ∃ m', m.destruct h.alloc = .ok (h.alloc.disarm, m') ∧ Carried (L.map Handle.claim) m m' ∧
      Books key (L.map Handle.claim) m'.tree m'.pool ∧ Retains m.tree m'.tree m.pool m'.pool := by
  obtain ⟨m', he, hc, hb, hr⟩ := abandon_spec hg.books
  refine ⟨m', ?_, hc, hb, hr⟩
  unfold CacheManager.destruct
  rw [(hg.handles h List.mem_cons_self).ok, ho]
  exact he

/-- A handle that owns nothing can be forgotten. -/
theorem Good.idle_books (hg : Good key m (h :: L) n) (ho : h.alloc.owner = false) :
    Books key (L.map Handle.claim) m.tree m.pool := by
  obtain ⟨hb, hp⟩ := (hg.handles h List.mem_cons_self).owner ho
  have hf : h.claim.fresh = [] := by
    show h.alloc.blocks.drop _ = []
    rw [hb, List.drop_nil]
  obtain ⟨t', he, _, hbk⟩ := Books.unpin hg.books hf
  have hpin : h.claim.pinned = none := hp
  rw [hpin] at he
  cases he
  exact hbk

theorem destruct_idle {a : Allocation} (h : ¬ (a.ok = true ∧ a.owner = true)) :
    m.destruct a = .ok (a, m) := by
  unfold CacheManager.destruct
  rw [if_neg (by rw [Bool.and_eq_true]; exact h)]

theorem live_cons (hi : s.vars[n]? = some h) (hok : h.alloc.ok = true) :
    ∃ K, s.live.Perm (h :: K) ∧ ∀ h' : Handle, h'.alloc.ok = false →
      ((s.vars.set n h').filter (·.alloc.ok)).Perm K := by
  obtain ⟨K, hK, hset⟩ := live_at hi
  rw [hok] at hK
  refine ⟨K, hK, fun h' hd => ?_⟩
  have := hset h'
  rwa [hd] at this

theorem set_self {vars : List Handle} {i : Nat} (hi : vars[i]? = some h) : vars.set i h = vars := by
  obtain ⟨hlt, rfl⟩ := List.getElem?_eq_some_iff.mp hi
  exact List.set_getElem_self hlt

theorem destroy_step (hi : s.Inv key) {i : Nat} (hget : s.vars[i]? = some h) :
    ∃ s', s.next key (.destroy i) = some (.ok s') ∧ s'.Inv key ∧ Evolves key s (.destroy i) s' := by
  by_cases ho : h.alloc.ok = true ∧ h.alloc.owner = true
  · obtain ⟨K, hK, hset⟩ := live_cons hget ho.1
    obtain ⟨m', he, hc, hb, hr⟩ := destruct_owner (Good.perm hi hK) ho.2
    exact ⟨{ s with mgr := m', vars := s.vars.set i h.disarm },
      by simp only [next, hget, bind, Option.bind, he]; rfl,
      hi.gives hK (hset _ rfl) rfl hc hb hr.blockTokens (.inl hr)⟩
  · refine ⟨s, ?_, hi.same (.refl _) rfl (carried_refl _ _) (Good.books hi) (.of_pool _ rfl)⟩
    simp only [next, hget, bind, Option.bind, destruct_idle ho]
    show some (Except.ok { s with vars := s.vars.set i h }) = _
    rw [set_self hget]

theorem moveConstruct_step (hi : s.Inv key) {i : Nat} (hget : s.vars[i]? = some h) :
    ∃ s', s.next key (.moveConstruct i) = some (.ok s') ∧ s'.Inv key ∧
      Evolves key s (.moveConstruct i) s' := by
  refine ⟨{ s with vars := s.vars.set i h.disarm ++ [h] },
    by simp only [next, hget, bind, Option.bind]; rfl,
    hi.same ?_ rfl (carried_refl _ _) (Good.books hi) (.of_pool _ rfl)⟩
  obtain ⟨K, hK, hset⟩ := live_at hget
  exact ((live_append _ h).trans ((hset h.disarm).append_left _)).trans hK.symm

theorem moveAssign_step (hi : s.Inv key) {i j : Nat} {src : Handle} (hget : s.vars[i]? = some h)
    (hsrc : s.vars[j]? = some src) :
    ∃ s', s.next key (.moveAssign i j) = some (.ok s') ∧ s'.Inv key ∧
      Evolves key s (.moveAssign i j) s' := by
  by_cases hij : i = j
  · refine ⟨s, ?_, hi.same (.refl _) rfl (carried_refl _ _) (Good.books hi) (.of_pool _ rfl)⟩
    simp only [next, hget, hsrc, bind, Option.bind, if_pos hij]
    rfl
  obtain ⟨K, hK, hset⟩ := live_assign hget hsrc hij
  by_cases hok : h.alloc.ok = true
  · rw [hok] at hK
    have hK : s.live.Perm (h :: K) := hK
    by_cases ho : h.alloc.owner = true
    · obtain ⟨m', he, hc, hb, hr⟩ := destruct_owner (Good.perm hi hK) ho
      exact ⟨{ s with mgr := m', vars := (s.vars.set i src).set j src.disarm },
        by simp only [next, hget, hsrc, bind, Option.bind, if_neg hij, he]; rfl,
        hi.gives hK hset rfl hc hb hr.blockTokens (.inl hr)⟩
    · have he := destruct_idle (m := s.mgr) fun h' : h.alloc.ok = true ∧ h.alloc.owner = true =>
        ho h'.2
      exact ⟨{ s with vars := (s.vars.set i src).set j src.disarm },
        by simp only [next, hget, hsrc, bind, Option.bind, if_neg hij, he]; rfl,
        hi.gives hK hset rfl (carried_refl _ _)
          ((Good.perm hi hK).idle_books (Bool.eq_false_of_not_eq_true ho)) rfl (.inl (.of_pool _ rfl))⟩
  · rw [Bool.eq_false_of_not_eq_true hok] at hK
    have hK : s.live.Perm K := hK
    have he := destruct_idle (m := s.mgr) fun h' : h.alloc.ok = true ∧ h.alloc.owner = true =>
      hok h'.1
    exact ⟨{ s with vars := (s.vars.set i src).set j src.disarm },
      by simp only [next, hget, hsrc, bind, Option.bind, if_neg hij, he]; rfl,
      hi.same (hset.trans hK.symm) rfl (carried_refl _ _) (Good.books hi) (.of_pool _ rfl)⟩

theorem release_step (hi : s.Inv key) {i : Nat} {tokens : List TokenId}
    {ws : List (WorkerId × WorkerAct)} (hget : s.vars[i]? = some h)
    (ha : Storable tokens ∧ h.Agrees tokens) :
    ∃ s', s.next key (.release i tokens ws) = some (.ok s') ∧ s'.Inv key ∧
      Evolves key s (.release i tokens ws) s' := by
  by_cases hok : h.alloc.ok = true
  · obtain ⟨K, hK, hset⟩ := live_cons hget hok
    have hg := Good.perm hi hK
    obtain ⟨m', he, hgb⟩ := release_spec hg.books hok
      (agrees_take (hg.handles h List.mem_cons_self) ha.2) ws
    exact ⟨{ s with mgr := m', vars := s.vars.set i h.disarm },
      by simp only [next, hget, bind, Option.bind, if_pos ha, he]; rfl,
      hi.gives hK (hset _ rfl) rfl hgb.carried hgb.books hgb.blockTokens
        (.inr ⟨i, tokens, ws, h, _, rfl, hget, hok, hgb⟩)⟩
  · refine ⟨s, ?_, hi.same (.refl _) rfl (carried_refl _ _) (Good.books hi) (.of_pool _ rfl)⟩
    have he : s.mgr.release key tokens h.alloc ws = .ok (h.alloc, s.mgr) := by
      unfold CacheManager.release
      rw [Bool.eq_false_of_not_eq_true hok]
      rfl
    simp only [next, hget, bind, Option.bind, if_pos ha, he]
    show some (Except.ok { s with vars := s.vars.set i h }) = _
    rw [set_self hget]

/-- A drain is a step of the pool only. -/
theorem Inv.drain (hi : s.Inv key) {op : Op} :
    Inv key { s with mgr := { s.mgr with pool := s.mgr.pool.drainMigrations } } ∧
      Evolves key s op { s with mgr := { s.mgr with pool := s.mgr.pool.drainMigrations } } :=
  hi.same (.refl _) rfl (drain_carried (Good.books hi)) (Good.books hi).drain
    (.of_pool _ (drain_freed _))

theorem mem_live {i : Nat} (hget : s.vars[i]? = some h) (hok : h.alloc.ok = true) : h ∈ s.live :=
  List.mem_filter.mpr ⟨List.mem_of_getElem? hget, hok⟩

theorem ready_step (hi : s.Inv key) {i : Nat} (hget : s.vars[i]? = some h) :
    ∃ s', s.next key (.ready i) = some (.ok s') ∧ s'.Inv key ∧ Evolves key s (.ready i) s' := by
  by_cases ho : h.alloc.ok = true ∧ h.alloc.owner = true
  · have he := ready_spec (Good.books hi) (List.mem_map_of_mem (mem_live hget ho.1)) ho.1 ho.2
    exact ⟨_, by simp only [next, hget, bind, Option.bind, he]; rfl, hi.drain⟩
  · have he : s.mgr.ready h.alloc = .ok (true, s.mgr) := by
      unfold CacheManager.ready
      rw [if_pos]
      rw [Bool.or_eq_true, Bool.not_eq_true', Bool.not_eq_true']
      by_cases hok : h.alloc.ok = true
      · exact .inr (Bool.eq_false_of_not_eq_true fun h' => ho ⟨hok, h'⟩)
      · exact .inl (Bool.eq_false_of_not_eq_true hok)
    exact ⟨s, by simp only [next, hget, bind, Option.bind, he]; rfl,
      hi.same (.refl _) rfl (carried_refl _ _) (Good.books hi) (.of_pool _ rfl)⟩

/-- **Every step that can be taken returns, keeps the invariant and evolves.** -/
theorem next_spec (hi : s.Inv key) {op : Op} {r : Except Fault System}
    (he : s.next key op = some r) : ∃ s', r = .ok s' ∧ s'.Inv key ∧ Evolves key s op s' := by
  have hof : ∀ {s'}, s.next key op = some (.ok s') → s'.Inv key ∧ Evolves key s op s' →
      ∃ s', r = .ok s' ∧ s'.Inv key ∧ Evolves key s op s' := by
    intro s' h1 h2
    rw [he] at h1
    exact ⟨s', Option.some.inj h1, h2⟩
  cases op with
  | acquire tokens =>
    by_cases hst : Storable tokens
    · obtain ⟨s', h1, h2⟩ := acquire_step hi hst
      exact hof h1 h2
    · simp only [next, if_neg hst] at he
      cases he
  | construct =>
    exact hof rfl (hi.same (live_append _ _) rfl (carried_refl _ _) (Good.books hi) (.of_pool _ rfl))
  | moveConstruct i =>
    obtain ⟨h, hget, _⟩ := Option.bind_eq_some_iff.mp he
    obtain ⟨s', h1, h2⟩ := moveConstruct_step hi hget
    exact hof h1 h2
  | moveAssign i j =>
    obtain ⟨h, hget, he'⟩ := Option.bind_eq_some_iff.mp he
    obtain ⟨src, hsrc, _⟩ := Option.bind_eq_some_iff.mp he'
    obtain ⟨s', h1, h2⟩ := moveAssign_step hi hget hsrc
    exact hof h1 h2
  | destroy i =>
    obtain ⟨h, hget, _⟩ := Option.bind_eq_some_iff.mp he
    obtain ⟨s', h1, h2⟩ := destroy_step hi hget
    exact hof h1 h2
  | release i tokens ws =>
    obtain ⟨h, hget, he'⟩ := Option.bind_eq_some_iff.mp he
    split at he'
    · rename_i ha
      obtain ⟨s', h1, h2⟩ := release_step hi hget ha
      exact hof h1 h2
    · cases he'
  | ready i =>
    obtain ⟨h, hget, _⟩ := Option.bind_eq_some_iff.mp he
    obtain ⟨s', h1, h2⟩ := ready_step hi hget
    exact hof h1 h2
  | wait =>
    obtain ⟨p, hp, he'⟩ := Option.bind_eq_some_iff.mp he
    obtain ⟨_, rfl⟩ := waitForMigrations_ok hp
    cases he'
    exact ⟨_, rfl, hi.drain⟩
  | worker w act =>
    obtain ⟨p, hp, he'⟩ := Option.bind_eq_some_iff.mp he
    cases he'
    have hb := SameBooks.workerStep hp
    have hg := Good.books hi
    refine ⟨_, rfl, hi.same (.refl _) rfl ⟨rfl, rfl, hb.shape, fun _ _ b _ => (hb.sameBlock b).delivered⟩
      (hg.of_refcount (hg.inv.workerStep hp) hb.refcount) (.of_pool _ hb.freed)⟩

/-- To the manager a step is a call, or a change of its pool. -/
theorem step_calls {op : Op} (h : Step key s op s') :
    (∃ tokens al, s.mgr.acquire key tokens = .ok (al, s'.mgr)) ∨
    (∃ al al', s.mgr.destruct al = .ok (al', s'.mgr)) ∨
    (∃ tokens al ws al', s.mgr.release key tokens al ws = .ok (al', s'.mgr)) ∨
    ∃ pool, s'.mgr = { s.mgr with pool } := by
  have hpool : ∀ {pool}, s'.mgr = { s.mgr with pool } → ∃ pool, s'.mgr = { s.mgr with pool } :=
    fun he => ⟨_, he⟩
  have hsame : s'.mgr = s.mgr → ∃ pool, s'.mgr = { s.mgr with pool } := fun he => hpool he
  cases op with
  | acquire tokens =>
    obtain ⟨-, ⟨al, m'⟩, he, rfl⟩ := acquire_call h
    exact .inl ⟨tokens, al, he⟩
  | construct =>
    cases h
    exact .inr (.inr (.inr (hsame rfl)))
  | moveConstruct i =>
    obtain ⟨x, -, h⟩ := Option.bind_eq_some_iff.mp h
    cases h
    exact .inr (.inr (.inr (hsame rfl)))
  | moveAssign i j =>
    obtain ⟨dst, -, h⟩ := Option.bind_eq_some_iff.mp h
    obtain ⟨src, -, h⟩ := Option.bind_eq_some_iff.mp h
    split at h
    · cases h
      exact .inr (.inr (.inr (hsame rfl)))
    · obtain ⟨⟨al, m'⟩, he, rfl⟩ := call_ok h
      exact .inr (.inl ⟨dst.alloc, al, he⟩)
  | destroy i =>
    obtain ⟨x, -, h⟩ := Option.bind_eq_some_iff.mp h
    obtain ⟨⟨al, m'⟩, he, rfl⟩ := call_ok h
    exact .inr (.inl ⟨x.alloc, al, he⟩)
  | release i tokens ws =>
    obtain ⟨x, -, -, ⟨al, m'⟩, he, rfl⟩ := release_call h
    exact .inr (.inr (.inl ⟨tokens, x.alloc, ws, al, he⟩))
  | ready i =>
    obtain ⟨x, -, h⟩ := Option.bind_eq_some_iff.mp h
    obtain ⟨⟨b, m'⟩, he, rfl⟩ := call_ok h
    obtain rfl | rfl := ready_cases he
    · exact .inr (.inr (.inr (hsame rfl)))
    · exact .inr (.inr (.inr (hpool rfl)))
  | wait =>
    obtain ⟨p, -, h⟩ := Option.bind_eq_some_iff.mp h
    cases h
    exact .inr (.inr (.inr (hpool rfl)))
  | worker w act =>
    obtain ⟨p, -, h⟩ := Option.bind_eq_some_iff.mp h
    cases h
    exact .inr (.inr (.inr (hpool rfl)))

end System

end KvsLab
