import KvsLab.BlockPool.Protocol
import KvsLab.CacheManager.Ownership
import KvsLab.Lib.Lockstep

/-!
# The manager plays by the pool's protocol

Whatever the manager does to its pool it does by calls on it, so what is proved of every
interleaving of the pool's protocol holds of the pool inside a manager.

* `Plays p p'` — some steps of the protocol lead from `p` to `p'`, no drain under way at either end.
* `CallClosed R` — the relation `R` contains every call on a pool, `MoveClosed R` every one that takes
  no reference away; one lemma per function of the manager, from the loops over blocks up to `acquire`
  and `release`, says that `R` then contains what the function does.
* `System.run_plays` — every run of a program is an interleaving of the protocol;
  `System.ordered_reach` — so the queue is in order in every state a program reaches.
-/

namespace KvsLab

open RadixTree BlockPool CacheManager Transition Lockstep

namespace BlockPool

variable {p p' q : BlockPool} {id : BlockId}

/-- Steps of the protocol lead from `p` to `p'`. -/
def Plays (p p' : BlockPool) : Prop :=
  ∀ Q C, ∃ tr Q' C', Run QueueState.Step ⟨p, .outside, Q, C⟩ tr ⟨p', .outside, Q', C'⟩

namespace Plays

theorem refl (p : BlockPool) : Plays p p := fun Q C => ⟨[], Q, C, .nil⟩

theorem trans (h : Plays p q) (h' : Plays q p') : Plays p p' := fun Q C => by
  obtain ⟨tr, Q₁, C₁, hr⟩ := h Q C
  obtain ⟨tr', Q₂, C₂, hr'⟩ := h' Q₁ C₁
  exact ⟨tr ++ tr', Q₂, C₂, hr.append hr'⟩

theorem call (op : PoolOp) (h : p.schedule op = some p') : Plays p p' := fun Q C => by
  refine ⟨[.call op], Q ++ (p'.jobs.drop p.jobs.length).map (·.ptr), C, Run.single ?_⟩
  show QueueState.next _ _ = _
  simp only [QueueState.next, if_true, h, Option.map_some]

theorem worker {w : WorkerId} {act : WorkerAct} (h : p.workerStep w act = some p') :
    Plays p p' := fun Q C => by
  by_cases hc : act = .claim
  · refine ⟨[.worker w act], Q, C ++ (p'.holds w).toList.map fun ptr => (w, ptr), Run.single ?_⟩
    show QueueState.next _ _ = _
    rw [hc] at h ⊢
    simp only [QueueState.next, h, Option.map_some]
  · refine ⟨[.worker w act], Q, C, Run.single ?_⟩
    show QueueState.next _ _ = _
    cases act <;> first | exact absurd rfl hc | simp only [QueueState.next, h, Option.map_some]

theorem drain (p : BlockPool) : Plays p p.drainMigrations := fun Q C => by
  by_cases hj : p.jobs = []
  · rw [drain_nil hj]
    exact Plays.refl p Q C
  · obtain ⟨tr, hr⟩ := QueueState.drain_runs Q C hj
    exact ⟨tr, Q, C, hr⟩

theorem decref {r : Bool} (h : p.decref id = .ok (r, p')) : Plays p p' :=
  .call (.decref id) (by simp only [schedule, h]; rfl)

theorem incref (h : p.incref id = .ok p') : Plays p p' :=
  .call (.incref id) (by simp only [schedule, h]; rfl)

theorem migrate {dst : TierIndex} {r : Bool} (h : p.migrate id dst = .ok (r, p')) : Plays p p' :=
  .call (.migrate id dst) (by simp only [schedule, h]; rfl)

theorem migrateAsync {dst : TierIndex} {r : Bool} (h : p.migrateAsync id dst = .ok (r, p')) :
    Plays p p' :=
  .call (.migrateAsync id dst) (by simp only [schedule, h]; rfl)

theorem allocate (h : p.allocate = .ok (id, p')) : Plays p p' :=
  .call .allocate (by simp only [schedule, h]; rfl)

theorem cancel (p : BlockPool) (id : BlockId) : Plays p (p.cancelMigration id) :=
  .call (.cancelMigration id) rfl

end Plays

end BlockPool

/-! ## The tree's loops -/

namespace RadixTree

variable {key : List TokenId → UInt64} {t t' : RadixTree} {p p' : BlockPool} {n : Nat}

theorem increfAll_plays : ∀ {l : List BlockId} {p : BlockPool},
    l.foldlM BlockPool.incref p = .ok p' → Plays p p'
  | [], p, h => by
    cases h
    exact .refl _
  | id :: l, p, h => by
    rw [List.foldlM_cons] at h
    obtain ⟨q, hq, h⟩ := bind_ok h
    exact (Plays.incref hq).trans (increfAll_plays h)

theorem insert_plays {tokens : List TokenId} {blocks : List BlockId}
    (h : t.insert key p tokens blocks = .ok (n, t', p')) : Plays p p' := by
  obtain ⟨⟨t₁, w⟩, -, h⟩ := bind_ok h
  dsimp only at h
  split at h
  · cases h
    exact .refl _
  split at h
  · cases h
    exact .refl _
  obtain ⟨q, hq, h⟩ := bind_ok h
  cases h
  exact increfAll_plays hq

end RadixTree

/-! ## Relations that contain every call

`insert` is the one call that takes references; what it does to the pool is left to the relation. -/

/-- A preorder on pools that contains every call the manager makes on its pool but `incref` and
`decref`. -/
structure MoveClosed (R : BlockPool → BlockPool → Prop) : Prop where
  refl : ∀ p, R p p
  trans : ∀ {p q p'}, R p q → R q p' → R p p'
  allocate : ∀ {p p' id}, p.allocate = .ok (id, p') → R p p'
  migrate : ∀ {p p' id dst r}, p.migrate id dst = .ok (r, p') → R p p'
  migrateAsync : ∀ {p p' id dst r}, p.migrateAsync id dst = .ok (r, p') → R p p'
  cancel : ∀ p id, R p (p.cancelMigration id)
  drain : ∀ p, R p p.drainMigrations
  worker : ∀ {p p' w act}, p.workerStep w act = some p' → R p p'

/-- And `decref` as well. -/
structure CallClosed (R : BlockPool → BlockPool → Prop) : Prop extends MoveClosed R where
  decref : ∀ {p p' id r}, p.decref id = .ok (r, p') → R p p'

/-- So does the protocol. -/
theorem Plays.closed : CallClosed Plays :=
  ⟨⟨.refl, .trans, .allocate, .migrate, .migrateAsync, .cancel, .drain, .worker⟩, .decref⟩

namespace MoveClosed

variable {R : BlockPool → BlockPool → Prop} (hR : MoveClosed R) {key : List TokenId → UInt64}
  {m m' : CacheManager} {p p' : BlockPool} {tokens : List TokenId} {al al' : Allocation} {n : Nat}
include hR

theorem work (p : BlockPool) (ws : List (WorkerId × WorkerAct)) : R p (p.work ws) := by
  induction ws generalizing p with
  | nil => exact hR.refl p
  | cons a ws ih =>
    refine hR.trans ?_ (ih _)
    show R p ((p.workerStep a.1 a.2).getD p)
    cases h : p.workerStep a.1 a.2 with
    | none => exact hR.refl p
    | some p' => exact hR.worker h

theorem moveWhile {move : BlockPool → BlockId → Except Fault (Bool × BlockPool)}
    (hm : ∀ {p id r p'}, move p id = .ok (r, p') → R p p') :
    ∀ {l : List BlockId} {p p' : BlockPool} {n : Nat},
      CacheManager.moveWhile move l p = .ok (n, p') → R p p'
  | [], p, p', n, h => by
    cases h
    exact hR.refl _
  | id :: l, p, p', n, h => by
    obtain ⟨⟨moved, q⟩, hq, h⟩ := bind_ok h
    dsimp only at h
    split at h
    · cases h
      exact hm hq
    obtain ⟨⟨k, q'⟩, hq', h⟩ := bind_ok h
    cases h
    exact hR.trans (hm hq) (moveWhile hm hq')

theorem cancelDemotions : ∀ {l : List BlockId} {p : BlockPool},
    CacheManager.cancelDemotions l p = .ok p' → R p p'
  | [], p, h => by
    cases h
    exact hR.refl _
  | id :: l, p, h => by
    unfold CacheManager.cancelDemotions at h
    split at h
    · obtain ⟨tier, -, h⟩ := bind_ok h
      split at h
      · exact hR.trans (hR.cancel p id) (cancelDemotions h)
      · exact cancelDemotions h
    · exact cancelDemotions h

theorem promote {async r : Bool} {id : BlockId}
    (h : CacheManager.promote async p id = .ok (r, p')) : R p p' := by
  unfold CacheManager.promote at h
  split at h
  · obtain ⟨⟨moved, q⟩, hq, h⟩ := bind_ok h
    dsimp only at h
    split at h
    · exact hR.trans (hR.migrateAsync hq) (hR.migrate h)
    · cases h
      exact hR.migrateAsync hq
  · exact hR.migrate h

theorem promoteAll {async : Bool} : ∀ {l : List BlockId} {p p' : BlockPool} {n : Nat},
    CacheManager.promoteAll async l p = .ok (n, p') → R p p'
  | [], p, p', n, h => by
    cases h
    exact hR.refl _
  | id :: l, p, p', n, h => by
    obtain ⟨tier, -, h⟩ := bind_ok h
    split at h
    · exact promoteAll h
    obtain ⟨⟨moved, q⟩, hq, h⟩ := bind_ok h
    dsimp only at h
    split at h
    · cases h
    obtain ⟨⟨k, q'⟩, hq', h⟩ := bind_ok h
    cases h
    exact hR.trans (hR.promote hq) (promoteAll hq')

theorem allocateAll : ∀ {n : Nat} {p p' : BlockPool} {ids : List BlockId},
    CacheManager.allocateAll n p = .ok (ids, p') → R p p'
  | 0, p, p', ids, h => by
    cases h
    exact hR.refl _
  | n + 1, p, p', ids, h => by
    obtain ⟨⟨id, q⟩, hq, h⟩ := bind_ok h
    dsimp only at h
    split at h
    · cases h
    obtain ⟨⟨ids', q'⟩, hq', h⟩ := bind_ok h
    cases h
    exact hR.trans (hR.allocate hq) (allocateAll hq')

theorem maintain (h : m.maintain = .ok m') : R m.pool m'.pool := by
  obtain rfl | ⟨V, k, p, -, hq, rfl⟩ := maintain_cases h
  · exact hR.refl _
  · exact hR.moveWhile (fun h => hR.migrateAsync h) hq

theorem lookup {r : Request} (h : m.lookup key tokens = .ok r) : R m.pool r.mgr.pool := by
  obtain ⟨found, t, t', p, k, -, -, hp, -, hr⟩ := lookup_cases h
  rw [hr]
  exact hR.trans (hR.drain _) (hR.cancelDemotions hp)

theorem makeRoom (h : m.makeRoom n = .ok m') : R m.pool m'.pool := by
  obtain rfl | ⟨V, k, p, -, hq, rfl⟩ := makeRoom_cases h
  · exact hR.refl _
  · exact hR.moveWhile (fun h => hR.migrate h) hq

theorem serve {fresh : Nat} (h : m.serve al fresh tokens = .ok (al', m')) :
    R m.pool m'.pool := by
  obtain ⟨m₁, hs, hm⟩ := serve_cases h
  obtain ⟨k, p, ids, q, hp, hq, -, rfl⟩ := stock_cases hs
  exact hR.trans (hR.promoteAll hp) (hR.trans (hR.allocateAll hq) (hR.maintain hm))

end MoveClosed

namespace CallClosed

variable {R : BlockPool → BlockPool → Prop} (hR : CallClosed R) {key : List TokenId → UInt64}
  {t t' : RadixTree} {m m' : CacheManager} {p p' : BlockPool} {tokens : List TokenId}
  {al al' : Allocation} {n : Nat}
include hR

theorem decrefAll {l : List BlockId} {r : Nat} (h : decrefAll l p = .ok (r, p')) : R p p' :=
  decrefAll_keeps (I := R p) (fun hp hd => hR.trans hp (hR.decref hd)) h (hR.refl p)

theorem dropLeaf {victim : Node} (h : t.dropLeaf key p victim = .ok (n, t', p')) : R p p' := by
  obtain ⟨⟨r, q⟩, hq, h⟩ := bind_ok h
  dsimp only at h
  split at h
  · cases h
  · cases h
    exact hR.decrefAll hq

theorem evictLoop : ∀ {fuel freed : Nat} {rejected : List NodeId} {t : RadixTree} {p : BlockPool}
    {r : Nat}, evictLoop key n fuel freed rejected t p = .ok (r, t', p') → R p p'
  | fuel, freed, rejected, t, p, r, h => by
    unfold RadixTree.evictLoop at h
    split at h
    · cases h
      exact hR.refl _
    split at h
    · cases h
      exact hR.refl _
    · cases h
    obtain ⟨sole, -, h⟩ := bind_ok h
    split at h
    · exact evictLoop h
    obtain ⟨⟨k, t₁, p₁⟩, hd, h⟩ := bind_ok h
    dsimp only at h
    split at h
    · cases h
    · exact hR.trans (hR.dropLeaf hd) (evictLoop h)

/-! ## The manager -/

theorem dropRefs : ∀ {l : List BlockId} {p : BlockPool},
    CacheManager.dropRefs l p = .ok p' → R p p'
  | [], p, h => by
    cases h
    exact hR.refl _
  | id :: l, p, h => by
    obtain ⟨⟨b, q⟩, hq, h⟩ := bind_ok h
    exact hR.trans (hR.decref hq) (dropRefs h)

theorem reclaim : ∀ {fuel : Nat} {m : CacheManager},
    CacheManager.reclaim key n fuel m = .ok m' → R m.pool m'.pool
  | fuel, m, h => by
    obtain rfl | ⟨k, t, p, he, hend⟩ := reclaim_cases h
    · exact hR.refl _
    have h₁ : R m.pool p := hR.evictLoop he
    obtain rfl | ⟨rest, rfl, hrest⟩ := hend
    · exact h₁
    · exact hR.trans h₁ (reclaim hrest)

theorem acquire (h : m.acquire key tokens = .ok (al, m')) : R m.pool m'.pool := by
  obtain ⟨-, -, rfl⟩ | ⟨-, r, m₁, m₂, hr, hm₁, hm₂, hend⟩ := acquire_cases h
  · exact hR.refl _
  have h₂ := hR.trans (hR.trans (hR.lookup hr) (hR.makeRoom hm₁)) (hR.reclaim hm₂)
  rcases hend with ⟨-, hrf⟩ | ⟨-, hsv⟩
  · obtain ⟨t, -, -, rfl⟩ := refuse_cases hrf
    exact h₂
  · exact hR.trans h₂ (hR.serve hsv)

theorem release {ws : List (WorkerId × WorkerAct)}
    (hins : ∀ {n t p}, m.tree.insert key m.pool tokens al.blocks = .ok (n, t, p) → R m.pool p)
    (h : m.release key tokens al ws = .ok (al', m')) : R m.pool m'.pool := by
  obtain ⟨-, -, rfl⟩ | ⟨-, m₁, hg, hm⟩ := release_cases h
  · exact hR.refl _
  obtain ⟨k, t, p, p', t', hi, hd, -, -, rfl⟩ := giveBack_cases hg
  have h₁ : R m.pool p' := hR.trans (hins hi) (hR.dropRefs hd)
  exact hR.trans h₁ (hR.trans (hR.work p' ws) (hR.trans (hR.drain _) (hR.maintain hm)))

theorem destruct (h : m.destruct al = .ok (al', m')) : R m.pool m'.pool := by
  obtain ⟨-, -, rfl⟩ | ⟨-, -, p', t', hd, -, rfl⟩ := destruct_cases h
  · exact hR.refl _
  · exact hR.dropRefs hd

theorem ready {b : Bool} (h : m.ready al = .ok (b, m')) : R m.pool m'.pool := by
  obtain rfl | rfl := ready_cases h
  · exact hR.refl _
  · exact hR.drain _

variable {s s' : System} {op : Op}

/-- **What a step of a program does to the pool it does by calls.** -/
theorem step
    (hins : ∀ h ∈ s.vars, h.alloc.ok = true → ∀ {tokens n t p}, h.Agrees tokens →
      s.mgr.tree.insert key s.mgr.pool tokens h.alloc.blocks = .ok (n, t, p) → R s.mgr.pool p)
    (h : System.Step key s op s') : R s.mgr.pool s'.mgr.pool := by
  cases op with
  | acquire tokens =>
    obtain ⟨-, ⟨al, m'⟩, he, rfl⟩ := System.acquire_call h
    exact hR.acquire he
  | construct =>
    cases h
    exact hR.refl _
  | moveConstruct i =>
    obtain ⟨h₁, -, h⟩ := Option.bind_eq_some_iff.mp h
    cases h
    exact hR.refl _
  | moveAssign i j =>
    obtain ⟨dst, -, h⟩ := Option.bind_eq_some_iff.mp h
    obtain ⟨src, -, h⟩ := Option.bind_eq_some_iff.mp h
    split at h
    · cases h
      exact hR.refl _
    · obtain ⟨⟨al, m'⟩, he, rfl⟩ := System.call_ok h
      exact hR.destruct he
  | destroy i =>
    obtain ⟨h₁, -, h⟩ := Option.bind_eq_some_iff.mp h
    obtain ⟨⟨al, m'⟩, he, rfl⟩ := System.call_ok h
    exact hR.destruct he
  | release i tokens ws =>
    obtain ⟨h₁, hget, ⟨-, ha⟩, ⟨al, m'⟩, he, rfl⟩ := System.release_call h
    by_cases hok : h₁.alloc.ok = true
    · exact hR.release (hins h₁ (List.mem_of_getElem? hget) hok ha) he
    · obtain ⟨-, -, rfl⟩ | ⟨h', -⟩ := release_cases he
      · exact hR.refl _
      · exact absurd h' hok
  | ready i =>
    obtain ⟨h₁, -, h⟩ := Option.bind_eq_some_iff.mp h
    obtain ⟨⟨b, m'⟩, he, rfl⟩ := System.call_ok h
    exact hR.ready he
  | wait =>
    obtain ⟨p', hp, h⟩ := Option.bind_eq_some_iff.mp h
    cases h
    obtain ⟨-, rfl⟩ := waitForMigrations_ok hp
    exact hR.drain _
  | worker w act =>
    obtain ⟨p', hp, h⟩ := Option.bind_eq_some_iff.mp h
    cases h
    exact hR.worker hp

end CallClosed

namespace System

variable {key : List TokenId → UInt64} {s s' : System} {op : Op}

theorem step_plays (h : Step key s op s') : Plays s.mgr.pool s'.mgr.pool :=
  Plays.closed.step (fun _ _ _ => fun _ hi => insert_plays hi) h

/-- **Every run of a program is an interleaving of the pool's protocol.** -/
theorem run_plays {tr : List Op} (h : Run (Step key) s tr s') : Plays s.mgr.pool s'.mgr.pool := by
  induction h with
  | nil => exact .refl _
  | snoc _ hl ih => exact ih.trans (step_plays hl)

/-- The queue is in order in every state a program reaches. -/
theorem ordered_reach {specs : List TierSpec} {cfg : CacheConfig} {options : Options}
    {mem : Arena.Mem TierIndex UInt8} {m₀ : CacheManager} {tr : List Op}
    (h0 : CacheManager.create specs cfg options mem = .ok m₀)
    (hrun : Run (Step key) (start m₀) tr s) :
    ∃ Q C, QueueState.Ordered ⟨s.mgr.pool, .outside, Q, C⟩ := by
  obtain ⟨hp, -⟩ := create_ok h0
  obtain ⟨ops, Q, C, hr⟩ := run_plays hrun [] []
  exact ⟨Q, C, hr.invariant (fun _ _ _ hi hs => hi.next hs) (QueueState.ordered_init hp)⟩

end System

end KvsLab
