import KvsLab.BlockPool.Migration
import KvsLab.CacheManager.PoolCalls
import KvsLab.RadixTree.Teardown

/-!
# Taking a manager apart

The members of a manager go in reverse order: the tree gives its blocks back to the pool, and the
pool still has the jobs that were under way.

* `DrainStep` — what may happen to the pool after that: worker actions, drains and waits.
* `Empty` — no block is allocated; `Empty.all_free` — once no job is queued either, every slot of
  every tier is free.
* `System.teardown_exact` — **the tree gives back exactly what it holds, and a manager without live
  handles leaves an empty pool behind.**
-/

namespace KvsLab

open RadixTree BlockPool CacheManager Transition

namespace BlockPool

variable {p p' : BlockPool}

/-- Worker actions, drains and waits. -/
def PoolOp.drains : PoolOp → Bool
  | .worker .. | .drainMigrations | .waitForMigrations => true
  | _ => false

/-- A step of a pool that nobody calls any more but to drain it. -/
def DrainStep (p : BlockPool) (op : PoolOp) (p' : BlockPool) : Prop :=
  Step p op p' ∧ op.drains = true

/-- A sound pool without allocated blocks. -/
structure Empty (p : BlockPool) : Prop where
  inv : p.Inv
  refcount : ∀ b, p.refcount b = 0

theorem Empty.allocatedIds (h : Empty p) : p.allocatedIds = [] := by
  refine List.eq_nil_iff_forall_not_mem.mpr fun b hb => ?_
  exact (mem_allocatedIds h.inv).mp hb (h.refcount b)

theorem Empty.drainStep (h : Empty p) {op : PoolOp} (he : DrainStep p op p') : Empty p' := by
  refine ⟨h.inv.next he.1, fun b => ?_⟩
  obtain ⟨he, hop⟩ := he
  cases op with
  | worker w act =>
    rw [(SameBooks.workerStep he).refcount]
    exact h.refcount b
  | drainMigrations =>
    cases he
    rw [drain_refcount]
    exact h.refcount b
  | waitForMigrations =>
    obtain ⟨-, rfl⟩ := waitForMigrations_ok he
    rw [drain_refcount]
    exact h.refcount b
  | _ => cases hop

theorem Empty.run (h : Empty p) {tr : List PoolOp} (hr : Run DrainStep p tr p') :
    Empty p' ∧ SameShape p p' :=
  hr.invariant (I := fun q => Empty q ∧ SameShape p q)
    (fun _ _ _ hi he => ⟨hi.1.drainStep he, hi.2.trans (SameShape.next he.1)⟩) ⟨h, .refl p⟩

/-- With no block and no job, every slot is free. -/
theorem Empty.all_free (h : Empty p) (hj : p.jobs = []) {t : TierIndex} (ht : t < p.numTiers) :
    (p.tiers t).freeSlots.Perm (List.range (p.tiers t).numBlocks) := by
  have hperm := h.inv.slots_perm ht
  have hres : p.residentSlots t = [] := by
    unfold residentSlots
    rw [h.allocatedIds]
    rfl
  have hrsv : p.reservedSlots t = [] := by
    unfold reservedSlots
    rw [hj]
    rfl
  rwa [hres, hrsv, List.append_nil, List.append_nil] at hperm

/-- **The jobs of an ordered queue can be drained.** -/
theorem exists_drained {Q : List JobPtr} {C : List (WorkerId × JobPtr)}
    (h : QueueState.Ordered ⟨p, .outside, Q, C⟩) : ∃ tr p', Run DrainStep p tr p' ∧ p'.jobs = [] := by
  obtain ⟨ws, p', hr, hall, -⟩ := h.exists_waited rfl
  have hr : Run DrainStep p (ws.map fun a => .worker a.1 a.2) p' :=
    Run.relabel id _ (fun _ _ _ hw => ⟨hw, rfl⟩) hr
  have hstep : DrainStep p' .drainMigrations p'.drainMigrations := ⟨rfl, rfl⟩
  refine ⟨_, _, hr.snoc hstep, ?_⟩
  rw [drain_jobs, dropWhile_done hall]

end BlockPool

namespace System

variable {key : List TokenId → UInt64} {s : System} {m₀ : CacheManager} {specs : List TierSpec}
  {cfg : CacheConfig} {options : Options} {mem : Arena.Mem TierIndex UInt8} {tr : List Op}

/-- With no live handle the tree holds every reference. -/
theorem Inv.idle_refs (hi : s.Inv key) (hl : s.live = []) (b : BlockId) :
    s.mgr.pool.refcount b = (blocksOf s.mgr.tree.places).count b := by
  have hb := Good.books hi
  rw [hb.refs b, hl]
  unfold held
  rw [List.map_nil, List.flatMap_nil, List.append_nil]

/-- The tree of a manager without live handles leaves an empty pool. -/
theorem Inv.destroy (hi : s.Inv key) (hl : s.live = []) :
    ∃ dead p', s.mgr.tree.destroy s.mgr.pool = .ok (dead, p') ∧ Empty p' ∧
      SameShape s.mgr.pool p' ∧ Plays s.mgr.pool p' := by
  have hb := Good.books hi
  have hrefs := hi.idle_refs hl
  have hback : Backed s.mgr.tree s.mgr.pool := by
    refine ⟨fun b hm => hb.inv.lt_of_refcount ?_, fun b => (hrefs b).ge⟩
    exact hb.held_iff.mpr (Books.mem_held_tree _ hm)
  obtain ⟨dead, l, r, p', he, -, -, hperm, hdec⟩ := hb.wf.destroy hback
  have hkeep : p'.Inv ∧ SameShape s.mgr.pool p' := by
    refine decrefAll_keeps (I := fun q => q.Inv ∧ SameShape s.mgr.pool q) ?_ hdec
      ⟨hb.inv, .refl _⟩
    intro q q' b f h hd
    exact ⟨h.1.decref hd, h.2.trans (.next (decref_step hd))⟩
  refine ⟨dead, p', he, ⟨hkeep.1, fun b => ?_⟩, hkeep.2, Plays.closed.decrefAll hdec⟩
  have hcount := decrefAll_counts hdec b
  rw [hperm.count_eq b, hrefs b] at hcount
  omega

/-- **Teardown returns every block exactly once.**  The destructor of any well-formed tree whose
references the pool counts returns, visits every node once and lowers each count by the occurrences
of its block in the tree, whatever is migrating; every tree reached by its own calls is such a tree
as long as nobody else gives its references back.  In a manager without live handles it leaves no
block in use, and once the remaining jobs are drained every slot of every tier is free. -/
theorem teardown_exact :
    (∀ (t : RadixTree) (p : BlockPool), WF key t → Backed t p →
      ∃ dead p', t.destroy p = .ok (dead, p') ∧ (dead.map (·.id)).Nodup ∧
        (dead.map (·.id)).Perm (t.root.id :: t.children.vals.map (·.id)) ∧
        ∀ b, p'.refcount b + (blocksOf t.places).count b = p.refcount b) ∧
    (∀ {cfg : CacheConfig} {specs : List TierSpec} {mem : Arena.Mem TierIndex UInt8}
      {p₀ : BlockPool} {bt : Nat} {t₀ : RadixTree} {tr : List TreeOp} {s : TreeState},
      BlockPool.init cfg specs mem = .ok p₀ → RadixTree.create bt = .ok t₀ →
      Run (TreeState.OwnedStep key) { tree := t₀, pool := p₀ } tr s →
      WF key s.tree ∧ Backed s.tree s.pool) ∧
    ∀ {specs : List TierSpec} {cfg : CacheConfig} {options : Options}
      {mem : Arena.Mem TierIndex UInt8} {m₀ : CacheManager} {tr : List Op} {s : System},
      CacheManager.create specs cfg options mem = .ok m₀ →
      (specs.map (·.numBlocks)).sum < 2 ^ 32 → Run (Step key) (start m₀) tr s → s.live = [] →
      ∃ dead p', s.mgr.tree.destroy s.mgr.pool = .ok (dead, p') ∧ p'.numUsed = 0 ∧
        (∃ tr' q, Run DrainStep p' tr' q ∧ q.jobs = []) ∧
        ∀ tr' q, Run DrainStep p' tr' q → q.jobs = [] → ∀ t < s.mgr.pool.numTiers,
          (q.tiers t).freeSlots.Perm (List.range (s.mgr.pool.tiers t).numBlocks) := by
  refine ⟨?_, TreeState.backed_reach, ?_⟩
  · intro t p hw hb
    obtain ⟨dead, l, r, p', he, hids, -, hperm, hdec⟩ := hw.destroy hb
    refine ⟨dead, p', he, hids.nodup_iff.mpr (TreeState.represents_of_wf hw).addresses, hids,
      fun b => ?_⟩
    rw [← hperm.count_eq b]
    exact decrefAll_counts hdec b
  · intro specs cfg options mem m₀ tr s h0 hfit hrun hl
    obtain ⟨dead, p', he, hempty, hshape, hplays⟩ := (reach h0 hfit hrun).destroy hl
    refine ⟨dead, p', he, ?_, ?_, fun tr' q hr hj t ht => ?_⟩
    · rw [numUsed_eq hempty.inv, hempty.allocatedIds]
      rfl
    · obtain ⟨Q, C, hord⟩ := ordered_reach h0 hrun
      obtain ⟨ops, Q', C', hplay⟩ := hplays Q C
      exact exists_drained (hplay.invariant (fun _ _ _ hi hs => hi.next hs) hord)
    · obtain ⟨hq, hsh⟩ := hempty.run hr
      have hsame := hshape.trans hsh
      rw [← hsame.tierBlocks t]
      exact hq.all_free hj (hsame.numTiers ▸ ht)

/-- A sequence is published, and a background demotion of one of its blocks is queued. -/
def demotingTrace : List Op := [.acquire [1, 2, 3, 4], .release 0 [1, 2, 3, 4] []]

theorem teardown_exact_demoting : ∃ m₀ s dead p',
    CacheManager.create twoTierSpecs twoTierConfig { spillWatermark := 3 } (fun _ _ => 0) = .ok m₀ ∧
    Run (Step blockKey) (start m₀) demotingTrace s ∧ s.live = [] ∧
    s.mgr.pool.numUsed = 2 ∧ s.mgr.pool.migratingIds.length = 1 ∧
    s.mgr.tree.destroy s.mgr.pool = .ok (dead, p') ∧ p'.numUsed = 0 ∧
    ∃ q : BlockPool, q.jobs = [] ∧ ∀ t < s.mgr.pool.numTiers,
      (q.tiers t).freeSlots.Perm (List.range (s.mgr.pool.tiers t).numBlocks) := by
  have hs : ((CacheManager.create twoTierSpecs twoTierConfig { spillWatermark := 3 }
      (fun _ _ => 0)).toOption.bind fun m₀ =>
        (exec (step? blockKey) (start m₀) demotingTrace).map fun s =>
          (s.live.length, s.mgr.pool.numUsed, s.mgr.pool.migratingIds.length)) =
        some (0, 2, 1) := by
    decide +kernel
  obtain ⟨m₀, h0, hm⟩ := Option.bind_eq_some_iff.mp hs
  obtain ⟨s, hx, he⟩ := Option.map_eq_some_iff.mp hm
  obtain ⟨hl, hn⟩ := Prod.mk.inj he
  obtain ⟨hu, hm⟩ := Prod.mk.inj hn
  have h0 := toOption_eq_some h0
  have hrun := run_of_step? hx
  have hl : s.live = [] := List.length_eq_zero_iff.mp hl
  obtain ⟨dead, p', hd, hzero, ⟨tr', q, hr, hj⟩, hall⟩ :=
    (@teardown_exact blockKey).2.2 h0 (by decide) hrun hl
  exact ⟨m₀, s, dead, p', h0, hrun, hl, hu, hm, hd, hzero, q, hj, hall tr' q hr hj⟩

end System

end KvsLab
