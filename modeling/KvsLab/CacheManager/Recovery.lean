import KvsLab.CacheManager.Capacity
import KvsLab.CacheManager.Refusal
import KvsLab.CacheManager.Teardown

/-!
# Nothing is lost for good

A refusal can come from slots that abandoned promotions still hold.  They come back.

* `Quiet` — every queued job is done, so a wait would return.
* `Unheld` — no handle variable holds blocks or a pin.
* `Inv.served_iff` — in a quiet state a request is served exactly when the blocks in use and the
  fresh blocks it needs fit the compute tier; `Inv.inUse_unheld` — with no handle left these are the
  blocks of the request.
* `Inv.winds_down` — destroying handles, worker actions and one wait lead there from any state.
* `recovers` — **so from every reachable state the whole compute tier can be had again.**
-/

namespace KvsLab

open RadixTree BlockPool CacheManager Transition

/-- What a program does to wind down. -/
def Op.winds : Op → Bool
  | .destroy _ => true
  | .worker _ _ => true
  | .wait => true
  | _ => false

namespace System

variable {key : List TokenId → UInt64} {s s' : System} {m₀ m' : CacheManager} {h : Handle}
  {specs : List TierSpec} {cfg : CacheConfig} {options : Options}
  {mem : Arena.Mem TierIndex UInt8} {tr : List Op} {tokens : List TokenId} {al : Allocation}

def Quiet (s : System) : Prop := ∀ j ∈ s.mgr.pool.jobs, j.done = true

def Unheld (s : System) : Prop := ∀ h ∈ s.vars, (h.alloc.ok && h.alloc.owner) = false

/-! ## Requests in a quiet state -/

theorem Quiet.stranded (hq : s.Quiet) : s.stranded key tokens = 0 := by
  unfold System.stranded
  rw [dropWhile_done hq]
  rfl

/-- Without unfinished jobs a request is served exactly when its blocks fit beside those in use. -/
theorem Inv.served_iff (hi : s.Inv key) (hq : s.Quiet) (ht : tokens ≠ [])
    (he : s.mgr.acquire key tokens = .ok (al, m')) :
    al.ok = true ↔ (s.inUse key tokens).length + s.freshNeed key tokens ≤ s.computeBlocks := by
  have hiff := hi.refused_iff ht he
  rw [hq.stranded, Nat.add_zero] at hiff
  rw [← Nat.not_lt, ← hiff, Bool.not_eq_false]

/-- Tables of handles that own nothing are empty. -/
theorem Inv.unheld_tables (hi : s.Inv key) (hu : s.Unheld) :
    s.live.flatMap (·.alloc.blocks) = [] := by
  rw [List.flatMap_eq_nil_iff]
  intro h hh
  obtain ⟨hm, hok⟩ := List.mem_filter.mp hh
  have ho := hu h hm
  rw [hok, Bool.true_and] at ho
  exact ((Good.handles hi h hh).owner ho).1

/-- With no handle left, a request needs its own blocks and nothing else is in use. -/
theorem Inv.inUse_unheld (hi : s.Inv key) (hu : s.Unheld)
    (hw : tokens.length + s.mgr.cfg.blockTokens ≤ 2 ^ 64) :
    (s.inUse key tokens).length + s.freshNeed key tokens =
      tokens.length ⌈/⌉ s.mgr.cfg.blockTokens := by
  obtain ⟨a⟩ := attempt (Good.books hi) tokens
  obtain ⟨hm, -⟩ := inUse_eq a
  have hle : a.request.alloc.blocks.length ≤ tokens.length ⌈/⌉ s.mgr.cfg.blockTokens :=
    (Good.bt hi ▸ a.looked.matched_le (Good.books hi).wf.bt_pos).trans div_le_ceilDiv
  have hused : s.inUse key tokens = a.request.alloc.blocks := by
    unfold System.inUse
    rw [hi.unheld_tables hu, List.nil_append, hm]
    exact List.dedup_eq_self.mpr a.matched_nodup
  rw [freshNeed_eq hw, hused, hm]
  omega

/-! ## Winding down -/

/-- A destroyed variable holds nothing, and the others are as they were. -/
theorem Inv.destroys (hi : s.Inv key) {i : Nat} (hlt : i < s.vars.length) :
    ∃ s', Step key s (.destroy i) s' ∧ s'.Inv key ∧
      ∃ h, (h.alloc.ok && h.alloc.owner) = false ∧ s'.vars = s.vars.set i h := by
  obtain ⟨s', hr, hi', -⟩ := destroy_step hi (List.getElem?_eq_getElem hlt)
  refine ⟨s', hr, hi', ?_⟩
  obtain ⟨h, -, hs⟩ := Option.bind_eq_some_iff.mp hr
  obtain ⟨⟨a', m'⟩, he, rfl⟩ := call_ok hs
  refine ⟨_, ?_, rfl⟩
  obtain ⟨hno, rfl, -⟩ | ⟨-, rfl, -⟩ := destruct_cases he
  · exact hno
  · rfl

/-- The first `n` variables destroyed. -/
theorem Inv.destroys_upto (hi : s.Inv key) : ∀ n ≤ s.vars.length,
    ∃ tr s', Run (Step key) s tr s' ∧ (∀ op ∈ tr, op.winds = true) ∧ s'.Inv key ∧
      s'.vars.length = s.vars.length ∧
      ∀ i < n, ∀ h, s'.vars[i]? = some h → (h.alloc.ok && h.alloc.owner) = false
  | 0, _ => ⟨[], s, .nil, nofun, hi, rfl, nofun⟩
  | n + 1, hn => by
    obtain ⟨tr, s₁, hrun, hops, hi₁, hlen, hdone⟩ := hi.destroys_upto n (by omega)
    obtain ⟨s₂, hs, hi₂, h, hno, hvars⟩ := hi₁.destroys (by omega : n < s₁.vars.length)
    refine ⟨tr ++ [.destroy n], s₂, hrun.snoc hs, fun op hop => ?_, hi₂, ?_, fun i hlt x hx => ?_⟩
    · rcases List.mem_append.mp hop with hop | hop
      · exact hops op hop
      · rw [List.mem_singleton.mp hop]
        rfl
    · rw [hvars, List.length_set, hlen]
    · rw [hvars] at hx
      by_cases hin : i = n
      · subst hin
        rw [List.getElem?_set_self (by omega)] at hx
        cases hx
        exact hno
      · rw [List.getElem?_set_ne (fun e => hin e.symm)] at hx
        exact hdone i (by omega) x hx

/-- **Destroying its handles, letting the workers finish and waiting, a program comes to hold
nothing and to wait for nothing.** -/
theorem winds_down (h0 : CacheManager.create specs cfg options mem = .ok m₀)
    (hfit : (specs.map (·.numBlocks)).sum < 2 ^ 32) (hrun : Run (Step key) (start m₀) tr s) :
    ∃ tr' s', Run (Step key) s tr' s' ∧ (∀ op ∈ tr', op.winds = true) ∧ s'.Unheld ∧
      s'.mgr.pool.jobs = [] := by
  obtain ⟨tr₁, s₁, hrun₁, hops₁, -, hlen, hdone⟩ :=
    (reach h0 hfit hrun).destroys_upto s.vars.length (Nat.le_refl _)
  obtain ⟨Q, C, hord⟩ := ordered_reach h0 (hrun.append hrun₁)
  obtain ⟨ws, q, hq, hall, hret⟩ := hord.exists_waited rfl
  have hrun₂ : Run (Step key) s₁ (ws.map fun a => .worker a.1 a.2)
      { s₁ with mgr := { s₁.mgr with pool := q } } := by
    refine Run.relabel (fun p => { s₁ with mgr := { s₁.mgr with pool := p } }) _ ?_ hq
    intro p a p' hw
    have hw : p.workerStep a.1 a.2 = some p' := hw
    show (p.workerStep a.1 a.2).bind _ = _
    rw [hw]
    rfl
  have hwait : Step key { s₁ with mgr := { s₁.mgr with pool := q } } .wait
      { s₁ with mgr := { s₁.mgr with pool := q.drainMigrations } } := by
    show (q.waitForMigrations).bind _ = _
    rw [hret]
    rfl
  refine ⟨_, _, (hrun₁.append hrun₂).snoc hwait, fun op hop => ?_, fun h hh => ?_, ?_⟩
  · rcases List.mem_append.mp hop with hop | hop
    · rcases List.mem_append.mp hop with hop | hop
      · exact hops₁ op hop
      · obtain ⟨a, -, rfl⟩ := List.mem_map.mp hop
        rfl
    · rw [List.mem_singleton.mp hop]
      rfl
  · obtain ⟨i, hlt, hget⟩ := List.getElem_of_mem hh
    exact hdone i (hlen ▸ hlt) h (hget ▸ List.getElem?_eq_getElem hlt)
  · show q.drainMigrations.jobs = []
    rw [drain_jobs, dropWhile_done hall]

/-! ## Recovery -/

/-- A run changes neither the configuration nor the size of the compute tier. -/
theorem run_shape (hi : s.Inv key) (hr : Run (Step key) s tr s') :
    s'.mgr.cfg = s.mgr.cfg ∧ s'.computeBlocks = s.computeBlocks := by
  refine (hr.invariant (I := fun t => t.Inv key ∧ t.mgr.cfg = s.mgr.cfg ∧
    t.computeBlocks = s.computeBlocks) ?_ ⟨hi, rfl, rfl⟩).2
  intro t op t' ⟨hi, hcfg, hblocks⟩ hs
  obtain ⟨hi', hev⟩ := hi.step hs
  obtain ⟨_, _, _, -, -, hc, -⟩ := hev.handles
  exact ⟨hi', hc.cfg.trans hcfg, (hc.shape.tierBlocks 0).trans hblocks⟩

/-- **Nothing is lost for good.**  From every state a program reaches it can wind down to one that
holds nothing and waits for nothing; and whenever no job is left undone, a request is served exactly
when the blocks in use and the fresh ones fit the compute tier, which with no handle left is when its
own blocks do, as long as the sum of sizes that counts them does not wrap. -/
theorem recovers (h0 : CacheManager.create specs cfg options mem = .ok m₀)
    (hfit : (specs.map (·.numBlocks)).sum < 2 ^ 32) (hrun : Run (Step key) (start m₀) tr s) :
    (∃ tr' s', Run (Step key) s tr' s' ∧ (∀ op ∈ tr', op.winds = true) ∧ s'.Unheld ∧ s'.Quiet) ∧
    (s.Quiet → ∀ tokens, tokens ≠ [] → ∃ al m', s.mgr.acquire key tokens = .ok (al, m') ∧
      (al.ok = true ↔ (s.inUse key tokens).length + s.freshNeed key tokens ≤
        (m₀.pool.tiers 0).numBlocks) ∧
      (tokens.length + cfg.blockTokens ≤ 2 ^ 64 →
        s.freshNeed key tokens =
          tokens.length ⌈/⌉ cfg.blockTokens - (s.matchedBlocks key tokens).length ∧
        (s.Unheld → (al.ok = true ↔
          tokens.length ⌈/⌉ cfg.blockTokens ≤ (m₀.pool.tiers 0).numBlocks)))) := by
  have hi := reach h0 hfit hrun
  constructor
  · obtain ⟨tr', s', hr, hops, hu, hj⟩ := winds_down h0 hfit hrun
    refine ⟨tr', s', hr, hops, hu, fun j hm => ?_⟩
    rw [hj] at hm
    cases hm
  · intro hq tokens ht
    obtain ⟨al, m', he, -⟩ := acquire_spec (Good.books hi) (Good.settled hi) tokens
    have hiff := hi.served_iff hq ht he
    obtain ⟨hcfg, hblocks⟩ := run_shape (start_inv h0 hfit) hrun
    obtain ⟨-, -, -, hc⟩ := create_ok h0
    have hcfg : s.mgr.cfg = cfg := hcfg.trans hc
    rw [hblocks] at hiff
    refine ⟨al, m', he, hiff, fun hw => ⟨?_, fun hu => hiff.trans ?_⟩⟩
    · rw [freshNeed_eq (hcfg ▸ hw), hcfg]
    · rw [hi.inUse_unheld hu (hcfg ▸ hw), hcfg]
      rfl

/-- The request that was refused for a stranded slot is served once the program has wound down. -/
theorem recovers_stranded : ∃ m₀ s tr s' al m al' m',
    CacheManager.create tightSpecs twoTierConfig ⟨0, true⟩ (fun _ _ => 0) = .ok m₀ ∧
    Run (Step blockKey) (start m₀) strandedTrace s ∧
    s.mgr.acquire blockKey [7, 8, 9, 10] = .ok (al, m) ∧ al.ok = false ∧
    Run (Step blockKey) s tr s' ∧ (∀ op ∈ tr, op.winds = true) ∧
    s'.mgr.acquire blockKey [7, 8, 9, 10] = .ok (al', m') ∧ al'.ok = true := by
  have hs : ((CacheManager.create tightSpecs twoTierConfig ⟨0, true⟩ (fun _ _ => 0)).toOption.bind
      fun m₀ => (exec (step? blockKey) (start m₀) strandedTrace).bind fun s =>
        (s.mgr.acquire blockKey [7, 8, 9, 10]).toOption.map fun r =>
          (r.1.ok, (m₀.pool.tiers 0).numBlocks)) = some (false, 2) := by
    decide +kernel
  obtain ⟨m₀, h0, hm⟩ := Option.bind_eq_some_iff.mp hs
  obtain ⟨s, hx, hr⟩ := Option.bind_eq_some_iff.mp hm
  obtain ⟨⟨al, m⟩, ha, he⟩ := Option.map_eq_some_iff.mp hr
  obtain ⟨hok, hblocks⟩ := Prod.mk.inj he
  have h0 := toOption_eq_some h0
  have hrun := run_of_step? hx
  obtain ⟨⟨tr, s', hr, hops, hu, hq⟩, -⟩ := recovers h0 (by decide) hrun
  obtain ⟨al', m', ha', -, hiff⟩ :=
    (recovers h0 (by decide) (hrun.append hr)).2 hq [7, 8, 9, 10] (by decide)
  refine ⟨m₀, s, tr, s', al, m, al', m', h0, hrun, toOption_eq_some ha, hok, hr, hops, ha', ?_⟩
  rw [(hiff (by decide)).2 hu, hblocks]
  decide

end System

end KvsLab
