import KvsLab.BlockPool.Migration
import KvsLab.CacheManager.PoolCalls

/-!
# Readiness over whole runs

* `run_handles` — a handle that is live at both ends of a run has the same table at both, and each
  of its blocks was left alone or delivered.
* `WaitReady` — the loop of `wait_ready`, with the number of times its body ran; `Entered` — the same
  loop while it has not returned.
* `exists_waited`, `exists_waitReady` — the workers can always bring a wait, and so the loop, to its
  end.
* `readiness_gate` — blocks of live tables are in the compute tier for good or on their way there,
  so readiness is stable and `wait_ready` waits at most once.
-/

namespace KvsLab

open RadixTree BlockPool CacheManager Transition

namespace System

variable {key : List TokenId → UInt64} {s s' : System} {m m' m₀ : CacheManager} {h h' : Handle}
  {specs : List TierSpec} {cfg : CacheConfig} {options : Options}
  {mem : Arena.Mem TierIndex UInt8} {tr : List Op} {p p' : BlockPool} {b : BlockId}

/-! ## Live handles along a run -/

theorem serial_inj (hi : s.Inv key) (hh : h ∈ s.live) (hh' : h' ∈ s.live)
    (he : h'.serial = h.serial) : h' = h :=
  List.inj_on_of_nodup_map (Good.serials hi) hh' hh he

/-- What a run keeps of the handles that stay live. -/
structure SameHandles (s s' : System) : Prop where
  serial : s.nextSerial ≤ s'.nextSerial
  handle : ∀ h ∈ s.live, ∀ h' ∈ s'.live, h'.serial = h.serial →
    h' = h ∧ ∀ b ∈ h.alloc.blocks, Delivered s.mgr.pool s'.mgr.pool b

/-- One more step. -/
theorem SameHandles.step {s₁ : System} (hi : s.Inv key) (hs : SameHandles s s₁) {op : Op}
    (hev : Evolves key s₁ op s') : SameHandles s s' := by
  obtain ⟨K, gone, new, hl, hl', hc, hnew⟩ := hev.handles
  refine ⟨hs.serial.trans hev.serial, fun h hh h' hh' he => ?_⟩
  rcases List.mem_append.mp (hl'.mem_iff.mp hh') with hm | hm
  · -- a new handle has a serial number no earlier one had
    have h1 := hnew h' hm
    have h2 := Good.serials_lt hi h hh
    have h3 := hs.serial
    omega
  · have hh₁ : h' ∈ s₁.live := hl.mem_iff.mpr (List.mem_append_right _ hm)
    obtain ⟨rfl, hd⟩ := hs.handle h hh h' hh₁ he
    refine ⟨rfl, fun b hb => (hd b hb).trans ?_⟩
    refine hc.kept h'.claim (List.mem_map_of_mem hm) b ?_
    rw [Handle.claim, Allocation.claim_table]
    exact hb

/-- **A handle that stays live keeps its table**, block by block. -/
theorem run_handles (hi : s.Inv key) (hr : Run (Step key) s tr s') : SameHandles s s' := by
  induction hr with
  | nil =>
    refine ⟨Nat.le_refl _, fun h hh h' hh' he => ?_⟩
    exact ⟨serial_inj hi hh hh' he, fun b _ => .refl _ b⟩
  | snoc hr hs ih => exact ih.step hi ((hi.run hr).step hs).2

/-! ## The gate -/

/-- A block of a live table: in the compute tier with no migration in flight, or in a spill tier
with an uncancelled job queued for the compute tier. -/
def Gate (p : BlockPool) (b : BlockId) : Prop :=
  ((p.location b).tier = 0 ∧ p.migrating b = false) ∨
    ((p.location b).tier ≠ 0 ∧
      ∃ j ∈ p.jobs, j.id = b ∧ j.cancelled = false ∧ j.dstTier = 0)

theorem gate_of_homed (hp : p.Inv) (hb : Homed p b) : Gate p b := by
  rcases hb with ⟨h1, h2⟩ | ⟨h1, h2⟩
  · refine .inl ⟨h1, ?_⟩
    rw [hp.migrating_eq_isSome, h2]
    rfl
  · obtain ⟨j, hj, hi, ht⟩ := hp.target_eq_some.mp h2
    obtain ⟨hj, hc⟩ := mem_flights.mp hj
    exact .inr ⟨h1, j, hj, hi, hc, ht⟩

theorem homed_of_live (hi : s.Inv key) (hh : h ∈ s.live) (hb : b ∈ h.alloc.blocks) :
    Homed s.mgr.pool b := by
  refine Good.settled hi h.claim (List.mem_map_of_mem hh) b ?_
  rw [Handle.claim, Allocation.claim_table]
  exact hb

/-- A block that is home stays where it is. -/
theorem delivered_location (hd : Delivered p p' b) (hb : Homed p b)
    (h0 : (p.location b).tier = 0) : p'.location b = p.location b := by
  rcases hd.moved with ⟨h1, _⟩ | ⟨t, h1, _⟩
  · exact h1
  · rcases hb with ⟨_, h2⟩ | ⟨h2, _⟩
    · rw [h1] at h2; cases h2
    · exact absurd h0 h2

theorem drain_inv (hi : s.Inv key) :
    Inv key { s with mgr := { s.mgr with pool := s.mgr.pool.drainMigrations } } :=
  have hstep : _ ∧ Evolves key s .wait _ := hi.drain
  hstep.1

/-- `ready` on a live handle. -/
theorem ready_iff (hi : s.Inv key) (hh : h ∈ s.live) :
    ∃ r m', s.mgr.ready h.alloc = .ok (r, m') ∧ Inv key { s with mgr := m' } ∧
      (r = true ↔ ∀ b ∈ h.alloc.blocks, (m'.pool.location b).tier = 0) ∧
      ∀ b ∈ h.alloc.blocks, Delivered s.mgr.pool m'.pool b := by
  have hok := (Good.handles hi h hh).ok
  cases ho : h.alloc.owner with
  | true =>
    refine ⟨_, _, ready_spec (Good.books hi) (List.mem_map_of_mem hh) hok ho, drain_inv hi, ?_,
      fun b _ => (Good.books hi).inv.drain_block b⟩
    rw [List.all_eq_true]
    simp only [beq_iff_eq]
  | false =>
    -- a handle without an owner has an empty table
    have hb := ((Good.handles hi h hh).owner ho).1
    refine ⟨true, s.mgr, ?_, hi, ?_, ?_⟩
    · unfold CacheManager.ready
      rw [ho, hok]
      rfl
    · rw [hb]
      exact ⟨fun _ => nofun, fun _ => rfl⟩
    · rw [hb]
      exact nofun

/-- With every block in the compute tier, `ready` returns true. -/
theorem ready_of_tier (hi : s.Inv key) (hh : h ∈ s.live)
    (h0 : ∀ b ∈ h.alloc.blocks, (s.mgr.pool.location b).tier = 0) :
    ∃ m', s.mgr.ready h.alloc = .ok (true, m') := by
  obtain ⟨r, m', he, _, hr, hd⟩ := ready_iff hi hh
  have : r = true := hr.mpr fun b hb => by
    rw [delivered_location (hd b hb) (homed_of_live hi hh hb) (h0 b hb)]
    exact h0 b hb
  exact ⟨m', this ▸ he⟩

/-- Once true, `ready` stays true. -/
theorem ready_stable (hi : s.Inv key) (hh : h ∈ s.live)
    (hr : s.mgr.ready h.alloc = .ok (true, m')) {tr : List Op}
    (hrun : Run (Step key) { s with mgr := m' } tr s') (hh' : h' ∈ s'.live)
    (he : h'.serial = h.serial) : ∃ m'', s'.mgr.ready h'.alloc = .ok (true, m'') := by
  obtain ⟨r, m₁, he₁, hi', hall, _⟩ := ready_iff hi hh
  rw [hr] at he₁
  cases he₁
  have h0 := hall.mp rfl
  obtain ⟨rfl, hdel⟩ := (run_handles hi' hrun).handle h hh h' hh' he
  refine ready_of_tier (hi'.run hrun) hh' fun b hb => ?_
  rw [delivered_location (hdel b hb) (homed_of_live hi' hh hb) (h0 b hb)]
  exact h0 b hb

/-- With nothing in flight a home block is in the compute tier. -/
theorem tier_of_idle (hj : p.jobs = []) (hb : Homed p b) : (p.location b).tier = 0 := by
  rcases hb with ⟨h1, _⟩ | ⟨_, h2⟩
  · exact h1
  · have hn : p.target b = none := target_eq_none.mpr fun j hm => by
      have := (mem_flights.mp hm).1
      rw [hj] at this
      cases this
    rw [hn] at h2
    cases h2

/-- After a wait every live handle is ready. -/
theorem ready_of_waited (hi : s.Inv key) (hw : s.mgr.pool.waitForMigrations = some p)
    (hh : h ∈ s.live) : Inv key { s with mgr := { s.mgr with pool := p } } ∧
      ∃ m', ({ s.mgr with pool := p } : CacheManager).ready h.alloc = .ok (true, m') := by
  obtain ⟨_, rfl⟩ := waitForMigrations_ok hw
  have hi' := drain_inv hi
  refine ⟨hi', ready_of_tier hi' hh fun b hb => ?_⟩
  exact tier_of_idle ((Good.books hi).inv.waited hw).1 (homed_of_live hi' hh hb)

/-! ## Waiting -/

/-- The loop of `wait_ready`; the number is how often its body ran.  Workers may make progress
before every call. -/
inductive WaitReady (a : Allocation) : Nat → CacheManager → CacheManager → Prop where
  | done {m m' : CacheManager} (ws : List (WorkerId × WorkerAct)) :
      ({ m with pool := m.pool.work ws } : CacheManager).ready a = .ok (true, m') →
      WaitReady a 0 m m'
  | again {m m₁ m' : CacheManager} {p : BlockPool} {n : Nat} (ws ws' : List (WorkerId × WorkerAct)) :
      ({ m with pool := m.pool.work ws } : CacheManager).ready a = .ok (false, m₁) →
      (m₁.pool.work ws').waitForMigrations = some p →
      WaitReady a n { m₁ with pool := p } m' → WaitReady a (n + 1) m m'

theorem Inv.work (hi : s.Inv key) (ws : List (WorkerId × WorkerAct)) :
    Inv key { s with mgr := { s.mgr with pool := s.mgr.pool.work ws } } := by
  have hb := Good.books hi
  have hw := hb.inv.work ws
  exact Good.carried hi ⟨rfl, rfl, hw.shape, fun _ _ b _ => (hw.same b List.not_mem_nil).delivered⟩
    (hb.shifted hw) rfl

/-- The loop of `wait_ready` under way: its body was entered so many times, the last time from the
second manager. -/
inductive Entered (a : Allocation) : Nat → CacheManager → CacheManager → Prop where
  | first {m m₁ : CacheManager} (ws : List (WorkerId × WorkerAct)) :
      ({ m with pool := m.pool.work ws } : CacheManager).ready a = .ok (false, m₁) →
      Entered a 1 m m₁
  | again {m m₁ m₂ : CacheManager} {p : BlockPool} {n : Nat} (ws ws' : List (WorkerId × WorkerAct)) :
      ({ m with pool := m.pool.work ws } : CacheManager).ready a = .ok (false, m₁) →
      (m₁.pool.work ws').waitForMigrations = some p →
      Entered a n { m₁ with pool := p } m₂ → Entered a (n + 1) m m₂

/-- A loop that ran its body was under way. -/
theorem WaitReady.entered {a : Allocation} {n : Nat} (h : WaitReady a n m m') :
    n = 0 ∨ ∃ m₁, Entered a n m m₁ := by
  induction h with
  | done ws _ => exact .inl rfl
  | again ws ws' hr hw _ ih =>
    right
    rcases ih with rfl | ⟨m₂, he⟩
    · exact ⟨_, .first ws hr⟩
    · exact ⟨m₂, .again ws ws' hr hw he⟩

/-- The loop does not enter its body for a handle whose blocks are in the compute tier. -/
theorem not_entered {n : Nat} (hi : s.Inv key) (hh : h ∈ s.live)
    (h0 : ∀ b ∈ h.alloc.blocks, (s.mgr.pool.location b).tier = 0) :
    ¬ Entered h.alloc n s.mgr m' := by
  have hready : ∀ (ws : List (WorkerId × WorkerAct)) (m₁ : CacheManager),
      ({ s.mgr with pool := s.mgr.pool.work ws } : CacheManager).ready h.alloc ≠
        .ok (false, m₁) := by
    intro ws m₁ hr
    have hsame := ((Good.books hi).inv.work ws).same
    obtain ⟨m₂, he⟩ := ready_of_tier (hi.work ws) hh fun b hb => by
      show (((s.mgr.pool.work ws).location b).tier) = 0
      rw [(hsame b List.not_mem_nil).location]
      exact h0 b hb
    rw [he] at hr
    cases hr
  intro he
  cases he with
  | first ws hr => exact hready ws _ hr
  | again ws _ hr _ _ => exact hready ws _ hr

/-- The body of the loop is entered at most once, whether or not the wait in it ever returns. -/
theorem entered_once {n : Nat} (hi : s.Inv key) (hh : h ∈ s.live)
    (he : Entered h.alloc n s.mgr m') : n ≤ 1 := by
  cases he with
  | first ws _ => exact Nat.le_refl _
  | @again _ m₁ _ p n ws ws' hr hwait hrest =>
    exfalso
    obtain ⟨r, m₂, he, hi₁, _⟩ := ready_iff (hi.work ws) hh
    have he : ({ s.mgr with pool := s.mgr.pool.work ws } : CacheManager).ready h.alloc =
      .ok (r, m₂) := he
    rw [hr] at he
    cases he
    have hi₂ := hi₁.work ws'
    obtain ⟨_, rfl⟩ := waitForMigrations_ok hwait
    have hj := ((Good.books hi₂).inv.waited hwait).1
    have hi₃ := drain_inv hi₂
    exact not_entered hi₃ hh (fun b hb => tier_of_idle hj (homed_of_live hi₃ hh hb)) hrest

/-- The workers can bring a wait to its end in every state a program reaches. -/
theorem exists_waited (h0 : CacheManager.create specs cfg options mem = .ok m₀)
    (hrun : Run (Step key) (start m₀) tr s) :
    ∃ ws p, (s.mgr.pool.work ws).waitForMigrations = some p := by
  obtain ⟨Q, C, hord⟩ := ordered_reach h0 hrun
  obtain ⟨ws, p', hws, -, hret⟩ := hord.exists_waited rfl
  exact ⟨ws, _, (work_of_run hws).symm ▸ hret⟩

/-- And so the loop of `wait_ready`. -/
theorem exists_waitReady (h0 : CacheManager.create specs cfg options mem = .ok m₀)
    (hfit : (specs.map (·.numBlocks)).sum < 2 ^ 32) (hrun : Run (Step key) (start m₀) tr s)
    (hh : h ∈ s.live) : ∃ n m', WaitReady h.alloc n s.mgr m' := by
  obtain ⟨r, m₁, hr, hi₁, -, -⟩ := ready_iff (reach h0 hfit hrun) hh
  cases r with
  | true => exact ⟨0, m₁, .done [] hr⟩
  | false =>
    -- the program could have called `ready` itself, so the state after the call is reached as well
    obtain ⟨i, hget⟩ := List.getElem?_of_mem (List.mem_filter.mp hh).1
    have hstep : Step key s (.ready i) { s with mgr := m₁ } := by
      simp only [Step, next, hget, Option.bind_eq_bind, Option.bind_some, hr]
      rfl
    have hrun₁ : Run (Step key) (start m₀) (tr ++ [.ready i]) { s with mgr := m₁ } :=
      hrun.snoc hstep
    obtain ⟨ws, p, hw⟩ := exists_waited h0 hrun₁
    obtain ⟨-, m₂, hr₂⟩ := ready_of_waited (hi₁.work ws) hw hh
    exact ⟨1, m₂, .again [] ws hr hw (.done [] hr₂)⟩

/-- **Readiness gate and table stability.**  In every state a program reaches: each block of a
live table is in the compute tier with no migration in flight, or in a spill tier with a promotion
queued; as long as the handle lives its table is the same and a block in the compute tier does
not move; `ready` returns, with true exactly when the whole table is in the compute tier, and once
true stays true; the workers can bring a wait to its end, and after one `ready` is true; the loop of
`wait_ready` enters its body at most once, whether it returns or not, and can return. -/
theorem readiness_gate (h0 : CacheManager.create specs cfg options mem = .ok m₀)
    (hfit : (specs.map (·.numBlocks)).sum < 2 ^ 32) (hrun : Run (Step key) (start m₀) tr s) :
    (∀ h ∈ s.live, ∀ b ∈ h.alloc.blocks, Gate s.mgr.pool b) ∧
    (∀ tr' s', Run (Step key) s tr' s' → ∀ h ∈ s.live, ∀ h' ∈ s'.live, h'.serial = h.serial →
      h'.alloc = h.alloc ∧ ∀ b ∈ h.alloc.blocks, (s.mgr.pool.location b).tier = 0 →
        s'.mgr.pool.location b = s.mgr.pool.location b) ∧
    (∀ h ∈ s.live, ∃ r m', s.mgr.ready h.alloc = .ok (r, m') ∧
      (r = true ↔ ∀ b ∈ h.alloc.blocks, (m'.pool.location b).tier = 0)) ∧
    (∀ h ∈ s.live, ∀ m', s.mgr.ready h.alloc = .ok (true, m') →
      ∀ tr' s', Run (Step key) { s with mgr := m' } tr' s' →
        ∀ h' ∈ s'.live, h'.serial = h.serial → ∃ m'', s'.mgr.ready h'.alloc = .ok (true, m'')) ∧
    (∃ ws p, (s.mgr.pool.work ws).waitForMigrations = some p) ∧
    (∀ p, s.mgr.pool.waitForMigrations = some p → ∀ h ∈ s.live,
      ∃ m', ({ s.mgr with pool := p } : CacheManager).ready h.alloc = .ok (true, m')) ∧
    ∀ h ∈ s.live, (∀ n m', Entered h.alloc n s.mgr m' → n ≤ 1) ∧
      (∀ n m', WaitReady h.alloc n s.mgr m' → n ≤ 1) ∧ ∃ n m', WaitReady h.alloc n s.mgr m' := by
  have hi := reach h0 hfit hrun
  refine ⟨fun h hh b hb => gate_of_homed (Good.books hi).inv (homed_of_live hi hh hb), ?_, ?_,
    fun h hh m' hr tr' s' hrun' h' hh' he => ready_stable hi hh hr hrun' hh' he,
    exists_waited h0 hrun, fun p hw h hh => (ready_of_waited hi hw hh).2,
    fun h hh => ⟨fun n m' he => entered_once hi hh he, ?_, exists_waitReady h0 hfit hrun hh⟩⟩
  · intro tr' s' hrun' h hh h' hh' he
    obtain ⟨rfl, hd⟩ := (run_handles hi hrun').handle h hh h' hh' he
    exact ⟨rfl, fun b hb ht => delivered_location (hd b hb) (homed_of_live hi hh hb) ht⟩
  · intro h hh
    obtain ⟨r, m', he, -, hr, -⟩ := ready_iff hi hh
    exact ⟨r, m', he, hr⟩
  · intro n m' hw
    rcases hw.entered with rfl | ⟨m₁, he⟩
    · exact Nat.zero_le _
    · exact entered_once hi hh he

def tightSpecs : List TierSpec := [⟨some ⟨64, true⟩, 2⟩, ⟨some ⟨64, true⟩, 4⟩]

/-- A cached sequence is demoted under pressure and hit again: the table comes back before the
copy has landed. -/
def promotionTrace : List Op :=
  [.acquire [1, 2], .release 0 [1, 2] [], .acquire [3, 4, 5, 6], .destroy 1, .acquire [1, 2]]

/-- The block is still in the spill tier, a wait can return, and one is all `wait_ready` takes. -/
theorem readiness_gate_promotion : ∃ s : System, s.live.map (·.alloc.blocks) = [[0]] ∧
    s.mgr.pool.location 0 = ⟨1, 0⟩ ∧ Gate s.mgr.pool 0 ∧
    (∃ ws p, (s.mgr.pool.work ws).waitForMigrations = some p) ∧
    ∃ h ∈ s.live, ∃ n m', WaitReady h.alloc n s.mgr m' ∧ n ≤ 1 := by
  have hs : ((CacheManager.create tightSpecs twoTierConfig ⟨0, true⟩ (fun _ _ => 0)).toOption.bind
      fun m₀ => (exec (step? blockKey) (start m₀) promotionTrace).map fun s =>
        (s.live.map (·.alloc.blocks), s.mgr.pool.location 0)) = some ([[0]], ⟨1, 0⟩) := by
    decide +kernel
  obtain ⟨m₀, h0, hm⟩ := Option.bind_eq_some_iff.mp hs
  obtain ⟨s, hx, he⟩ := Option.map_eq_some_iff.mp hm
  obtain ⟨hl, hloc⟩ := Prod.mk.inj he
  obtain ⟨h, hh, hb⟩ := List.mem_map.mp (hl ▸ List.mem_singleton_self ([0] : List BlockId))
  obtain ⟨hgate, -, -, -, hwait, -, hloop⟩ :=
    readiness_gate (toOption_eq_some h0) (by decide) (run_of_step? hx)
  obtain ⟨-, honce, n, m', hw⟩ := hloop h hh
  refine ⟨s, hl, hloc, hgate h hh 0 ?_, hwait, h, hh, n, m', hw, honce n m' hw⟩
  rw [hb]
  exact List.mem_singleton_self 0

end System

end KvsLab
