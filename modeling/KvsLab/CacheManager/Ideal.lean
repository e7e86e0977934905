import KvsLab.CacheManager.Refinement

/-!
# Until something is lost

* `Ideal` — a program over a cache that never runs out: every request is served with the longest
  cached prefix, and a release adds the whole blocks of its tokens unless a key collides.  It knows of
  no blocks, tiers or workers.
* `View` — a system as such a program sees it.
* `ideal_until_pressure` — **a run that has evicted no block and refused no request is a run of the
  ideal cache.**
* `transparent` — so two managers of any tiers and options, with any workers, cannot be told apart.
-/

namespace KvsLab

open RadixTree BlockPool CacheManager Transition PrefixStore Lockstep

/-- A handle variable as the program sees it. -/
structure Var where
  ok : Bool := false
  owner : Bool := false
  session : Session TokenId := { id := 0, tokens := [], hit := 0 }

def Var.disarm (x : Var) : Var :=
  { ok := false, owner := false, session := { x.session with hit := 0 } }

/-- What `~Allocation` leaves. -/
def Var.destruct (x : Var) : Var := if x.ok && x.owner then x.disarm else x

/-- A cache as the program sees it. -/
@[ext]
structure View where
  paths : Finset (List TokenId) := ∅
  vars : List Var := []
  nextSerial : Nat := 0
  collisions : Nat := 0

/-- The steps of a program over the ideal cache. -/
inductive Ideal (key : List TokenId → UInt64) (n : Nat) (v : View) : Op → View → Prop where
  | acquire {tokens : List TokenId} {hit : Nat} (longest : PrefixStore.Longest v.paths tokens hit) :
      Ideal key n v (.acquire tokens) { v with
        vars := v.vars ++
          [{ ok := true
             owner := !tokens.isEmpty
             session := { id := v.nextSerial, tokens := tokens, hit := hit } }]
        nextSerial := v.nextSerial + 1 }
  | construct : Ideal key n v .construct { v with vars := v.vars ++ [{}] }
  | moveConstruct {i : Nat} {x : Var} (get : v.vars[i]? = some x) :
      Ideal key n v (.moveConstruct i) { v with vars := v.vars.set i x.disarm ++ [x] }
  | moveSelf {i : Nat} : Ideal key n v (.moveAssign i i) v
  | moveAssign {i j : Nat} {x : Var} (ne : i ≠ j) (get : v.vars[j]? = some x) :
      Ideal key n v (.moveAssign i j) { v with vars := (v.vars.set i x).set j x.disarm }
  | destroy {i : Nat} {x : Var} (get : v.vars[i]? = some x) :
      Ideal key n v (.destroy i) { v with vars := v.vars.set i x.destruct }
  | publish {i : Nat} {x : Var} {tokens : List TokenId} (get : v.vars[i]? = some x)
      (ok : x.ok = true) (clear : ¬ Collides key n v.paths (x.session.offers n tokens)) :
      Ideal key n v (.release i tokens []) { v with
        paths := v.paths ∪ x.session.offers n tokens
        vars := v.vars.set i x.disarm }
  | collide {i : Nat} {x : Var} {tokens : List TokenId} (get : v.vars[i]? = some x)
      (ok : x.ok = true) (taken : Collides key n v.paths (x.session.offers n tokens)) :
      Ideal key n v (.release i tokens []) { v with
        vars := v.vars.set i x.disarm
        collisions := v.collisions + 1 }
  | unheld {i : Nat} {x : Var} {tokens : List TokenId} (get : v.vars[i]? = some x)
      (ok : x.ok = false) : Ideal key n v (.release i tokens []) v

/-- The ideal cache is deterministic. -/
theorem Ideal.unique {key : List TokenId → UInt64} {n : Nat} {v v₁ v₂ : View} {op : Op}
    (h : Ideal key n v op v₁) (h' : Ideal key n v op v₂) : v₁ = v₂ := by
  cases h with
  | acquire hl =>
    cases h' with
    | acquire hl' => rw [hl.unique hl']
  | construct =>
    cases h'
    rfl
  | moveConstruct hg =>
    cases h' with
    | moveConstruct hg' =>
      cases hg.symm.trans hg'
      rfl
  | moveSelf =>
    cases h' with
    | moveSelf => rfl
    | moveAssign hne => exact absurd rfl hne
  | moveAssign hne hg =>
    cases h' with
    | moveSelf => exact absurd rfl hne
    | moveAssign _ hg' =>
      cases hg.symm.trans hg'
      rfl
  | destroy hg =>
    cases h' with
    | destroy hg' =>
      cases hg.symm.trans hg'
      rfl
  | publish hg hok hc =>
    cases h' with
    | publish hg' =>
      cases hg.symm.trans hg'
      rfl
    | collide hg' _ hc' =>
      cases hg.symm.trans hg'
      exact absurd hc' hc
    | unheld hg' hok' =>
      cases hg.symm.trans hg'
      rw [hok] at hok'
      cases hok'
  | collide hg hok hc =>
    cases h' with
    | publish hg' _ hc' =>
      cases hg.symm.trans hg'
      exact absurd hc hc'
    | collide hg' =>
      cases hg.symm.trans hg'
      rfl
    | unheld hg' hok' =>
      cases hg.symm.trans hg'
      rw [hok] at hok'
      cases hok'
  | unheld hg hok =>
    cases h' with
    | publish hg' hok' =>
      cases hg.symm.trans hg'
      rw [hok] at hok'
      cases hok'
    | collide hg' hok' =>
      cases hg.symm.trans hg'
      rw [hok] at hok'
      cases hok'
    | unheld => rfl

/-! ## The view of a system -/

def Handle.var (h : Handle) : Var :=
  { ok := h.alloc.ok, owner := h.alloc.owner, session := h.session }

/-- The step of the program behind a step of the system: workers, waits and questions about
readiness are none. -/
def Op.plain : Op → Option Op
  | .release i tokens _ => some (.release i tokens [])
  | .ready _ => none
  | .wait => none
  | .worker _ _ => none
  | op => some op

/-- Blocks evicted and requests refused. -/
def Stats.losses (st : Stats) : Nat := st.evictedBlocks + st.allocFailures

namespace System

/-- A system as the program sees it. -/
def view (s : System) : View :=
  { paths := s.mgr.tree.paths
    vars := s.vars.map Handle.var
    nextSerial := s.nextSerial
    collisions := s.mgr.tree.collisions }

variable {key : List TokenId → UInt64} {s s' : System} {m₀ m₁ m' : CacheManager} {h : Handle}
  {n : Nat} {tr tr' : List Op} {tokens : List TokenId} {a : Allocation}

theorem view_var {i : Nat} (hget : s.vars[i]? = some h) : s.view.vars[i]? = some h.var := by
  simp [view, hget]

theorem map_var_set (vars : List Handle) (i : Nat) (h : Handle) :
    (vars.set i h).map Handle.var = (vars.map Handle.var).set i h.var := List.map_set

/-- A served request finds the longest cached prefix; while nothing is lost it leaves the cache as
it was. -/
theorem Inv.acquire_calm (hi : s.Inv key) (he : s.mgr.acquire key tokens = .ok (a, m')) :
    s.mgr.stats.losses ≤ m'.stats.losses ∧ (m'.stats.losses = s.mgr.stats.losses →
      m'.tree.paths = s.mgr.tree.paths ∧ m'.tree.collisions = s.mgr.tree.collisions ∧
        a.ok = true ∧ a.owner = !tokens.isEmpty ∧
        PrefixStore.Longest s.mgr.tree.paths tokens a.cachedTokens) := by
  obtain ⟨hit, hans, hhit⟩ := acquire_answers hi.books he
  have hev := hans.evicted
  have hpaths : m'.stats.evictedBlocks = s.mgr.stats.evictedBlocks →
      m'.tree.paths = s.mgr.tree.paths := by
    intro heq
    have hcard : (s.mgr.tree.paths \ m'.tree.paths).card = 0 := by omega
    exact Finset.Subset.antisymm hans.subset
      (Finset.sdiff_eq_empty_iff_subset.mp (Finset.card_eq_zero.mp hcard))
  unfold Stats.losses
  obtain ⟨ht, hal, htally⟩ | ⟨ht, hal, htally⟩ | ⟨ht, hok, ho, htally⟩ := acquire_counts he
  all_goals
    simp only [Stats.tally, Prod.mk.injEq] at htally
    obtain ⟨-, -, hfail, -⟩ := htally
  · refine ⟨by omega, fun heq => ⟨hpaths (by omega), hans.collisions, by rw [hal], ?_, ?_⟩⟩
    · rw [hal, ht]
      rfl
    · rw [hhit (by rw [hal])]
      exact hans.longest
  · exact ⟨by omega, fun heq => by omega⟩
  · refine ⟨by omega, fun heq => ⟨hpaths (by omega), hans.collisions, hok, ?_, ?_⟩⟩
    · rw [ho]
      cases tokens with
      | nil => exact absurd rfl ht
      | cons => rfl
    · rw [hhit hok]
      exact hans.longest

theorem destruct_losses {a' : Allocation} {m : CacheManager} (he : m.destruct a = .ok (a', m')) :
    m'.stats.losses = m.stats.losses := by
  obtain ⟨-, -, rfl⟩ | ⟨-, -, p, t, -, -, rfl⟩ := destruct_cases he
  · rfl
  · rfl

theorem release_losses {a' : Allocation} {m : CacheManager} {ws : List (WorkerId × WorkerAct)}
    (he : m.release key tokens a ws = .ok (a', m')) : m'.stats.losses = m.stats.losses := by
  obtain ⟨htally, ⟨-, -, rfl⟩ | ⟨-, -, _, _, _, _, _, -, -, -, hmt⟩⟩ := release_handle he
  · rfl
  · simp only [Stats.tally, Prod.mk.injEq] at htally
    have hev : m'.stats.evictedBlocks = m.stats.evictedBlocks := (maintain_evicted hmt).trans rfl
    unfold Stats.losses
    omega

/-- Losses are only counted up. -/
theorem Inv.losses_le (hi : s.Inv key) {op : Op} (hs : Step key s op s') :
    s.mgr.stats.losses ≤ s'.mgr.stats.losses := by
  obtain ⟨tokens, al, he⟩ | ⟨al, al', he⟩ | ⟨tokens, al, ws, al', he⟩ | ⟨pool, he⟩ := step_calls hs
  · exact (hi.acquire_calm he).1
  · exact Nat.le_of_eq (destruct_losses he).symm
  · exact Nat.le_of_eq (release_losses he).symm
  · rw [he]

/-- The destructor of a variable, seen by the program. -/
theorem Inv.destruct_view (hi : s.Inv key) {i : Nat} (hget : s.vars[i]? = some h)
    {a' : Allocation} (he : s.mgr.destruct h.alloc = .ok (a', m')) :
    m'.tree.paths = s.mgr.tree.paths ∧ m'.tree.collisions = s.mgr.tree.collisions ∧
      Handle.var { h with alloc := a' } = h.var.destruct := by
  by_cases ho : (h.alloc.ok && h.alloc.owner) = true
  · obtain ⟨K, hK, -⟩ := live_cons hget (Bool.and_eq_true_iff.mp ho).1
    obtain ⟨hp, hc, -⟩ := destruct_paths (hi.perm hK).books he
    refine ⟨hp, hc, ?_⟩
    obtain ⟨hno, -⟩ | ⟨-, rfl, -⟩ := destruct_cases he
    · rw [ho] at hno
      cases hno
    · show _ = if (h.alloc.ok && h.alloc.owner) = true then h.var.disarm else h.var
      rw [if_pos ho]
      rfl
  · obtain ⟨-, rfl, rfl⟩ | ⟨ho', -⟩ := destruct_cases he
    · refine ⟨rfl, rfl, ?_⟩
      show _ = if (h.alloc.ok && h.alloc.owner) = true then h.var.disarm else h.var
      rw [if_neg ho]
    · exact absurd ho' ho

theorem ideal_view {v v' : View} {op : Op} (h : Ideal key n v op v')
    (hp : s'.mgr.tree.paths = v'.paths) (hv : s'.vars.map Handle.var = v'.vars)
    (hn : s'.nextSerial = v'.nextSerial) (hc : s'.mgr.tree.collisions = v'.collisions) :
    Ideal key n v op s'.view := by
  have he : s'.view = v' := View.ext hp hv hn hc
  rw [he]
  exact h

theorem Refines.release_ideal (hi : s.Refines key n) {i : Nat} {ws : List (WorkerId × WorkerAct)}
    (hs : Step key s (.release i tokens ws) s') :
    Ideal key n s.view (.release i tokens []) s'.view := by
  obtain ⟨hi, ht, rfl⟩ := hi
  obtain ⟨h, hget, ⟨hst, -⟩, -⟩ := release_call hs
  by_cases hok : h.alloc.ok = true
  · obtain ⟨hvars, hser, -, hcase⟩ := hi.releases hget hok hs rfl rfl
    rw [← ht.offers (mem_live hget hok) hst] at hcase
    have hvars : s'.vars.map Handle.var = s.view.vars.set i h.var.disarm := by
      rw [hvars, map_var_set]
      rfl
    rcases hcase with ⟨hc, hp, hno⟩ | ⟨hc, hp, hyes⟩
    · exact ideal_view (.publish (view_var hget) hok hno) hp hvars hser hc
    · exact ideal_view (.collide (view_var hget) hok hyes) hp hvars hser hc
  · rw [release_unheld hget hok hs]
    exact .unheld (view_var hget) (Bool.eq_false_of_not_eq_true hok)

/-- **A step that loses nothing is a step of the ideal cache**, or none. -/
theorem Refines.ideal (hi : s.Refines key n) {op : Op} (hs : Step key s op s')
    (hcalm : s'.mgr.stats.losses = s.mgr.stats.losses) :
    (∀ op', op.plain = some op' → Ideal key n s.view op' s'.view) ∧
      (op.plain = none → s'.view = s.view) := by
  cases op with
  | acquire tokens =>
    refine ⟨fun op' hp => ?_, nofun⟩
    cases hp
    obtain ⟨-, ⟨a, m'⟩, he, rfl⟩ := acquire_call hs
    obtain ⟨hp, hc, hok, ho, hl⟩ := (hi.1.acquire_calm he).2 hcalm
    refine ideal_view (.acquire hl) hp ?_ rfl hc
    simp only [List.map_append, List.map_cons, List.map_nil, Handle.var, hok, ho]
    rfl
  | construct =>
    refine ⟨fun op' hp => ?_, nofun⟩
    cases hp
    cases hs
    refine ideal_view .construct rfl ?_ rfl rfl
    simp [view, Handle.var, Handle.session]
  | moveConstruct i =>
    refine ⟨fun op' hp => ?_, nofun⟩
    cases hp
    obtain ⟨h, hget, hs⟩ := Option.bind_eq_some_iff.mp hs
    cases hs
    refine ideal_view (.moveConstruct (view_var hget)) rfl ?_ rfl rfl
    simp only [view, List.map_append, map_var_set]
    rfl
  | moveAssign i j =>
    refine ⟨fun op' hp => ?_, nofun⟩
    cases hp
    obtain ⟨dst, hdst, hs⟩ := Option.bind_eq_some_iff.mp hs
    obtain ⟨src, hsrc, hs⟩ := Option.bind_eq_some_iff.mp hs
    split at hs
    · rename_i hij
      cases hs
      subst hij
      exact .moveSelf
    · rename_i hij
      obtain ⟨⟨a', m'⟩, he, rfl⟩ := call_ok hs
      obtain ⟨hp, hc, -⟩ := hi.1.destruct_view hdst he
      refine ideal_view (.moveAssign hij (view_var hsrc)) hp ?_ rfl hc
      simp only [view, map_var_set]
      rfl
  | destroy i =>
    refine ⟨fun op' hp => ?_, nofun⟩
    cases hp
    obtain ⟨h, hget, hs⟩ := Option.bind_eq_some_iff.mp hs
    obtain ⟨⟨a', m'⟩, he, rfl⟩ := call_ok hs
    obtain ⟨hp, hc, hv⟩ := hi.1.destruct_view hget he
    refine ideal_view (.destroy (view_var hget)) hp ?_ rfl hc
    simp only [view, map_var_set, hv]
  | release i tokens ws =>
    refine ⟨fun op' hp => ?_, nofun⟩
    cases hp
    exact hi.release_ideal hs
  | ready i =>
    refine ⟨nofun, fun _ => ?_⟩
    obtain ⟨h, -, hs⟩ := Option.bind_eq_some_iff.mp hs
    obtain ⟨r, he, rfl⟩ := call_ok hs
    obtain hm | hm := ready_cases he
    · exact View.ext (congrArg (·.tree.paths) hm) rfl rfl (congrArg (·.tree.collisions) hm)
    · exact View.ext (congrArg (·.tree.paths) hm) rfl rfl (congrArg (·.tree.collisions) hm)
  | wait =>
    refine ⟨nofun, fun _ => ?_⟩
    obtain ⟨p, -, hs⟩ := Option.bind_eq_some_iff.mp hs
    cases hs
    rfl
  | worker w act =>
    refine ⟨nofun, fun _ => ?_⟩
    obtain ⟨p, -, hs⟩ := Option.bind_eq_some_iff.mp hs
    cases hs
    rfl

/-! ## Runs -/

variable {specs specs' : List TierSpec} {cfg cfg' : CacheConfig} {options options' : Options}
  {mem mem' : Arena.Mem TierIndex UInt8} {t : System}

theorem start_view (h0 : CacheManager.create specs cfg options mem = .ok m₀) :
    (start m₀).view = {} := by
  obtain ⟨-, -, ht, -⟩ := create_ok h0
  refine View.ext ?_ rfl rfl ?_
  · show m₀.tree.paths = ∅
    rw [ht]
    rfl
  · show m₀.tree.collisions = 0
    rw [ht]

/-- A run without losses, as the program sees it. -/
theorem Refines.ideal_run (hi : s.Refines key n) (hrun : Run (Step key) s tr s')
    (hcalm : s'.mgr.stats.losses ≤ s.mgr.stats.losses) :
    Run (Ideal key n) s.view (tr.filterMap Op.plain) s'.view := by
  obtain ⟨-, hle, hconst⟩ := hrun.constant (I := Refines key n)
    (f := fun s => s.mgr.stats.losses) (fun _ _ _ hi hs => ⟨(hi.step hs).1, hi.1.losses_le hs⟩) hi
  have hcalm := hconst (Nat.le_antisymm hcalm hle)
  exact (hcalm.observed (I := Refines key n)
    (fun _ _ _ hi hs => ⟨(hi.step hs.1).1, hi.ideal hs.1 hs.2⟩) hi).2

/-- **Until a block is evicted or a request refused, the manager is the ideal cache**, whatever its
tiers and options and whatever the workers do. -/
theorem ideal_until_pressure (h0 : CacheManager.create specs cfg options mem = .ok m₀)
    (hfit : (specs.map (·.numBlocks)).sum < 2 ^ 32) (hrun : Run (Step key) (start m₀) tr s)
    (hcalm : s.mgr.stats.evictedBlocks = 0 ∧ s.mgr.stats.allocFailures = 0) :
    Run (Ideal key cfg.blockTokens) {} (tr.filterMap Op.plain) s.view := by
  have hzero : s.mgr.stats.losses = 0 := by
    unfold Stats.losses
    omega
  have hr := (start_refines h0 hfit).ideal_run hrun (by omega)
  rwa [start_view h0] at hr

/-- A cached block is demoted for one request and brought back by a worker for the next one. -/
def roundTrip : List Op :=
  [.acquire [1, 2, 3, 4], .release 0 [1, 2, 3, 4] [], .acquire [5, 6, 7, 8, 5, 6], .destroy 1,
    .acquire [1, 2, 3, 4, 9], .worker 0 .claim, .worker 0 .check, .worker 0 .copy, .ready 2,
    .worker 0 .finish, .wait]

theorem ideal_until_pressure_demoted : ∃ m₀ s,
    CacheManager.create twoTierSpecs twoTierConfig ⟨0, true⟩ (fun _ _ => 0) = .ok m₀ ∧
    Run (Step blockKey) (start m₀) roundTrip s ∧ s.mgr.stats.demotedBlocks = 1 ∧
    s.mgr.stats.promotedBlocks = 1 ∧
    Run (Ideal blockKey 2) {} (roundTrip.filterMap Op.plain) s.view := by
  have hx : ((CacheManager.create twoTierSpecs twoTierConfig ⟨0, true⟩ fun _ _ => 0).toOption.bind
      fun m₀ => (exec (step? blockKey) (start m₀) roundTrip).map fun s =>
        [s.mgr.stats.evictedBlocks, s.mgr.stats.allocFailures, s.mgr.stats.demotedBlocks,
          s.mgr.stats.promotedBlocks]) = some [0, 0, 1, 1] := by
    decide +kernel
  obtain ⟨m₀, h0, hx⟩ := Option.bind_eq_some_iff.mp hx
  obtain ⟨s, hs, hx⟩ := Option.map_eq_some_iff.mp hx
  simp only [List.cons.injEq, and_true] at hx
  obtain ⟨he, hf, hd, hp⟩ := hx
  have hc₀ := toOption_eq_some h0
  exact ⟨m₀, s, hc₀, run_of_step? hs, hd, hp,
    ideal_until_pressure hc₀ (by decide) (run_of_step? hs) ⟨he, hf⟩⟩

/-- **Two managers that have lost nothing cannot be told apart** by a program that makes the same
calls on both: the same requests are served with as much from the cache, and the same prefixes are
cached. -/
theorem transparent (h0 : CacheManager.create specs cfg options mem = .ok m₀)
    (hfit : (specs.map (·.numBlocks)).sum < 2 ^ 32) (hrun : Run (Step key) (start m₀) tr s)
    (hcalm : s.mgr.stats.evictedBlocks = 0 ∧ s.mgr.stats.allocFailures = 0)
    (h0' : CacheManager.create specs' cfg' options' mem' = .ok m₁)
    (hfit' : (specs'.map (·.numBlocks)).sum < 2 ^ 32) (hrun' : Run (Step key) (start m₁) tr' t)
    (hcalm' : t.mgr.stats.evictedBlocks = 0 ∧ t.mgr.stats.allocFailures = 0)
    (hbt : cfg'.blockTokens = cfg.blockTokens)
    (hcalls : tr'.filterMap Op.plain = tr.filterMap Op.plain) : t.view = s.view := by
  have hzero : s.mgr.stats.losses = 0 ∧ t.mgr.stats.losses = 0 := by
    unfold Stats.losses
    omega
  have hr := (start_refines h0 hfit).ideal_run hrun (by omega)
  have hr' := (start_refines h0' hfit').ideal_run hrun' (by omega)
  rw [start_view h0] at hr
  rw [start_view h0', hbt, hcalls] at hr'
  exact hr'.unique (fun _ _ _ _ hs hs' => hs.unique hs') hr

theorem transparent_roomy : ∃ m₀ m₁ s t,
    CacheManager.create twoTierSpecs twoTierConfig ⟨0, true⟩ (fun _ _ => 0) = .ok m₀ ∧
    CacheManager.create roomySpecs twoTierConfig {} (fun _ _ => 0) = .ok m₁ ∧
    Run (Step blockKey) (start m₀) roundTrip s ∧
    Run (Step blockKey) (start m₁) (roundTrip.filterMap Op.plain) t ∧ t.view = s.view := by
  have hx : ((CacheManager.create twoTierSpecs twoTierConfig ⟨0, true⟩ fun _ _ => 0).toOption.bind
      fun m₀ => (CacheManager.create roomySpecs twoTierConfig {} fun _ _ => 0).toOption.bind
        fun m₁ => (exec (step? blockKey) (start m₀) roundTrip).bind fun s =>
          (exec (step? blockKey) (start m₁) (roundTrip.filterMap Op.plain)).map fun t =>
            [s.mgr.stats.evictedBlocks, s.mgr.stats.allocFailures, t.mgr.stats.evictedBlocks,
              t.mgr.stats.allocFailures]) = some [0, 0, 0, 0] := by
    decide +kernel
  obtain ⟨m₀, h0, hx⟩ := Option.bind_eq_some_iff.mp hx
  obtain ⟨m₁, h1, hx⟩ := Option.bind_eq_some_iff.mp hx
  obtain ⟨s, hs, hx⟩ := Option.bind_eq_some_iff.mp hx
  obtain ⟨t, ht, hx⟩ := Option.map_eq_some_iff.mp hx
  simp only [List.cons.injEq, and_true] at hx
  obtain ⟨he, hf, he', hf'⟩ := hx
  have hc₀ := toOption_eq_some h0
  have hc₁ := toOption_eq_some h1
  exact ⟨m₀, m₁, s, t, hc₀, hc₁, run_of_step? hs, run_of_step? ht,
    transparent hc₀ (by decide) (run_of_step? hs) ⟨he, hf⟩ hc₁ (by decide) (run_of_step? ht)
      ⟨he', hf'⟩ rfl (by decide)⟩

end System

end KvsLab
