import KvsLab.BlockPool.Bytewise.Refinement
import KvsLab.BlockPool.Geometry

/-!
# Which bytes are raced for

The workers, the scheduler and the owners of the blocks touch the bytes of the tiers at the same
time, and no lock is held while they do.

* `accesses` — the bytes a step reads and writes; `mem_frame` — it changes no others.
* `Role` — what a party touches a slot for; `Sound.exclusive` — nobody else touches a slot that is
  written, except the copy of a cancelled job that still reads it.
* `races_are_stale` — **that is the only race**: when steps of two parties want one byte, and one of
  them is to write it, the other reads it for a job that was cancelled.
* `accesses_inside` — **every byte touched lies inside its tier**, those of cancelled copies
  included, and workers only follow pointers into tiers the CPU can address.
-/

namespace KvsLab

open Counting Transition

namespace BlockPool

variable {p p' : BlockPool} {w : WorkerId} {id : BlockId}

/-! ## Parties and bytes -/

inductive Agent where
  | scheduler
  | worker (w : WorkerId)
  /-- whoever writes into a block, or reads it -/
  | owner (id : BlockId)
  deriving DecidableEq, Repr

structure Access where
  isWrite : Bool
  addr : Arena.Addr TierIndex
  deriving DecidableEq, Repr

def BytewiseOp.agent : BytewiseOp → Agent
  | .call _ | .moveEnter _ _ | .fetchByte _ | .storeByte _ | .moveLeave => .scheduler
  | .write id _ _ | .read id _ => .owner id
  | .worker w _ | .copyByte w _ | .copyReturn w => .worker w

/-- Address of byte `off` of a slot. -/
def cellAddr (p : BlockPool) (l : Location) (off : Nat) : Arena.Addr TierIndex :=
  ((p.slotAddr l).1, (p.slotAddr l).2 + off)

theorem initTier_host {bytes : Nat} {spec : TierSpec} {st : TierState} {tier : Tier}
    (h : initTier bytes spec = .ok st) (ht : spec.tier = some tier) :
    st.hostAddressable = tier.hostAddressable := by
  obtain ⟨tier', ht', -, -, rfl⟩ := initTier_accepts h
  cases ht.symm.trans ht'
  rfl

namespace BytewisePool

variable {f g : BytewisePool} {l : Location}

/-- The bytes a step touches. -/
def accesses (f : BytewisePool) : BytewiseOp → List Access
  | .write id off _ => [⟨true, f.pool.cellAddr (f.pool.location id) off⟩]
  | .read id off => [⟨false, f.pool.cellAddr (f.pool.location id) off⟩]
  | .copyByte w off =>
    match f.pool.workers w with
    | .copying ptr =>
      match f.pool.job? ptr with
      | some job => [⟨false, (job.src.1, job.src.2 + off)⟩, ⟨true, (job.dst.1, job.dst.2 + off)⟩]
      | none => []
    | _ => []
  | .fetchByte off =>
    match f.move with
    | some mv => [⟨false, f.pool.cellAddr (f.pool.location mv.id) off⟩]
    | none => []
  | .storeByte off =>
    match f.move with
    | some mv =>
      if f.direct mv then
        [⟨false, f.pool.cellAddr (f.pool.location mv.id) off⟩, ⟨true, f.pool.cellAddr mv.dst off⟩]
      else [⟨true, f.pool.cellAddr mv.dst off⟩]
    | none => []
  | _ => []

/-- A worker that is still copying for a job cancelled meanwhile. -/
def stale (f : BytewisePool) : Agent → Bool
  | .worker w =>
    match f.pool.workers w with
    | .copying ptr => (f.pool.job? ptr).any (·.cancelled)
    | _ => false
  | _ => false

theorem copy_accesses {ptr : JobPtr} {j : MigrationJob} (hw : f.pool.workers w = .copying ptr)
    (hj : f.pool.job? ptr = some j) (off : Nat) : f.accesses (.copyByte w off) =
      [⟨false, (j.src.1, j.src.2 + off)⟩, ⟨true, (j.dst.1, j.dst.2 + off)⟩] := by
  simp only [accesses, hw, hj]

/-- **A step changes the bytes it writes and no others.** -/
theorem mem_frame {op : BytewiseOp} (hs : Steps f op g) {t : TierIndex} {o : Nat}
    (hn : ∀ a ∈ f.accesses op, a.isWrite = true → a.addr ≠ (t, o)) :
    g.pool.mem t o = f.pool.mem t o := by
  have hcell : ∀ (m : Arena.Mem TierIndex UInt8) (d : Arena.Addr TierIndex) (b : UInt8),
      d ≠ (t, o) → Arena.write m d [b] t o = m t o := by
    intro m d b hd
    unfold Arena.write
    split
    · rename_i hc
      rw [List.getElem?_eq_none]
      · rfl
      · have hne : o ≠ d.2 := fun e => hd (by rw [hc.1, e])
        simp only [List.length_singleton]
        omega
    · rfl
  cases hs with
  | call hm hq ho => rw [(next_quiet hq (OwnedPool.next_pool ho)).1]
  | @write id off b owned hm ho =>
    obtain ⟨-, -, -, rfl⟩ := OwnedPool.write_cases ho
    exact hcell _ _ b (hn _ List.mem_cons_self rfl)
  | read hr hoff => rfl
  | worker ha hp => exact congrFun (congrFun (workerStep_mem ha hp) t) o
  | @copyByte w off ptr j hw hj hoff hnew =>
    rw [copy_accesses hw hj] at hn
    show Arena.memcpy _ _ _ 1 t o = _
    rw [Arena.memcpy_one]
    exact hcell _ _ _ (hn _ (List.mem_cons_of_mem _ List.mem_cons_self) rfl)
  | copyReturn hw hj hall => rfl
  | @moveEnter id dst slot slots hm hr ht hne hsl =>
    show (f.pool.cancelMigration id).mem t o = _
    rw [cancel_mem]
  | fetchByte hm hoff => rfl
  | @storeByte mv off mem hm hoff hnew hmem =>
    have hw : f.pool.cellAddr mv.dst off ≠ (t, o) := by
      refine hn ⟨true, f.pool.cellAddr mv.dst off⟩ ?_ rfl
      simp only [accesses, hm]
      split
      · exact List.mem_cons_of_mem _ List.mem_cons_self
      · exact List.mem_cons_self
    show mem t o = _
    rcases hmem with rfl | ⟨-, rfl⟩
    · rw [Arena.memcpy_one]
      exact hcell _ _ _ hw
    · exact hcell _ _ _ hw
  | moveLeave hm hall => rfl

/-! ## Slots -/

/-- What a party touches a slot for. -/
inductive Role (f : BytewisePool) : Agent → Bool → Location → Prop where
  /-- the source of a job that was cancelled under way: any slot -/
  | stale {w : WorkerId} {l : Location} (hst : f.stale (.worker w) = true) :
      Role f (.worker w) false l
  | source {w : WorkerId} {l : Location} {j : MigrationJob} (hj : j ∈ f.pool.flights)
      (hl : l = f.pool.location j.id) : Role f (.worker w) false l
  | target {w : WorkerId} {l : Location} {ptr : JobPtr} {j : MigrationJob}
      (hw : f.pool.workers w = .copying ptr) (hj : f.pool.job? ptr = some j) (hl : l = j.dstLoc) :
      Role f (.worker w) true l
  | moveSource {l : Location} {mv : Move} (hm : f.move = some mv)
      (hl : l = f.pool.location mv.id) : Role f .scheduler false l
  | moveTarget {l : Location} {mv : Move} (hm : f.move = some mv) (hl : l = mv.dst) :
      Role f .scheduler true l
  | reader {id : BlockId} {l : Location} (hr : f.pool.refcount id ≠ 0)
      (hl : l = f.pool.location id) : Role f (.owner id) false l
  | writer {id : BlockId} {l : Location} (hr : f.pool.refcount id ≠ 0)
      (hmig : f.pool.migrating id = false) (hm : ∀ mv, f.move = some mv → mv.id ≠ id)
      (hl : l = f.pool.location id) : Role f (.owner id) true l

/-- **A slot that is written is touched by nobody else**, but for stale reads. -/
theorem Sound.exclusive (h : f.Sound) {A B : Agent} {k : Bool} (ha : Role f A true l)
    (hb : Role f B k l) : A = B ∨ k = false ∧ f.stale B = true := by
  cases ha with
  | @target w _ ptr j hw hj hl =>
    obtain ⟨hjm, rfl⟩ := h.inv.job?_eq_some.mp hj
    cases hb with
    | stale hst => exact .inr ⟨rfl, hst⟩
    | source hk hl' =>
      exact absurd (hl'.symm.trans hl) (h.inv.location_ne_dst (h.inv.flight _ hk).1 hjm)
    | @target w' _ ptr' k hw' hk hl' =>
      obtain ⟨hkm, rfl⟩ := h.inv.job?_eq_some.mp hk
      have hjk := h.inv.dst_inj hjm hkm (hl.symm.trans hl')
      subst hjk
      have hh : ∀ {v : WorkerId}, f.pool.workers v = .copying j.ptr →
          f.pool.holds v = some j.ptr := fun hv => by
        unfold holds
        rw [hv]
        rfl
      exact .inl (congrArg Agent.worker (h.queue.exclusive w w' _ (hh hw) (hh hw')))
    | moveSource hm hl' =>
      exact absurd (hl'.symm.trans hl) (h.inv.location_ne_dst (h.move _ hm).refs hjm)
    | moveTarget hm hl' =>
      exact absurd (hl.symm.trans hl') (h.inv.dst_ne_free hjm (h.move _ hm).mem_free)
    | reader hr hl' => exact absurd (hl'.symm.trans hl) (h.inv.location_ne_dst hr hjm)
    | writer hr _ _ hl' => exact absurd (hl'.symm.trans hl) (h.inv.location_ne_dst hr hjm)
  | @moveTarget _ mv hm hl =>
    have hfree := (h.move mv hm).mem_free
    cases hb with
    | stale hst => exact .inr ⟨rfl, hst⟩
    | source hk hl' =>
      exact absurd (hl'.symm.trans hl) (h.inv.location_ne_free (h.inv.flight _ hk).1 hfree)
    | target _ hk hl' =>
      exact absurd (hl'.symm.trans hl) (h.inv.dst_ne_free (h.inv.job?_eq_some.mp hk).1 hfree)
    | moveSource _ _ => exact .inl rfl
    | moveTarget _ _ => exact .inl rfl
    | reader hr hl' => exact absurd (hl'.symm.trans hl) (h.inv.location_ne_free hr hfree)
    | writer hr _ _ hl' => exact absurd (hl'.symm.trans hl) (h.inv.location_ne_free hr hfree)
  | @writer id _ hr hmig hm hl =>
    cases hb with
    | stale hst => exact .inr ⟨rfl, hst⟩
    | @source _ _ j hj hl' =>
      have hid := h.inv.location_inj (h.inv.flight _ hj).1 hr (hl'.symm.trans hl)
      rw [h.inv.migrating_iff.mpr ⟨j, hj, hid⟩] at hmig
      cases hmig
    | target _ hk hl' =>
      exact absurd (hl.symm.trans hl') (h.inv.location_ne_dst hr (h.inv.job?_eq_some.mp hk).1)
    | @moveSource _ mv hmv hl' =>
      exact absurd (h.inv.location_inj (h.move mv hmv).refs hr (hl'.symm.trans hl)) (hm mv hmv)
    | moveTarget hmv hl' =>
      exact absurd (hl.symm.trans hl') (h.inv.location_ne_free hr (h.move _ hmv).mem_free)
    | reader hr' hl' =>
      exact .inl (congrArg Agent.owner (h.inv.location_inj hr hr' (hl.symm.trans hl')))
    | writer hr' _ _ hl' =>
      exact .inl (congrArg Agent.owner (h.inv.location_inj hr hr' (hl.symm.trans hl')))

/-! ## Steps -/

/-- A byte of a slot of the pool, touched by party `A`. -/
structure Touches (f : BytewisePool) (A : Agent) (a : Access) (l : Location) (off : Nat) :
    Prop where
  addr : a.addr = (l.tier, l.slot * f.pool.blockBytes + off)
  offset : off < f.pool.blockBytes
  tier : l.tier < f.pool.numTiers
  slot : l.slot < (f.pool.tiers l.tier).numBlocks
  role : Role f A a.isWrite l
  host : ∀ w, A = .worker w → (f.pool.tiers l.tier).hostAddressable = true

/-- A byte of an allocated block. -/
theorem Sound.touches_block (h : f.Sound) {A : Agent} {k : Bool} {off : Nat}
    (hr : f.pool.refcount id ≠ 0) (hoff : off < f.pool.blockBytes)
    (hrole : Role f A k (f.pool.location id)) (hA : ∀ w, A ≠ .worker w) :
    Touches f A ⟨k, f.pool.cellAddr (f.pool.location id) off⟩ (f.pool.location id) off := by
  have hpos := h.inv.resident_pos hr
  have ht := h.inv.loc_tier id hr
  refine ⟨?_, hoff, ht, h.inv.slot_lt ht (by omega), hrole, fun w hw => absurd hw (hA w)⟩
  show f.pool.cellAddr (f.pool.location id) off = _
  unfold cellAddr
  rw [h.inv.block_addr h.noWrap hr]

/-- A byte of the slot a move goes to. -/
theorem Sound.touches_target (h : f.Sound) {mv : Move} {off : Nat} (hm : f.move = some mv)
    (hoff : off < f.pool.blockBytes) :
    Touches f .scheduler ⟨true, f.pool.cellAddr mv.dst off⟩ mv.dst off := by
  have hmv := h.move mv hm
  have hpos : 0 < f.pool.freeCount mv.dst := free_pos hmv.mem_free
  refine ⟨?_, hoff, hmv.tier, h.inv.slot_lt hmv.tier (by omega), .moveTarget hm rfl, nofun⟩
  show f.pool.cellAddr mv.dst off = _
  unfold cellAddr
  rw [hmv.dst_addr h.inv h.noWrap]

theorem Sound.touches_copy (h : f.Sound) {ptr : JobPtr} {j : MigrationJob} {off : Nat}
    (hw : f.pool.workers w = .copying ptr) (hj : f.pool.job? ptr = some j) (hoff : off < j.bytes) :
    (∃ l, Touches f (.worker w) ⟨false, (j.src.1, j.src.2 + off)⟩ l off) ∧
      Touches f (.worker w) ⟨true, (j.dst.1, j.dst.2 + off)⟩ j.dstLoc off := by
  obtain ⟨hjm, -⟩ := h.inv.job?_eq_some.mp hj
  obtain ⟨hdst, hb⟩ := h.inv.dst_addr h.noWrap hjm
  obtain ⟨hdh, l, ht, hl, hlh, hsrc⟩ := h.sources j hjm
  have hoff' : off < f.pool.blockBytes := hb ▸ hoff
  have hres := reserved_pos hjm
  have hdt := h.inv.job_tier j hjm
  constructor
  · cases hc : j.cancelled with
    | true =>
      have hst : f.stale (.worker w) = true := by
        simp only [stale, hw, hj, Option.any_some, hc]
      refine ⟨l, ?_, hoff', ht, hl, .stale hst, fun _ _ => hlh⟩
      show (j.src.1, j.src.2 + off) = _
      rw [hsrc, h.noWrap.slotAddr ht hl]
    | false =>
      have hjf := mem_flights.mpr ⟨hjm, hc⟩
      obtain ⟨hr, he, -⟩ := h.inv.flight j hjf
      have hpos := h.inv.resident_pos hr
      have hlt := h.inv.loc_tier j.id hr
      have haddr := h.inv.block_addr h.noWrap hr
      refine ⟨f.pool.location j.id, ?_, hoff', hlt, h.inv.slot_lt hlt (by omega),
        .source hjf rfl, fun _ _ => ?_⟩
      · show (j.src.1, j.src.2 + off) = _
        rw [he, haddr]
      · -- the same tier as the slot it was queued with
        have htier : (f.pool.location j.id).tier = l.tier := by
          have := congrArg Prod.fst (he.symm.trans hsrc)
          rwa [haddr, h.noWrap.slotAddr ht hl] at this
        rw [htier]
        exact hlh
  · refine ⟨?_, hoff', hdt, h.inv.slot_lt hdt (by omega), .target hw hj rfl, fun _ _ => hdh⟩
    show (j.dst.1, j.dst.2 + off) = _
    rw [hdst]

/-- What a step touches, and what for. -/
theorem Sound.touches (h : f.Sound) {op : BytewiseOp} (hs : Steps f op g) {a : Access}
    (ha : a ∈ f.accesses op) : ∃ l off, Touches f op.agent a l off := by
  cases hs with
  | call _ _ _ => cases ha
  | @write id off b owned hm ho =>
    obtain ⟨hr, hmig, hlen, -⟩ := OwnedPool.write_cases ho
    cases List.mem_singleton.mp ha
    exact ⟨_, off, h.touches_block hr hlen (.writer hr hmig hm rfl) nofun⟩
  | @read id off hr hoff =>
    cases List.mem_singleton.mp ha
    exact ⟨_, off, h.touches_block hr hoff (.reader hr rfl) nofun⟩
  | worker _ _ => cases ha
  | @copyByte w off ptr j hw hj hoff hnew =>
    rw [copy_accesses hw hj] at ha
    obtain ⟨⟨l, hsrc⟩, hdst⟩ := h.touches_copy hw hj hoff
    rcases List.mem_cons.mp ha with rfl | ha
    · exact ⟨l, off, hsrc⟩
    · cases List.mem_singleton.mp ha
      exact ⟨_, off, hdst⟩
  | copyReturn _ _ _ => cases ha
  | moveEnter _ _ _ _ _ => cases ha
  | @fetchByte mv off hm hoff =>
    simp only [accesses, hm] at ha
    cases List.mem_singleton.mp ha
    exact ⟨_, off, h.touches_block (h.move mv hm).refs hoff (.moveSource hm rfl) nofun⟩
  | @storeByte mv off mem hm hoff hnew hmem =>
    have hsrc := h.touches_block (h.move mv hm).refs hoff (.moveSource hm rfl) nofun
    have hdst := h.touches_target hm hoff
    simp only [accesses, hm] at ha
    split at ha
    · rcases List.mem_cons.mp ha with rfl | ha
      · exact ⟨_, off, hsrc⟩
      · cases List.mem_singleton.mp ha
        exact ⟨_, off, hdst⟩
    · cases List.mem_singleton.mp ha
      exact ⟨_, off, hdst⟩
  | moveLeave _ _ => cases ha

theorem Steps.shape {op : BytewiseOp} (hs : Steps f op g) : SameShape f.pool g.pool := by
  cases hs with
  | call _ _ ho => exact SameShape.next (OwnedPool.next_pool ho)
  | write _ ho =>
    obtain ⟨-, -, -, rfl⟩ := OwnedPool.write_cases ho
    exact ⟨rfl, rfl, rfl, fun _ => rfl, fun _ => rfl⟩
  | worker _ hp => exact (SameBooks.workerStep hp).shape
  | @moveEnter id => exact SameShape.cancelMigration f.pool id
  | @moveLeave mv =>
    have hs := SameShape.moveBlock f.pool mv.id mv.dst (f.pool.location mv.id)
    exact ⟨hs.1, hs.2, hs.3, hs.4, hs.5⟩
  | read _ _ | copyByte _ _ _ _ | copyReturn _ _ _ | fetchByte _ _ | storeByte _ _ _ _ =>
    exact ⟨rfl, rfl, rfl, fun _ => rfl, fun _ => rfl⟩

/-! ## Runs -/

/-- The bounds every run keeps. -/
theorem run_sound {f₀ : BytewisePool} {tr : List BytewiseOp} (h0 : f₀.Sound)
    (hrun : Run BytewisePool.Step f₀ tr f) : f.Sound ∧ SameShape f₀.pool f.pool := by
  refine hrun.invariant (I := fun f => f.Sound ∧ SameShape f₀.pool f.pool) (fun f op g hf hs => ?_)
    ⟨h0, SameShape.refl _⟩
  exact ⟨hf.1.steps (next_cases hs), hf.2.trans (next_cases hs).shape⟩

end BytewisePool

variable {cfg : CacheConfig} {specs : List TierSpec} {mem : Arena.Mem TierIndex UInt8}
  {p₀ : BlockPool} {f g g' : BytewisePool} {tr : List BytewiseOp}

open BytewisePool in
/-- Two parties that want one byte, one of them to write it. -/
theorem BytewisePool.Sound.race (h : f.Sound) {o o' : BytewiseOp} (ho : f.next o = some g)
    (ho' : f.next o' = some g') (hne : o.agent ≠ o'.agent) {a b : Access} (ha : a ∈ f.accesses o)
    (hb : b ∈ f.accesses o') (haddr : a.addr = b.addr)
    (hwrite : a.isWrite = true ∨ b.isWrite = true) :
    a.isWrite = false ∧ f.stale o.agent = true ∨ b.isWrite = false ∧ f.stale o'.agent = true := by
  obtain ⟨l, off, hl⟩ := h.touches (next_cases ho) ha
  obtain ⟨l', off', hl'⟩ := h.touches (next_cases ho') hb
  -- one byte, so one slot
  have hsame : l = l' := by
    have he := hl.addr.symm.trans (haddr.trans hl'.addr)
    rw [Prod.mk.injEq] at he
    have hslot := Arena.slot_of_cell hl.offset hl'.offset he.2
    cases l
    cases l'
    simp only at he hslot
    rw [he.1, hslot]
  subst hsame
  have hr := hl.role
  have hr' := hl'.role
  rcases hwrite with hw | hw
  · rw [hw] at hr
    rcases h.exclusive hr hr' with e | hst
    · exact absurd e hne
    · exact .inr hst
  · rw [hw] at hr'
    rcases h.exclusive hr' hr with e | hst
    · exact absurd e.symm hne
    · exact .inl hst

open BytewisePool in
/-- **Races are stale.**  Whenever steps of two parties could be taken and want the same byte, one
of them to write it, the other reads it for a job that was cancelled: nothing an owner, a move or a
live migration reads is ever written at the same time, and no byte is written by two parties.  So
what such a party is about to read is the same after a step of any other one. -/
theorem races_are_stale (h0 : init cfg specs mem = .ok p₀)
    (hfit : (specs.map (·.numBlocks)).sum < 2 ^ 32)
    (hwrap : ∀ spec ∈ specs, spec.numBlocks * cfg.blockBytes < 2 ^ 64)
    (hrun : Run BytewisePool.Step (start p₀) tr f) {o o' : BytewiseOp} (ho : f.next o = some g)
    (ho' : f.next o' = some g') (hne : o.agent ≠ o'.agent) {a : Access} (ha : a ∈ f.accesses o) :
    (∀ b ∈ f.accesses o', a.addr = b.addr → a.isWrite = true ∨ b.isWrite = true →
      a.isWrite = false ∧ f.stale o.agent = true ∨
        b.isWrite = false ∧ f.stale o'.agent = true) ∧
    (a.isWrite = false → f.stale o.agent = false →
      g'.pool.mem a.addr.1 a.addr.2 = f.pool.mem a.addr.1 a.addr.2) := by
  obtain ⟨h, -⟩ := run_sound (sound_start h0 hfit hwrap) hrun
  refine ⟨fun b hb => h.race ho ho' hne ha hb, fun _ hst => ?_⟩
  -- a write there would be a race
  refine mem_frame (next_cases ho') fun b hb hw haddr => ?_
  rcases h.race ho ho' hne ha hb haddr.symm (.inr hw) with hr | hr
  · rw [hst] at hr
    cases hr.2
  · rw [hw] at hr
    cases hr.1

/-- The scheduler freed a block while a worker was copying it, and handed its slot out again. -/
def reusedTrace : List BytewiseOp :=
  [.call .allocate, .write 0 0 7, .call (.migrateAsync 0 1), .worker 0 .claim, .worker 0 .check,
    .copyByte 0 0, .call (.decref 0), .call .allocate, .write 0 0 3]

open BytewisePool in
/-- The race there is: the new owner writes a byte the worker is about to read. -/
theorem races_are_stale_reused : ∃ p₀ f, init smallConfig smallSpecs (fun _ _ => 0) = .ok p₀ ∧
    Run BytewisePool.Step (start p₀) reusedTrace f ∧ (f.next (.copyByte 0 1)).isSome ∧
    (f.next (.write 0 1 5)).isSome ∧ (⟨false, (0, 1)⟩ : Access) ∈ f.accesses (.copyByte 0 1) ∧
    (⟨true, (0, 1)⟩ : Access) ∈ f.accesses (.write 0 1 5) ∧ f.stale (.worker 0) = true := by
  have hs : ((init smallConfig smallSpecs (fun _ _ => 0)).toOption.bind fun p₀ =>
      (exec BytewisePool.next (start p₀) reusedTrace).map fun f =>
        ((f.next (.copyByte 0 1)).isSome, (f.next (.write 0 1 5)).isSome,
          f.accesses (.copyByte 0 1), f.accesses (.write 0 1 5))) =
      some (true, true, [⟨false, (0, 1)⟩, ⟨true, (1, 1)⟩], [⟨true, (0, 1)⟩]) := by decide +kernel
  obtain ⟨p₀, h0, hp⟩ := Option.bind_eq_some_iff.mp hs
  obtain ⟨f, hx, he⟩ := Option.map_eq_some_iff.mp hp
  have hi := toOption_eq_some h0
  have hr : Run BytewisePool.Step (start p₀) reusedTrace f := run_of_exec hx
  simp only [Prod.mk.injEq] at he
  obtain ⟨hc, hw, hca, hwa⟩ := he
  obtain ⟨g, hg⟩ := Option.isSome_iff_exists.mp hc
  obtain ⟨g', hg'⟩ := Option.isSome_iff_exists.mp hw
  have ha : (⟨false, (0, 1)⟩ : Access) ∈ f.accesses (.copyByte 0 1) := by
    rw [hca]
    exact List.mem_cons_self
  have hb : (⟨true, (0, 1)⟩ : Access) ∈ f.accesses (.write 0 1 5) := by
    rw [hwa]
    exact List.mem_cons_self
  rcases (races_are_stale hi (by decide) (by decide) hr hg hg' nofun ha).1 _ hb rfl (.inr rfl)
    with h | h
  · exact ⟨p₀, f, hi, hr, hc, hw, ha, hb, h.2⟩
  · cases h.1

open BytewisePool in
/-- **Every access is inside its tier.**  Each byte any party reads or writes in any run, also for a
job cancelled long ago, lies below the capacity of the tier it is in, and a worker's pointers lead
into tiers the CPU can address. -/
theorem accesses_inside (h0 : init cfg specs mem = .ok p₀)
    (hfit : (specs.map (·.numBlocks)).sum < 2 ^ 32)
    (hwrap : ∀ spec ∈ specs, spec.numBlocks * cfg.blockBytes < 2 ^ 64)
    (hrun : Run BytewisePool.Step (start p₀) tr f) {o : BytewiseOp} (ho : f.next o = some g)
    {a : Access} (ha : a ∈ f.accesses o) :
    ∃ spec tier, specs[a.addr.1]? = some spec ∧ spec.tier = some tier ∧
      a.addr.2 < tier.capacityBytes ∧ (∀ w, o.agent = .worker w → tier.hostAddressable = true) := by
  obtain ⟨h, hs⟩ := run_sound (sound_start h0 hfit hwrap) hrun
  obtain ⟨l, off, hl⟩ := h.touches (next_cases ho) ha
  have hs : SameShape p₀ f.pool := hs
  have hbb : f.pool.blockBytes = cfg.blockBytes := by
    rw [hs.blockBytes]
    obtain ⟨-, states, -, rfl⟩ := init_ok h0
    rfl
  have hlen : p₀.numTiers = specs.length := by
    obtain ⟨-, states, hall, rfl⟩ := init_ok h0
    exact hall.length_eq.symm
  have ht : l.tier < specs.length := by
    have := hl.tier
    rwa [hs.numTiers, hlen] at this
  have hspec : specs[l.tier]? = some specs[l.tier] := List.getElem?_eq_getElem ht
  have hinit := init_tier_at h0 hspec
  obtain ⟨tier, htier, hcap, -⟩ := initTier_accepts hinit
  have hhost := initTier_host hinit htier
  have hn := hwrap _ (List.getElem_mem ht)
  have hslot : l.slot < specs[l.tier].numBlocks := by
    have := hl.slot
    rwa [hs.tierBlocks, (initTier_ok hinit).1] at this
  rw [hl.addr]
  refine ⟨_, tier, hspec, htier, ?_, fun w hw => ?_⟩
  · have hle : (l.slot + 1) * cfg.blockBytes ≤ specs[l.tier].numBlocks * cfg.blockBytes :=
      Nat.mul_le_mul_right _ hslot
    unfold sizeMul at hcap
    rw [Nat.mod_eq_of_lt hn] at hcap
    have hoff := hl.offset
    rw [Nat.succ_mul] at hle
    rw [hbb] at hoff ⊢
    show l.slot * cfg.blockBytes + off < _
    omega
  · have hf := hl.host w hw
    rwa [hs.tierHost, hhost] at hf

open BytewisePool in
theorem accesses_inside_reused : ∃ p₀ f, init smallConfig smallSpecs (fun _ _ => 0) = .ok p₀ ∧
    Run BytewisePool.Step (start p₀) reusedTrace f ∧ (f.next (.copyByte 0 7)).isSome ∧
    ∃ spec tier, smallSpecs[1]? = some spec ∧ spec.tier = some tier ∧ 7 < tier.capacityBytes := by
  have hs : ((init smallConfig smallSpecs (fun _ _ => 0)).toOption.bind fun p₀ =>
      (exec BytewisePool.next (start p₀) reusedTrace).map fun f =>
        ((f.next (.copyByte 0 7)).isSome, f.accesses (.copyByte 0 7))) =
      some (true, [⟨false, (0, 7)⟩, ⟨true, (1, 7)⟩]) := by decide +kernel
  obtain ⟨p₀, h0, hp⟩ := Option.bind_eq_some_iff.mp hs
  obtain ⟨f, hx, he⟩ := Option.map_eq_some_iff.mp hp
  have hi := toOption_eq_some h0
  have hr : Run BytewisePool.Step (start p₀) reusedTrace f := run_of_exec hx
  simp only [Prod.mk.injEq] at he
  obtain ⟨hc, hca⟩ := he
  obtain ⟨g, hg⟩ := Option.isSome_iff_exists.mp hc
  have ha : (⟨true, (1, 7)⟩ : Access) ∈ f.accesses (.copyByte 0 7) := by
    rw [hca]
    exact List.mem_cons_of_mem _ List.mem_cons_self
  obtain ⟨spec, tier, hspec, htier, hlt, -⟩ :=
    accesses_inside hi (by decide) (by decide) hr hg ha
  exact ⟨p₀, f, hi, hr, hc, spec, tier, hspec, htier, hlt⟩

end BlockPool

end KvsLab
