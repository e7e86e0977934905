import KvsLab.BlockPool.Access
import KvsLab.BlockPool.Bytewise.Columns

/-!
# Byte-wise copies refine atomic ones

* `bytewise_refines` — **what happens at one offset in a run of byte copies is a run of the pool whose
  copies are atomic.**
* `bytewise_follows_id` — **so the bytes an owner wrote are read back from its block**, whatever is
  copied meanwhile.
-/

namespace KvsLab

open Transition

namespace BlockPool

variable {p : BlockPool} {m : Arena.Mem TierIndex UInt8}

theorem init_mem {cfg : CacheConfig} {specs : List TierSpec} (h : init cfg specs m = .ok p)
    (m' : Arena.Mem TierIndex UInt8) : init cfg specs m' = .ok { p with mem := m' } := by
  unfold init at h ⊢
  split at h
  · cases h
  rename_i hne
  rw [if_neg hne]
  cases hst : specs.mapM (initTier cfg.blockBytes) with
  | error e =>
    rw [hst] at h
    cases h
  | ok states =>
    rw [hst] at h
    simp only [bind, Except.bind] at h ⊢
    split at h
    · cases h
    rename_i hmax
    rw [if_neg hmax]
    cases h
    rfl

namespace BytewisePool

/-- A pool in which nothing is copied yet. -/
def start (p : BlockPool) : BytewisePool := { owned := ⟨p, fun _ _ => none⟩ }

variable {cfg : CacheConfig} {specs : List TierSpec} {p₀ : BlockPool} {f : BytewisePool}
  {tr : List BytewiseOp}

theorem sound_start (h0 : init cfg specs m = .ok p₀) (hfit : (specs.map (·.numBlocks)).sum < 2 ^ 32)
    (hwrap : ∀ spec ∈ specs, spec.numBlocks * cfg.blockBytes < 2 ^ 64) : (start p₀).Sound := by
  refine ⟨init_inv h0 hfit, init_queueInv h0, init_noWrap h0 hwrap, fun j hj => ?_, nofun⟩
  obtain ⟨_, states, _, rfl⟩ := init_ok h0
  cases hj

theorem column_start (h0 : init cfg specs m = .ok p₀) (i : Nat) :
    (start p₀).column i =
      ⟨{ p₀ with mem := Arena.column 0 cfg.blockBytes i m }, fun _ _ => none⟩ := by
  obtain ⟨_, states, _, rfl⟩ := init_ok h0
  unfold column
  rw [landed_none rfl]
  refine congrArg (OwnedPool.mk _) ?_
  funext id k
  exact ite_self _

end BytewisePool

/-- What every byte-wise run gives: a sound pool, and a run of atomic copies at each offset. -/
theorem BytewisePool.run_columns {f₀ f : BytewisePool} {tr : List BytewiseOp} (h0 : f₀.Sound)
    (hrun : Run BytewisePool.Step f₀ tr f) (i : Nat) :
    f.Sound ∧ ∃ tr', Run OwnedPool.Step (f₀.column i) tr' (f.column i) := by
  have hstep : ∀ f op f', Sound f → BytewisePool.Step f op f' →
      Sound f' ∧ (f'.column i = f.column i ∨ ∃ o, (f.column i).Step o (f'.column i)) :=
    fun f op f' hf hs => ⟨hf.steps (next_cases hs), hf.next_column (next_cases hs) i⟩
  exact hrun.stuttering hstep h0

open BytewisePool in
/-- **Byte-wise copies refine atomic ones.**  In every run of calls, byte writes of the owners and
byte copies, what happens at one offset into the blocks is a run of the pool whose copies are
atomic. -/
theorem bytewise_refines {cfg : CacheConfig} {specs : List TierSpec}
    {mem : Arena.Mem TierIndex UInt8} {p₀ : BlockPool} {f : BytewisePool} {tr : List BytewiseOp}
    (h0 : init cfg specs mem = .ok p₀) (hfit : (specs.map (·.numBlocks)).sum < 2 ^ 32)
    (hwrap : ∀ spec ∈ specs, spec.numBlocks * cfg.blockBytes < 2 ^ 64)
    (hrun : Run BytewisePool.Step (start p₀) tr f) (i : Nat) :
    ∃ q₀ tr', init cfg specs (Arena.column 0 cfg.blockBytes i mem) = .ok q₀ ∧
      Run OwnedPool.Step ⟨q₀, fun _ _ => none⟩ tr' (f.column i) := by
  obtain ⟨-, tr', hr⟩ := run_columns (sound_start h0 hfit hwrap) hrun i
  rw [column_start h0] at hr
  exact ⟨_, tr', init_mem h0 _, hr⟩

theorem bytesInv_init {cfg : CacheConfig} {specs : List TierSpec} (h0 : init cfg specs m = .ok p)
    (hfit : (specs.map (·.numBlocks)).sum < 2 ^ 32)
    (hwrap : ∀ spec ∈ specs, spec.numBlocks * cfg.blockBytes < 2 ^ 64) :
    BytesInv ⟨p, fun _ _ => none⟩ := by
  refine ⟨init_inv h0 hfit, init_queueInv h0, init_noWrap h0 hwrap, nofun, fun j hj => ?_⟩
  obtain ⟨_, states, _, rfl⟩ := init_ok h0
  cases hj

open BytewisePool in
/-- A byte an owner wrote is the byte at the block's location. -/
theorem owned_byte {cfg : CacheConfig} {specs : List TierSpec}
    {mem : Arena.Mem TierIndex UInt8} {p₀ : BlockPool} {f : BytewisePool} {tr : List BytewiseOp}
    (h0 : init cfg specs mem = .ok p₀) (hfit : (specs.map (·.numBlocks)).sum < 2 ^ 32)
    (hwrap : ∀ spec ∈ specs, spec.numBlocks * cfg.blockBytes < 2 ^ 64)
    (hrun : Run BytewisePool.Step (start p₀) tr f) :
    f.Sound ∧ ∀ id, f.pool.refcount id ≠ 0 → ∀ i < f.pool.blockBytes, ∀ b,
      f.owned.wrote id i = some b → f.pool.byteAt (f.pool.location id) i = b := by
  refine ⟨(run_columns (sound_start h0 hfit hwrap) hrun 0).1, fun id hr i hi b hb => ?_⟩
  obtain ⟨hsound, tr', hrun'⟩ := run_columns (sound_start h0 hfit hwrap) hrun i
  rw [column_start h0] at hrun'
  have hcol := (hrun'.invariant (fun _ _ _ hi hs => hi.next hs)
    (bytesInv_init (init_mem h0 _) hfit hwrap)).last id
  -- the byte as the atomic pool of this offset finds it
  have hbyte : ∀ l : Location, (f.column i).pool.byteAt l i = f.pool.byteAt l i := fun l => by
    rcases f.landed_cases i with hl | ⟨_, -, hl⟩ <;> unfold column byteAt <;> rw [hl] <;>
      exact Arena.column_self _ _ _ _ hi
  have hwrote : (f.column i).wrote id i = some b := (if_pos rfl).trans hb
  have hlast : ∀ l, (f.column i).pool.location id = l → f.pool.byteAt l i = b := by
    rintro l rfl
    rw [← hbyte]
    rcases f.landed_cases i with hl | ⟨_, -, hl⟩ <;> unfold column at hcol hwrote ⊢ <;>
      rw [hl] at hcol ⊢ <;> exact hcol hr i hi b hwrote
  cases hm : f.move with
  | none =>
    refine hlast _ ?_
    unfold column
    rw [landed_none hm]
  | some mv =>
    by_cases hst : i ∈ mv.stored
    swap
    · refine hlast _ ?_
      unfold column
      rw [landed_of_notMem hm hst]
    have hloc : (f.column i).pool.location id =
        Function.update f.pool.location mv.id mv.dst id := by
      unfold column
      rw [landed_of_mem hm hst]
      rfl
    by_cases hid : id = mv.id
    · subst hid
      rw [Function.update_self] at hloc
      exact (((hsound.move mv hm).stored i hst).2).symm.trans (hlast _ hloc)
    · rw [Function.update_of_ne hid] at hloc
      exact hlast _ hloc

open BytewisePool in
/-- **Bytes follow the id, copied one at a time.**  Between any two of its bytes a copy may be
overtaken by any other step: each byte an owner wrote into its block is still read at the block's
tier and slot, and through the pointer `block_data` returns where the CPU can address the tier. -/
theorem bytewise_follows_id {cfg : CacheConfig} {specs : List TierSpec}
    {mem : Arena.Mem TierIndex UInt8} {p₀ : BlockPool} {f : BytewisePool} {tr : List BytewiseOp}
    (h0 : init cfg specs mem = .ok p₀) (hfit : (specs.map (·.numBlocks)).sum < 2 ^ 32)
    (hwrap : ∀ spec ∈ specs, spec.numBlocks * cfg.blockBytes < 2 ^ 64)
    (hrun : Run BytewisePool.Step (start p₀) tr f) :
    ∀ id, f.pool.refcount id ≠ 0 → ∀ i < f.pool.blockBytes, ∀ b, f.owned.wrote id i = some b →
      f.pool.byteAt (f.pool.location id) i = b ∧
      ((f.pool.tiers (f.pool.location id).tier).hostAddressable = true →
        ∃ a, f.pool.blockData id = .ok (some a) ∧ f.pool.mem a.1 (a.2 + i) = b) := by
  obtain ⟨hsound, hbytes⟩ := owned_byte h0 hfit hwrap hrun
  intro id hr i hi b hb
  have hbyte := hbytes id hr i hi b hb
  exact ⟨hbyte, fun hh => ⟨_, hsound.inv.blockData_eq hsound.noWrap hr hh, hbyte⟩⟩

/-- A job is cancelled after one byte of its copy, the next owner of its source slot writes there,
and the copy goes on; the slot it wrote is then the end of a synchronous move. -/
def tornTrace : List BytewiseOp :=
  [.call .allocate, .write 0 0 7, .call (.migrateAsync 0 1), .worker 0 .claim, .worker 0 .check,
    .copyByte 0 0, .call (.decref 0), .call .allocate, .write 0 0 3, .write 0 1 5] ++
  [1, 2, 3, 4, 5, 6, 7].map (.copyByte 0) ++
  [.copyReturn 0, .worker 0 .finish, .call .waitForMigrations, .moveEnter 0 1] ++
  [7, 6, 5, 4, 3, 2, 1, 0].map .storeByte ++ [.moveLeave]

open BytewisePool in
theorem bytewise_refines_torn : ∃ p₀ f, init smallConfig smallSpecs (fun _ _ => 0) = .ok p₀ ∧
    Run BytewisePool.Step (start p₀) tornTrace f ∧ ∃ q₀ tr',
      init smallConfig smallSpecs (Arena.column 0 8 1 fun _ _ => 0) = .ok q₀ ∧
        Run OwnedPool.Step ⟨q₀, fun _ _ => none⟩ tr' (f.column 1) := by
  have hs : ((init smallConfig smallSpecs (fun _ _ => 0)).toOption.bind fun p₀ =>
      (exec BytewisePool.next (start p₀) tornTrace).map fun f => f.pool.location 0) =
      some ⟨1, 0⟩ := by decide +kernel
  obtain ⟨p₀, h0, hp⟩ := Option.bind_eq_some_iff.mp hs
  obtain ⟨f, hx, -⟩ := Option.map_eq_some_iff.mp hp
  have hi := toOption_eq_some h0
  have hr : Run BytewisePool.Step (start p₀) tornTrace f := run_of_exec hx
  exact ⟨p₀, f, hi, hr, bytewise_refines hi (by decide) (by decide) hr 1⟩

open BytewisePool in
theorem bytewise_follows_id_torn : ∃ p₀ f, init smallConfig smallSpecs (fun _ _ => 0) = .ok p₀ ∧
    Run BytewisePool.Step (start p₀) tornTrace f ∧ f.pool.location 0 = ⟨1, 0⟩ ∧
    f.pool.byteAt ⟨1, 0⟩ 0 = 3 := by
  have hs : ((init smallConfig smallSpecs (fun _ _ => 0)).toOption.bind fun p₀ =>
      (exec BytewisePool.next (start p₀) tornTrace).map fun f =>
        (f.pool.refcount 0, f.pool.blockBytes, f.pool.location 0, f.owned.wrote 0 0)) =
      some (1, 8, ⟨1, 0⟩, some 3) := by decide +kernel
  obtain ⟨p₀, h0, hp⟩ := Option.bind_eq_some_iff.mp hs
  obtain ⟨f, hx, he⟩ := Option.map_eq_some_iff.mp hp
  have hi := toOption_eq_some h0
  have hr : Run BytewisePool.Step (start p₀) tornTrace f := run_of_exec hx
  simp only [Prod.mk.injEq] at he
  obtain ⟨h1, hb, hl, hw⟩ := he
  have hbyte := (bytewise_follows_id hi (by decide) (by decide) hr 0 (by omega) 0 (by omega) 3 hw).1
  exact ⟨p₀, f, hi, hr, hl, by rw [← hl]; exact hbyte⟩

end BlockPool

end KvsLab
