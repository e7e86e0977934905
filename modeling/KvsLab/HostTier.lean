import KvsLab.CacheManager.Ownership

/-!
# Host memory and single-tier managers

Model of `tier.cpp` and of the constructors that own their tier.

* `HostTier.create` — the arena: its capacity is rounded up to whole pages, and an empty one is not
  addressable.  Whether `std::aligned_alloc` finds the memory is a parameter; `none` is
  `std::bad_alloc`.
* `BlockPool.single`, `CacheManager.single` — a pool and a manager over one owned `HostTier`.
* `single_accepts_iff` — **which configurations these constructors accept.**  The rounding wraps for a
  total in the last page of `std::size_t`, and the pool then finds its own tier too small; a vector that
  would have to be longer than any can be is `std::length_error`.
-/

namespace KvsLab

def kArenaAlignment : Nat := 4096

/-- `round_up`, in `std::size_t`. -/
def roundUp (value multiple : Nat) : Nat :=
  sizeMul ((value + multiple - 1) % 2 ^ 64 / multiple) multiple

/-- The constructor. -/
def HostTier.create (alignedAlloc : Nat → Bool) (capacityBytes : Nat) : Option Tier :=
  let capacity := roundUp capacityBytes kArenaAlignment
  if capacity = 0 then some ⟨0, false⟩
  else if alignedAlloc capacity then some ⟨capacity, true⟩
  else none

/-- `BlockPool(cfg)`. -/
def BlockPool.single (alignedAlloc : Nat → Bool) (cfg : CacheConfig)
    (mem : Arena.Mem TierIndex UInt8) : Option (Except Fault BlockPool) := do
  let tier ← HostTier.create alignedAlloc cfg.totalBytes
  return BlockPool.init cfg [⟨some tier, cfg.numBlocks⟩] mem

/-- `CacheManager(cfg)`. -/
def CacheManager.single (alignedAlloc : Nat → Bool) (cfg : CacheConfig)
    (mem : Arena.Mem TierIndex UInt8) : Option (Except Fault CacheManager) := do
  let built ← BlockPool.single alignedAlloc cfg mem
  return do
    let pool ← built
    let tree ← RadixTree.create cfg.blockTokens
    return { cfg, pool, tree }

/-! ## Rounding -/

/-- A size that is not in the last page of `std::size_t` is rounded up to whole pages. -/
theorem roundUp_page {n : Nat} (h : n ≤ 2 ^ 64 - kArenaAlignment) :
    n ≤ roundUp n kArenaAlignment ∧ roundUp n kArenaAlignment < n + kArenaAlignment ∧
      roundUp n kArenaAlignment % kArenaAlignment = 0 := by
  unfold roundUp sizeMul kArenaAlignment at *
  omega

/-- Any other wraps. -/
theorem roundUp_wraps {n : Nat} (h : 2 ^ 64 - kArenaAlignment < n) (hlt : n < 2 ^ 64) :
    roundUp n kArenaAlignment = 0 := by
  unfold roundUp sizeMul kArenaAlignment at *
  omega

theorem totalBytes_lt (cfg : CacheConfig) : cfg.totalBytes < 2 ^ 64 :=
  Nat.mod_lt _ (Nat.two_pow_pos 64)

/-! ## Construction -/

/-- A single-tier manager is a tiered one with the default options. -/
theorem single_eq (alignedAlloc : Nat → Bool) (cfg : CacheConfig)
    (mem : Arena.Mem TierIndex UInt8) : CacheManager.single alignedAlloc cfg mem =
      (HostTier.create alignedAlloc cfg.totalBytes).map fun tier =>
        CacheManager.create [⟨some tier, cfg.numBlocks⟩] cfg {} mem := by
  unfold CacheManager.single BlockPool.single
  cases HostTier.create alignedAlloc cfg.totalBytes <;> rfl

theorem single_cases {alignedAlloc : Nat → Bool} {cfg : CacheConfig}
    {mem : Arena.Mem TierIndex UInt8} {m : CacheManager}
    (h : CacheManager.single alignedAlloc cfg mem = some (.ok m)) :
    ∃ tier, HostTier.create alignedAlloc cfg.totalBytes = some tier ∧
      CacheManager.create [⟨some tier, cfg.numBlocks⟩] cfg {} mem = .ok m := by
  rw [single_eq] at h
  exact Option.map_eq_some_iff.mp h

theorem totalBlocks_one {tier : Option Tier} {n : Nat} (h : n ≤ maxSize 4) :
    BlockPool.totalBlocks [⟨tier, n⟩] = n := by
  show (0 + n) % 2 ^ 64 = n
  rw [Nat.zero_add]
  exact Nat.mod_eq_of_lt (Nat.lt_of_le_of_lt h (by decide))

/-- The tiered constructor on one tier looks at its capacity, at the lengths of the vectors it has to
make, and at the tokens of a block. -/
theorem create_one_iff (tier : Tier) (cfg : CacheConfig) (mem : Arena.Mem TierIndex UInt8) :
    (∃ m, CacheManager.create [⟨some tier, cfg.numBlocks⟩] cfg {} mem = .ok m) ↔
      cfg.totalBytes ≤ tier.capacityBytes ∧
        (cfg.numBlocks ≤ maxSize 8 ∧ cfg.blockBytes ≤ maxSize 1) ∧ 0 < cfg.blockTokens := by
  have hmax : maxSize 8 ≤ maxSize 4 := by decide
  constructor
  · rintro ⟨m, hm⟩
    obtain ⟨hp, hbt, -⟩ := System.create_ok hm
    obtain ⟨tier', ht, hcap, hslots, -⟩ := BlockPool.initTier_accepts (BlockPool.init_tier_at hp
      (t := 0) rfl)
    cases ht
    obtain ⟨hids, hbounce⟩ := BlockPool.init_lengths hp
    rw [totalBlocks_one hslots] at hids
    exact ⟨hcap, ⟨hids, hbounce⟩, hbt⟩
  · rintro ⟨hcap, ⟨hids, hbounce⟩, hbt⟩
    have hslots := hids.trans hmax
    have hsum : ¬ (maxSize 8 < BlockPool.totalBlocks [⟨some tier, cfg.numBlocks⟩] ∨
        maxSize 1 < cfg.blockBytes) := by
      rw [totalBlocks_one hslots]
      omega
    have hcap : ¬ tier.capacityBytes < sizeMul cfg.numBlocks cfg.blockBytes := Nat.not_lt.mpr hcap
    unfold CacheManager.create BlockPool.init BlockPool.initTier RadixTree.create
    simp only [List.isEmpty_cons, Bool.false_eq_true, if_false, List.mapM_cons, List.mapM_nil,
      if_neg hcap, if_neg (Nat.not_lt.mpr hslots), bind, Except.bind, pure, Except.pure, if_neg hsum,
      if_neg (Nat.pos_iff_ne_zero.mp hbt)]
    exact ⟨_, rfl⟩

/-- **A single-tier manager is built exactly when** its blocks have tokens, no vector of the pool
becomes too long, its total is not in the last page of `std::size_t`, and the allocator finds the
pages, if there are any to find. -/
theorem single_accepts_iff (alignedAlloc : Nat → Bool) (cfg : CacheConfig)
    (mem : Arena.Mem TierIndex UInt8) :
    (∃ m, CacheManager.single alignedAlloc cfg mem = some (.ok m)) ↔
      0 < cfg.blockTokens ∧ (cfg.numBlocks ≤ maxSize 8 ∧ cfg.blockBytes ≤ maxSize 1) ∧
        cfg.totalBytes ≤ 2 ^ 64 - kArenaAlignment ∧
        (cfg.totalBytes = 0 ∨ alignedAlloc (roundUp cfg.totalBytes kArenaAlignment) = true) := by
  have hbuilt : (∃ m, CacheManager.single alignedAlloc cfg mem = some (.ok m)) ↔
      ∃ tier, HostTier.create alignedAlloc cfg.totalBytes = some tier ∧
        cfg.totalBytes ≤ tier.capacityBytes ∧
        (cfg.numBlocks ≤ maxSize 8 ∧ cfg.blockBytes ≤ maxSize 1) ∧ 0 < cfg.blockTokens := by
    constructor
    · rintro ⟨m, hm⟩
      obtain ⟨tier, ht, hc⟩ := single_cases hm
      exact ⟨tier, ht, (create_one_iff tier cfg mem).mp ⟨m, hc⟩⟩
    · rintro ⟨tier, ht, hok⟩
      obtain ⟨m, hm⟩ := (create_one_iff tier cfg mem).mpr hok
      exact ⟨m, by rw [single_eq, ht, Option.map_some, hm]⟩
  rw [hbuilt]
  unfold HostTier.create
  rcases Nat.lt_or_ge (2 ^ 64 - kArenaAlignment) cfg.totalBytes with hlast | hin
  · -- the rounded capacity is zero, less than the total
    have hzero := roundUp_wraps hlast (totalBytes_lt cfg)
    simp only [hzero, if_true, Option.some.injEq]
    constructor
    · rintro ⟨tier, rfl, hle, -⟩
      have : cfg.totalBytes = 0 := Nat.le_zero.mp hle
      omega
    · rintro ⟨-, -, hle, -⟩
      omega
  · obtain ⟨hle, hlt, hdvd⟩ := roundUp_page hin
    by_cases hcap : roundUp cfg.totalBytes kArenaAlignment = 0
    · have htotal : cfg.totalBytes = 0 := by omega
      simp only [hcap, if_true, Option.some.injEq]
      constructor
      · rintro ⟨tier, rfl, -, hlen, hbt⟩
        exact ⟨hbt, hlen, hin, .inl htotal⟩
      · rintro ⟨hbt, hlen, -, -⟩
        exact ⟨_, rfl, Nat.le_of_eq htotal, hlen, hbt⟩
    · have htotal : cfg.totalBytes ≠ 0 := by
        unfold kArenaAlignment at *
        omega
      simp only [hcap, if_false]
      constructor
      · rintro ⟨tier, ht, -, hlen, hbt⟩
        refine ⟨hbt, hlen, hin, .inr ?_⟩
        by_contra hno
        rw [if_neg hno] at ht
        cases ht
      · rintro ⟨hbt, hlen, -, hz | ha⟩
        · exact absurd hz htotal
        · rw [if_pos ha]
          exact ⟨_, rfl, hle, hlen, hbt⟩

/-- The default configuration is accepted.  One whose total is zero is not when its blocks are longer
than any vector, or when there are more of them than any vector has elements. -/
theorem single_accepts_iff_default :
    (∃ m, CacheManager.single (fun _ => true) {} (fun _ _ => 0) = some (.ok m)) ∧
    (¬ ∃ m, CacheManager.single (fun _ => true) ⟨2, 1, 2 ^ 62, 1, 1, 1⟩ (fun _ _ => 0) =
      some (.ok m)) ∧
    ¬ ∃ m, CacheManager.single (fun _ => true) ⟨2 ^ 62, 16, 0, 8, 128, 2⟩ (fun _ _ => 0) =
      some (.ok m) := by
  refine ⟨(single_accepts_iff _ _ _).mpr (by decide), fun h => ?_, fun h => ?_⟩
  · exact absurd ((single_accepts_iff _ _ _).mp h).2.1.2 (by decide)
  · exact absurd ((single_accepts_iff _ _ _).mp h).2.1.1 (by decide)

end KvsLab
