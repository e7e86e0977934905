import KvsLab.BlockPool.Conservation

/-!
# Which geometries the constructor may accept

The constructor compares a product taken in `std::size_t` with a tier's capacity, sums the blocks
of the tiers in `std::size_t`, and casts slots and ids to 32 bits.

* `SoundGeometry` — what an accepted pool has to satisfy, over the integers: `block_bytes` is the
  product of its factors, every slot lies inside its tier, and slots and ids are told apart, the
  reserved `kInvalidBlock` included.
* `Fits` — the bounds on the arguments under which no product wraps and no cast truncates.
* `sound_geometry_iff` — an accepted pool is sound exactly when its arguments fit.
-/

namespace KvsLab

namespace CacheConfig

/-- `block_bytes` over the integers. -/
def exactBlockBytes (c : CacheConfig) : Nat :=
  c.blockTokens * (2 * c.numLayers * c.numKvHeads * c.headDim * c.dtypeBytes)

/-- The factors of `block_bytes` are multiplied modulo `2 ^ 64`. -/
theorem blockBytes_eq (c : CacheConfig) : c.blockBytes = c.exactBlockBytes % 2 ^ 64 := by
  have hmul : ∀ a b, sizeMul (a % 2 ^ 64) b = a * b % 2 ^ 64 := fun a b => Nat.mod_mul_mod a b _
  have h2 : sizeMul 2 c.numLayers = 2 * c.numLayers % 2 ^ 64 := rfl
  unfold blockBytes bytesPerToken exactBlockBytes
  rw [h2, hmul, hmul, hmul]
  exact Nat.mul_mod_mod _ _ _

theorem blockBytes_exact_iff (c : CacheConfig) :
    c.blockBytes = c.exactBlockBytes ↔ c.exactBlockBytes < 2 ^ 64 := by
  rw [blockBytes_eq]
  constructor
  · intro h
    rw [← h]
    exact Nat.mod_lt _ (Nat.two_pow_pos 64)
  · intro h
    exact Nat.mod_eq_of_lt h

end CacheConfig

namespace BlockPool

variable {cfg : CacheConfig} {specs : List TierSpec} {mem : Arena.Mem TierIndex UInt8}
  {p : BlockPool}

/-- Every slot and every id of a new pool stands for memory of its own. -/
structure SoundGeometry (cfg : CacheConfig) (specs : List TierSpec) (p : BlockPool) : Prop where
  blockBytes : p.blockBytes = cfg.exactBlockBytes
  inside : ∀ t spec tier, specs[t]? = some spec → spec.tier = some tier →
    ∀ slot ∈ (p.tiers t).freeSlots, (slot + 1) * p.blockBytes ≤ tier.capacityBytes
  slots : ∀ t < p.numTiers, (p.tiers t).freeSlots.Nodup
  ids : p.freeIds.Nodup
  valid : kInvalidBlock ∉ p.freeIds

/-- No size the constructor forms wraps, and no slot or id is truncated. -/
structure Fits (cfg : CacheConfig) (specs : List TierSpec) : Prop where
  block : cfg.exactBlockBytes < 2 ^ 64
  slots : ∀ spec ∈ specs, spec.numBlocks ≤ 2 ^ 32
  tier : ∀ spec ∈ specs, spec.numBlocks * cfg.exactBlockBytes < 2 ^ 64
  total : (specs.map (·.numBlocks)).sum % 2 ^ 64 < 2 ^ 32

/-! ## Casts to 32 bits -/

/-- Truncated slots or ids are told apart up to `2 ^ 32` of them. -/
theorem toU32_range_nodup (n : Nat) : ((List.range n).map toU32).Nodup ↔ n ≤ 2 ^ 32 := by
  constructor
  · intro h
    by_contra hlt
    -- the first slot past the range takes the number of slot 0
    have h0 : 0 ∈ List.range n := List.mem_range.mpr (by omega)
    have hw : 2 ^ 32 ∈ List.range n := List.mem_range.mpr (by omega)
    have := List.inj_on_of_nodup_map h h0 hw rfl
    omega
  · intro h
    rw [map_toU32_range h]
    exact List.nodup_range

theorem kInvalidBlock_mem_range (n : Nat) : kInvalidBlock ∈ (List.range n).map toU32 ↔
    2 ^ 32 ≤ n := by
  rw [List.mem_map]
  constructor
  · rintro ⟨i, hi, he⟩
    have hlt := List.mem_range.mp hi
    have hle : toU32 i ≤ i := Nat.mod_le _ _
    rw [he] at hle
    unfold kInvalidBlock at hle
    omega
  · intro h
    refine ⟨2 ^ 32 - 1, List.mem_range.mpr (by omega), ?_⟩
    decide

/-- The blocks of all tiers are summed modulo `2 ^ 64`. -/
theorem totalBlocks_mod (specs : List TierSpec) :
    totalBlocks specs = (specs.map (·.numBlocks)).sum % 2 ^ 64 := by
  have key : ∀ (specs : List TierSpec) (n : Nat),
      specs.foldl (fun n spec => (n + spec.numBlocks) % 2 ^ 64) (n % 2 ^ 64) =
        (n + (specs.map (·.numBlocks)).sum) % 2 ^ 64 := by
    intro specs
    induction specs with
    | nil => intro n; simp
    | cons spec specs ih =>
      intro n
      rw [List.foldl_cons, List.map_cons, List.sum_cons, Nat.mod_add_mod, ih, Nat.add_assoc]
  have := key specs 0
  rw [Nat.zero_add] at this
  exact this

/-! ## The check of a tier -/

/-- The slots of a tier lie inside it when all of them together do. -/
theorem range_inside (n bytes capacity : Nat) :
    (∀ slot ∈ List.range n, (slot + 1) * bytes ≤ capacity) ↔ n * bytes ≤ capacity := by
  constructor
  · intro h
    cases n with
    | zero => simp
    | succ n => exact h n (List.mem_range.mpr (Nat.lt_succ_self n))
  · intro h slot hs
    exact (Nat.mul_le_mul_right bytes (List.mem_range.mp hs)).trans h

/-- The check accepts a tier whose blocks need more than `2 ^ 64` bytes only by wrapping. -/
theorem accepted_iff {n bytes capacity : Nat} (hcap : capacity < 2 ^ 64)
    (hacc : sizeMul n bytes ≤ capacity) : n * bytes ≤ capacity ↔ n * bytes < 2 ^ 64 := by
  constructor
  · intro h
    exact Nat.lt_of_le_of_lt h hcap
  · intro h
    unfold sizeMul at hacc
    rwa [Nat.mod_eq_of_lt h] at hacc

/-- **An accepted pool is sound exactly when its arguments fit.** -/
theorem sound_geometry_iff (h : init cfg specs mem = .ok p)
    (hcap : ∀ spec ∈ specs, ∀ tier, spec.tier = some tier → tier.capacityBytes < 2 ^ 64) :
    SoundGeometry cfg specs p ↔ Fits cfg specs := by
  obtain ⟨-, states, hall, he⟩ := init_ok h
  have hbytes : p.blockBytes = cfg.blockBytes := by rw [he]; rfl
  have hids : p.freeIds = (List.range (totalBlocks specs)).map toU32 := by rw [he]; rfl
  have hlen : p.numTiers = specs.length := by rw [he]; exact hall.length_eq.symm
  have hfree : ∀ t spec, specs[t]? = some spec →
      (p.tiers t).freeSlots = (List.range spec.numBlocks).map toU32 :=
    fun t spec hs => (initTier_ok (init_tier_at h hs)).2
  constructor
  · intro hg
    have hblock : cfg.exactBlockBytes < 2 ^ 64 := by
      rw [← CacheConfig.blockBytes_exact_iff, ← hbytes]
      exact hg.blockBytes
    have hslots : ∀ spec ∈ specs, spec.numBlocks ≤ 2 ^ 32 := by
      intro spec hm
      obtain ⟨t, ht, hget⟩ := List.mem_iff_getElem.mp hm
      have hs : specs[t]? = some spec := List.getElem?_eq_some_iff.mpr ⟨ht, hget⟩
      rw [← toU32_range_nodup, ← hfree t spec hs]
      exact hg.slots t (hlen ▸ ht)
    refine ⟨hblock, hslots, fun spec hm => ?_, ?_⟩
    · obtain ⟨t, ht, hget⟩ := List.mem_iff_getElem.mp hm
      have hs : specs[t]? = some spec := List.getElem?_eq_some_iff.mpr ⟨ht, hget⟩
      obtain ⟨tier, htier, hacc, -⟩ := initTier_accepts (init_tier_at h hs)
      have hin := hg.inside t spec tier hs htier
      rw [hfree t spec hs, map_toU32_range (hslots spec hm), range_inside, hbytes,
        accepted_iff (hcap spec hm tier htier) hacc,
        (CacheConfig.blockBytes_exact_iff cfg).mpr hblock] at hin
      exact hin
    · have hv := hg.valid
      rw [hids, kInvalidBlock_mem_range, Nat.not_le] at hv
      rwa [← totalBlocks_mod]
  · intro hf
    have hexact : cfg.blockBytes = cfg.exactBlockBytes :=
      (CacheConfig.blockBytes_exact_iff cfg).mpr hf.block
    have htot : totalBlocks specs < 2 ^ 32 := by
      rw [totalBlocks_mod]
      exact hf.total
    refine ⟨hbytes.trans hexact, ?_, ?_, ?_, ?_⟩
    · intro t spec tier hs htier
      have hm : spec ∈ specs := List.mem_of_getElem? hs
      obtain ⟨tier', htier', hacc, -⟩ := initTier_accepts (init_tier_at h hs)
      cases htier.symm.trans htier'
      rw [hfree t spec hs, map_toU32_range (hf.slots spec hm), range_inside, hbytes,
        accepted_iff (hcap spec hm tier htier) hacc, hexact]
      exact hf.tier spec hm
    · intro t ht
      rw [hlen] at ht
      have hs : specs[t]? = some specs[t] := List.getElem?_eq_getElem ht
      rw [hfree t _ hs, toU32_range_nodup]
      exact hf.slots _ (List.getElem_mem ht)
    · rw [hids, toU32_range_nodup]
      exact htot.le
    · rw [hids, kInvalidBlock_mem_range]
      exact Nat.not_le.mpr htot

/-- Two tiers of blocks of 8 bytes. -/
theorem sound_geometry_small : ∃ p, init smallConfig smallSpecs (fun _ _ => 0) = .ok p ∧
    Fits smallConfig smallSpecs ∧ SoundGeometry smallConfig smallSpecs p := by
  have hf : Fits smallConfig smallSpecs := ⟨by decide, by decide, by decide, by decide⟩
  exact ⟨_, rfl, hf, (sound_geometry_iff rfl (by decide)).mpr hf⟩

/-- `2 * num_layers` wraps to 2, so blocks of more than `2 ^ 64` bytes count as 32 bytes. -/
def wrappedConfig : CacheConfig :=
  { numBlocks := 4, numLayers := 2 ^ 63 + 1, numKvHeads := 1, headDim := 1, dtypeBytes := 1 }

/-- A tier of 4096 bytes is accepted for four blocks none of which fits it. -/
theorem wrapped_geometry_accepted : ∃ p,
    init wrappedConfig [⟨some ⟨4096, true⟩, 4⟩] (fun _ _ => 0) = .ok p ∧ p.blockBytes = 32 ∧
      ¬ SoundGeometry wrappedConfig [⟨some ⟨4096, true⟩, 4⟩] p := by
  refine ⟨_, rfl, by decide, fun h => ?_⟩
  have hb := h.blockBytes
  revert hb
  decide

end BlockPool

end KvsLab
