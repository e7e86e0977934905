import Mathlib.Tactic.LinearCombination
import Mathlib.Tactic.Ring
import KvsLab.Types

/-!
# Keys of blocks that differ in one token

`block_key` is FNV-1a, one round for each of the four bytes of each token: exclusive or with the byte,
then multiplication by the prime `2 ^ 40 + 435`.

* `fnvByte_inj`, `foldl_fnvToken_inj` — a round can be undone, so two states that differ still differ
  after any tokens.
* `rounds_cancel` — the differences the first three bytes make, multiplied along, are undone by the
  fourth only if there are none: modulo `2 ^ 64` the three powers of the prime have no small relation.
* `fnvToken_inj` — so from one state different tokens lead to different states.
* `blockKey_one_token` — **blocks that differ in a single token have different keys.**
-/

namespace KvsLab

/-! ## Undoing a round -/

/-- The inverse of the prime modulo `2 ^ 64`. -/
theorem fnvPrime_inverse : (1099511628211 : UInt64) * 14886173955864302971 = 1 := by decide

theorem fnvPrime_cancel {x y : UInt64} (h : x * 1099511628211 = y * 1099511628211) : x = y := by
  have hx := congrArg (· * (14886173955864302971 : UInt64)) h
  simpa [UInt64.mul_assoc, fnvPrime_inverse] using hx

theorem fnvByte_inj {h k : UInt64} {b : UInt32} (he : fnvByte h b = fnvByte k b) : h = k := by
  have hx : h ^^^ b.toUInt64 = k ^^^ b.toUInt64 := fnvPrime_cancel he
  have hx := congrArg (· ^^^ b.toUInt64) hx
  simpa [UInt64.xor_assoc] using hx

theorem foldl_fnvToken_inj : ∀ (tokens : List TokenId) {h k : UInt64},
    tokens.foldl fnvToken h = tokens.foldl fnvToken k → h = k
  | [], _, _, he => he
  | t :: tokens, h, k, he => by
    have ht := foldl_fnvToken_inj tokens he
    exact fnvByte_inj (fnvByte_inj (fnvByte_inj (fnvByte_inj ht)))

/-! ## Four rounds from one state -/

theorem xor_toNat (h : UInt64) (b : UInt32) :
    (h ^^^ b.toUInt64).toNat = h.toNat ^^^ b.toNat := by
  simp

/-- A byte changes the lowest byte only. -/
theorem xor_byte {h b : Nat} (hb : b < 256) : (h ^^^ b) / 256 = h / 256 := by
  have := Nat.xor_div_two_pow (a := h) (b := b) (n := 8)
  simpa [Nat.div_eq_of_lt hb] using this

/-- What a round makes of a difference. -/
theorem round_diff (x y : UInt64) (b c : UInt32) : ∃ q : Int,
    ((fnvByte x b).toNat : Int) - (fnvByte y c).toNat =
      (((x ^^^ b.toUInt64).toNat : Int) - (y ^^^ c.toUInt64).toNat) * 1099511628211 + q * 2 ^ 64 := by
  have hround : ∀ (x : UInt64) (b : UInt32), ∃ q : Nat,
      (x ^^^ b.toUInt64).toNat * 1099511628211 = (fnvByte x b).toNat + q * 2 ^ 64 := by
    intro x b
    refine ⟨(x ^^^ b.toUInt64).toNat * 1099511628211 / 2 ^ 64, ?_⟩
    have hmod : (fnvByte x b).toNat = (x ^^^ b.toUInt64).toNat * 1099511628211 % 2 ^ 64 := by
      unfold fnvByte
      rw [UInt64.toNat_mul]
      rfl
    omega
  obtain ⟨q, hq⟩ := hround x b
  obtain ⟨r, hr⟩ := hround y c
  exact ⟨(r : Int) - q, by omega⟩

theorem xor_cancel {x : UInt64} {b c : UInt32}
    (h : (x ^^^ b.toUInt64).toNat = (x ^^^ c.toUInt64).toNat) : b = c := by
  have h := congrArg (x ^^^ ·) (UInt64.toNat_inj.mp h)
  simp only [← UInt64.xor_assoc, UInt64.xor_self, UInt64.zero_xor] at h
  have h := congrArg UInt64.toNat h
  simp only [UInt32.toNat_toUInt64] at h
  exact UInt32.toNat_inj.mp h

/-- Three rounds on differences, in base `2 ^ 40`, where the prime is `1 * 2 ^ 40 + 435`. -/
theorem rounds_split {c e f d q : Int}
    (h : ((c * 1099511628211 + e) * 1099511628211 + f) * 1099511628211 = d + q * 2 ^ 64) :
    ∃ r : Int, (567675 * c + 870 * e + f) * 2 ^ 40 +
      (82312875 * c + 189225 * e + 435 * f - d) = r * 2 ^ 64 :=
  ⟨q - (c * (2 ^ 56 + 1305 * 2 ^ 16) + e * 2 ^ 16), by linear_combination h⟩

/-- Small differences times powers of the prime do not cancel modulo `2 ^ 64`. -/
theorem rounds_cancel {c e f d q : Int} (hc : -255 ≤ c ∧ c ≤ 255) (he : -510 ≤ e ∧ e ≤ 510)
    (hf : -510 ≤ f ∧ f ≤ 510) (hd : -255 ≤ d ∧ d ≤ 255)
    (h : ((c * 1099511628211 + e) * 1099511628211 + f) * 1099511628211 = d + q * 2 ^ 64) :
    c = 0 ∧ e = 0 ∧ f = 0 := by
  obtain ⟨r, hr⟩ := rounds_split h
  clear h
  -- the low digit is too small to carry
  have hlow : 82312875 * c + 189225 * e + 435 * f - d = 0 := by omega
  have hhigh : 567675 * c + 870 * e + f = r * 2 ^ 24 := by omega
  clear hr
  -- `435` divides `d`
  have hd0 : d = 0 := by omega
  obtain ⟨k, hk⟩ : ∃ k, k = -(435 * c + e) := ⟨_, rfl⟩
  have hfk : f = 435 * k := by omega
  have hk1 : -1 ≤ k ∧ k ≤ 1 := by omega
  have hc1 : -1 ≤ c ∧ c ≤ 1 := by omega
  -- the high digit is `435 * (435 * c - k)`, too small a multiple of `2 ^ 24`
  have hr0 : r = 0 := by omega
  omega

/-- From one state, different bytes lead to different states. -/
theorem fnvByte_four {h : UInt64} {b₀ b₁ b₂ b₃ c₀ c₁ c₂ c₃ : UInt32}
    (hb₀ : b₀.toNat < 256) (hb₁ : b₁.toNat < 256) (hb₂ : b₂.toNat < 256) (hb₃ : b₃.toNat < 256)
    (hc₀ : c₀.toNat < 256) (hc₁ : c₁.toNat < 256) (hc₂ : c₂.toNat < 256) (hc₃ : c₃.toNat < 256)
    (he : fnvByte (fnvByte (fnvByte (fnvByte h b₀) b₁) b₂) b₃ =
      fnvByte (fnvByte (fnvByte (fnvByte h c₀) c₁) c₂) c₃) :
    b₀ = c₀ ∧ b₁ = c₁ ∧ b₂ = c₂ ∧ b₃ = c₃ := by
  have hsmall : ∀ {x : UInt64} {b : UInt32}, b.toNat < 256 →
      (x ^^^ b.toUInt64).toNat / 256 = x.toNat / 256 := fun hb => by
    rw [xor_toNat, xor_byte hb]
  obtain ⟨q₁, h₁⟩ := round_diff h h b₀ c₀
  obtain ⟨q₂, h₂⟩ := round_diff (fnvByte h b₀) (fnvByte h c₀) b₁ c₁
  obtain ⟨q₃, h₃⟩ := round_diff (fnvByte (fnvByte h b₀) b₁) (fnvByte (fnvByte h c₀) c₁) b₂ c₂
  have h₄ := fnvPrime_cancel he
  have hs₀ := hsmall (x := h) hb₀
  have ht₀ := hsmall (x := h) hc₀
  have hs₁ := hsmall (x := fnvByte h b₀) hb₁
  have ht₁ := hsmall (x := fnvByte h c₀) hc₁
  have hs₂ := hsmall (x := fnvByte (fnvByte h b₀) b₁) hb₂
  have ht₂ := hsmall (x := fnvByte (fnvByte h c₀) c₁) hc₂
  have hs₃ := hsmall (x := fnvByte (fnvByte (fnvByte h b₀) b₁) b₂) hb₃
  have ht₃ := hsmall (x := fnvByte (fnvByte (fnvByte h c₀) c₁) c₂) hc₃
  rw [h₄] at hs₃
  -- what the bytes add to the differences that come in, and the difference the last byte undoes
  obtain ⟨hc, he, hf⟩ := rounds_cancel
    (c := ((h ^^^ b₀.toUInt64).toNat : Int) - (h ^^^ c₀.toUInt64).toNat)
    (e := ((fnvByte h b₀ ^^^ b₁.toUInt64).toNat : Int) - (fnvByte h c₀ ^^^ c₁.toUInt64).toNat -
      ((fnvByte h b₀).toNat - (fnvByte h c₀).toNat))
    (f := ((fnvByte (fnvByte h b₀) b₁ ^^^ b₂.toUInt64).toNat : Int) -
      (fnvByte (fnvByte h c₀) c₁ ^^^ c₂.toUInt64).toNat -
      ((fnvByte (fnvByte h b₀) b₁).toNat - (fnvByte (fnvByte h c₀) c₁).toNat))
    (d := ((fnvByte (fnvByte (fnvByte h b₀) b₁) b₂).toNat : Int) -
      (fnvByte (fnvByte (fnvByte h c₀) c₁) c₂).toNat)
    (q := -(q₁ * 1099511628211 ^ 2 + q₂ * 1099511628211 + q₃))
    (by omega) (by omega) (by omega) (by omega)
    (by linear_combination -h₃ - 1099511628211 * h₂ - 1099511628211 ^ 2 * h₁)
  -- no differences, so the bytes are equal one after the other
  obtain rfl : b₀ = c₀ := xor_cancel (x := h) (by omega)
  obtain rfl : b₁ = c₁ := xor_cancel (x := fnvByte h b₀) (by omega)
  obtain rfl : b₂ = c₂ := xor_cancel (x := fnvByte (fnvByte h b₀) b₁) (by omega)
  exact ⟨rfl, rfl, rfl, xor_cancel (congrArg UInt64.toNat h₄)⟩

/-! ## Tokens and blocks -/

theorem and_byte (n : Nat) : n &&& 255 = n % 256 := Nat.and_two_pow_sub_one_eq_mod n 8

/-- A token is its four bytes. -/
theorem bytes_inj {v w : UInt32} (h₀ : (v &&& 0xff : UInt32) = w &&& 0xff)
    (h₁ : ((v >>> 8) &&& 0xff : UInt32) = (w >>> 8) &&& 0xff)
    (h₂ : ((v >>> 16) &&& 0xff : UInt32) = (w >>> 16) &&& 0xff)
    (h₃ : ((v >>> 24) &&& 0xff : UInt32) = (w >>> 24) &&& 0xff) : v = w := by
  have h₀ := congrArg UInt32.toNat h₀
  have h₁ := congrArg UInt32.toNat h₁
  have h₂ := congrArg UInt32.toNat h₂
  have h₃ := congrArg UInt32.toNat h₃
  simp [and_byte, Nat.shiftRight_eq_div_pow] at h₀ h₁ h₂ h₃
  have hv := v.toNat_lt
  have hw := w.toNat_lt
  exact UInt32.toNat_inj.mp (by omega)

theorem byte_lt (v : UInt32) : (v &&& 0xff).toNat < 256 := by
  simp only [UInt32.toNat_and]
  exact (and_byte _).symm ▸ Nat.mod_lt _ (by decide)

/-- **From one state, different tokens lead to different states.** -/
theorem fnvToken_inj {h : UInt64} {t t' : TokenId} (he : fnvToken h t = fnvToken h t') : t = t' := by
  obtain ⟨h₀, h₁, h₂, h₃⟩ := fnvByte_four (byte_lt _) (byte_lt _) (byte_lt _) (byte_lt _)
    (byte_lt _) (byte_lt _) (byte_lt _) (byte_lt _) he
  have hv := bytes_inj h₀ h₁ h₂ h₃
  have hv := congrArg UInt32.toInt32 hv
  simpa using hv

/-- **Blocks that differ in a single token have different keys.** -/
theorem blockKey_one_token (u w : List TokenId) {t t' : TokenId} (hne : t ≠ t') :
    blockKey (u ++ t :: w) ≠ blockKey (u ++ t' :: w) := by
  intro he
  unfold blockKey at he
  rw [List.foldl_append, List.foldl_append, List.foldl_cons, List.foldl_cons] at he
  exact hne (fnvToken_inj (foldl_fnvToken_inj w he))

theorem blockKey_one_token_third : blockKey [1, 2, 3, 4] ≠ blockKey [1, 2, -3, 4] :=
  blockKey_one_token [1, 2] [4] (by decide)

/-- With one token in a block keys never collide. -/
theorem blockKey_single {X X' : List TokenId} (hX : X.length = 1) (hX' : X'.length = 1)
    (he : blockKey X = blockKey X') : X = X' := by
  obtain ⟨t, rfl⟩ := List.length_eq_one_iff.mp hX
  obtain ⟨t', rfl⟩ := List.length_eq_one_iff.mp hX'
  rw [fnvToken_inj (h := 1469598103934665603) he]

end KvsLab
