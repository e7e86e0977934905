import Mathlib.Algebra.Group.Nat.Defs
import Mathlib.Algebra.Order.Floor.Div
import Mathlib.Data.List.Basic

/-!
# Identifiers, cache geometry and the block key

Model of `types.hpp` and of the tier descriptors of `tier.hpp` / `block_pool.hpp`.

* `size_t` values are natural numbers; a product of sizes of a configuration is taken modulo
  `2 ^ 64` by `sizeMul`, the sum under `need_blocks` by `needBlocks`, and a cast to a 32-bit slot
  or id is taken modulo `2 ^ 32` by `toU32`.
* `maxSize` — how long a vector can be at all; `Storable` token sequences are the vectors a caller
  can have.
* `Fault` — the ways a call can fail to return: `fatal` (stays in every build), `assert`,
  `std::invalid_argument`, `std::length_error`, a dereference of a node that is gone, and the
  exhaustion of the loop bound of a modelled loop, which the development shows is never reached.
* `blockKey` — FNV-1a over one block of token ids.  The rest of the model takes the key as a
  parameter, so every result holds for any key function, colliding ones included.
-/

namespace KvsLab

abbrev TokenId := Int32

abbrev BlockId := Nat

abbrev TierIndex := Nat

/-- `std::numeric_limits<std::uint32_t>::max()`. -/
def kInvalidBlock : BlockId := 2 ^ 32 - 1

/-- Product in `std::size_t`. -/
def sizeMul (a b : Nat) : Nat := a * b % 2 ^ 64

/-- `(size + bt - 1) / bt`, the sum formed in `std::size_t`. -/
def needBlocks (bt size : Nat) : Nat := (size + bt - 1) % 2 ^ 64 / bt

/-- `max_size()` of a vector whose elements take this many bytes. -/
def maxSize (bytes : Nat) : Nat := (2 ^ 63 - 1) / bytes

/-- `static_cast<std::uint32_t>`. -/
def toU32 (n : Nat) : Nat := n % 2 ^ 32

/-- `--n` in `std::size_t`. -/
def sizePred : Nat → Nat
  | 0 => 2 ^ 64 - 1
  | n + 1 => n

/-- Calls that do not return a value. -/
inductive Fault where
  | fatal (what : String) (id : BlockId)
  | assertion (what : String)
  | invalidArgument (what : String)
  | lengthError
  | danglingNode
  | loopBound
  deriving DecidableEq, Repr

/-- Geometry of a pool. -/
structure CacheConfig where
  numBlocks : Nat := 1024
  blockTokens : Nat := 16
  numLayers : Nat := 32
  numKvHeads : Nat := 8
  headDim : Nat := 128
  dtypeBytes : Nat := 2
  deriving DecidableEq, Repr

namespace CacheConfig

/-- K and V, across all layers, for a single token. -/
def bytesPerToken (c : CacheConfig) : Nat :=
  sizeMul (sizeMul (sizeMul (sizeMul 2 c.numLayers) c.numKvHeads) c.headDim) c.dtypeBytes

def blockBytes (c : CacheConfig) : Nat := sizeMul c.blockTokens c.bytesPerToken

def totalBytes (c : CacheConfig) : Nat := sizeMul c.numBlocks c.blockBytes

end CacheConfig

/-- What the pool reads of a `Tier`: its capacity, and whether `host_data()` is non-null. -/
structure Tier where
  capacityBytes : Nat
  hostAddressable : Bool
  deriving DecidableEq, Repr

/-- `BlockPool::TierSpec`; `tier = none` is the null pointer. -/
structure TierSpec where
  tier : Option Tier
  numBlocks : Nat
  deriving DecidableEq, Repr

/-- A `std::vector<TokenId>`. -/
def Storable (tokens : List TokenId) : Prop := tokens.length ≤ maxSize 4

instance (tokens : List TokenId) : Decidable (Storable tokens) :=
  inferInstanceAs (Decidable (tokens.length ≤ _))

/-- One byte of the FNV-1a round. -/
def fnvByte (h : UInt64) (b : UInt32) : UInt64 :=
  (h ^^^ b.toUInt64) * 1099511628211

/-- The four bytes of one token, least significant first. -/
def fnvToken (h : UInt64) (t : TokenId) : UInt64 :=
  let v := t.toUInt32
  fnvByte (fnvByte (fnvByte (fnvByte h (v &&& 0xff)) ((v >>> 8) &&& 0xff)) ((v >>> 16) &&& 0xff))
    ((v >>> 24) &&& 0xff)

/-- `block_key`. -/
def blockKey (tokens : List TokenId) : UInt64 :=
  tokens.foldl fnvToken 1469598103934665603

/-! ## Sizes -/

variable {bt size size' : Nat} {tokens : List TokenId}

theorem Storable.lt (h : Storable tokens) : tokens.length < 2 ^ 63 :=
  Nat.lt_of_le_of_lt h (by decide)

theorem needBlocks_zero (h : 0 < bt) : needBlocks bt 0 = 0 :=
  Nat.div_eq_of_lt (Nat.lt_of_le_of_lt (Nat.mod_le _ _) (by omega))

theorem needBlocks_eq_ceil (h : size + bt ≤ 2 ^ 64) : needBlocks bt size = size ⌈/⌉ bt := by
  rw [needBlocks, Nat.ceilDiv_eq_add_pred_div, Nat.mod_eq_of_lt (by omega)]

theorem ceilDiv_of_short (h : 0 < size) (hlt : size < bt) : size ⌈/⌉ bt = 1 := by
  rw [Nat.ceilDiv_eq_add_pred_div]
  exact Nat.div_eq_of_lt_le (by omega) (by omega)

/-- The sum wraps only for blocks that are larger than any vector, and no block is asked for. -/
theorem needBlocks_wraps (h : 2 ^ 64 < size + bt) (hs : size < 2 ^ 63) :
    needBlocks bt size = 0 ∧ size < bt := by
  refine ⟨Nat.div_eq_of_lt ?_, by omega⟩
  rcases Nat.lt_or_ge bt (2 ^ 64) with hbt | hbt
  · omega
  · exact Nat.lt_of_lt_of_le (Nat.mod_lt _ (Nat.two_pow_pos 64)) hbt

theorem div_le_ceilDiv : size / bt ≤ size ⌈/⌉ bt :=
  show size ⌊/⌋ bt ≤ size ⌈/⌉ bt from floorDiv_le_ceilDiv

/-- No whole block of the tokens is left out. -/
theorem div_le_needBlocks (hs : size < 2 ^ 63) : size / bt ≤ needBlocks bt size := by
  rcases Nat.lt_or_ge (2 ^ 64) (size + bt) with h | h
  · rw [Nat.div_eq_of_lt (needBlocks_wraps h hs).2]
    exact Nat.zero_le _
  · rw [needBlocks_eq_ceil h]
    exact div_le_ceilDiv

/-- Whole blocks in the number of `need_blocks` never add up to more than the sum it divided. -/
theorem needBlocks_mul_lt : needBlocks bt size * bt < 2 ^ 64 :=
  Nat.lt_of_le_of_lt (Nat.div_mul_le_self _ _) (Nat.mod_lt _ (Nat.two_pow_pos 64))

/-- Where the sum wraps no vector has a whole block. -/
theorem min_needBlocks (hs : size < 2 ^ 63) (hs' : size' < 2 ^ 63) :
    min (size' / bt) (needBlocks bt size) = min (size' / bt) (size ⌈/⌉ bt) := by
  rcases Nat.lt_or_ge (2 ^ 64) (size + bt) with h | h
  · rw [Nat.div_eq_of_lt (by omega : size' < bt), Nat.zero_min, Nat.zero_min]
  · rw [needBlocks_eq_ceil h]

end KvsLab
