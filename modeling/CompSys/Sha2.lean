import CompSys.BigEndian
import CompSys.BlockAbsorb
import Mathlib.Analysis.SpecialFunctions.Pow.Real
import Mathlib.Data.BitVec

/-!
# SHA-256

The hash function as the standard describes it: the rounds on eight words, the words that a
block is extended to, the padding, and the constants as what they are, fractional parts of
roots of primes.
-/
namespace CompSys.Sha2

/-- The eight words of a hash value, and of a round. -/
structure Vars where
  (a b c d e f g h : BitVec 32)
  deriving DecidableEq

/-! ## Functions of words -/

def ch (x y z : BitVec 32) : BitVec 32 := (x &&& y) ^^^ (~~~x &&& z)

def maj (x y z : BitVec 32) : BitVec 32 := (x &&& y) ^^^ (x &&& z) ^^^ (y &&& z)

def upperSigma0 (x : BitVec 32) : BitVec 32 :=
  x.rotateRight 2 ^^^ x.rotateRight 13 ^^^ x.rotateRight 22

def upperSigma1 (x : BitVec 32) : BitVec 32 :=
  x.rotateRight 6 ^^^ x.rotateRight 11 ^^^ x.rotateRight 25

def lowerSigma0 (x : BitVec 32) : BitVec 32 := x.rotateRight 7 ^^^ x.rotateRight 18 ^^^ x >>> 3

def lowerSigma1 (x : BitVec 32) : BitVec 32 := x.rotateRight 17 ^^^ x.rotateRight 19 ^^^ x >>> 10

/-! ## Constants -/

/-- The first 32 bits of the fractional part of the `n`-th root of `p`. -/
noncomputable def rootBits (n p : ℕ) : BitVec 32 :=
  BitVec.ofNat 32 ⌊(p : ℝ) ^ (n : ℝ)⁻¹ * 2 ^ 32⌋₊

/-- The first 64 primes. -/
def primes : List ℕ := (List.range 312).filter fun p => Nat.Prime p

noncomputable def constants : List (BitVec 32) := primes.map (rootBits 3)

noncomputable def initial : Vars where
  a := rootBits 2 2
  b := rootBits 2 3
  c := rootBits 2 5
  d := rootBits 2 7
  e := rootBits 2 11
  f := rootBits 2 13
  g := rootBits 2 17
  h := rootBits 2 19

/-- A root is found by comparing powers of whole numbers. -/
theorem rootBits_eq {n p c : ℕ} (hn : n ≠ 0) (hle : c ^ n ≤ p * (2 ^ 32) ^ n)
    (hlt : p * (2 ^ 32) ^ n < (c + 1) ^ n) : rootBits n p = BitVec.ofNat 32 c := by
  have hroot : ((p : ℝ) ^ (n : ℝ)⁻¹ * 2 ^ 32) ^ n = ((p * (2 ^ 32) ^ n : ℕ) : ℝ) := by
    rw [mul_pow, Real.rpow_inv_natCast_pow (Nat.cast_nonneg p) hn]
    push_cast
    norm_num
  have hnonneg : 0 ≤ (p : ℝ) ^ (n : ℝ)⁻¹ * 2 ^ 32 := by positivity
  have hfloor : ⌊(p : ℝ) ^ (n : ℝ)⁻¹ * 2 ^ 32⌋₊ = c := by
    rw [Nat.floor_eq_iff hnonneg]
    constructor
    · refine le_of_pow_le_pow_left₀ hn hnonneg ?_
      rw [hroot]
      exact_mod_cast hle
    · refine lt_of_pow_lt_pow_left₀ n (by positivity) ?_
      rw [hroot]
      exact_mod_cast hlt
  rw [rootBits, hfloor]

/-- A table entry is a root bit string if some whole part completes it to the root. -/
def IsRoot (n p : ℕ) (k : BitVec 32) : Prop :=
  ∃ whole < 8, (whole * 2 ^ 32 + k.toNat) ^ n ≤ p * (2 ^ 32) ^ n ∧
    p * (2 ^ 32) ^ n < (whole * 2 ^ 32 + k.toNat + 1) ^ n

instance (n p : ℕ) (k : BitVec 32) : Decidable (IsRoot n p k) :=
  inferInstanceAs (Decidable (∃ whole < 8, _ ∧ _))

theorem IsRoot.rootBits {n p : ℕ} {k : BitVec 32} (h : IsRoot n p k) (hn : n ≠ 0) :
    Sha2.rootBits n p = k := by
  obtain ⟨whole, -, hle, hlt⟩ := h
  rw [rootBits_eq hn hle hlt]
  apply BitVec.eq_of_toNat_eq
  have hlt := k.isLt
  rw [BitVec.toNat_ofNat]
  omega

/-! ## Blocks -/

/-- The `t`-th word of a block, its first byte the most significant one. -/
def word (block : List UInt8) (t : ℕ) : BitVec 32 :=
  BitVec.ofNat 32 (BigEndian.decode ((block.drop (4 * t)).take 4))

/-- The words that the rounds work on. -/
def schedule (block : List UInt8) (t : ℕ) : BitVec 32 :=
  if t < 16 then word block t
  else
    lowerSigma1 (schedule block (t - 2)) + schedule block (t - 7) +
      lowerSigma0 (schedule block (t - 15)) + schedule block (t - 16)

def round (v : Vars) (k w : BitVec 32) : Vars :=
  let t₁ := v.h + upperSigma1 v.e + ch v.e v.f v.g + k + w
  let t₂ := upperSigma0 v.a + maj v.a v.b v.c
  ⟨t₁ + t₂, v.a, v.b, v.c, v.d + t₁, v.e, v.f, v.g⟩

def Vars.add (v w : Vars) : Vars :=
  ⟨v.a + w.a, v.b + w.b, v.c + w.c, v.d + w.d, v.e + w.e, v.f + w.f, v.g + w.g, v.h + w.h⟩

noncomputable def compress (hash : Vars) (block : List UInt8) : Vars :=
  hash.add <| (constants.zip ((List.range 64).map (schedule block))).foldl
    (fun v kw => round v kw.1 kw.2) hash

/-! ## Messages -/

/-- The fewest zeros that fill up the last block. -/
def zeros (length : ℕ) : ℕ := (119 - length % 64) % 64

/-- A set bit, zeros, and the length in bits. -/
def pad (message : List UInt8) : List UInt8 :=
  message ++ 0x80 :: List.replicate (zeros message.length) 0 ++
    BigEndian.encode 8 (8 * message.length)

def Vars.bytes (v : Vars) : List UInt8 :=
  [v.a, v.b, v.c, v.d, v.e, v.f, v.g, v.h].flatMap fun w => BigEndian.encode 4 w.toNat

noncomputable def digest (message : List UInt8) : List UInt8 :=
  (BlockAbsorb.absorb compress 64 initial (pad message)).1.bytes

theorem length_digest (message : List UInt8) : (digest message).length = 32 := by
  simp [digest, Vars.bytes]

end CompSys.Sha2
