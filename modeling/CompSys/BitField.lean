import Mathlib.Data.Nat.Bitwise

/-!
# Bit fields of machine words

Reading a field of `k` bits at position `s` by a shift and a mask, and replacing
it by two masks, a shift and an or: the forms C code uses, for every width.
-/
namespace CompSys

/-- The word of a 32-bit machine; an int is a word read by its signed value. -/
abbrev Word := BitVec 32

namespace BitField

variable {w : Nat}

/-- The `k` lowest bits set. -/
def mask (w k : Nat) : BitVec w := BitVec.ofNat w (2 ^ k - 1)

@[simp] theorem getLsbD_mask (w k i : Nat) :
    (mask w k).getLsbD i = (decide (i < w) && decide (i < k)) := by
  simp [mask, BitVec.getLsbD_ofNat, Nat.testBit_two_pow_sub_one]

/-- An arithmetic shift and a mask read a field that lies inside the word. -/
theorem sshiftRight_and_mask (x : BitVec w) (s k : Nat) (h : s + k ≤ w) :
    x.sshiftRight s &&& mask w k = (x.extractLsb' s k).setWidth w := by
  apply BitVec.eq_of_getLsbD_eq
  intro i hi
  simp only [BitVec.getLsbD_and, BitVec.getLsbD_sshiftRight, getLsbD_mask,
    BitVec.getLsbD_setWidth, BitVec.getLsbD_extractLsb', hi, decide_true, Bool.true_and]
  by_cases hk : i < k
  · have hfield : s + i < w := by omega
    simp [hk, hfield, Nat.not_le_of_lt hi]
  · simp [hk]

/-- The low field needs no shift. -/
theorem and_mask (x : BitVec w) (k : Nat) (h : k ≤ w) :
    x &&& mask w k = (x.extractLsb' 0 k).setWidth w := by
  have hshift := sshiftRight_and_mask x 0 k (by omega)
  rwa [BitVec.sshiftRight_zero] at hshift

/-- The field of `k` bits at `s` replaced by the low bits of `d`. -/
def replace (x : BitVec w) (s k : Nat) (d : BitVec w) : BitVec w :=
  (x &&& ~~~(mask w k <<< s)) ||| ((d &&& mask w k) <<< s)

theorem getLsbD_replace (x d : BitVec w) (s k i : Nat) (hi : i < w) :
    (replace x s k d).getLsbD i = if s ≤ i ∧ i < s + k then d.getLsbD (i - s) else x.getLsbD i := by
  simp only [replace, BitVec.getLsbD_or, BitVec.getLsbD_and, BitVec.getLsbD_not,
    BitVec.getLsbD_shiftLeft, getLsbD_mask, hi, decide_true, Bool.true_and]
  by_cases hs : s ≤ i
  · by_cases hk : i < s + k
    · have hfield : i - s < k := by omega
      have hword : i - s < w := by omega
      simp [hs, hk, hfield, hword, Nat.not_lt_of_le hs]
    · have hfield : ¬i - s < k := by omega
      simp [hs, hk, hfield]
  · simp [hs, Nat.lt_of_not_le hs]

/-- The topmost field is replaced without masking the new value. -/
theorem replace_top (x d : BitVec w) (s k : Nat) (h : s + k = w) :
    (x &&& mask w s) ||| (d <<< s) = replace x s k d := by
  apply BitVec.eq_of_getLsbD_eq
  intro i hi
  rw [getLsbD_replace _ _ _ _ _ hi]
  simp only [BitVec.getLsbD_or, BitVec.getLsbD_and, BitVec.getLsbD_shiftLeft, getLsbD_mask, hi,
    decide_true, Bool.true_and]
  by_cases hs : s ≤ i
  · have hfield : i < s + k := by omega
    simp [hs, hfield, Nat.not_lt_of_le hs]
  · simp [hs, Nat.lt_of_not_le hs]

/-- The whole word is one field. -/
theorem replace_whole (x d : BitVec w) : replace x 0 w d = d := by
  apply BitVec.eq_of_getLsbD_eq
  intro i hi
  rw [getLsbD_replace _ _ _ _ _ hi, if_pos (by omega), Nat.sub_zero]

/-- Replacing a field changes nothing exactly when it holds the new value already. -/
theorem replace_eq_self_iff (x d : BitVec w) (s k : Nat) (h : s + k ≤ w) :
    replace x s k d = x ↔ d.extractLsb' 0 k = x.extractLsb' s k := by
  constructor
  · intro heq
    apply BitVec.eq_of_getLsbD_eq
    intro i hi
    have hbit := getLsbD_replace x d s k (s + i) (by omega)
    rw [heq, if_pos (by omega), Nat.add_sub_cancel_left] at hbit
    simp [hi, hbit]
  · intro heq
    apply BitVec.eq_of_getLsbD_eq
    intro i hi
    rw [getLsbD_replace _ _ _ _ _ hi]
    split
    case isTrue hin =>
      have hlt : i - s < k := by omega
      have hback : s + (i - s) = i := by omega
      have hbit := congrArg (fun f : BitVec k => f.getLsbD (i - s)) heq
      simpa [hlt, hback] using hbit
    case isFalse => rfl

/-- A field of a field. -/
theorem extract_extract (x : BitVec w) (s k s' k' : Nat) (h : s' + k' ≤ k) :
    (x.extractLsb' s k).extractLsb' s' k' = x.extractLsb' (s + s') k' := by
  apply BitVec.eq_of_getLsbD_eq
  intro i hi
  rw [BitVec.getLsbD_extractLsb', BitVec.getLsbD_extractLsb', BitVec.getLsbD_extractLsb',
    Nat.add_assoc]
  have hinner : s' + i < k := by omega
  simp [hinner]

/-- Extending a word keeps its fields. -/
theorem extract_signExtend (x : BitVec w) {v : Nat} (s k : Nat) (h : s + k ≤ w) (hv : w ≤ v) :
    (x.signExtend v).extractLsb' s k = x.extractLsb' s k := by
  apply BitVec.eq_of_getLsbD_eq
  intro i hi
  have hw : s + i < w := by omega
  have hlt : s + i < v := by omega
  rw [BitVec.getLsbD_extractLsb', BitVec.getLsbD_extractLsb', BitVec.getLsbD_signExtend, if_pos hw,
    decide_eq_true hlt, Bool.true_and]

/-- Padding with zeros and extending the sign agree on nonnegative numbers only. -/
theorem setWidth_eq_signExtend_iff (x y : BitVec w) {v : Nat} (h : w < v) :
    x.setWidth v = y.signExtend v ↔ x = y ∧ y.msb = false := by
  constructor
  · intro heq
    have hsign := congrArg (fun z : BitVec v => z.getLsbD w) heq
    have hmsb : y.msb = false := by
      simp only [BitVec.getLsbD_setWidth, BitVec.getLsbD_signExtend, h, decide_true,
        Bool.true_and, Nat.lt_irrefl, if_false, BitVec.getLsbD_of_ge x w le_rfl] at hsign
      exact hsign.symm
    refine ⟨?_, hmsb⟩
    apply BitVec.eq_of_getLsbD_eq
    intro i hi
    have hbit := congrArg (fun z : BitVec v => z.getLsbD i) heq
    have hlt : i < v := by omega
    simpa only [BitVec.getLsbD_setWidth, BitVec.getLsbD_signExtend, hlt, hi, decide_true,
      Bool.true_and, if_true] using hbit
  · rintro ⟨rfl, hmsb⟩
    rw [BitVec.signExtend_eq_setWidth_of_msb_false hmsb]

/-- A word in two parts. -/
theorem append_eq_iff {v : Nat} (x : BitVec w) (y : BitVec v) (d : BitVec (w + v)) :
    x ++ y = d ↔ x = d.extractLsb' v w ∧ y = d.extractLsb' 0 v := by
  constructor
  · rintro rfl
    exact ⟨BitVec.extractLsb'_append_eq_left.symm, BitVec.extractLsb'_append_eq_right.symm⟩
  · rintro ⟨rfl, rfl⟩
    exact BitVec.extractLsb'_append_extractLsb'

/-- Clearing some bits of a word subtracts them. -/
theorem clear_add (x y : BitVec w) : (x &&& ~~~(x &&& y)) + (x &&& y) = x := by
  have hdisjoint : (x &&& ~~~(x &&& y)) &&& (x &&& y) = 0#w := by
    apply BitVec.eq_of_getLsbD_eq
    intro i hi
    simp only [BitVec.getLsbD_and, BitVec.getLsbD_not, BitVec.getLsbD_zero]
    cases x.getLsbD i <;> cases y.getLsbD i <;> simp
  rw [BitVec.add_eq_or_of_and_eq_zero _ _ hdisjoint]
  apply BitVec.eq_of_getLsbD_eq
  intro i hi
  simp only [BitVec.getLsbD_or, BitVec.getLsbD_and, BitVec.getLsbD_not]
  cases x.getLsbD i <;> cases y.getLsbD i <;> simp [hi]

end BitField

end CompSys
