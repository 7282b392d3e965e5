import CompSys.Radix

/-!
# The radix tree as a value

The tree that `radix.c` keeps in the heap, without its addresses: one function
for each operation, on levels in place of one-hot bit positions. Counters wrap
here as they do in the program.
-/
namespace CompSys.Radix

/-- `leaf number countZero countOne` at bit position 1, `node level number zero one` at
bit position `2 ^ level`. -/
inductive Tree where
  | nil
  | leaf (number countZero countOne : Word)
  | node (level : Nat) (number : Word) (zero one : Tree)
deriving DecidableEq

/-- The one-hot bit position of a level. -/
def bit (level : Nat) : Word := BitVec.twoPow 32 level

/-- The bits between a level and the level of a node in which a number differs from it. -/
def difference (level nodeLevel : Nat) (number nodeNumber : Word) : Word :=
  if nodeLevel < level then bitRange (bit level) (bit nodeLevel) &&& (number ^^^ nodeNumber) else 0

/-- The most significant bit of `diff` at or below a level. -/
def topBit (diff : Word) : Nat → Nat
  | 0 => 0
  | level + 1 => if diff.getLsbD (level + 1) then level + 1 else topBit diff level

namespace Tree

/-- `create_leaf`. -/
def single (number : Word) : Tree :=
  leaf number (if number &&& 1 = 0 then 1 else 0) (number &&& 1)

/-- The injected node: the new leaf on the side of its bit, the old subtree on the other. -/
def branch (level : Nat) (number : Word) (t : Tree) : Tree :=
  if number.getLsbD level then node level number t (single number)
  else node level number (single number) t

/-- `add_number` from a level on. -/
def add (number : Word) : Nat → Tree → Tree
  | _, nil => single number
  | k, leaf m c₀ c₁ =>
    if difference k 0 number m ≠ 0 then
      branch (topBit (difference k 0 number m) k) number (leaf m c₀ c₁)
    else if number &&& 1 ≠ 0 then leaf m c₀ (c₁ + 1)
    else leaf m (c₀ + 1) c₁
  | k, node l m z o =>
    if difference k l number m ≠ 0 then
      branch (topBit (difference k l number m) k) number (node l m z o)
    else if number.getLsbD l then node l m z (add number (l - 1) o)
    else node l m (add number (l - 1) z) o

/-- What is taken from a leaf into a buffer with room for `n` numbers. -/
def leafTaken (n : Nat) (m c₀ c₁ : Word) : List Word :=
  List.replicate (min n c₀.toNat) (m &&& ~~~1) ++
    List.replicate (min (n - c₀.toNat) c₁.toNat) (m ||| 1)

/-- What is left of a leaf. -/
def leafRest (n : Nat) (m c₀ c₁ : Word) : Tree :=
  let c₀' := c₀ - BitVec.ofNat 32 (min n c₀.toNat)
  let c₁' := c₁ - BitVec.ofNat 32 (min (n - c₀.toNat) c₁.toNat)
  if c₀' = 0 ∧ c₁' = 0 then nil else leaf m c₀' c₁'

/-- `take_numbers_2` with room for `n` numbers: the numbers and the tree that is left. -/
def take : Nat → Tree → List Word × Tree
  | _, nil => ([], nil)
  | n, leaf m c₀ c₁ => (leafTaken n m c₀ c₁, leafRest n m c₀ c₁)
  | n, node l m z o =>
    let (zeros, z') := take n z
    let (ones, o') := take (n - zeros.length) o
    (zeros ++ ones, if z' = nil ∧ o' = nil then nil else node l m z' o')

/-- Levels decrease from the root down and stay below 31. -/
def Bounded : Nat → Tree → Prop
  | _, nil => True
  | _, leaf _ _ _ => True
  | k, node l _ z o => 1 ≤ l ∧ l ≤ k ∧ Bounded (l - 1) z ∧ Bounded (l - 1) o

theorem Bounded.mono {t : Tree} : ∀ {k k' : Nat}, t.Bounded k → k ≤ k' → t.Bounded k' := by
  cases t with
  | nil => intros; trivial
  | leaf m c₀ c₁ => intros; trivial
  | node l m z o =>
      intro k k' h hle
      exact ⟨h.1, Nat.le_trans h.2.1 hle, h.2.2⟩

end Tree

/-! ## One-hot arithmetic -/

theorem bit_toInt (k : Nat) (hk : k ≤ 30) : (bit k).toInt = 2 ^ k := by
  have hall : ∀ k : Fin 31, (bit k).toInt = 2 ^ k.val := by decide
  exact hall ⟨k, by omega⟩

theorem one_lt_bit {k : Nat} (hpos : 0 < k) (hk : k ≤ 30) : 1 < (bit k).toInt := by
  have hall : ∀ k : Fin 31, 0 < k.val → 1 < (bit k).toInt := by decide
  exact hall ⟨k, by omega⟩ hpos

theorem bit_shift (k : Nat) (hk : k + 1 ≤ 30) : (bit (k + 1)).sshiftRight 1 = bit k := by
  have hall : ∀ k : Fin 30, (bit (k + 1)).sshiftRight 1 = bit k := by decide
  exact hall ⟨k, by omega⟩

theorem bit_and_eq_zero (k : Nat) (hk : k < 32) (x : Word) :
    bit k &&& x = 0 ↔ x.getLsbD k = false := by
  constructor
  · intro h
    have hget := congrArg (fun y : Word => y.getLsbD k) h
    simpa [bit, BitVec.getLsbD_twoPow, hk] using hget
  · intro h
    apply BitVec.eq_of_getLsbD_eq
    intro i hi
    by_cases hik : i = k
    · subst hik
      simp [h]
    · simp [bit, BitVec.getLsbD_twoPow, Ne.symm hik]

theorem getLsbD_bitRange (k l i : Nat) (hk : k ≤ 30) (hl : l ≤ 30) (hi : i < 32) :
    (bitRange (bit k) (bit l)).getLsbD i = (decide (l < i) && decide (i ≤ k)) := by
  have hall : ∀ (l : Fin 31) (i : Fin 32),
      (higherBits (bit l)).getLsbD i = decide (l.val < i.val) := by decide +kernel
  have hhigher := hall ⟨l, by omega⟩ ⟨i, hi⟩
  have hlower := hall ⟨k, by omega⟩ ⟨i, hi⟩
  simp only at hhigher hlower
  rw [bitRange, BitVec.getLsbD_and, hhigher, notHigherBits, BitVec.getLsbD_not, hlower]
  by_cases hki : k < i
  · simp [hi, hki, Nat.not_le_of_lt hki]
  · simp [hi, hki, Nat.le_of_not_lt hki]

/-- A difference has only bits above the node's level, up to the current one. -/
theorem getLsbD_difference {k l i : Nat} {x y : Word} (hk : k ≤ 30)
    (h : (difference k l x y).getLsbD i) : l < i ∧ i ≤ k ∧ x.getLsbD i ≠ y.getLsbD i := by
  have hi : i < 32 := BitVec.lt_of_getLsbD h
  unfold difference at h
  split at h
  · rw [BitVec.getLsbD_and, getLsbD_bitRange k l i hk (by omega) hi, BitVec.getLsbD_xor] at h
    simp only [Bool.and_eq_true, decide_eq_true_eq] at h
    refine ⟨h.1.1, h.1.2, ?_⟩
    intro hsame
    rw [hsame, Bool.xor_self] at h
    cases h.2
  · simp at h

theorem difference_eq_zero {k l i : Nat} {x y : Word} (hk : k ≤ 30)
    (h : difference k l x y = 0) (hli : l < i) (hik : i ≤ k) : x.getLsbD i = y.getLsbD i := by
  have hget := congrArg (fun d : Word => d.getLsbD i) h
  rw [difference, if_pos (by omega)] at hget
  simp only [BitVec.getLsbD_and, getLsbD_bitRange k l i hk (by omega) (by omega),
    BitVec.getLsbD_xor] at hget
  simpa [hli, hik] using hget

theorem exists_getLsbD {x : Word} (h : x ≠ 0) : ∃ i, x.getLsbD i := by
  by_contra hnone
  apply h
  apply BitVec.eq_of_getLsbD_eq
  intro i hi
  by_cases hx : x.getLsbD i
  · exact absurd ⟨i, hx⟩ hnone
  · simpa using hx

theorem topBit_set {diff : Word} {k i : Nat} (hi : i ≤ k) (hset : diff.getLsbD i) :
    i ≤ topBit diff k ∧ diff.getLsbD (topBit diff k) := by
  induction k with
  | zero =>
      have hzero : i = 0 := by omega
      subst hzero
      exact ⟨Nat.le_refl 0, hset⟩
  | succ k ih =>
      unfold topBit
      split
      case isTrue htop => exact ⟨hi, htop⟩
      case isFalse htop =>
        have hne : i ≠ k + 1 := by
          intro heq
          exact htop (heq ▸ hset)
        exact ih (by omega)

/-- The inner loop stops at the most significant differing bit. -/
theorem findBit_topBit {diff : Word} (k : Nat) : ∀ fuel, k < fuel → k ≤ 30 →
    (∃ i, i ≤ k ∧ diff.getLsbD i) → findBit diff fuel (bit k) = some (bit (topBit diff k)) := by
  induction k with
  | zero =>
      intro fuel hfuel _ ⟨i, hi, hset⟩
      obtain ⟨fuel, rfl⟩ := Nat.exists_eq_succ_of_ne_zero (Nat.ne_of_gt hfuel)
      have hzero : i = 0 := by omega
      subst hzero
      rw [findBit, if_neg]
      · rfl
      · rw [bit_and_eq_zero 0 (by decide)]
        simp [hset]
  | succ k ih =>
      intro fuel hfuel hk ⟨i, hi, hset⟩
      obtain ⟨fuel, rfl⟩ := Nat.exists_eq_succ_of_ne_zero (Nat.ne_of_gt (Nat.zero_lt_of_lt hfuel))
      rw [findBit, topBit]
      by_cases htop : diff.getLsbD (k + 1)
      · rw [if_neg, if_pos htop]
        rw [bit_and_eq_zero (k + 1) (by omega)]
        simp [htop]
      · have hne : i ≠ k + 1 := by
          intro heq
          exact htop (heq ▸ hset)
        rw [if_pos, if_neg htop, bit_shift k hk]
        · exact ih fuel (by omega) (by omega) ⟨i, by omega, hset⟩
        · rw [bit_and_eq_zero (k + 1) (by omega)]
          simpa using htop

/-- The level of an injected node lies above the node's and not above the current one. -/
theorem topBit_difference {k l : Nat} {x y : Word} (hk : k ≤ 30)
    (h : difference k l x y ≠ 0) :
    l < topBit (difference k l x y) k ∧ topBit (difference k l x y) k ≤ k ∧
      x.getLsbD (topBit (difference k l x y) k) ≠ y.getLsbD (topBit (difference k l x y) k) ∧
      findBit (difference k l x y) 32 (bit k) = some (bit (topBit (difference k l x y) k)) := by
  obtain ⟨i, hset⟩ := exists_getLsbD h
  have hi := getLsbD_difference hk hset
  have htop := topBit_set hi.2.1 hset
  have hdiff := getLsbD_difference hk htop.2
  exact ⟨hdiff.1, hdiff.2.1, hdiff.2.2, findBit_topBit k 32 (by omega) hk ⟨i, hi.2.1, hset⟩⟩

namespace Tree

theorem single_bounded (number : Word) (k : Nat) : (single number).Bounded k := trivial

theorem branch_bounded {t : Tree} {number : Word} {j l k : Nat} (ht : t.Bounded l) (hl : l < j)
    (hj : j ≤ k) : (branch j number t).Bounded k := by
  have hmono : t.Bounded (j - 1) := ht.mono (by omega)
  unfold branch
  split
  · exact ⟨by omega, hj, hmono, single_bounded _ _⟩
  · exact ⟨by omega, hj, single_bounded _ _, hmono⟩

theorem add_bounded (number : Word) (t : Tree) : ∀ k, k ≤ 30 → t.Bounded k →
    (t.add number k).Bounded k := by
  induction t with
  | nil =>
      intro k _ _
      exact single_bounded number k
  | leaf m c₀ c₁ =>
      intro k hk _
      unfold add
      split
      case isTrue hdiff =>
        have htop := topBit_difference hk hdiff
        exact branch_bounded (l := 0) trivial htop.1 htop.2.1
      case isFalse => split <;> trivial
  | node l m z o ihz iho =>
      intro k hk ht
      obtain ⟨hpos, hle, hz, ho⟩ := ht
      unfold add
      split
      case isTrue hdiff =>
        have htop := topBit_difference hk hdiff
        exact branch_bounded (t := node l m z o) ⟨hpos, Nat.le_refl l, hz, ho⟩ htop.1 htop.2.1
      case isFalse =>
        split
        · exact ⟨hpos, hle, hz, iho (l - 1) (by omega) ho⟩
        · exact ⟨hpos, hle, ihz (l - 1) (by omega) hz, ho⟩

theorem take_bounded (t : Tree) : ∀ n k, t.Bounded k → (t.take n).2.Bounded k := by
  induction t with
  | nil =>
      intro n k _
      trivial
  | leaf m c₀ c₁ =>
      intro n k _
      show (leafRest n m c₀ c₁).Bounded k
      simp only [leafRest]
      split <;> trivial
  | node l m z o ihz iho =>
      intro n k ht
      obtain ⟨hpos, hle, hz, ho⟩ := ht
      simp only [take]
      split
      · trivial
      · exact ⟨hpos, hle, ihz _ _ hz, iho _ _ ho⟩

end Tree

end CompSys.Radix
