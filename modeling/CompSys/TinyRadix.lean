import CompSys.HeapCopies
import CompSys.RadixSorted
import Mathlib.Tactic.Ring

/-!
# The radix sorter of A5

`tiny_riscv/radix.c` on the memory of its own copy of the allocator. Every number has a path
of one node for each bit, and the numbers are printed from the paths. A node has its bit
position at offset 0 and the union of counters and subtrees at 4 and 8.
-/
namespace CompSys.TinyRadix

open Heap (NULL)
open Radix (TREE heapStart bit)

/-! ## The program -/

/-- `sizeof(struct node)`. -/
def nodeSize : Word := 12

def MAX_BITS : Nat := 30

/-- `if (nptr == NULL)`: the node is linked to its parent before its fields are set. -/
def createNode (h : Heap) (parent : Int) (bitPos : Nat) : Option (Int × Heap) := do
  let (nptr, h) ← TinyRiscv.allocate h nodeSize
  let h := h.store parent nptr
  let h := h.storeInt nptr (BitVec.ofNat 32 bitPos)
  let h := h.store (nptr + 4) NULL
  let h := h.store (nptr + 8) NULL
  return (nptr, h)

/-- The node at `parent`, a new one if there is none. -/
def getNode (h : Heap) (parent : Int) (bitPos : Nat) : Option (Int × Heap) :=
  let nptr := h.mem parent
  if nptr = NULL then createNode h parent bitPos else some (nptr, h)

/-- The loop from a bit position down to 0. -/
def addLoop (number : Word) : Nat → Heap → Int → Option Heap
  | 0, h, parent => do
    let (nptr, h) ← getNode h parent 0
    let count := if number &&& 1 ≠ 0 then nptr + 8 else nptr + 4
    return h.storeInt count (h.loadInt count + 1)
  | bitPos + 1, h, parent => do
    let (nptr, h) ← getNode h parent (bitPos + 1)
    let parent := if (1#32 <<< (bitPos + 1)) &&& number ≠ 0 then nptr + 8 else nptr + 4
    addLoop number bitPos h parent

def addNumber (h : Heap) (number : Word) : Option Heap := addLoop number MAX_BITS h TREE

/-- `for (int n = 0; n < count; ++n)`: the counter is compared as an int. -/
def printCount (count value : Word) : List Word := List.replicate count.toInt.toNat value

/-- The values that are printed, as they are given to `uns_to_str`. The fuel bounds the depth
of the tree. -/
def printNumbers2 (h : Heap) : Nat → Int → Word → Option (List Word)
  | 0, _, _ => none
  | fuel + 1, nptr, higherBits =>
    if nptr = NULL then some []
    else if h.loadInt nptr = 0 then
      some (printCount (h.loadInt (nptr + 4)) (higherBits <<< 1) ++
        printCount (h.loadInt (nptr + 8)) ((higherBits <<< 1) ||| 1))
    else do
      let zeros ← printNumbers2 h fuel (h.mem (nptr + 4)) (higherBits <<< 1)
      let ones ← printNumbers2 h fuel (h.mem (nptr + 8)) ((higherBits <<< 1) ||| 1)
      return zeros ++ ones

def printNumbers (h : Heap) : Option (List Word) := printNumbers2 h 32 (h.mem TREE) 0

/-- The program before its first call. -/
def start (h : Heap) : Heap := (h.store TREE NULL).initHeap heapStart

/-! ## The tree as a value -/

inductive Trie where
  | nil
  | leaf (countZero countOne : Word)
  | node (zero one : Trie)
deriving DecidableEq

/-- The path so far with a bit of the number added. -/
def extend (higherBits : Word) (one : Bool) : Word :=
  if one then (higherBits <<< 1) ||| 1 else higherBits <<< 1

namespace Trie

def count (number c₀ c₁ : Word) : Trie :=
  if number.getLsbD 0 then leaf c₀ (c₁ + 1) else leaf (c₀ + 1) c₁

/-- `add_number` from a bit position on. -/
def add (number : Word) : Nat → Trie → Trie
  | 0, leaf c₀ c₁ => count number c₀ c₁
  | 0, _ => count number 0 0
  | b + 1, node z o => if number.getLsbD (b + 1) then node z (add number b o) else node (add number b z) o
  | b + 1, _ => if number.getLsbD (b + 1) then node nil (add number b nil) else node (add number b nil) nil

def printed : Trie → Word → List Word
  | nil, _ => []
  | leaf c₀ c₁, higherBits => printCount c₀ (extend higherBits false) ++ printCount c₁ (extend higherBits true)
  | node z o, higherBits => z.printed (extend higherBits false) ++ o.printed (extend higherBits true)

/-- Leaves at bit position 0 only, and counters that are no negative ints. -/
def Valid : Nat → Trie → Prop
  | _, nil => True
  | 0, leaf c₀ c₁ => 0 ≤ c₀.toInt ∧ 0 ≤ c₁.toInt
  | b + 1, node z o => Valid b z ∧ Valid b o
  | _, _ => False

theorem valid_nil (b : Nat) : nil.Valid b := by
  cases b <;> trivial

/-! ### Values from paths -/

/-- What is printed for a number in a leaf that it reaches from a bit position on. -/
def value (number : Word) : Nat → Word → Word
  | 0, higherBits => extend higherBits (number.getLsbD 0)
  | b + 1, higherBits => value number b (extend higherBits (number.getLsbD (b + 1)))

theorem getLsbD_extend (higherBits : Word) (one : Bool) (i : Nat) :
    (extend higherBits one).getLsbD i =
      if i = 0 then one else decide (i < 32) && higherBits.getLsbD (i - 1) := by
  cases i with
  | zero => cases one <;> simp [extend]
  | succ i => cases one <;> simp [extend]

theorem getLsbD_value (number : Word) (b : Nat) : ∀ (higherBits : Word) (i : Nat), i < 32 →
    (value number b higherBits).getLsbD i =
      if i ≤ b then number.getLsbD i else higherBits.getLsbD (i - (b + 1)) := by
  induction b with
  | zero =>
      intro higherBits i hi
      rw [value, getLsbD_extend]
      by_cases hzero : i = 0
      · simp [hzero]
      · simp [hzero, hi]
  | succ b ih =>
      intro higherBits i hi
      rw [value, ih _ i hi, getLsbD_extend]
      by_cases hle : i ≤ b
      · rw [if_pos hle, if_pos (by omega)]
      · rw [if_neg hle]
        by_cases heq : i = b + 1
        · simp [heq]
        · rw [if_neg (by omega), if_neg (by omega), show i - (b + 1) - 1 = i - (b + 1 + 1) by omega]
          simp
          omega

/-- A number that is not negative is printed as itself. -/
theorem value_eq {number : Word} (h : number.getLsbD 31 = false) : value number MAX_BITS 0 = number := by
  apply BitVec.eq_of_getLsbD_eq
  intro i hi
  rw [getLsbD_value number MAX_BITS 0 i hi]
  by_cases hle : i ≤ MAX_BITS
  · rw [if_pos hle]
  · have hlast : i = 31 := by
      have hmax : MAX_BITS = 30 := rfl
      omega
    rw [if_neg hle, hlast, h]
    simp

/-! ### Adding -/

theorem succ_toInt {c : Word} (h : 0 ≤ c.toInt) (hc : c.toInt.toNat + 1 < 2 ^ 31) :
    (c + 1).toInt = c.toInt + 1 := by
  have hone : (1 : Word).toInt = 1 := rfl
  rw [BitVec.toInt_add, hone]
  exact Int.bmod_eq_of_le (by omega) (by omega)

theorem printCount_succ {c : Word} (value : Word) (h : 0 ≤ c.toInt)
    (hc : c.toInt.toNat + 1 < 2 ^ 31) :
    printCount (c + 1) value = value :: printCount c value := by
  have hsucc : (c.toInt + 1).toNat = c.toInt.toNat + 1 := by omega
  rw [printCount, succ_toInt h hc, hsucc, List.replicate_succ, printCount]

theorem count_valid {number c₀ c₁ : Word} (h₀ : 0 ≤ c₀.toInt) (h₁ : 0 ≤ c₁.toInt)
    (hc₀ : c₀.toInt.toNat + 1 < 2 ^ 31 ∨ number.getLsbD 0 = true)
    (hc₁ : c₁.toInt.toNat + 1 < 2 ^ 31 ∨ number.getLsbD 0 = false) :
    (count number c₀ c₁).Valid 0 := by
  unfold count
  cases hbit : number.getLsbD 0 with
  | false =>
      have hsucc := succ_toInt h₀ (hc₀.resolve_right (by rw [hbit]; decide))
      exact ⟨by rw [hsucc]; omega, h₁⟩
  | true =>
      have hsucc := succ_toInt h₁ (hc₁.resolve_right (by rw [hbit]; decide))
      exact ⟨h₀, by rw [hsucc]; omega⟩

theorem count_printed {number c₀ c₁ : Word} (higherBits : Word) (h₀ : 0 ≤ c₀.toInt)
    (h₁ : 0 ≤ c₁.toInt) (hc₀ : c₀.toInt.toNat + 1 < 2 ^ 31 ∨ number.getLsbD 0 = true)
    (hc₁ : c₁.toInt.toNat + 1 < 2 ^ 31 ∨ number.getLsbD 0 = false) :
    ((count number c₀ c₁).printed higherBits).Perm
      (value number 0 higherBits :: (leaf c₀ c₁).printed higherBits) := by
  unfold count value
  cases hbit : number.getLsbD 0 with
  | false =>
      rw [if_neg (by decide), printed, printCount_succ _ h₀ (hc₀.resolve_right (by rw [hbit]; decide))]
      exact List.Perm.refl _
  | true =>
      rw [if_pos rfl, printed, printCount_succ _ h₁ (hc₁.resolve_right (by rw [hbit]; decide))]
      exact List.perm_middle

/-- Room in the counter of a number, said of what is printed. -/
theorem leaf_room {number c₀ c₁ higherBits : Word}
    (h : ((leaf c₀ c₁).printed higherBits).count (value number 0 higherBits) + 1 < 2 ^ 31) :
    (c₀.toInt.toNat + 1 < 2 ^ 31 ∨ number.getLsbD 0 = true) ∧
      (c₁.toInt.toNat + 1 < 2 ^ 31 ∨ number.getLsbD 0 = false) := by
  rw [printed, List.count_append, value, printCount, printCount] at h
  cases hbit : number.getLsbD 0 with
  | false =>
      rw [hbit, List.count_replicate_self] at h
      exact ⟨.inl (by omega), .inr rfl⟩
  | true =>
      rw [hbit, List.count_replicate_self] at h
      exact ⟨.inr rfl, .inl (by omega)⟩

/-- Adding a number prints it once more, as long as it is printed fewer than `2 ^ 31 - 1`
times. The induction is on the bit position, along the path of the number. -/
theorem add_printed (number : Word) (b : Nat) : ∀ {t : Trie} (higherBits : Word), t.Valid b →
    (t.printed higherBits).count (value number b higherBits) + 1 < 2 ^ 31 →
    (t.add number b).Valid b ∧
      ((t.add number b).printed higherBits).Perm
        (value number b higherBits :: t.printed higherBits) := by
  induction b with
  | zero =>
      intro t higherBits hvalid hcount
      cases t with
      | nil =>
          have hroom : (0 : Word).toInt.toNat + 1 < 2 ^ 31 := by decide
          exact ⟨count_valid (le_refl _) (le_refl _) (.inl hroom) (.inl hroom),
            count_printed higherBits (le_refl _) (le_refl _) (.inl hroom) (.inl hroom)⟩
      | leaf c₀ c₁ =>
          obtain ⟨hc₀, hc₁⟩ := leaf_room hcount
          exact ⟨count_valid hvalid.1 hvalid.2 hc₀ hc₁,
            count_printed higherBits hvalid.1 hvalid.2 hc₀ hc₁⟩
      | node z o => exact hvalid.elim
  | succ b ih =>
      -- an absent node counts as one without subtrees
      have hnode : ∀ {z o : Trie} {higherBits : Word}, z.Valid b → o.Valid b →
          ((node z o).printed higherBits).count (value number (b + 1) higherBits) + 1 < 2 ^ 31 →
          ((node z o).add number (b + 1)).Valid (b + 1) ∧
            (((node z o).add number (b + 1)).printed higherBits).Perm
              (value number (b + 1) higherBits :: (node z o).printed higherBits) := by
        intro z o higherBits hz ho hcount
        rw [printed, List.count_append, value] at hcount
        rw [add, value, printed]
        cases hbit : number.getLsbD (b + 1) with
        | false =>
            rw [hbit] at hcount
            obtain ⟨hvalid, hperm⟩ := ih (extend higherBits false) hz (by omega)
            rw [if_neg (by decide)]
            exact ⟨⟨hvalid, ho⟩, hperm.append_right _⟩
        | true =>
            rw [hbit] at hcount
            obtain ⟨hvalid, hperm⟩ := ih (extend higherBits true) ho (by omega)
            rw [if_pos rfl]
            exact ⟨⟨hz, hvalid⟩, (hperm.append_left _).trans List.perm_middle⟩
      intro t higherBits hvalid hcount
      cases t with
      | nil => exact hnode (valid_nil b) (valid_nil b) hcount
      | leaf c₀ c₁ => exact hvalid.elim
      | node z o => exact hnode hvalid.1 hvalid.2 hcount

/-! ### Order -/

theorem extend_toNat (higherBits : Word) (h : higherBits.toNat < 2 ^ 31) (one : Bool) :
    (extend higherBits one).toNat = 2 * higherBits.toNat + if one then 1 else 0 := by
  have hshift : (higherBits <<< 1).toNat = 2 * higherBits.toNat := by
    rw [BitVec.toNat_shiftLeft, Nat.shiftLeft_eq]
    omega
  cases one with
  | false => exact hshift
  | true =>
      have heven : (2 * higherBits.toNat) ||| 1 = 2 * higherBits.toNat + 1 := by
        have := Nat.two_pow_add_eq_or_of_lt (i := 1) (b := 1) (by decide) higherBits.toNat
        rw [pow_one] at this
        exact this.symm
      rw [extend, if_pos rfl, BitVec.toNat_or, hshift, if_pos rfl]
      exact heven

/-- The room that a path leaves is halved by a further bit. -/
theorem extend_fits {b : Nat} {higherBits : Word}
    (h : (higherBits.toNat + 1) * 2 ^ (b + 1 + 1) ≤ 2 ^ 31) (one : Bool) :
    (extend higherBits one).toNat = 2 * higherBits.toNat + (if one then 1 else 0) ∧
      ((extend higherBits one).toNat + 1) * 2 ^ (b + 1) ≤ 2 ^ 31 := by
  have hpos : 0 < 2 ^ (b + 1) := by positivity
  have hsplit : (higherBits.toNat + 1) * 2 ^ (b + 1 + 1) =
      2 * (higherBits.toNat * 2 ^ (b + 1)) + 2 * 2 ^ (b + 1) := by ring
  have hle : higherBits.toNat ≤ higherBits.toNat * 2 ^ (b + 1) := Nat.le_mul_of_pos_right _ hpos
  have hextend := extend_toNat higherBits (by omega) one
  refine ⟨hextend, ?_⟩
  have hzero : (2 * higherBits.toNat + 1) * 2 ^ (b + 1) =
      2 * (higherBits.toNat * 2 ^ (b + 1)) + 2 ^ (b + 1) := by ring
  have hone : (2 * higherBits.toNat + 1 + 1) * 2 ^ (b + 1) =
      2 * (higherBits.toNat * 2 ^ (b + 1)) + 2 * 2 ^ (b + 1) := by ring
  rw [hextend]
  cases one with
  | false =>
      rw [if_neg (by decide), Nat.add_zero]
      omega
  | true =>
      rw [if_pos rfl]
      omega

/-- What is printed from a bit position on has the path so far in front. -/
theorem printed_bounds (b : Nat) : ∀ {t : Trie} {higherBits : Word}, t.Valid b →
    (higherBits.toNat + 1) * 2 ^ (b + 1) ≤ 2 ^ 31 → ∀ v ∈ t.printed higherBits,
      higherBits.toNat * 2 ^ (b + 1) ≤ v.toNat ∧ v.toNat < (higherBits.toNat + 1) * 2 ^ (b + 1) := by
  induction b with
  | zero =>
      intro t higherBits hvalid hfits v hv
      cases t with
      | nil => cases hv
      | leaf c₀ c₁ =>
          have hzero := extend_toNat higherBits (by omega) false
          have hone := extend_toNat higherBits (by omega) true
          rw [if_neg (by decide)] at hzero
          rw [if_pos rfl] at hone
          rcases List.mem_append.mp hv with hv | hv
          · rw [List.eq_of_mem_replicate hv]
            omega
          · rw [List.eq_of_mem_replicate hv]
            omega
      | node z o => exact hvalid.elim
  | succ b ih =>
      intro t higherBits hvalid hfits v hv
      cases t with
      | nil => cases hv
      | leaf c₀ c₁ => exact hvalid.elim
      | node z o =>
          have hsplit : higherBits.toNat * 2 ^ (b + 1 + 1) =
            2 * higherBits.toNat * 2 ^ (b + 1) := by ring
          have hend : (higherBits.toNat + 1) * 2 ^ (b + 1 + 1) =
            2 * higherBits.toNat * 2 ^ (b + 1) + 2 * 2 ^ (b + 1) := by ring
          rcases List.mem_append.mp hv with hv | hv
          · obtain ⟨hextend, hfits'⟩ := extend_fits hfits false
            have hbounds := ih hvalid.1 hfits' v hv
            rw [hextend, if_neg (by decide), Nat.add_zero, add_one_mul] at hbounds
            omega
          · obtain ⟨hextend, hfits'⟩ := extend_fits hfits true
            have hbounds := ih hvalid.2 hfits' v hv
            rw [hextend, if_pos rfl, add_one_mul, add_one_mul, add_one_mul] at hbounds
            omega

theorem printed_ascending (b : Nat) : ∀ {t : Trie} {higherBits : Word}, t.Valid b →
    (higherBits.toNat + 1) * 2 ^ (b + 1) ≤ 2 ^ 31 →
      (t.printed higherBits).Pairwise fun v w => v.toNat ≤ w.toNat := by
  induction b with
  | zero =>
      intro t higherBits hvalid hfits
      cases t with
      | nil => exact .nil
      | leaf c₀ c₁ =>
          have hzero := extend_toNat higherBits (by omega) false
          have hone := extend_toNat higherBits (by omega) true
          rw [if_neg (by decide)] at hzero
          rw [if_pos rfl] at hone
          refine List.pairwise_append.mpr ⟨List.pairwise_replicate.mpr (.inr (le_refl _)),
            List.pairwise_replicate.mpr (.inr (le_refl _)), ?_⟩
          intro v hv w hw
          rw [List.eq_of_mem_replicate hv, List.eq_of_mem_replicate hw]
          omega
      | node z o => exact hvalid.elim
  | succ b ih =>
      intro t higherBits hvalid hfits
      cases t with
      | nil => exact .nil
      | leaf c₀ c₁ => exact hvalid.elim
      | node z o =>
          obtain ⟨hzero, hfits₀⟩ := extend_fits hfits false
          obtain ⟨hone, hfits₁⟩ := extend_fits hfits true
          rw [if_neg (by decide), Nat.add_zero] at hzero
          rw [if_pos rfl] at hone
          refine List.pairwise_append.mpr ⟨ih hvalid.1 hfits₀, ih hvalid.2 hfits₁, ?_⟩
          intro v hv w hw
          have hv' := (printed_bounds b hvalid.1 hfits₀ v hv).2
          have hw' := (printed_bounds b hvalid.2 hfits₁ w hw).1
          rw [hzero] at hv'
          rw [hone] at hw'
          omega

/-! ### One number many times -/

/-- The tree of the number 0 alone. -/
def zeros (c : Word) : Nat → Trie
  | 0 => leaf c 0
  | b + 1 => node (zeros c b) nil

theorem add_nil_zeros (b : Nat) : nil.add 0 b = zeros 1 b := by
  induction b with
  | zero => rfl
  | succ b ih =>
      rw [add, if_neg (by simp), ih]
      · rfl
      · exact nofun

theorem add_zeros (c : Word) (b : Nat) : (zeros c b).add 0 b = zeros (c + 1) b := by
  induction b with
  | zero => rfl
  | succ b ih => rw [zeros, add, if_neg (by simp), ih, zeros]

theorem zeros_printed (c : Word) (b : Nat) : (zeros c b).printed 0 = printCount c 0 := by
  have hzero : extend 0 false = 0 := rfl
  induction b with
  | zero =>
      rw [zeros, printed, hzero]
      exact List.append_nil _
  | succ b ih => rw [zeros, printed, hzero, ih, printed, List.append_nil]

end Trie

end CompSys.TinyRadix
