import Mathlib.Data.Nat.Log
import Mathlib.Data.List.Range
import Mathlib.Data.Tree.Basic

/-!
# Binary trees that halve a sequence

A tree over a sequence whose root stands in the middle and whose subtrees do the same with
what is before and after it: its size, its height, and the positions of its nodes.
-/
namespace CompSys.HalvedTree

open BinaryTree (nil node map numNodes height)

universe u v

variable {α : Type u} {β : Type v}

def inorder : BinaryTree α → List α
  | nil => []
  | node label left right => inorder left ++ label :: inorder right

/-- Every label has a property at its depth, the root being at this depth. -/
def AtDepth (p : ℕ → α → Prop) : ℕ → BinaryTree α → Prop
  | _, nil => True
  | depth, node label left right =>
    p depth label ∧ AtDepth p (depth + 1) left ∧ AtDepth p (depth + 1) right

/-- The root stands in the middle of so many elements, and the subtrees go on so. -/
inductive Halved : ℕ → BinaryTree α → Prop where
  | nil : Halved 0 .nil
  | node {n label left right} (pos : 0 < n) (left_half : Halved (n / 2) left)
      (right_half : Halved (n - n / 2 - 1) right) : Halved n (node label left right)

/-- The labels together with their positions, the first one being at this position. -/
def number (f : ℕ → α → β) : ℕ → BinaryTree α → BinaryTree β
  | _, nil => nil
  | base, node label left right =>
    node (f (base + left.numNodes) label) (number f base left)
      (number f (base + left.numNodes + 1) right)

@[simp] theorem length_inorder (t : BinaryTree α) : (inorder t).length = t.numNodes := by
  induction t with
  | nil => rfl
  | node label left right ihLeft ihRight =>
    simp only [inorder, numNodes, List.length_append, List.length_cons, ihLeft, ihRight,
      Nat.add_assoc]

@[simp] theorem numNodes_number (f : ℕ → α → β) (base : ℕ) (t : BinaryTree α) :
    (number f base t).numNodes = t.numNodes := by
  induction t generalizing base with
  | nil => rfl
  | node label left right ihLeft ihRight => simp only [number, numNodes, ihLeft, ihRight]

/-- The nodes take the positions one after the other. -/
theorem inorder_number (f : ℕ → α → β) (base : ℕ) (t : BinaryTree α) :
    inorder (number f base t) = List.zipWith f (List.range' base t.numNodes) (inorder t) := by
  induction t generalizing base with
  | nil => rfl
  | node label left right ihLeft ihRight =>
    have hrange : List.range' base (left.numNodes + right.numNodes + 1) =
        List.range' base left.numNodes ++
          (base + left.numNodes) :: List.range' (base + left.numNodes + 1) right.numNodes := by
      rw [← List.range'_succ, List.range'_append_1, Nat.add_assoc]
    simp only [number, inorder, numNodes]
    rw [hrange, List.zipWith_append, List.zipWith_cons_cons, ihLeft, ihRight]
    rw [List.length_range', length_inorder]

/-- A label at a position of the sequence. -/
theorem number_read {γ : Type*} (f : ℕ → α → β) (g : α → γ) (read : β → γ) (base : ℕ)
    (t : BinaryTree α) (h : ∀ i x, (inorder t)[i]? = some x → read (f (base + i) x) = g x) :
    (number f base t).map read = t.map g := by
  induction t generalizing base with
  | nil => rfl
  | node label left right ihLeft ihRight =>
    simp only [number, map]
    have hroot := h left.numNodes label (by
      rw [inorder, List.getElem?_append_right (length_inorder left).le, length_inorder, Nat.sub_self]
      rfl)
    have hleft := ihLeft base fun i x hx => h i x (by
      have hlt : i < (inorder left).length := by
        by_contra hge
        rw [List.getElem?_eq_none (Nat.le_of_not_lt hge)] at hx
        cases hx
      rw [inorder, List.getElem?_append_left hlt, hx])
    have hright := ihRight (base + left.numNodes + 1) fun i x hx => by
      have hpos := h (left.numNodes + 1 + i) x (by
        rw [inorder, List.getElem?_append_right (by rw [length_inorder]; omega), length_inorder]
        have hsub : left.numNodes + 1 + i - left.numNodes = i + 1 := by omega
        rw [hsub, List.getElem?_cons_succ, hx])
      have hplace : base + left.numNodes + 1 + i = base + (left.numNodes + 1 + i) := by omega
      rw [hplace]
      exact hpos
    rw [hroot, hleft, hright]

theorem AtDepth.number {p : ℕ → α → Prop} {q : ℕ → β → Prop} {f : ℕ → α → β} {depth base : ℕ}
    {t : BinaryTree α} (h : AtDepth p depth t) (hf : ∀ depth i x, p depth x → q depth (f i x)) :
    AtDepth q depth (number f base t) := by
  induction t generalizing depth base with
  | nil => trivial
  | node label left right ihLeft ihRight =>
    obtain ⟨hroot, hleft, hright⟩ := h
    exact ⟨hf depth _ label hroot, ihLeft hleft, ihRight hright⟩

theorem Halved.number {n : ℕ} {t : BinaryTree α} (h : Halved n t) (f : ℕ → α → β) (base : ℕ) :
    Halved n (number f base t) := by
  induction h generalizing base with
  | nil => exact .nil
  | node pos _ _ ihLeft ihRight => exact .node pos (ihLeft base) (ihRight _)

theorem Halved.numNodes {n : ℕ} {t : BinaryTree α} (h : Halved n t) : t.numNodes = n := by
  induction h with
  | nil => rfl
  | node pos _ _ ihLeft ihRight =>
    rw [BinaryTree.numNodes, ihLeft, ihRight]
    omega

/-- The number of levels that so many elements need. -/
def levels (n : ℕ) : ℕ := if n = 0 then 0 else Nat.log 2 n + 1

theorem levels_mono {m n : ℕ} (h : m ≤ n) : levels m ≤ levels n := by
  unfold levels
  split
  case isTrue => exact Nat.zero_le _
  case isFalse hm =>
    have hn : n ≠ 0 := by omega
    rw [if_neg hn]
    exact Nat.succ_le_succ (Nat.log_mono_right h)

theorem levels_half {n : ℕ} (h : 0 < n) : levels (n / 2) + 1 = levels n := by
  unfold levels
  rw [if_neg h.ne']
  rcases Nat.lt_or_ge n 2 with hlt | hge
  · have hone : n = 1 := by omega
    subst hone
    rfl
  · have hhalf : n / 2 ≠ 0 := by omega
    rw [if_neg hhalf, Nat.log_of_one_lt_of_le Nat.one_lt_two hge]

/-- The left subtree is never the lower one, so it alone decides the height. -/
theorem Halved.height_eq {n : ℕ} {t : BinaryTree α} (h : Halved n t) : t.height = levels n := by
  induction h with
  | nil => rfl
  | @node n label left right pos _ _ ihLeft ihRight =>
    have hle : levels (n - n / 2 - 1) ≤ levels (n / 2) := levels_mono (by omega)
    rw [BinaryTree.height, ihLeft, ihRight, Nat.max_eq_left hle, levels_half pos]

theorem Halved.height {n : ℕ} {t : BinaryTree α} (h : Halved n t) (hn : 0 < n) :
    t.height = Nat.log 2 n + 1 := by
  rw [h.height_eq, levels, if_neg hn.ne']

end CompSys.HalvedTree
