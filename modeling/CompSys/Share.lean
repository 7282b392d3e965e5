import Mathlib.Data.List.Count
import Mathlib.Data.List.Perm.Basic
import Mathlib.Data.Prod.Basic
import Mathlib.Algebra.BigOperators.Group.Finset.Piecewise
import Mathlib.Algebra.Order.Ring.Nat

/-!
# What several writers have written to one sequence

Every element carries its writer. The share of a writer is what that writer wrote, in the order in
which it stands in the sequence. The shares leave open only how the writers interleave.
-/
namespace CompSys.Share

universe u v w

variable {ι : Type u} {β : Type v} {γ : Type w} [DecidableEq ι]

def share (i : ι) (l : List (ι × β)) : List β :=
  l.filterMap fun e => if e.1 = i then some e.2 else none

@[simp] theorem share_nil (i : ι) : share i ([] : List (ι × β)) = [] := rfl

theorem share_cons (i : ι) (e : ι × β) (l : List (ι × β)) :
    share i (e :: l) = if e.1 = i then e.2 :: share i l else share i l := by
  unfold share
  rw [List.filterMap_cons]
  split_ifs <;> rfl

theorem share_append (i : ι) (l l' : List (ι × β)) : share i (l ++ l') = share i l ++ share i l' :=
  List.filterMap_append

@[simp] theorem share_append_self (i : ι) (l : List (ι × β)) (x : β) :
    share i (l ++ [(i, x)]) = share i l ++ [x] := by
  simp [share_append, share_cons]

theorem share_append_other {i j : ι} (h : j ≠ i) (l : List (ι × β)) (x : β) :
    share i (l ++ [(j, x)]) = share i l := by
  simp [share_append, share_cons, h]

/-- The sequence in which every writer writes its elements at once. -/
def spread (f : β → List γ) (l : List (ι × β)) : List (ι × γ) :=
  l.flatMap fun e => (f e.2).map (Prod.mk e.1)

theorem share_map_mk (i j : ι) (l : List β) :
    share i (l.map (Prod.mk j)) = if j = i then l else [] := by
  induction l with
  | nil => simp
  | cons x l ih =>
    rw [List.map_cons, share_cons, ih]
    split_ifs <;> rfl

theorem share_spread (f : β → List γ) (i : ι) (l : List (ι × β)) :
    share i (spread f l) = (share i l).flatMap f := by
  induction l with
  | nil => rfl
  | cons e l ih =>
    have hcons : spread f (e :: l) = (f e.2).map (Prod.mk e.1) ++ spread f l := rfl
    rw [hcons, share_append, share_map_mk, ih, share_cons]
    split_ifs with h
    · rw [List.flatMap_cons]
    · rfl

omit [DecidableEq ι] in
theorem map_snd_spread (f : β → List γ) (l : List (ι × β)) :
    (spread f l).map Prod.snd = (l.map Prod.snd).flatMap f := by
  simp [spread, List.map_flatMap, List.flatMap_map, Function.comp_def]

theorem count_share [BEq β] [LawfulBEq β] (i : ι) (x : β) (l : List (ι × β)) :
    (share i l).count x = l.count (i, x) := by
  induction l with
  | nil => rfl
  | cons e l ih =>
    obtain ⟨j, y⟩ := e
    rw [share_cons, List.count_cons]
    by_cases h : j = i
    · subst h
      have hsame : ((j, y) == (j, x)) = (y == x) := by simp
      rw [if_pos rfl, List.count_cons, ih, hsame]
    · have hother : ((j, y) == (i, x)) = false := by simp [h]
      rw [if_neg h, ih, hother]
      rfl

/-- Two sequences in which every writer has the same share differ only in their order. -/
theorem perm_of_share {l l' : List (ι × β)} (h : ∀ i, share i l = share i l') : l.Perm l' := by
  classical
  refine List.perm_iff_count.mpr ?_
  rintro ⟨i, x⟩
  rw [← count_share, ← count_share, h i]

/-- If what every writer wrote comes from its share of the input, what they all wrote comes from
the input, up to the order. -/
theorem perm_flatMap_of_share {f : β → List γ} {written : List (ι × γ)} {read : List (ι × β)}
    (h : ∀ i, share i written = (share i read).flatMap f) :
    (written.map Prod.snd).Perm ((read.map Prod.snd).flatMap f) := by
  have hperm : written.Perm (spread f read) := by
    refine perm_of_share ?_
    intro i
    rw [h i, share_spread]
  rw [← map_snd_spread]
  exact hperm.map Prod.snd

/-- A single writer has written the whole sequence. -/
theorem share_of_subsingleton [Subsingleton ι] (i : ι) (l : List (ι × β)) :
    share i l = l.map Prod.snd := by
  induction l with
  | nil => rfl
  | cons e l ih => rw [share_cons, if_pos (Subsingleton.elim _ _), ih, List.map_cons]

/-- What all elements count for is what they count for in the shares. -/
theorem sum_map_share [Fintype ι] (f : β → ℕ) (l : List (ι × β)) :
    ∑ i, ((share i l).map f).sum = (l.map fun e => f e.2).sum := by
  induction l with
  | nil => simp
  | cons e l ih =>
    have hcons : ∀ i, ((share i (e :: l)).map f).sum =
        (if e.1 = i then f e.2 else 0) + ((share i l).map f).sum := by
      intro i
      rw [share_cons]
      split_ifs
      · rw [List.map_cons, List.sum_cons]
      · rw [zero_add]
    rw [List.map_cons, List.sum_cons, ← ih, Finset.sum_congr rfl fun i _ => hcons i,
      Finset.sum_add_distrib, Finset.sum_ite_eq, if_pos (Finset.mem_univ _)]

theorem sum_length_share [Fintype ι] (l : List (ι × β)) : ∑ i, (share i l).length = l.length := by
  have hsum := sum_map_share (fun _ => 1) l
  simpa using hsum

end CompSys.Share
