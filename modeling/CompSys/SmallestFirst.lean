import Mathlib.Data.Multiset.Sort
import Mathlib.Algebra.Order.Group.Multiset

/-!
# Taking the smallest elements of a multiset

The smallest elements of a multiset in ascending order, and the multiset without
them. Taking in batches takes the same elements as taking at once.
-/
namespace CompSys.SmallestFirst

universe u

variable {α : Type u} [LinearOrder α]

/-- The `n` smallest elements, or all of them, in ascending order with multiplicity. -/
def smallest (n : Nat) (held : Multiset α) : List α := held.sort.take n

/-- What is left without the `n` smallest elements. -/
def rest (n : Nat) (held : Multiset α) : Multiset α := held - smallest n held

theorem sort_coe {l : List α} (h : l.Pairwise (· ≤ ·)) : (l : Multiset α).sort = l := by
  rw [Multiset.coe_sort]
  exact List.mergeSort_eq_self _ h

theorem smallest_coe {l : List α} (h : l.Pairwise (· ≤ ·)) (n : Nat) :
    smallest n (l : Multiset α) = l.take n := by
  rw [smallest, sort_coe h]

theorem rest_coe {l : List α} (h : l.Pairwise (· ≤ ·)) (n : Nat) :
    rest n (l : Multiset α) = l.drop n := by
  have hsplit : (l : Multiset α) = l.take n + (l.drop n : Multiset α) := by
    rw [Multiset.coe_add, List.take_append_drop]
  rw [rest, smallest_coe h]
  nth_rewrite 1 [hsplit]
  exact add_tsub_cancel_left _ _

theorem exists_sorted (held : Multiset α) :
    ∃ l : List α, l.Pairwise (· ≤ ·) ∧ (l : Multiset α) = held :=
  ⟨held.sort, Multiset.pairwise_sort held _, Multiset.sort_eq held _⟩

theorem length_smallest (n : Nat) (held : Multiset α) :
    (smallest n held).length = min n held.card := by
  rw [smallest, List.length_take, Multiset.length_sort]

/-- Taking in two batches: the elements. -/
theorem smallest_add (m n : Nat) (held : Multiset α) :
    smallest (m + n) held = smallest m held ++ smallest n (rest m held) := by
  obtain ⟨l, hl, rfl⟩ := exists_sorted held
  have hdrop : (l.drop m).Pairwise (· ≤ ·) := hl.sublist (List.drop_sublist m l)
  rw [rest_coe hl, smallest_coe hl, smallest_coe hl, smallest_coe hdrop, List.take_add]

/-- Taking in two batches: what is left. -/
theorem rest_add (m n : Nat) (held : Multiset α) : rest (m + n) held = rest n (rest m held) := by
  obtain ⟨l, hl, rfl⟩ := exists_sorted held
  have hdrop : (l.drop m).Pairwise (· ≤ ·) := hl.sublist (List.drop_sublist m l)
  rw [rest_coe hl, rest_coe hl, rest_coe hdrop, List.drop_drop]

theorem smallest_zero (n : Nat) : smallest n (0 : Multiset α) = [] := by
  rw [smallest, Multiset.sort_zero, List.take_nil]

theorem rest_zero (n : Nat) : rest n (0 : Multiset α) = 0 := by
  rw [rest, smallest_zero]
  rfl

/-- A batch that comes back short was all there was. -/
theorem rest_of_card_le {n : Nat} {held : Multiset α} (h : held.card ≤ n) : rest n held = 0 := by
  obtain ⟨l, hl, rfl⟩ := exists_sorted held
  rw [rest_coe hl, List.drop_of_length_le h]
  rfl

/-- The next batch may ask for what the last one did not bring. -/
theorem smallest_batch {m n : Nat} (h : m ≤ n) (held : Multiset α) :
    smallest n held =
      smallest m held ++ smallest (n - (smallest m held).length) (rest m held) := by
  have hadd := smallest_add m (n - m) held
  rw [Nat.add_sub_cancel' h] at hadd
  rw [length_smallest]
  by_cases hcard : m ≤ held.card
  · rw [Nat.min_eq_left hcard, hadd]
  · have hnone : rest m held = 0 := rest_of_card_le (by omega)
    rw [hadd, hnone, smallest_zero, smallest_zero]

theorem rest_batch {m n : Nat} (h : m ≤ n) (held : Multiset α) :
    rest n held = rest (n - (smallest m held).length) (rest m held) := by
  have hadd := rest_add m (n - m) held
  rw [Nat.add_sub_cancel' h] at hadd
  rw [length_smallest]
  by_cases hcard : m ≤ held.card
  · rw [Nat.min_eq_left hcard, hadd]
  · have hnone : rest m held = 0 := rest_of_card_le (by omega)
    rw [hadd, hnone, rest_zero, rest_zero]

end CompSys.SmallestFirst
