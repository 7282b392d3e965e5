import Mathlib.Logic.Function.Basic
import Mathlib.Data.List.Basic
import Mathlib.Data.Nat.ModEq

/-!
# Finite sequences laid out in a ring of cells

`Holds n cells first xs` says that the `n` cells, read cyclically from `first`,
start with the items of `xs`. Cells outside that window are unrestricted.
-/
namespace CompSys.Ring

universe u

variable {α : Type u} {n first : Nat} {cells : Nat → α} {x : α} {xs : List α}

def Holds (n : Nat) (cells : Nat → α) (first : Nat) (xs : List α) : Prop :=
  ∀ i (h : i < xs.length), cells ((first + i) % n) = xs[i]

@[simp] theorem holds_nil : Holds n cells first [] := by
  intro i h
  simp at h

/-- Two offsets inside one turn of the ring name the same cell only if equal. -/
theorem offset_injective {i j : Nat} (hi : i < n) (hj : j < n)
    (h : (first + i) % n = (first + j) % n) : i = j := by
  have hmod : i % n = j % n := Nat.ModEq.add_left_cancel' first h
  rwa [Nat.mod_eq_of_lt hi, Nat.mod_eq_of_lt hj] at hmod

/-- Writing the first free cell appends one item. -/
theorem Holds.push (h : Holds n cells first xs) (hroom : xs.length < n) :
    Holds n (Function.update cells ((first + xs.length) % n) x) first (xs ++ [x]) := by
  intro i hi
  by_cases hlast : i = xs.length
  · subst hlast
    simp
  · have hlt : i < xs.length := by simp at hi; omega
    have hne : (first + i) % n ≠ (first + xs.length) % n := fun he =>
      hlast (offset_injective (by omega) hroom he)
    rw [Function.update_of_ne hne, h i hlt, List.getElem_append_left hlt]

theorem Holds.head (h : Holds n cells first (x :: xs)) (hfirst : first < n) :
    cells first = x := by
  have h₀ := h 0 (by simp)
  rwa [Nat.add_zero, Nat.mod_eq_of_lt hfirst, List.getElem_cons_zero] at h₀

/-- Advancing the first index drops the first item. -/
theorem Holds.pop (h : Holds n cells first (x :: xs)) :
    Holds n cells ((first + 1) % n) xs := by
  intro i hi
  have hnext := h (i + 1) (by simpa using hi)
  rw [List.getElem_cons_succ] at hnext
  rw [← hnext, Nat.mod_add_mod]
  congr 2
  omega

end CompSys.Ring
