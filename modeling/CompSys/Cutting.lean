import Mathlib.Algebra.Order.Floor.Div
import Mathlib.Data.List.Basic

/-!
# Cutting a list into numbered pieces

A loop that takes pieces of one size off the front of a list until nothing is left, and
numbers them on from its argument.
-/
namespace CompSys.Cutting

universe u

variable {α : Type u} {size : ℕ} {loop : List α → ℕ → List (ℕ × List α)}

/-- What a round of the loop does. -/
def Cuts (size : ℕ) (loop : List α → ℕ → List (ℕ × List α)) : Prop :=
  ∀ l n, loop l n = if 0 < l.length then (n, l.take size) :: loop (l.drop size) (n + 1) else []

/-- Every round leaves less to cut. -/
theorem cut_induction {motive : List α → ℕ → Prop} (hsize : 0 < size)
    (more : ∀ l n, 0 < l.length → motive (l.drop size) (n + 1) → motive l n)
    (done : ∀ n, motive [] n) (l : List α) (n : ℕ) : motive l n := by
  induction hlen : l.length using Nat.strong_induction_on generalizing l n with
  | h len ih =>
    by_cases hpos : 0 < l.length
    case pos =>
      apply more l n hpos
      exact ih (l.drop size).length (by rw [List.length_drop]; omega) _ _ rfl
    case neg =>
      rw [List.eq_nil_of_length_eq_zero (Nat.eq_zero_of_not_pos hpos)]
      exact done n

theorem Cuts.nil (h : Cuts size loop) (n : ℕ) : loop [] n = [] := by
  rw [h]
  simp

theorem Cuts.cons (h : Cuts size loop) {l : List α} (n : ℕ) (hpos : 0 < l.length) :
    loop l n = (n, l.take size) :: loop (l.drop size) (n + 1) := by
  rw [h, if_pos hpos]

/-- The pieces are as many as the rounded up quotient. -/
theorem Cuts.numbers (h : Cuts size loop) (hsize : 0 < size) (l : List α) (n : ℕ) :
    (loop l n).map Prod.fst = List.range' n (l.length ⌈/⌉ size) := by
  induction l, n using cut_induction hsize with
  | more l n hpos ih =>
    have hcount : l.length ⌈/⌉ size = (l.drop size).length ⌈/⌉ size + 1 := by
      simp only [Nat.ceilDiv_eq_add_pred_div, List.length_drop]
      by_cases hle : size ≤ l.length
      case pos =>
        have hsum : l.length + size - 1 = (l.length - size + size - 1) + size := by omega
        rw [hsum, Nat.add_div_right _ hsize]
      case neg =>
        have hone : (l.length + size - 1) / size = 1 :=
          Nat.div_eq_of_lt_le (by omega) (by omega)
        rw [hone, Nat.div_eq_of_lt (by omega)]
    rw [h.cons n hpos, List.map_cons, ih, hcount, List.range'_succ]
  | done n =>
    rw [h.nil, List.length_nil, zero_ceilDiv]
    rfl

theorem Cuts.joined (h : Cuts size loop) (hsize : 0 < size) (l : List α) (n : ℕ) :
    ((loop l n).map Prod.snd).flatten = l := by
  induction l, n using cut_induction hsize with
  | more l n hpos ih =>
    rw [h.cons n hpos, List.map_cons, List.flatten_cons, ih]
    exact List.take_append_drop size l
  | done n =>
    rw [h.nil]
    rfl

/-- The piece with a number is found at its place. -/
theorem Cuts.pieces (h : Cuts size loop) (hsize : 0 < size) (l : List α) (n : ℕ) :
    ∀ piece ∈ loop l n, n ≤ piece.1 ∧ piece.2 = (l.drop ((piece.1 - n) * size)).take size := by
  induction l, n using cut_induction hsize with
  | more l n hpos ih =>
    intro piece hpiece
    rw [h.cons n hpos] at hpiece
    cases List.mem_cons.mp hpiece with
    | inl heq =>
      rw [heq, Nat.sub_self, Nat.zero_mul, List.drop_zero]
      exact ⟨Nat.le_refl n, rfl⟩
    | inr hrest =>
      obtain ⟨hle, hpiece⟩ := ih piece hrest
      have hplace : size + (piece.1 - (n + 1)) * size = (piece.1 - n) * size := by
        rw [Nat.add_comm, ← Nat.succ_mul]
        congr 1
        omega
      rw [List.drop_drop, hplace] at hpiece
      exact ⟨Nat.le_of_succ_le hle, hpiece⟩
  | done n => simp [h.nil]

/-- What holds of the front of every list that is left holds of every piece. -/
theorem Cuts.forall_mem (h : Cuts size loop) (hsize : 0 < size) {p : ℕ × List α → Prop}
    (hfront : ∀ (l : List α) n, 0 < l.length → p (n, l.take size)) (l : List α) (n : ℕ) :
    ∀ piece ∈ loop l n, p piece := by
  induction l, n using cut_induction hsize with
  | more l n hpos ih =>
    rw [h.cons n hpos, List.forall_mem_cons]
    exact ⟨hfront l n hpos, ih⟩
  | done n => simp [h.nil]

theorem Cuts.sizes (h : Cuts size loop) (hsize : 0 < size) (l : List α) (n : ℕ) :
    ∀ piece ∈ loop l n, piece.2.length ≤ size :=
  h.forall_mem hsize (fun l _ _ => List.length_take_le size l) l n

theorem Cuts.nonempty (h : Cuts size loop) (hsize : 0 < size) (l : List α) (n : ℕ) :
    ∀ piece ∈ loop l n, piece.2 ≠ [] := by
  refine h.forall_mem hsize (fun l _ hpos => ?_) l n
  rw [← List.length_pos_iff, List.length_take]
  exact Nat.lt_min.mpr ⟨hsize, hpos⟩

end CompSys.Cutting
