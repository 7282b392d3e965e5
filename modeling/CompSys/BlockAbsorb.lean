import Mathlib.Data.List.Basic

/-!
# Streams absorbed in blocks

A function that works on blocks of one size is run over a stream; what does not fill a block
is left over. How the stream comes in pieces makes no difference.
-/
namespace CompSys.BlockAbsorb

variable {σ β : Type*} (process : σ → List β → σ) (size : ℕ)

/-- The state after all whole blocks, and what is left over. -/
def absorb (s : σ) (l : List β) : σ × List β :=
  if 0 < size ∧ size ≤ l.length then absorb (process s (l.take size)) (l.drop size) else (s, l)
termination_by l.length
decreasing_by
  rw [List.length_drop]
  omega

variable {process size}

theorem absorb_short {s : σ} {l : List β} (h : l.length < size) :
    absorb process size s l = (s, l) := by
  rw [absorb, if_neg (by omega)]

theorem absorb_block {s : σ} {l : List β} (hsize : 0 < size) (h : size ≤ l.length) :
    absorb process size s l = absorb process size (process s (l.take size)) (l.drop size) := by
  rw [absorb, if_pos ⟨hsize, h⟩]

theorem length_absorb_lt (hsize : 0 < size) (s : σ) (l : List β) :
    (absorb process size s l).2.length < size := by
  induction s, l using absorb.induct process size with
  | case1 s l h ih =>
    rw [absorb_block hsize h.2]
    exact ih
  | case2 s l h =>
    rw [absorb, if_neg h]
    by_contra hlong
    exact h ⟨hsize, Nat.le_of_not_lt hlong⟩

/-- The blocks take a multiple of their size away. -/
theorem length_absorb_mod (s : σ) (l : List β) :
    (absorb process size s l).2.length % size = l.length % size := by
  induction s, l using absorb.induct process size with
  | case1 s l h ih =>
    rw [absorb_block h.1 h.2, ih, List.length_drop]
    exact (Nat.mod_eq_sub_mod h.2).symm
  | case2 s l h => rw [absorb, if_neg h]

theorem length_absorb (hsize : 0 < size) (s : σ) (l : List β) :
    (absorb process size s l).2.length = l.length % size := by
  have hmod : (absorb process size s l).2.length % size = l.length % size := length_absorb_mod s l
  rw [← hmod]
  exact (Nat.mod_eq_of_lt (length_absorb_lt hsize s l)).symm

/-- A stream in two pieces: what the first one leaves over comes before the second. -/
theorem absorb_append (hsize : 0 < size) (s : σ) (l l' : List β) :
    absorb process size s (l ++ l') =
      absorb process size (absorb process size s l).1 ((absorb process size s l).2 ++ l') := by
  induction s, l using absorb.induct process size with
  | case1 s l h ih =>
    have hle : size ≤ (l ++ l').length := by
      rw [List.length_append]
      omega
    rw [absorb_block hsize hle, List.take_append_of_le_length h.2, List.drop_append_of_le_length h.2,
      ih, absorb_block hsize h.2]
  | case2 s l h =>
    have hrest : absorb process size s l = (s, l) := by rw [absorb, if_neg h]
    rw [hrest]

end CompSys.BlockAbsorb
