import Mathlib.Data.List.TakeWhile

/-!
# Strings in C

The text at a place in memory, which ends before its first NUL, and numbers in decimal digits.
-/
namespace CompSys.CString

def cString (memory : List UInt8) : List UInt8 := memory.takeWhile (· ≠ 0)

theorem cString_append {text : List UInt8} (h : 0 ∉ text) (rest : List UInt8) :
    cString (text ++ rest) = text ++ cString rest := by
  refine List.takeWhile_append_of_pos ?_
  intro b hb
  rw [decide_eq_true_eq]
  rintro rfl
  exact h hb

@[simp] theorem cString_nul (rest : List UInt8) : cString (0 :: rest) = [] := rfl

/-- A text without NUL is found in front of one. -/
theorem cString_plain {text : List UInt8} (h : 0 ∉ text) (rest : List UInt8) :
    cString (text ++ 0 :: rest) = text := by
  rw [cString_append h, cString_nul, List.append_nil]

/-- What is behind a NUL is not seen. -/
theorem cString_front (front rest : List UInt8) :
    cString (front ++ 0 :: rest) = cString front := by
  induction front with
  | nil => rfl
  | cons b front ih =>
    unfold cString at ih ⊢
    rw [List.cons_append, List.takeWhile_cons, List.takeWhile_cons, ih]

theorem mem_of_mem_cString {memory : List UInt8} {b : UInt8} (h : b ∈ cString memory) :
    b ∈ memory :=
  (List.takeWhile_sublist _).subset h

theorem nul_not_mem_cString (memory : List UInt8) : 0 ∉ cString memory := by
  intro hmem
  have hne := List.mem_takeWhile_imp hmem
  exact absurd rfl (of_decide_eq_true hne)

@[simp] theorem cString_cString (memory : List UInt8) : cString (cString memory) = cString memory :=
  List.takeWhile_idem

/-- A place is in the text exactly if there is no NUL up to it. -/
theorem lt_length_cString (memory : List UInt8) (r : ℕ) :
    r < (cString memory).length ↔ r < memory.length ∧ ∀ i ≤ r, memory[i]? ≠ some 0 := by
  unfold cString
  induction memory generalizing r with
  | nil => simp
  | cons b memory ih =>
    by_cases hb : b = 0
    · subst hb
      rw [List.takeWhile_cons_of_neg (by decide)]
      constructor
      · intro h
        exact absurd h (Nat.not_lt_zero r)
      · intro h
        exact absurd rfl (h.2 0 (Nat.zero_le r))
    · rw [List.takeWhile_cons_of_pos (by simpa using hb)]
      cases r with
      | zero => simp [hb]
      | succ r =>
        rw [List.length_cons, List.length_cons, Nat.succ_lt_succ_iff, Nat.succ_lt_succ_iff, ih]
        refine and_congr_right fun _ => ?_
        constructor
        · intro h i hi
          cases i with
          | zero => simpa using hb
          | succ i => exact h i (Nat.le_of_succ_le_succ hi)
        · intro h i hi
          exact h (i + 1) (Nat.succ_le_succ hi)

/-! ## Numbers -/

def isdigit (b : UInt8) : Bool := 48 ≤ b ∧ b ≤ 57

/-- The number that the digits at the front of a text stand for. -/
def digits (text : List UInt8) : ℕ :=
  (text.takeWhile isdigit).foldl (fun n b => 10 * n + (b.toNat - 48)) 0

end CompSys.CString
