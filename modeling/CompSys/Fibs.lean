import CompSys.Fauxgrep
import CompSys.PeerRequest
import Mathlib.Data.Nat.Fib.Basic
import Mathlib.Tactic.NormNum.NatFib

/-!
# fibs

`fibs.c` gives each line of its input to a worker, which prints the Fibonacci number of it. An `int`
that gets out of its range is undefined.
-/
namespace CompSys.Fibs

open CString PlaceRecord Transition Workers.Printing

/-! ## The program -/

def addInt (x y : ℤ) : Option ℤ :=
  if -2 ^ 31 ≤ x + y ∧ x + y < 2 ^ 31 then some (x + y) else none

def fib (n : ℤ) : Option ℤ :=
  if n < 2 then some 1
  else do addInt (← fib (n - 1)) (← fib (n - 2))
termination_by n.toNat

/-- `printf("fib(%d) = %d\n", n, fibn)` -/
def fibText (n fibn : ℤ) : List UInt8 :=
  PythonText.encode "fib(" ++ Fauxgrep.decimal n ++ PythonText.encode ") = " ++
    Fauxgrep.decimal fibn ++ [10]

/-- What is printed for a line, if it is defined. -/
def fibLine (line : List UInt8) : Option (List UInt8) := do
  let n ← PeerClient.atoi line
  let fibn ← fib n.toInt
  return fibText n.toInt fibn

/-- The jobs that main pushes: `strdup` copies a line up to its first NUL. -/
def readJobs (stdin : List UInt8) : List (List UInt8) :=
  match h : getline stdin with
  | none => []
  | some (line, rest) =>
    have := Fauxgrep.length_getline h
    cString line :: readJobs rest
termination_by stdin.length

/-! ## The numbers -/

theorem fib_small {k : ℕ} (h : k ≤ 46) : Nat.fib k < 2 ^ 31 := by
  have hlast : Nat.fib 46 = 1836311903 := by norm_num
  have hmono := Nat.fib_mono h
  rw [hlast] at hmono
  omega

/-- `fib` counts from 1, and the number of 46 is no `int` any more. -/
theorem fib_eq (n : ℤ) : fib n = if n < 46 then some ↑(Nat.fib (n.toNat + 1)) else none := by
  induction n using fib.induct with
  | case1 n hsmall =>
    have hone : Nat.fib (n.toNat + 1) = 1 := by
      obtain h | h : n.toNat = 0 ∨ n.toNat = 1 := by omega
      · rw [h, Nat.fib_one]
      · rw [h, Nat.fib_two]
    rw [fib, if_pos hsmall, if_pos (by omega), hone]
    rfl
  | case2 n hlarge ih₁ ih₂ =>
    rw [fib, if_neg hlarge, ih₁, ih₂]
    obtain ⟨k, rfl⟩ : ∃ k : ℕ, n = k + 2 := ⟨(n - 2).toNat, by omega⟩
    have hpred : ((k : ℤ) + 2 - 1).toNat + 1 = k + 2 := by omega
    have hpred₂ : ((k : ℤ) + 2 - 2).toNat + 1 = k + 1 := by omega
    have hself : ((k : ℤ) + 2).toNat + 1 = k + 3 := by omega
    rw [hpred, hpred₂, hself]
    have hadd : Nat.fib (k + 3) = Nat.fib (k + 2) + Nat.fib (k + 1) := by
      rw [Nat.fib_add_two, Nat.add_comm]
    by_cases hk : (k : ℤ) + 2 < 46
    · have hfits := fib_small (by omega : k + 3 ≤ 46)
      rw [hadd] at hfits
      rw [if_pos (by omega), if_pos (by omega), if_pos hk, hadd, Option.bind_eq_bind, Option.bind_some,
        Option.bind_some, addInt, if_pos (by omega), Nat.cast_add]
    · rw [if_neg hk]
      by_cases h46 : k = 44
      · subst h46
        decide +kernel
      · rw [if_neg (by omega)]
        rfl

/-- What is printed for a line with an `int` below 46. Any other line is undefined. -/
theorem fibLine_eq (line : List UInt8) :
    fibLine line = (PeerClient.atoi line).bind fun n =>
      if n.toInt < 46 then some (fibText n.toInt ↑(Nat.fib (n.toInt.toNat + 1))) else none := by
  unfold fibLine
  cases PeerClient.atoi line with
  | none => rfl
  | some n =>
    rw [Option.bind_eq_bind, Option.bind_some, Option.bind_some, fib_eq]
    split_ifs <;> rfl

theorem readJobs_eq {stdin : List UInt8} {lines : List (List UInt8)}
    (h : Fauxgrep.Lines stdin lines) : readJobs stdin = lines.map cString := by
  refine h.getline_induction ?_ ?_
  · rw [readJobs]
    rfl
  · intro stdin line rest lines hline ih
    rw [readJobs, List.map_cons, ← ih]
    split
    case h_1 hnone => rw [hline] at hnone; cases hnone
    case h_2 line' rest' hsome =>
      cases hline.symm.trans hsome
      rfl

/-! ## The workers -/

theorem atoi_cString (s : List UInt8) : PeerClient.atoi (cString s) = PeerClient.atoi s := by
  unfold PeerClient.atoi
  rw [cString_cString]

theorem fibLine_cString (line : List UInt8) : fibLine (cString line) = fibLine line := by
  unfold fibLine
  rw [atoi_cString]

/-- However the workers of fibs are scheduled, a run ends, and only when main has. Then each line of
the input was answered once, which is defined exactly for the numbers below 46, and one worker alone
has answered the lines in their order. -/
theorem fibs_prints {n : Nat} (hn : 1 ≤ n) (stdin : List UInt8) {lines : List (List UInt8)}
    (hlines : Fauxgrep.Lines stdin lines) (memory : Nat → List UInt8) {labels : List (Label n)}
    {s : State n (List UInt8) (Option (List UInt8))}
    (hrun : labels.foldlM (step (fun line => [fibLine line]) (readJobs stdin))
      (initial n memory) = some s) :
    labels.length ≤ (n + 2) * (3 * (n + lines.length) + 5) + (n + 1) + 2 * lines.length +
        2 * labels.countP Label.isWake ∧
      ((∀ l, l.isWake = false → step (fun line => [fibLine line]) (readJobs stdin) s l = none) ↔
        s.program.main = .done) ∧
      (s.program.main = .done →
        (s.output.map Prod.snd).Perm (lines.map fibLine) ∧
        (n = 1 → s.output.map Prod.snd = lines.map fibLine) ∧
        ((∀ answer ∈ s.output, answer.2.isSome) ↔
          ∀ line ∈ lines, ∃ n, PeerClient.atoi line = some n ∧ n.toInt < 46)) := by
  have h := run_printed hrun
  have hbound := length_le hrun
  have hanswers : (readJobs stdin).flatMap (fun line => [fibLine line]) = lines.map fibLine := by
    rw [readJobs_eq hlines, ← List.map_eq_flatMap, List.map_map]
    exact List.map_congr_left fun line _ => fibLine_cString line
  have hjobs : (readJobs stdin).length = lines.length := by
    rw [readJobs_eq hlines, List.length_map]
  rw [hanswers, List.length_map, hjobs] at hbound
  refine ⟨by omega, ⟨fun hstuck => done_of_stuck h hn hstuck, fun hdone _ => stuck_of_done h hdone⟩,
    ?_⟩
  intro hdone
  have hperm := h.perm hdone
  rw [hanswers] at hperm
  refine ⟨hperm, ?_, ?_⟩
  · rintro rfl
    rw [← hanswers]
    exact output_of_one hrun hdone
  · have hdefined : ∀ line, (fibLine line).isSome ↔
        ∃ n, PeerClient.atoi line = some n ∧ n.toInt < 46 := by
      intro line
      rw [fibLine_eq]
      cases PeerClient.atoi line with
      | none => simp
      | some n => by_cases hsmall : n.toInt < 46 <;> simp [hsmall]
    have hall : (∀ answer ∈ s.output, answer.2.isSome) ↔
        ∀ answer ∈ s.output.map Prod.snd, answer.isSome := by
      simp only [List.mem_map, forall_exists_index, and_imp, forall_apply_eq_imp_iff₂]
    simp only [hall, hperm.mem_iff, List.mem_map, forall_exists_index, and_imp,
      forall_apply_eq_imp_iff₂, hdefined]

/-- The lines 5 and 46, of which the second is undefined. -/
def twoNumbers : List UInt8 := [53, 10, 52, 54, 10]

theorem lines_twoNumbers : Fauxgrep.Lines twoNumbers [[53, 10], [52, 54, 10]] :=
  .cons (by decide : (10 : UInt8) ∉ [53]) (.cons (by decide : (10 : UInt8) ∉ [52, 54]) .nil)

/-- One worker answers both. -/
def oneWorker (t : Fin 1) : List (Label 1) :=
  [.run .create, .run .create, .run (.call .main), .run (.call .main), .run .endOfInput,
    .run (.call (.worker t)), .start t, .print t, .run (.process t), .run (.call (.worker t)),
    .start t, .print t, .run (.process t), .run (.call .main), .run (.call (.worker t)),
    .run .join, .run .join]

theorem fibs_prints_two_numbers : ∃ s : State 1 (List UInt8) (Option (List UInt8)),
    s.program.main = .done ∧ s.output.map Prod.snd = [some (fibText 5 8), none] := by
  obtain ⟨s, hrun, hdone⟩ : ∃ s : State 1 (List UInt8) (Option (List UInt8)),
      (oneWorker 0).foldlM (step (fun line => [fibLine line]) (readJobs twoNumbers))
        (initial 1 fun _ => []) = some s ∧ s.program.main = .done := by
    rw [readJobs_eq lines_twoNumbers]
    exact ⟨_, rfl, rfl⟩
  obtain ⟨-, -, hend⟩ := fibs_prints (le_refl 1) twoNumbers lines_twoNumbers _ hrun
  refine ⟨s, hdone, ?_⟩
  rw [(hend hdone).2.1 rfl, List.map_cons, List.map_cons, fibLine_eq, fibLine_eq]
  rfl

end CompSys.Fibs
