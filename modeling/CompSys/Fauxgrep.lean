import CompSys.PlaceRecord
import CompSys.PythonText
import CompSys.WorkersPrint
import Mathlib.Data.List.Infix

/-!
# fauxgrep

`fauxgrep.c` prints the lines of all files in which a text occurs, one file after the other;
`fauxgrep-mt.c` gives the files to its workers.
-/
namespace CompSys.Fauxgrep

open CString PlaceRecord Transition Workers.Printing

/-! ## The program -/

/-- `strstr(line, needle) != NULL` -/
def strstr (line needle : List UInt8) : Bool := cString needle <:+: cString line

/-- What `%d` prints. -/
def decimal (n : ℤ) : List UInt8 := PythonText.encode (toString n)

/-- `printf("%s:%d: %s", path, lineno, line)` -/
def matchText (path : String) (lineno : Int32) (line : List UInt8) : List UInt8 :=
  cString (PythonText.encode path) ++ 58 :: decimal lineno.toInt ++ 58 :: 32 :: cString line

/-- A line goes up to its newline, or to the end of the file. -/
theorem getline_some {f line rest : List UInt8} (h : getline f = some (line, rest)) :
    f = line ++ rest ∧
      ((∃ l, 10 ∉ l ∧ line = l ++ [10]) ∨ (line ≠ [] ∧ 10 ∉ line ∧ rest = [])) := by
  unfold getline at h
  split at h
  case isTrue => cases h
  case isFalse hne =>
    have hplain : (10 : UInt8) ∉ f.takeWhile (· ≠ 10) := by
      intro hmem
      have hne := List.mem_takeWhile_imp hmem
      exact absurd rfl (of_decide_eq_true hne)
    have hsplit : f.takeWhile (· ≠ 10) ++ f.dropWhile (· ≠ 10) = f := List.takeWhile_append_dropWhile
    cases hrest : f.dropWhile (· ≠ 10) with
    | nil =>
      rw [hrest] at h hsplit
      cases h
      rw [List.append_nil] at hsplit
      rw [List.take_nil, List.drop_nil, List.append_nil, List.append_nil]
      refine ⟨hsplit.symm, .inr ⟨?_, hplain, rfl⟩⟩
      rwa [hsplit]
    | cons b behind =>
      have hb : b = 10 := by
        have hfirst := List.head?_dropWhile_not (· ≠ 10) f
        rw [hrest] at hfirst
        simpa using hfirst
      rw [hrest, hb] at h hsplit
      cases h
      refine ⟨?_, .inl ⟨_, hplain, rfl⟩⟩
      simpa using hsplit.symm

theorem length_getline {f line rest : List UInt8} (h : getline f = some (line, rest)) :
    rest.length < f.length := by
  obtain ⟨rfl, hline⟩ := getline_some h
  have hne : line ≠ [] := by
    rcases hline with ⟨l, -, rfl⟩ | ⟨hne, -, -⟩
    · simp
    · exact hne
  have hpos := List.length_pos_iff.mpr hne
  rw [List.length_append]
  omega

/-- The loop over the lines: what it prints. -/
def fauxgrepLoop (needle : List UInt8) (path : String) (f : List UInt8) (lineno : Int32) :
    List (List UInt8) :=
  match h : getline f with
  | none => []
  | some (line, rest) =>
    have := length_getline h
    if strstr line needle then
      matchText path lineno line :: fauxgrepLoop needle path rest (lineno + 1)
    else fauxgrepLoop needle path rest (lineno + 1)
termination_by f.length

/-- What is printed for a path. A file that cannot be opened is only warned about. -/
def fauxgrepFile (files : String → Option (List UInt8)) (needle : List UInt8) (path : String) :
    List (List UInt8) :=
  match files path with
  | none => []
  | some f => fauxgrepLoop needle path f 1

/-- What main of `fauxgrep.c` prints, which takes the entries one after the other. -/
def fauxgrep (files : String → Option (List UInt8)) (needle : List UInt8) :
    List (Workers.FtsInfo × String) → List (List UInt8)
  | [] => []
  | (.file, path) :: entries => fauxgrepFile files needle path ++ fauxgrep files needle entries
  | (_, _) :: entries => fauxgrep files needle entries

theorem fauxgrep_eq_flatMap (files : String → Option (List UInt8)) (needle : List UInt8)
    (entries : List (Workers.FtsInfo × String)) :
    fauxgrep files needle entries =
      (Workers.ftsJobs entries).flatMap (fauxgrepFile files needle) := by
  induction entries with
  | nil => rfl
  | cons entry entries ih =>
    obtain ⟨info, path⟩ := entry
    cases info with
    | directory | other => exact ih
    | file => exact congrArg (fauxgrepFile files needle path ++ ·) ih

/-! ## The lines that are printed -/

/-- The lines of a file. Only the last one may end without a newline. -/
inductive Lines : List UInt8 → List (List UInt8) → Prop where
  | nil : Lines [] []
  | last {line : List UInt8} (some_byte : line ≠ []) (plain : 10 ∉ line) : Lines line [line]
  | cons {line f : List UInt8} {lines : List (List UInt8)} (plain : 10 ∉ line)
      (rest : Lines f lines) : Lines (line ++ 10 :: f) ((line ++ [10]) :: lines)

theorem lines_nil {lines : List (List UInt8)} (h : Lines [] lines) : lines = [] := by
  generalize hf : ([] : List UInt8) = f at h
  cases h with
  | nil => rfl
  | last some_byte => exact absurd hf.symm some_byte
  | cons => simp at hf

theorem exists_lines (f : List UInt8) : ∃ lines, Lines f lines := by
  induction hlen : f.length using Nat.strong_induction_on generalizing f with
  | _ n ih =>
    cases hline : getline f with
    | none =>
      have hnil : f = [] := by
        by_contra hne
        rw [getline, if_neg hne] at hline
        cases hline
      exact ⟨[], hnil ▸ .nil⟩
    | some found =>
      obtain ⟨line, rest⟩ := found
      have hlt := length_getline hline
      obtain ⟨rfl, ⟨l, hl, rfl⟩ | ⟨hne, hplain, rfl⟩⟩ := getline_some hline
      · obtain ⟨lines, hlines⟩ := ih rest.length (hlen ▸ hlt) rest rfl
        refine ⟨(l ++ [10]) :: lines, ?_⟩
        rw [List.append_assoc, List.singleton_append]
        exact .cons hl hlines
      · rw [List.append_nil]
        exact ⟨[line], .last hne hplain⟩

/-- `getline` gives the first line. -/
theorem getline_cons {line rest : List UInt8} (h : 10 ∉ line) :
    getline (line ++ 10 :: rest) = some (line ++ [10], rest) := by
  have hall : ∀ b ∈ line, decide (b ≠ 10) = true := by
    intro b hb
    rw [decide_eq_true_eq]
    rintro rfl
    exact h hb
  rw [getline, if_neg (by simp), List.takeWhile_append_of_pos hall, List.dropWhile_append_of_pos hall]
  simp

theorem getline_last {line : List UInt8} (hne : line ≠ []) (h : 10 ∉ line) :
    getline line = some (line, []) := by
  have hall : ∀ b ∈ line, decide (b ≠ 10) = true := by
    intro b hb
    rw [decide_eq_true_eq]
    rintro rfl
    exact h hb
  rw [getline, if_neg hne, List.takeWhile_eq_self_iff.mpr hall, List.dropWhile_eq_nil_iff.mpr hall]
  simp

/-- What holds of the lines of a file, by induction on what `getline` gives. -/
@[elab_as_elim]
theorem Lines.getline_induction {motive : List UInt8 → List (List UInt8) → Prop} {f : List UInt8}
    {lines : List (List UInt8)} (h : Lines f lines) (nil : motive [] [])
    (cons : ∀ f line rest lines, getline f = some (line, rest) → motive rest lines →
      motive f (line :: lines)) : motive f lines := by
  induction h with
  | nil => exact nil
  | last hne hplain => exact cons _ _ _ _ (getline_last hne hplain) nil
  | cons hplain _ ih => exact cons _ _ _ _ (getline_cons hplain) ih

/-- The texts of the lines in which the needle occurs, which are numbered from `i`. -/
def matching (needle : List UInt8) (path : String) (i : Nat) (lines : List (List UInt8)) :
    List (List UInt8) :=
  ((lines.zipIdx i).filter fun line => strstr line.1 needle).map fun line =>
    matchText path (Int32.ofNat line.2) line.1

theorem matching_cons (needle : List UInt8) (path : String) (i : Nat) (line : List UInt8)
    (lines : List (List UInt8)) :
    matching needle path i (line :: lines) =
      if strstr line needle then
        matchText path (Int32.ofNat i) line :: matching needle path (i + 1) lines
      else matching needle path (i + 1) lines := by
  unfold matching
  rw [List.zipIdx_cons, List.filter_cons]
  split_ifs
  · rw [List.map_cons]
  · rfl

theorem fauxgrepLoop_eq {f : List UInt8} {lines : List (List UInt8)} (h : Lines f lines)
    (needle : List UInt8) (path : String) (i : Nat) :
    fauxgrepLoop needle path f (Int32.ofNat i) = matching needle path i lines := by
  revert i
  refine h.getline_induction ?_ ?_
  · intro i
    rw [fauxgrepLoop]
    rfl
  · intro f line rest lines hline ih i
    rw [fauxgrepLoop, matching_cons, ← ih (i + 1), Int32.ofNat_add]
    split
    case h_1 hnone => rw [hline] at hnone; cases hnone
    case h_2 line' rest' hsome =>
      cases hline.symm.trans hsome
      rfl

/-- fauxgrep prints the lines in which the needle occurs, of the files that can be opened, under their
numbers. -/
theorem fauxgrep_matching (files : String → Option (List UInt8)) (needle : List UInt8)
    (entries : List (Workers.FtsInfo × String)) (lines : String → List (List UInt8))
    (hlines : ∀ path, Lines ((files path).getD []) (lines path)) :
    fauxgrep files needle entries =
      (Workers.ftsJobs entries).flatMap fun path => matching needle path 1 (lines path) := by
  rw [fauxgrep_eq_flatMap]
  refine List.flatMap_congr ?_
  intro path _
  have hpath := hlines path
  unfold fauxgrepFile
  cases hfile : files path with
  | none =>
    rw [hfile] at hpath
    rw [lines_nil hpath]
    rfl
  | some f =>
    rw [hfile] at hpath
    exact fauxgrepLoop_eq hpath needle path 1

/-! ## The workers -/

/-- However the workers of fauxgrep-mt are scheduled, a run ends, and only when main has. Then they
have printed the lines that fauxgrep prints, each worker those of its files in their order, and one
worker alone has printed exactly what fauxgrep prints. -/
theorem fauxgrepMt_prints {n : Nat} (hn : 1 ≤ n) (files : String → Option (List UInt8))
    (needle : List UInt8) (entries : List (Workers.FtsInfo × String)) (memory : Nat → String)
    {labels : List (Label n)} {s : State n String (List UInt8)}
    (hrun : labels.foldlM (step (fauxgrepFile files needle) (Workers.ftsJobs entries))
      (initial n memory) = some s) :
    labels.length ≤ (n + 2) * (3 * (n + (Workers.ftsJobs entries).length) + 5) + (n + 1) +
        (fauxgrep files needle entries).length + (Workers.ftsJobs entries).length +
        2 * labels.countP Label.isWake ∧
      ((∀ l, l.isWake = false →
          step (fauxgrepFile files needle) (Workers.ftsJobs entries) s l = none) ↔
        s.program.main = .done) ∧
      (s.program.main = .done →
        (s.output.map Prod.snd).Perm (fauxgrep files needle entries) ∧
        (∀ t, Share.share t s.output =
          (Share.share t s.program.processed).flatMap (fauxgrepFile files needle)) ∧
        (n = 1 → s.output.map Prod.snd = fauxgrep files needle entries)) := by
  have h := run_printed hrun
  rw [fauxgrep_eq_flatMap]
  refine ⟨length_le hrun, ⟨done_of_stuck h hn, fun hdone _ => stuck_of_done h hdone⟩, ?_⟩
  intro hdone
  refine ⟨h.perm hdone, h.shares hdone, ?_⟩
  rintro rfl
  exact output_of_one hrun hdone

/-- A directory with one file of two lines. -/
def oneFile : List (Workers.FtsInfo × String) :=
  [(.directory, "d"), (.file, "d/a")]

def twoLines (path : String) : Option (List UInt8) :=
  if path = "d/a" then some [120, 10, 97, 120, 10] else none

theorem fauxgrepFile_twoLines :
    fauxgrepFile twoLines [97] = fun path =>
      if path = "d/a" then [[100, 47, 97, 58, 50, 58, 32, 97, 120, 10]] else [] := by
  funext path
  unfold fauxgrepFile twoLines
  split_ifs with h
  · subst h
    have hlines : Lines [120, 10, 97, 120, 10] [[120, 10], [97, 120, 10]] :=
      .cons (by decide : (10 : UInt8) ∉ [120]) (.cons (by decide : (10 : UInt8) ∉ [97, 120]) .nil)
    exact (fauxgrepLoop_eq hlines [97] "d/a" 1).trans (by decide)
  · rfl

theorem fauxgrep_matching_one_file : fauxgrep twoLines [97] oneFile =
    (Workers.ftsJobs oneFile).flatMap fun path =>
      matching [97] path 1 (if path = "d/a" then [[120, 10], [97, 120, 10]] else []) := by
  refine fauxgrep_matching twoLines [97] oneFile _ ?_
  intro path
  unfold twoLines
  split_ifs
  · exact .cons (by decide : (10 : UInt8) ∉ [120]) (.cons (by decide : (10 : UInt8) ∉ [97, 120]) .nil)
  · exact .nil

/-- One of two workers takes the file. -/
def twoWorkers (t u : Fin 2) : List (Label 2) :=
  [.run .create, .run .create, .run .create, .run (.call .main), .run .endOfInput,
    .run (.call (.worker u)), .run (.call .main), .run (.call (.worker t)), .start u, .print u,
    .run (.process u), .run (.call (.worker u)), .run .join, .run .join, .run .join]

theorem fauxgrepMt_prints_one_file : ∃ s : State 2 String (List UInt8),
    s.output = [(1, [100, 47, 97, 58, 50, 58, 32, 97, 120, 10])] ∧
      (s.output.map Prod.snd).Perm (fauxgrep twoLines [97] oneFile) := by
  obtain ⟨s, hrun, hdone, houtput⟩ : ∃ s : State 2 String (List UInt8),
      (twoWorkers 0 1).foldlM (step (fauxgrepFile twoLines [97]) (Workers.ftsJobs oneFile))
        (initial 2 fun _ => "") = some s ∧ s.program.main = .done ∧
        s.output = [(1, [100, 47, 97, 58, 50, 58, 32, 97, 120, 10])] := by
    rw [fauxgrepFile_twoLines]
    exact ⟨_, rfl, rfl, rfl⟩
  exact ⟨s, houtput, ((fauxgrepMt_prints (by decide) twoLines [97] oneFile _ hrun).2.2 hdone).1⟩

end CompSys.Fauxgrep
