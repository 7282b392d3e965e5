import CompSys.Histogram
import CompSys.Transition

/-!
# The sequential histogram step by step

`fhistogram.c` as it goes on from one round of its loops to the next: a byte that is read
and counted, a cell that is merged. The runs of the machine are the runs of the program,
and in every state of a run the two histograms add up to what has been read.
-/
namespace CompSys.Histograms

open Workers Transition

/-- Between two files there is no local histogram. A merge goes on with the rest of the
file and the number of bytes read, or it is the last. -/
inductive Phase where
  | between
  | reading (rest : List UInt8) (i : BitVec 32) (localHistogram : Histogram)
  | merging (cell : Fin 8) (after : Option (List UInt8 × BitVec 32)) (localHistogram : Histogram)

/-- The program between two rounds, with the paths to come and the bytes that were read. -/
structure Moment where
  phase : Phase
  paths : List String
  globalHistogram : Histogram
  bytesRead : List UInt8

/-- What follows the loop of `merge_histogram`. -/
def afterMerge (after : Option (List UInt8 × BitVec 32)) (localHistogram : Histogram) : Phase :=
  match after with
  | some (rest, i) => .reading rest i localHistogram
  | none => .between

/-- After a cell comes the next one. -/
def nextRound (cell : Fin 8) (after : Option (List UInt8 × BitVec 32)) (localHistogram : Histogram) :
    Phase :=
  if h : cell.val + 1 < 8 then .merging ⟨cell.val + 1, h⟩ after localHistogram
  else afterMerge after localHistogram

/-- One round. -/
def round (files : String → Option (List UInt8)) (s : Moment) : Option Moment :=
  match s.phase with
  | .between =>
    match s.paths with
    | [] => none
    | path :: paths =>
      match files path with
      | none => some { s with paths := paths }
      | some bytes => some { s with phase := .reading bytes 0 0, paths := paths }
  | .reading [] _ localHistogram => some { s with phase := .merging 0 none localHistogram }
  | .reading (c :: rest) i localHistogram =>
    let i := i + 1
    let localHistogram := updateHistogram localHistogram c
    let phase := if i.srem 100000 = 0 then .merging 0 (some (rest, i)) localHistogram
      else .reading rest i localHistogram
    some { s with phase := phase, bytesRead := s.bytesRead ++ [c] }
  | .merging cell after localHistogram =>
    let (localHistogram, globalHistogram) := mergeStep (localHistogram, s.globalHistogram) cell
    some { s with
      phase := nextRound cell after localHistogram
      globalHistogram := globalHistogram }

def sequential (files : String → Option (List UInt8)) (paths : List String) : System Moment :=
  ofStep ⟨.between, paths, 0, []⟩ fun s (_ : Unit) => round files s

/-- The bytes of the files that can be opened. -/
def readable (files : String → Option (List UInt8)) (paths : List String) : List UInt8 :=
  paths.flatMap fun path => (files path).getD []

/-! ## The runs -/

section Runs

variable {files : String → Option (List UInt8)} {start : List String} {paths : List String}
  {globalHistogram : Histogram} {bytesRead : List UInt8}

theorem reachable_round {s s' : Moment} (h : Reachable (sequential files start) s)
    (hround : round files s = some s') : Reachable (sequential files start) s' :=
  h.step ⟨(), hround⟩

/-- Eight rounds are a call of `merge_histogram`. -/
theorem reachable_merged {after : Option (List UInt8 × BitVec 32)} {localHistogram : Histogram}
    (h : Reachable (sequential files start)
      ⟨.merging 0 after localHistogram, paths, globalHistogram, bytesRead⟩) :
    Reachable (sequential files start)
      ⟨afterMerge after (mergeHistogram localHistogram globalHistogram).1, paths,
        (mergeHistogram localHistogram globalHistogram).2, bytesRead⟩ :=
  reachable_of_run (List.replicate 8 ()) h rfl

/-- The rounds for the rest of a file are the loop that reads it. -/
theorem reachable_read {rest : List UInt8} {i : BitVec 32} {localHistogram : Histogram}
    (h : Reachable (sequential files start)
      ⟨.reading rest i localHistogram, paths, globalHistogram, bytesRead⟩) :
    Reachable (sequential files start)
      ⟨.merging 0 none (readLoop 100000 rest i localHistogram globalHistogram).1, paths,
        (readLoop 100000 rest i localHistogram globalHistogram).2, bytesRead ++ rest⟩ := by
  induction rest generalizing i localHistogram globalHistogram bytesRead with
  | nil =>
    rw [List.append_nil]
    exact reachable_round h rfl
  | cons c rest ih =>
    have hround := reachable_round h rfl
    rw [readLoop, List.append_cons]
    by_cases hbatch : (i + 1).srem 100000 = 0
    · simp only [if_pos hbatch] at hround ⊢
      exact ih (reachable_merged hround)
    · simp only [if_neg hbatch] at hround ⊢
      exact ih hround

theorem reachable_file {path : String}
    (h : Reachable (sequential files start)
      ⟨.between, path :: paths, globalHistogram, bytesRead⟩) :
    Reachable (sequential files start)
      ⟨.between, paths, fhistogram files path globalHistogram,
        bytesRead ++ (files path).getD []⟩ := by
  unfold fhistogram
  cases hfile : files path with
  | none =>
    rw [Option.getD_none, List.append_nil]
    exact reachable_round h (by simp [round, hfile])
  | some bytes =>
    have hopened := reachable_round h (by simp [round, hfile]; rfl)
    exact reachable_merged (reachable_read hopened)

theorem reachable_files
    (h : Reachable (sequential files start) ⟨.between, paths, globalHistogram, bytesRead⟩) :
    Reachable (sequential files start)
      ⟨.between, [], paths.foldl (fun globalHistogram path => fhistogram files path globalHistogram)
        globalHistogram, bytesRead ++ readable files paths⟩ := by
  induction paths generalizing globalHistogram bytesRead with
  | nil =>
    rw [readable, List.flatMap_nil, List.append_nil]
    exact h
  | cons path paths ih =>
    rw [List.foldl_cons, readable, List.flatMap_cons, ← List.append_assoc]
    exact ih (reachable_file h)

/-- The machine comes to the end of the program with its global histogram. -/
theorem reachable_end (files : String → Option (List UInt8)) (entries : List (FtsInfo × String)) :
    Reachable (sequential files (ftsJobs entries))
      ⟨.between, [], fhistogramMain files entries, readable files (ftsJobs entries)⟩ := by
  rw [fhistogramMain_jobs]
  exact reachable_files (.start rfl)

end Runs

/-! ## What is counted between two rounds -/

def Phase.localHistogram : Phase → Histogram
  | .between => 0
  | .reading _ _ localHistogram | .merging _ _ localHistogram => localHistogram

/-- The cells that a merge has passed are zero. -/
def Phase.Passed : Phase → Prop
  | .merging cell _ localHistogram => ZeroBefore cell localHistogram
  | _ => True

/-- Both histograms together count what was read. -/
structure Conserved (s : Moment) : Prop where
  counted : s.phase.localHistogram + s.globalHistogram = count s.bytesRead
  passed : s.phase.Passed

section Next

variable {cell : Fin 8} {after : Option (List UInt8 × BitVec 32)} {localHistogram : Histogram}

theorem nextRound_localHistogram (h : ZeroBefore cell localHistogram) :
    (nextRound cell after (Function.update localHistogram cell 0)).localHistogram =
      Function.update localHistogram cell 0 := by
  unfold nextRound
  split
  case isTrue => rfl
  case isFalse hlast =>
    rw [h.last hlast]
    cases after <;> rfl

theorem nextRound_passed (h : ZeroBefore cell localHistogram) :
    (nextRound cell after (Function.update localHistogram cell 0)).Passed := by
  unfold nextRound
  split
  case isTrue hlt => exact h.next hlt
  case isFalse => cases after <;> trivial

/-- A merge moves a cell. -/
theorem mergeStep_sum (source target : Histogram) (cell : Fin 8) :
    (mergeStep (source, target) cell).1 + (mergeStep (source, target) cell).2 =
      source + target := by
  funext k
  by_cases hk : k = cell
  · simp [mergeStep, hk, add_comm]
  · simp [mergeStep, hk]

end Next

/-- No round changes what the histograms together count, other than by the byte that it
reads. -/
theorem Conserved.round {files : String → Option (List UInt8)} {s s' : Moment} (h : Conserved s)
    (hround : round files s = some s') : Conserved s' := by
  obtain ⟨phase, paths, globalHistogram, bytesRead⟩ := s
  obtain ⟨hcounted, hpassed⟩ := h
  cases phase with
  | between =>
    cases paths with
    | nil => cases hround
    | cons path paths =>
      simp only [Histograms.round] at hround
      split at hround <;> cases hround <;> exact ⟨hcounted, trivial⟩
  | reading rest i localHistogram =>
    cases rest with
    | nil =>
      cases hround
      exact ⟨hcounted, zeroBefore_zero localHistogram⟩
    | cons c rest =>
      have hread : updateHistogram localHistogram c + globalHistogram = count (bytesRead ++ [c]) := by
        rw [count_append, ← hcounted, updateHistogram_eq, count_cons, count_nil]
        change localHistogram + bits c + globalHistogram =
          localHistogram + globalHistogram + (bits c + 0)
        abel
      simp only [Histograms.round] at hround
      cases hround
      split
      · exact ⟨hread, zeroBefore_zero _⟩
      · exact ⟨hread, trivial⟩
  | merging cell after localHistogram =>
    cases hround
    refine ⟨?_, nextRound_passed hpassed⟩
    have hlocal : (nextRound cell after (Function.update localHistogram cell 0)).localHistogram =
        Function.update localHistogram cell 0 := nextRound_localHistogram hpassed
    change (nextRound cell after (Function.update localHistogram cell 0)).localHistogram + _ = _
    rw [hlocal, ← hcounted]
    exact mergeStep_sum localHistogram globalHistogram cell

theorem reachable_conserved {files : String → Option (List UInt8)} {paths : List String}
    {s : Moment} (h : Reachable (sequential files paths) s) : Conserved s := by
  apply h.invariant
  · rintro s rfl
    exact ⟨rfl, trivial⟩
  · rintro s s' - hs ⟨_, hround⟩
    exact hs.round hround

theorem fhistogramMain_count (files : String → Option (List UInt8))
    (entries : List (FtsInfo × String)) :
    fhistogramMain files entries = count (readable files (ftsJobs entries)) := by
  have hcounted := (reachable_conserved (reachable_end files entries)).counted
  rw [← hcounted]
  exact (zero_add _).symm

end CompSys.Histograms
