import CompSys.HistogramSteps
import CompSys.WorkersHistogram

/-!
# What the histograms of A2 count

The sequential and the parallel program count the bits of the bytes that they have read, at
every point of a run: what a worker has not merged yet is in its local histogram, and what
the global histogram lacks has been overwritten by a store. With one worker nothing is.
-/
namespace CompSys.Workers.Merging

open Histograms Transition

variable {n : ℕ}

def Phase.localHistogram : Phase → Histogram
  | .reading _ _ localHistogram | .loading _ _ localHistogram
  | .storing _ _ _ localHistogram => localHistogram
  | _ => 0

/-- The byte that a step reads. -/
def bytesOf (s : State n) : Label n → List UInt8
  | .read t =>
    match s.threads t with
    | .reading (c :: _) _ _ => [c]
    | _ => []
  | _ => []

/-- The bytes that the steps of a run read. -/
def readAlong (files : String → Option (List UInt8)) (jobs : List String) :
    State n → List (Label n) → List UInt8
  | _, [] => []
  | s, label :: labels =>
    bytesOf s label ++
      match step files jobs s label with
      | some s' => readAlong files jobs s' labels
      | none => []

/-- All counts that there are. -/
def total (s : State n) : Histogram :=
  ∑ t, (s.threads t).localHistogram + s.globalHistogram + s.lost

section Steps

variable {files : String → Option (List UInt8)} {jobs : List String} {memory : ℕ → String}
  {s s' : State n}

/-- Only the histogram of one worker changes, and with it the shared ones. -/
theorem total_phase (s : State n) (t : Fin n) (phase : Phase) (globalHistogram lost : Histogram) :
    total { s.phase t phase with globalHistogram := globalHistogram, lost := lost } =
      ∑ u, (s.threads u).localHistogram +
        (phase.localHistogram - (s.threads t).localHistogram) + globalHistogram + lost := by
  have hsum := sum_change (f := fun u => (s.threads u).localHistogram)
    (g := fun u => ((s.phase t phase).threads u).localHistogram) t fun u hu => by
      simp [State.phase, hu]
  have hself : (s.phase t phase).threads t = phase := Function.update_self _ _ _
  simp only [hself] at hsum
  unfold total
  rw [← hsum]

theorem nextCell_localHistogram {cell : Fin 8} {after : Option (List UInt8 × BitVec 32)}
    {localHistogram : Histogram} (h : ZeroBefore cell localHistogram) :
    (nextCell cell after (Function.update localHistogram cell 0)).localHistogram =
      Function.update localHistogram cell 0 := by
  unfold nextCell
  split
  case isTrue => rfl
  case isFalse hlast =>
    rw [h.last hlast]
    split <;> rfl

/-- A worker goes on with its histogram as it is. -/
theorem total_same {t : Fin n} {phase : Phase}
    (h : phase.localHistogram = (s.threads t).localHistogram) : total (s.phase t phase) = total s := by
  have hphase := total_phase s t phase s.globalHistogram s.lost
  rw [h, sub_self, add_zero] at hphase
  exact hphase

/-- A step adds the byte that it reads to the counts. -/
theorem total_step {label : Label n} (h : Counted files jobs memory s)
    (hstep : step files jobs s label = some s') : total s' = total s + count (bytesOf s label) := by
  cases moves_of_step hstep with
  | run label p other moves => exact (add_zero _).symm
  | finish t p finished moves =>
    have hsame : total (s.phase t .outside) = total s := total_same (by rw [finished]; rfl)
    exact hsame.trans (add_zero _).symm
  | missing t path processing outside missing =>
    exact (total_same (by rw [outside]; rfl)).trans (add_zero _).symm
  | start t path bytes processing outside opened =>
    exact (total_same (by rw [outside]; rfl)).trans (add_zero _).symm
  | close t i localHistogram reading =>
    rw [bytesOf, reading]
    exact (total_same (by rw [reading]; rfl)).trans (add_zero _).symm
  | read t c rest i localHistogram phase reading next =>
    have hlocal : phase.localHistogram = localHistogram + bits c := by
      rw [← updateHistogram_eq]
      rcases next with rfl | rfl <;> rfl
    have hphase := total_phase s t phase s.globalHistogram s.lost
    rw [hlocal, reading] at hphase
    rw [bytesOf, reading]
    refine hphase.trans ?_
    change ∑ u, (s.threads u).localHistogram + (localHistogram + bits c - localHistogram) +
      s.globalHistogram + s.lost = total s + count [c]
    rw [count_cons, count_nil, total]
    abel
  | load t cell after localHistogram loading =>
    exact (total_same (by rw [loading]; rfl)).trans (add_zero _).symm
  | store t cell loaded after localHistogram storing =>
    have hpassed := h.passed t
    rw [storing] at hpassed
    have hlocal : (nextCell cell after (Function.update localHistogram cell 0)).localHistogram =
        Function.update localHistogram cell 0 := nextCell_localHistogram hpassed
    rw [total_phase, hlocal, storing]
    funext k
    by_cases hk : k = cell
    · subst hk
      simp [bytesOf, total, Phase.localHistogram]
      abel
    · simp [bytesOf, total, Phase.localHistogram, hk]

/-- In a run the counts grow by the bytes that are read. -/
theorem total_along {labels : List (Label n)} (h : Counted files jobs memory s)
    (hrun : labels.foldlM (step files jobs) s = some s') :
    total s' = total s + count (readAlong files jobs s labels) := by
  induction labels generalizing s with
  | nil =>
    cases hrun
    exact (add_zero _).symm
  | cons label labels ih =>
    obtain ⟨s₁, hstep, hrest⟩ := run_cons.mp hrun
    rw [readAlong, hstep, ih (h.step hstep) hrest, total_step h hstep, count_append, add_assoc]

theorem total_initial (memory : ℕ → String) : total (initial n memory) = 0 := by
  simp [total, initial, Phase.localHistogram]

end Steps

/-- At every point of a run of any number of workers, all local histograms together with the
global one count what was read, but for what the stores have overwritten. -/
theorem counted_along {files : String → Option (List UInt8)} {jobs : List String}
    {memory : ℕ → String} {labels : List (Label n)} {s : State n}
    (hrun : labels.foldlM (step files jobs) (initial n memory) = some s) :
    ∑ t, (s.threads t).localHistogram + s.globalHistogram + s.lost =
      count (readAlong files jobs (initial n memory) labels) := by
  have htotal := total_along (counted_initial files jobs memory) hrun
  rw [total_initial, zero_add] at htotal
  exact htotal

/-- The global histogram of the sequential program, and of the parallel one with one worker,
counts the bytes of the readable files; and at every point of their runs the local and the
global histogram count the bytes that were read. -/
theorem histogram_conserved (files : String → Option (List UInt8))
    (entries : List (FtsInfo × String)) :
    (∀ b, fhistogramMain files entries b =
      BitVec.ofNat 32 (bitCount (readable files (ftsJobs entries)) b)) ∧
    Reachable (sequential files (ftsJobs entries))
      ⟨.between, [], fhistogramMain files entries, readable files (ftsJobs entries)⟩ ∧
    (∀ s, Reachable (sequential files (ftsJobs entries)) s → ∀ b,
      s.phase.localHistogram b + s.globalHistogram b =
        BitVec.ofNat 32 (bitCount s.bytesRead b)) ∧
    ∀ (memory : ℕ → String) (labels : List (Label 1)) (s : State 1),
      labels.foldlM (step files (ftsJobs entries)) (initial 1 memory) = some s →
        (∀ b, (s.threads 0).localHistogram b + s.globalHistogram b = BitVec.ofNat 32
          (bitCount (readAlong files (ftsJobs entries) (initial 1 memory) labels) b)) ∧
        (s.program.main = .done → ∀ b, s.globalHistogram b =
          BitVec.ofNat 32 (bitCount (readable files (ftsJobs entries)) b)) := by
  refine ⟨?_, reachable_end files entries, ?_, ?_⟩
  · intro b
    rw [fhistogramMain_count, count_apply]
  · intro s hs b
    rw [← count_apply, ← (reachable_conserved hs).counted]
    rfl
  · intro memory labels s hrun
    constructor
    · intro b
      have hcounted := counted_along hrun
      rw [lost_of_respects (guarded_of_apart (respects_of_forall apart_of_one labels _)) hrun,
        Fin.sum_univ_one, add_zero] at hcounted
      rw [← count_apply, ← hcounted]
      rfl
    · intro hdone b
      rw [one_worker_agrees files entries memory labels s hrun hdone, fhistogramMain_count,
        count_apply]

end CompSys.Workers.Merging
