import CompSys.Histogram
import CompSys.WorkersOnce

/-!
# The parallel histogram of A2

In `fhistogram-mt.c` the workers merge their histograms into one global histogram without
a lock: `to[i] += from[i]` loads the counter and stores the sum in a step of its own. What
a store finds changed since the load is lost.
-/
namespace CompSys.Workers.Merging

open JobQueue Histograms Transition

variable {n : ℕ}

/-- Where a worker stands in `fhistogram`. A merge goes on with the rest of the file and the
number of bytes read, or it is the last. -/
inductive Phase where
  | outside
  | reading (rest : List UInt8) (i : BitVec 32) (localHistogram : Histogram)
  | loading (cell : Fin 8) (after : Option (List UInt8 × BitVec 32)) (localHistogram : Histogram)
  | storing (cell : Fin 8) (loaded : BitVec 32) (after : Option (List UInt8 × BitVec 32))
    (localHistogram : Histogram)
  | finished

/-- The program with its histograms, and with what the stores have overwritten. -/
structure State (n : ℕ) where
  program : Workers.State n String
  globalHistogram : Histogram
  threads : Fin n → Phase
  lost : Histogram

inductive Label (n : ℕ) where
  | run (label : Workers.Label n)
  | start (t : Fin n)
  | read (t : Fin n)
  | load (t : Fin n)
  | store (t : Fin n)

def initial (n : ℕ) (memory : ℕ → String) : State n :=
  ⟨Workers.initial n memory, 0, fun _ => .outside, 0⟩

def State.phase (s : State n) (t : Fin n) (phase : Phase) : State n :=
  { s with threads := Function.update s.threads t phase }

/-- After a cell comes the next one, or what follows `merge_histogram`. -/
def nextCell (cell : Fin 8) (after : Option (List UInt8 × BitVec 32)) (localHistogram : Histogram) :
    Phase :=
  if h : cell.val + 1 < 8 then .loading ⟨cell.val + 1, h⟩ after localHistogram
  else
    match after with
    | some (rest, i) => .reading rest i localHistogram
    | none => .finished

def step (files : String → Option (List UInt8)) (jobs : List String) (s : State n) :
    Label n → Option (State n)
  | .run (.process t) =>
    match s.threads t with
    | .finished =>
      (Workers.step jobs s.program (.process t)).map fun p => { s.phase t .outside with program := p }
    | _ => none
  | .run label => (Workers.step jobs s.program label).map fun p => { s with program := p }
  | .start t =>
    match s.program.workers t, s.threads t with
    | .processing path, .outside =>
      match files path with
      | none => some (s.phase t .finished)
      | some bytes => some (s.phase t (.reading bytes 0 0))
    | _, _ => none
  | .read t =>
    match s.threads t with
    | .reading [] _ localHistogram => some (s.phase t (.loading 0 none localHistogram))
    | .reading (c :: rest) i localHistogram =>
      let i := i + 1
      let localHistogram := updateHistogram localHistogram c
      if i.srem 200000 = 0 then some (s.phase t (.loading 0 (some (rest, i)) localHistogram))
      else some (s.phase t (.reading rest i localHistogram))
    | _ => none
  | .load t =>
    match s.threads t with
    | .loading cell after localHistogram =>
      some (s.phase t (.storing cell (s.globalHistogram cell) after localHistogram))
    | _ => none
  | .store t =>
    match s.threads t with
    | .storing cell loaded after localHistogram =>
      some { s.phase t (nextCell cell after (Function.update localHistogram cell 0)) with
        globalHistogram :=
          Function.update s.globalHistogram cell (loaded + localHistogram cell)
        lost := Function.update s.lost cell
          (s.lost cell + (s.globalHistogram cell - loaded)) }
    | _ => none

/-- What a worker has loaded and not stored yet. -/
def Phase.held : Phase → Option (Fin 8 × BitVec 32)
  | .storing cell loaded _ _ => some (cell, loaded)
  | _ => none

/-- A store finds the value that was loaded. -/
def Guarded (s : State n) : Label n → Prop
  | .store t => ∀ e ∈ (s.threads t).held, s.globalHistogram e.1 = e.2
  | _ => True

instance (s : State n) (label : Label n) : Decidable (Guarded s label) :=
  match label with
  | .store t =>
    match h : (s.threads t).held with
    | none => .isTrue (by simp [Guarded, h])
    | some e => decidable_of_iff (s.globalHistogram e.1 = e.2) (by simp [Guarded, h])
  | .run _ | .start _ | .read _ | .load _ => .isTrue trivial

/-- No worker loads a cell that another one has loaded and not stored yet. -/
def Apart (s : State n) : Label n → Prop
  | .load t => ∀ cell after localHistogram, s.threads t = .loading cell after localHistogram →
      ∀ u loaded, (s.threads u).held ≠ some (cell, loaded)
  | _ => True

/-- What a step can do. -/
inductive Moves (files : String → Option (List UInt8)) (jobs : List String) (s : State n) :
    Label n → State n → Prop where
  | run (label : Workers.Label n) (p : Workers.State n String) (other : ∀ t, label ≠ .process t)
      (moves : Workers.Moves jobs s.program label p) :
    Moves files jobs s (.run label) { s with program := p }
  | finish (t : Fin n) (p : Workers.State n String) (finished : s.threads t = .finished)
      (moves : Workers.Moves jobs s.program (.process t) p) :
    Moves files jobs s (.run (.process t)) { s.phase t .outside with program := p }
  | missing (t : Fin n) (path : String) (processing : s.program.workers t = .processing path)
      (outside : s.threads t = .outside) (missing : files path = none) :
    Moves files jobs s (.start t) (s.phase t .finished)
  | start (t : Fin n) (path : String) (bytes : List UInt8)
      (processing : s.program.workers t = .processing path) (outside : s.threads t = .outside)
      (opened : files path = some bytes) :
    Moves files jobs s (.start t) (s.phase t (.reading bytes 0 0))
  | close (t : Fin n) (i : BitVec 32) (localHistogram : Histogram)
      (reading : s.threads t = .reading [] i localHistogram) :
    Moves files jobs s (.read t) (s.phase t (.loading 0 none localHistogram))
  | read (t : Fin n) (c : UInt8) (rest : List UInt8) (i : BitVec 32) (localHistogram : Histogram)
      (phase : Phase) (reading : s.threads t = .reading (c :: rest) i localHistogram)
      (next : phase = .reading rest (i + 1) (updateHistogram localHistogram c) ∨
        phase = .loading 0 (some (rest, i + 1)) (updateHistogram localHistogram c)) :
    Moves files jobs s (.read t) (s.phase t phase)
  | load (t : Fin n) (cell : Fin 8) (after : Option (List UInt8 × BitVec 32))
      (localHistogram : Histogram) (loading : s.threads t = .loading cell after localHistogram) :
    Moves files jobs s (.load t)
      (s.phase t (.storing cell (s.globalHistogram cell) after localHistogram))
  | store (t : Fin n) (cell : Fin 8) (loaded : BitVec 32)
      (after : Option (List UInt8 × BitVec 32)) (localHistogram : Histogram)
      (storing : s.threads t = .storing cell loaded after localHistogram) :
    Moves files jobs s (.store t)
      { s.phase t (nextCell cell after (Function.update localHistogram cell 0)) with
        globalHistogram := Function.update s.globalHistogram cell (loaded + localHistogram cell)
        lost := Function.update s.lost cell
          (s.lost cell + (s.globalHistogram cell - loaded)) }

theorem moves_of_step {files : String → Option (List UInt8)} {jobs : List String} {s s' : State n}
    {label : Label n} (h : step files jobs s label = some s') : Moves files jobs s label s' := by
  cases label with
  | run label =>
    cases label with
    | process t =>
      simp only [step] at h
      split at h
      case h_1 finished =>
        obtain ⟨p, hp, rfl⟩ := Option.map_eq_some_iff.mp h
        exact .finish t p finished (Workers.moves_of_step hp)
      case h_2 => cases h
    | create | endOfInput | join | call | resume | wake =>
      obtain ⟨p, hp, rfl⟩ := Option.map_eq_some_iff.mp h
      exact .run _ p (by simp) (Workers.moves_of_step hp)
  | start t =>
    simp only [step] at h
    split at h
    case h_1 path processing outside =>
      split at h <;> cases h
      · exact .missing t path processing outside ‹_›
      · exact .start t path _ processing outside ‹_›
    case h_2 => cases h
  | read t =>
    simp only [step] at h
    split at h
    case h_1 reading =>
      cases h
      exact .close t _ _ reading
    case h_2 c rest i localHistogram reading =>
      split at h <;> cases h
      · exact .read t c rest i localHistogram _ reading (.inr rfl)
      · exact .read t c rest i localHistogram _ reading (.inl rfl)
    case h_3 => cases h
  | load t =>
    simp only [step] at h
    split at h <;> cases h
    exact .load t _ _ _ ‹_›
  | store t =>
    simp only [step] at h
    split at h <;> cases h
    exact .store t _ _ _ _ ‹_›

/-! ## What is still to be merged -/

/-- What the rest of `fhistogram` adds to the global histogram. -/
def Phase.rest : Phase → Histogram
  | .reading rest _ localHistogram => localHistogram + count rest
  | .loading _ after localHistogram | .storing _ _ after localHistogram =>
    localHistogram + count ((after.map Prod.fst).getD [])
  | _ => 0

/-- The cells that a merge has passed are zero. -/
def Phase.Passed : Phase → Prop
  | .loading cell _ localHistogram | .storing cell _ _ localHistogram =>
    ∀ k < cell, localHistogram k = 0
  | _ => True

/-- What a worker has merged of the file that it processes. -/
def merged (files : String → Option (List UInt8)) : WorkerPc String → Phase → Histogram
  | _, .outside => 0
  | .processing path, phase => fileCount files path - phase.rest
  | _, _ => 0

theorem merged_processing {files : String → Option (List UInt8)} {path : String} {phase : Phase}
    (h : phase ≠ .outside) :
    merged files (.processing path) phase = fileCount files path - phase.rest := by
  cases phase with
  | outside => exact absurd rfl h
  | reading | loading | storing | finished => rfl

theorem passed_nextCell {cell : Fin 8} {after : Option (List UInt8 × BitVec 32)}
    {localHistogram : Histogram} (h : ZeroBefore cell localHistogram) :
    (nextCell cell after (Function.update localHistogram cell 0)).Passed := by
  unfold nextCell
  split
  case isTrue hlt => exact h.next hlt
  case isFalse => split <;> trivial

/-- After the last cell nothing of the local histogram is left. -/
theorem rest_nextCell {cell : Fin 8} {after : Option (List UInt8 × BitVec 32)}
    {localHistogram : Histogram} (h : ZeroBefore cell localHistogram) :
    (nextCell cell after (Function.update localHistogram cell 0)).rest =
      Function.update localHistogram cell 0 + count ((after.map Prod.fst).getD []) := by
  unfold nextCell
  split
  case isTrue => rfl
  case isFalse hlast =>
    split
    case h_1 => rfl
    case h_2 =>
      rw [h.last hlast]
      simp [Phase.rest]

/-- What the histograms show of a run: nothing is counted twice, and what is missing is lost
or still to be merged. -/
structure Counted (files : String → Option (List UInt8)) (jobs : List String)
    (memory : ℕ → String) (s : State n) : Prop where
  program : Inv jobs memory s.program
  busy : ∀ t, s.threads t ≠ .outside → ∃ path, s.program.workers t = .processing path
  passed : ∀ t, (s.threads t).Passed
  counted : s.globalHistogram + s.lost =
    (s.program.processed.map fun e => fileCount files e.2).sum +
      ∑ t, merged files (s.program.workers t) (s.threads t)

/-- A sum of which one term changes. -/
theorem sum_change {M : Type*} [AddCommGroup M] {f g : Fin n → M} (t : Fin n)
    (h : ∀ u, u ≠ t → g u = f u) : ∑ u, g u = ∑ u, f u + (g t - f t) := by
  rw [← Finset.add_sum_erase _ g (Finset.mem_univ t), ← Finset.add_sum_erase _ f (Finset.mem_univ t),
    Finset.sum_congr rfl fun u hu => h u (Finset.ne_of_mem_erase hu)]
  abel

section Steps

variable {files : String → Option (List UInt8)} {jobs : List String} {memory : ℕ → String}
  {s s' : State n}

theorem counted_initial (files : String → Option (List UInt8)) (jobs : List String)
    (memory : ℕ → String) : Counted files jobs memory (initial n memory : State n) where
  program := initial_inv jobs memory
  busy t h := absurd rfl h
  passed t := trivial
  counted := by
    simp [initial, Workers.initial, merged]

/-- A worker moves on in `fhistogram`, and the histograms with it. -/
theorem Counted.thread (h : Counted files jobs memory s) {t : Fin n} {path : String} {phase : Phase}
    {globalHistogram lost : Histogram} (hworker : s.program.workers t = .processing path)
    (hpassed : phase.Passed)
    (hchange : globalHistogram + lost = s.globalHistogram + s.lost +
      (merged files (.processing path) phase - merged files (.processing path) (s.threads t))) :
    Counted files jobs memory
      { s.phase t phase with globalHistogram := globalHistogram, lost := lost } where
  program := h.program
  busy u hu := by
    by_cases heq : u = t
    · exact ⟨path, heq ▸ hworker⟩
    · simp only [State.phase, Function.update_of_ne heq] at hu
      exact h.busy u hu
  passed u := by
    by_cases heq : u = t
    · rw [heq]
      simpa [State.phase] using hpassed
    · simpa [State.phase, heq] using h.passed u
  counted := by
    have hsum : ∑ u, merged files (s.program.workers u) ((s.phase t phase).threads u) =
        ∑ u, merged files (s.program.workers u) (s.threads u) +
          (merged files (s.program.workers t) ((s.phase t phase).threads t) -
            merged files (s.program.workers t) (s.threads t)) := by
      apply sum_change
      intro u hu
      simp [State.phase, hu]
    have hself : (s.phase t phase).threads t = phase := Function.update_self _ _ _
    rw [hself, hworker] at hsum
    change globalHistogram + lost = _ +
      ∑ u, merged files (s.program.workers u) ((s.phase t phase).threads u)
    rw [hchange, h.counted, hsum, add_assoc]
    rfl

/-- Steps that merge nothing. -/
theorem Counted.unmerged (h : Counted files jobs memory s) {t : Fin n} {phase : Phase}
    (hpassed : phase.Passed) (hbefore : s.threads t ≠ .outside) (hafter : phase ≠ .outside)
    (hrest : phase.rest = (s.threads t).rest) : Counted files jobs memory (s.phase t phase) := by
  obtain ⟨path, hworker⟩ := h.busy t hbefore
  apply h.thread hworker hpassed
  rw [merged_processing hafter, merged_processing hbefore, hrest, sub_self, add_zero]

theorem Counted.opened (h : Counted files jobs memory s) {t : Fin n} {path : String} {phase : Phase}
    (hworker : s.program.workers t = .processing path) (hpassed : phase.Passed)
    (hbefore : s.threads t = .outside) (hafter : phase ≠ .outside)
    (hrest : phase.rest = fileCount files path) : Counted files jobs memory (s.phase t phase) := by
  apply h.thread hworker hpassed
  rw [merged_processing hafter, hbefore, hrest]
  simp [merged]

theorem Counted.store (h : Counted files jobs memory s) {t : Fin n} {cell : Fin 8}
    {loaded : BitVec 32} {after : Option (List UInt8 × BitVec 32)} {localHistogram : Histogram}
    (hstoring : s.threads t = .storing cell loaded after localHistogram) :
    Counted files jobs memory
      { s.phase t (nextCell cell after (Function.update localHistogram cell 0)) with
        globalHistogram := Function.update s.globalHistogram cell (loaded + localHistogram cell)
        lost := Function.update s.lost cell
          (s.lost cell + (s.globalHistogram cell - loaded)) } := by
  have hbefore : s.threads t ≠ .outside := by
    rw [hstoring]
    simp
  have hafter : nextCell cell after (Function.update localHistogram cell 0) ≠ .outside := by
    unfold nextCell
    split
    · simp
    · split <;> simp
  have hzero := h.passed t
  rw [hstoring] at hzero
  obtain ⟨path, hworker⟩ := h.busy t hbefore
  apply h.thread hworker (passed_nextCell hzero)
  rw [merged_processing hafter, merged_processing hbefore, hstoring, rest_nextCell hzero]
  funext k
  by_cases hk : k = cell
  · subst hk
    simp [Phase.rest]
    abel
  · simp [Phase.rest, hk]

theorem merged_outside (pc : WorkerPc String) : merged files pc .outside = 0 := by
  cases pc <;> rfl

/-- A step of the program other than the end of a job leaves the jobs alone that are being
processed. -/
theorem program_keeps {p p' : Workers.State n String} {label : Workers.Label n}
    (h : Inv jobs memory p) (hmoves : Workers.Moves jobs p label p')
    (hother : ∀ t, label ≠ .process t) :
    p'.processed = p.processed ∧
      ∀ t path, p.workers t = .processing path → p'.workers t = .processing path := by
  have hsection : ∀ (t : Tid n) c r, p.call t = some c →
      ∀ u path, p.workers u = .processing path → (p.ran t c r).workers u = .processing path := by
    intro t c r hcall u path hprocessing
    rw [ran_other]
    · exact hprocessing
    · rintro rfl
      rw [(call_worker hcall).1] at hprocessing
      cases hprocessing
  cases hmoves with
  | @create i creating more =>
    have hnew := h.fresh ⟨i, more⟩ (by simp [creating, MainPc.created])
    refine ⟨rfl, ?_⟩
    intro t path hprocessing
    exact update_kept (by simp [hnew]) hprocessing .popping
  | created | endOfInput | join | joined | wake => exact ⟨rfl, fun _ _ hprocessing => hprocessing⟩
  | process => exact absurd rfl (hother _)
  | @call t c r calling _ _ => exact ⟨ran_processed p t c r, hsection t c r calling⟩
  | @resume t c on r waiting _ =>
    exact ⟨ran_processed p t c r, hsection t c r (h.call t c on true waiting)⟩

theorem Counted.run (h : Counted files jobs memory s) {label : Workers.Label n}
    {p : Workers.State n String} (hmoves : Workers.Moves jobs s.program label p)
    (hprogram : Inv jobs memory p) (hother : ∀ t, label ≠ .process t) :
    Counted files jobs memory { s with program := p } := by
  obtain ⟨hprocessed, hkept⟩ := program_keeps h.program hmoves hother
  refine ⟨hprogram, ?_, h.passed, ?_⟩
  · intro t ht
    obtain ⟨path, hworker⟩ := h.busy t ht
    exact ⟨path, hkept t path hworker⟩
  · have hsame : ∀ t, merged files (p.workers t) (s.threads t) =
        merged files (s.program.workers t) (s.threads t) := by
      intro t
      by_cases ht : s.threads t = .outside
      · rw [ht, merged_outside, merged_outside]
      · obtain ⟨path, hworker⟩ := h.busy t ht
        rw [hworker, hkept t path hworker]
    simp only [hprocessed, hsame]
    exact h.counted

/-- At the end of a job what has been merged of its file is the whole file. -/
theorem Counted.finish (h : Counted files jobs memory s) {t : Fin n} {p : Workers.State n String}
    (hfinished : s.threads t = .finished)
    (hmoves : Workers.Moves jobs s.program (.process t) p) (hprogram : Inv jobs memory p) :
    Counted files jobs memory { s.phase t .outside with program := p } := by
  cases hmoves with
  | @process _ job processing =>
    refine ⟨hprogram, ?_, ?_, ?_⟩
    · intro u hu
      by_cases heq : u = t
      · simp [State.phase, heq] at hu
      · simp only [State.phase, Function.update_of_ne heq] at hu
        obtain ⟨path, hworker⟩ := h.busy u hu
        exact ⟨path, by simpa [heq] using hworker⟩
    · intro u
      by_cases heq : u = t
      · simp [State.phase, heq, Phase.Passed]
      · simpa [State.phase, heq] using h.passed u
    · have hsum : ∑ u, merged files (Function.update s.program.workers t .popping u)
            (Function.update s.threads t .outside u) =
          ∑ u, merged files (s.program.workers u) (s.threads u) + (0 - fileCount files job) := by
        rw [sum_change t (f := fun u => merged files (s.program.workers u) (s.threads u))]
        · simp [processing, hfinished, merged, Phase.rest]
        · intro u hu
          simp [hu]
      change s.globalHistogram + s.lost =
        ((s.program.processed ++ [(t, job)]).map fun e => fileCount files e.2).sum +
          ∑ u, merged files (Function.update s.program.workers t .popping u)
            (Function.update s.threads t .outside u)
      rw [hsum, h.counted, List.map_append, List.sum_append, List.map_singleton, List.sum_singleton]
      abel

theorem Counted.step {label : Label n} (h : Counted files jobs memory s)
    (hstep : step files jobs s label = some s') : Counted files jobs memory s' := by
  cases moves_of_step hstep with
  | run label p other moves => exact h.run moves (moves_inv h.program moves) other
  | finish t p finished moves => exact h.finish finished moves (moves_inv h.program moves)
  | missing t path processing outside missing =>
    refine h.opened processing trivial outside (by simp) ?_
    simp [Phase.rest, fileCount, missing]
  | start t path bytes processing outside opened =>
    refine h.opened processing trivial outside (by simp) ?_
    simp [Phase.rest, fileCount, opened]
  | close t i localHistogram reading =>
    apply h.unmerged
    · intro k hk
      exact absurd hk (Fin.not_lt_zero k)
    · simp [reading]
    · simp
    · simp [Phase.rest, reading]
  | read t c rest i localHistogram phase reading next =>
    rcases next with rfl | rfl
    · apply h.unmerged
      · trivial
      · simp [reading]
      · simp
      · simp [Phase.rest, reading, updateHistogram_eq, add_assoc]
    · apply h.unmerged
      · intro k hk
        exact absurd hk (Fin.not_lt_zero k)
      · simp [reading]
      · simp
      · simp [Phase.rest, reading, updateHistogram_eq, add_assoc]
  | load t cell after localHistogram loading =>
    apply h.unmerged
    · have hpassed := h.passed t
      rw [loading] at hpassed
      exact hpassed
    · simp [loading]
    · simp
    · simp [Phase.rest, loading]
  | store t cell loaded after localHistogram storing => exact h.store storing

/-- When main is done, nothing is still to be merged. -/
theorem Counted.done (h : Counted files jobs memory s) (hdone : s.program.main = .done) :
    s.globalHistogram + s.lost = (jobs.map (fileCount files)).sum := by
  have hexited : ∀ t, s.program.workers t = .exited :=
    fun t => h.program.joined t (by simp [hdone, MainPc.joined])
  have hsum : ∑ t, merged files (s.program.workers t) (s.threads t) = 0 := by
    refine Finset.sum_eq_zero fun t _ => ?_
    rw [hexited t]
    cases s.threads t <;> rfl
  have hjobs := (h.program.exactlyOnce.1 hdone).map (fileCount files)
  rw [List.map_map] at hjobs
  rw [h.counted, hsum, add_zero]
  exact hjobs.sum_eq

theorem lost_step {label : Label n} (hlost : s.lost = 0) (hguard : Guarded s label)
    (hstep : Merging.step files jobs s label = some s') : s'.lost = 0 := by
  cases moves_of_step hstep with
  | store t cell loaded after localHistogram storing =>
    have hfound : s.globalHistogram cell = loaded :=
      hguard (cell, loaded) (by simp [storing, Phase.held])
    funext k
    by_cases hk : k = cell <;> simp [hk, hlost, hfound]
  | run | finish | missing | start | close | read | load => exact hlost

end Steps

/-! ## Merges that do not overlap -/

section Apart

variable {files : String → Option (List UInt8)} {jobs : List String} {s s' : State n}

/-- What has been loaded is still there, and only one worker has loaded it. -/
structure Fresh (s : State n) : Prop where
  fresh : ∀ t cell loaded, (s.threads t).held = some (cell, loaded) →
    s.globalHistogram cell = loaded
  apart : ∀ t u cell loaded loaded', (s.threads t).held = some (cell, loaded) →
    (s.threads u).held = some (cell, loaded') → t = u

theorem Fresh.phase (h : Fresh s) (t : Fin n) {phase : Phase} (hphase : phase.held = none) :
    Fresh (s.phase t phase) := by
  have hheld : ∀ u e, ((s.phase t phase).threads u).held = some e →
      (s.threads u).held = some e := by
    intro u e hu
    by_cases heq : u = t
    · simp [State.phase, heq, hphase] at hu
    · simpa [State.phase, heq] using hu
  constructor
  · intro u cell loaded hu
    exact h.fresh u cell loaded (hheld u _ hu)
  · intro u v cell loaded loaded' hu hv
    exact h.apart u v cell loaded loaded' (hheld u _ hu) (hheld v _ hv)

theorem held_nextCell (cell : Fin 8) (after : Option (List UInt8 × BitVec 32))
    (localHistogram : Histogram) : (nextCell cell after localHistogram).held = none := by
  unfold nextCell
  split
  · rfl
  · split <;> rfl

theorem Fresh.step {label : Label n} (h : Fresh s) (hapart : Apart s label)
    (hstep : Merging.step files jobs s label = some s') : Fresh s' := by
  cases moves_of_step hstep with
  | run label p other moves => exact ⟨h.fresh, h.apart⟩
  | finish t p finished moves =>
    have hphase : Fresh (s.phase t .outside) := h.phase t rfl
    exact ⟨hphase.fresh, hphase.apart⟩
  | missing t path processing outside missing => exact h.phase t rfl
  | start t path bytes processing outside opened => exact h.phase t rfl
  | close t i localHistogram reading => exact h.phase t rfl
  | read t c rest i localHistogram phase reading next =>
    apply h.phase t
    rcases next with rfl | rfl <;> rfl
  | load t cell after localHistogram loading =>
    have hothers := hapart cell after localHistogram loading
    have hheld : ∀ u, ((s.phase t (.storing cell (s.globalHistogram cell) after
        localHistogram)).threads u).held =
          if u = t then some (cell, s.globalHistogram cell) else (s.threads u).held := by
      intro u
      by_cases heq : u = t <;> simp [State.phase, heq, Phase.held]
    constructor
    · intro u cell' loaded' hu
      rw [hheld] at hu
      split at hu
      case isTrue =>
        cases hu
        rfl
      case isFalse => exact h.fresh u cell' loaded' hu
    · intro u v cell' loaded' loaded'' hu hv
      rw [hheld] at hu hv
      split at hu <;> split at hv
      case isTrue.isTrue heq heq' => rw [heq, heq']
      case isTrue.isFalse =>
        cases hu
        exact absurd hv (hothers v loaded'')
      case isFalse.isTrue =>
        cases hv
        exact absurd hu (hothers u loaded')
      case isFalse.isFalse => exact h.apart u v cell' loaded' loaded'' hu hv
  | store t cell loaded after localHistogram storing =>
    have hphase := h.phase t
      (held_nextCell cell after (Function.update localHistogram cell 0))
    refine ⟨?_, hphase.apart⟩
    intro u cell' loaded' hu
    have hnext : u ≠ t := by
      rintro rfl
      simp [State.phase, held_nextCell] at hu
    have hkept : (s.threads u).held = some (cell', loaded') := by
      simpa [State.phase, hnext] using hu
    have hcell : cell' ≠ cell := by
      rintro rfl
      have hmine : (s.threads t).held = some (cell', loaded) := by
        rw [storing]
        rfl
      exact hnext (h.apart u t cell' loaded' loaded hkept hmine)
    simp only [Function.update_of_ne hcell]
    exact h.fresh u cell' loaded' hkept

theorem fresh_initial (memory : ℕ → String) : Fresh (initial n memory) := by
  constructor
  · intro t cell loaded ht
    cases ht
  · intro t u cell loaded loaded' ht
    cases ht

/-- Merges of a cell that do not overlap lose nothing. -/
theorem guarded_of_apart {memory : ℕ → String} {labels : List (Label n)}
    (h : Respects (Merging.step files jobs) Apart (initial n memory) labels) :
    Respects (Merging.step files jobs) Guarded (initial n memory) labels := by
  refine h.weaken (fun _ _ _ => Fresh.step) ?_ (fresh_initial memory)
  intro s label hfresh _
  cases label with
  | store t => exact fun e he => hfresh.fresh t e.1 e.2 he
  | run | start | read | load => trivial

/-- A worker that is alone overlaps with nobody. -/
theorem apart_of_one (s : State 1) (label : Label 1) : Apart s label := by
  cases label with
  | load t =>
    intro cell after localHistogram loading u loaded
    rw [Subsingleton.elim u t, loading]
    simp [Phase.held]
  | run | start | read | store => trivial

end Apart

/-! ## Agreement -/

section Agreement

variable {files : String → Option (List UInt8)} {entries : List (FtsInfo × String)}
  {memory : ℕ → String} {labels : List (Label n)} {s : State n}

theorem agrees_iff
    (hrun : labels.foldlM (step files (ftsJobs entries)) (initial n memory) = some s)
    (hdone : s.program.main = .done) :
    s.globalHistogram = fhistogramMain files entries ↔ s.lost = 0 := by
  have hcounted : Counted files (ftsJobs entries) memory s :=
    run_invariant (fun _ _ _ => Counted.step) (counted_initial files (ftsJobs entries) memory) hrun
  rw [fhistogramMain_eq, ← hcounted.done hdone]
  exact left_eq_add

theorem lost_of_respects
    (h : Respects (step files (ftsJobs entries)) Guarded (initial n memory) labels)
    (hrun : labels.foldlM (step files (ftsJobs entries)) (initial n memory) = some s) :
    s.lost = 0 :=
  h.invariant (I := fun s => s.lost = 0) (fun _ _ _ => lost_step) rfl hrun

end Agreement

/-- In every run in which each store finds the value that was loaded, the global histogram
is the one of the sequential program when main is done. In any run it is less by what the
stores have overwritten. -/
theorem histograms_agree {n : ℕ} (files : String → Option (List UInt8))
    (entries : List (FtsInfo × String)) (memory : ℕ → String) (labels : List (Label n))
    (s : State n)
    (hrun : labels.foldlM (step files (ftsJobs entries)) (initial n memory) = some s)
    (hdone : s.program.main = .done) :
    (Respects (step files (ftsJobs entries)) Guarded (initial n memory) labels →
      s.globalHistogram = fhistogramMain files entries) ∧
    (s.globalHistogram = fhistogramMain files entries ↔ s.lost = 0) := by
  have hiff := agrees_iff hrun hdone
  exact ⟨fun hrespects => hiff.mpr (lost_of_respects hrespects hrun), hiff⟩

/-- The main thread from the creation of two workers to the pushes of their jobs. -/
def pushBoth : List (Label 2) :=
  [.run .create, .run .create, .run .create, .run (.call .main), .run (.call .main),
    .run .endOfInput, .run (.call (.worker 0)), .run (.call (.worker 1)), .start 0, .start 1,
    .read 0, .read 0, .read 1, .read 1]

/-- A worker merges so many cells. -/
def mergeCells (cells : ℕ) (t : Fin 2) : List (Label 2) :=
  (List.replicate cells [.load t, .store t]).flatten

def finishBoth : List (Label 2) :=
  [.run (.process 0), .run (.process 1), .run (.call .main), .run (.call (.worker 0)),
    .run (.call (.worker 1)), .run .join, .run .join, .run .join]

/-- What is looked at when main is done. -/
def doneWith (s : State 2) : Option (BitVec 32) :=
  match s.program.main with
  | .done => some (s.globalHistogram 0)
  | _ => none

theorem done_of_doneWith {s : State 2} {count : BitVec 32} (h : doneWith s = some count) :
    s.program.main = .done ∧ s.globalHistogram 0 = count := by
  unfold doneWith at h
  split at h
  case h_1 hdone =>
    cases h
    exact ⟨hdone, rfl⟩
  case h_2 => cases h

def inTurn : List (Label 2) := pushBoth ++ mergeCells 8 0 ++ mergeCells 8 1 ++ finishBoth

/-- Two files of one byte, whose histograms are merged one after the other. -/
theorem histograms_agree_two : ∃ s : State 2, s.program.main = .done ∧
    s.globalHistogram = fhistogramMain (fun _ => some [1]) [(.file, "a"), (.file, "b")] := by
  have hrun : (inTurn.foldlM (step (fun _ => some [1]) (ftsJobs [(.file, "a"), (.file, "b")]))
      (initial 2 fun _ => "")).map doneWith = some (some 2) := by
    decide +kernel
  obtain ⟨s, hlabels, hs⟩ := Option.map_eq_some_iff.mp hrun
  have hdone := (done_of_doneWith hs).1
  have hguarded : Respects (step (fun _ => some [1]) (ftsJobs [(.file, "a"), (.file, "b")])) Guarded
      (initial 2 fun _ => "") inTurn := by
    decide +kernel
  exact ⟨s, hdone, (histograms_agree (fun _ => some [1]) [(.file, "a"), (.file, "b")]
    (fun _ => "") inTurn s hlabels hdone).1 hguarded⟩

/-- Both workers load the first cell before one of them stores: a bit is lost. -/
theorem histograms_differ :
    ¬∀ (labels : List (Label 2)) (s : State 2),
      labels.foldlM (step (fun _ => some [1]) (ftsJobs [(.file, "a"), (.file, "b")]))
          (initial 2 fun _ => "") = some s →
        s.program.main = .done →
          s.globalHistogram = fhistogramMain (fun _ => some [1]) [(.file, "a"), (.file, "b")] := by
  intro hclaim
  have hrun : ((pushBoth ++ [Label.load 0, .load 1, .store 0, .store 1] ++ mergeCells 7 0 ++
      mergeCells 7 1 ++ finishBoth).foldlM
        (step (fun _ => some [1]) (ftsJobs [(.file, "a"), (.file, "b")]))
          (initial 2 fun _ => "")).map doneWith = some (some 1) := by
    decide +kernel
  obtain ⟨s, hlabels, hs⟩ := Option.map_eq_some_iff.mp hrun
  obtain ⟨hdone, hcount⟩ := done_of_doneWith hs
  have hsame := congrFun (hclaim _ s hlabels hdone) 0
  rw [hcount] at hsame
  exact absurd hsame (by decide +kernel)

/-- With one worker, which is the default, the programs agree in every run. -/
theorem one_worker_agrees (files : String → Option (List UInt8))
    (entries : List (FtsInfo × String)) (memory : ℕ → String) (labels : List (Label 1))
    (s : State 1)
    (hrun : labels.foldlM (step files (ftsJobs entries)) (initial 1 memory) = some s)
    (hdone : s.program.main = .done) : s.globalHistogram = fhistogramMain files entries := by
  have hapart : Respects (step files (ftsJobs entries)) Apart (initial 1 memory) labels :=
    respects_of_forall apart_of_one labels _
  exact (agrees_iff hrun hdone).mpr (lost_of_respects (guarded_of_apart hapart) hrun)

end CompSys.Workers.Merging
