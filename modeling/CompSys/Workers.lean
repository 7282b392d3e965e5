import CompSys.JobQueueFifo
import CompSys.JobQueueWakeups
import Mathlib.Data.Multiset.Basic
import Mathlib.Algebra.BigOperators.Fin

/-!
# The multithreaded programs of A2

`fauxgrep-mt`, `fhistogram-mt` and `fibs` share one structure: main creates the
workers, pushes every job, destroys the queue and joins the workers; a worker
pops and processes jobs until `job_queue_pop` returns non-zero. What processing
a job does is not looked at here, only that it happens.
-/
namespace CompSys.Workers

open JobQueue

universe u

variable {α : Type u} {n : Nat}

inductive Tid (n : Nat) where
  | main
  | worker (i : Fin n)
  deriving DecidableEq

/-- `pushing` carries the jobs main has not pushed yet. -/
inductive MainPc (α : Type u) where
  | creating (i : Nat)
  | pushing (rest : List α)
  | destroying
  | joining (i : Nat)
  | done

inductive WorkerPc (α : Type u) where
  | notCreated
  | popping
  | processing (job : α)
  | exited

structure State (n : Nat) (α : Type u) where
  jobs : JobQueue.State (Tid n) α
  main : MainPc α
  workers : Fin n → WorkerPc α
  processed : List (Fin n × α)

/-- All three mains use capacity 64. -/
def queueCapacity : Nat := 64

def initial (n : Nat) (memory : Nat → α) : State n α :=
  ⟨JobQueue.initial memory queueCapacity, .creating 0, fun _ => .notCreated, []⟩

/-- The queue function a thread is about to call or has called. -/
def State.call (s : State n α) : Tid n → Option (Call α)
  | .main =>
    match s.main with
    | .pushing (job :: _) => some (.push job)
    | .destroying => some .destroy
    | _ => none
  | .worker i =>
    match s.workers i with
    | .popping => some .pop
    | _ => none

def MainPc.returned : MainPc α → MainPc α
  | .pushing (_ :: rest) => .pushing rest
  | .destroying => .joining 0
  | pc => pc

/-- The branch on the result of `job_queue_pop`. -/
def WorkerPc.returned (code : Int) (data : Option α) : WorkerPc α :=
  match data with
  | some job => if code = 0 then .processing job else .exited
  | none => .exited

/-- A thread has run a critical section; a call that returns moves it on. -/
def State.ran (s : State n α) (t : Tid n) (c : Call α) (r : Section α) : State n α :=
  match r.exit, t with
  | .waits _, _ => { s with jobs := s.jobs.after t c r }
  | .returns _ _, .main => { s with jobs := s.jobs.after t c r, main := s.main.returned }
  | .returns code data, .worker i =>
    { s with
      jobs := s.jobs.after t c r
      workers := Function.update s.workers i (.returned code data) }

inductive Label (n : Nat) where
  | create
  | endOfInput
  | join
  | process (i : Fin n)
  | call (t : Tid n)
  | resume (t : Tid n)
  | wake (t : Tid n)

def step (jobs : List α) (s : State n α) : Label n → Option (State n α)
  | .create =>
    match s.main with
    | .creating i =>
      if h : i < n then
        some { s with main := .creating (i + 1), workers := Function.update s.workers ⟨i, h⟩ .popping }
      else
        some { s with main := .pushing jobs }
    | _ => none
  | .endOfInput =>
    match s.main with
    | .pushing [] => some { s with main := .destroying }
    | _ => none
  | .join =>
    match s.main with
    | .joining i =>
      if h : i < n then
        match s.workers ⟨i, h⟩ with
        | .exited => some { s with main := .joining (i + 1) }
        | _ => none
      else
        some { s with main := .done }
    | _ => none
  | .process i =>
    match s.workers i with
    | .processing job =>
      some { s with
        workers := Function.update s.workers i .popping
        processed := s.processed ++ [(i, job)] }
    | _ => none
  | .call t =>
    match s.call t, s.jobs.threads t with
    | some c, .outside => (enter c s.jobs.queue).map (s.ran t c)
    | _, _ => none
  | .resume t =>
    match s.jobs.threads t with
    | .waiting c _ true => (resume c s.jobs.queue).map (s.ran t c)
    | _ => none
  | .wake t => (JobQueue.step s.jobs (.wake t)).map fun jobs => { s with jobs := jobs }

/-- What a step can do. -/
inductive Moves (jobs : List α) (s : State n α) : Label n → State n α → Prop where
  | create {i : Nat} (creating : s.main = .creating i) (more : i < n) :
    Moves jobs s .create
      { s with main := .creating (i + 1), workers := Function.update s.workers ⟨i, more⟩ .popping }
  | created {i : Nat} (creating : s.main = .creating i) (all : ¬i < n) :
    Moves jobs s .create { s with main := .pushing jobs }
  | endOfInput (pushed : s.main = .pushing []) :
    Moves jobs s .endOfInput { s with main := .destroying }
  | join {i : Nat} (joining : s.main = .joining i) (more : i < n)
      (exited : s.workers ⟨i, more⟩ = .exited) :
    Moves jobs s .join { s with main := .joining (i + 1) }
  | joined {i : Nat} (joining : s.main = .joining i) (all : ¬i < n) :
    Moves jobs s .join { s with main := .done }
  | process {i : Fin n} {job : α} (processing : s.workers i = .processing job) :
    Moves jobs s (.process i)
      { s with
        workers := Function.update s.workers i .popping
        processed := s.processed ++ [(i, job)] }
  | call {t : Tid n} {c : Call α} {r : Section α} (calling : s.call t = some c)
      (outside : s.jobs.threads t = .outside) (entered : enter c s.jobs.queue = some r) :
    Moves jobs s (.call t) (s.ran t c r)
  | resume {t : Tid n} {c : Call α} {on : Cond} {r : Section α}
      (waiting : s.jobs.threads t = .waiting c on true)
      (resumed : resume c s.jobs.queue = some r) :
    Moves jobs s (.resume t) (s.ran t c r)
  | wake {t : Tid n} {c : Call α} {on : Cond} (waiting : s.jobs.threads t = .waiting c on false) :
    Moves jobs s (.wake t)
      { s with
        jobs := { s.jobs with threads := Function.update s.jobs.threads t (.waiting c on true) } }

theorem moves_of_step {jobs : List α} {s s' : State n α} {l : Label n}
    (h : step jobs s l = some s') : Moves jobs s l s' := by
  cases l with
  | create =>
    simp only [step] at h
    split at h
    case h_1 i creating =>
      split at h <;> cases h
      · exact .create creating ‹_›
      · exact .created creating ‹_›
    case h_2 => cases h
  | endOfInput =>
    simp only [step] at h
    split at h <;> cases h
    exact .endOfInput ‹_›
  | join =>
    simp only [step] at h
    split at h
    case h_1 i joining =>
      split at h
      case isTrue more =>
        split at h <;> cases h
        exact .join joining more ‹_›
      case isFalse all =>
        cases h
        exact .joined joining all
    case h_2 => cases h
  | process i =>
    simp only [step] at h
    split at h <;> cases h
    exact .process ‹_›
  | call t =>
    simp only [step] at h
    split at h
    case h_1 c calling outside =>
      obtain ⟨r, entered, rfl⟩ := Option.map_eq_some_iff.mp h
      exact .call calling outside entered
    case h_2 => cases h
  | resume t =>
    simp only [step] at h
    split at h
    case h_1 c on waiting =>
      obtain ⟨r, resumed, rfl⟩ := Option.map_eq_some_iff.mp h
      exact .resume waiting resumed
    case h_2 => cases h
  | wake t =>
    simp only [step, JobQueue.step] at h
    split at h
    case h_1 c on waiting =>
      cases h
      exact .wake waiting
    case h_2 => cases h

/-- Main and `n` workers on a list of jobs, under any interleaving. -/
def program (n : Nat) (jobs : List α) (memory : Nat → α) : Transition.System (State n α) :=
  Transition.ofStep (initial n memory) (step jobs)

/-- What `fts_read` reports about an entry; main looks at nothing else. -/
inductive FtsInfo where
  | directory
  | file
  | other
  deriving DecidableEq, Repr

/-- The switch on `fts_info`: the paths of the regular files are pushed. -/
def ftsJobs (entries : List (FtsInfo × String)) : List String :=
  entries.filterMap fun entry =>
    match entry.1 with
    | .directory => none
    | .file => some entry.2
    | .other => none

def fauxgrepMt (n : Nat) (entries : List (FtsInfo × String)) (memory : Nat → String) :
    Transition.System (State n String) :=
  program n (ftsJobs entries) memory

def fhistogramMt (n : Nat) (entries : List (FtsInfo × String)) (memory : Nat → String) :
    Transition.System (State n String) :=
  program n (ftsJobs entries) memory

/-- Every line of the standard input is pushed. -/
def fibs (n : Nat) (lines : List String) (memory : Nat → String) :
    Transition.System (State n String) :=
  program n lines memory

end CompSys.Workers
