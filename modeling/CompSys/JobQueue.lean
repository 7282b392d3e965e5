import CompSys.Transition
import Mathlib.Logic.Function.Basic

/-!
# The bounded job queue of A2

`job_queue.c` protects a ring buffer with one mutex and three condition
variables. A step of the model is one critical section: from taking the mutex
to giving it back, either by returning from the call or inside
`pthread_cond_wait`. A broadcast marks every waiter of that variable as woken;
a woken thread may take the mutex again at any later time and rechecks its
loop condition. A spurious wakeup marks any waiter. The destruction of the
mutex and of the condition variables has no effect on a step.
-/
namespace CompSys

universe u v

/-- `array` is `none` once it is freed and set to NULL. -/
structure JobQueue (α : Type u) where
  size : Nat
  head : Nat
  tail : Nat
  array : Option (Nat → α)
  filled : Nat
  destroy : Bool

namespace JobQueue

variable {T : Type v} {α : Type u}

inductive Cond where
  | notfull | notempty | empty
  deriving DecidableEq, Repr

/-- How a critical section gives the mutex back. -/
inductive Exit (α : Type u) where
  | returns (code : Int) (data : Option α)
  | waits (on : Cond)

structure Section (α : Type u) where
  queue : JobQueue α
  broadcast : List Cond
  exit : Exit α

/-- `malloc` leaves arbitrary values in the array. -/
def jobQueueInit (memory : Nat → α) (capacity : Nat) : JobQueue α :=
  { size := capacity, head := 0, tail := 0, array := some memory, filled := 0, destroy := false }

/-- `none` is the write through a NULL array. -/
def jobQueuePush (data : α) (q : JobQueue α) : Option (Section α) :=
  if q.filled = q.size then
    some ⟨q, [], .waits .notfull⟩
  else
    q.array.map fun cells =>
      ⟨{ q with
          array := some (Function.update cells q.head data)
          head := (q.head + 1) % q.size
          filled := q.filled + 1 },
        [.notempty], .returns 0 none⟩

/-- `none` is the read through a NULL array. -/
def jobQueuePop (q : JobQueue α) : Option (Section α) :=
  if q.filled = 0 ∧ q.destroy = false then
    some ⟨q, [], .waits .notempty⟩
  else if q.filled = 0 then
    some ⟨q, [], .returns (-1) none⟩
  else
    q.array.map fun cells =>
      ⟨{ q with tail := (q.tail + 1) % q.size, filled := q.filled - 1 },
        (if q.filled - 1 = 0 then [.empty] else []) ++ [.notfull],
        .returns 0 (some (cells q.tail))⟩

/-- The loop on `empty` and what follows it. -/
def destroyLoop (broadcast : List Cond) (q : JobQueue α) : Section α :=
  if 0 < q.filled then
    ⟨q, broadcast, .waits .empty⟩
  else
    ⟨{ q with array := none }, broadcast, .returns 0 none⟩

def jobQueueDestroy (q : JobQueue α) : Section α :=
  destroyLoop [.notempty] { q with destroy := true }

inductive Call (α : Type u) where
  | push (data : α)
  | pop
  | destroy
  deriving DecidableEq

/-- The first critical section of a call. -/
def enter : Call α → JobQueue α → Option (Section α)
  | .push data, q => jobQueuePush data q
  | .pop, q => jobQueuePop q
  | .destroy, q => some (jobQueueDestroy q)

/-- The critical section after `pthread_cond_wait` has returned. -/
def resume : Call α → JobQueue α → Option (Section α)
  | .push data, q => jobQueuePush data q
  | .pop, q => jobQueuePop q
  | .destroy, q => some (destroyLoop [] q)

/-- A thread is outside the queue's functions or waits in one of them. -/
inductive Thread (α : Type u) where
  | outside
  | waiting (call : Call α) (on : Cond) (woken : Bool)
  deriving DecidableEq

def Thread.signal (broadcast : List Cond) : Thread α → Thread α
  | .outside => .outside
  | .waiting call on woken => .waiting call on (woken || decide (on ∈ broadcast))

/-- A completed call, with what it returned. -/
structure Event (T : Type v) (α : Type u) where
  thread : T
  call : Call α
  code : Int
  data : Option α

def Event.pushed (e : Event T α) : Option α :=
  match e.call with
  | .push data => if e.code = 0 then some data else none
  | _ => none

def Event.popped (e : Event T α) : Option α :=
  match e.call with
  | .pop => if e.code = 0 then e.data else none
  | _ => none

structure State (T : Type v) (α : Type u) where
  queue : JobQueue α
  threads : T → Thread α
  history : List (Event T α)

/-- The items of successful pushes, in the order of their critical sections. -/
def State.pushed (s : State T α) : List α := s.history.filterMap Event.pushed

/-- The items returned by successful pops, in the order of their critical sections. -/
def State.popped (s : State T α) : List α := s.history.filterMap Event.popped

def initial (memory : Nat → α) (capacity : Nat) : State T α :=
  ⟨jobQueueInit memory capacity, fun _ => .outside, []⟩

inductive Label (T : Type v) (α : Type u) where
  | call (t : T) (c : Call α)
  | resume (t : T)
  | wake (t : T)

variable [DecidableEq T]

/-- The broadcasts precede the thread's own wait, so it never wakes itself. -/
def State.after (s : State T α) (t : T) (c : Call α) (r : Section α) : State T α where
  queue := r.queue
  threads := Function.update (fun u => (s.threads u).signal r.broadcast) t <|
    match r.exit with
    | .returns _ _ => .outside
    | .waits on => .waiting c on false
  history :=
    match r.exit with
    | .returns code data => s.history ++ [⟨t, c, code, data⟩]
    | .waits _ => s.history

/-- `none` when the thread is not at that point of the program or the section
goes through a NULL array. -/
def step (s : State T α) : Label T α → Option (State T α)
  | .call t c =>
    match s.threads t with
    | .outside => (enter c s.queue).map (s.after t c)
    | _ => none
  | .resume t =>
    match s.threads t with
    | .waiting c _ true => (resume c s.queue).map (s.after t c)
    | _ => none
  | .wake t =>
    match s.threads t with
    | .waiting c on false =>
      some { s with threads := Function.update s.threads t (.waiting c on true) }
    | _ => none

/-- Any threads call any functions of one queue. -/
def system (T : Type v) [DecidableEq T] (memory : Nat → α) (capacity : Nat) :
    Transition.System (State T α) :=
  Transition.ofStep (initial memory capacity) step

/-! ## What a critical section can do -/

/-- The thread that runs a section starts a call or is woken inside it. -/
inductive Ready : Thread α → Call α → Prop where
  | first {c} : Ready .outside c
  | again {c on} : Ready (.waiting c on true) c

/-- The flag and the broadcast with which a section of destroy reaches its loop. -/
inductive Begun : Thread α → JobQueue α → Bool → List Cond → Prop where
  | first {q} : Begun .outside q true [.notempty]
  | again {c on q} : Begun (.waiting c on true) q q.destroy []

/-- Every outcome of a critical section that a thread runs. -/
inductive Runs (th : Thread α) : Call α → JobQueue α → Section α → Prop where
  | pushWaits {data q} (full : q.filled = q.size) :
    Runs th (.push data) q ⟨q, [], .waits .notfull⟩
  | pushes {data q cells} (room : q.filled ≠ q.size) (live : q.array = some cells) :
    Runs th (.push data) q
      ⟨{ q with
          array := some (Function.update cells q.head data)
          head := (q.head + 1) % q.size
          filled := q.filled + 1 },
        [.notempty], .returns 0 none⟩
  | popWaits {q} (drained : q.filled = 0) (running : q.destroy = false) :
    Runs th .pop q ⟨q, [], .waits .notempty⟩
  | popFails {q} (drained : q.filled = 0) (ended : q.destroy = true) :
    Runs th .pop q ⟨q, [], .returns (-1) none⟩
  | pops {q cells} (some_left : q.filled ≠ 0) (live : q.array = some cells) :
    Runs th .pop q
      ⟨{ q with tail := (q.tail + 1) % q.size, filled := q.filled - 1 },
        (if q.filled - 1 = 0 then [.empty] else []) ++ [.notfull],
        .returns 0 (some (cells q.tail))⟩
  | destroyWaits {q ended broadcast} (begun : Begun th q ended broadcast)
      (some_left : 0 < q.filled) :
    Runs th .destroy q ⟨{ q with destroy := ended }, broadcast, .waits .empty⟩
  | destroys {q ended broadcast} (begun : Begun th q ended broadcast)
      (drained : q.filled = 0) :
    Runs th .destroy q
      ⟨{ q with destroy := ended, array := none }, broadcast, .returns 0 none⟩

theorem push_runs {th : Thread α} {data : α} {q : JobQueue α} {r : Section α}
    (h : jobQueuePush data q = some r) : Runs th (.push data) q r := by
  unfold jobQueuePush at h
  split at h
  case isTrue full =>
    cases h
    exact .pushWaits full
  case isFalse room =>
    obtain ⟨cells, live, rfl⟩ := Option.map_eq_some_iff.mp h
    exact .pushes room live

theorem pop_runs {th : Thread α} {q : JobQueue α} {r : Section α}
    (h : jobQueuePop q = some r) : Runs th .pop q r := by
  unfold jobQueuePop at h
  split at h
  case isTrue waiting =>
    cases h
    exact .popWaits waiting.1 waiting.2
  case isFalse going =>
    split at h
    case isTrue drained =>
      cases h
      exact .popFails drained (by simpa [drained] using going)
    case isFalse some_left =>
      obtain ⟨cells, live, rfl⟩ := Option.map_eq_some_iff.mp h
      exact .pops some_left live

theorem destroyLoop_runs {th : Thread α} {q : JobQueue α} {ended : Bool}
    {broadcast : List Cond} (begun : Begun th q ended broadcast) :
    Runs th .destroy q (destroyLoop broadcast { q with destroy := ended }) := by
  unfold destroyLoop
  split
  case isTrue some_left => exact .destroyWaits begun some_left
  case isFalse drained => exact .destroys begun (Nat.eq_zero_of_not_pos drained)

theorem enter_runs {c : Call α} {q : JobQueue α} {r : Section α} (h : enter c q = some r) :
    Runs .outside c q r := by
  cases c with
  | push data => exact push_runs h
  | pop => exact pop_runs h
  | destroy =>
    cases h
    exact destroyLoop_runs .first

theorem resume_runs {c : Call α} {on : Cond} {q : JobQueue α} {r : Section α}
    (h : resume c q = some r) : Runs (.waiting c on true) c q r := by
  cases c with
  | push data => exact push_runs h
  | pop => exact pop_runs h
  | destroy =>
    cases h
    exact destroyLoop_runs .again

/-- A step is a critical section of some thread, or a spurious wakeup. -/
theorem step_cases {s s' : State T α} {l : Label T α} (h : step s l = some s') :
    (∃ t c r, Ready (s.threads t) c ∧ Runs (s.threads t) c s.queue r ∧ s' = s.after t c r) ∨
    (∃ t c on, s.threads t = .waiting c on false ∧
      s' = { s with threads := Function.update s.threads t (.waiting c on true) }) := by
  cases l with
  | call t c =>
    cases ht : s.threads t with
    | outside =>
      simp only [step, ht, Option.map_eq_some_iff] at h
      obtain ⟨r, hr, rfl⟩ := h
      refine .inl ⟨t, c, r, ?_⟩
      rw [ht]
      exact ⟨.first, enter_runs hr, rfl⟩
    | waiting => simp [step, ht] at h
  | resume t =>
    cases ht : s.threads t with
    | outside => simp [step, ht] at h
    | waiting c on woken =>
      cases woken with
      | false => simp [step, ht] at h
      | true =>
        simp only [step, ht, Option.map_eq_some_iff] at h
        obtain ⟨r, hr, rfl⟩ := h
        refine .inl ⟨t, c, r, ?_⟩
        rw [ht]
        exact ⟨.again, resume_runs hr, rfl⟩
  | wake t =>
    cases ht : s.threads t with
    | outside => simp [step, ht] at h
    | waiting c on woken =>
      cases woken with
      | false =>
        simp only [step, ht, Option.some.injEq] at h
        exact .inr ⟨t, c, on, ht, h.symm⟩
      | true => simp [step, ht] at h

/-! ## The threads after a section -/

@[simp] theorem signal_waiting_iff {broadcast : List Cond} {th : Thread α} {c : Call α}
    {on : Cond} :
    th.signal broadcast = .waiting c on false ↔
      th = .waiting c on false ∧ on ∉ broadcast := by
  cases th with
  | outside => simp [Thread.signal]
  | waiting call on' woken =>
    simp only [Thread.signal, Thread.waiting.injEq, Bool.or_eq_false_iff, decide_eq_false_iff_not]
    constructor
    · rintro ⟨rfl, rfl, rfl, hn⟩
      exact ⟨⟨rfl, rfl, rfl⟩, hn⟩
    · rintro ⟨⟨rfl, rfl, rfl⟩, hn⟩
      exact ⟨rfl, rfl, rfl, hn⟩

/-- Waking changes the flag only, never the call or the variable waited on. -/
theorem signal_waiting {broadcast : List Cond} {th : Thread α} {c : Call α} {on : Cond}
    {woken : Bool} (h : th.signal broadcast = .waiting c on woken) :
    ∃ was, th = .waiting c on was := by
  cases th with
  | outside => simp [Thread.signal] at h
  | waiting call on' was =>
    simp only [Thread.signal, Thread.waiting.injEq] at h
    exact ⟨was, by rw [h.1, h.2.1]⟩

theorem after_waiting_self {s : State T α} {t : T} {c c' : Call α} {r : Section α} {on : Cond}
    {woken : Bool} (h : (s.after t c r).threads t = .waiting c' on woken) :
    r.exit = .waits on ∧ c' = c := by
  cases he : r.exit with
  | returns => simp [State.after, he] at h
  | waits on' =>
    simp only [State.after, he, Function.update_self, Thread.waiting.injEq] at h
    exact ⟨by rw [h.2.1], h.1.symm⟩

/-- A waiter after a section is the thread that has just begun to wait, or an
older waiter. -/
theorem after_waiting {s : State T α} {t u : T} {c c' : Call α} {r : Section α} {on : Cond}
    {woken : Bool} (h : (s.after t c r).threads u = .waiting c' on woken) :
    (r.exit = .waits on ∧ c' = c ∧ u = t) ∨ ∃ was, s.threads u = .waiting c' on was := by
  by_cases hu : u = t
  · subst hu
    obtain ⟨hwaits, hc⟩ := after_waiting_self h
    exact .inl ⟨hwaits, hc, rfl⟩
  · simp only [State.after, Function.update_of_ne hu] at h
    exact .inr (signal_waiting h)

/-- An unwoken waiter after a section has just begun to wait, or was unwoken
and none of the section's broadcasts reached it. -/
theorem after_unwoken {s : State T α} {t u : T} {c c' : Call α} {r : Section α} {on : Cond}
    (h : (s.after t c r).threads u = .waiting c' on false) :
    r.exit = .waits on ∨ (s.threads u = .waiting c' on false ∧ on ∉ r.broadcast) := by
  by_cases hu : u = t
  · subst hu
    exact .inl (after_waiting_self h).1
  · simp only [State.after, Function.update_of_ne hu, signal_waiting_iff] at h
    exact .inr h

theorem wake_waiting {threads : T → Thread α} {t u : T} {c c' : Call α} {on on' : Cond}
    {woken : Bool} (ht : threads t = .waiting c on false)
    (h : Function.update threads t (.waiting c on true) u = .waiting c' on' woken) :
    ∃ was, threads u = .waiting c' on' was := by
  by_cases hu : u = t
  · subst hu
    simp only [Function.update_self, Thread.waiting.injEq] at h
    exact ⟨false, by rw [ht, h.1, h.2.1]⟩
  · exact ⟨woken, by rwa [Function.update_of_ne hu] at h⟩

theorem wake_unwoken {threads : T → Thread α} {t u : T} {c c' : Call α} {on on' : Cond}
    (h : Function.update threads t (.waiting c on true) u = .waiting c' on' false) :
    threads u = .waiting c' on' false := by
  by_cases hu : u = t
  · subst hu
    simp at h
  · rwa [Function.update_of_ne hu] at h

end JobQueue

end CompSys
