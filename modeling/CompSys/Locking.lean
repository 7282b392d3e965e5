import Mathlib.Data.List.Basic

/-!
# Programs that take a lock

A program changes a state, raises or returns, and leaves a trace of what it has done with one
lock. What it has changed before it raises stays changed.
-/
namespace CompSys.Locking

inductive Event where
  | acquire
  | release
  deriving DecidableEq, Repr

/-- Each acquisition is followed by one release, and there is no other release. -/
inductive Disciplined : List Event → Prop where
  | nil : Disciplined []
  | pair {events : List Event} : Disciplined events →
      Disciplined (.acquire :: .release :: events)

theorem Disciplined.append {events later : List Event} (h : Disciplined events)
    (hlater : Disciplined later) : Disciplined (events ++ later) := by
  induction h with
  | nil => exact hlater
  | pair _ ih => exact ih.pair

theorem disciplined_single : Disciplined [.acquire, .release] := .pair .nil

/-- A lock that is not given back is held for good. -/
theorem not_disciplined_held : ¬Disciplined [.acquire] := nofun

theorem not_disciplined_twice : ¬Disciplined [.acquire, .release, .release] := by
  intro h
  cases h with
  | pair hrest => cases hrest

/-- Whoever has kept the lock so far and breaks the rule later breaks it. -/
theorem Disciplined.of_append {events later : List Event} (h : Disciplined events)
    (hall : Disciplined (events ++ later)) : Disciplined later := by
  induction h with
  | nil => exact hall
  | pair _ ih =>
    cases hall with
    | pair hrest => exact ih hrest

/-! ## Programs -/

def Locked (σ ε α : Type) : Type := σ → List Event × σ × Except ε α

variable {σ ε α β : Type}

namespace Locked

def bind (program : Locked σ ε α) (next : α → Locked σ ε β) : Locked σ ε β := fun s =>
  match program s with
  | (events, s, .error e) => (events, s, .error e)
  | (events, s, .ok a) => (events ++ (next a s).1, (next a s).2)

instance : Monad (Locked σ ε) where
  pure a := fun s => ([], s, .ok a)
  bind := bind

/-- `try: program` with `except Exception as e: handler e`. -/
def tryExcept (program : Locked σ ε α) (handler : ε → Locked σ ε α) : Locked σ ε α := fun s =>
  match program s with
  | (events, s, .error e) => (events ++ (handler e s).1, (handler e s).2)
  | (events, s, .ok a) => (events, s, .ok a)

def acquire : Locked σ ε Unit := fun s => ([.acquire], s, .ok ())

def release : Locked σ ε Unit := fun s => ([.release], s, .ok ())

/-- What has nothing to do with the lock. -/
def op (f : σ → σ × Except ε α) : Locked σ ε α := fun s => ([], f s)

def lift (result : Except ε α) : Locked σ ε α := op fun s => (s, result)

def get : Locked σ ε σ := op fun s => (s, .ok s)

def modify (f : σ → σ) : Locked σ ε Unit := op fun s => (f s, .ok ())

def raise (e : ε) : Locked σ ε α := lift (.error e)

/-- `acquire()`, and a `try` statement whose handler gives the lock back and raises again. The
program itself is to give it back as the last thing it does. -/
def critical (program : Locked σ ε α) : Locked σ ε α := do
  acquire
  tryExcept program fun e => do
    release
    raise e

/-! ## Runs -/

theorem bind_ok {program : Locked σ ε α} {s s' : σ} {events : List Event} {a : α}
    (h : program s = (events, s', .ok a)) (next : α → Locked σ ε β) :
    (program >>= next) s = (events ++ (next a s').1, (next a s').2) := by
  change bind program next s = _
  rw [bind, h]

/-- What leaves no trace leads to the next part. -/
theorem bind_quiet {program : Locked σ ε α} {s s' : σ} {a : α}
    (h : program s = ([], s', .ok a)) (next : α → Locked σ ε β) :
    (program >>= next) s = next a s' :=
  bind_ok h next

theorem bind_error {program : Locked σ ε α} {s s' : σ} {events : List Event} {e : ε}
    (h : program s = (events, s', .error e)) (next : α → Locked σ ε β) :
    (program >>= next) s = (events, s', .error e) := by
  change bind program next s = _
  rw [bind, h]

theorem tryExcept_ok {program : Locked σ ε α} {s s' : σ} {events : List Event} {a : α}
    (h : program s = (events, s', .ok a)) (handler : ε → Locked σ ε α) :
    tryExcept program handler s = (events, s', .ok a) := by
  rw [tryExcept, h]

theorem tryExcept_error {program : Locked σ ε α} {s s' : σ} {events : List Event} {e : ε}
    (h : program s = (events, s', .error e)) (handler : ε → Locked σ ε α) :
    tryExcept program handler s = (events ++ (handler e s').1, (handler e s').2) := by
  rw [tryExcept, h]

theorem acquire_bind (next : Unit → Locked σ ε α) (s : σ) :
    (acquire >>= next) s = (.acquire :: (next () s).1, (next () s).2) := rfl

theorem release_bind (next : Unit → Locked σ ε α) (s : σ) :
    (release >>= next) s = (.release :: (next () s).1, (next () s).2) := rfl

theorem get_bind (next : σ → Locked σ ε α) (s : σ) : (get >>= next) s = next s s := rfl

theorem lift_ok_bind (a : α) (next : α → Locked σ ε β) (s : σ) :
    (lift (.ok a) >>= next) s = next a s := rfl

/-! ## Discipline -/

/-- The lock is left alone. -/
def Quiet (program : Locked σ ε α) : Prop := ∀ s, (program s).1 = []

/-- However it ends. -/
def Keeps (program : Locked σ ε α) : Prop := ∀ s, Disciplined (program s).1

theorem quiet_op (f : σ → σ × Except ε α) : Quiet (op f) := fun _ => rfl

theorem quiet_lift (result : Except ε α) : Quiet (lift result : Locked σ ε α) := fun _ => rfl

theorem quiet_pure (a : α) : Quiet (pure a : Locked σ ε α) := fun _ => rfl

theorem Quiet.bind {program : Locked σ ε α} {next : α → Locked σ ε β} (h : Quiet program)
    (hnext : ∀ a, Quiet (next a)) : Quiet (program >>= next) := by
  intro s
  have hs := h s
  change (Locked.bind program next s).1 = []
  unfold Locked.bind
  split
  case h_1 heq =>
    rw [heq] at hs
    exact hs
  case h_2 events s' a heq =>
    rw [heq] at hs
    exact List.append_eq_nil_iff.mpr ⟨hs, hnext a s'⟩

theorem Quiet.keeps {program : Locked σ ε α} (h : Quiet program) : Keeps program := by
  intro s
  rw [h s]
  exact .nil

theorem disciplined_bind {program : Locked σ ε α} {next : α → Locked σ ε β} {s : σ}
    (h : Disciplined (program s).1) (hnext : ∀ a, Keeps (next a)) :
    Disciplined ((program >>= next) s).1 := by
  change Disciplined (Locked.bind program next s).1
  unfold Locked.bind
  split
  case h_1 heq =>
    rw [heq] at h
    exact h
  case h_2 s' a heq =>
    rw [heq] at h
    exact h.append (hnext a s')

theorem Keeps.bind {program : Locked σ ε α} {next : α → Locked σ ε β} (h : Keeps program)
    (hnext : ∀ a, Keeps (next a)) : Keeps (program >>= next) :=
  fun s => disciplined_bind (h s) hnext

/-- The lock is left alone until it is given back at the end. -/
def ReleasesAt (program : Locked σ ε α) (s : σ) : Prop :=
  (∃ s' e, program s = ([], s', .error e)) ∨ ∃ s' a, program s = ([.release], s', .ok a)

def Releasing (program : Locked σ ε α) : Prop := ∀ s, ReleasesAt program s

theorem releasing_release : Releasing (release : Locked σ ε Unit) := fun s => .inr ⟨s, (), rfl⟩

theorem releasing_return (a : α) : Releasing (release >>= fun _ => pure a : Locked σ ε α) :=
  fun s => .inr ⟨s, a, rfl⟩

theorem Quiet.releasing {program : Locked σ ε α} {next : α → Locked σ ε β} (h : Quiet program)
    (hnext : ∀ a, Releasing (next a)) : Releasing (program >>= next) := by
  intro s
  have hs := h s
  cases hrun : program s with
  | mk events rest =>
    obtain ⟨s', result⟩ := rest
    rw [hrun] at hs
    change events = [] at hs
    subst hs
    cases result with
    | error e => exact .inl ⟨s', e, bind_error hrun next⟩
    | ok a =>
      rw [ReleasesAt, bind_ok hrun]
      exact hnext a s'

/-- Such a program is one section, whether it raises or not. -/
theorem ReleasesAt.events_critical {program : Locked σ ε α} {s : σ} (h : ReleasesAt program s) :
    (critical program s).1 = [.acquire, .release] := by
  rw [critical, acquire_bind]
  rcases h with ⟨s', e, hrun⟩ | ⟨s', a, hrun⟩
  · rw [tryExcept_error hrun]
    rfl
  · rw [tryExcept_ok hrun]

/-- The lock and its release on an exception leave the state alone. -/
theorem state_critical (program : Locked σ ε α) (s : σ) :
    (critical program s).2.1 = (program s).2.1 := by
  rw [critical, acquire_bind]
  cases hrun : program s with
  | mk events rest =>
    obtain ⟨s', result⟩ := rest
    cases result with
    | error e =>
      rw [tryExcept_error hrun]
      rfl
    | ok a => rw [tryExcept_ok hrun]

theorem critical_ok {program : Locked σ ε α} {s s' : σ} {events : List Event} {a : α}
    (h : program s = (events, s', .ok a)) :
    critical program s = (.acquire :: events, s', .ok a) := by
  rw [critical, acquire_bind, tryExcept_ok h]

theorem state_bind_release (program : Locked σ ε α) (s : σ) :
    (((program >>= fun _ => release : Locked σ ε Unit)) s).2.1 = (program s).2.1 := by
  cases hrun : program s with
  | mk events rest =>
    obtain ⟨s', result⟩ := rest
    cases result with
    | error e => rw [bind_error hrun]
    | ok a =>
      rw [bind_ok hrun]
      rfl

/-- A program that raises when it has given the lock back has it given back once more. -/
theorem events_critical_late {program : Locked σ ε α} {s s' : σ} {e : ε}
    (h : program s = ([.release], s', .error e)) :
    critical program s = ([.acquire, .release, .release], s', .error e) := by
  rw [critical, acquire_bind, tryExcept_error h]
  rfl

theorem Releasing.keeps {program : Locked σ ε α} (h : Releasing program) :
    Keeps (critical program) := by
  intro s
  rw [(h s).events_critical]
  exact disciplined_single

/-! ## What stays true of the state -/

/-- However the program ends. -/
def Stays (I : σ → Prop) (program : Locked σ ε α) : Prop := ∀ s, I s → I (program s).2.1

variable {I : σ → Prop}

theorem stays_pure (a : α) : Stays I (pure a : Locked σ ε α) := fun _ h => h

theorem stays_lift (result : Except ε α) : Stays I (lift result : Locked σ ε α) := fun _ h => h

theorem stays_acquire : Stays I (acquire : Locked σ ε Unit) := fun _ h => h

theorem stays_release : Stays I (release : Locked σ ε Unit) := fun _ h => h

theorem stays_get : Stays I (get : Locked σ ε σ) := fun _ h => h

theorem Stays.bind {program : Locked σ ε α} {next : α → Locked σ ε β} (h : Stays I program)
    (hnext : ∀ a, Stays I (next a)) : Stays I (program >>= next) := by
  intro s hs
  have hprogram := h s hs
  change I (Locked.bind program next s).2.1
  unfold Locked.bind
  split
  case h_1 heq =>
    rw [heq] at hprogram
    exact hprogram
  case h_2 s' a heq =>
    rw [heq] at hprogram
    exact hnext a s' hprogram

theorem Stays.tryExcept {program : Locked σ ε α} {handler : ε → Locked σ ε α}
    (h : Stays I program) (hhandler : ∀ e, Stays I (handler e)) :
    Stays I (tryExcept program handler) := by
  intro s hs
  have hprogram := h s hs
  unfold Locked.tryExcept
  split
  case h_1 s' e heq =>
    rw [heq] at hprogram
    exact hhandler e s' hprogram
  case h_2 heq =>
    rw [heq] at hprogram
    exact hprogram

theorem Stays.critical {program : Locked σ ε α} (h : Stays I program) :
    Stays I (critical program) :=
  stays_acquire.bind fun _ => h.tryExcept fun _ => stays_release.bind fun _ => stays_lift _

end Locked

end CompSys.Locking
