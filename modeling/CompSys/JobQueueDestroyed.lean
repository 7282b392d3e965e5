import CompSys.JobQueueFifo

/-!
# Pushes onto a destroyed queue

`job_queue.h` calls it an error to push onto a queue that has been destroyed.
`job_queue_push` does not look at `destroy`: a push that starts or resumes after the
call of `job_queue_destroy` waits, stores its data or goes through the NULL array, and
no push of any run returns an error.
-/
namespace CompSys.JobQueue

universe u v

variable {T : Type v} [DecidableEq T] {α : Type u}

/-- The label is the first critical section of a push by the thread, or the one after
its `pthread_cond_wait`. -/
inductive Pushes (s : State T α) (t : T) (data : α) : Label T α → Prop where
  | starts (outside : s.threads t = .outside) : Pushes s t data (.call t (.push data))
  | resumes {on} (woken : s.threads t = .waiting (.push data) on true) :
    Pushes s t data (.resume t)

/-- The push returns an error and leaves the queue as it was, its array included. -/
def Rejects (s : State T α) (t : T) (data : α) (l : Label T α) : Prop :=
  ∃ s' code result, step s l = some s' ∧ s'.queue = s.queue ∧
    s'.history = s.history ++ [⟨t, .push data, code, result⟩] ∧ code ≠ 0

variable {s s' : State T α} {t : T} {data : α} {l : Label T α}

/-- Both critical sections of a push are the same one. -/
theorem Pushes.step_eq (h : Pushes s t data l) :
    step s l = (jobQueuePush data s.queue).map (s.after t (.push data)) := by
  cases h with
  | starts outside => simp only [step, outside, enter]
  | resumes woken => simp only [step, woken, resume]

/-- What a push does, whether the queue is destroyed or not: it waits, stores its data and
returns 0, or goes through the NULL array. -/
theorem Pushes.outcome (h : Pushes s t data l) :
    (s.queue.filled = s.queue.size ∧ ∃ s', step s l = some s' ∧ s'.queue = s.queue ∧
      s'.history = s.history) ∨
    (s.queue.filled ≠ s.queue.size ∧ s.queue.array ≠ none ∧ ∃ s', step s l = some s' ∧
      s'.queue.filled = s.queue.filled + 1 ∧
      s'.history = s.history ++ [⟨t, .push data, 0, none⟩]) ∨
    (s.queue.filled ≠ s.queue.size ∧ s.queue.array = none ∧ step s l = none) := by
  rw [h.step_eq]
  cases hpush : jobQueuePush data s.queue with
  | none =>
    unfold jobQueuePush at hpush
    split at hpush
    case isTrue => cases hpush
    case isFalse room => exact .inr (.inr ⟨room, Option.map_eq_none_iff.mp hpush, rfl⟩)
  | some r =>
    have hruns : Runs (s.threads t) (.push data) s.queue r := push_runs hpush
    cases hruns with
    | pushWaits full => exact .inl ⟨full, _, rfl, rfl, rfl⟩
    | pushes room live => exact .inr (.inl ⟨room, by simp [live], _, rfl, rfl, rfl⟩)

theorem Pushes.not_rejects (h : Pushes s t data l) : ¬ Rejects s t data l := by
  rintro ⟨s', code, result, hstep, hqueue, hhistory, -⟩
  rcases h.outcome with ⟨-, s'', hstep', -, hsame⟩ | ⟨-, -, s'', hstep', hfilled, -⟩ |
    ⟨-, -, hnone⟩
  · cases hstep.symm.trans hstep'
    simp [hsame] at hhistory
  · cases hstep.symm.trans hstep'
    rw [hqueue] at hfilled
    omega
  · cases hstep.symm.trans hnone

/-- Every push that has returned has returned 0. -/
def Unrejected (s : State T α) : Prop :=
  ∀ e ∈ s.history, ∀ data, e.call = .push data → e.code = 0

theorem Unrejected.step (h : Unrejected s) (hstep : step s l = some s') : Unrejected s' := by
  rcases step_cases hstep with ⟨t, c, r, -, hr, rfl⟩ | ⟨t, c, on, -, rfl⟩
  · intro e he data hcall
    rw [after_history, List.mem_append] at he
    rcases he with hold | hnew
    · exact h e hold data hcall
    · cases hr with
      | pushWaits | popWaits | destroyWaits => cases hnew
      | pushes | popFails | pops | destroys =>
        cases List.mem_singleton.mp hnew
        first | rfl | cases hcall
  · exact h

theorem reachable_unrejected {memory : Nat → α} {capacity : Nat}
    (h : Transition.Reachable (system T memory capacity) s) : Unrejected s := by
  apply h.invariant
  · rintro s rfl e he
    cases he
  · rintro s s' - hs ⟨l, hl⟩
    exact hs.step hl

/-- A destroy that finds the queue empty completes at once. -/
theorem destroyed_reachable (memory : Nat → α) (capacity : Nat) (t : T) :
    ∃ s : State T α, Transition.Reachable (system T memory capacity) s ∧
      s.queue.destroy = true ∧ s.threads t = .outside := by
  let s₀ : State T α := initial memory capacity
  refine ⟨s₀.after t .destroy (jobQueueDestroy s₀.queue), ?_, rfl, ?_⟩
  · exact Transition.reachable_of_run [.call t .destroy] (.start rfl) rfl
  · simp [s₀, State.after, jobQueueDestroy, destroyLoop, initial, jobQueueInit]

/-- In no reachable state with a destroyed queue is a push rejected, neither one that
starts there nor one that resumes there; every thread can bring such a state about and
push in it, and no push of any run has returned an error. -/
theorem push_never_rejected (T : Type v) [DecidableEq T] (memory : Nat → α) (capacity : Nat) :
    (∀ s : State T α, Transition.Reachable (system T memory capacity) s →
      s.queue.destroy = true → ∀ t data l, Pushes s t data l → ¬ Rejects s t data l) ∧
    (∀ s : State T α, Transition.Reachable (system T memory capacity) s →
      ∀ e ∈ s.history, ∀ data, e.call = .push data → e.code = 0) ∧
    ∀ (t : T) (data : α), ∃ s l, Transition.Reachable (system T memory capacity) s ∧
      s.queue.destroy = true ∧ Pushes s t data l := by
  refine ⟨?_, ?_, ?_⟩
  · intro s _ _ t data l hpush
    exact hpush.not_rejects
  · intro s hs
    exact reachable_unrejected hs
  · intro t data
    obtain ⟨s, hs, hdestroy, houtside⟩ := destroyed_reachable memory capacity t
    exact ⟨s, _, hs, hdestroy, .starts houtside⟩

/-- While a destroy waits for a queue with one item, a second push is stored and returns
0. A push that is suspended on `notfull` when the destroy begins resumes and returns 0,
or goes through the NULL array if the destroy has completed first. -/
theorem push_after_destroy :
    (∃ s s' : State (Fin 3) Nat, Transition.Reachable (system (Fin 3) (fun _ => 0) 2) s ∧
      s.queue.destroy = true ∧ s.queue.filled = 1 ∧
      Pushes s 0 6 (.call 0 (.push 6)) ∧ ¬ Rejects s 0 6 (.call 0 (.push 6)) ∧
      step s (.call 0 (.push 6)) = some s' ∧ s'.queue.filled = 2 ∧
      s'.history = s.history ++ [⟨0, .push 6, 0, none⟩]) ∧
    (∃ s s' : State (Fin 3) Nat, Transition.Reachable (system (Fin 3) (fun _ => 0) 1) s ∧
      s.queue.destroy = true ∧ Pushes s 1 6 (.resume 1) ∧ ¬ Rejects s 1 6 (.resume 1) ∧
      step s (.resume 1) = some s' ∧ s'.queue.filled = 1 ∧
      s'.history = s.history ++ [⟨1, .push 6, 0, none⟩]) ∧
    ∃ s : State (Fin 3) Nat, Transition.Reachable (system (Fin 3) (fun _ => 0) 1) s ∧
      s.queue.destroy = true ∧ Pushes s 1 6 (.resume 1) ∧ ¬ Rejects s 1 6 (.resume 1) ∧
      s.queue.array = none ∧ step s (.resume 1) = none := by
  constructor
  · exact ⟨_, _, Transition.reachable_of_run [.call 0 (.push 5), .call 2 .destroy] (.start rfl) rfl,
      rfl, rfl, .starts rfl, Pushes.not_rejects (.starts rfl), rfl, rfl, rfl⟩
  constructor
  · exact ⟨_, _, Transition.reachable_of_run
      [.call 0 (.push 5), .call 1 (.push 6), .call 2 .destroy, .call 0 .pop] (.start rfl) rfl,
      rfl, .resumes rfl, Pushes.not_rejects (.resumes rfl), rfl, rfl, rfl⟩
  · exact ⟨_, Transition.reachable_of_run
      [.call 0 (.push 5), .call 1 (.push 6), .call 2 .destroy, .call 0 .pop, .resume 2] (.start rfl)
      rfl, rfl, .resumes rfl, Pushes.not_rejects (.resumes rfl), rfl, rfl⟩

end CompSys.JobQueue
