import CompSys.JobQueue

/-!
# The job queue loses no wakeup

An unwoken waiter proves that its loop condition still holds: every section
that makes the condition false broadcasts the variable waited on.
-/
namespace CompSys.JobQueue

universe u v

variable {T : Type v} {α : Type u}

/-- The variable a call waits on. -/
def Call.cond : Call α → Cond
  | .push _ => .notfull
  | .pop => .notempty
  | .destroy => .empty

/-- What the threads inside `pthread_cond_wait` imply about the queue. -/
structure Wakeups (capacity : Nat) (s : State T α) : Prop where
  size : s.queue.size = capacity
  cond : ∀ t c on woken, s.threads t = .waiting c on woken → on = c.cond
  notfull : ∀ t c, s.threads t = .waiting c .notfull false → s.queue.filled = s.queue.size
  notempty : ∀ t c, s.threads t = .waiting c .notempty false →
    s.queue.filled = 0 ∧ s.queue.destroy = false
  empty : ∀ t c, s.threads t = .waiting c .empty false → 0 < s.queue.filled
  destroyer : ∀ t on woken, s.threads t = .waiting .destroy on woken → s.queue.destroy = true
  freed : s.queue.array = none → s.queue.destroy = true

theorem initial_wakeups (memory : Nat → α) (capacity : Nat) :
    Wakeups capacity (initial memory capacity : State T α) := by
  constructor <;> simp [initial, jobQueueInit]

variable [DecidableEq T]

theorem wake_wakeups {capacity : Nat} {s : State T α} {t : T} {c : Call α} {on : Cond}
    (h : Wakeups capacity s) (ht : s.threads t = .waiting c on false) :
    Wakeups capacity { s with threads := Function.update s.threads t (.waiting c on true) } where
  size := h.size
  cond u c' on' woken hu := by
    obtain ⟨was, hwas⟩ := wake_waiting ht hu
    exact h.cond u c' on' was hwas
  notfull u c' hu := h.notfull u c' (wake_unwoken hu)
  notempty u c' hu := h.notempty u c' (wake_unwoken hu)
  empty u c' hu := h.empty u c' (wake_unwoken hu)
  destroyer u on' woken hu := by
    obtain ⟨was, hwas⟩ := wake_waiting ht hu
    exact h.destroyer u on' was hwas
  freed := h.freed

/-- A section ends in a wait only on its call's variable, whose loop condition
then holds of the queue it leaves. -/
theorem runs_waits {th : Thread α} {c : Call α} {q : JobQueue α} {r : Section α} {on : Cond}
    (hr : Runs th c q r) (he : r.exit = .waits on) :
    on = c.cond ∧ match on with
      | .notfull => r.queue.filled = r.queue.size
      | .notempty => r.queue.filled = 0 ∧ r.queue.destroy = false
      | .empty => 0 < r.queue.filled := by
  cases hr with
  | pushWaits full => cases he; exact ⟨rfl, full⟩
  | popWaits drained running => cases he; exact ⟨rfl, drained, running⟩
  | destroyWaits _ some_left => cases he; exact ⟨rfl, some_left⟩
  | pushes | popFails | pops | destroys => cases he

/-! A section that breaks the loop condition of a variable broadcasts it. -/

theorem runs_notfull {th : Thread α} {c : Call α} {q : JobQueue α} {r : Section α}
    (hr : Runs th c q r) (h : q.filled = q.size) :
    .notfull ∈ r.broadcast ∨ r.queue.filled = r.queue.size := by
  cases hr with
  | pushes room => exact absurd h room
  | pops => exact .inl (by simp)
  | pushWaits | popWaits | popFails | destroyWaits | destroys => exact .inr h

theorem runs_notempty {th : Thread α} {c : Call α} {q : JobQueue α} {r : Section α}
    (hr : Runs th c q r) (hf : q.filled = 0) (hd : q.destroy = false) :
    .notempty ∈ r.broadcast ∨ r.queue.filled = 0 ∧ r.queue.destroy = false := by
  cases hr with
  | pushes => exact .inl (by simp)
  | pops some_left => exact absurd hf some_left
  | destroyWaits _ some_left => exact absurd hf (by omega)
  | destroys begun =>
    cases begun with
    | first => exact .inl (by simp)
    | again => exact .inr ⟨hf, hd⟩
  | pushWaits | popWaits | popFails => exact .inr ⟨hf, hd⟩

theorem runs_empty {th : Thread α} {c : Call α} {q : JobQueue α} {r : Section α}
    (hr : Runs th c q r) (h : 0 < q.filled) :
    .empty ∈ r.broadcast ∨ 0 < r.queue.filled := by
  cases hr with
  | pops =>
    by_cases hlast : q.filled - 1 = 0
    · exact .inl (by simp [hlast])
    · exact .inr (Nat.pos_of_ne_zero hlast)
  | pushes => exact .inr (Nat.succ_pos _)
  | destroys _ drained => exact absurd drained (by omega)
  | pushWaits | popWaits | popFails | destroyWaits => exact .inr h

theorem runs_size {th : Thread α} {c : Call α} {q : JobQueue α} {r : Section α}
    (hr : Runs th c q r) : r.queue.size = q.size := by
  cases hr <;> rfl

/-- The destroy flag is never cleared. -/
theorem runs_destroy {th : Thread α} {c : Call α} {q : JobQueue α} {r : Section α}
    (hr : Runs th c q r) (h : q.destroy = true) : r.queue.destroy = true := by
  cases hr with
  | destroyWaits begun | destroys begun =>
    cases begun with
    | first => rfl
    | again => exact h
  | pushWaits | pushes | popWaits | popFails | pops => exact h

/-- Only destroy frees the array. -/
theorem runs_freed {th : Thread α} {c : Call α} {q : JobQueue α} {r : Section α}
    (hr : Runs th c q r) (h : r.queue.array = none) : q.array = none ∨ c = .destroy := by
  cases hr with
  | pushes => cases h
  | destroyWaits | destroys => exact .inr rfl
  | pushWaits | popWaits | popFails | pops => exact .inl h

omit [DecidableEq T] in
/-- A section of destroy has set the flag, or finds it set by its first section. -/
theorem runs_destroyer {capacity : Nat} {s : State T α} {t : T} {r : Section α}
    (h : Wakeups capacity s) (ht : Ready (s.threads t) .destroy)
    (hr : Runs (s.threads t) .destroy s.queue r) : r.queue.destroy = true := by
  generalize hth : s.threads t = th at ht hr
  cases ht with
  | first =>
    cases hr with
    | destroyWaits begun | destroys begun =>
      cases begun
      rfl
  | again => exact runs_destroy hr (h.destroyer t _ _ hth)

theorem after_wakeups {capacity : Nat} {s : State T α} {t : T} {c : Call α} {r : Section α}
    (h : Wakeups capacity s) (ht : Ready (s.threads t) c)
    (hr : Runs (s.threads t) c s.queue r) : Wakeups capacity (s.after t c r) where
  size := (runs_size hr).trans h.size
  cond u c' on woken hu := by
    rcases after_waiting hu with ⟨he, rfl, -⟩ | ⟨was, hwas⟩
    · exact (runs_waits hr he).1
    · exact h.cond u c' on was hwas
  notfull u c' hu := by
    rcases after_unwoken hu with he | ⟨hwas, hmissed⟩
    · exact (runs_waits hr he).2
    · exact (runs_notfull hr (h.notfull u c' hwas)).resolve_left hmissed
  notempty u c' hu := by
    rcases after_unwoken hu with he | ⟨hwas, hmissed⟩
    · exact (runs_waits hr he).2
    · obtain ⟨hf, hd⟩ := h.notempty u c' hwas
      exact (runs_notempty hr hf hd).resolve_left hmissed
  empty u c' hu := by
    rcases after_unwoken hu with he | ⟨hwas, hmissed⟩
    · exact (runs_waits hr he).2
    · exact (runs_empty hr (h.empty u c' hwas)).resolve_left hmissed
  destroyer u on woken hu := by
    rcases after_waiting hu with ⟨-, hc, -⟩ | ⟨was, hwas⟩
    · subst hc
      exact runs_destroyer h ht hr
    · exact runs_destroy hr (h.destroyer u on was hwas)
  freed hfreed := by
    rcases runs_freed hr hfreed with hwas | hc
    · exact runs_destroy hr (h.freed hwas)
    · subst hc
      exact runs_destroyer h ht hr

theorem reachable_wakeups {capacity : Nat} {memory : Nat → α} {s : State T α}
    (h : Transition.Reachable (system T memory capacity) s) : Wakeups capacity s := by
  refine h.invariant ?_ ?_
  · rintro s rfl
    exact initial_wakeups memory capacity
  · rintro s s' - hs ⟨l, hl⟩
    rcases step_cases hl with ⟨t, c, r, ht, hr, rfl⟩ | ⟨t, c, on, ht, rfl⟩
    · exact after_wakeups hs ht hr
    · exact wake_wakeups hs ht

/-- In every reachable state an unwoken waiter's loop condition holds, so no
popper is stuck together with a pusher, nor while a destroyer waits. -/
theorem no_lost_wakeup (T : Type v) [DecidableEq T] (memory : Nat → α)
    (capacity : Nat) (hc : 1 ≤ capacity) (s : State T α)
    (h : Transition.Reachable (system T memory capacity) s) :
    (∀ t c, s.threads t = .waiting c .notfull false → s.queue.filled = s.queue.size) ∧
    (∀ t c, s.threads t = .waiting c .notempty false →
      s.queue.filled = 0 ∧ s.queue.destroy = false) ∧
    (∀ t c, s.threads t = .waiting c .empty false → 0 < s.queue.filled) ∧
    (¬∃ t u c d, s.threads t = .waiting c .notempty false ∧
      s.threads u = .waiting d .notfull false) ∧
    (¬∃ t u c d woken, s.threads t = .waiting c .notempty false ∧
      s.threads u = .waiting d .empty woken) := by
  have hw := reachable_wakeups h
  refine ⟨hw.notfull, hw.notempty, hw.empty, ?_, ?_⟩
  · rintro ⟨t, u, c, d, ht, hu⟩
    have hdrained := (hw.notempty t c ht).1
    have hfull := hw.notfull u d hu
    have hsize := hw.size
    omega
  · rintro ⟨t, u, c, d, woken, ht, hu⟩
    have hrunning := (hw.notempty t c ht).2
    have hd : d = .destroy := by
      have hcond := hw.cond u d .empty woken hu
      cases d with
      | destroy => rfl
      | push | pop => cases hcond
    rw [hd] at hu
    rw [hw.destroyer u .empty woken hu] at hrunning
    cases hrunning

/-- A pusher waiting on a full queue of one cell. -/
theorem no_lost_wakeup_full : ∃ s : State Bool Nat,
    s.threads true = .waiting (.push 6) .notfull false ∧ s.queue.filled = s.queue.size :=
  ⟨_, rfl, (no_lost_wakeup Bool (fun _ => 0) 1 (by decide) _ (Transition.reachable_of_run
    [.call true (.push 5), .call true (.push 6)] (.start rfl) rfl)).1 true (.push 6) rfl⟩

end CompSys.JobQueue
