import CompSys.JobQueue
import CompSys.Ring

/-!
# The job queue is a bounded FIFO

The ring buffer of every reachable state represents the items that were pushed
and not yet popped, oldest first. Threads, wraps of the ring and suspensions
at the condition variables are unbounded.
-/
namespace CompSys.JobQueue

universe u v

variable {T : Type v} {α : Type u}

/-- The array, as long as it exists, holds `items`; only an empty queue has none. -/
structure Represents (capacity : Nat) (q : JobQueue α) (items : List α) : Prop where
  size : q.size = capacity
  filled : q.filled = items.length
  bounded : items.length ≤ capacity
  tail : q.tail < capacity
  head : q.head = (q.tail + items.length) % capacity
  cells : ∀ cells, q.array = some cells → Ring.Holds capacity cells q.tail items
  freed : q.array = none → items = []

theorem init_represents (memory : Nat → α) {capacity : Nat} (hc : 1 ≤ capacity) :
    Represents capacity (jobQueueInit memory capacity) [] := by
  constructor <;> simp [jobQueueInit]
  omega

/-- The completed calls a critical section adds to the history. -/
def Section.events (t : T) (c : Call α) (r : Section α) : List (Event T α) :=
  match r.exit with
  | .returns code data => [⟨t, c, code, data⟩]
  | .waits _ => []

def Section.pushed (t : T) (c : Call α) (r : Section α) : List α :=
  (r.events t c).filterMap Event.pushed

def Section.popped (t : T) (c : Call α) (r : Section α) : List α :=
  (r.events t c).filterMap Event.popped

@[simp] theorem pushed_waits (t : T) (c : Call α) (q : JobQueue α) (b : List Cond) (on : Cond) :
    Section.pushed t c ⟨q, b, .waits on⟩ = [] := rfl
@[simp] theorem popped_waits (t : T) (c : Call α) (q : JobQueue α) (b : List Cond) (on : Cond) :
    Section.popped t c ⟨q, b, .waits on⟩ = [] := rfl
@[simp] theorem pushed_push (t : T) (item : α) (q : JobQueue α) (b : List Cond)
    (data : Option α) : Section.pushed t (.push item) ⟨q, b, .returns 0 data⟩ = [item] := rfl
@[simp] theorem popped_push (t : T) (item : α) (q : JobQueue α) (b : List Cond) (code : Int)
    (data : Option α) : Section.popped t (.push item) ⟨q, b, .returns code data⟩ = [] := rfl
@[simp] theorem pushed_pop (t : T) (q : JobQueue α) (b : List Cond) (code : Int)
    (data : Option α) : Section.pushed t .pop ⟨q, b, .returns code data⟩ = [] := rfl
@[simp] theorem popped_pop (t : T) (item : α) (q : JobQueue α) (b : List Cond) :
    Section.popped t .pop ⟨q, b, .returns 0 (some item)⟩ = [item] := rfl
@[simp] theorem popped_pop_failed (t : T) (q : JobQueue α) (b : List Cond) :
    Section.popped t .pop ⟨q, b, .returns (-1) none⟩ = [] := rfl
@[simp] theorem pushed_destroy (t : T) (q : JobQueue α) (b : List Cond) (code : Int)
    (data : Option α) : Section.pushed t .destroy ⟨q, b, .returns code data⟩ = [] := rfl
@[simp] theorem popped_destroy (t : T) (q : JobQueue α) (b : List Cond) (code : Int)
    (data : Option α) : Section.popped t .destroy ⟨q, b, .returns code data⟩ = [] := rfl

/-- One critical section moves items through the represented sequence: pushed
ones enter at the end, popped ones leave at the front. -/
theorem runs_represents {capacity : Nat} (t : T) {th : Thread α} {c : Call α}
    {q : JobQueue α} {r : Section α} {items : List α} (hc : 1 ≤ capacity) (hr : Runs th c q r) (h : Represents capacity q items) :
    ∃ items', Represents capacity r.queue items' ∧
      items ++ r.pushed t c = r.popped t c ++ items' := by
  cases hr with
  | pushWaits => exact ⟨items, h, by simp⟩
  | popWaits => exact ⟨items, h, by simp⟩
  | popFails => exact ⟨items, h, by simp⟩
  | @pushes data _ cells room live =>
    have hroom : items.length < capacity := by
      have := h.bounded
      rw [h.filled, h.size] at room
      omega
    refine ⟨items ++ [data], ?_, by simp⟩
    constructor
    · exact h.size
    · simp [h.filled]
    · simpa using Nat.succ_le_of_lt hroom
    · exact h.tail
    · simp [h.size, h.head, ← Nat.add_assoc]
    · rintro cells' hcells
      cases hcells
      rw [h.head]
      exact (h.cells cells live).push hroom
    · simp
  | @pops _ cells some_left live =>
    cases items with
    | nil => exact absurd h.filled (by simpa using some_left)
    | cons item items =>
      have hlen := h.bounded
      have hhead := (h.cells cells live).head h.tail
      refine ⟨items, ?_, by simp [hhead]⟩
      constructor
      · exact h.size
      · simp [h.filled]
      · simp only [List.length_cons] at hlen
        omega
      · simpa [h.size] using Nat.mod_lt _ hc
      · simp only [h.head, h.size, List.length_cons, Nat.mod_add_mod]
        congr 1
        omega
      · intro cells' hcells
        have he : cells = cells' := Option.some.inj (live.symm.trans hcells)
        rw [h.size, ← he]
        exact (h.cells cells live).pop
      · simp [live]
  | destroyWaits =>
    refine ⟨items, ?_, by simp⟩
    exact ⟨h.size, h.filled, h.bounded, h.tail, h.head, h.cells, h.freed⟩
  | destroys _ drained =>
    have hitems : items = [] := List.eq_nil_of_length_eq_zero (h.filled.symm.trans drained)
    refine ⟨items, ?_, by simp⟩
    exact ⟨h.size, h.filled, h.bounded, h.tail, h.head, by simp, fun _ => hitems⟩

variable [DecidableEq T]

theorem after_history (s : State T α) (t : T) (c : Call α) (r : Section α) :
    (s.after t c r).history = s.history ++ r.events t c := by
  cases he : r.exit <;> simp [State.after, Section.events, he]

theorem after_pushed (s : State T α) (t : T) (c : Call α) (r : Section α) :
    (s.after t c r).pushed = s.pushed ++ r.pushed t c := by
  simp only [State.pushed, Section.pushed, after_history, List.filterMap_append]

theorem after_popped (s : State T α) (t : T) (c : Call α) (r : Section α) :
    (s.after t c r).popped = s.popped ++ r.popped t c := by
  simp only [State.popped, Section.popped, after_history, List.filterMap_append]

/-- The queue represents the pushed items that were not popped. -/
def Fifo (capacity : Nat) (s : State T α) : Prop :=
  ∃ items, Represents capacity s.queue items ∧ s.pushed = s.popped ++ items

theorem step_fifo {capacity : Nat} (hc : 1 ≤ capacity) {s s' : State T α} {l : Label T α}
    (hl : step s l = some s') (h : Fifo capacity s) : Fifo capacity s' := by
  obtain ⟨items, hrep, hitems⟩ := h
  rcases step_cases hl with ⟨t, c, r, -, hr, rfl⟩ | ⟨t, c, on, -, rfl⟩
  · obtain ⟨items', hrep', hmove⟩ := runs_represents t hc hr hrep
    refine ⟨items', hrep', ?_⟩
    rw [after_pushed, after_popped, hitems, List.append_assoc, hmove, List.append_assoc]
  · exact ⟨items, hrep, hitems⟩

theorem reachable_fifo {capacity : Nat} (hc : 1 ≤ capacity) {memory : Nat → α}
    {s : State T α} (h : Transition.Reachable (system T memory capacity) s) :
    Fifo capacity s := by
  refine h.invariant ?_ ?_
  · rintro s rfl
    exact ⟨[], init_represents memory hc, rfl⟩
  · rintro s s' - hs ⟨l, hl⟩
    exact step_fifo hc hl hs

/-- In every reachable state the ring indices are in range and consistent, the
cells from `tail` on hold the pushed and not yet popped items in push order,
and the popped items are a prefix of the pushed ones. -/
theorem linearizable_bounded_fifo (T : Type v) [DecidableEq T] (memory : Nat → α)
    (capacity : Nat) (hc : 1 ≤ capacity) (s : State T α)
    (h : Transition.Reachable (system T memory capacity) s) :
    s.queue.size = capacity ∧ s.queue.filled ≤ s.queue.size ∧
    s.queue.head < s.queue.size ∧ s.queue.tail < s.queue.size ∧
    s.queue.head = (s.queue.tail + s.queue.filled) % s.queue.size ∧
    s.pushed.length = s.popped.length + s.queue.filled ∧
    (∀ i, i < s.queue.filled → ∃ cells, s.queue.array = some cells ∧
      s.pushed[s.popped.length + i]? = some (cells ((s.queue.tail + i) % s.queue.size))) ∧
    s.popped <+: s.pushed := by
  obtain ⟨items, hrep, hitems⟩ := reachable_fifo hc h
  have hsize := hrep.size
  have hfilled := hrep.filled
  have hbounded := hrep.bounded
  refine ⟨hsize, by omega, ?_, ?_, ?_, ?_, ?_, ⟨items, hitems.symm⟩⟩
  · rw [hsize, hrep.head]
    exact Nat.mod_lt _ hc
  · rw [hsize]
    exact hrep.tail
  · rw [hsize, hfilled]
    exact hrep.head
  · rw [hitems, List.length_append, hfilled]
  · intro i hi
    have hlt : i < items.length := by omega
    cases harray : s.queue.array with
    | none =>
      rw [hrep.freed harray] at hlt
      simp at hlt
    | some cells =>
      refine ⟨cells, rfl, ?_⟩
      rw [hitems, List.getElem?_append_right (by omega), hsize, hrep.cells cells harray i hlt]
      simp [hlt]

/-- A pusher and a popper on a queue of one cell. -/
theorem linearizable_bounded_fifo_one_cell : ∃ s : State Bool Nat,
    s.popped = [5] ∧ s.pushed = [5, 6] ∧ s.popped <+: s.pushed :=
  ⟨_, rfl, rfl, (linearizable_bounded_fifo Bool (fun _ => 0) 1 (by decide) _
    (Transition.reachable_of_run
      [.call true (.push 5), .call false .pop, .call true (.push 6)]
      (.start rfl) rfl)).2.2.2.2.2.2.2⟩

end CompSys.JobQueue
