import CompSys.Workers
import Mathlib.Tactic.Abel

/-!
# Every job is processed exactly once

The invariant ties the program counters of main and the workers to the queue:
what main has still to push, what the workers hold, and that a worker leaves
its loop only after destroy was called and the queue was drained.
-/
namespace CompSys.Workers

open JobQueue

universe u

variable {α : Type u} {n : Nat}

/-- The jobs main has not pushed yet. -/
def MainPc.unpushed (jobs : List α) : MainPc α → List α
  | .creating _ => jobs
  | .pushing rest => rest
  | _ => []

def MainPc.beforeDestroy : MainPc α → Prop
  | .creating _ | .pushing _ => True
  | _ => False

def MainPc.afterDestroy : MainPc α → Prop
  | .joining _ | .done => True
  | _ => False

/-- How many workers main has created. -/
def MainPc.created (n : Nat) : MainPc α → Nat
  | .creating i => i
  | _ => n

/-- How many workers main has joined. -/
def MainPc.joined (n : Nat) : MainPc α → Nat
  | .joining i => i
  | .done => n
  | _ => 0

/-- The job a worker has popped and not finished. -/
def WorkerPc.held : WorkerPc α → Multiset α
  | .processing job => {job}
  | _ => 0

def held (workers : Fin n → WorkerPc α) : Multiset α := ∑ i, (workers i).held

def finished (processed : List (Fin n × α)) : Multiset α := (processed.map Prod.snd : List α)

structure Inv (jobs : List α) (memory : Nat → α) (s : State n α) : Prop where
  queue : Transition.Reachable (JobQueue.system (Tid n) memory queueCapacity) s.jobs
  call : ∀ t c on woken, s.jobs.threads t = .waiting c on woken → s.call t = some c
  pushed : s.jobs.pushed ++ s.main.unpushed jobs = jobs
  popped : (s.jobs.popped : Multiset α) = finished s.processed + held s.workers
  running : s.main.beforeDestroy → s.jobs.queue.destroy = false
  drained : s.main.afterDestroy → s.jobs.queue.filled = 0
  exited : ∀ i, s.workers i = .exited →
    s.jobs.queue.destroy = true ∧ s.jobs.queue.filled = 0
  joined : ∀ i : Fin n, i.val < s.main.joined n → s.workers i = .exited
  fresh : ∀ i : Fin n, s.main.created n ≤ i.val → s.workers i = .notCreated

theorem initial_inv (jobs : List α) (memory : Nat → α) :
    Inv jobs memory (initial n memory) where
  queue := .start rfl
  call t c on woken h := by simp [initial, JobQueue.initial] at h
  pushed := rfl
  popped := by simp [initial, JobQueue.initial, State.popped, finished, held,
    WorkerPc.held]
  running _ := rfl
  drained h := h.elim
  exited i h := by simp [initial] at h
  joined i h := by simp [initial, MainPc.joined] at h
  fresh _ _ := rfl

/-- Moving one worker trades what it held for what it holds now. -/
theorem held_update (workers : Fin n → WorkerPc α) (i : Fin n) (pc : WorkerPc α) :
    held (Function.update workers i pc) + (workers i).held = held workers + pc.held := by
  unfold held
  have hsplit : ∀ f : Fin n → Multiset α, ∑ j, f j = f i + ∑ j ∈ Finset.univ.erase i, f j :=
    fun f => (Finset.add_sum_erase _ f (Finset.mem_univ i)).symm
  have hrest : ∑ j ∈ Finset.univ.erase i, (Function.update workers i pc j).held =
      ∑ j ∈ Finset.univ.erase i, (workers j).held :=
    Finset.sum_congr rfl fun j hj => by rw [Function.update_of_ne (Finset.ne_of_mem_erase hj)]
  rw [hsplit fun j => (Function.update workers i pc j).held, hsplit fun j => (workers j).held,
    hrest, Function.update_self]
  abel

/-- A worker that stands elsewhere than the one that moves stays there. -/
theorem update_kept {workers : Fin n → WorkerPc α} {i j : Fin n} {place : WorkerPc α}
    (hi : workers i ≠ place) (hj : workers j = place) (pc : WorkerPc α) :
    Function.update workers i pc j = place := by
  have hji : j ≠ i := by
    rintro rfl
    exact hi hj
  rw [Function.update_of_ne hji, hj]

/-- A worker that stands elsewhere than where one has moved stood there before. -/
theorem of_update {workers : Fin n → WorkerPc α} {i j : Fin n} {pc place : WorkerPc α}
    (hpc : pc ≠ place) (h : Function.update workers i pc j = place) : workers j = place := by
  by_cases hji : j = i
  · rw [hji, Function.update_self] at h
    exact absurd h hpc
  · rwa [Function.update_of_ne hji] at h

theorem call_main {s : State n α} {c : Call α} (h : s.call .main = some c) :
    (∃ job rest, s.main = .pushing (job :: rest) ∧ c = .push job) ∨
    (s.main = .destroying ∧ c = .destroy) := by
  cases hm : s.main with
  | pushing rest =>
    cases rest with
    | nil => simp [State.call, hm] at h
    | cons job rest =>
      simp only [State.call, hm, Option.some.injEq] at h
      exact .inl ⟨job, rest, rfl, h.symm⟩
  | destroying =>
    simp only [State.call, hm, Option.some.injEq] at h
    exact .inr ⟨rfl, h.symm⟩
  | creating | joining | done => simp [State.call, hm] at h

theorem call_worker {s : State n α} {i : Fin n} {c : Call α} (h : s.call (.worker i) = some c) :
    s.workers i = .popping ∧ c = .pop := by
  cases hw : s.workers i with
  | popping =>
    simp only [State.call, hw, Option.some.injEq] at h
    exact ⟨rfl, h.symm⟩
  | notCreated | processing | exited => simp [State.call, hw] at h

theorem ran_call_other (s : State n α) {t u : Tid n} (c : Call α) (r : Section α) (h : u ≠ t) :
    (s.ran t c r).call u = s.call u := by
  cases he : r.exit with
  | waits on => cases t <;> cases u <;> simp [State.ran, State.call, he]
  | returns code data =>
    cases t with
    | main =>
      cases u with
      | main => exact absurd rfl h
      | worker j => simp [State.ran, State.call, he]
    | worker i =>
      cases u with
      | main => simp [State.ran, State.call, he]
      | worker j =>
        have hj : j ≠ i := fun hij => h (by rw [hij])
        simp [State.ran, State.call, he, hj]

theorem ran_worker_main (s : State n α) (i : Fin n) (c : Call α) (r : Section α) :
    (s.ran (.worker i) c r).main = s.main := by
  cases he : r.exit <;> simp [State.ran, he]

theorem ran_queue (s : State n α) (t : Tid n) (c : Call α) (r : Section α) :
    (s.ran t c r).jobs.queue = r.queue := by
  cases he : r.exit <;> cases t <;> simp [State.ran, JobQueue.State.after, he]

theorem ran_processed (s : State n α) (t : Tid n) (c : Call α) (r : Section α) :
    (s.ran t c r).processed = s.processed := by
  cases he : r.exit <;> cases t <;> simp [State.ran, he]

/-- A section moves no worker but the one that runs it. -/
theorem ran_other (s : State n α) {t : Tid n} (c : Call α) (r : Section α) {i : Fin n}
    (hi : t ≠ .worker i) : (s.ran t c r).workers i = s.workers i := by
  cases he : r.exit with
  | waits on => simp [State.ran, he]
  | returns code data =>
    cases t with
    | main => simp [State.ran, he]
    | worker j =>
      have hij : i ≠ j := fun heq => hi (by rw [heq])
      simp [State.ran, he, hij]

/-- A waiting thread is still inside the call its program counter names. -/
theorem ran_call {s : State n α} {t : Tid n} {c : Call α} {r : Section α}
    (hcall : s.call t = some c)
    (hall : ∀ t c on woken, s.jobs.threads t = .waiting c on woken → s.call t = some c)
    (u : Tid n) (c' : Call α) (on : Cond) (woken : Bool)
    (h : (s.jobs.after t c r).threads u = .waiting c' on woken) :
    (s.ran t c r).call u = some c' := by
  by_cases hu : u = t
  · subst hu
    obtain ⟨he, rfl⟩ := after_waiting_self h
    rw [← hcall]
    cases u <;> simp [State.ran, State.call, he]
  · rw [ran_call_other s c r hu]
    rcases after_waiting h with ⟨-, -, hut⟩ | ⟨was, hwas⟩
    · exact absurd hut hu
    · exact hall u c' on was hwas

/-! ## The three calls

Each lemma runs one critical section from the program counter that makes the
call and re-establishes the invariant for all of its outcomes. -/

section Calls

variable {jobs : List α} {memory : Nat → α} {s : State n α} {t : Tid n} {r : Section α}

theorem ran_push {th : Thread α} {job : α} {rest : List α} (h : Inv jobs memory s)
    (hmain : s.main = .pushing (job :: rest)) (hr : Runs th (.push job) s.jobs.queue r)
    (hq : Transition.Reachable (JobQueue.system (Tid n) memory queueCapacity)
      (s.jobs.after .main (.push job) r)) :
    Inv jobs memory (s.ran .main (.push job) r) := by
  have hcall : s.call .main = some (.push job) := by simp [State.call, hmain]
  have hrunning : s.jobs.queue.destroy = false := h.running (by simp [hmain, MainPc.beforeDestroy])
  have hnotexited : ∀ i, s.workers i ≠ .exited := fun i hi => by
    have := (h.exited i hi).1
    simp [hrunning] at this
  cases hr with
  | pushWaits =>
    exact {
      queue := hq
      call := ran_call hcall h.call
      pushed := by simpa [State.ran, after_pushed] using h.pushed
      popped := by simpa [State.ran, after_popped] using h.popped
      running := h.running
      drained := h.drained
      exited := h.exited
      joined := h.joined
      fresh := h.fresh }
  | pushes =>
    have hpushed := h.pushed
    rw [hmain] at hpushed
    exact {
      queue := hq
      call := ran_call hcall h.call
      pushed := by
        simpa [State.ran, after_pushed, hmain, MainPc.returned, MainPc.unpushed] using hpushed
      popped := by simpa [State.ran, after_popped] using h.popped
      running := fun _ => hrunning
      drained := by simp [State.ran, hmain, MainPc.returned, MainPc.afterDestroy]
      exited := fun i hi => absurd hi (hnotexited i)
      joined := fun i hi => by
        simp [State.ran, hmain, MainPc.returned, MainPc.joined] at hi
      fresh := fun i hi => absurd hi (by simp [State.ran, hmain, MainPc.returned, MainPc.created]) }

theorem ran_pop {th : Thread α} {i : Fin n} (h : Inv jobs memory s)
    (hworker : s.workers i = .popping) (hr : Runs th .pop s.jobs.queue r)
    (hq : Transition.Reachable (JobQueue.system (Tid n) memory queueCapacity)
      (s.jobs.after (.worker i) .pop r)) :
    Inv jobs memory (s.ran (.worker i) .pop r) := by
  have hcall : s.call (.worker i) = some .pop := by simp [State.call, hworker]
  have hkept : ∀ pc j, j.val < s.main.joined n →
      Function.update s.workers i pc j = .exited :=
    fun pc j hj => update_kept (by simp [hworker]) (h.joined j hj) pc
  have hfresh : ∀ pc j, s.main.created n ≤ j.val →
      Function.update s.workers i pc j = .notCreated :=
    fun pc j hj => update_kept (by simp [hworker]) (h.fresh j hj) pc
  cases hr with
  | popWaits =>
    exact {
      queue := hq
      call := ran_call hcall h.call
      pushed := by simpa [State.ran, after_pushed] using h.pushed
      popped := by simpa [State.ran, after_popped] using h.popped
      running := h.running
      drained := h.drained
      exited := h.exited
      joined := h.joined
      fresh := h.fresh }
  | popFails drained ended =>
    have hheld := held_update s.workers i .exited
    simp only [hworker, WorkerPc.held, add_zero] at hheld
    exact {
      queue := hq
      call := ran_call hcall h.call
      pushed := by simpa [State.ran, after_pushed] using h.pushed
      popped := by simpa [State.ran, after_popped, WorkerPc.returned, hheld] using h.popped
      running := h.running
      drained := h.drained
      exited := fun _ _ => ⟨ended, drained⟩
      joined := hkept .exited
      fresh := hfresh .exited }
  | @pops _ cells some_left live =>
    have hheld := held_update s.workers i (.processing (cells s.jobs.queue.tail))
    simp only [hworker, WorkerPc.held, add_zero] at hheld
    exact {
      queue := hq
      call := ran_call hcall h.call
      pushed := by simpa [State.ran, after_pushed] using h.pushed
      popped := by
        have hpopped := h.popped
        simp only [State.ran, after_popped, popped_pop, WorkerPc.returned, if_true, hheld]
        rw [← Multiset.coe_add, hpopped]
        exact add_assoc _ _ _
      running := h.running
      drained := fun hd => absurd (h.drained hd) some_left
      exited := fun j hj =>
        absurd (h.exited j (of_update (by simp [WorkerPc.returned]) hj)).2 some_left
      joined := hkept _
      fresh := hfresh _ }

theorem ran_destroy {th : Thread α} (h : Inv jobs memory s)
    (hmain : s.main = .destroying) (hr : Runs th .destroy s.jobs.queue r)
    (hq : Transition.Reachable (JobQueue.system (Tid n) memory queueCapacity)
      (s.jobs.after .main .destroy r)) :
    Inv jobs memory (s.ran .main .destroy r) := by
  have hcall : s.call .main = some .destroy := by simp [State.call, hmain]
  have hkept := runs_destroy hr
  cases hr with
  | destroyWaits begun some_left =>
    exact {
      queue := hq
      call := ran_call hcall h.call
      pushed := by simpa [State.ran, after_pushed] using h.pushed
      popped := by simpa [State.ran, after_popped] using h.popped
      running := fun hb => by simp [State.ran, hmain, MainPc.beforeDestroy] at hb
      drained := h.drained
      exited := fun i hi => ⟨hkept (h.exited i hi).1, (h.exited i hi).2⟩
      joined := h.joined
      fresh := h.fresh }
  | destroys begun drained =>
    have hpushed := h.pushed
    rw [hmain] at hpushed
    exact {
      queue := hq
      call := ran_call hcall h.call
      pushed := by
        simpa [State.ran, after_pushed, hmain, MainPc.returned, MainPc.unpushed] using hpushed
      popped := by simpa [State.ran, after_popped] using h.popped
      running := fun hb => by simp [State.ran, hmain, MainPc.returned, MainPc.beforeDestroy] at hb
      drained := fun _ => drained
      exited := fun i hi => ⟨hkept (h.exited i hi).1, drained⟩
      joined := fun i hi => by
        simp [State.ran, hmain, MainPc.returned, MainPc.joined] at hi
      fresh := fun i hi => absurd hi (by simp [State.ran, hmain, MainPc.returned, MainPc.created]) }

/-- A critical section of any thread keeps the invariant. -/
theorem ran_inv {th : Thread α} {c : Call α} (h : Inv jobs memory s)
    (hcall : s.call t = some c) (hr : Runs th c s.jobs.queue r)
    (hq : Transition.Reachable (JobQueue.system (Tid n) memory queueCapacity)
      (s.jobs.after t c r)) :
    Inv jobs memory (s.ran t c r) := by
  cases t with
  | main =>
    rcases call_main hcall with ⟨job, rest, hmain, rfl⟩ | ⟨hmain, rfl⟩
    · exact ran_push h hmain hr hq
    · exact ran_destroy h hmain hr hq
  | worker i =>
    obtain ⟨hworker, rfl⟩ := call_worker hcall
    exact ran_pop h hworker hr hq

end Calls

/-! ## The steps outside the queue -/

section Steps

variable {jobs : List α} {memory : Nat → α} {s : State n α}

theorem call_update_other {workers : Fin n → WorkerPc α} {pc : MainPc α} {i : Fin n} {t : Tid n}
    {jobs : JobQueue.State (Tid n) α} {processed : List (Fin n × α)} {new : WorkerPc α}
    (h : workers i ≠ .popping) {c : Call α}
    (hc : State.call ⟨jobs, pc, workers, processed⟩ t = some c) :
    State.call ⟨jobs, pc, Function.update workers i new, processed⟩ t = some c := by
  cases t with
  | main => exact hc
  | worker j =>
    have hj : j ≠ i := by
      rintro rfl
      exact h (call_worker hc).1
    simpa [State.call, hj] using hc

/-- A main that calls nothing may go on, the calls of the workers stay. -/
theorem call_go_on (hmain : s.call .main = none)
    (h : ∀ t c on woken, s.jobs.threads t = .waiting c on woken → s.call t = some c)
    {pc : MainPc α} (t : Tid n) (c : Call α) (on : Cond) (woken : Bool)
    (ht : s.jobs.threads t = .waiting c on woken) :
    State.call { s with main := pc } t = some c := by
  have hcall := h t c on woken ht
  cases t with
  | main =>
    rw [hmain] at hcall
    cases hcall
  | worker j => exact hcall

theorem create_inv {i : Nat} (h : Inv jobs memory s) (hmain : s.main = .creating i)
    (hi : i < n) :
    Inv jobs memory { s with
      main := .creating (i + 1), workers := Function.update s.workers ⟨i, hi⟩ .popping } where
  queue := h.queue
  call t c on woken ht := by
    have hcall := h.call t c on woken ht
    cases t with
    | main => simp [State.call, hmain] at hcall
    | worker j =>
      have hj : j ≠ ⟨i, hi⟩ := by
        rintro rfl
        have hnew := h.fresh ⟨i, hi⟩ (by simp [hmain, MainPc.created])
        rw [(call_worker hcall).1] at hnew
        cases hnew
      simpa [State.call, hj] using hcall
  pushed := by simpa [hmain, MainPc.unpushed] using h.pushed
  popped := by
    have hnew := h.fresh ⟨i, hi⟩ (by simp [hmain, MainPc.created])
    have hheld := held_update s.workers ⟨i, hi⟩ .popping
    simp only [hnew, WorkerPc.held, add_zero] at hheld
    simpa [hheld] using h.popped
  running _ := h.running (by simp [hmain, MainPc.beforeDestroy])
  drained hd := hd.elim
  exited j hj := h.exited j (of_update (by simp) hj)
  joined j hj := by simp [MainPc.joined] at hj
  fresh j hj := by
    simp only [MainPc.created] at hj
    have hji : j ≠ ⟨i, hi⟩ := fun he => by simp only [he] at hj; omega
    simp only [Function.update_of_ne hji]
    exact h.fresh j (by simp only [hmain, MainPc.created]; omega)

theorem created_inv {i : Nat} (h : Inv jobs memory s) (hmain : s.main = .creating i) :
    Inv jobs memory { s with main := .pushing jobs } where
  queue := h.queue
  call := call_go_on (by simp [State.call, hmain]) h.call
  pushed := by simpa [hmain, MainPc.unpushed] using h.pushed
  popped := h.popped
  running _ := h.running (by simp [hmain, MainPc.beforeDestroy])
  drained hd := hd.elim
  exited := h.exited
  joined j hj := by simp [MainPc.joined] at hj
  fresh j hj := absurd hj (by simp [MainPc.created])

theorem endOfInput_inv (h : Inv jobs memory s) (hmain : s.main = .pushing []) :
    Inv jobs memory { s with main := .destroying } where
  queue := h.queue
  call := call_go_on (by simp [State.call, hmain]) h.call
  pushed := by simpa [hmain, MainPc.unpushed] using h.pushed
  popped := h.popped
  running hb := hb.elim
  drained hd := hd.elim
  exited := h.exited
  joined j hj := by simp [MainPc.joined] at hj
  fresh j hj := absurd hj (by simp [MainPc.created])

theorem join_inv {i : Nat} (h : Inv jobs memory s) (hmain : s.main = .joining i)
    (hi : ∀ hn : i < n, s.workers ⟨i, hn⟩ = .exited) {pc : MainPc α}
    (hpc : pc = .joining (i + 1) ∨ pc = .done ∧ ¬i < n) :
    Inv jobs memory { s with main := pc } where
  queue := h.queue
  call := call_go_on (by simp [State.call, hmain]) h.call
  pushed := by
    have hpushed := h.pushed
    rw [hmain] at hpushed
    rcases hpc with rfl | ⟨rfl, -⟩ <;> exact hpushed
  popped := h.popped
  running hb := by rcases hpc with rfl | ⟨rfl, -⟩ <;> exact hb.elim
  drained _ := h.drained (by simp [hmain, MainPc.afterDestroy])
  exited := h.exited
  joined j hj := by
    by_cases hji : j.val < i
    · exact h.joined j (by simpa [hmain, MainPc.joined] using hji)
    · rcases hpc with rfl | ⟨rfl, hn⟩
      · simp only [MainPc.joined] at hj
        have he : j = ⟨i, by omega⟩ := Fin.ext (by simp only; omega)
        rw [he]
        exact hi _
      · exact absurd j.isLt (by omega)
  fresh j hj := by
    rcases hpc with rfl | ⟨rfl, -⟩ <;> exact absurd hj (by simp [MainPc.created])

theorem process_inv {i : Fin n} {job : α} (h : Inv jobs memory s)
    (hworker : s.workers i = .processing job) :
    Inv jobs memory { s with
      workers := Function.update s.workers i .popping
      processed := s.processed ++ [(i, job)] } where
  queue := h.queue
  call t c on woken ht :=
    call_update_other (by simp [hworker]) (h.call t c on woken ht)
  pushed := h.pushed
  popped := by
    have hheld := held_update s.workers i .popping
    simp only [hworker, WorkerPc.held, add_zero] at hheld
    simp only [finished, List.map_append, List.map_cons, List.map_nil, ← Multiset.coe_add,
      Multiset.coe_singleton]
    rw [h.popped, ← hheld, add_right_comm, add_assoc]
    rfl
  running := h.running
  drained := h.drained
  exited j hj := h.exited j (of_update (by simp) hj)
  joined j hj := update_kept (by simp [hworker]) (h.joined j hj) .popping
  fresh j hj := update_kept (by simp [hworker]) (h.fresh j hj) .popping

theorem wake_inv {t : Tid n} {c : Call α} {on : Cond} (h : Inv jobs memory s)
    (ht : s.jobs.threads t = .waiting c on false)
    (hq : Transition.Reachable (JobQueue.system (Tid n) memory queueCapacity)
      { s.jobs with threads := Function.update s.jobs.threads t (.waiting c on true) }) :
    Inv jobs memory { s with
      jobs := { s.jobs with
        threads := Function.update s.jobs.threads t (.waiting c on true) } } where
  queue := hq
  call u c' on' woken hu := by
    obtain ⟨was, hwas⟩ := wake_waiting ht hu
    exact h.call u c' on' was hwas
  pushed := h.pushed
  popped := h.popped
  running := h.running
  drained := h.drained
  exited := h.exited
  joined := h.joined
  fresh := h.fresh

theorem moves_inv {s' : State n α} {l : Label n} (h : Inv jobs memory s)
    (hmoves : Moves jobs s l s') : Inv jobs memory s' := by
  cases hmoves with
  | create creating more => exact create_inv h creating more
  | created creating _ => exact created_inv h creating
  | endOfInput pushed => exact endOfInput_inv h pushed
  | join joining _ exited => exact join_inv h joining (fun _ => exited) (.inl rfl)
  | joined joining all => exact join_inv h joining (fun hn => absurd hn all) (.inr ⟨rfl, all⟩)
  | process processing => exact process_inv h processing
  | @call t c r calling outside entered =>
    exact ran_inv h calling (enter_runs entered)
      (h.queue.step ⟨.call t c, by simp [JobQueue.step, outside, entered]⟩)
  | @resume t c on r waiting resumed =>
    exact ran_inv h (h.call t c on true waiting)
      (resume_runs resumed : Runs (.waiting c on true) c _ r)
      (h.queue.step ⟨.resume t, by simp [JobQueue.step, waiting, resumed]⟩)
  | @wake t c on waiting =>
    exact wake_inv h waiting (h.queue.step ⟨.wake t, by simp [JobQueue.step, waiting]⟩)

theorem step_inv {s' : State n α} {l : Label n} (h : Inv jobs memory s)
    (hl : step jobs s l = some s') : Inv jobs memory s' :=
  moves_inv h (moves_of_step hl)

end Steps

theorem reachable_inv {jobs : List α} {memory : Nat → α} {s : State n α}
    (h : Transition.Reachable (program n jobs memory) s) : Inv jobs memory s := by
  refine h.invariant ?_ ?_
  · rintro s rfl
    exact initial_inv jobs memory
  · rintro s s' - hs ⟨l, hl⟩
    exact step_inv hs hl

/-- When main has joined all workers the processed jobs are the pushed jobs,
each as often; a worker has left its loop only after destroy was called and
with the queue drained, and stays so. -/
def ExactlyOnce (jobs : List α) (s : State n α) : Prop :=
  (s.main = .done → (s.processed.map Prod.snd).Perm jobs) ∧
  ∀ i, s.workers i = .exited → s.jobs.queue.destroy = true ∧ s.jobs.queue.filled = 0

theorem Inv.exactlyOnce {jobs : List α} {memory : Nat → α} {s : State n α}
    (hinv : Inv jobs memory s) : ExactlyOnce jobs s := by
  refine ⟨fun hdone => ?_, hinv.exited⟩
  have hheld : held s.workers = 0 := by
    refine Finset.sum_eq_zero fun i _ => ?_
    rw [hinv.joined i (by simp [hdone, MainPc.joined])]
    rfl
  have hpopped : s.jobs.popped = s.jobs.pushed := by
    obtain ⟨items, hrep, hitems⟩ := reachable_fifo (by decide) hinv.queue
    have hempty : items = [] := List.eq_nil_of_length_eq_zero <|
      hrep.filled.symm.trans (hinv.drained (by simp [hdone, MainPc.afterDestroy]))
    rw [hitems, hempty, List.append_nil]
  have hpushed : s.jobs.pushed = jobs := by
    simpa [hdone, MainPc.unpushed] using hinv.pushed
  have hmultiset := hinv.popped
  rw [hheld, add_zero, hpopped, hpushed] at hmultiset
  exact (Multiset.coe_eq_coe.mp hmultiset).symm

theorem reachable_exactlyOnce {jobs : List α} {memory : Nat → α} {s : State n α}
    (h : Transition.Reachable (program n jobs memory) s) : ExactlyOnce jobs s :=
  (reachable_inv h).exactlyOnce

/-- The three programs process every job exactly once, for any number of workers. -/
theorem every_job_exactly_once (n : Nat) (memory : Nat → String) :
    (∀ entries s, Transition.Reachable (fauxgrepMt n entries memory) s →
      ExactlyOnce (ftsJobs entries) s) ∧
    (∀ entries s, Transition.Reachable (fhistogramMt n entries memory) s →
      ExactlyOnce (ftsJobs entries) s) ∧
    (∀ lines s, Transition.Reachable (fibs n lines memory) s → ExactlyOnce lines s) :=
  ⟨fun _ _ h => reachable_exactlyOnce h, fun _ _ h => reachable_exactlyOnce h,
    fun _ _ h => reachable_exactlyOnce h⟩

/-- Two workers on two lines. The one waits at the empty queue when the first line comes, the other
takes the second line before that one is processed. -/
def twoLines (v w : Fin 2) : List (Label 2) :=
  [.create, .create, .create, .call (.worker w), .call .main, .resume (.worker w), .call .main,
    .endOfInput, .call (.worker v), .process w, .call .main, .process v, .call (.worker v),
    .call (.worker w), .join, .join, .join]

theorem every_job_exactly_once_two_lines : ∃ s : State 2 String,
    s.main = .done ∧ s.processed = [(1, "7"), (0, "9")] ∧
      (s.processed.map Prod.snd).Perm ["7", "9"] := by
  have hrun : ∃ s : State 2 String, (twoLines 0 1).foldlM (step ["7", "9"])
      (initial 2 fun _ => "") = some s ∧ s.main = .done ∧ s.processed = [(1, "7"), (0, "9")] :=
    ⟨_, rfl, rfl, rfl⟩
  obtain ⟨s, hrun, hdone, hprocessed⟩ := hrun
  have honce := (every_job_exactly_once 2 fun _ => "").2.2 ["7", "9"] s
    (Transition.reachable_of_run (twoLines 0 1) (.start rfl) hrun)
  exact ⟨s, hdone, hprocessed, honce.1 hdone⟩

end CompSys.Workers
