import CompSys.WorkersOnce

/-!
# The queue of A2 is torn down under its workers

`job_queue_destroy` destroys the condition variables at the end of its last critical
section and the mutex after it, and main joins the workers only then. A worker that comes
back for another job, or out of its wait, uses a mutex that may be gone.
-/
namespace CompSys.Workers.Teardown

open JobQueue Transition

universe u

variable {α : Type u} {n : ℕ}

/-- The uses of a mutex or of a condition variable that has been destroyed. -/
inductive Misuse where
  | lock
  | reacquire
  | wait
  deriving DecidableEq, Repr

/-- The program, with what main has destroyed and what was misused. -/
structure State (n : ℕ) (α : Type u) where
  program : Workers.State n α
  condsDestroyed : Bool
  mutexDestroyed : Bool
  misuses : List (Tid n × Misuse)

inductive Label (n : ℕ) where
  | run (label : Workers.Label n)
  | destroyMutex

def initial (n : ℕ) (memory : ℕ → α) : State n α := ⟨Workers.initial n memory, false, false, []⟩

/-- The last critical section of `job_queue_destroy`. -/
def destroysConds (p p' : Workers.State n α) : Bool :=
  match p.main, p'.main with
  | .destroying, .joining _ => true
  | _, _ => false

/-- A critical section that ends in `pthread_cond_wait`. -/
def waitUses (s : State n α) (t : Tid n) (p : Workers.State n α) : List (Tid n × Misuse) :=
  match p.jobs.threads t with
  | .waiting _ _ false => if s.condsDestroyed then [(t, .wait)] else []
  | _ => []

def uses (s : State n α) (label : Workers.Label n) (p : Workers.State n α) :
    List (Tid n × Misuse) :=
  match label with
  | .call t => (if s.mutexDestroyed then [(t, .lock)] else []) ++ waitUses s t p
  | .resume t => (if s.mutexDestroyed then [(t, .reacquire)] else []) ++ waitUses s t p
  | _ => []

def State.after (s : State n α) (label : Workers.Label n) (p : Workers.State n α) : State n α where
  program := p
  condsDestroyed := s.condsDestroyed || destroysConds s.program p
  mutexDestroyed := s.mutexDestroyed
  misuses := s.misuses ++ uses s label p

/-- Main destroys the mutex before it returns from `job_queue_destroy` to the joins. -/
def step (jobs : List α) (s : State n α) : Label n → Option (State n α)
  | .run .join =>
    if s.mutexDestroyed then (Workers.step jobs s.program .join).map (s.after .join) else none
  | .run label => (Workers.step jobs s.program label).map (s.after label)
  | .destroyMutex =>
    match s.program.main, s.mutexDestroyed with
    | .joining _, false => some { s with mutexDestroyed := true }
    | _, _ => none

/-- The mutex is destroyed only when every worker has left its loop. -/
def Guarded (s : State n α) : Label n → Prop
  | .destroyMutex => ∀ i, s.program.workers i = .exited
  | .run _ => True

section Steps

variable {jobs : List α} {memory : ℕ → α} {s s' : State n α}

theorem run_step {label : Workers.Label n} (h : step jobs s (.run label) = some s') :
    (label = .join → s.mutexDestroyed = true) ∧
      ∃ p, Workers.step jobs s.program label = some p ∧ s' = s.after label p := by
  have hrun : (label = .join → s.mutexDestroyed = true) ∧
      (Workers.step jobs s.program label).map (s.after label) = some s' := by
    cases label with
    | join =>
      simp only [step] at h
      split at h
      case isTrue hdestroyed => exact ⟨fun _ => hdestroyed, h⟩
      case isFalse => cases h
    | create | endOfInput | process | call | resume | wake =>
      exact ⟨by simp, h⟩
  refine ⟨hrun.1, ?_⟩
  obtain ⟨p, hp, heq⟩ := Option.map_eq_some_iff.mp hrun.2
  exact ⟨p, hp, heq.symm⟩

theorem destroyMutex_step (h : step jobs s .destroyMutex = some s') :
    (∃ i, s.program.main = .joining i) ∧ s.mutexDestroyed = false ∧
      s' = { s with mutexDestroyed := true } := by
  simp only [step] at h
  split at h
  case h_1 i hmain hmutex =>
    cases h
    exact ⟨⟨i, hmain⟩, hmutex, rfl⟩
  case h_2 => cases h

/-- A step outside the critical sections. -/
structure Aside (p p' : Workers.State n α) : Prop where
  queue : p'.jobs.queue = p.jobs.queue
  main : p'.main.afterDestroy ↔ p.main.afterDestroy
  exited : ∀ i, p'.workers i = .exited ↔ p.workers i = .exited

theorem exited_update {workers : Fin n → WorkerPc α} {i : Fin n} {pc : WorkerPc α}
    (hi : workers i ≠ .exited) (hpc : pc ≠ .exited) (j : Fin n) :
    Function.update workers i pc j = .exited ↔ workers j = .exited :=
  ⟨of_update hpc, fun hj => update_kept hi hj pc⟩

/-- A step is a critical section of a thread that calls a function of the queue, or is
outside of them. -/
theorem section_or_aside {p p' : Workers.State n α} {label : Workers.Label n}
    (h : Inv jobs memory p) (hmoves : Moves jobs p label p') :
    (∃ t c r, (label = .call t ∨ label = .resume t) ∧ p.call t = some c ∧
      Ready (p.jobs.threads t) c ∧ Runs (p.jobs.threads t) c p.jobs.queue r ∧ p' = p.ran t c r) ∨
    Aside p p' ∧ ∀ t, label ≠ .call t ∧ label ≠ .resume t := by
  cases hmoves with
  | @call t c r calling outside entered =>
    left
    refine ⟨t, c, r, .inl rfl, calling, ?_, ?_, rfl⟩
    · rw [outside]
      exact .first
    · rw [outside]
      exact enter_runs entered
  | @resume t c on r waiting resumed =>
    left
    refine ⟨t, c, r, .inr rfl, h.call t c on true waiting, ?_, ?_, rfl⟩
    · rw [waiting]
      exact .again
    · rw [waiting]
      exact resume_runs resumed
  | @create i creating more =>
    have hnew := h.fresh ⟨i, more⟩ (by simp [creating, MainPc.created])
    exact .inr ⟨⟨rfl, by simp [creating, MainPc.afterDestroy],
      exited_update (by simp [hnew]) (by simp)⟩, by simp⟩
  | created creating all =>
    exact .inr ⟨⟨rfl, by simp [creating, MainPc.afterDestroy], fun _ => Iff.rfl⟩, by simp⟩
  | endOfInput pushed =>
    exact .inr ⟨⟨rfl, by simp [pushed, MainPc.afterDestroy], fun _ => Iff.rfl⟩, by simp⟩
  | join joining more exited =>
    exact .inr ⟨⟨rfl, by simp [joining, MainPc.afterDestroy], fun _ => Iff.rfl⟩, by simp⟩
  | joined joining all =>
    exact .inr ⟨⟨rfl, by simp [joining, MainPc.afterDestroy], fun _ => Iff.rfl⟩, by simp⟩
  | process processing =>
    exact .inr ⟨⟨rfl, Iff.rfl, exited_update (by simp [processing]) (by simp)⟩, by simp⟩
  | wake waiting => exact .inr ⟨⟨rfl, Iff.rfl, fun _ => Iff.rfl⟩, by simp⟩

/-- A thread that calls a function of the queue is main before its joins, or a worker in
its loop. -/
theorem calling_worker {p : Workers.State n α} {t : Tid n} {c : Call α}
    (hcall : p.call t = some c) (hafter : p.main.afterDestroy) :
    ∃ i, t = .worker i ∧ p.workers i = .popping ∧ c = .pop := by
  cases t with
  | main =>
    rcases call_main hcall with ⟨job, rest, hmain, -⟩ | ⟨hmain, -⟩ <;>
    · rw [hmain] at hafter
      exact hafter.elim
  | worker i => exact ⟨i, rfl, call_worker hcall⟩

/-! ## What main has destroyed -/

/-- Once the condition variables are destroyed, main is past destroy and the flag is set. -/
structure Torn (jobs : List α) (memory : ℕ → α) (s : State n α) : Prop where
  program : Inv jobs memory s.program
  conds : s.condsDestroyed = true →
    s.program.main.afterDestroy ∧ s.program.jobs.queue.destroy = true
  mutex : s.mutexDestroyed = true → s.program.main.afterDestroy

theorem torn_initial (jobs : List α) (memory : ℕ → α) :
    Torn jobs memory (initial n memory : State n α) := by
  refine ⟨initial_inv jobs memory, ?_, ?_⟩ <;> simp [initial]

theorem afterDestroy_ran {p p' : Workers.State n α} {label : Workers.Label n}
    (h : Inv jobs memory p) (hmoves : Moves jobs p label p') (hafter : p.main.afterDestroy) :
    p'.main.afterDestroy := by
  rcases section_or_aside h hmoves with ⟨t, c, r, -, hcall, -, -, rfl⟩ | ⟨haside, -⟩
  · obtain ⟨i, rfl, -⟩ := calling_worker hcall hafter
    rw [ran_worker_main]
    exact hafter
  · exact haside.main.mpr hafter

theorem destroy_ran {p p' : Workers.State n α} {label : Workers.Label n}
    (h : Inv jobs memory p) (hmoves : Moves jobs p label p')
    (hset : p.jobs.queue.destroy = true) : p'.jobs.queue.destroy = true := by
  rcases section_or_aside h hmoves with ⟨t, c, r, -, -, -, hruns, rfl⟩ | ⟨haside, -⟩
  · rw [ran_queue]
    exact runs_destroy hruns hset
  · rw [haside.queue]
    exact hset

/-- The section at whose end main destroys the condition variables. -/
theorem destroysConds_ran {p p' : Workers.State n α} {label : Workers.Label n}
    (h : Inv jobs memory p) (hmoves : Moves jobs p label p') (hconds : destroysConds p p' = true) :
    p'.main.afterDestroy ∧ p'.jobs.queue.destroy = true := by
  obtain ⟨hmain, i, hmain'⟩ : p.main = .destroying ∧ ∃ i, p'.main = .joining i := by
    unfold destroysConds at hconds
    split at hconds
    case h_1 i hbefore hjoining => exact ⟨hbefore, i, hjoining⟩
    case h_2 => cases hconds
  have hafter : p'.main.afterDestroy := by
    rw [hmain']
    trivial
  refine ⟨hafter, ?_⟩
  rcases section_or_aside h hmoves with ⟨t, c, r, -, hcall, hready, hruns, rfl⟩ | ⟨haside, -⟩
  · cases t with
    | main =>
      rcases call_main hcall with ⟨job, rest, hpushing, -⟩ | ⟨-, rfl⟩
      · cases hmain.symm.trans hpushing
      · rw [ran_queue]
        exact runs_destroyer (reachable_wakeups h.queue) hready hruns
    | worker i =>
      rw [ran_worker_main, hmain] at hafter
      exact hafter.elim
  · rw [haside.main, hmain] at hafter
    exact hafter.elim

theorem Torn.after {label : Workers.Label n} {p : Workers.State n α} (h : Torn jobs memory s)
    (hstep : Workers.step jobs s.program label = some p) : Torn jobs memory (s.after label p) := by
  have hmoves := moves_of_step hstep
  refine ⟨step_inv h.program hstep, ?_, ?_⟩
  · intro hconds
    rcases Bool.or_eq_true_iff.mp hconds with hbefore | hnow
    · obtain ⟨hafter, hset⟩ := h.conds hbefore
      exact ⟨afterDestroy_ran h.program hmoves hafter, destroy_ran h.program hmoves hset⟩
    · exact destroysConds_ran h.program hmoves hnow
  · intro hmutex
    exact afterDestroy_ran h.program hmoves (h.mutex hmutex)

theorem Torn.step {label : Label n} (h : Torn jobs memory s) (hstep : step jobs s label = some s') :
    Torn jobs memory s' := by
  cases label with
  | run label =>
    obtain ⟨-, p, hp, rfl⟩ := run_step hstep
    exact h.after hp
  | destroyMutex =>
    obtain ⟨⟨i, hmain⟩, -, rfl⟩ := destroyMutex_step hstep
    refine ⟨h.program, h.conds, fun _ => ?_⟩
    rw [hmain]
    trivial

/-! ## What is misused -/

/-- No thread starts to wait on a destroyed condition variable. -/
theorem waitUses_eq_nil {label : Workers.Label n} {p : Workers.State n α} (h : Torn jobs memory s)
    (hstep : Workers.step jobs s.program label = some p) (t : Tid n) : waitUses s t p = [] := by
  have hafter := h.after hstep
  unfold waitUses
  split
  case h_1 c on hwaiting =>
    split
    case isTrue hconds =>
      have hdestroyed : (s.after label p).condsDestroyed = true := by
        simp [State.after, hconds]
      obtain ⟨hmain, hset⟩ := hafter.conds hdestroyed
      obtain ⟨i, -, -, rfl⟩ := calling_worker (hafter.program.call t c on false hwaiting) hmain
      have hwakeups := reachable_wakeups hafter.program.queue
      obtain rfl : on = .notempty := hwakeups.cond t .pop on false hwaiting
      rw [(hwakeups.notempty t .pop hwaiting).2] at hset
      cases hset
    case isFalse => rfl
  case h_2 => rfl

theorem uses_intact {label : Workers.Label n} {p : Workers.State n α} (h : Torn jobs memory s)
    (hstep : Workers.step jobs s.program label = some p) (hmutex : s.mutexDestroyed = false) :
    uses s label p = [] := by
  cases label with
  | call t | resume t => simp [uses, hmutex, waitUses_eq_nil h hstep t]
  | create | endOfInput | join | process | wake => rfl

/-- Once the mutex is destroyed, a critical section misuses it, and no other step changes
who has left its loop. -/
theorem uses_destroyed {label : Workers.Label n} {p : Workers.State n α} (h : Torn jobs memory s)
    (hstep : Workers.step jobs s.program label = some p) (hmutex : s.mutexDestroyed = true) :
    (uses s label p = [] ∧ ∀ i, p.workers i = .exited ↔ s.program.workers i = .exited) ∨
      uses s label p ≠ [] ∧ ∃ i, s.program.workers i = .popping := by
  rcases section_or_aside h.program (moves_of_step hstep) with
    ⟨t, c, r, hlabel, hcall, -, -, -⟩ | ⟨haside, hlabel⟩
  · right
    obtain ⟨i, rfl, hpopping, -⟩ := calling_worker hcall (h.mutex hmutex)
    refine ⟨?_, i, hpopping⟩
    rcases hlabel with rfl | rfl <;> simp [uses, hmutex]
  · left
    refine ⟨?_, haside.exited⟩
    cases label with
    | call t => exact absurd rfl (hlabel t).1
    | resume t => exact absurd rfl (hlabel t).2
    | create | endOfInput | join | process | wake => rfl

/-- What holds as long as a run keeps to the guard. -/
structure Sound (jobs : List α) (memory : ℕ → α) (s : State n α) : Prop where
  torn : Torn jobs memory s
  exited : s.mutexDestroyed = true → ∀ i, s.program.workers i = .exited
  misuses : s.misuses = []

/-- What holds from a step against the guard on. -/
structure Lost (jobs : List α) (memory : ℕ → α) (s : State n α) : Prop where
  torn : Torn jobs memory s
  mutex : s.mutexDestroyed = true
  lost : (∃ i, s.program.workers i ≠ .exited) ∨ s.misuses ≠ []

theorem Sound.step {label : Label n} (h : Sound jobs memory s) (hguard : Guarded s label)
    (hstep : step jobs s label = some s') : Sound jobs memory s' := by
  have htorn := h.torn.step hstep
  cases label with
  | run label =>
    obtain ⟨-, p, hp, rfl⟩ := run_step hstep
    cases hmutex : s.mutexDestroyed with
    | false =>
      refine ⟨htorn, ?_, ?_⟩
      · simp [State.after, hmutex]
      · simp [State.after, h.misuses, uses_intact h.torn hp hmutex]
    | true =>
      rcases uses_destroyed h.torn hp hmutex with ⟨hnone, hexited⟩ | ⟨-, i, hpopping⟩
      · refine ⟨htorn, ?_, ?_⟩
        · intro _ i
          exact (hexited i).mpr (h.exited hmutex i)
        · simp [State.after, h.misuses, hnone]
      · cases hpopping.symm.trans (h.exited hmutex i)
  | destroyMutex =>
    obtain ⟨-, -, rfl⟩ := destroyMutex_step hstep
    exact ⟨htorn, fun _ => hguard, h.misuses⟩

theorem Lost.step {label : Label n} (h : Lost jobs memory s)
    (hstep : step jobs s label = some s') : Lost jobs memory s' := by
  have htorn := h.torn.step hstep
  cases label with
  | run label =>
    obtain ⟨-, p, hp, rfl⟩ := run_step hstep
    refine ⟨htorn, h.mutex, ?_⟩
    rcases uses_destroyed h.torn hp h.mutex with ⟨-, hexited⟩ | ⟨hsome, -⟩
    · rcases h.lost with ⟨i, hi⟩ | hmisuses
      · exact .inl ⟨i, fun hnow => hi ((hexited i).mp hnow)⟩
      · exact .inr (List.append_ne_nil_of_left_ne_nil hmisuses _)
    · exact .inr (List.append_ne_nil_of_right_ne_nil _ hsome)
  | destroyMutex =>
    obtain ⟨-, hintact, -⟩ := destroyMutex_step hstep
    cases h.mutex.symm.trans hintact

theorem lost_of_unguarded {label : Label n} (h : Torn jobs memory s) (hguard : ¬Guarded s label)
    (hstep : step jobs s label = some s') : Lost jobs memory s' := by
  have htorn := h.step hstep
  cases label with
  | run label => exact absurd trivial hguard
  | destroyMutex =>
    obtain ⟨-, -, rfl⟩ := destroyMutex_step hstep
    exact ⟨htorn, rfl, .inl (not_forall.mp hguard)⟩

/-- Every worker has left its loop when main is done. -/
theorem Lost.misused (h : Lost jobs memory s) (hdone : s.program.main = .done) :
    s.misuses ≠ [] := by
  rcases h.lost with ⟨i, hi⟩ | hmisuses
  · exact absurd (h.torn.program.joined i (by simp [hdone, MainPc.joined])) hi
  · exact hmisuses

end Steps

/-- In every run in which the mutex is destroyed only when all workers have left their
loops, nothing is misused after its destruction. In any other run that main finishes, a
worker has used the mutex. -/
theorem teardown_safe {n : ℕ} (jobs : List α) (memory : ℕ → α) (labels : List (Label n))
    (s : State n α) (hrun : labels.foldlM (step jobs) (initial n memory) = some s) :
    (Respects (step jobs) Guarded (initial n memory) labels → s.misuses = []) ∧
      (s.program.main = .done → s.misuses = [] →
        Respects (step jobs) Guarded (initial n memory) labels) := by
  have htorn : Torn jobs memory (initial n memory) := torn_initial jobs memory
  constructor
  · intro hrespects
    have hstart : Sound jobs memory (initial n memory) := ⟨htorn, by simp [initial], rfl⟩
    have hsound : Sound jobs memory s :=
      hrespects.invariant (fun _ _ _ => Sound.step) hstart hrun
    exact hsound.misuses
  · intro hdone hmisuses
    by_contra hrespects
    obtain ⟨before, label, after, s₁, s₂, -, hbefore, hagainst, hstep, hafter⟩ :=
      exists_of_not_respects hrespects hrun
    have htorn₁ : Torn jobs memory s₁ := run_invariant (fun _ _ _ => Torn.step) htorn hbefore
    have hlost : Lost jobs memory s :=
      run_invariant (fun _ _ _ => Lost.step) (lost_of_unguarded htorn₁ hagainst hstep) hafter
    exact hlost.misused hdone hmisuses

/-- One worker that leaves its loop between the end of destroy and that of its mutex. -/
def inTime : List (Label 1) :=
  [.run .create, .run .create, .run (.call .main), .run .endOfInput, .run (.call (.worker 0)),
    .run (.process 0), .run (.call .main), .run (.call (.worker 0)), .destroyMutex, .run .join,
    .run .join]

theorem teardown_safe_in_time : ∃ s : State 1 String,
    inTime.foldlM (step ["7"]) (initial 1 fun _ => "") = some s ∧ s.misuses = [] := by
  have hrun : (inTime.foldlM (step ["7"]) (initial 1 fun _ => "")).isSome = true := rfl
  obtain ⟨s, hs⟩ := Option.isSome_iff_exists.mp hrun
  refine ⟨s, hs, (teardown_safe ["7"] (fun _ => "") inTime s hs).1 ?_⟩
  exact .cons rfl trivial (.cons rfl trivial (.cons rfl trivial (.cons rfl trivial
    (.cons rfl trivial (.cons rfl trivial (.cons rfl trivial (.cons rfl trivial
      (.cons rfl (Fin.forall_fin_one.mpr rfl) (.cons rfl trivial (.cons rfl trivial trivial))))))))))

/-- The worker is processing its job when main destroys the queue. -/
theorem worker_returns_to_destroyed :
    ¬∀ (labels : List (Label 1)) (s : State 1 String),
      labels.foldlM (step ["7"]) (initial 1 fun _ => "") = some s → s.misuses = [] := by
  intro hclaim
  have hrun : ([.run .create, .run .create, .run (.call .main), .run .endOfInput,
      .run (.call (.worker 0)), .run (.call .main), .destroyMutex, .run (.process 0),
      .run (.call (.worker 0))].foldlM (step ["7"]) (initial 1 fun _ => "")).map State.misuses =
        some [(.worker 0, .lock)] := rfl
  obtain ⟨s, hlabels, hmisuses⟩ := Option.map_eq_some_iff.mp hrun
  have hnone := hclaim _ s hlabels
  rw [hmisuses] at hnone
  cases hnone

end CompSys.Workers.Teardown
