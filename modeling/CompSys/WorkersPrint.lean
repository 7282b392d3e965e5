import CompSys.Share
import CompSys.WorkersEnd

/-!
# What the workers print

A worker of `fauxgrep-mt` or `fibs` prints some texts for each job, one call of `printf` after the
other. `printf` locks the stream, so each text comes out whole, but between two texts of one worker
others may print.
-/
namespace CompSys.Workers.Printing

open JobQueue Share

universe u v

variable {α : Type u} {β : Type v} {n : Nat}

/-- The program, what each worker has still to print for its job, and what was printed. -/
structure State (n : Nat) (α : Type u) (β : Type v) where
  program : Workers.State n α
  printing : Fin n → Option (List β)
  output : List (Fin n × β)

inductive Label (n : Nat) where
  | run (label : Workers.Label n)
  | start (t : Fin n)
  | print (t : Fin n)

def initial (n : Nat) (memory : Nat → α) : State n α β :=
  ⟨Workers.initial n memory, fun _ => none, []⟩

/-- A worker goes back to the queue when it has nothing left to print. -/
def step (texts : α → List β) (jobs : List α) (s : State n α β) : Label n → Option (State n α β)
  | .run (.process t) =>
    match s.printing t with
    | some [] =>
      (Workers.step jobs s.program (.process t)).map fun p =>
        { s with program := p, printing := Function.update s.printing t none }
    | _ => none
  | .run label => (Workers.step jobs s.program label).map fun p => { s with program := p }
  | .start t =>
    match s.program.workers t, s.printing t with
    | .processing job, none =>
      some { s with printing := Function.update s.printing t (some (texts job)) }
    | _, _ => none
  | .print t =>
    match s.printing t with
    | some (text :: rest) =>
      some { s with
        printing := Function.update s.printing t (some rest)
        output := s.output ++ [(t, text)] }
    | _ => none

def Label.isWake : Label n → Bool
  | .run label => label.isWake
  | _ => false

inductive Moves (texts : α → List β) (jobs : List α) (s : State n α β) :
    Label n → State n α β → Prop where
  | run (label : Workers.Label n) (p : Workers.State n α) (other : ∀ t, label ≠ .process t)
      (moves : Workers.Moves jobs s.program label p) :
      Moves texts jobs s (.run label) { s with program := p }
  | finish (t : Fin n) (p : Workers.State n α) (printed : s.printing t = some [])
      (moves : Workers.Moves jobs s.program (.process t) p) :
      Moves texts jobs s (.run (.process t))
        { s with program := p, printing := Function.update s.printing t none }
  | start (t : Fin n) (job : α) (processing : s.program.workers t = .processing job)
      (idle : s.printing t = none) :
      Moves texts jobs s (.start t)
        { s with printing := Function.update s.printing t (some (texts job)) }
  | print (t : Fin n) (text : β) (rest : List β) (printing : s.printing t = some (text :: rest)) :
      Moves texts jobs s (.print t)
        { s with
          printing := Function.update s.printing t (some rest)
          output := s.output ++ [(t, text)] }

theorem moves_of_step {texts : α → List β} {jobs : List α} {s s' : State n α β} {label : Label n}
    (h : step texts jobs s label = some s') : Moves texts jobs s label s' := by
  cases label with
  | run label =>
    cases label with
    | process t =>
      simp only [step] at h
      split at h
      case h_1 printed =>
        obtain ⟨p, hp, rfl⟩ := Option.map_eq_some_iff.mp h
        exact .finish t p printed (Workers.moves_of_step hp)
      case h_2 => cases h
    | create | endOfInput | join | call | resume | wake =>
      obtain ⟨p, hp, rfl⟩ := Option.map_eq_some_iff.mp h
      refine .run _ p ?_ (Workers.moves_of_step hp)
      intro t heq
      cases heq
  | start t =>
    simp only [step] at h
    split at h <;> cases h
    exact .start t _ ‹_› ‹_›
  | print t =>
    simp only [step] at h
    split at h <;> cases h
    exact .print t _ _ ‹_›

/-! ## The invariant -/

section Invariant

variable {texts : α → List β} {jobs : List α} {memory : Nat → α} {s s' : State n α β}

/-- Only the end of a job adds to the jobs that were processed. -/
theorem processed_of_moves {p p' : Workers.State n α} {label : Workers.Label n}
    (hmoves : Workers.Moves jobs p label p') (hother : ∀ t, label ≠ .process t) :
    p'.processed = p.processed := by
  cases hmoves with
  | create | created | endOfInput | join | joined | wake => rfl
  | process => exact absurd rfl (hother _)
  | @call t c r => exact ran_processed p t c r
  | @resume t c _ r => exact ran_processed p t c r

/-- A worker that has a job keeps it until it has processed it. -/
theorem processing_of_moves {p p' : Workers.State n α} {label : Workers.Label n} {t : Fin n}
    {job : α} (h : Inv jobs memory p) (hmoves : Workers.Moves jobs p label p')
    (hother : label ≠ .process t) (hjob : p.workers t = .processing job) :
    p'.workers t = .processing job := by
  have hsection : ∀ (u : Tid n) c r, p.call u = some c →
      (p.ran u c r).workers t = .processing job := by
    intro u c r hcall
    rw [ran_other, hjob]
    rintro rfl
    rw [(call_worker hcall).1] at hjob
    cases hjob
  cases hmoves with
  | @create i creating more =>
    have hnew := h.fresh ⟨i, more⟩ (by simp [creating, MainPc.created])
    exact update_kept (by simp [hnew]) hjob .popping
  | created | endOfInput | join | joined | wake => exact hjob
  | @process u job' processing =>
    have hne : t ≠ u := by
      rintro rfl
      exact hother rfl
    exact (Function.update_of_ne hne _ _).trans hjob
  | call calling _ _ => exact hsection _ _ _ calling
  | @resume u c on r waiting _ => exact hsection u c r (h.call u c on true waiting)

/-- A worker has printed the texts of the jobs it has processed, and a part of those of its job. -/
def Owes (texts : α → List β) (s : State n α β) (t : Fin n) : Prop :=
  match s.printing t with
  | none => share t s.output = (share t s.program.processed).flatMap texts
  | some rest => ∃ job printed, s.program.workers t = .processing job ∧
      texts job = printed ++ rest ∧
      share t s.output = (share t s.program.processed).flatMap texts ++ printed

structure Printed (texts : α → List β) (jobs : List α) (memory : Nat → α) (s : State n α β) :
    Prop where
  program : Inv jobs memory s.program
  staged : Staged s.program
  owes : ∀ t, Owes texts s t

theorem printed_initial (texts : α → List β) (jobs : List α) (memory : Nat → α) :
    Printed texts jobs memory (initial n memory) :=
  ⟨initial_inv jobs memory, initial_staged memory, fun _ => rfl⟩

/-- A worker that has nothing to do with a step owes what it owed. -/
theorem Owes.kept {t : Fin n} (h : Owes texts s t) (hprinting : s'.printing t = s.printing t)
    (houtput : share t s'.output = share t s.output)
    (hprocessed : share t s'.program.processed = share t s.program.processed)
    (hjob : ∀ job, s.program.workers t = .processing job →
      s'.program.workers t = .processing job) : Owes texts s' t := by
  unfold Owes at h ⊢
  rw [hprinting, houtput, hprocessed]
  cases hs : s.printing t with
  | none =>
    rw [hs] at h
    exact h
  | some rest =>
    rw [hs] at h
    obtain ⟨job, printed, hworker, htexts, hshare⟩ := h
    exact ⟨job, printed, hjob job hworker, htexts, hshare⟩

/-- What the worker of a job has printed of it. -/
theorem Owes.job {t : Fin n} {rest : List β} (h : Owes texts s t)
    (hprinting : s.printing t = some rest) :
    ∃ job printed, s.program.workers t = .processing job ∧ texts job = printed ++ rest ∧
      share t s.output = (share t s.program.processed).flatMap texts ++ printed := by
  rwa [Owes, hprinting] at h

theorem Printed.run (h : Printed texts jobs memory s) {label : Workers.Label n}
    {p : Workers.State n α} (hother : ∀ t, label ≠ .process t)
    (hmoves : Workers.Moves jobs s.program label p) :
    Printed texts jobs memory { s with program := p } where
  program := moves_inv h.program hmoves
  staged := moves_staged h.program h.staged hmoves
  owes t := by
    refine (h.owes t).kept rfl rfl ?_ ?_
    · rw [processed_of_moves hmoves hother]
    · intro job
      exact processing_of_moves h.program hmoves (hother t)

theorem Printed.finish (h : Printed texts jobs memory s) {t : Fin n} {p : Workers.State n α}
    (hprinted : s.printing t = some []) (hmoves : Workers.Moves jobs s.program (.process t) p) :
    Printed texts jobs memory
      { s with program := p, printing := Function.update s.printing t none } where
  program := moves_inv h.program hmoves
  staged := moves_staged h.program h.staged hmoves
  owes u := by
    by_cases hu : u = t
    · subst hu
      obtain ⟨job, printed, hworker, htexts, hshare⟩ := (h.owes u).job hprinted
      cases hmoves with
      | process processing =>
        cases hworker.symm.trans processing
        simp only [Owes, Function.update_self, share_append_self, List.flatMap_append,
          List.flatMap_singleton]
        rw [htexts, List.append_nil, hshare]
    · refine (h.owes u).kept (Function.update_of_ne hu _ _) rfl ?_ ?_
      · cases hmoves with
        | process processing => exact share_append_other (Ne.symm hu) _ _
      · intro job
        refine processing_of_moves h.program hmoves ?_
        intro heq
        cases heq
        exact hu rfl

theorem Printed.start (h : Printed texts jobs memory s) {t : Fin n} {job : α}
    (hjob : s.program.workers t = .processing job) (hidle : s.printing t = none) :
    Printed texts jobs memory
      { s with printing := Function.update s.printing t (some (texts job)) } where
  program := h.program
  staged := h.staged
  owes u := by
    by_cases hu : u = t
    · subst hu
      have howes := h.owes u
      rw [Owes, hidle] at howes
      simp only [Owes, Function.update_self]
      exact ⟨job, [], hjob, rfl, by rw [howes, List.append_nil]⟩
    · exact (h.owes u).kept (Function.update_of_ne hu _ _) rfl rfl fun _ => id

theorem Printed.print (h : Printed texts jobs memory s) {t : Fin n} {text : β} {rest : List β}
    (hprinting : s.printing t = some (text :: rest)) :
    Printed texts jobs memory
      { s with
        printing := Function.update s.printing t (some rest)
        output := s.output ++ [(t, text)] } where
  program := h.program
  staged := h.staged
  owes u := by
    by_cases hu : u = t
    · subst hu
      obtain ⟨job, printed, hworker, htexts, hshare⟩ := (h.owes u).job hprinting
      simp only [Owes, Function.update_self, share_append_self]
      exact ⟨job, printed ++ [text], hworker, by rw [htexts, List.append_assoc]; rfl,
        by rw [hshare, List.append_assoc]⟩
    · exact (h.owes u).kept (Function.update_of_ne hu _ _)
        (share_append_other (Ne.symm hu) _ _) rfl fun _ => id

theorem Printed.step {label : Label n} (h : Printed texts jobs memory s)
    (hstep : step texts jobs s label = some s') : Printed texts jobs memory s' := by
  cases moves_of_step hstep with
  | run label p other moves => exact h.run other moves
  | finish t p printed moves => exact h.finish printed moves
  | start t job processing idle => exact h.start processing idle
  | print t text rest printing => exact h.print printing

end Invariant

/-! ## One worker -/

section OneWorker

variable {jobs : List α} {memory : Nat → α} {p p' : Workers.State 1 α}

/-- The jobs that a worker has popped and not processed. -/
def inHand : WorkerPc α → List α
  | .processing job => [job]
  | _ => []

/-- A single worker processes the jobs in the order in which it pops them. -/
def InOrder (p : Workers.State 1 α) : Prop :=
  ∀ t, p.jobs.popped = p.processed.map Prod.snd ++ inHand (p.workers t)

theorem inOrder_iff :
    InOrder p ↔ p.jobs.popped = p.processed.map Prod.snd ++ inHand (p.workers 0) :=
  Fin.forall_fin_one

theorem inOrder_ran {t : Tid 1} {c : Call α} {r : Section α} {th : Thread α} (h : InOrder p)
    (hcall : p.call t = some c) (hr : Runs th c p.jobs.queue r) : InOrder (p.ran t c r) := by
  rw [inOrder_iff] at h ⊢
  rw [ran_processed]
  cases t with
  | main =>
    have hworkers : (p.ran .main c r).workers 0 = p.workers 0 := ran_other p c r nofun
    have hpopped : (p.ran .main c r).jobs.popped = p.jobs.popped := by
      rcases call_main hcall with ⟨job, rest, -, rfl⟩ | ⟨-, rfl⟩
      · cases hr <;> simp [State.ran, after_popped]
      · cases hr <;> simp [State.ran, after_popped]
    rw [hworkers, hpopped, h]
  | worker i =>
    obtain ⟨hworker, rfl⟩ := call_worker hcall
    obtain rfl : i = 0 := Subsingleton.elim _ _
    have hpopped : p.jobs.popped = p.processed.map Prod.snd := by
      rw [h, hworker]
      exact List.append_nil _
    cases hr with
    | popWaits => simp [State.ran, after_popped, hpopped, hworker, inHand]
    | popFails => simp [State.ran, after_popped, hpopped, WorkerPc.returned, inHand]
    | pops => simp [State.ran, after_popped, hpopped, WorkerPc.returned, inHand]

theorem inOrder_moves {label : Workers.Label 1} (hinv : Inv jobs memory p) (h : InOrder p)
    (hmoves : Workers.Moves jobs p label p') : InOrder p' := by
  cases hmoves with
  | @create i creating more =>
    obtain rfl : i = 0 := by omega
    have hnew : p.workers 0 = .notCreated := hinv.fresh 0 (by simp [creating, MainPc.created])
    rw [inOrder_iff] at h ⊢
    rw [h, hnew]
    rfl
  | created | endOfInput | join | joined | wake => exact h
  | @process i job processing =>
    obtain rfl : i = 0 := Subsingleton.elim _ _
    rw [inOrder_iff] at h ⊢
    rw [h, processing]
    simp [inHand]
  | call calling _ entered => exact inOrder_ran h calling (enter_runs entered)
  | @resume t c on r waiting resumed =>
    have hruns : Runs (.waiting c on true) c p.jobs.queue r := resume_runs resumed
    exact inOrder_ran h (hinv.call t c on true waiting) hruns

/-- At the end it has processed all jobs in the order of their pushes. -/
theorem InOrder.done (h : InOrder p) (hinv : Inv jobs memory p) (hdone : p.main = .done) :
    p.processed.map Prod.snd = jobs := by
  have hexited : p.workers 0 = .exited := hinv.joined 0 (by simp [hdone, MainPc.joined])
  have hpushed : p.jobs.pushed = jobs := by
    simpa [hdone, MainPc.unpushed] using hinv.pushed
  obtain ⟨items, hrep, hitems⟩ := reachable_fifo (by decide) hinv.queue
  have hempty : items = [] := List.eq_nil_of_length_eq_zero <|
    hrep.filled.symm.trans (hinv.drained (by simp [hdone, MainPc.afterDestroy]))
  have hpopped : p.jobs.popped = p.processed.map Prod.snd := by
    rw [h 0, hexited]
    exact List.append_nil _
  rw [← hpopped, ← hpushed, hitems, hempty, List.append_nil]

end OneWorker

/-! ## At the end -/

section End

variable {texts : α → List β} {jobs : List α} {memory : Nat → α}

theorem run_printed {labels : List (Label n)} {s : State n α β}
    (hrun : labels.foldlM (step texts jobs) (initial n memory) = some s) :
    Printed texts jobs memory s := by
  have hstep : ∀ (s : State n α β) l s', Printed texts jobs memory s →
      step texts jobs s l = some s' → Printed texts jobs memory s' :=
    fun _ _ _ hs => hs.step
  exact Transition.run_invariant hstep (printed_initial texts jobs memory) hrun

/-- When main has ended, every worker has printed the texts of the jobs it has processed. -/
theorem Printed.shares {s : State n α β} (h : Printed texts jobs memory s)
    (hdone : s.program.main = .done) (t : Fin n) :
    share t s.output = (share t s.program.processed).flatMap texts := by
  have hexited : s.program.workers t = .exited := h.program.joined t (by simp [hdone, MainPc.joined])
  have howes := h.owes t
  unfold Owes at howes
  split at howes
  · exact howes
  · obtain ⟨job, printed, hjob, -, -⟩ := howes
    rw [hexited] at hjob
    cases hjob

/-- The workers together have printed the texts of every job, in some order. -/
theorem Printed.perm {s : State n α β} (h : Printed texts jobs memory s)
    (hdone : s.program.main = .done) : (s.output.map Prod.snd).Perm (jobs.flatMap texts) := by
  have hprocessed := (h.program.exactlyOnce.1 hdone).flatMap_right texts
  exact (perm_flatMap_of_share (h.shares hdone)).trans hprocessed

theorem run_inOrder {labels : List (Label 1)} {s : State 1 α β}
    (hrun : labels.foldlM (step texts jobs) (initial 1 memory) = some s) : InOrder s.program := by
  have hstep : ∀ (s : State 1 α β) l s', Inv jobs memory s.program ∧ InOrder s.program →
      step texts jobs s l = some s' → Inv jobs memory s'.program ∧ InOrder s'.program := by
    intro s l s' ⟨hinv, h⟩ hstep
    cases moves_of_step hstep with
    | run label p other moves => exact ⟨moves_inv hinv moves, inOrder_moves hinv h moves⟩
    | finish t p printed moves => exact ⟨moves_inv hinv moves, inOrder_moves hinv h moves⟩
    | start | print => exact ⟨hinv, h⟩
  have hstart : Inv jobs memory (initial 1 memory : State 1 α β).program ∧
      InOrder (initial 1 memory : State 1 α β).program :=
    ⟨initial_inv jobs memory, fun _ => rfl⟩
  exact (Transition.run_invariant hstep hstart hrun).2

/-- One worker prints the texts of the jobs in their order. -/
theorem output_of_one {labels : List (Label 1)} {s : State 1 α β}
    (hrun : labels.foldlM (step texts jobs) (initial 1 memory) = some s)
    (hdone : s.program.main = .done) : s.output.map Prod.snd = jobs.flatMap texts := by
  have h := run_printed hrun
  rw [← share_of_subsingleton 0, h.shares hdone, share_of_subsingleton,
    (run_inOrder hrun).done h.program hdone]

/-- A program that has not ended can go on: a worker at the end of its job prints what it still has
to print, and everything else stands in nobody's way. -/
theorem done_of_stuck {s : State n α β} (h : Printed texts jobs memory s) (hn : 1 ≤ n)
    (hstuck : ∀ l, l.isWake = false → step texts jobs s l = none) : s.program.main = .done := by
  by_contra hdone
  obtain ⟨l, p, hl, hstep⟩ := enabled_of_not_done h.program h.staged hn hdone
  have hblocked := hstuck (.run l) hl
  cases l with
  | process t =>
    cases Workers.moves_of_step hstep with
    | process processing =>
      cases hprinting : s.printing t with
      | none =>
        have hstart := hstuck (.start t) rfl
        simp [step, processing, hprinting] at hstart
      | some rest =>
        cases rest with
        | nil => simp [step, hprinting, hstep] at hblocked
        | cons text rest =>
          have hprint := hstuck (.print t) rfl
          simp [step, hprinting] at hprint
  | create | endOfInput | join | call | resume | wake => simp [step, hstep] at hblocked

/-- When main has ended, nobody prints any more. -/
theorem stuck_of_done {s : State n α β} (h : Printed texts jobs memory s)
    (hdone : s.program.main = .done) {l : Label n} (hl : l.isWake = false) :
    step texts jobs s l = none := by
  have hexited : ∀ t, s.program.workers t = .exited :=
    fun t => h.program.joined t (by simp [hdone, MainPc.joined])
  cases l with
  | run label =>
    have hnone := step_of_done h.program hdone (l := label) hl
    cases label with
    | process t =>
      simp only [step, hnone, Option.map_none]
      split <;> rfl
    | create | endOfInput | join | call | resume | wake => simp [step, hnone]
  | start t => simp only [step, hexited t]
  | print t =>
    cases hprinting : s.printing t with
    | none => simp only [step, hprinting]
    | some rest =>
      obtain ⟨job, printed, hjob, -, -⟩ := (h.owes t).job hprinting
      rw [hexited t] at hjob
      cases hjob

end End

/-! ## Every run ends -/

section Ends

variable {texts : α → List β} {jobs : List α} {memory : Nat → α} {s s' : State n α β}

/-- The steps that it takes to print the texts of a job. -/
def weight (texts : α → List β) (job : α) : Nat := (texts job).length + 1

def State.busy (s : State n α β) : Nat := ∑ t, (s.printing t).isSome.toNat

/-- The steps that went into printing so far. -/
def State.spent (s : State n α β) : Nat :=
  s.output.length + (s.program.processed.length + s.busy)

def State.rank (texts : α → List β) (jobs : List α) (s : State n α β) : Nat :=
  s.program.rank jobs + ((jobs.map (weight texts)).sum - s.spent)

theorem busy_update (s : State n α β) (t : Fin n) (o : Option (List β)) :
    ∑ u, (Function.update s.printing t o u).isSome.toNat + (s.printing t).isSome.toNat =
      s.busy + o.isSome.toNat :=
  sum_update (fun o : Option (List β) => o.isSome.toNat) s.printing t o

/-- The workers' jobs, finished or not, are among all jobs. -/
theorem sum_weight_le (h : Inv jobs memory s.program) (f : α → Nat) :
    (s.program.processed.map fun e => f e.2).sum +
      ∑ t, ((s.program.workers t).held.map f).sum ≤ (jobs.map f).sum := by
  have hheld : ((held s.program.workers).map f).sum =
      ∑ t, ((s.program.workers t).held.map f).sum :=
    map_sum (Multiset.sumAddMonoidHom.comp (Multiset.mapAddMonoidHom f)) _ _
  have hpopped : (s.program.jobs.popped.map f).sum ≤ (jobs.map f).sum := by
    obtain ⟨items, -, hitems⟩ := reachable_fifo (by decide) h.queue
    rw [← h.pushed, hitems]
    simp only [List.map_append, List.sum_append]
    omega
  have hsum := congrArg (fun m => (m.map f).sum) h.popped
  simp only [Multiset.map_add, Multiset.sum_add, hheld, finished, Multiset.map_coe,
    Multiset.sum_coe, List.map_map] at hsum
  exact hsum ▸ hpopped

theorem sum_weight (l : List α) :
    (l.map (weight texts)).sum = (l.flatMap texts).length + l.length := by
  induction l with
  | nil => rfl
  | cons job l ih =>
    rw [List.map_cons, List.sum_cons, ih, List.flatMap_cons, List.length_append, List.length_cons,
      weight]
    omega

theorem Owes.spent_le {t : Fin n} (h : Owes texts s t) :
    (share t s.output).length + (share t s.program.processed).length +
        (s.printing t).isSome.toNat ≤
      ((share t s.program.processed).map (weight texts)).sum +
        ((s.program.workers t).held.map (weight texts)).sum := by
  rw [sum_weight]
  cases hprinting : s.printing t with
  | none =>
    rw [Owes, hprinting] at h
    simp [h]
  | some rest =>
    obtain ⟨job, printed, hjob, htexts, hshare⟩ := h.job hprinting
    have hlen : printed.length ≤ (texts job).length := by simp [htexts]
    simp only [hshare, hjob, WorkerPc.held, List.length_append, Multiset.map_singleton,
      Multiset.sum_singleton, weight, Option.isSome_some, Bool.toNat_true]
    omega

theorem Printed.spent_le (h : Printed texts jobs memory s) :
    s.spent ≤ (jobs.map (weight texts)).sum := by
  have hshares := Finset.sum_le_sum fun t (_ : t ∈ Finset.univ) => (h.owes t).spent_le
  have hjobs := sum_weight_le h.program (weight texts)
  simp only [Finset.sum_add_distrib, sum_length_share, sum_map_share] at hshares
  unfold State.spent State.busy
  omega

theorem Printed.rank_step {label : Label n} (h : Printed texts jobs memory s)
    (hstep : Printing.step texts jobs s label = some s') :
    (label.isWake = true → s'.rank texts jobs ≤ s.rank texts jobs + 1) ∧
      (label.isWake = false → s'.rank texts jobs < s.rank texts jobs) := by
  have hle := (h.step hstep).spent_le
  cases moves_of_step hstep with
  | run label p other moves =>
    obtain ⟨hfree, hdown⟩ := moves_rank h.program h.staged moves
    have hspent : State.spent { s with program := p } = s.spent := by
      simp only [State.spent, State.busy, processed_of_moves moves other]
    simp only [State.rank, hspent]
    constructor
    · intro hwake
      have := hfree hwake
      omega
    · intro hwake
      have := hdown hwake
      omega
  | finish t p printed moves =>
    obtain ⟨-, hdown⟩ := moves_rank h.program h.staged moves
    have hlower := hdown rfl
    have hbusy := busy_update s t none
    have hspent : State.spent
        { s with program := p, printing := Function.update s.printing t none } = s.spent := by
      cases moves with
      | process processing =>
        simp only [printed, Option.isSome_some, Option.isSome_none, Bool.toNat_true,
          Bool.toNat_false] at hbusy
        simp only [State.spent, State.busy, List.length_append, List.length_singleton] at hbusy ⊢
        omega
    refine ⟨nofun, fun _ => ?_⟩
    simp only [State.rank, hspent]
    omega
  | start t job processing idle =>
    have hbusy := busy_update s t (some (texts job))
    simp only [idle, Option.isSome_some, Option.isSome_none, Bool.toNat_true,
      Bool.toNat_false] at hbusy
    refine ⟨nofun, fun _ => ?_⟩
    simp only [State.rank, State.spent, State.busy] at hbusy hle ⊢
    omega
  | print t text rest printing =>
    have hbusy := busy_update s t (some rest)
    simp only [printing, Option.isSome_some, Bool.toNat_true] at hbusy
    refine ⟨nofun, fun _ => ?_⟩
    simp only [State.rank, State.spent, State.busy, List.length_append,
      List.length_singleton] at hbusy hle ⊢
    omega

/-- The printing adds a step for each text and one for each job to what the program takes. -/
theorem length_le {labels : List (Label n)}
    (hrun : labels.foldlM (step texts jobs) (initial n memory) = some s) :
    labels.length ≤ (n + 2) * (3 * (n + jobs.length) + 5) + (n + 1) +
      (jobs.flatMap texts).length + jobs.length + 2 * labels.countP Label.isWake := by
  have hkeep : ∀ (s : State n α β) l s', Printed texts jobs memory s →
      step texts jobs s l = some s' → Printed texts jobs memory s' :=
    fun _ _ _ hs => hs.step
  have hfree : ∀ (s : State n α β) l s', Printed texts jobs memory s →
      step texts jobs s l = some s' → l.isWake = true →
        s'.rank texts jobs ≤ s.rank texts jobs + 1 :=
    fun _ _ _ hs hstep => (hs.rank_step hstep).1
  have hdown : ∀ (s : State n α β) l s', Printed texts jobs memory s →
      step texts jobs s l = some s' → l.isWake = false →
        s'.rank texts jobs < s.rank texts jobs :=
    fun _ _ _ hs hstep => (hs.rank_step hstep).2
  have hlength := Transition.length_le_of_rank hkeep hfree hdown
    (printed_initial texts jobs memory) hrun
  have hrank := initial_rank jobs memory (n := n)
  have hweight : (jobs.map (weight texts)).sum = (jobs.flatMap texts).length + jobs.length :=
    sum_weight jobs
  have hstart : (initial n memory : State n α β).rank texts jobs ≤
      (n + 2) * (3 * (n + jobs.length) + 5) + (n + 1) + (jobs.map (weight texts)).sum :=
    Nat.add_le_add hrank (Nat.sub_le _ _)
  omega

end Ends

end CompSys.Workers.Printing
