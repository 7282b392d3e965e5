import CompSys.WorkersOnce
import Mathlib.Algebra.Order.BigOperators.Group.Finset
import Mathlib.Data.Fintype.Option
import Mathlib.Data.Fintype.EquivFin

/-!
# The multithreaded programs of A2 end

Without spurious wakeups every run is bounded, and a program that has not ended can go on: no
run gets stuck in the job queue, however the threads are scheduled.
-/
namespace CompSys.Workers

open JobQueue

universe u

variable {α : Type u} {n : Nat}

def Label.isWake : Label n → Bool
  | .wake _ => true
  | _ => false

/-! ## Work that is left -/

/-- The steps that main has before it, a push counting for the pop and the job as well. -/
def MainPc.work (n jobs : Nat) : MainPc α → Nat
  | .creating i => n - i + 3 * jobs + n + 4
  | .pushing rest => 3 * rest.length + n + 3
  | .destroying => n + 2
  | .joining i => n - i + 1
  | .done => 0

def WorkerPc.work : WorkerPc α → Nat
  | .notCreated => 1
  | .popping => 1
  | .processing _ => 2
  | .exited => 0

def State.work (jobs : List α) (s : State n α) : Nat :=
  s.main.work n jobs.length + 2 * s.jobs.queue.filled + ∑ i, (s.workers i).work +
    (!s.jobs.queue.destroy).toNat

/-- A thread that does not sleep at a condition variable. -/
def awake : Thread α → Nat
  | .waiting _ _ false => 0
  | _ => 1

def tidEquiv (n : Nat) : Tid n ≃ Option (Fin n) where
  toFun
    | .main => none
    | .worker i => some i
  invFun
    | none => .main
    | some i => .worker i
  left_inv t := by cases t <;> rfl
  right_inv o := by cases o <;> rfl

instance tidFintype (n : Nat) : Fintype (Tid n) := Fintype.ofEquiv _ (tidEquiv n).symm

theorem card_tid (n : Nat) : Fintype.card (Tid n) = n + 1 := by
  rw [Fintype.card_congr (tidEquiv n), Fintype.card_option, Fintype.card_fin]

/-- Work that is left outweighs any number of threads that wake up. -/
def State.rank (jobs : List α) (s : State n α) : Nat :=
  (n + 2) * s.work jobs + ∑ t, awake (s.jobs.threads t)

/-- Moving one of many changes its share only. -/
theorem sum_update {ι β : Type*} [Fintype ι] [DecidableEq ι] (f : β → Nat) (g : ι → β) (i : ι)
    (x : β) : ∑ j, f (Function.update g i x j) + f (g i) = ∑ j, f (g j) + f x := by
  have hsplit : ∀ h : ι → Nat, ∑ j, h j = h i + ∑ j ∈ Finset.univ.erase i, h j :=
    fun h => (Finset.add_sum_erase _ h (Finset.mem_univ i)).symm
  have hrest : ∑ j ∈ Finset.univ.erase i, f (Function.update g i x j) =
      ∑ j ∈ Finset.univ.erase i, f (g j) :=
    Finset.sum_congr rfl fun j hj => by rw [Function.update_of_ne (Finset.ne_of_mem_erase hj)]
  rw [hsplit fun j => f (Function.update g i x j), hsplit fun j => f (g j), hrest,
    Function.update_self]
  omega

theorem awake_le_one (th : Thread α) : awake th ≤ 1 := by
  unfold awake
  split <;> decide

theorem awake_le (threads : Tid n → Thread α) : ∑ t, awake (threads t) ≤ n + 1 := by
  have hone : ∀ t ∈ Finset.univ, awake (threads t) ≤ 1 := fun t _ => awake_le_one (threads t)
  have hsum := Finset.sum_le_card_nsmul Finset.univ (fun t => awake (threads t)) 1 hone
  rwa [Finset.card_univ, card_tid, smul_eq_mul, Nat.mul_one] at hsum

theorem signal_nil (th : Thread α) : th.signal [] = th := by
  cases th <;> simp [Thread.signal]

/-- A thread that goes to sleep without a broadcast leaves one fewer awake. -/
theorem awake_waits {s : State n α} {t : Tid n} {c : Call α} {r : Section α} {on : Cond}
    (hwaits : r.exit = .waits on) (hsilent : r.broadcast = []) (hawake : awake (s.jobs.threads t) = 1) :
    ∑ u, awake ((s.jobs.after t c r).threads u) + 1 = ∑ u, awake (s.jobs.threads u) := by
  have hsum := sum_update awake s.jobs.threads t (.waiting c on false)
  have hthreads : (s.jobs.after t c r).threads =
      Function.update s.jobs.threads t (.waiting c on false) := by
    simp only [JobQueue.State.after, hwaits, hsilent, signal_nil]
  have hzero : awake (.waiting c on false) = 0 := rfl
  rw [hawake, hzero] at hsum
  rw [hthreads]
  exact hsum

theorem awake_ready {th : Thread α} {c : Call α} (h : Ready th c) : awake th = 1 := by
  cases h <;> rfl

/-! ## Places of main and the workers -/

/-- More about the places, besides `Inv`. -/
structure Staged (s : State n α) : Prop where
  started : ∀ i : Fin n, i.val < s.main.created n → s.workers i ≠ .notCreated
  entering : s.main = .destroying → s.jobs.threads .main = .outside → s.jobs.queue.destroy = false
  destroyed : s.main.afterDestroy → s.jobs.queue.destroy = true

theorem initial_staged (memory : Nat → α) : Staged (initial n memory) where
  started i hi := by simp [initial, MainPc.created] at hi
  entering h := by cases h
  destroyed h := h.elim

section Steps

variable {jobs : List α} {memory : Nat → α} {s : State n α} {t : Tid n} {c : Call α} {r : Section α}

/-- A thread that runs a section of its call. -/
structure Running (s : State n α) (t : Tid n) (c : Call α) (r : Section α) : Prop where
  call : s.call t = some c
  ready : Ready (s.jobs.threads t) c
  runs : Runs (s.jobs.threads t) c s.jobs.queue r

/-- Main makes its calls when it has created all workers, and is then not past destroy. -/
theorem call_main_place (h : s.call .main = some c) :
    s.main.created n = n ∧ s.main.returned.created n = n ∧ ¬s.main.afterDestroy := by
  rcases call_main h with ⟨job, rest, hmain, -⟩ | ⟨hmain, -⟩
  · rw [hmain]
    exact ⟨rfl, rfl, id⟩
  · rw [hmain]
    exact ⟨rfl, rfl, id⟩

theorem ran_main (s : State n α) (c : Call α) (r : Section α) :
    (s.ran .main c r).main = s.main ∧ (∃ on, r.exit = .waits on) ∨
      (s.ran .main c r).main = s.main.returned ∧ ∃ code data, r.exit = .returns code data := by
  cases he : r.exit with
  | waits on => exact .inl ⟨by simp [State.ran, he], on, rfl⟩
  | returns code data => exact .inr ⟨by simp [State.ran, he], code, data, rfl⟩

theorem ran_created (hcall : s.call t = some c) :
    (s.ran t c r).main.created n = s.main.created n := by
  cases t with
  | main =>
    obtain ⟨hbefore, hafter, -⟩ := call_main_place hcall
    rcases ran_main s c r with ⟨hmain, -⟩ | ⟨hmain, -⟩
    · rw [hmain]
    · rw [hmain, hbefore, hafter]
  | worker i => rw [ran_worker_main]

theorem ran_started (h : Staged s) (hcall : s.call t = some c) (i : Fin n)
    (hi : i.val < (s.ran t c r).main.created n) : (s.ran t c r).workers i ≠ .notCreated := by
  rw [ran_created hcall] at hi
  by_cases ht : t = .worker i
  · subst ht
    cases he : r.exit with
    | waits on =>
      simp only [State.ran, he]
      exact h.started i hi
    | returns code data =>
      simp only [State.ran, he, Function.update_self, WorkerPc.returned]
      split
      · split <;> rintro ⟨⟩
      · rintro ⟨⟩
  · rw [ran_other s c r ht]
    exact h.started i hi

theorem ran_jobs (s : State n α) (t : Tid n) (c : Call α) (r : Section α) :
    (s.ran t c r).jobs = s.jobs.after t c r := by
  cases he : r.exit <;> cases t <;> simp [State.ran, he]

/-- A thread that is outside was there before a section of another thread. -/
theorem outside_of_after {u : Tid n} (hu : u ≠ t)
    (h : (s.jobs.after t c r).threads u = .outside) : s.jobs.threads u = .outside := by
  simp only [JobQueue.State.after, Function.update_of_ne hu] at h
  cases hth : s.jobs.threads u with
  | outside => rfl
  | waiting =>
    rw [hth] at h
    cases h

theorem ran_entering (h : Staged s) (hrun : Running s t c r)
    (hmain : (s.ran t c r).main = .destroying)
    (hout : (s.ran t c r).jobs.threads .main = .outside) :
    (s.ran t c r).jobs.queue.destroy = false := by
  rw [ran_jobs] at hout
  rw [ran_queue]
  cases t with
  | main =>
    rcases ran_main s c r with ⟨-, on, he⟩ | ⟨hreturned, -⟩
    · simp [JobQueue.State.after, he] at hout
    · rw [hreturned] at hmain
      rcases call_main hrun.call with ⟨job, rest, hpc, -⟩ | ⟨hpc, -⟩ <;>
        rw [hpc] at hmain <;> cases hmain
  | worker i =>
    rw [ran_worker_main] at hmain
    have hother : (Tid.main : Tid n) ≠ .worker i := by rintro ⟨⟩
    have hrunning := h.entering hmain (outside_of_after hother hout)
    obtain ⟨-, rfl⟩ := call_worker hrun.call
    have hruns := hrun.runs
    cases hruns <;> exact hrunning

theorem ran_destroyed (h : Staged s) (hw : Wakeups queueCapacity s.jobs) (hrun : Running s t c r)
    (hmain : (s.ran t c r).main.afterDestroy) : (s.ran t c r).jobs.queue.destroy = true := by
  rw [ran_queue]
  cases t with
  | main =>
    obtain ⟨-, -, hbefore⟩ := call_main_place hrun.call
    rcases ran_main s c r with ⟨hsame, -⟩ | ⟨hreturned, -⟩
    · rw [hsame] at hmain
      exact absurd hmain hbefore
    · rcases call_main hrun.call with ⟨job, rest, hpc, -⟩ | ⟨hpc, rfl⟩
      · rw [hreturned, hpc] at hmain
        exact hmain.elim
      · exact runs_destroyer hw hrun.ready hrun.runs
  | worker i =>
    rw [ran_worker_main] at hmain
    exact runs_destroy hrun.runs (h.destroyed hmain)

theorem ran_staged (h : Staged s) (hw : Wakeups queueCapacity s.jobs) (hrun : Running s t c r) :
    Staged (s.ran t c r) :=
  ⟨ran_started h hrun.call, ran_entering h hrun, ran_destroyed h hw hrun⟩

/-! ## Every step but a spurious wakeup does some work -/

theorem push_work {th : Thread α} {job : α} {rest : List α} (hmain : s.main = .pushing (job :: rest))
    (hruns : Runs th (.push job) s.jobs.queue r) :
    (∃ on, r.exit = .waits on ∧ r.broadcast = [] ∧
        (s.ran .main (.push job) r).work jobs = s.work jobs) ∨
      (s.ran .main (.push job) r).work jobs < s.work jobs := by
  cases hruns with
  | pushWaits => exact .inl ⟨_, rfl, rfl, rfl⟩
  | pushes =>
    refine .inr ?_
    simp only [State.work, State.ran, JobQueue.State.after, hmain, MainPc.returned, MainPc.work,
      List.length_cons]
    omega

theorem pop_work {th : Thread α} {i : Fin n} (hworker : s.workers i = .popping)
    (hruns : Runs th .pop s.jobs.queue r) :
    (∃ on, r.exit = .waits on ∧ r.broadcast = [] ∧
        (s.ran (.worker i) .pop r).work jobs = s.work jobs) ∨
      (s.ran (.worker i) .pop r).work jobs < s.work jobs := by
  have hbefore : (s.workers i).work = 1 := by
    rw [hworker]
    rfl
  cases hruns with
  | popWaits => exact .inl ⟨_, rfl, rfl, rfl⟩
  | popFails =>
    have hsum := sum_update WorkerPc.work s.workers i .exited
    have hafter : (WorkerPc.exited : WorkerPc α).work = 0 := rfl
    rw [hbefore, hafter] at hsum
    refine .inr ?_
    simp only [State.work, State.ran, JobQueue.State.after, WorkerPc.returned]
    omega
  | @pops _ cells some_left _ =>
    have hsum := sum_update WorkerPc.work s.workers i (.processing (cells s.jobs.queue.tail))
    have hafter : (WorkerPc.processing (cells s.jobs.queue.tail)).work = 2 := rfl
    rw [hbefore, hafter] at hsum
    refine .inr ?_
    simp only [State.work, State.ran, JobQueue.State.after, WorkerPc.returned, if_true]
    omega

theorem destroy_work {th : Thread α} (hs : Staged s) (hmain : s.main = .destroying)
    (hth : s.jobs.threads .main = th) (hruns : Runs th .destroy s.jobs.queue r) :
    (∃ on, r.exit = .waits on ∧ r.broadcast = [] ∧
        (s.ran .main .destroy r).work jobs = s.work jobs) ∨
      (s.ran .main .destroy r).work jobs < s.work jobs := by
  cases hruns with
  | destroyWaits begun some_left =>
    cases begun with
    | first =>
      have hrunning := hs.entering hmain hth
      refine .inr ?_
      simp only [State.work, State.ran, JobQueue.State.after, hrunning, Bool.not_true,
        Bool.not_false, Bool.toNat_true, Bool.toNat_false]
      omega
    | again => exact .inl ⟨_, rfl, rfl, rfl⟩
  | destroys begun =>
    refine .inr ?_
    simp only [State.work, State.ran, JobQueue.State.after, hmain, MainPc.returned, MainPc.work]
    cases begun with
    | first =>
      simp only [Bool.not_true, Bool.toNat_false]
      omega
    | again => omega

/-- A section either puts its thread to sleep and changes nothing else, or does some work. -/
theorem ran_work (hs : Staged s) (hrun : Running s t c r) :
    (∃ on, r.exit = .waits on ∧ r.broadcast = [] ∧ (s.ran t c r).work jobs = s.work jobs) ∨
      (s.ran t c r).work jobs < s.work jobs := by
  cases t with
  | main =>
    rcases call_main hrun.call with ⟨job, rest, hmain, rfl⟩ | ⟨hmain, rfl⟩
    · exact push_work hmain hrun.runs
    · exact destroy_work hs hmain rfl hrun.runs
  | worker i =>
    obtain ⟨hworker, rfl⟩ := call_worker hrun.call
    exact pop_work hworker hrun.runs

theorem ran_rank (hs : Staged s) (hrun : Running s t c r) :
    (s.ran t c r).rank jobs < s.rank jobs := by
  have hle := awake_le (s.jobs.after t c r).threads
  rw [State.rank, State.rank, ran_jobs]
  have hwork : (∃ on, r.exit = .waits on ∧ r.broadcast = [] ∧
      (s.ran t c r).work jobs = s.work jobs) ∨ (s.ran t c r).work jobs < s.work jobs :=
    ran_work hs hrun
  rcases hwork with ⟨on, hwaits, hsilent, hwork⟩ | hless
  · have hfewer := awake_waits (c := c) hwaits hsilent (awake_ready hrun.ready)
    rw [hwork]
    omega
  · have hmul := Nat.mul_le_mul_left (n + 2) (Nat.succ_le_of_lt hless)
    rw [Nat.mul_succ] at hmul
    omega

/-- What `Inv` says about the queue, in one place. -/
theorem wakeups_of_inv (h : Inv jobs memory s) : Wakeups queueCapacity s.jobs :=
  reachable_wakeups h.queue

theorem popping_created {workers : Fin n → WorkerPc α} {i j : Fin n}
    (h : j ≠ i → workers j ≠ .notCreated) : Function.update workers i .popping j ≠ .notCreated := by
  by_cases hji : j = i
  · rw [hji, Function.update_self]
    exact nofun
  · rw [Function.update_of_ne hji]
    exact h hji

theorem moves_staged {s' : State n α} {l : Label n} (hinv : Inv jobs memory s) (h : Staged s)
    (hmoves : Moves jobs s l s') : Staged s' := by
  have hw := wakeups_of_inv hinv
  cases hmoves with
  | @create i creating more =>
    refine ⟨fun j hj => popping_created fun hji => h.started j ?_, (by rintro ⟨⟩),
      fun hmain => hmain.elim⟩
    have hne : j.val ≠ i := fun heq => hji (Fin.ext heq)
    simp only [MainPc.created] at hj
    simp only [creating, MainPc.created]
    omega
  | @created i creating all =>
    refine ⟨fun j hj => h.started j ?_, (by rintro ⟨⟩), fun hmain => hmain.elim⟩
    simp only [creating, MainPc.created]
    omega
  | endOfInput pushed =>
    refine ⟨fun j hj => h.started j ?_, fun _ _ => ?_, fun hmain => hmain.elim⟩
    · rw [pushed]
      exact hj
    · exact hinv.running (by rw [pushed]; trivial)
  | join joining more exited =>
    refine ⟨fun j hj => h.started j ?_, (by rintro ⟨⟩), fun _ => h.destroyed ?_⟩
    · rw [joining]
      exact hj
    · rw [joining]
      trivial
  | joined joining all =>
    refine ⟨fun j hj => h.started j ?_, (by rintro ⟨⟩), fun _ => h.destroyed ?_⟩
    · rw [joining]
      exact hj
    · rw [joining]
      trivial
  | @process i job processing =>
    exact ⟨fun j hj => popping_created fun _ => h.started j hj, h.entering, h.destroyed⟩
  | call calling outside entered =>
    refine ran_staged h hw ⟨calling, ?_, ?_⟩
    · rw [outside]
      exact .first
    · rw [outside]
      exact enter_runs entered
  | @resume t c on r waiting resumed =>
    refine ran_staged h hw ⟨hinv.call t c on true waiting, ?_, ?_⟩
    · rw [waiting]
      exact .again
    · rw [waiting]
      exact resume_runs resumed
  | @wake t c on waiting =>
    refine ⟨h.started, fun hmain hout => h.entering hmain ?_, h.destroyed⟩
    change Function.update s.jobs.threads t (.waiting c on true) .main = .outside at hout
    by_cases ht : .main = t
    · rw [ht, Function.update_self] at hout
      cases hout
    · rwa [Function.update_of_ne ht] at hout

theorem rank_lt_of_work {s' : State n α} (hthreads : s'.jobs.threads = s.jobs.threads)
    (h : s'.work jobs < s.work jobs) : s'.rank jobs < s.rank jobs := by
  rw [State.rank, State.rank, hthreads]
  exact Nat.add_lt_add_right (Nat.mul_lt_mul_of_pos_left h (Nat.succ_pos _)) _

theorem moves_rank {s' : State n α} {l : Label n} (hinv : Inv jobs memory s) (h : Staged s)
    (hmoves : Moves jobs s l s') :
    (l.isWake = true → s'.rank jobs ≤ s.rank jobs + 1) ∧
      (l.isWake = false → s'.rank jobs < s.rank jobs) := by
  cases hmoves with
  | @create i creating more =>
    have hsum := sum_update WorkerPc.work s.workers ⟨i, more⟩ .popping
    have hnew : s.workers ⟨i, more⟩ = .notCreated :=
      hinv.fresh ⟨i, more⟩ (by rw [creating]; exact le_refl i)
    rw [hnew] at hsum
    have hsame : (WorkerPc.notCreated : WorkerPc α).work = (WorkerPc.popping : WorkerPc α).work := rfl
    refine ⟨nofun, fun _ => rank_lt_of_work rfl ?_⟩
    simp only [State.work, creating, MainPc.work]
    omega
  | created creating all =>
    refine ⟨nofun, fun _ => rank_lt_of_work rfl ?_⟩
    simp only [State.work, creating, MainPc.work]
    omega
  | endOfInput pushed =>
    refine ⟨nofun, fun _ => rank_lt_of_work rfl ?_⟩
    simp only [State.work, pushed, MainPc.work, List.length_nil]
    omega
  | join joining more exited =>
    refine ⟨nofun, fun _ => rank_lt_of_work rfl ?_⟩
    simp only [State.work, joining, MainPc.work]
    omega
  | joined joining all =>
    refine ⟨nofun, fun _ => rank_lt_of_work rfl ?_⟩
    simp only [State.work, joining, MainPc.work]
    omega
  | @process i job processing =>
    have hsum := sum_update WorkerPc.work s.workers i .popping
    rw [processing] at hsum
    have hmore : (WorkerPc.processing job).work = (WorkerPc.popping : WorkerPc α).work + 1 := rfl
    refine ⟨nofun, fun _ => rank_lt_of_work rfl ?_⟩
    simp only [State.work]
    omega
  | call calling outside entered =>
    refine ⟨nofun, fun _ => ran_rank h ⟨calling, ?_, ?_⟩⟩
    · rw [outside]
      exact .first
    · rw [outside]
      exact enter_runs entered
  | @resume t c on r waiting resumed =>
    refine ⟨nofun, fun _ => ran_rank h ⟨hinv.call t c on true waiting, ?_, ?_⟩⟩
    · rw [waiting]
      exact .again
    · rw [waiting]
      exact resume_runs resumed
  | @wake t c on waiting =>
    refine ⟨fun _ => ?_, nofun⟩
    have hsum := sum_update awake s.jobs.threads t (.waiting c on true)
    rw [waiting] at hsum
    have hasleep : awake (Thread.waiting c on false) = 0 := rfl
    have hawake : awake (Thread.waiting c on true) = 1 := rfl
    have hwork : (n + 2) * State.work jobs { s with jobs := { s.jobs with
        threads := Function.update s.jobs.threads t (.waiting c on true) } } =
        (n + 2) * s.work jobs := rfl
    simp only [State.rank, hwork]
    omega

end Steps

/-! ## No run gets stuck -/

/-- Some step other than a spurious wakeup is possible. -/
def Enabled (jobs : List α) (s : State n α) : Prop :=
  ∃ l s', l.isWake = false ∧ step jobs s l = some s'

section Progress

variable {jobs : List α} {memory : Nat → α} {s : State n α} {t : Tid n} {c : Call α}

theorem enabled_of_isSome {l : Label n} (hl : l.isWake = false)
    (h : (step jobs s l).isSome = true) : Enabled jobs s := by
  obtain ⟨s', hs'⟩ := Option.isSome_iff_exists.mp h
  exact ⟨l, s', hl, hs'⟩

/-- A thread that does not sleep goes on with its call, if the section finds the array there. -/
theorem enabled_of_call (hinv : Inv jobs memory s) (hcall : s.call t = some c)
    (hfirst : ∃ r, enter c s.jobs.queue = some r) (hagain : ∃ r, resume c s.jobs.queue = some r)
    (hawake : ∀ c on, s.jobs.threads t ≠ .waiting c on false) : Enabled jobs s := by
  cases hth : s.jobs.threads t with
  | outside =>
    obtain ⟨r, hr⟩ := hfirst
    refine ⟨.call t, s.ran t c r, rfl, ?_⟩
    simp only [step, hcall, hth, hr, Option.map_some]
  | waiting c' on woken =>
    cases woken with
    | false => exact absurd hth (hawake c' on)
    | true =>
      obtain ⟨r, hr⟩ := hagain
      obtain rfl := Option.some.inj (hcall.symm.trans (hinv.call t c' on true hth))
      refine ⟨.resume t, s.ran t c r, rfl, ?_⟩
      simp only [step, hth, hr, Option.map_some]

theorem filled_of_freed (hinv : Inv jobs memory s) (h : s.jobs.queue.array = none) :
    s.jobs.queue.filled = 0 := by
  obtain ⟨items, hrep, -⟩ := reachable_fifo (by decide) hinv.queue
  rw [hrep.filled, hrep.freed h]
  rfl

theorem pop_succeeds (hinv : Inv jobs memory s) : ∃ r, jobQueuePop s.jobs.queue = some r := by
  unfold jobQueuePop
  split
  · exact ⟨_, rfl⟩
  · split
    · exact ⟨_, rfl⟩
    · rename_i hfilled
      cases harray : s.jobs.queue.array with
      | none => exact absurd (filled_of_freed hinv harray) hfilled
      | some cells => exact ⟨_, rfl⟩

/-- A worker in its loop goes on while there are jobs in the queue or the queue is destroyed. -/
theorem worker_enabled (hinv : Inv jobs memory s) {i : Fin n} (hstarted : s.workers i ≠ .notCreated)
    (hrunning : s.workers i ≠ .exited)
    (hgoing : s.jobs.queue.filled ≠ 0 ∨ s.jobs.queue.destroy = true) : Enabled jobs s := by
  cases hworker : s.workers i with
  | notCreated => exact absurd hworker hstarted
  | exited => exact absurd hworker hrunning
  | processing job => exact enabled_of_isSome (l := .process i) rfl (by simp [step, hworker])
  | popping =>
    have hcall : s.call (.worker i) = some .pop := by simp [State.call, hworker]
    refine enabled_of_call hinv hcall (pop_succeeds hinv) (pop_succeeds hinv) ?_
    intro c on hth
    obtain rfl := Option.some.inj (hcall.symm.trans (hinv.call _ c on false hth))
    have hw := wakeups_of_inv hinv
    obtain rfl := hw.cond _ _ on false hth
    obtain ⟨hdrained, halive⟩ := hw.notempty _ _ hth
    rcases hgoing with hfilled | hdestroyed
    · exact hfilled hdrained
    · rw [hdestroyed] at halive
      cases halive

theorem pushing_enabled (hinv : Inv jobs memory s) (h : Staged s) (hn : 1 ≤ n) {job : α}
    {rest : List α} (hmain : s.main = .pushing (job :: rest)) : Enabled jobs s := by
  have hw := wakeups_of_inv hinv
  have halive : s.jobs.queue.destroy = false := hinv.running (by rw [hmain]; trivial)
  have hcall : s.call .main = some (.push job) := by simp [State.call, hmain]
  by_cases hasleep : ∃ c on, s.jobs.threads .main = .waiting c on false
  · obtain ⟨c, on, hth⟩ := hasleep
    obtain rfl := Option.some.inj (hcall.symm.trans (hinv.call _ c on false hth))
    obtain rfl := hw.cond _ _ on false hth
    have hfull := hw.notfull _ _ hth
    rw [hw.size] at hfull
    have hworker : s.workers ⟨0, hn⟩ ≠ .exited := by
      intro hexited
      have hended := (hinv.exited _ hexited).1
      rw [halive] at hended
      cases hended
    refine worker_enabled hinv (h.started ⟨0, hn⟩ ?_) hworker (.inl ?_)
    · rw [hmain]
      exact hn
    · rw [hfull]
      decide
  · have hpush : ∃ r, jobQueuePush job s.jobs.queue = some r := by
      unfold jobQueuePush
      split
      · exact ⟨_, rfl⟩
      · cases harray : s.jobs.queue.array with
        | none =>
          have hended := hw.freed harray
          rw [halive] at hended
          cases hended
        | some cells => exact ⟨_, rfl⟩
    exact enabled_of_call hinv hcall hpush hpush fun c on hth => hasleep ⟨c, on, hth⟩

theorem destroying_enabled (hinv : Inv jobs memory s) (h : Staged s) (hn : 1 ≤ n)
    (hmain : s.main = .destroying) : Enabled jobs s := by
  have hw := wakeups_of_inv hinv
  have hcall : s.call .main = some .destroy := by simp [State.call, hmain]
  by_cases hasleep : ∃ c on, s.jobs.threads .main = .waiting c on false
  · obtain ⟨c, on, hth⟩ := hasleep
    obtain rfl := Option.some.inj (hcall.symm.trans (hinv.call _ c on false hth))
    obtain rfl := hw.cond _ _ on false hth
    have hfilled := Nat.pos_iff_ne_zero.mp (hw.empty _ _ hth)
    refine worker_enabled hinv (h.started ⟨0, hn⟩ ?_)
      (fun hexited => hfilled (hinv.exited _ hexited).2) (.inl hfilled)
    rw [hmain]
    exact hn
  · exact enabled_of_call hinv hcall ⟨_, rfl⟩ ⟨_, rfl⟩ fun c on hth => hasleep ⟨c, on, hth⟩

theorem joining_enabled (hinv : Inv jobs memory s) (h : Staged s) {i : Nat}
    (hmain : s.main = .joining i) : Enabled jobs s := by
  by_cases hi : i < n
  · by_cases hexited : s.workers ⟨i, hi⟩ = .exited
    · exact enabled_of_isSome (l := .join) rfl (by simp [step, hmain, hi, hexited])
    · refine worker_enabled hinv (h.started ⟨i, hi⟩ ?_) hexited (.inr (h.destroyed ?_))
      · rw [hmain]
        exact hi
      · rw [hmain]
        trivial
  · exact enabled_of_isSome (l := .join) rfl (by simp [step, hmain, hi])

/-- A program that has not ended can go on. -/
theorem enabled_of_not_done (hinv : Inv jobs memory s) (h : Staged s) (hn : 1 ≤ n)
    (hdone : s.main ≠ .done) : Enabled jobs s := by
  cases hmain : s.main with
  | creating i =>
    by_cases hi : i < n
    · exact enabled_of_isSome (l := .create) rfl (by simp [step, hmain, hi])
    · exact enabled_of_isSome (l := .create) rfl (by simp [step, hmain, hi])
  | pushing rest =>
    cases rest with
    | nil => exact enabled_of_isSome (l := .endOfInput) rfl (by simp [step, hmain])
    | cons job rest => exact pushing_enabled hinv h hn hmain
  | destroying => exact destroying_enabled hinv h hn hmain
  | joining i => exact joining_enabled hinv h hmain
  | done => exact absurd hmain hdone

end Progress

theorem step_staged {jobs : List α} {memory : Nat → α} {s s' : State n α} {l : Label n}
    (h : Inv jobs memory s ∧ Staged s) (hstep : step jobs s l = some s') :
    Inv jobs memory s' ∧ Staged s' :=
  ⟨step_inv h.1 hstep, moves_staged h.1 h.2 (moves_of_step hstep)⟩

theorem run_staged {jobs : List α} {memory : Nat → α} {labels : List (Label n)} {s : State n α}
    (hrun : labels.foldlM (step jobs) (initial n memory) = some s) :
    Inv jobs memory s ∧ Staged s :=
  Transition.run_invariant (I := fun s => Inv jobs memory s ∧ Staged s) (fun _ _ _ => step_staged)
    ⟨initial_inv jobs memory, initial_staged memory⟩ hrun

theorem initial_rank (jobs : List α) (memory : Nat → α) :
    (initial n memory).rank jobs ≤ (n + 2) * (3 * (n + jobs.length) + 5) + (n + 1) := by
  have hwork : (initial n memory).work jobs = 3 * (n + jobs.length) + 5 := by
    simp [State.work, initial, MainPc.work, WorkerPc.work, JobQueue.initial, jobQueueInit]
    omega
  have hle := awake_le (initial n memory).jobs.threads
  rw [State.rank, hwork]
  exact Nat.add_le_add_left hle _

/-- When main has ended, no thread calls anything any more. -/
theorem call_of_done {jobs : List α} {memory : Nat → α} {s : State n α} (hinv : Inv jobs memory s)
    (hdone : s.main = .done) (t : Tid n) : s.call t = none := by
  cases t with
  | main => rw [State.call, hdone]
  | worker i =>
    have hexited : s.workers i = .exited := hinv.joined i (by rw [hdone]; exact i.isLt)
    rw [State.call, hexited]

theorem step_of_done {jobs : List α} {memory : Nat → α} {s : State n α} (hinv : Inv jobs memory s)
    (hdone : s.main = .done) {l : Label n} (hl : l.isWake = false) : step jobs s l = none := by
  cases l with
  | create | endOfInput | join => simp only [step, hdone]
  | process i =>
    have hexited : s.workers i = .exited := hinv.joined i (by rw [hdone]; exact i.isLt)
    simp only [step, hexited]
  | call t => simp only [step, call_of_done hinv hdone t]
  | resume t =>
    cases hth : s.jobs.threads t with
    | outside => simp only [step, hth]
    | waiting c on woken =>
      have hcall := hinv.call t c on woken hth
      rw [call_of_done hinv hdone t] at hcall
      cases hcall
  | wake t => cases hl

/-- A run has no more steps than a bound that the workers and the jobs set, apart from spurious
wakeups. It cannot go on exactly when main has ended, and then every job is processed once and
every worker joined. -/
theorem run_ends (jobs : List α) (memory : Nat → α) (hn : 1 ≤ n) {labels : List (Label n)}
    {s : State n α} (hrun : labels.foldlM (step jobs) (initial n memory) = some s) :
    labels.length ≤ (n + 2) * (3 * (n + jobs.length) + 5) + (n + 1) +
        2 * labels.countP Label.isWake ∧
      ((∀ l, l.isWake = false → step jobs s l = none) ↔ s.main = .done) ∧
      (s.main = .done → (s.processed.map Prod.snd).Perm jobs ∧ ∀ i, s.workers i = .exited) := by
  obtain ⟨hinv, hstaged⟩ := run_staged hrun
  refine ⟨?_, ⟨fun hstuck => ?_, fun hdone l => step_of_done hinv hdone⟩, fun hdone => ?_⟩
  · have hfree : ∀ (s : State n α) l s', Inv jobs memory s ∧ Staged s → step jobs s l = some s' →
        l.isWake = true → s'.rank jobs ≤ s.rank jobs + 1 := by
      intro s l s' hs hstep
      exact (moves_rank hs.1 hs.2 (moves_of_step hstep)).1
    have hdown : ∀ (s : State n α) l s', Inv jobs memory s ∧ Staged s → step jobs s l = some s' →
        l.isWake = false → s'.rank jobs < s.rank jobs := by
      intro s l s' hs hstep
      exact (moves_rank hs.1 hs.2 (moves_of_step hstep)).2
    have hlength := Transition.length_le_of_rank (fun _ _ _ => step_staged) hfree hdown
      ⟨initial_inv jobs memory, initial_staged memory⟩ hrun
    have hrank := initial_rank jobs memory (n := n)
    omega
  · by_contra hdone
    obtain ⟨l, s', hl, hstep⟩ := enabled_of_not_done hinv hstaged hn hdone
    rw [hstuck l hl] at hstep
    cases hstep
  · refine ⟨hinv.exactlyOnce.1 hdone, fun i => hinv.joined i ?_⟩
    rw [hdone]
    exact i.isLt

theorem run_ends_two_lines : ∃ s : State 2 String,
    (twoLines 0 1).foldlM (step ["7", "9"]) (initial 2 fun _ => "") = some s ∧
      (twoLines 0 1).length ≤ 71 ∧ (∀ l, l.isWake = false → step ["7", "9"] s l = none) ∧
      (s.processed.map Prod.snd).Perm ["7", "9"] := by
  obtain ⟨s, hrun, hdone⟩ : ∃ s : State 2 String,
      (twoLines 0 1).foldlM (step ["7", "9"]) (initial 2 fun _ => "") = some s ∧ s.main = .done :=
    ⟨_, rfl, rfl⟩
  obtain ⟨hlength, hstuck, hend⟩ := run_ends ["7", "9"] (fun _ => "") (by decide) hrun
  exact ⟨s, hrun, hlength, hstuck.mpr hdone, (hend hdone).1⟩

end CompSys.Workers
