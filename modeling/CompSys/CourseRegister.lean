import CompSys.CheckThenAct
import CompSys.CourseServer
import CompSys.Transition
import Mathlib.Logic.Function.Basic

/-!
# Registrations at the server of A3, from several threads

The server handles every connection in a thread of its own, and the threads share the
dictionary of the users without a lock. In `_register_new_user` the test of the name, the
hash and the store are steps between which other threads may take theirs.
-/
namespace CompSys.CourseServer.Registering

open Peer Transition

/-- What `_register_new_user` is called with in a thread. -/
structure Registration where
  request : Request
  username : String
  signature : Bytes

/-- Where a thread stands in `_register_new_user` and in the handling of what it raises. -/
inductive Phase where
  | waiting
  | absent
  | hashed (entry : Bytes × String)
  | replying (reply : Reply)
  | raised (e : PyError)
  | done
  deriving DecidableEq

structure State where
  users : Users
  phases : ℕ → Phase
  replies : List (ℕ × Reply)

inductive Label where
  | test (t : ℕ)
  | hash (t : ℕ)
  | store (t : ℕ)
  | reply (t : ℕ)
  | fail (t : ℕ)

/-- `users[username] = entry`. -/
def setItem (users : Users) (username : String) (entry : Bytes × String) : Users :=
  match users with
  | [] => [(username, entry)]
  | (name, old) :: rest =>
    if name = username then (name, entry) :: rest else (name, old) :: setItem rest username entry

def State.phase (s : State) (t : ℕ) (phase : Phase) : State :=
  { s with phases := Function.update s.phases t phase }

/-- The tests of the name, up to the reply that refuses it. -/
def testName (users : Users) (username : String) : Phase :=
  if username = "" then
    .replying (.error STATUS_BAD_REQUEST "Cannot register empty username")
  else if (users.lookup username).isSome then
    .replying (.error STATUS_USER_EXISTS
      s!"Cannot register user under name '{username}', already exists")
  else .absent

section Steps

variable (env : Environment) (registrations : ℕ → Registration)

/-- The hash and the salt of a registration. -/
def credentials (registration : Registration) : Bytes × String :=
  (env.sha.digest (credential registration.signature registration.request.salt),
    registration.request.salt.val)

def step (s : State) : Label → Option State
  | .test t =>
    match s.phases t with
    | .waiting => some (s.phase t (testName s.users (registrations t).username))
    | _ => none
  | .hash t =>
    match s.phases t with
    | .absent => some (s.phase t (.hashed (credentials env (registrations t))))
    | _ => none
  | .store t =>
    match s.phases t with
    | .hashed entry =>
      some { s.phase t (.replying (.registered (registrations t).username)) with
        users := setItem s.users (registrations t).username entry }
    | _ => none
  | .reply t =>
    match s.phases t with
    | .replying reply =>
      some { s.phase t (match (registrations t).request.deliver reply with
          | .ok () => .done
          | .error e => .raised e) with
        replies := s.replies ++ [(t, reply)] }
    | _ => none
  | .fail t =>
    match s.phases t with
    | .raised e =>
      some { s.phase t .done with
        replies := s.replies ++
          [(t, .error STATUS_OTHER s!"Something went wrong. {env.describe e}")] }
    | _ => none

end Steps

def initial (users : Users) : State := ⟨users, fun _ => .waiting, []⟩

/-- The thread has found its name absent and has not stored it. -/
def Pending (phase : Phase) : Prop := phase = .absent ∨ ∃ entry, phase = .hashed entry

/-- No name that is absent is tested while another thread is about to store it. -/
def Guarded (registrations : ℕ → Registration) (s : State) : Label → Prop
  | .test t => s.users.lookup (registrations t).username = none →
      ∀ u, Pending (s.phases u) → (registrations u).username ≠ (registrations t).username
  | _ => True

/-- The thread has answered that the user is registered. -/
def Accepted (s : State) (t : ℕ) (username : String) : Prop :=
  (t, .registered username) ∈ s.replies

/-- For each name at most one registration is accepted, and it is what is stored. -/
structure Exclusive (env : Environment) (registrations : ℕ → Registration) (s : State) : Prop where
  once : ∀ username t u, Accepted s t username → Accepted s u username → t = u
  stored : ∀ username t, Accepted s t username →
    s.users.lookup username = some (credentials env (registrations t))

/-- No thread is between its test and its reply. -/
def Finished (s : State) : Prop :=
  ∀ t, ¬Pending (s.phases t) ∧ ∀ reply, s.phases t ≠ .replying reply

/-! ## The dictionary -/

theorem lookup_cons_ne {users : Users} {name key : String} (h : name ≠ key)
    (entry : Bytes × String) : List.lookup name ((key, entry) :: users) = users.lookup name := by
  rw [List.lookup_cons, beq_eq_false_iff_ne.mpr h]

theorem lookup_setItem (users : Users) (username name : String) (entry : Bytes × String) :
    (setItem users username entry).lookup name =
      if name = username then some entry else users.lookup name := by
  induction users with
  | nil =>
    by_cases h : name = username
    · simp [setItem, h]
    · simp [setItem, h, lookup_cons_ne h]
  | cons user rest ih =>
    obtain ⟨key, old⟩ := user
    by_cases hkey : key = username
    · by_cases h : name = username
      · simp [setItem, hkey, h]
      · simp [setItem, hkey, h, lookup_cons_ne h]
    · by_cases h : name = key
      · simp [setItem, hkey, h]
      · simp [setItem, hkey, lookup_cons_ne h, ih]

theorem setItem_absent {users : Users} {username : String} (h : users.lookup username = none)
    (entry : Bytes × String) : setItem users username entry = users ++ [(username, entry)] := by
  induction users with
  | nil => rfl
  | cons user rest ih =>
    obtain ⟨key, old⟩ := user
    by_cases hkey : key = username
    · simp [hkey] at h
    · rw [lookup_cons_ne (Ne.symm hkey)] at h
      simp [setItem, hkey, ih h]

/-! ## Single threads -/

@[simp] theorem phases_phase (s : State) (t u : ℕ) (phase : Phase) :
    (s.phase t phase).phases u = if u = t then phase else s.phases u :=
  Function.update_apply s.phases t phase u

@[simp] theorem users_phase (s : State) (t : ℕ) (phase : Phase) :
    (s.phase t phase).users = s.users := rfl

@[simp] theorem replies_phase (s : State) (t : ℕ) (phase : Phase) :
    (s.phase t phase).replies = s.replies := rfl

@[simp] theorem accepted_phase (s : State) (t u : ℕ) (phase : Phase) (username : String) :
    Accepted (s.phase t phase) u username ↔ Accepted s u username := Iff.rfl

theorem testName_cases (users : Users) (username : String) :
    testName users username = .absent ∧ username ≠ "" ∧ users.lookup username = none ∨
      ∃ status message, testName users username = .replying (.error status message) := by
  unfold testName
  split
  case isTrue => exact .inr ⟨_, _, rfl⟩
  case isFalse hne =>
    split
    case isTrue => exact .inr ⟨_, _, rfl⟩
    case isFalse hnew => exact .inl ⟨rfl, hne, Option.not_isSome_iff_eq_none.mp hnew⟩

theorem step_reply (env : Environment) (registrations : ℕ → Registration) {s : State} {t : ℕ}
    (reply : Reply) (h : s.phases t = .replying reply) :
    ∃ phase, step env registrations s (.reply t) =
      some { s.phase t phase with replies := s.replies ++ [(t, reply)] } := by
  simp only [step, h]
  exact ⟨_, rfl⟩

/-- If nothing comes between its steps, a thread does what `_register_new_user` does. -/
theorem registers_alone (env : Environment) (registrations : ℕ → Registration) {s : State} {t : ℕ}
    (hwaiting : s.phases t = .waiting) :
    ∃ (labels : List Label) (s' : State), labels.foldlM (step env registrations) s = some s' ∧
      s'.users = (registerNewUser env (registrations t).request (registrations t).username
        (registrations t).signature ⟨s.users, []⟩).1.users ∧
      s'.replies = s.replies ++ (registerNewUser env (registrations t).request
        (registrations t).username (registrations t).signature ⟨s.users, []⟩).1.replies.map
          fun reply => (t, reply) := by
  have htest : step env registrations s (.test t) =
      some (s.phase t (testName s.users (registrations t).username)) := by
    simp only [step, hwaiting]
  rcases testName_cases s.users (registrations t).username with
    ⟨hname, hempty, habsent⟩ | ⟨status, message, hname⟩
  · rw [hname] at htest
    have hhash : step env registrations (s.phase t .absent) (.hash t) =
        some ((s.phase t .absent).phase t (.hashed (credentials env (registrations t)))) := by
      simp only [step, phases_phase, ↓reduceIte]
    obtain ⟨s', hs', husers, hphase, hreplies⟩ : ∃ s', step env registrations
        ((s.phase t .absent).phase t (.hashed (credentials env (registrations t)))) (.store t) =
          some s' ∧
        s'.users = setItem s.users (registrations t).username (credentials env (registrations t)) ∧
        s'.phases t = .replying (.registered (registrations t).username) ∧
        s'.replies = s.replies := by
      simp only [step, phases_phase, ↓reduceIte]
      exact ⟨_, rfl, rfl, Function.update_self _ _ _, rfl⟩
    obtain ⟨phase, hreply⟩ := step_reply env registrations _ hphase
    refine ⟨[.test t, .hash t, .store t, .reply t], _, run_cons.mpr ⟨_, htest, run_cons.mpr
      ⟨_, hhash, run_cons.mpr ⟨_, hs', run_cons.mpr ⟨_, hreply, rfl⟩⟩⟩⟩, ?_⟩
    simp [registerNewUser, hempty, habsent, send, husers, hreplies, setItem_absent habsent,
      credentials]
  · rw [hname] at htest
    have hphase : (s.phase t (.replying (.error status message))).phases t =
        .replying (.error status message) := Function.update_self _ _ _
    obtain ⟨phase, hreply⟩ := step_reply env registrations _ hphase
    refine ⟨[.test t, .reply t], _, run_cons.mpr ⟨_, htest, run_cons.mpr ⟨_, hreply, rfl⟩⟩, ?_⟩
    unfold testName at hname
    split at hname
    case isTrue hempty =>
      cases hname
      simp [registerNewUser, hempty, handleError, send]
    case isFalse hempty =>
      split at hname
      case isTrue hknown =>
        cases hname
        simp [registerNewUser, hempty, hknown, handleError, send]
      case isFalse => cases hname

/-! ## Steps as claims -/

section Claims

variable {env : Environment} {registrations : ℕ → Registration}

/-- The thread has stored its user. -/
def Stored (registrations : ℕ → Registration) (s : State) (t : ℕ) : Prop :=
  s.phases t = .replying (.registered (registrations t).username) ∨
    Accepted s t (registrations t).username

/-- The users as a table of claimed names. -/
def view (registrations : ℕ → Registration) (s : State) :
    CheckThenAct.Table ℕ String (Bytes × String) where
  entries username := s.users.lookup username
  pending := { t | Pending (s.phases t) }
  settled := { t | Stored registrations s t }

/-- What a thread holds is its own name, and its own hash and salt. -/
def Fits (env : Environment) (registration : Registration) : Phase → Prop
  | .absent => registration.username ≠ ""
  | .hashed entry => registration.username ≠ "" ∧ entry = credentials env registration
  | .replying (.registered username) => username = registration.username
  | _ => True

/-- The threads handle their own names and credentials. -/
structure Named (env : Environment) (registrations : ℕ → Registration) (s : State) : Prop where
  fits : ∀ t, Fits env (registrations t) (s.phases t)
  accepted : ∀ t username, Accepted s t username → username = (registrations t).username

/-- What a step is, by its label. -/
inductive Moves (env : Environment) (registrations : ℕ → Registration) (s : State) :
    Label → State → Prop where
  | test (t : ℕ) (waiting : s.phases t = .waiting) :
      Moves env registrations s (.test t)
        (s.phase t (testName s.users (registrations t).username))
  | hash (t : ℕ) (absent : s.phases t = .absent) :
      Moves env registrations s (.hash t)
        (s.phase t (.hashed (credentials env (registrations t))))
  | store (t : ℕ) (entry : Bytes × String) (hashed : s.phases t = .hashed entry) :
      Moves env registrations s (.store t)
        { s.phase t (.replying (.registered (registrations t).username)) with
          users := setItem s.users (registrations t).username entry }
  | reply (t : ℕ) (reply : Reply) (phase : Phase) (replying : s.phases t = .replying reply)
      (ended : phase = .done ∨ ∃ e, phase = .raised e) :
      Moves env registrations s (.reply t)
        { s.phase t phase with replies := s.replies ++ [(t, reply)] }
  | fail (t : ℕ) (e : PyError) (message : String) (raised : s.phases t = .raised e) :
      Moves env registrations s (.fail t)
        { s.phase t .done with replies := s.replies ++ [(t, .error STATUS_OTHER message)] }

theorem moves_of_step {s s' : State} {a : Label} (h : step env registrations s a = some s') :
    Moves env registrations s a s' := by
  cases a with
  | test t =>
    simp only [step] at h
    split at h <;> cases h
    exact .test t ‹_›
  | hash t =>
    simp only [step] at h
    split at h <;> cases h
    exact .hash t ‹_›
  | store t =>
    simp only [step] at h
    split at h <;> cases h
    exact .store t _ ‹_›
  | reply t =>
    simp only [step] at h
    split at h <;> cases h
    apply Moves.reply t _ _ ‹_›
    split
    · exact .inl rfl
    · exact .inr ⟨_, rfl⟩
  | fail t =>
    simp only [step] at h
    split at h <;> cases h
    exact .fail t _ _ ‹_›

theorem named_initial (users : Users) : Named env registrations (initial users) := by
  constructor
  · intro t
    trivial
  · intro t username h
    cases h

theorem Named.phase {s : State} (h : Named env registrations s) {t : ℕ} {phase : Phase}
    (hfits : Fits env (registrations t) phase) : Named env registrations (s.phase t phase) where
  fits := by
    intro u
    rw [phases_phase]
    split
    case isTrue heq => exact heq ▸ hfits
    case isFalse => exact h.fits u
  accepted := h.accepted

theorem Named.users {s : State} (h : Named env registrations s) (users : Users) :
    Named env registrations { s with users := users } := ⟨h.fits, h.accepted⟩

theorem Named.replies {s : State} (h : Named env registrations s) {t : ℕ} {reply : Reply}
    (hreply : ∀ username, reply = .registered username → username = (registrations t).username) :
    Named env registrations { s with replies := s.replies ++ [(t, reply)] } where
  fits := h.fits
  accepted := by
    intro u username haccepted
    rcases List.mem_append.mp haccepted with hold | hnew
    · exact h.accepted u username hold
    · cases List.mem_singleton.mp hnew
      exact hreply username rfl

theorem Named.moves {s s' : State} {a : Label} (h : Named env registrations s)
    (hmoves : Moves env registrations s a s') : Named env registrations s' := by
  cases hmoves with
  | test t waiting =>
    apply h.phase
    rcases testName_cases s.users (registrations t).username with
      ⟨htest, hne, -⟩ | ⟨status, message, htest⟩
    · rw [htest]
      exact hne
    · rw [htest]
      trivial
  | hash t absent =>
    have hne := h.fits t
    rw [absent] at hne
    exact h.phase ⟨hne, rfl⟩
  | store t entry hashed =>
    have hfits : Fits env (registrations t) (.replying (.registered (registrations t).username)) :=
      rfl
    exact (h.phase hfits).users _
  | reply t reply phase replying ended =>
    have hended : Fits env (registrations t) phase := by
      rcases ended with rfl | ⟨e, rfl⟩ <;> trivial
    apply (h.phase hended).replies
    rintro username rfl
    have hown := h.fits t
    rw [replying] at hown
    exact hown
  | fail t e message raised =>
    have hdone : Fits env (registrations t) .done := trivial
    apply (h.phase hdone).replies
    intro username heq
    cases heq

/-- A test that finds the name absent claims it. -/
theorem view_claim {s : State} {t : ℕ} (waiting : s.phases t = .waiting) :
    view registrations (s.phase t .absent) =
      { view registrations s with pending := insert t (view registrations s).pending } := by
  apply CheckThenAct.Table.ext
  · rfl
  · ext u
    by_cases heq : u = t <;> simp [view, heq, Pending]
  · ext u
    by_cases heq : u = t <;> simp [view, heq, Stored, waiting]

theorem view_settle (s : State) (t : ℕ) (entry : Bytes × String) :
    view registrations { s.phase t (.replying (.registered (registrations t).username)) with
        users := setItem s.users (registrations t).username entry } =
      ⟨Function.update (view registrations s).entries (registrations t).username (some entry),
        (view registrations s).pending \ {t}, insert t (view registrations s).settled⟩ := by
  apply CheckThenAct.Table.ext
  · funext username
    simp [view, lookup_setItem, Function.update_apply]
  · ext u
    by_cases heq : u = t <;> simp [view, heq, Pending]
  · ext u
    by_cases heq : u = t <;> simp [view, heq, Stored, Accepted]

theorem view_quiet {s s' : State} {t : ℕ} (husers : s'.users = s.users)
    (hphases : ∀ u, u ≠ t → s'.phases u = s.phases u)
    (hpending : Pending (s'.phases t) ↔ Pending (s.phases t))
    (hstored : Stored registrations s' t ↔ Stored registrations s t)
    (hreplies : ∀ u username, u ≠ t → (Accepted s' u username ↔ Accepted s u username)) :
    view registrations s' = view registrations s := by
  apply CheckThenAct.Table.ext
  · simp [view, husers]
  · ext u
    by_cases heq : u = t
    · simp [view, heq, hpending]
    · simp [view, hphases u heq]
  · ext u
    by_cases heq : u = t
    · simp [view, heq, hstored]
    · simp [view, Stored, hphases u heq, hreplies u _ heq]

/-- To the table a step is a claim, a store or nothing. -/
theorem Moves.claims {s s' : State} {a : Label} (h : Named env registrations s)
    (hmoves : Moves env registrations s a s') :
    view registrations s' = view registrations s ∨
      ∃ act, CheckThenAct.Step (fun t => (registrations t).username)
          (fun t => credentials env (registrations t)) (view registrations s) act
          (view registrations s') ∧
        ∀ t, act = .claim t → a = .test t ∧ s.phases t = .waiting := by
  cases hmoves with
  | test t waiting =>
    rcases testName_cases s.users (registrations t).username with
      ⟨htest, -, habsent⟩ | ⟨status, message, htest⟩
    · right
      rw [htest, view_claim waiting]
      refine ⟨.claim t, .claim t habsent, ?_⟩
      intro u heq
      cases heq
      exact ⟨rfl, waiting⟩
    · left
      rw [htest]
      apply view_quiet (t := t)
      · rfl
      · intro u hne
        simp [hne]
      · simp [Pending, waiting]
      · simp [Stored, waiting]
      · simp
  | hash t absent =>
    left
    apply view_quiet (t := t)
    · rfl
    · intro u hne
      simp [hne]
    · simp [Pending, absent]
    · simp [Stored, absent]
    · simp
  | store t entry hashed =>
    right
    have hentry := h.fits t
    rw [hashed] at hentry
    obtain ⟨-, rfl⟩ := hentry
    rw [view_settle]
    refine ⟨.settle t, .settle t (.inr ⟨_, hashed⟩), ?_⟩
    intro u heq
    cases heq
  | reply t reply phase replying ended =>
    left
    apply view_quiet (t := t)
    · rfl
    · intro u hne
      simp [hne]
    · rcases ended with rfl | ⟨e, rfl⟩ <;> simp [Pending, replying]
    · rcases ended with rfl | ⟨e, rfl⟩ <;> simp [Stored, Accepted, replying, or_comm, eq_comm]
    · intro u username hne
      simp [Accepted, hne]
  | fail t e message raised =>
    left
    apply view_quiet (t := t)
    · rfl
    · intro u hne
      simp [hne]
    · simp [Pending, raised]
    · simp [Stored, Accepted, raised]
    · intro u username hne
      simp [Accepted, hne]

/-! ## Runs -/

variable (env registrations) in
/-- What holds as long as a run keeps to the guard. -/
def Sound (s : State) : Prop :=
  Named env registrations s ∧ CheckThenAct.Exclusive (fun t => (registrations t).username)
    (fun t => credentials env (registrations t)) (view registrations s)

variable (env registrations) in
/-- What holds from a step against the guard on. -/
def Clashing (s : State) : Prop :=
  Named env registrations s ∧
    CheckThenAct.Clash (fun t => (registrations t).username) (view registrations s)

theorem sound_initial (users : Users) : Sound env registrations (initial users) := by
  refine ⟨named_initial users, ?_⟩
  constructor <;> simp [view, initial, Pending, Stored, Accepted, Set.InjOn]

theorem Sound.step {s s' : State} {a : Label} (h : Sound env registrations s)
    (hguard : Guarded registrations s a) (hstep : step env registrations s a = some s') :
    Sound env registrations s' := by
  have hmoves := moves_of_step hstep
  refine ⟨h.1.moves hmoves, ?_⟩
  rcases hmoves.claims h.1 with hsame | ⟨act, hact, hclaim⟩
  · rw [hsame]
    exact h.2
  · refine h.2.step ?_ hact
    cases act with
    | settle t => trivial
    | claim t =>
      obtain ⟨rfl, -⟩ := hclaim t rfl
      rintro ⟨u, hpending, heq⟩
      exact hguard hact.absent u hpending heq

theorem Sound.exclusive {s : State} (h : Sound env registrations s) :
    Exclusive env registrations s where
  once := by
    intro username t u ht hu
    obtain rfl := h.1.accepted t username ht
    have hname := h.1.accepted u _ hu
    rw [hname] at hu
    exact h.2.once (.inr ht) (.inr hu) hname
  stored := by
    intro username t ht
    obtain rfl := h.1.accepted t username ht
    exact h.2.stored t (.inr ht)

/-- Two threads have found one name absent. -/
theorem clashing_of_unguarded {s s' : State} {a : Label} (h : Named env registrations s)
    (hguard : ¬Guarded registrations s a) (hstep : step env registrations s a = some s') :
    Clashing env registrations s' := by
  have hmoves := moves_of_step hstep
  refine ⟨h.moves hmoves, ?_⟩
  cases hmoves with
  | test t waiting =>
    simp only [Guarded, not_forall, not_not] at hguard
    obtain ⟨habsent, u, hpending, hname⟩ := hguard
    have hne : (registrations t).username ≠ "" := by
      have hfits := h.fits u
      rw [← hname]
      rcases hpending with hphase | ⟨entry, hphase⟩
      · rw [hphase] at hfits
        exact hfits
      · rw [hphase] at hfits
        exact hfits.1
    have htest : testName s.users (registrations t).username = .absent := by
      simp [testName, hne, habsent]
    have hclaim : CheckThenAct.Step (fun t => (registrations t).username)
        (fun t => credentials env (registrations t)) (view registrations s) (.claim t)
        (view registrations (s.phase t .absent)) := by
      rw [view_claim waiting]
      exact .claim t habsent
    rw [htest]
    apply hclaim.clash
    · intro u heq
      cases heq
      simp [view, Pending, waiting]
    · exact not_not.mpr ⟨u, hpending, hname⟩
  | hash | store | reply | fail => exact absurd trivial hguard

theorem Clashing.step {s s' : State} {a : Label} (h : Clashing env registrations s)
    (hstep : step env registrations s a = some s') : Clashing env registrations s' := by
  have hmoves := moves_of_step hstep
  refine ⟨h.1.moves hmoves, ?_⟩
  rcases hmoves.claims h.1 with hsame | ⟨act, hact, -⟩
  · rw [hsame]
    exact h.2
  · exact h.2.step hact

/-- Once all have been answered, both of the two have been accepted. -/
theorem Clashing.not_exclusive {s : State} (h : Clashing env registrations s)
    (hfinished : Finished s) : ¬Exclusive env registrations s := by
  intro hexclusive
  apply h.2
  have haccepted : ∀ t ∈ (view registrations s).pending ∪ (view registrations s).settled,
      Accepted s t (registrations t).username := by
    intro t ht
    rcases ht with hpending | hreplying | haccepted
    · exact absurd hpending (hfinished t).1
    · exact absurd hreplying ((hfinished t).2 _)
    · exact haccepted
  intro t ht u hu hname
  have haccepted' := haccepted u hu
  rw [← show (registrations t).username = (registrations u).username from hname] at haccepted'
  exact hexclusive.once _ t u (haccepted t ht) haccepted'

end Claims

/-- In every run in which no absent name is tested while another thread is about to store
it, at most one registration of each name is accepted, and its credentials are stored. In
any other run two are, once all threads have answered. -/
theorem registrations_exclusive (env : Environment) (registrations : ℕ → Registration)
    (users : Users) (labels : List Label) (s : State)
    (hrun : labels.foldlM (step env registrations) (initial users) = some s) :
    (Respects (step env registrations) (Guarded registrations) (initial users) labels →
      Exclusive env registrations s) ∧
    (Finished s → Exclusive env registrations s →
      Respects (step env registrations) (Guarded registrations) (initial users) labels) := by
  constructor
  · intro hrespects
    have hsound : Sound env registrations s :=
      hrespects.invariant (fun _ _ _ => Sound.step) (sound_initial users) hrun
    exact hsound.exclusive
  · intro hfinished hexclusive
    by_contra hrespects
    obtain ⟨before, a, after, s₁, s₂, -, hbefore, hagainst, hstep, hafter⟩ :=
      exists_of_not_respects hrespects hrun
    have hnamed : Named env registrations s₁ :=
      run_invariant (fun _ _ _ h hs => h.moves (moves_of_step hs)) (named_initial users) hbefore
    have hclashing : Clashing env registrations s :=
      run_invariant (fun _ _ _ => Clashing.step) (clashing_of_unguarded hnamed hagainst hstep) hafter
    exact hclashing.not_exclusive hfinished hexclusive

/-- Two registrations of the user `u`, with different signatures. -/
def sampleRegistrations (t : ℕ) : Registration :=
  ⟨sampleRequest 107 [], "u", List.replicate 32 (107 + UInt8.ofNat t)⟩

/-- The second thread tests the name after the first has stored it. -/
theorem registrations_exclusive_queued :
    ∃ s, Accepted s 0 "u" ∧ Exclusive sampleEnvironment sampleRegistrations s := by
  have hrun : ([.test 0, .hash 0, .store 0, .test 1, .reply 0, .reply 1].foldlM
      (step sampleEnvironment sampleRegistrations) (initial [])).map State.replies =
        some [(0, .registered "u"), (1, .error STATUS_USER_EXISTS
          "Cannot register user under name 'u', already exists")] := by
    decide +kernel
  obtain ⟨s, hlabels, hreplies⟩ := Option.map_eq_some_iff.mp hrun
  refine ⟨s, ?_, ?_⟩
  · simp [Accepted, hreplies]
  · refine (registrations_exclusive sampleEnvironment sampleRegistrations [] _ s hlabels).1 ?_
    refine ⟨?_, fun _ htested => ?_⟩
    · intro _ u hpending
      simp [initial, Pending] at hpending
    cases htested
    refine ⟨trivial, fun _ hhashed => ?_⟩
    cases hhashed
    refine ⟨trivial, fun _ hstored => ?_⟩
    cases hstored
    refine ⟨?_, fun _ _ => ⟨trivial, fun _ _ => ⟨trivial, fun _ _ => trivial⟩⟩⟩
    intro habsent
    cases habsent

/-- Both of two threads find the name absent: both are accepted. -/
theorem registrations_both :
    ¬∀ (labels : List Label) (s : State),
      labels.foldlM (step sampleEnvironment sampleRegistrations) (initial []) = some s →
        Exclusive sampleEnvironment sampleRegistrations s := by
  intro hclaim
  have hrun : ([.test 0, .test 1, .hash 0, .hash 1, .store 0, .store 1, .reply 0, .reply 1].foldlM
      (step sampleEnvironment sampleRegistrations) (initial [])).map State.replies =
        some [(0, .registered "u"), (1, .registered "u")] := by
    decide +kernel
  obtain ⟨s, hlabels, hreplies⟩ := Option.map_eq_some_iff.mp hrun
  have hexclusive := hclaim _ s hlabels
  have hfirst : Accepted s 0 "u" := by
    simp [Accepted, hreplies]
  have hsecond : Accepted s 1 "u" := by
    simp [Accepted, hreplies]
  exact absurd (hexclusive.once "u" 0 1 hfirst hsecond) (by decide)

end CompSys.CourseServer.Registering
