import CompSys.PeerFile

/-!
# Files that the Python peer of A4 is retrieving

The client thread in `to_server` and the server threads in `_handle_request` share the list
`currently_retreiving` and the files. A section under `retrieving_mutex` is one step, and so is
each operation on a file; the data of a file is written in any number of pieces.
-/
namespace CompSys.PeerRetrieving

open Peer PythonText

/-- Where the client thread stands in `to_server(COMMAND_RETREIVE, file)`. The data is missing
after a status other than OK. -/
inductive Client where
  | idle
  | exchanging (file : String)
  | received (file : String) (data : Option Bytes)
  | removed (file : String) (data : Bytes)
  | writing (file : String) (rest : Bytes)
  | stopped
  deriving DecidableEq, Repr

/-- A reply with STATUS_OK, with the bytes of the file and the client thread as they were when
the file was read. -/
structure Served where
  file : String
  payload : Bytes
  content : Bytes
  client : Client
  deriving DecidableEq, Repr

/-- Where a server thread stands in `_handle_request`. -/
inductive Server where
  | idle
  | found (file : String)
  | checked (file : String)
  | replying (served : Served)
  deriving DecidableEq, Repr

structure State where
  currentlyRetreiving : List String
  files : String → Option Bytes
  client : Client
  servers : Nat → Server
  served : List Served

inductive Label where
  | add (file : String)
  | exchange (data : Option Bytes)
  | fail
  | remove
  | openFile
  | write (n : Nat)
  | close
  | find (t : Nat) (file : String)
  | check (t : Nat)
  | read (t : Nat)
  | reply (t : Nat)

def State.server (s : State) (t : Nat) (server : Server) : State :=
  { s with servers := Function.update s.servers t server }

theorem State.servers_server (s : State) (t t' : Nat) (server : Server) :
    (s.server t server).servers t' = if t' = t then server else s.servers t' :=
  Function.update_apply s.servers t server t'

theorem State.server_server (s : State) (t : Nat) (server server' : Server) :
    (s.server t server).server t server' = s.server t server' := by
  rw [State.server, State.server, Function.update_idem]
  rfl

theorem State.server_self {s : State} {t : Nat} {server : Server} (h : s.servers t = server) :
    s.server t server = s := by
  rw [State.server, ← h, Function.update_eq_self]

def step (s : State) : Label → Option State
  | .add file =>
    match s.client with
    | .idle =>
      some { s with
        client := .exchanging file
        currentlyRetreiving := s.currentlyRetreiving ++ [file] }
    | _ => none
  | .exchange data =>
    match s.client with
    | .exchanging file => some { s with client := .received file data }
    | _ => none
  -- an exception in the exchange ends the client thread, and the file stays in the list
  | .fail =>
    match s.client with
    | .exchanging _ => some { s with client := .stopped }
    | _ => none
  | .remove =>
    match s.client with
    | .received file data =>
      some { s with
        client := match data with
          | some data => .removed file data
          | none => .idle
        currentlyRetreiving := s.currentlyRetreiving.erase file }
    | _ => none
  | .openFile =>
    match s.client with
    | .removed file data =>
      some { s with
        client := .writing file data
        files := Function.update s.files file (some []) }
    | _ => none
  | .write n =>
    match s.client with
    | .writing file rest =>
      some { s with
        client := .writing file (rest.drop n)
        files := Function.update s.files file (some ((s.files file).getD [] ++ rest.take n)) }
    | _ => none
  | .close =>
    match s.client with
    | .writing _ [] => some { s with client := .idle }
    | _ => none
  -- a missing file, a file in the list and a file that is no text are answered with an error
  | .find t file =>
    match s.servers t, s.files file with
    | .idle, some _ => some (s.server t (.found file))
    | .idle, none => some s
    | _, _ => none
  | .check t =>
    match s.servers t with
    | .found file =>
      if file ∈ s.currentlyRetreiving then some (s.server t .idle)
      else some (s.server t (.checked file))
    | _ => none
  | .read t =>
    match s.servers t with
    | .checked file =>
      match s.files file with
      | none => some (s.server t .idle)
      | some content =>
        match readText content with
        | .error _ => some (s.server t .idle)
        | .ok data => some (s.server t (.replying ⟨file, encode data, content, s.client⟩))
    | _ => none
  | .reply t =>
    match s.servers t with
    | .replying served => some { s.server t .idle with served := s.served ++ [served] }
    | _ => none

def initial (files : String → Option Bytes) : State := ⟨[], files, .idle, fun _ => .idle, []⟩

def retrieving (files : String → Option Bytes) : Transition.System State :=
  Transition.ofStep (initial files) step

/-- The client has truncated the file and not yet written all of its data. -/
def Incomplete (client : Client) (file : String) : Prop :=
  ∃ rest, client = .writing file rest ∧ rest ≠ []

/-- No server thread makes its check of a file that is being written, and the client, with data to
write, opens no file that a server thread has checked and not yet read. -/
def Guarded (s : State) : Label → Prop
  | .check t => ∀ file, s.servers t = .found file → ¬Incomplete s.client file
  | .openFile => ∀ file data t, s.client = .removed file data → data ≠ [] →
      s.servers t ≠ .checked file
  | _ => True

def guarded (files : String → Option Bytes) : Transition.System State where
  start s := s = initial files
  next s t := ∃ label, Guarded s label ∧ step s label = some t

/-- What the list is meant to ensure. -/
structure Safe (s : State) : Prop where
  checked : ∀ t file, s.servers t = .checked file → ¬Incomplete s.client file
  replying : ∀ t served, s.servers t = .replying served → ¬Incomplete served.client served.file
  served : ∀ served ∈ s.served, ¬Incomplete served.client served.file

/-! ## A server thread on its own -/

/-- If nothing comes between its steps, a server thread serves the file that `_handle_request`
replies with. -/
theorem serves_alone (env : Surroundings) {s : State} {t : Nat} {path data : String}
    {content : Bytes} (hidle : s.servers t = .idle)
    (hlist : env.currentlyRetreiving = s.currentlyRetreiving)
    (hfile : s.files path = some content) (hserves : Serves env path content)
    (hread : readText content = .ok data) :
    [.find t path, .check t, .read t, .reply t].foldlM PeerRetrieving.step s =
        some { s with served := s.served ++ [⟨path, encode data, content, s.client⟩] } ∧
      ∀ session, handleRequest env (encode path) session =
        reply env STATUS_OK (encode data) session := by
  refine ⟨?_, handleRequest_serves env hserves hread⟩
  have hfind : PeerRetrieving.step s (.find t path) = some (s.server t (.found path)) := by
    simp only [step, hidle, hfile]
  have hcheck : PeerRetrieving.step (s.server t (.found path)) (.check t) =
      some (s.server t (.checked path)) := by
    have hfinished : path ∉ (s.server t (.found path)).currentlyRetreiving :=
      hlist ▸ hserves.finished
    simp only [step, State.servers_server, ↓reduceIte]
    rw [if_neg hfinished, State.server_server]
  have hreads : PeerRetrieving.step (s.server t (.checked path)) (.read t) =
      some (s.server t (.replying ⟨path, encode data, content, s.client⟩)) := by
    have hopened : (s.server t (.checked path)).files path = some content := hfile
    simp only [step, State.servers_server, ↓reduceIte, hopened, hread, State.server_server]
    rfl
  have hreply : PeerRetrieving.step
      (s.server t (.replying ⟨path, encode data, content, s.client⟩)) (.reply t) =
        some { s with served := s.served ++ [⟨path, encode data, content, s.client⟩] } := by
    simp only [step, State.servers_server, ↓reduceIte, State.server_server,
      State.server_self hidle]
    rfl
  rw [List.foldlM_cons, hfind, Option.bind_eq_bind, Option.bind_some, List.foldlM_cons, hcheck,
    Option.bind_eq_bind, Option.bind_some, List.foldlM_cons, hreads, Option.bind_eq_bind,
    Option.bind_some, List.foldlM_cons, hreply]
  rfl

/-! ## One step -/

/-- The client may move to where no file is less complete than it was. -/
theorem Safe.client {s : State} (h : Safe s) {t : State}
    (hclient : ∀ thread file, s.servers thread = .checked file → Incomplete t.client file →
      Incomplete s.client file)
    (hservers : t.servers = s.servers) (hserved : t.served = s.served) : Safe t where
  checked := by
    intro thread file hthread hincomplete
    rw [hservers] at hthread
    exact h.checked thread file hthread (hclient thread file hthread hincomplete)
  replying := by
    intro thread served hthread
    rw [hservers] at hthread
    exact h.replying thread served hthread
  served := by
    rw [hserved]
    exact h.served

theorem Safe.elsewhere {s : State} (h : Safe s) {t : State}
    (hclient : ∀ file rest, t.client ≠ .writing file rest) (hservers : t.servers = s.servers)
    (hserved : t.served = s.served) : Safe t := by
  refine h.client ?_ hservers hserved
  intro _ file _ ⟨rest, heq, _⟩
  exact absurd heq (hclient file rest)

/-- A server thread may move to where it does no harm. -/
theorem Safe.server {s : State} (h : Safe s) (thread : Nat) {server : Server}
    (hchecked : ∀ file, server = .checked file → ¬Incomplete s.client file)
    (hreplying : ∀ served, server = .replying served → ¬Incomplete served.client served.file) :
    Safe (s.server thread server) where
  checked := by
    intro thread' file hthread
    rw [State.servers_server] at hthread
    split at hthread
    case isTrue => exact hchecked file hthread
    case isFalse => exact h.checked thread' file hthread
  replying := by
    intro thread' served hthread
    rw [State.servers_server] at hthread
    split at hthread
    case isTrue => exact hreplying served hthread
    case isFalse => exact h.replying thread' served hthread
  served := h.served

theorem Safe.idle {s : State} (h : Safe s) (thread : Nat) : Safe (s.server thread .idle) :=
  h.server thread (fun _ heq => by cases heq) (fun _ heq => by cases heq)

theorem Safe.step {s t : State} {label : Label} (h : Safe s) (hguard : Guarded s label)
    (hstep : step s label = some t) : Safe t := by
  cases label with
  | add file =>
    simp only [PeerRetrieving.step] at hstep
    split at hstep <;> cases hstep
    exact h.elsewhere (by simp) rfl rfl
  | exchange data =>
    simp only [PeerRetrieving.step] at hstep
    split at hstep <;> cases hstep
    exact h.elsewhere (by simp) rfl rfl
  | fail =>
    simp only [PeerRetrieving.step] at hstep
    split at hstep <;> cases hstep
    exact h.elsewhere (by simp) rfl rfl
  | remove =>
    simp only [PeerRetrieving.step] at hstep
    split at hstep <;> cases hstep
    rename_i data _
    refine h.elsewhere ?_ rfl rfl
    cases data <;> simp
  | openFile =>
    simp only [PeerRetrieving.step] at hstep
    split at hstep <;> cases hstep
    rename_i file data hclient
    refine h.client ?_ rfl rfl
    intro thread file' hthread ⟨rest, heq, hne⟩
    cases heq
    exact absurd hthread (hguard file data thread hclient hne)
  | write n =>
    simp only [PeerRetrieving.step] at hstep
    split at hstep <;> cases hstep
    rename_i file rest hclient
    refine h.client ?_ rfl rfl
    intro thread file' _ ⟨rest', heq, hne⟩
    cases heq
    refine ⟨rest, hclient, ?_⟩
    intro hnil
    rw [hnil, List.drop_nil] at hne
    exact hne rfl
  | close =>
    simp only [PeerRetrieving.step] at hstep
    split at hstep <;> cases hstep
    exact h.elsewhere (by simp) rfl rfl
  | find thread file =>
    simp only [PeerRetrieving.step] at hstep
    split at hstep <;> cases hstep
    · exact h.server thread (fun _ heq => by cases heq) (fun _ heq => by cases heq)
    · exact h
  | check thread =>
    simp only [PeerRetrieving.step] at hstep
    split at hstep
    case h_1 file hthread =>
      split at hstep <;> cases hstep
      · exact h.idle thread
      · refine h.server thread ?_ (fun _ heq => by cases heq)
        intro file' heq
        cases heq
        exact hguard file hthread
    case h_2 => cases hstep
  | read thread =>
    simp only [PeerRetrieving.step] at hstep
    split at hstep
    case h_1 file hthread =>
      split at hstep
      case h_1 =>
        cases hstep
        exact h.idle thread
      case h_2 content _ =>
        split at hstep <;> cases hstep
        · exact h.idle thread
        · refine h.server thread (fun _ heq => by cases heq) ?_
          intro served heq
          cases heq
          exact h.checked thread file hthread
    case h_2 => cases hstep
  | reply thread =>
    simp only [PeerRetrieving.step] at hstep
    split at hstep <;> cases hstep
    rename_i served hthread
    have hidle := h.idle thread
    refine ⟨hidle.checked, hidle.replying, ?_⟩
    intro served' hserved'
    rcases List.mem_append.mp hserved' with hold | hnew
    · exact h.served served' hold
    · rw [List.mem_singleton.mp hnew]
      exact h.replying thread served hthread

/-! ## Runs -/

theorem safe_initial (files : String → Option Bytes) : Safe (initial files) := by
  constructor
  · intro thread file hthread
    cases hthread
  · intro thread served hthread
    cases hthread
  · intro served hserved
    cases hserved

/-- In a run in which every step is guarded, no reply has a version of a file that is being
written. -/
theorem served_complete (files : String → Option Bytes) (s : State)
    (h : Transition.Reachable (guarded files) s) :
    ∀ served ∈ s.served, ¬Incomplete served.client served.file := by
  have hsafe : Safe s := by
    refine h.invariant (I := Safe) ?_ ?_
    · intro s hs
      rw [hs]
      exact safe_initial files
    · intro s t _ hs ⟨label, hguard, hstep⟩
      exact hs.step hguard hstep
  exact hsafe.served

/-- Files with two bytes, and the client in the exchange for one of them. -/
def midway : State :=
  ⟨["a.txt"], fun _ => some [104, 105], .exchanging "a.txt", fun _ => .idle, []⟩

/-- A file is served while another one is being retrieved. -/
theorem served_complete_other : ∃ s : State,
    s.served = [⟨"b.txt", [104, 105], [104, 105], .exchanging "a.txt"⟩] ∧
      ∀ served ∈ s.served, ¬Incomplete served.client served.file := by
  have hread : readText [104, 105] = .ok "hi" := by decide +kernel
  have hencode : encode "hi" = [104, 105] := by decide
  have hadded : Transition.Reachable (guarded fun _ => some [104, 105]) midway :=
    Transition.Reachable.step (.start rfl) ⟨.add "a.txt", trivial, rfl⟩
  have hfound := hadded.step (t := midway.server 0 (.found "b.txt")) ⟨.find 0 "b.txt", trivial, rfl⟩
  have hchecked := hfound.step (t := (midway.server 0 (.found "b.txt")).server 0 (.checked "b.txt"))
    ⟨.check 0, fun _ _ ⟨_, heq, _⟩ => (by cases heq), rfl⟩
  have hstep : step ((midway.server 0 (.found "b.txt")).server 0 (.checked "b.txt")) (.read 0) =
      some (((midway.server 0 (.found "b.txt")).server 0 (.checked "b.txt")).server 0
        (.replying ⟨"b.txt", [104, 105], [104, 105], .exchanging "a.txt"⟩)) := by
    have hfile : ((midway.server 0 (.found "b.txt")).server 0 (.checked "b.txt")).files "b.txt" =
        some [104, 105] := rfl
    simp only [step, State.servers_server, ↓reduceIte, hfile, hread, hencode]
    rfl
  have hsent := (hchecked.step ⟨.read 0, trivial, hstep⟩).step ⟨.reply 0, trivial, rfl⟩
  exact ⟨_, rfl, served_complete _ _ hsent⟩

/-- The client has left the list before it opens the file: a server thread replies with an
empty version. -/
theorem served_truncated :
    ¬∀ (files : String → Option Bytes) (s : State), Transition.Reachable (retrieving files) s →
      ∀ served ∈ s.served, ¬Incomplete served.client served.file := by
  intro hclaim
  have hrun : (List.foldlM PeerRetrieving.step
      (initial fun file => if file = "a.txt" then some [111, 108, 100] else none)
      [.add "a.txt", .exchange (some [110, 101, 119]), .remove, .find 0 "a.txt", .check 0,
        .openFile, .read 0, .reply 0]).map State.served =
      some [⟨"a.txt", [], [], .writing "a.txt" [110, 101, 119]⟩] := by
    decide +kernel
  obtain ⟨s, hlabels, hserved⟩ := Option.map_eq_some_iff.mp hrun
  have hs := Transition.reachable_of_run _ (.start rfl) hlabels
  refine hclaim _ s hs ⟨"a.txt", [], [], .writing "a.txt" [110, 101, 119]⟩ ?_
    ⟨[110, 101, 119], rfl, by decide⟩
  rw [hserved]
  exact List.mem_singleton.mpr rfl

end CompSys.PeerRetrieving
