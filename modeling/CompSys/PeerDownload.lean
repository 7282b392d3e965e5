import CompSys.PeerThreads

/-!
# The list of files that the Python peer of A4 retrieves

`to_server` puts the name of a file into `currently_retreiving` before it asks for the file and
takes it out when `send_to_server` has returned.
-/
namespace CompSys.PeerThreads

open Peer PythonText Locking Locked

section Names

theorem append_eq_cons_iff (a : String) (names : List String) :
    names ++ [a] = a :: names ↔ ∀ x ∈ names, x = a := by
  induction names with
  | nil => simp
  | cons name names ih =>
    rw [List.cons_append, List.cons.injEq, List.forall_mem_cons]
    refine and_congr_right fun hname => ?_
    rw [hname, ih]

/-- The name at the end is the one that is removed unless the same name stands in front of
another one. -/
theorem erase_append_iff (a : String) (names : List String) :
    (names ++ [a]).erase a = names ↔ ∀ x ∈ names.dropWhile (· ≠ a), x = a := by
  induction names with
  | nil => simp
  | cons name names ih =>
    by_cases hname : name = a
    · subst hname
      rw [List.cons_append, List.erase_cons_head, append_eq_cons_iff,
        List.dropWhile_cons_of_neg (by simp), List.forall_mem_cons]
      exact ⟨fun h => ⟨rfl, h⟩, fun h => h.2⟩
    · rw [List.cons_append, List.erase_cons_tail (by simpa using hname),
        List.dropWhile_cons_of_pos (by simpa using hname), List.cons.injEq, ← ih]
      exact ⟨fun h => h.2, fun h => ⟨rfl, h⟩⟩

end Names

section Retreiving

variable (env : Circumstances)

/-- The use of a reply leaves the list alone. -/
theorem useReply_retreiving (code : ℕ) (request : String) (data : ReplyData) (names : List String) :
    Stays (fun s => s.currentlyRetreiving = names) (useReply env code request data) := by
  have hop : ∀ {α : Type} (result : ℕ → Except PyError α),
      Stays (fun s => s.currentlyRetreiving = names) (external result) := fun _ _ h => h
  unfold useReply
  split
  · exact stays_lift _
  · split
    · refine Stays.critical ?_
      refine Stays.bind (fun _ h => h) fun _ => Stays.bind (fun _ h => h) fun _ => ?_
      exact stays_get.bind fun _ => (hop _).bind fun _ => stays_release
    · split
      · exact (hop _).bind fun _ => hop _
      · exact (stays_lift _).bind fun _ => hop _

theorem sendToServer_eq {env : Circumstances} {attempt : Attempt} {expectReply : Bool} {s : Shared}
    {answer : Except PyError (ℕ × ReplyData)}
    (h : env.sendToServer s.steps attempt expectReply = answer) :
    sendToServer env attempt expectReply s = ([], { s with
      attempts := s.attempts ++ [attempt], steps := s.steps + 1 }, answer) := by
  rw [← h]
  rfl

/-- `send_to_server` returns, whatever the status. -/
def Returns (ip : String) (port : ℕ) (request : String) (s : Shared) : Prop :=
  ∃ message answer, assembleMessage env.ip env.port COMMAND_RETREIVE (encode request) =
      .ok message ∧ env.sendToServer (s.steps + 1) ⟨ip, port, message⟩ true = .ok answer

section Download

variable {env : Circumstances} {ip : String} {port : ℕ} {request : String} {s : Shared}

/-- The state when the name has been added. -/
def added (request : String) (s : Shared) : Shared :=
  { s with currentlyRetreiving := s.currentlyRetreiving ++ [request], steps := s.steps + 1 }

/-- The program from there on. -/
def download (env : Circumstances) (ip : String) (port : ℕ) (request : String) : Thread Unit := do
  let message ← lift (assembleMessage env.ip env.port COMMAND_RETREIVE (encode request))
  let (status, data) ← sendToServer env ⟨ip, port, message⟩ true
  removeRetreiving request
  print env s!"Completed server interaction code {COMMAND_RETREIVE} with status {status}"
  if status = STATUS_OK then useReply env COMMAND_RETREIVE request data

theorem toServer_download (hprint : env.print s.steps s!"Connecting to server at {ip}:{port}" =
    .ok ()) : toServer env ip port COMMAND_RETREIVE request s =
      download env ip port request (added request s) := by
  rw [toServer, bind_quiet (print_eq env hprint)]
  rfl

/-- An exception leaves the name in the list. -/
theorem download_raises (h : ¬Returns env ip port request s) :
    (download env ip port request (added request s)).2.1.currentlyRetreiving =
      s.currentlyRetreiving ++ [request] := by
  rw [download]
  cases hmessage : assembleMessage env.ip env.port COMMAND_RETREIVE (encode request) with
  | error e => rfl
  | ok message =>
    rw [lift_ok_bind]
    cases hanswer : env.sendToServer (s.steps + 1) ⟨ip, port, message⟩ true with
    | error e =>
      rw [bind_error (sendToServer_eq hanswer)]
      rfl
    | ok answer => exact absurd ⟨message, answer, hmessage, hanswer⟩ h

theorem removeRetreiving_eq (h : request ∈ s.currentlyRetreiving) :
    removeRetreiving request s = ([], { s with
      currentlyRetreiving := s.currentlyRetreiving.erase request }, .ok ()) := by
  change ([], if _ then _ else _) = _
  rw [if_pos h]

/-- Otherwise one of its occurrences is taken out again. -/
theorem download_returns (h : Returns env ip port request s) :
    (download env ip port request (added request s)).2.1.currentlyRetreiving =
      (s.currentlyRetreiving ++ [request]).erase request := by
  obtain ⟨message, ⟨status, data⟩, hmessage, hanswer⟩ := h
  have htail : Stays
      (fun s' => s'.currentlyRetreiving = (s.currentlyRetreiving ++ [request]).erase request)
      (print env s!"Completed server interaction code {COMMAND_RETREIVE} with status {status}" >>=
        fun _ => if status = STATUS_OK then useReply env COMMAND_RETREIVE request data
          else pure ()) := by
    refine Stays.bind (fun _ h => h) fun _ => ?_
    split
    · exact useReply_retreiving env COMMAND_RETREIVE request data _
    · exact stays_pure _
  rw [download, hmessage, lift_ok_bind, bind_quiet (sendToServer_eq hanswer)]
  dsimp only
  rw [bind_quiet (removeRetreiving_eq ?_)]
  · exact htail _ rfl
  · exact List.mem_append_right _ List.mem_cons_self

end Download

/-- The list of the files that are being retrieved is restored exactly if nothing has been done at
all, or `send_to_server` returns and the name is not in the list already in front of another
one. -/
theorem to_server_restores_iff (ip : String) (port : ℕ) (request : String) (s : Shared) :
    (toServer env ip port COMMAND_RETREIVE request s).2.1.currentlyRetreiving =
        s.currentlyRetreiving ↔
      (∃ e, env.print s.steps s!"Connecting to server at {ip}:{port}" = .error e) ∨
        Returns env ip port request s ∧
          ∀ name ∈ s.currentlyRetreiving.dropWhile (· ≠ request), name = request := by
  cases hprint : env.print s.steps s!"Connecting to server at {ip}:{port}" with
  | error e =>
    rw [toServer, bind_error (print_eq env hprint)]
    exact iff_of_true rfl (.inl ⟨e, rfl⟩)
  | ok =>
    rw [toServer_download hprint, or_iff_right nofun]
    by_cases hreturns : Returns env ip port request s
    · rw [download_returns hreturns, erase_append_iff, and_iff_right hreturns]
    · rw [download_raises hreturns]
      exact iff_of_false (by simp) fun h => hreturns h.1

/-- The peer at 10.0.0.2:7 refuses the connection. -/
theorem to_server_not_restored : ¬∀ (env : Circumstances) (ip : String) (port : ℕ)
    (request : String) (s : Shared),
    (toServer env ip port COMMAND_RETREIVE request s).2.1.currentlyRetreiving =
      s.currentlyRetreiving := by
  intro h
  have hsame := h brokenPipe "10.0.0.2" 7 "tiny.txt" ⟨[], [], [], 0⟩
  rw [toServer_download rfl, download_raises] at hsame
  · cases hsame
  · intro ⟨_, _, _, hanswer⟩
    cases hanswer

end Retreiving

end CompSys.PeerThreads
