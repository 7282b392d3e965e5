import CompSys.Locking
import CompSys.PeerHandle

/-!
# The threads of the Python peer of A4 and `network_mutex`

`_register`, `_add_to_network`, `to_server`, `run_client` and `get_random_peer` with every
acquisition and release of `network_mutex`, in the order of the code. Whatever comes from
outside may raise: printing, sending a reply, connecting to another peer, writing a file. Other
threads may change the list of peers whenever a thread waits for the lock.
-/
namespace CompSys.PeerThreads

open Peer PythonText Locking Locked

/-- A call of `send_to_server`. -/
structure Attempt where
  ip : String
  port : ℕ
  message : Bytes
  deriving DecidableEq, Repr

structure Shared where
  network : Network
  currentlyRetreiving : List String
  attempts : List Attempt
  steps : ℕ

/-- What a thread meets at each of its steps. `others` is what the other threads make of the list
while it waits for the lock. -/
structure Circumstances where
  ip : String
  port : ℕ
  describe : PyError → String
  time : ℕ → ℚ
  print : ℕ → String → Except PyError Unit
  deliver : ℕ → ℕ → Bytes → Except PyError Unit
  sendToServer : ℕ → Attempt → Bool → Except PyError (ℕ × ReplyData)
  write : ℕ → String → Bytes → Except PyError Unit
  choice : ℕ → List String → Except PyError String
  others : ℕ → Network → Network

abbrev Thread (α : Type) := Locked Shared PyError α

/-- A step whose result comes from outside. -/
def external {α : Type} (result : ℕ → Except PyError α) : Thread α :=
  op fun s => ({ s with steps := s.steps + 1 }, result s.steps)

def print (env : Circumstances) (text : String) : Thread Unit :=
  external fun n => env.print n text

def buildAndSendResponses (env : Circumstances) (status : ℕ) (toSend : Bytes) : Thread Unit :=
  external fun n => env.deliver n status toSend

def handleError (env : Circumstances) (status : ℕ) (msgStr : String) : Thread Unit := do
  print env msgStr
  buildAndSendResponses env status (encode msgStr)

/-- `RemoteServer(ip, port).send_to_server(message)`. -/
def sendToServer (env : Circumstances) (attempt : Attempt) (expectReply : Bool) :
    Thread (ℕ × ReplyData) :=
  op fun s => ({ s with attempts := s.attempts ++ [attempt], steps := s.steps + 1 },
    env.sendToServer s.steps attempt expectReply)

/-- The lock is there, with the list as the other threads have left it. -/
def entered (env : Circumstances) : Thread Network :=
  op fun s =>
    let network := env.others s.steps s.network
    ({ s with network, steps := s.steps + 1 }, .ok network)

def appendEntry (env : Circumstances) (address : String) : Thread Network :=
  op fun s =>
    let network := s.network ++ [(address, env.time s.steps)]
    ({ s with network, steps := s.steps + 1 }, .ok network)

/-! ## The server -/

/-- `for peer, _ in network`, with the variables `ip` and `port` that it assigns. -/
def payloadLoop : List Entry → List Char → List Char → Bytes →
    Except PyError (Bytes × List Char × List Char)
  | [], ip, port, payload => .ok (payload, ip, port)
  | (peer, _) :: entries, _, _, payload => do
    let (ip, port) ← splitPeer peer
    let number ← parseInt port
    let portField ← pack number
    payloadLoop entries ip port (payload ++ (padIp ip ++ portField))

/-- A listed address: the lock is given back before the reply. -/
def reject (env : Circumstances) (newAddress : String) :
    Thread (Option (Bytes × List Char × List Char)) := do
  release
  handleError env STATUS_PEER_EXISTS s!"Cannot register peer '{newAddress}', already exists"
  return none

/-- The first section of `_register`, with the payload and what is left in `ip` and `port`. -/
def registerSection (env : Circumstances) (newAddress : String) (ip port : List Char) :
    Thread (Option (Bytes × List Char × List Char)) :=
  critical do
    let network ← entered env
    if newAddress ∈ network.map Prod.fst then reject env newAddress
    else
      let network ← appendEntry env newAddress
      let assigned ← lift (payloadLoop network ip port [])
      release
      return some assigned

/-- One round of the loop that informs the network. -/
def informPeer (env : Circumstances) (ip port : List Char) (peer : String) : Thread Unit := do
  let (peerIp, peerPort) ← lift (splitPeer peer)
  let number ← lift (parseInt port)
  let portField ← lift (pack number)
  let peerNumber ← lift (parseInt peerPort)
  let message ← lift (assembleMessage env.ip env.port COMMAND_INFORM (padIp ip ++ portField))
  let _ ← sendToServer env ⟨String.ofList peerIp, peerNumber, message⟩ false

def informLoop (env : Circumstances) (newAddress : String) (ip port : List Char) :
    List Entry → Thread Unit
  | [] => pure ()
  | (peer, _) :: entries =>
    if peer ∉ [addressOf env.ip env.port, newAddress] then do
      informPeer env ip port peer
      informLoop env newAddress ip port entries
    else informLoop env newAddress ip port entries

/-- The second section of `_register`. -/
def informSection (env : Circumstances) (newAddress : String) (ip port : List Char) : Thread Unit :=
  critical do
    let network ← entered env
    informLoop env newAddress ip port network
    release

/-- What follows a registration. -/
def announce (env : Circumstances) (newAddress : String) (payload : Bytes) (ip port : List Char) :
    Thread Unit := do
  buildAndSendResponses env STATUS_OK payload
  print env s!"Registered new peer {newAddress}"
  let s ← get
  let addresses := String.intercalate ", " (s.network.map Prod.fst)
  print env s!"Network is: {addresses}"
  informSection env newAddress ip port

def register (env : Circumstances) (ip : String) (port : ℕ) : Thread Unit :=
  if ip = "" then handleError env STATUS_BAD_REQUEST "Cannot register empty username"
  else if port = 0 then handleError env STATUS_BAD_REQUEST "Cannot register empty port"
  else do
    let newAddress := addressOf ip port
    match ← registerSection env newAddress ip.toList (Nat.toDigits 10 port) with
    | none => pure ()
    | some (payload, ip, port) => announce env newAddress payload ip port

def addToNetwork (env : Circumstances) (bytesMessage : Bytes) : Thread Unit := do
  let address ← lift (recordAddress bytesMessage 0)
  critical do
    let network ← entered env
    if address ∈ network.map Prod.fst then release
    else
      let _ ← appendEntry env address
      print env s!"Informed of new peer {address}"
      release

/-! ## The client -/

/-- The section of `to_server` that takes over the network of a reply. -/
def mergeReply (env : Circumstances) (data : Bytes) : Thread Unit :=
  critical do
    let _ ← entered env
    op fun s =>
      let (network, result) := mergeSection data (fun i => env.time (s.steps + i)) s.network
      ({ s with network, steps := s.steps + data.length }, result)
    let s ← get
    let addresses := String.intercalate ", " (s.network.map Prod.fst)
    print env s!"Got network: {addresses}"
    release

/-- What `to_server` does with a reply. -/
def useReply (env : Circumstances) (code : ℕ) (request : String) (data : ReplyData) : Thread Unit :=
  match data with
  | .msg _ => raise .typeError
  | .bytes data =>
    if code = COMMAND_REGISTER then mergeReply env data
    else if code = COMMAND_RETREIVE then do
      external fun n => env.write n request data
      print env s!"Retrieved data written to {request}"
    else do
      let text ← lift (decodeUtf8 data)
      print env s!"Got response: {text}"

/-- `if code == COMMAND_RETREIVE`. -/
def onRetreive (code : ℕ) (program : Thread Unit) : Thread Unit :=
  if code = COMMAND_RETREIVE then program else pure ()

/-- `currently_retreiving.append(request)`. -/
def addRetreiving (request : String) : Thread Unit :=
  modify fun s => { s with currentlyRetreiving := s.currentlyRetreiving ++ [request] }

/-- `currently_retreiving.remove(request)`. -/
def removeRetreiving (request : String) : Thread Unit :=
  op fun s =>
    if request ∈ s.currentlyRetreiving then
      ({ s with currentlyRetreiving := s.currentlyRetreiving.erase request }, .ok ())
    else (s, .error .valueError)

def toServer (env : Circumstances) (ip : String) (port code : ℕ) (request : String) :
    Thread Unit := do
  print env s!"Connecting to server at {ip}:{port}"
  onRetreive code (addRetreiving request)
  let message ← lift (assembleMessage env.ip env.port code (encode request))
  let (status, data) ← sendToServer env ⟨ip, port, message⟩ true
  onRetreive code (removeRetreiving request)
  print env s!"Completed server interaction code {code} with status {status}"
  if status = STATUS_OK then useReply env code request data

def getRandomPeer (env : Circumstances) : Thread (String × ℕ) := do
  let potentialPeers ← critical do
    let network ← entered env
    release
    return (network.map Prod.fst).filter fun peer => peer ≠ addressOf env.ip env.port
  let peer ← external fun n => env.choice n potentialPeers
  match peer.toList.splitOn ':' with
  | peerIp :: peerPort :: _ => do
    let number ← lift (parseInt peerPort)
    return (String.ofList peerIp, number)
  | _ => raise .indexError

/-- The loop over what the user types. -/
def clientLoop (env : Circumstances) : List String → Thread Unit
  | [] => pure ()
  | userInput :: inputs => do
    print env "Type the name of a file to be retrieved, or 'quit' to quit:"
    if userInput = "quit" then print env "Shutting down client thread."
    else
      let (targetIp, targetPort) ← getRandomPeer env
      toServer env targetIp targetPort COMMAND_RETREIVE userInput
      clientLoop env inputs

/-- How the `try` statement of `run_client` ends. -/
inductive Outcome where
  | returned
  | exited
  | passed
  deriving DecidableEq, Repr

/-- The `try` statement of `run_client`. -/
def detectNetwork (env : Circumstances) : Thread Outcome := do
  let network ← entered env
  if network.length = 0 then
    print env "No network was detected, shutting down client thread."
    return .returned
  else return .passed

/-- Its handler. -/
def giveUp (env : Circumstances) (e : PyError) : Thread Outcome := do
  release
  let description := env.describe e
  print env s!"Something went drastically wrong. {description}"
  return .exited

def runClient (env : Circumstances) (peerIp : String) (peerPort : ℕ) (inputs : List String) :
    Thread Unit := do
  toServer env peerIp peerPort COMMAND_REGISTER ""
  acquire
  match ← tryExcept (detectNetwork env) (giveUp env) with
  | .returned | .exited => pure ()
  | .passed =>
    release
    clientLoop env inputs

/-! ## The lock -/

section Lock

variable (env : Circumstances)

theorem quiet_external {α : Type} (result : ℕ → Except PyError α) : Quiet (external result) :=
  quiet_op _

theorem external_eq {α : Type} {result : ℕ → Except PyError α} {s : Shared} {a : Except PyError α}
    (h : result s.steps = a) : external result s = ([], { s with steps := s.steps + 1 }, a) := by
  rw [← h]
  rfl

theorem print_eq {text : String} {s : Shared} {a : Except PyError Unit}
    (h : env.print s.steps text = a) :
    print env text s = ([], { s with steps := s.steps + 1 }, a) :=
  external_eq h

/-- The section goes on with the list as the other threads have left it. -/
theorem entered_bind {α : Type} (next : Network → Thread α) (s : Shared) :
    (entered env >>= next) s = next (env.others s.steps s.network)
      { s with network := env.others s.steps s.network, steps := s.steps + 1 } := rfl

theorem quiet_print (text : String) : Quiet (print env text) := quiet_external _

theorem quiet_handleError (status : ℕ) (msgStr : String) :
    Quiet (handleError env status msgStr) :=
  (quiet_print env msgStr).bind fun _ => quiet_external _

theorem quiet_entered : Quiet (entered env) := quiet_op _

theorem addToNetwork_keeps (bytesMessage : Bytes) : Keeps (addToNetwork env bytesMessage) := by
  refine (quiet_lift _).keeps.bind fun address => Releasing.keeps ?_
  refine (quiet_entered env).releasing fun network => ?_
  split
  · exact releasing_release
  · exact (quiet_op _).releasing fun _ => (quiet_print env _).releasing fun _ => releasing_release

theorem getRandomPeer_keeps : Keeps (getRandomPeer env) := by
  have hsection : Keeps (critical (entered env >>= fun network => release >>= fun _ =>
      (pure ((network.map Prod.fst).filter fun peer => peer ≠ addressOf env.ip env.port) :
        Thread (List String)))) :=
    Releasing.keeps ((quiet_entered env).releasing fun network => releasing_return _)
  refine hsection.bind fun potentialPeers => Quiet.keeps ?_
  refine (quiet_external _).bind fun peer => ?_
  split
  · exact (quiet_lift _).bind fun number => quiet_pure _
  · exact quiet_lift _

theorem mergeReply_keeps (data : Bytes) : Keeps (mergeReply env data) := by
  refine Releasing.keeps ?_
  refine (quiet_entered env).releasing fun _ => (quiet_op _).releasing fun _ => ?_
  exact (quiet_op _).releasing fun _ => (quiet_print env _).releasing fun _ => releasing_release

theorem useReply_keeps (code : ℕ) (request : String) (data : ReplyData) :
    Keeps (useReply env code request data) := by
  unfold useReply
  split
  · exact (quiet_lift _).keeps
  · split
    · exact mergeReply_keeps env _
    · refine Quiet.keeps ?_
      split
      · exact (quiet_external _).bind fun _ => quiet_print env _
      · exact (quiet_lift _).bind fun _ => quiet_print env _

theorem onRetreive_quiet {program : Thread Unit} (h : Quiet program) (code : ℕ) :
    Quiet (onRetreive code program) := by
  unfold onRetreive
  split
  · exact h
  · exact quiet_pure _

theorem toServer_keeps (ip : String) (port code : ℕ) (request : String) :
    Keeps (toServer env ip port code request) := by
  refine (quiet_print env _).keeps.bind fun _ => ?_
  refine (onRetreive_quiet (quiet_op _) code).keeps.bind fun _ => ?_
  refine (quiet_lift _).keeps.bind fun message => ?_
  refine Quiet.keeps (quiet_op _) |>.bind fun answer => ?_
  refine (onRetreive_quiet (quiet_op _) code).keeps.bind fun _ => ?_
  refine (quiet_print env _).keeps.bind fun _ => ?_
  split
  · exact useReply_keeps env code request _
  · exact (quiet_pure _).keeps

theorem clientLoop_keeps (inputs : List String) : Keeps (clientLoop env inputs) := by
  induction inputs with
  | nil => exact (quiet_pure _).keeps
  | cons userInput inputs ih =>
    refine (quiet_print env _).keeps.bind fun _ => ?_
    split
    · exact (quiet_print env _).keeps
    · refine (getRandomPeer_keeps env).bind fun target => ?_
      exact (toServer_keeps env target.1 target.2 COMMAND_RETREIVE userInput).bind fun _ => ih

theorem informPeer_quiet (ip port : List Char) (peer : String) :
    Quiet (informPeer env ip port peer) := by
  refine (quiet_lift _).bind fun _ => (quiet_lift _).bind fun _ => (quiet_lift _).bind fun _ => ?_
  refine (quiet_lift _).bind fun _ => (quiet_lift _).bind fun _ => ?_
  exact (quiet_op _).bind fun _ => quiet_pure _

theorem informLoop_quiet (newAddress : String) (ip port : List Char) (entries : List Entry) :
    Quiet (informLoop env newAddress ip port entries) := by
  induction entries with
  | nil => exact quiet_pure _
  | cons entry entries ih =>
    obtain ⟨peer, time⟩ := entry
    rw [informLoop]
    split
    · exact (informPeer_quiet env ip port peer).bind fun _ => ih
    · exact ih

theorem announce_keeps (newAddress : String) (payload : Bytes) (ip port : List Char) :
    Keeps (announce env newAddress payload ip port) := by
  refine (quiet_external _).keeps.bind fun _ => (quiet_print env _).keeps.bind fun _ => ?_
  refine (quiet_op _).keeps.bind fun _ => (quiet_print env _).keeps.bind fun _ => ?_
  refine Releasing.keeps ((quiet_entered env).releasing fun network => ?_)
  exact (informLoop_quiet env newAddress ip port network).releasing fun _ => releasing_release

/-- The address is listed already, and telling so raises. -/
def RejectionFails (s : Shared) (newAddress : String) : Prop :=
  newAddress ∈ (env.others s.steps s.network).map Prod.fst ∧
    ((∃ e, env.print (s.steps + 1) s!"Cannot register peer '{newAddress}', already exists" =
        .error e) ∨
      ∃ e, env.deliver (s.steps + 2) STATUS_PEER_EXISTS
        (encode s!"Cannot register peer '{newAddress}', already exists") = .error e)

/-- Whether `handle_error` raises. -/
theorem handleError_cases (status : ℕ) (msgStr : String) (s : Shared) :
    (((∃ e, env.print s.steps msgStr = .error e) ∨
        ∃ e, env.deliver (s.steps + 1) status (encode msgStr) = .error e) ∧
      ∃ s' e, handleError env status msgStr s = ([], s', .error e)) ∨
    ¬((∃ e, env.print s.steps msgStr = .error e) ∨
        ∃ e, env.deliver (s.steps + 1) status (encode msgStr) = .error e) ∧
      ∃ s', handleError env status msgStr s = ([], s', .ok ()) := by
  cases hprint : env.print s.steps msgStr with
  | error e =>
    have hrun : print env msgStr s = ([], { s with steps := s.steps + 1 }, .error e) :=
      print_eq env hprint
    exact .inl ⟨.inl ⟨e, rfl⟩, _, e, bind_error hrun _⟩
  | ok =>
    have hrun : handleError env status msgStr s = ([], { s with steps := s.steps + 2 },
        env.deliver (s.steps + 1) status (encode msgStr)) := bind_ok (external_eq hprint) _
    rw [hrun]
    cases env.deliver (s.steps + 1) status (encode msgStr) with
    | error e => exact .inl ⟨.inr ⟨e, rfl⟩, _, e, rfl⟩
    | ok => exact .inr ⟨by simp, _, rfl⟩

theorem registerSection_new (newAddress : String) (ip port : List Char) {s : Shared}
    (hnew : newAddress ∉ (env.others s.steps s.network).map Prod.fst) :
    (registerSection env newAddress ip port s).1 = [.acquire, .release] := by
  refine ReleasesAt.events_critical ?_
  rw [ReleasesAt, entered_bind, if_neg hnew]
  refine (quiet_op _).releasing (fun network => ?_) _
  exact (quiet_lift _).releasing fun assigned => releasing_return _

/-- The one way to a second release: the rejection of a listed address raises. -/
theorem registerSection_cases (newAddress : String) (ip port : List Char) (s : Shared) :
    (RejectionFails env s newAddress ∧ ∃ s' e, registerSection env newAddress ip port s =
      ([.acquire, .release, .release], s', .error e)) ∨
    ¬RejectionFails env s newAddress ∧
      (registerSection env newAddress ip port s).1 = [.acquire, .release] := by
  by_cases hlisted : newAddress ∈ (env.others s.steps s.network).map Prod.fst
  case neg =>
    exact .inr ⟨fun h => hlisted h.1, registerSection_new env newAddress ip port hlisted⟩
  case pos =>
    obtain ⟨s₁, hs₁⟩ : ∃ s₁, s₁ = { s with
      network := env.others s.steps s.network, steps := s.steps + 1 } := ⟨_, rfl⟩
    have hreject : ∀ program : Network → Thread (Option (Bytes × List Char × List Char)),
        (entered env >>= fun network =>
          if newAddress ∈ network.map Prod.fst then reject env newAddress else program network) s =
          reject env newAddress s₁ := by
      intro program
      rw [entered_bind, if_pos hlisted, hs₁]
    rcases handleError_cases env STATUS_PEER_EXISTS
        s!"Cannot register peer '{newAddress}', already exists" s₁ with
      ⟨hfails, s', e, hrun⟩ | ⟨hsent, s', hrun⟩
    · refine .inl ⟨⟨hlisted, by rwa [hs₁] at hfails⟩, s', e, events_critical_late ?_⟩
      refine (hreject _).trans ?_
      rw [reject, release_bind, bind_error hrun]
    · refine .inr ⟨fun h => hsent (by rw [hs₁]; exact h.2), ReleasesAt.events_critical (.inr ?_)⟩
      refine ⟨s', none, (hreject _).trans ?_⟩
      rw [reject, release_bind, bind_ok hrun]
      rfl

theorem register_disciplined_iff (ip : String) (port : ℕ) (s : Shared) :
    Disciplined (register env ip port s).1 ↔
      ¬(ip ≠ "" ∧ port ≠ 0 ∧ RejectionFails env s (addressOf ip port)) := by
  unfold register
  split
  case isTrue hip =>
    exact iff_of_true ((quiet_handleError env _ _).keeps s) fun h => h.1 hip
  case isFalse hip =>
    split
    case isTrue hport =>
      exact iff_of_true ((quiet_handleError env _ _).keeps s) fun h => h.2.1 hport
    case isFalse hport =>
      rcases registerSection_cases env (addressOf ip port) ip.toList (Nat.toDigits 10 port) s with
        ⟨hfails, s', e, hrun⟩ | ⟨hfine, hevents⟩
      · refine iff_of_false ?_ (not_not.mpr ⟨hip, hport, hfails⟩)
        rw [bind_error hrun]
        exact not_disciplined_twice
      · refine iff_of_true ?_ fun h => hfine h.2.2
        refine disciplined_bind (hevents ▸ disciplined_single) ?_
        rintro (_ | ⟨payload, lastIp, lastPort⟩)
        · exact (quiet_pure _).keeps
        · exact announce_keeps env _ payload lastIp lastPort

/-- The list is empty, and that can be told. -/
def Empty (s : Shared) : Prop :=
  env.others s.steps s.network = [] ∧
    env.print (s.steps + 1) "No network was detected, shutting down client thread." = .ok ()

theorem detectNetwork_cases (s : Shared) :
    (Empty env s ∧ ∃ s', detectNetwork env s = ([], s', .ok .returned)) ∨
      (¬Empty env s ∧ ∃ s', detectNetwork env s = ([], s', .ok .passed)) ∨
      ¬Empty env s ∧ ∃ s' e, detectNetwork env s = ([], s', .error e) := by
  obtain ⟨s₁, hs₁⟩ : ∃ s₁, s₁ = { s with
    network := env.others s.steps s.network, steps := s.steps + 1 } := ⟨_, rfl⟩
  have hsteps : s.steps + 1 = s₁.steps := by rw [hs₁]
  rw [detectNetwork, entered_bind, ← hs₁, Empty, hsteps]
  by_cases hempty : env.others s.steps s.network = []
  case neg =>
    rw [if_neg (List.length_eq_zero_iff.not.mpr hempty)]
    exact .inr (.inl ⟨fun h => hempty h.1, s₁, rfl⟩)
  case pos =>
    rw [if_pos (List.length_eq_zero_iff.mpr hempty)]
    cases hprint : env.print s₁.steps "No network was detected, shutting down client thread." with
    | ok => exact .inl ⟨⟨hempty, rfl⟩, _, bind_ok (external_eq hprint) _⟩
    | error e => exact .inr (.inr ⟨fun h => (nomatch h.2), _, e, bind_error (external_eq hprint) _⟩)

theorem giveUp_cases (e : PyError) (s : Shared) :
    (∃ s', giveUp env e s = ([.release], s', .ok .exited)) ∨
      ∃ s' e', giveUp env e s = ([.release], s', .error e') := by
  rw [giveUp, release_bind]
  cases hprint : env.print s.steps (toString "Something went drastically wrong. " ++
      toString (env.describe e)) with
  | ok =>
    rw [bind_ok (print_eq env hprint)]
    exact .inl ⟨_, rfl⟩
  | error e' =>
    rw [bind_error (print_eq env hprint)]
    exact .inr ⟨_, e', rfl⟩

/-- The client finds the list empty when it looks at it, and can tell so. -/
def NothingDetected (peerIp : String) (peerPort : ℕ) (s : Shared) : Prop :=
  ∃ events s₁, toServer env peerIp peerPort COMMAND_REGISTER "" s = (events, s₁, .ok ()) ∧
    Empty env s₁

theorem runClient_disciplined_iff (peerIp : String) (peerPort : ℕ) (inputs : List String)
    (s : Shared) :
    Disciplined (runClient env peerIp peerPort inputs s).1 ↔
      ¬NothingDetected env peerIp peerPort s := by
  have hkeeps := toServer_keeps env peerIp peerPort COMMAND_REGISTER "" s
  cases hrun : toServer env peerIp peerPort COMMAND_REGISTER "" s with
  | mk events rest =>
    obtain ⟨s₁, result⟩ := rest
    rw [hrun] at hkeeps
    cases result with
    | error e =>
      refine iff_of_true ?_ ?_
      · rw [runClient, bind_error hrun]
        exact hkeeps
      · intro ⟨_, _, hok, _⟩
        rw [hrun] at hok
        cases hok
    | ok =>
      have hdetected : NothingDetected env peerIp peerPort s ↔ Empty env s₁ := by
        constructor
        · intro ⟨_, _, hok, hempty⟩
          rw [hrun] at hok
          cases hok
          exact hempty
        · intro hempty
          exact ⟨events, s₁, hrun, hempty⟩
      rw [hdetected, runClient, bind_ok hrun, acquire_bind]
      change Disciplined events at hkeeps
      rcases detectNetwork_cases env s₁ with
        ⟨hempty, s₂, hdetect⟩ | ⟨hnonempty, s₂, hdetect⟩ | ⟨hnonempty, s₂, e, hdetect⟩
      · refine iff_of_false (fun h => not_disciplined_held (hkeeps.of_append ?_))
          (not_not.mpr hempty)
        rw [bind_ok (tryExcept_ok hdetect _)] at h
        exact h
      · refine iff_of_true (hkeeps.append ?_) hnonempty
        rw [bind_ok (tryExcept_ok hdetect _)]
        exact .pair (clientLoop_keeps env inputs s₂)
      · refine iff_of_true (hkeeps.append ?_) hnonempty
        have hhandled := tryExcept_error hdetect (giveUp env)
        rcases giveUp_cases env e s₂ with ⟨s₃, hgive⟩ | ⟨s₃, e', hgive⟩
        · rw [hgive] at hhandled
          rw [bind_ok hhandled]
          exact disciplined_single
        · rw [hgive] at hhandled
          rw [bind_error hhandled]
          exact disciplined_single

/-- What is merged into the list is added to it. -/
theorem mergeLoop_ne_nil (data : Bytes) (clock : ℕ → ℚ) (is : List ℕ) {network : Network}
    (h : network ≠ []) : (mergeLoop data clock is network).1 ≠ [] := by
  induction is generalizing network with
  | nil => exact h
  | cons i is ih =>
    rw [mergeLoop]
    split
    · exact h
    · split
      · exact ih (List.append_ne_nil_of_left_ne_nil h _)
      · exact ih h

section Own

variable (hothers : ∀ n network, network ≠ [] → env.others n network ≠ [])
include hothers

theorem toServer_stays (ip : String) (port code : ℕ) (request : String) :
    Stays (fun s => s.network ≠ []) (toServer env ip port code request) := by
  have hexternal : ∀ {α : Type} (result : ℕ → Except PyError α),
      Stays (fun s => s.network ≠ []) (external result) := fun _ _ h => h
  have honRetreive : ∀ program : Thread Unit, Stays (fun s => s.network ≠ []) program →
      Stays (fun s => s.network ≠ []) (onRetreive code program) := by
    intro program h
    unfold onRetreive
    split
    · exact h
    · exact stays_pure _
  refine (hexternal _).bind fun _ => (honRetreive _ fun _ h => h).bind fun _ => ?_
  refine (stays_lift _).bind fun _ => Stays.bind (fun _ h => h) fun answer => ?_
  refine (honRetreive _ ?_).bind fun _ => (hexternal _).bind fun _ => ?_
  · intro s h
    change (if _ then _ else _ : Shared × Except PyError Unit).1.network ≠ []
    split <;> exact h
  · split
    · unfold useReply
      split
      · exact stays_lift _
      · split
        · refine Stays.critical (Stays.bind (fun s h => hothers s.steps s.network h) fun _ => ?_)
          refine Stays.bind (fun s h => mergeLoop_ne_nil _ _ _ h) fun _ => ?_
          exact stays_get.bind fun _ => (hexternal _).bind fun _ => stays_release
        · split
          · exact (hexternal _).bind fun _ => hexternal _
          · exact (stays_lift _).bind fun _ => hexternal _
    · exact stays_pure _

/-- As long as the others leave it an entry, its own one, the client gives the lock back. -/
theorem runClient_disciplined (peerIp : String) (peerPort : ℕ) (inputs : List String) {s : Shared}
    (hnetwork : s.network ≠ []) : Disciplined (runClient env peerIp peerPort inputs s).1 := by
  rw [runClient_disciplined_iff]
  intro ⟨events, s₁, hrun, hempty, _⟩
  have hstays := toServer_stays env hothers peerIp peerPort COMMAND_REGISTER "" s hnetwork
  rw [hrun] at hstays
  exact hothers s₁.steps s₁.network hstays hempty

end Own

/-- `network_mutex` is given back once after each acquisition, and never else, in every run of the
five functions except in two kinds of runs: telling a registering peer that it is listed already
raises, and the client finds no peer at all, not even itself. -/
theorem lock_discipline_iff (s : Shared) :
    (∀ ip port, Disciplined (register env ip port s).1 ↔
      ¬(ip ≠ "" ∧ port ≠ 0 ∧ RejectionFails env s (addressOf ip port))) ∧
    (∀ peerIp peerPort inputs, Disciplined (runClient env peerIp peerPort inputs s).1 ↔
      ¬NothingDetected env peerIp peerPort s) ∧
    (∀ bytesMessage, Disciplined (addToNetwork env bytesMessage s).1) ∧
    (∀ ip port code request, Disciplined (toServer env ip port code request s).1) ∧
    Disciplined (getRandomPeer env s).1 :=
  ⟨fun ip port => register_disciplined_iff env ip port s,
    fun peerIp peerPort inputs => runClient_disciplined_iff env peerIp peerPort inputs s,
    fun bytesMessage => addToNetwork_keeps env bytesMessage s,
    fun ip port code request => toServer_keeps env ip port code request s,
    getRandomPeer_keeps env s⟩

end Lock

/-- A peer that has gone away before the reply to it. -/
def brokenPipe : Circumstances where
  ip := "10.0.0.1"
  port := 5
  describe _ := "[Errno 32] Broken pipe"
  time _ := 100
  print _ _ := .ok ()
  deliver _ _ _ := .error .osError
  sendToServer _ _ _ := .error .osError
  write _ _ _ := .ok ()
  choice _ peers := match peers with
    | [] => .error .indexError
    | peer :: _ => .ok peer
  others _ network := network

/-- 10.0.0.2:7 registers again and closes the connection. -/
theorem lock_released_twice : ¬∀ (env : Circumstances) (s : Shared),
    (∀ ip port, Disciplined (register env ip port s).1) ∧
    (∀ peerIp peerPort inputs, Disciplined (runClient env peerIp peerPort inputs s).1) ∧
    (∀ bytesMessage, Disciplined (addToNetwork env bytesMessage s).1) ∧
    (∀ ip port code request, Disciplined (toServer env ip port code request s).1) ∧
    Disciplined (getRandomPeer env s).1 := by
  intro h
  have hregister := (h brokenPipe ⟨[("10.0.0.1:5", -1), ("10.0.0.2:7", 100)], [], [], 0⟩).1
    "10.0.0.2" 7
  rw [register_disciplined_iff] at hregister
  refine hregister ⟨by decide, by decide, ?_, .inr ⟨.osError, rfl⟩⟩
  decide +kernel

end CompSys.PeerThreads
