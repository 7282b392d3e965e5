import CompSys.PeerRegister
import CompSys.PeerDownload

/-!
# Who hears of a new peer of A4

After a registration `_register` goes through the list of peers and sends each of the others an
INFORM message. The list may have changed since the reply, and the first exception ends the loop.
-/
namespace CompSys.PeerThreads

open Peer PythonText Locking Locked

/-- The peers that are to be informed. -/
def candidates (env : Circumstances) (newAddress : String) (network : Network) : List Entry :=
  network.filter fun entry => entry.1 ∉ [addressOf env.ip env.port, newAddress]

/-- The call of `send_to_server` that tells a peer of the ip and the port of another one. -/
def informOf (env : Circumstances) (ip : String) (port : ℕ) (peer : String) :
    Except PyError Attempt := do
  let (peerIp, peerPort) ← splitPeer peer
  let peerNumber ← parseInt peerPort
  let message ← assembleMessage env.ip env.port COMMAND_INFORM
    (padIp ip.toList ++ BigEndian.encode 4 port)
  return ⟨String.ofList peerIp, peerNumber, message⟩

/-- The message carries the ip and the port of the new peer to the ip and port that are listed. -/
theorem informOf_addressOf {env : Circumstances} {peerIp : String} (h : ':' ∉ peerIp.toList)
    (henv : env.port < 2 ^ 32) (ip : String) (port peerPort : ℕ) :
    let record := padIp ip.toList ++ BigEndian.encode 4 port
    informOf env ip port (addressOf peerIp peerPort) = .ok ⟨peerIp, peerPort,
      padIp env.ip.toList ++ BigEndian.encode 4 env.port ++ BigEndian.encode 4 COMMAND_INFORM ++
        BigEndian.encode 4 record.length ++ record⟩ := by
  intro record
  have hrecord : record.length < 2 ^ 32 := by
    have hip := length_padIp_le ip.toList
    rw [List.length_append, BigEndian.length_encode]
    omega
  rw [informOf, splitPeer_addressOf h]
  simp only [Bind.bind, Except.bind, parseInt_toDigits]
  rw [assembleMessage_eq env.ip henv (by decide) hrecord]
  simp only [String.ofList_toList]
  rfl

/-- These calls, one for each other peer. -/
def Everyone (env : Circumstances) (ip : String) (port : ℕ) (network : Network)
    (attempts : List Attempt) : Prop :=
  List.Forall₂ (fun entry attempt => informOf env ip port entry.1 = .ok attempt)
    (candidates env (addressOf ip port) network) attempts

/-- All of them but the last get through. -/
def Reached (env : Circumstances) (n : ℕ) (attempts : List Attempt) : Prop :=
  ∀ j (_ : j + 1 < attempts.length), ∃ answer, env.sendToServer (n + j) attempts[j] false = .ok answer

section Loop

variable (env : Circumstances) {ip : String} {port : ℕ}

theorem reached_cons_iff (n : ℕ) (attempt : Attempt) (attempts : List Attempt) :
    Reached env n (attempt :: attempts) ↔
      (attempts ≠ [] → ∃ answer, env.sendToServer n attempt false = .ok answer) ∧
        Reached env (n + 1) attempts := by
  constructor
  · intro h
    refine ⟨fun hne => ?_, fun j hj => ?_⟩
    · exact h 0 (Nat.succ_lt_succ (List.length_pos_of_ne_nil hne))
    · have hnext := h (j + 1) (Nat.succ_lt_succ hj)
      rw [← Nat.add_assoc, Nat.add_right_comm] at hnext
      exact hnext
  · intro ⟨hfirst, hrest⟩ j hj
    cases j with
    | zero => exact hfirst (List.ne_nil_of_length_pos (Nat.lt_of_succ_lt_succ hj))
    | succ j =>
      have hnext := hrest j (Nat.lt_of_succ_lt_succ hj)
      rw [Nat.add_right_comm, Nat.add_assoc] at hnext
      exact hnext

/-- The answer of a call is not used. -/
theorem sendToServer_dropped (attempt : Attempt) (s : Shared) :
    (sendToServer env attempt false >>= fun _ => (pure () : Thread Unit)) s = ([], { s with
      attempts := s.attempts ++ [attempt], steps := s.steps + 1 },
      (env.sendToServer s.steps attempt false).map fun _ => ()) := by
  cases hanswer : env.sendToServer s.steps attempt false with
  | error e => exact bind_error (sendToServer_eq hanswer) _
  | ok answer => exact bind_quiet (sendToServer_eq hanswer) _

/-- One peer is informed, or its address cannot be taken apart. -/
theorem informPeer_eq (hport : port < 2 ^ 32) (peer : String) (s : Shared) :
    informPeer env ip.toList (Nat.toDigits 10 port) peer s =
      match informOf env ip port peer with
      | .error e => ([], s, .error e)
      | .ok attempt => ([], { s with
          attempts := s.attempts ++ [attempt], steps := s.steps + 1 },
          (env.sendToServer s.steps attempt false).map fun _ => ()) := by
  unfold informPeer informOf
  conv_rhs => simp only [Bind.bind, Except.bind]
  cases splitPeer peer with
  | error e => rfl
  | ok parts =>
    obtain ⟨peerIp, peerPort⟩ := parts
    simp only [lift_ok_bind, parseInt_toDigits, pack_eq hport]
    cases parseInt peerPort with
    | error e => rfl
    | ok number =>
      simp only [lift_ok_bind]
      cases assembleMessage env.ip env.port COMMAND_INFORM
          (padIp ip.toList ++ BigEndian.encode 4 port) with
      | error e => rfl
      | ok message =>
        exact sendToServer_dropped env ⟨String.ofList peerIp, number, message⟩ s

/-- The server itself and the new peer are passed over. -/
theorem everyone_skip {peer : String} {time : ℚ} {network : Network} {attempts : List Attempt}
    (h : ¬peer ∉ [addressOf env.ip env.port, addressOf ip port]) :
    Everyone env ip port ((peer, time) :: network) attempts ↔
      Everyone env ip port network attempts := by
  rw [Everyone, candidates, List.filter_cons_of_neg (by simpa using h)]
  rfl

theorem everyone_cons {peer : String} {time : ℚ} {network : Network} {attempts : List Attempt}
    (h : peer ∉ [addressOf env.ip env.port, addressOf ip port]) :
    Everyone env ip port ((peer, time) :: network) attempts ↔
      ∃ attempt rest, informOf env ip port peer = .ok attempt ∧
        Everyone env ip port network rest ∧ attempts = attempt :: rest := by
  rw [Everyone, candidates, List.filter_cons_of_pos (by simpa using h),
    List.forall₂_cons_left_iff]
  rfl

theorem exists_everyone_cons {peer : String} {time : ℚ} {network : Network} {attempt : Attempt}
    (h : peer ∉ [addressOf env.ip env.port, addressOf ip port])
    (hattempt : informOf env ip port peer = .ok attempt) {p : List Attempt → Prop} :
    (∃ attempts, Everyone env ip port ((peer, time) :: network) attempts ∧ p attempts) ↔
      ∃ rest, Everyone env ip port network rest ∧ p (attempt :: rest) := by
  constructor
  · intro ⟨attempts, heveryone, hp⟩
    obtain ⟨_, rest, hok, hrest, rfl⟩ := (everyone_cons env h).mp heveryone
    rw [hattempt] at hok
    cases hok
    exact ⟨rest, hrest, hp⟩
  · intro ⟨rest, hrest, hp⟩
    exact ⟨_, (everyone_cons env h).mpr ⟨attempt, rest, hattempt, hrest, rfl⟩, hp⟩

/-- The loop makes all of the calls exactly if each of them but the last gets through. -/
theorem informLoop_iff (hport : port < 2 ^ 32) (network : Network) (s : Shared) :
    (∃ attempts, Everyone env ip port network attempts ∧
      (informLoop env (addressOf ip port) ip.toList (Nat.toDigits 10 port) network s).2.1.attempts =
        s.attempts ++ attempts) ↔
      ∃ attempts, Everyone env ip port network attempts ∧ Reached env s.steps attempts := by
  induction network generalizing s with
  | nil => exact iff_of_true ⟨[], .nil, (List.append_nil _).symm⟩ ⟨[], .nil, nofun⟩
  | cons entry network ih =>
    obtain ⟨peer, time⟩ := entry
    by_cases hother : peer ∉ [addressOf env.ip env.port, addressOf ip port]
    case neg =>
      simp only [everyone_skip env hother, informLoop, if_neg hother]
      exact ih s
    case pos =>
      have hround := @informPeer_eq env ip port hport peer s
      simp only [informLoop, if_pos hother]
      cases hattempt : informOf env ip port peer with
      | error e =>
        have hnone : ∀ attempts, ¬Everyone env ip port ((peer, time) :: network) attempts := by
          intro attempts h
          obtain ⟨_, _, hok, _⟩ := (everyone_cons env hother).mp h
          rw [hattempt] at hok
          cases hok
        refine iff_of_false ?_ ?_
        · rintro ⟨_, h, _⟩
          exact hnone _ h
        · rintro ⟨_, h, _⟩
          exact hnone _ h
      | ok attempt =>
        rw [exists_everyone_cons env hother hattempt, exists_everyone_cons env hother hattempt]
        cases hanswer : env.sendToServer s.steps attempt false with
        | error e =>
          -- the exception ends the loop, and these were all of the calls if it was the last peer
          rw [hattempt] at hround
          dsimp only at hround
          rw [hanswer] at hround
          rw [bind_error hround]
          refine exists_congr fun rest => and_congr_right fun _ => ?_
          rw [List.append_cancel_left_eq, reached_cons_iff, List.cons_eq_cons, hanswer]
          constructor
          · rintro ⟨_, hnil⟩
            rw [← hnil]
            exact ⟨fun hne => absurd rfl hne, nofun⟩
          · rintro ⟨hreached, _⟩
            refine ⟨rfl, ?_⟩
            by_contra hne
            obtain ⟨_, hok⟩ := hreached (Ne.symm hne)
            cases hok
        | ok answer =>
          rw [hattempt] at hround
          dsimp only at hround
          rw [hanswer] at hround
          rw [bind_quiet hround]
          have hrest := ih { s with attempts := s.attempts ++ [attempt], steps := s.steps + 1 }
          simp only [List.append_assoc, List.singleton_append] at hrest
          rw [hrest]
          simp only [reached_cons_iff, hanswer]
          refine exists_congr fun rest => and_congr_right fun _ => ?_
          exact (and_iff_right fun _ => ⟨answer, rfl⟩).symm

end Loop

/-! ## A registration -/

/-- The last round of the loop that builds the payload is about the new peer. -/
theorem payloadLoop_last {ip : String} {port : ℕ} {time : ℚ} {payload data : Bytes}
    {firstIp firstPort lastIp lastPort : List Char} (network : Network)
    (h : payloadLoop (network ++ [(addressOf ip port, time)]) firstIp firstPort payload =
      .ok (data, lastIp, lastPort)) :
    lastIp = ip.toList ∧ lastPort = Nat.toDigits 10 port ∧ port < 2 ^ 32 := by
  induction network generalizing firstIp firstPort payload with
  | nil =>
    obtain ⟨⟨splitIp, splitPort⟩, hsplit, hrest⟩ := ok_of_bind h
    by_cases hcolon : ':' ∈ ip.toList
    · rw [splitPeer_colon hcolon] at hsplit
      cases hsplit
    · rw [splitPeer_addressOf hcolon] at hsplit
      cases hsplit
      obtain ⟨number, hnumber, hrest⟩ := ok_of_bind hrest
      obtain ⟨portField, hfield, hrest⟩ := ok_of_bind hrest
      rw [parseInt_toDigits, Except.ok.injEq] at hnumber
      cases hrest
      exact ⟨rfl, rfl, hnumber ▸ (pack_ok hfield).1⟩
  | cons entry network ih =>
    obtain ⟨_, _, hrest⟩ := ok_of_bind h
    obtain ⟨_, _, hrest⟩ := ok_of_bind hrest
    obtain ⟨_, _, hrest⟩ := ok_of_bind hrest
    exact ih hrest

section Register

variable (env : Circumstances) (ip : String) (port : ℕ) (s : Shared)

/-- The list with the new peer. -/
def registered : Network :=
  env.others s.steps s.network ++ [(addressOf ip port, env.time (s.steps + 1))]

/-- The list when the server goes through it to inform the peers. -/
def informed : Network := env.others (s.steps + 5) (registered env ip port s)

/-- A new peer is put into the list and told so. -/
structure Succeeds : Prop where
  ip_ne : ip ≠ ""
  port_ne : port ≠ 0
  new : addressOf ip port ∉ (env.others s.steps s.network).map Prod.fst
  sent : ∃ payload lastIp lastPort,
    payloadLoop (registered env ip port s) ip.toList (Nat.toDigits 10 port) [] =
      .ok (payload, lastIp, lastPort) ∧ env.deliver (s.steps + 2) STATUS_OK payload = .ok ()
  told : let newAddress := addressOf ip port
    env.print (s.steps + 3) s!"Registered new peer {newAddress}" = .ok ()
  shown : let addresses := String.intercalate ", " ((registered env ip port s).map Prod.fst)
    env.print (s.steps + 4) s!"Network is: {addresses}" = .ok ()

variable {env ip port s}

theorem registerSection_succeeds {payload : Bytes} {lastIp lastPort : List Char}
    (hnew : addressOf ip port ∉ (env.others s.steps s.network).map Prod.fst)
    (hpayload : payloadLoop (registered env ip port s) ip.toList (Nat.toDigits 10 port) [] =
      .ok (payload, lastIp, lastPort)) :
    registerSection env (addressOf ip port) ip.toList (Nat.toDigits 10 port) s =
      ([.acquire, .release],
        { s with network := registered env ip port s, steps := s.steps + 2 },
        .ok (some (payload, lastIp, lastPort))) := by
  refine critical_ok ?_
  rw [entered_bind, if_neg hnew]
  change (lift (payloadLoop (registered env ip port s) _ _ _) >>= _) _ = _
  rw [hpayload]
  rfl

/-- After the reply and two lines of output the loop runs. -/
theorem announce_attempts {newAddress : String} {payload : Bytes} {lastIp lastPort : List Char}
    {s : Shared} (hsent : env.deliver s.steps STATUS_OK payload = .ok ())
    (htold : env.print (s.steps + 1) s!"Registered new peer {newAddress}" = .ok ())
    (hshown : let addresses := String.intercalate ", " (s.network.map Prod.fst)
      env.print (s.steps + 2) s!"Network is: {addresses}" = .ok ()) :
    let network := env.others (s.steps + 3) s.network
    (announce env newAddress payload lastIp lastPort s).2.1.attempts =
      (informLoop env newAddress lastIp lastPort network
        { s with network, steps := s.steps + 4 }).2.1.attempts := by
  rw [announce, buildAndSendResponses, bind_quiet (external_eq hsent)]
  rw [bind_quiet (print_eq env htold), get_bind]
  rw [bind_quiet (print_eq env hshown), informSection, state_critical, entered_bind]
  exact congrArg Shared.attempts (state_bind_release _ _)

/-- What the registration does to the calls of `send_to_server` is done by the loop. -/
theorem register_attempts (h : Succeeds env ip port s) :
    port < 2 ^ 32 ∧ (register env ip port s).2.1.attempts =
      (informLoop env (addressOf ip port) ip.toList (Nat.toDigits 10 port) (informed env ip port s)
        { s with network := informed env ip port s, steps := s.steps + 6 }).2.1.attempts := by
  obtain ⟨payload, lastIp, lastPort, hpayload, hsent⟩ := h.sent
  obtain ⟨rfl, rfl, hport⟩ := payloadLoop_last _ hpayload
  refine ⟨hport, ?_⟩
  rw [register, if_neg h.ip_ne, if_neg h.port_ne,
    bind_ok (registerSection_succeeds h.new hpayload)]
  exact announce_attempts (s := { s with network := _, steps := s.steps + 2 }) hsent h.told h.shown

/-- Everyone else is told of a new peer, once, exactly if all of their addresses can be taken apart
and all of them but the last are reached. -/
theorem everyone_informed_iff (h : Succeeds env ip port s) :
    (∃ attempts, Everyone env ip port (informed env ip port s) attempts ∧
      (register env ip port s).2.1.attempts = s.attempts ++ attempts) ↔
      ∃ attempts, Everyone env ip port (informed env ip port s) attempts ∧
        Reached env (s.steps + 6) attempts := by
  obtain ⟨hport, hattempts⟩ := register_attempts h
  rw [hattempts]
  exact informLoop_iff env hport _ { s with network := _, steps := s.steps + 6 }

end Register

/-- The peer at 10.0.0.2:7 is gone, all others answer. -/
def onePeerGone : Circumstances where
  ip := "10.0.0.1"
  port := 5
  describe _ := "[Errno 111] Connection refused"
  time _ := 100
  print _ _ := .ok ()
  deliver _ _ _ := .ok ()
  sendToServer _ attempt _ :=
    if attempt.ip = "10.0.0.2" then .error .osError else .ok (STATUS_OK, .bytes [])
  write _ _ _ := .ok ()
  choice _ _ := .error .indexError
  others _ network := network

/-- It does no harm as the last one in the list. -/
theorem everyone_informed_last :
    let s : Shared := ⟨[("10.0.0.1:5", -1), ("10.0.0.3:9", 100), ("10.0.0.2:7", 100)], [], [], 0⟩
    ∃ attempts, Everyone onePeerGone "10.0.0.4" 6 (informed onePeerGone "10.0.0.4" 6 s) attempts ∧
      (register onePeerGone "10.0.0.4" 6 s).2.1.attempts = [] ++ attempts := by
  intro s
  have hsucceeds : Succeeds onePeerGone "10.0.0.4" 6 s :=
    ⟨by decide, by decide, by decide +kernel, ⟨_, _, _, rfl, rfl⟩, rfl, rfl⟩
  obtain ⟨first, hfirst⟩ : ∃ message, informOf onePeerGone "10.0.0.4" 6 "10.0.0.3:9" =
      .ok ⟨"10.0.0.3", 9, message⟩ :=
    ⟨_, informOf_addressOf (show ':' ∉ "10.0.0.3".toList by decide) (by decide) "10.0.0.4" 6 9⟩
  obtain ⟨second, hsecond⟩ : ∃ message, informOf onePeerGone "10.0.0.4" 6 "10.0.0.2:7" =
      .ok ⟨"10.0.0.2", 7, message⟩ :=
    ⟨_, informOf_addressOf (show ':' ∉ "10.0.0.2".toList by decide) (by decide) "10.0.0.4" 6 7⟩
  have hcandidates : candidates onePeerGone (addressOf "10.0.0.4" 6)
      (informed onePeerGone "10.0.0.4" 6 s) = [("10.0.0.3:9", 100), ("10.0.0.2:7", 100)] := by
    decide +kernel
  refine (everyone_informed_iff hsucceeds).mpr
    ⟨[⟨"10.0.0.3", 9, first⟩, ⟨"10.0.0.2", 7, second⟩], ?_, fun j hj => ?_⟩
  · rw [Everyone, hcandidates]
    exact .cons hfirst (.cons hsecond .nil)
  · obtain rfl : j = 0 := Nat.lt_one_iff.mp (Nat.succ_lt_succ_iff.mp hj)
    exact ⟨_, rfl⟩

/-- The peer in front of 10.0.0.3:9 is gone, and 10.0.0.3:9 never hears of the new one. -/
theorem inform_stops : ¬∀ (env : Circumstances) (ip : String) (port : ℕ) (s : Shared),
    Succeeds env ip port s →
    ∃ attempts, Everyone env ip port (informed env ip port s) attempts ∧
      (register env ip port s).2.1.attempts = s.attempts ++ attempts := by
  intro h
  let s : Shared := ⟨[("10.0.0.1:5", -1), ("10.0.0.2:7", 100), ("10.0.0.3:9", 100)], [], [], 0⟩
  obtain ⟨attempts, heveryone, hattempts⟩ := h onePeerGone "10.0.0.4" 6 s
    ⟨by decide, by decide, by decide +kernel, ⟨_, _, _, rfl, rfl⟩, rfl, rfl⟩
  have htwo : 2 = attempts.length := heveryone.length_eq
  have hone : (register onePeerGone "10.0.0.4" 6 s).2.1.attempts.length = 1 := by decide +kernel
  rw [hattempts] at hone
  exact absurd (htwo.trans hone) (by decide)

end CompSys.PeerThreads
