import CompSys.PeerWire
import CompSys.Transition
import CompSys.UniqueKeys
import Mathlib.Algebra.Order.Floor.Div
import Mathlib.Algebra.Order.Ring.Rat
import Mathlib.Logic.Function.Basic

/-!
# The network list of the Python peer of A4

The list of known peers is shared by the threads that handle messages and the
client thread. Each section that holds `network_mutex` is one step here, and the
sections of different threads come in any order. An exception ends a section
where it is raised and leaves what the section has changed so far.
-/
namespace CompSys.Peer

/-- An address and the time at which it was last heard of, -1 for the peer's own. -/
abbrev Entry := String × ℚ

abbrev Network := List Entry

/-- `f"{ip}:{port}"`. -/
def addressOf (ip : String) (port : Nat) : String := s!"{ip}:{port}"

theorem toList_addressOf (ip : String) (port : Nat) :
    (addressOf ip port).toList = ip.toList ++ ':' :: Nat.toDigits 10 port := by
  simp [addressOf, toString, Nat.repr]

/-! ## Expiry -/

/-- `for i in range(len(network))`. The entry of the sender is a tuple, so the assignment to
its timestamp raises. -/
def expiryScan (messageFrom : String) (now : ℚ) :
    List Entry → List Entry → Except PyError (List Entry)
  | [], toRemove => .ok toRemove
  | (address, timestamp) :: entries, toRemove =>
    if timestamp = -1 then expiryScan messageFrom now entries toRemove
    else if address = messageFrom then .error .typeError
    else if now - timestamp > 60 then
      expiryScan messageFrom now entries (toRemove ++ [(address, timestamp)])
    else expiryScan messageFrom now entries toRemove

/-- `for remove in to_remove`. -/
def removeLoop : List Entry → Network → Network × Except PyError Unit
  | [], network => (network, .ok ())
  | remove :: toRemove, network =>
    if remove ∈ network then removeLoop toRemove (network.erase remove)
    else (network, .error .valueError)

/-- The section of `handle`, in which every exception is swallowed. -/
def expirySection (messageFrom : String) (now : ℚ) (network : Network) : Network :=
  match expiryScan messageFrom now network [] with
  | .error _ => network
  | .ok toRemove => (removeLoop toRemove network).1

/-! ## Registration and information -/

/-- `int(port)`, where `port` is what a number was printed as. -/
def parseInt (port : List Char) : Except PyError Nat :=
  if port ≠ [] ∧ port.all Char.isDigit then
    .ok (port.foldl (fun n c => 10 * n + (c.toNat - '0'.toNat)) 0)
  else .error .valueError

/-- `bytes(ip[:LEN_IP].ljust(LEN_IP, '\x00'), 'utf-8')`. -/
def padIp (ip : List Char) : Bytes :=
  (String.ofList ((ip.take LEN_IP).rightpad LEN_IP (Char.ofNat 0))).toUTF8.toList

/-- One record of the payload: `ip, port = peer.split(':')` and their bytes. -/
def packPeer (peer : String) : Except PyError Bytes :=
  match peer.toList.splitOn ':' with
  | [ip, port] => do
    let number ← parseInt port
    let portField ← pack number
    return padIp ip ++ portField
  | _ => .error .valueError

/-- The section of `_register`: whether the address is new, with the payload of the reply. -/
def registerSection (newAddress : String) (now : ℚ) (network : Network) :
    Network × Except PyError (Option Bytes) :=
  if newAddress ∈ network.map Prod.fst then (network, .ok none)
  else
    let network := network ++ [(newAddress, now)]
    (network, do return some (← network.mapM fun entry => packPeer entry.1).flatten)

/-- The address in a record of `LEN_IP + LEN_PORT` bytes. -/
def recordAddress (data : Bytes) (i : Nat) : Except PyError String := do
  let ip ← decodeUtf8 (slice data i (i + LEN_IP))
  let port ← unpack (slice data (i + LEN_IP) (i + LEN_IP + LEN_PORT))
  return addressOf (stripNul ip) port

/-- The section of `_add_to_network`. -/
def informSection (address : String) (now : ℚ) (network : Network) : Network :=
  if address ∈ network.map Prod.fst then network else network ++ [(address, now)]

/-- `for i in range(0, len(data), LEN_IP+LEN_PORT)`; `clock i` is the time in that round. -/
def mergeLoop (data : Bytes) (clock : Nat → ℚ) :
    List Nat → Network → Network × Except PyError Unit
  | [], network => (network, .ok ())
  | i :: is, network =>
    match recordAddress data i with
    | .error e => (network, .error e)
    | .ok address =>
      if address ∉ network.map Prod.fst then
        mergeLoop data clock is (network ++ [(address, clock i)])
      else mergeLoop data clock is network

/-- The section of `to_server` after a COMMAND_REGISTER exchange with status OK. -/
def mergeSection (data : Bytes) (clock : Nat → ℚ) (network : Network) :
    Network × Except PyError Unit :=
  mergeLoop data clock
    ((List.range (data.length ⌈/⌉ (LEN_IP + LEN_PORT))).map (· * (LEN_IP + LEN_PORT))) network

/-! ## The peer -/

/-- Where a handler thread stands between its sections. A message that does not parse is
answered with an error at once. -/
inductive Handler where
  | idle
  | expiring (message : Message)
  | registering (newAddress : String)
  | informing (address : String)
  deriving DecidableEq, Repr

/-- The rest of `handle` and the checks that come before the next section. The error replies
and the replies to COMMAND_RETREIVE leave the network alone, and so does the section in which
`_register` reads it to inform the other peers. -/
def dispatch (message : Message) : Handler :=
  if message.payload.length ≠ message.payloadLength then .idle
  else if message.code = COMMAND_REGISTER then
    if message.ip = "" ∨ message.port = 0 then .idle
    else .registering (addressOf message.ip message.port)
  else if message.code = COMMAND_INFORM then
    match recordAddress message.payload 0 with
    | .error _ => .idle
    | .ok address => .informing address
  else .idle

structure State where
  network : Network
  handlers : Nat → Handler

inductive Label where
  | receive (t : Nat) (bytesMessage : Bytes)
  | expire (t : Nat) (now : ℚ)
  | register (t : Nat) (now : ℚ)
  | inform (t : Nat) (now : ℚ)
  | merge (data : Bytes) (clock : Nat → ℚ)

def step (s : State) : Label → Option State
  | .receive t bytesMessage =>
    match s.handlers t with
    | .idle =>
      match parseMessage (bytesMessage.take MSG_MAX) with
      | .error _ => some s
      | .ok message => some { s with handlers := Function.update s.handlers t (.expiring message) }
    | _ => none
  | .expire t now =>
    match s.handlers t with
    | .expiring message =>
      some {
        network := expirySection (addressOf message.ip message.port) now s.network
        handlers := Function.update s.handlers t (dispatch message) }
    | _ => none
  | .register t now =>
    match s.handlers t with
    | .registering newAddress =>
      some {
        network := (registerSection newAddress now s.network).1
        handlers := Function.update s.handlers t .idle }
    | _ => none
  | .inform t now =>
    match s.handlers t with
    | .informing address =>
      some {
        network := informSection address now s.network
        handlers := Function.update s.handlers t .idle }
    | _ => none
  | .merge data clock => some { s with network := (mergeSection data clock s.network).1 }

/-- A peer that knows only itself and handles no message yet. -/
def start (myAddress : String) : State := ⟨[(myAddress, -1)], fun _ => .idle⟩

def peer (myAddress : String) : Transition.System State :=
  Transition.ofStep (start myAddress) step

/-! ## The field of an ip -/

theorem padIp_eq_encode (ip : List Char) :
    padIp ip = PythonText.encode
      (String.ofList ((ip.take LEN_IP).rightpad LEN_IP (Char.ofNat 0))) :=
  PythonText.toList_toUTF8 _

theorem length_padIp_ascii {ip : List Char} (h : ∀ c ∈ ip, c.toNat < 128) :
    (padIp ip).length = LEN_IP := by
  rw [padIp_eq_encode, PythonText.length_encode_ascii]
  · rw [String.toList_ofList, List.length_rightpad, List.length_take]
    omega
  · intro c hc
    rw [String.toList_ofList, List.rightpad, List.mem_append] at hc
    rcases hc with hc | hc
    · exact h c (List.mem_of_mem_take hc)
    · rw [List.eq_of_mem_replicate hc]
      decide

/-! ## What expires -/

/-- An entry that is not the peer's own and has not been added in the last minute. -/
def Old (now : ℚ) (entry : Entry) : Prop := entry.2 ≠ -1 ∧ now - entry.2 > 60

instance (now : ℚ) (entry : Entry) : Decidable (Old now entry) :=
  inferInstanceAs (Decidable (_ ∧ _))

/-- The entries that are left: all of them after a message from one of them, and otherwise
those that are not old. -/
def survivors (messageFrom : String) (now : ℚ) (network : Network) : Network :=
  if ∃ entry ∈ network, entry.2 ≠ -1 ∧ entry.1 = messageFrom then network
  else network.filter fun entry => ¬Old now entry

/-- The scan raises at an entry of the sender, and selects the old entries otherwise. -/
theorem expiryScan_eq (messageFrom : String) (now : ℚ) (entries toRemove : List Entry) :
    expiryScan messageFrom now entries toRemove =
      if ∃ entry ∈ entries, entry.2 ≠ -1 ∧ entry.1 = messageFrom then .error .typeError
      else .ok (toRemove ++ entries.filter fun entry => Old now entry) := by
  induction entries generalizing toRemove with
  | nil => simp [expiryScan]
  | cons head entries ih =>
    obtain ⟨address, timestamp⟩ := head
    rw [expiryScan]
    by_cases hown : timestamp = -1
    · have hold : ¬Old now (address, timestamp) := fun h => h.1 hown
      rw [if_pos hown, ih, List.filter_cons_of_neg (by simpa using hold)]
      simp only [List.exists_mem_cons_iff, hown, ne_eq, not_true_eq_false, false_and, false_or]
    · rw [if_neg hown]
      by_cases hfrom : address = messageFrom
      · rw [if_pos hfrom, if_pos ⟨_, List.mem_cons_self, hown, hfrom⟩]
      · have hothers : (∃ entry ∈ (address, timestamp) :: entries,
            entry.2 ≠ -1 ∧ entry.1 = messageFrom) ↔
              ∃ entry ∈ entries, entry.2 ≠ -1 ∧ entry.1 = messageFrom := by
          simp only [List.exists_mem_cons_iff, hfrom, and_false, false_or]
        rw [if_neg hfrom, if_congr hothers rfl rfl]
        by_cases hlate : now - timestamp > 60
        · have hold : Old now (address, timestamp) := ⟨hown, hlate⟩
          rw [if_pos hlate, ih, List.filter_cons_of_pos (by simpa using hold), List.append_assoc]
          rfl
        · have hold : ¬Old now (address, timestamp) := fun h => hlate h.2
          rw [if_neg hlate, ih, List.filter_cons_of_neg (by simpa using hold)]

/-- Selected entries are removed one by one, those in front of them are not selected. -/
theorem removeLoop_filter (now : ℚ) (network : Network) :
    ∀ kept : Network, (∀ entry ∈ kept, ¬Old now entry) →
      removeLoop (network.filter fun entry => Old now entry) (kept ++ network) =
        (kept ++ network.filter fun entry => ¬Old now entry, .ok ()) := by
  induction network with
  | nil =>
    intro kept _
    rfl
  | cons head network ih =>
    intro kept hkept
    by_cases hold : Old now head
    · have hnot : head ∉ kept := fun hmem => hkept head hmem hold
      rw [List.filter_cons_of_pos (by simpa using hold), List.filter_cons_of_neg (by simpa using hold),
        removeLoop, if_pos (List.mem_append_right _ List.mem_cons_self),
        List.erase_append_right _ hnot, List.erase_cons_head]
      exact ih kept hkept
    · have hmoved : ∀ entry ∈ kept ++ [head], ¬Old now entry := by
        intro entry hmem
        rcases List.mem_append.mp hmem with hmem | hmem
        · exact hkept entry hmem
        · rw [List.mem_singleton.mp hmem]
          exact hold
      have hrest := ih (kept ++ [head]) hmoved
      rw [← List.append_cons, ← List.append_cons] at hrest
      rw [List.filter_cons_of_neg (by simpa using hold), List.filter_cons_of_pos (by simpa using hold)]
      exact hrest

theorem expirySection_eq (messageFrom : String) (now : ℚ) (network : Network) :
    expirySection messageFrom now network = survivors messageFrom now network := by
  rw [expirySection, expiryScan_eq, survivors]
  by_cases hfrom : ∃ entry ∈ network, entry.2 ≠ -1 ∧ entry.1 = messageFrom
  · rw [if_pos hfrom, if_pos hfrom]
  · rw [if_neg hfrom, if_neg hfrom, List.nil_append]
    have hloop := removeLoop_filter now network [] (fun _ hmem => absurd hmem List.not_mem_nil)
    rw [List.nil_append, List.nil_append] at hloop
    exact congrArg Prod.fst hloop

theorem survivors_sublist (messageFrom : String) (now : ℚ) (network : Network) :
    (survivors messageFrom now network).Sublist network := by
  unfold survivors
  split
  · exact List.Sublist.refl network
  · exact List.filter_sublist

theorem mem_survivors {now : ℚ} {network : Network} {entry : Entry} (h : entry ∈ network)
    (messageFrom : String) (hrecent : entry.2 = -1 ∨ now - entry.2 ≤ 60) :
    entry ∈ survivors messageFrom now network := by
  unfold survivors
  split
  case isTrue => exact h
  case isFalse =>
    have hold : ¬Old now entry := by
      intro ⟨htimestamp, hlate⟩
      rcases hrecent with hown | hrecent
      · exact htimestamp hown
      · exact absurd hlate (not_lt.mpr hrecent)
    exact List.mem_filter.mpr ⟨h, by simpa using hold⟩

/-! ## What a section keeps -/

/-- No address twice, and the peer's own entry as it was at the start. -/
structure SoundNetwork (myAddress : String) (network : Network) : Prop where
  unique : UniqueKeys network
  own : (myAddress, -1) ∈ network

theorem SoundNetwork.insertNew {myAddress : String} {network : Network}
    (h : SoundNetwork myAddress network) (address : String) (now : ℚ) :
    SoundNetwork myAddress (UniqueKeys.insertNew network address now) :=
  ⟨h.unique.insert address now, UniqueKeys.mem_insertNew h.own address now⟩

theorem expirySection_sound {myAddress : String} {network : Network}
    (h : SoundNetwork myAddress network) (messageFrom : String) (now : ℚ) :
    SoundNetwork myAddress (expirySection messageFrom now network) := by
  rw [expirySection_eq]
  exact ⟨h.unique.sublist (survivors_sublist messageFrom now network),
    mem_survivors h.own messageFrom (.inl rfl)⟩

/-- The entry is added before the payload is made, so it stays when that raises. -/
theorem registerSection_network (newAddress : String) (now : ℚ) (network : Network) :
    (registerSection newAddress now network).1 =
      UniqueKeys.insertNew network newAddress now := by
  unfold registerSection UniqueKeys.insertNew
  split <;> rfl

theorem informSection_network (address : String) (now : ℚ) (network : Network) :
    informSection address now network = UniqueKeys.insertNew network address now := rfl

/-- What was merged before an exception is raised stays. -/
theorem mergeLoop_sound {myAddress : String} {data : Bytes} {clock : Nat → ℚ} (is : List Nat) :
    ∀ {network : Network}, SoundNetwork myAddress network →
      SoundNetwork myAddress (mergeLoop data clock is network).1 := by
  induction is with
  | nil =>
      intro network h
      exact h
  | cons i is ih =>
      intro network h
      rw [mergeLoop]
      split
      case h_1 => exact h
      case h_2 address _ =>
        have hinsert := h.insertNew address (clock i)
        unfold UniqueKeys.insertNew at hinsert
        split
        case isTrue hnew =>
          rw [if_neg hnew] at hinsert
          exact ih hinsert
        case isFalse => exact ih h

/-! ## Runs -/

theorem step_sound {myAddress : String} {s t : State} {label : Label}
    (h : SoundNetwork myAddress s.network) (hstep : step s label = some t) :
    SoundNetwork myAddress t.network := by
  cases label with
  | receive t bytesMessage =>
      simp only [step] at hstep
      split at hstep
      · split at hstep <;> cases hstep <;> exact h
      · cases hstep
  | expire t now =>
      simp only [step] at hstep
      split at hstep <;> cases hstep
      exact expirySection_sound h _ now
  | register t now =>
      simp only [step] at hstep
      split at hstep <;> cases hstep
      rw [registerSection_network]
      exact h.insertNew _ now
  | inform t now =>
      simp only [step] at hstep
      split at hstep <;> cases hstep
      rw [informSection_network]
      exact h.insertNew _ now
  | merge data clock =>
      cases hstep
      exact mergeLoop_sound _ h

theorem reachable_sound {myAddress : String} {s : State}
    (h : Transition.Reachable (peer myAddress) s) : SoundNetwork myAddress s.network := by
  refine h.invariant (I := fun s => SoundNetwork myAddress s.network) ?_ ?_
  · intro s hs
    rw [hs]
    exact ⟨UniqueKeys.singleton _, List.mem_singleton.mpr rfl⟩
  · intro s t _ hs ht
    obtain ⟨label, hstep⟩ := ht
    exact step_sound hs hstep

/-- Whatever messages and replies come, in whatever order the sections run, the list has no
address twice and still has the peer's own entry with the timestamp -1. -/
theorem network_unique_and_own (myAddress : String) (s : State)
    (h : Transition.Reachable (peer myAddress) s) :
    (s.network.map Prod.fst).Nodup ∧ (myAddress, -1) ∈ s.network :=
  ⟨(reachable_sound h).unique, (reachable_sound h).own⟩

/-- A peer registers and then, with its expiry aborted by its own entry, informs the server
of the server's own address. -/
theorem network_unique_and_own_spoofed :
    ∃ s : State, s.network = [("10.0.0.1:5", -1), ("10.0.0.2:7", 100)] ∧
      (s.network.map Prod.fst).Nodup ∧ ("10.0.0.1:5", -1) ∈ s.network := by
  have hrun : (List.foldlM step (start "10.0.0.1:5")
      [.receive 0 [49, 48, 46, 48, 46, 48, 46, 50, 0, 0, 0, 0, 0, 0, 0, 0, 0, 0, 0, 7,
          0, 0, 0, 1, 0, 0, 0, 0],
        .expire 0 100, .register 0 100,
        .receive 1 [49, 48, 46, 48, 46, 48, 46, 50, 0, 0, 0, 0, 0, 0, 0, 0, 0, 0, 0, 7,
          0, 0, 0, 3, 0, 0, 0, 20,
          49, 48, 46, 48, 46, 48, 46, 49, 0, 0, 0, 0, 0, 0, 0, 0, 0, 0, 0, 5],
        .expire 1 200, .inform 1 200]).map State.network =
      some [("10.0.0.1:5", -1), ("10.0.0.2:7", 100)] := by
    decide +kernel
  obtain ⟨s, hlabels, hnetwork⟩ := Option.map_eq_some_iff.mp hrun
  have hs : Transition.Reachable (peer "10.0.0.1:5") s :=
    Transition.reachable_of_run _ (.start rfl) hlabels
  exact ⟨s, hnetwork, network_unique_and_own _ s hs⟩

end CompSys.Peer
