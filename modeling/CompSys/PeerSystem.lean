import CompSys.PeerAtomic

/-!
# A network of Python peers of A4

Any number of peers run `peer.py`, each under an address of its own, and nobody else is on the
network. What they send is delivered late, in any order or never, connections fail, and peers end
and are started again.
-/
namespace CompSys.PeerSystem

open Peer PythonText

/-! ## The system -/

structure Node where
  address : Address
  state : State

/-- The reply to a registration and the loop that informs the other peers are still to come when the
section of `_register` is over. `booted` are the peers that were ever started, `joined` those that
have registered another one or were registered. -/
structure World where
  booted : List Address
  peers : String → Option Node
  requests : List (String × Bytes)
  replies : List (String × Bytes)
  announcements : List (String × String)
  joined : List String

/-- What `run_client` asks of another peer. -/
inductive Ask where
  | register
  | retrieve (name : String)

def Ask.code : Ask → ℕ
  | .register => COMMAND_REGISTER
  | .retrieve _ => COMMAND_RETREIVE

def Ask.body : Ask → Bytes
  | .register => encode ""
  | .retrieve name => encode name

/-- The INFORM message to a listed peer, with the address that it goes to. -/
def informMessage (my : Address) (newAddress peer : String) : Except PyError (String × Bytes) := do
  let (peerIp, peerPort) ← splitPeer peer
  let msg ← packPeer newAddress
  let number ← parseInt peerPort
  let message ← assembleMessage my.ip my.port COMMAND_INFORM msg
  return (addressOf (String.ofList peerIp) number, message)

/-- The messages of the loop that informs the network, up to the first exception. -/
def informMessages (my : Address) (newAddress : String) : List Entry → List (String × Bytes)
  | [] => []
  | (peer, _) :: entries =>
    if peer ∉ [my.text, newAddress] then
      match informMessage my newAddress peer with
      | .error _ => []
      | .ok message => message :: informMessages my newAddress entries
    else informMessages my newAddress entries

inductive Label where
  | boot (a : Address)
  | stop (p : String)
  | ask (p dest : String) (what : Ask)
  | receive (p : String) (t : ℕ) (bytesMessage : Bytes)
  | expire (p : String) (t : ℕ) (now : ℚ)
  | register (p : String) (t : ℕ) (now : ℚ)
  | inform (p : String) (t : ℕ) (now : ℚ)
  | announce (p newAddress : String) (reached : ℕ)
  | merge (p : String) (data : Bytes) (clock : ℕ → ℚ)
  | loseRequest (dest : String) (bytesMessage : Bytes)
  | loseReply (dest : String) (data : Bytes)
  | loseAnnouncement (p newAddress : String)

def initial : World := ⟨[], fun _ => none, [], [], [], []⟩

def World.set (w : World) (p : String) (node : Option Node) : World :=
  { w with peers := Function.update w.peers p node }

@[simp] theorem set_peers_self (w : World) (p : String) (node : Option Node) :
    (w.set p node).peers p = node := Function.update_self ..

theorem set_peers_other (w : World) {p q : String} (h : q ≠ p) (node : Option Node) :
    (w.set p node).peers q = w.peers q := Function.update_of_ne h ..

/-- A section of a running peer. -/
def World.runs (w : World) (p : String) (label : Peer.Label) : Option (Node × World) := do
  let node ← w.peers p
  let state ← Peer.step node.state label
  return (node, w.set p (some { node with state }))

/-- What a registration sends, if the address is new. -/
def World.registered (w : World) (p newAddress : String) :
    Except PyError (Option Bytes) → World
  | .ok (some payload) =>
    { w with
      replies := w.replies ++ [(newAddress, payload)]
      announcements := w.announcements ++ [(p, newAddress)]
      joined := w.joined ++ [p, newAddress] }
  | _ => w

/-- A connection that fails ends the loop that informs the network after the peers it has reached. -/
def step (w : World) : Label → Option World
  | .boot a =>
    match w.peers a.text with
    | none =>
      some { w.set a.text (some ⟨a, start a.text⟩) with booted := w.booted ++ [a] }
    | some _ => none
  | .stop p => some (w.set p none)
  | .ask p dest what => do
    let node ← w.peers p
    let message ← (assembleMessage node.address.ip node.address.port what.code what.body).toOption
    return { w with requests := w.requests ++ [(dest, message)] }
  | .receive p t bytesMessage =>
    if (p, bytesMessage) ∈ w.requests then do
      let (_, w) ← w.runs p (.receive t bytesMessage)
      return { w with requests := w.requests.erase (p, bytesMessage) }
    else none
  | .expire p t now => do
    let (_, w) ← w.runs p (.expire t now)
    return w
  | .register p t now => do
    let (node, w) ← w.runs p (.register t now)
    match node.state.handlers t with
    | .registering newAddress =>
      return w.registered p newAddress (registerSection newAddress now node.state.network).2
    | _ => none
  | .inform p t now => do
    let (_, w) ← w.runs p (.inform t now)
    return w
  | .announce p newAddress reached =>
    if (p, newAddress) ∈ w.announcements then do
      let node ← w.peers p
      return { w with
        announcements := w.announcements.erase (p, newAddress)
        requests := w.requests ++
          (informMessages node.address newAddress node.state.network).take reached }
    else none
  | .merge p data clock =>
    if (p, data) ∈ w.replies then do
      let (_, w) ← w.runs p (.merge data clock)
      return { w with replies := w.replies.erase (p, data) }
    else none
  | .loseRequest dest bytesMessage =>
    some { w with requests := w.requests.erase (dest, bytesMessage) }
  | .loseReply dest data => some { w with replies := w.replies.erase (dest, data) }
  | .loseAnnouncement p newAddress =>
    some { w with announcements := w.announcements.erase (p, newAddress) }

def system : Transition.System World := Transition.ofStep initial step

/-- What a step can do. -/
inductive Moves (w : World) : Label → World → Prop where
  | boot (a : Address) (down : w.peers a.text = none) :
    Moves w (.boot a)
      { w.set a.text (some ⟨a, start a.text⟩) with booted := w.booted ++ [a] }
  | stop (p : String) : Moves w (.stop p) (w.set p none)
  | ask {p : String} {node : Node} {message : Bytes} (dest : String) (what : Ask)
      (running : w.peers p = some node)
      (assembled : assembleMessage node.address.ip node.address.port what.code what.body =
        .ok message) :
    Moves w (.ask p dest what) { w with requests := w.requests ++ [(dest, message)] }
  | receive {p : String} {node : Node} {state : State} {t : ℕ} {bytesMessage : Bytes}
      (sent : (p, bytesMessage) ∈ w.requests) (running : w.peers p = some node)
      (moves : Peer.step node.state (.receive t bytesMessage) = some state) :
    Moves w (.receive p t bytesMessage)
      { w.set p (some { node with state }) with
        requests := w.requests.erase (p, bytesMessage) }
  | expire {p : String} {node : Node} {state : State} {t : ℕ} {now : ℚ}
      (running : w.peers p = some node)
      (moves : Peer.step node.state (.expire t now) = some state) :
    Moves w (.expire p t now) (w.set p (some { node with state }))
  | register {p : String} {node : Node} {state : State} {t : ℕ} {now : ℚ} {newAddress : String}
      (running : w.peers p = some node)
      (registering : node.state.handlers t = .registering newAddress)
      (moves : Peer.step node.state (.register t now) = some state) :
    Moves w (.register p t now)
      ((w.set p (some { node with state })).registered p newAddress
        (registerSection newAddress now node.state.network).2)
  | inform {p : String} {node : Node} {state : State} {t : ℕ} {now : ℚ}
      (running : w.peers p = some node)
      (moves : Peer.step node.state (.inform t now) = some state) :
    Moves w (.inform p t now) (w.set p (some { node with state }))
  | announce {p newAddress : String} {node : Node} (reached : ℕ)
      (announced : (p, newAddress) ∈ w.announcements) (running : w.peers p = some node) :
    Moves w (.announce p newAddress reached)
      { w with
        announcements := w.announcements.erase (p, newAddress)
        requests := w.requests ++
          (informMessages node.address newAddress node.state.network).take reached }
  | merge {p : String} {node : Node} {state : State} {data : Bytes} {clock : ℕ → ℚ}
      (sent : (p, data) ∈ w.replies) (running : w.peers p = some node)
      (moves : Peer.step node.state (.merge data clock) = some state) :
    Moves w (.merge p data clock)
      { w.set p (some { node with state }) with replies := w.replies.erase (p, data) }
  | loseRequest (dest : String) (bytesMessage : Bytes) :
    Moves w (.loseRequest dest bytesMessage)
      { w with requests := w.requests.erase (dest, bytesMessage) }
  | loseReply (dest : String) (data : Bytes) :
    Moves w (.loseReply dest data) { w with replies := w.replies.erase (dest, data) }
  | loseAnnouncement (p newAddress : String) :
    Moves w (.loseAnnouncement p newAddress)
      { w with announcements := w.announcements.erase (p, newAddress) }

theorem runs_some {w w' : World} {p : String} {label : Peer.Label} {node : Node}
    (h : w.runs p label = some (node, w')) :
    w.peers p = some node ∧ ∃ state, Peer.step node.state label = some state ∧
      w' = w.set p (some { node with state }) := by
  obtain ⟨node', hnode, h⟩ := Option.bind_eq_some_iff.mp h
  obtain ⟨state, hstate, h⟩ := Option.bind_eq_some_iff.mp h
  cases h
  exact ⟨hnode, state, hstate, rfl⟩

theorem moves_of_step {w w' : World} {label : Label} (h : step w label = some w') :
    Moves w label w' := by
  cases label with
  | boot a =>
    simp only [step] at h
    split at h <;> cases h
    exact .boot a ‹_›
  | stop p =>
    cases h
    exact .stop p
  | ask p dest what =>
    obtain ⟨node, hnode, h⟩ := Option.bind_eq_some_iff.mp h
    obtain ⟨message, hmessage, h⟩ := Option.bind_eq_some_iff.mp h
    cases h
    refine .ask dest what hnode ?_
    cases hassembled : assembleMessage node.address.ip node.address.port what.code what.body with
    | error e =>
      rw [hassembled] at hmessage
      cases hmessage
    | ok message' =>
      rw [hassembled] at hmessage
      cases hmessage
      rfl
  | receive p t bytesMessage =>
    obtain ⟨hsent, h⟩ := Option.ite_none_right_eq_some.mp h
    obtain ⟨⟨node, w₁⟩, hruns, h⟩ := Option.bind_eq_some_iff.mp h
    obtain ⟨hnode, state, hstate, rfl⟩ := runs_some hruns
    cases h
    exact .receive hsent hnode hstate
  | expire p t now =>
    obtain ⟨⟨node, w₁⟩, hruns, h⟩ := Option.bind_eq_some_iff.mp h
    obtain ⟨hnode, state, hstate, rfl⟩ := runs_some hruns
    cases h
    exact .expire hnode hstate
  | register p t now =>
    obtain ⟨⟨node, w₁⟩, hruns, h⟩ := Option.bind_eq_some_iff.mp h
    obtain ⟨hnode, state, hstate, rfl⟩ := runs_some hruns
    dsimp only at h
    split at h <;> cases h
    exact .register hnode ‹_› hstate
  | inform p t now =>
    obtain ⟨⟨node, w₁⟩, hruns, h⟩ := Option.bind_eq_some_iff.mp h
    obtain ⟨hnode, state, hstate, rfl⟩ := runs_some hruns
    cases h
    exact .inform hnode hstate
  | announce p newAddress reached =>
    obtain ⟨hannounced, h⟩ := Option.ite_none_right_eq_some.mp h
    obtain ⟨node, hnode, h⟩ := Option.bind_eq_some_iff.mp h
    cases h
    exact .announce reached hannounced hnode
  | merge p data clock =>
    obtain ⟨hsent, h⟩ := Option.ite_none_right_eq_some.mp h
    obtain ⟨⟨node, w₁⟩, hruns, h⟩ := Option.bind_eq_some_iff.mp h
    obtain ⟨hnode, state, hstate, rfl⟩ := runs_some hruns
    cases h
    exact .merge hsent hnode hstate
  | loseRequest dest bytesMessage =>
    cases h
    exact .loseRequest dest bytesMessage
  | loseReply dest data =>
    cases h
    exact .loseReply dest data
  | loseAnnouncement p newAddress =>
    cases h
    exact .loseAnnouncement p newAddress

/-! ## What is on the wire -/

/-- The bytes of a message of a peer. -/
def messageOf (a : Address) (code : ℕ) (body : Bytes) : Bytes :=
  padIp a.ip.toList ++ BigEndian.encode 4 a.port ++ BigEndian.encode 4 code ++
    BigEndian.encode 4 body.length ++ body

/-- However much of a message is received, its sender and its command are those that were sent. -/
theorem parseMessage_front (a : Address) {code : ℕ} (hcode : code < 2 ^ 32) (behind : Bytes)
    {message : Message}
    (h : parseMessage (padIp a.ip.toList ++ BigEndian.encode 4 a.port ++ BigEndian.encode 4 code ++
      behind) = .ok message) :
    addressOf message.ip message.port = a.text ∧ message.code = code := by
  have hip := a.length_padIp
  have hport := BigEndian.length_encode 4 a.port
  have hlength := BigEndian.length_encode 4 code
  generalize hm : padIp a.ip.toList ++ BigEndian.encode 4 a.port ++ BigEndian.encode 4 code ++
    behind = m at h
  have hipField : slice m 0 LEN_IP = padIp a.ip.toList :=
    slice_field [] _ (BigEndian.encode 4 a.port ++ BigEndian.encode 4 code ++ behind)
      (by simp [← hm]) rfl (by omega)
  have hportField : slice m LEN_IP (LEN_IP + LEN_PORT) = BigEndian.encode 4 a.port :=
    slice_field (padIp a.ip.toList) _ (BigEndian.encode 4 code ++ behind)
      (by simp [← hm]) hip (by rw [hport]; rfl)
  have hcodeField : slice m (LEN_IP + LEN_PORT) (LEN_IP + LEN_PORT + LEN_COMMAND_LENGTH) =
      BigEndian.encode 4 code :=
    slice_field (padIp a.ip.toList ++ BigEndian.encode 4 a.port) _ behind (by simp [← hm])
      (by simp [hip, hport]; rfl) (by rw [hlength]; rfl)
  obtain ⟨port, hunpacked, h⟩ := ok_of_bind h
  rw [hportField, unpack_encode a.portFits, Except.ok.injEq] at hunpacked
  obtain ⟨code', hcode', h⟩ := ok_of_bind h
  rw [hcodeField, unpack_encode hcode, Except.ok.injEq] at hcode'
  obtain ⟨payloadLength, -, h⟩ := ok_of_bind h
  obtain ⟨ip, hdecoded, h⟩ := ok_of_bind h
  rw [hipField, a.padIp_eq, decodeUtf8_encode, Except.ok.injEq] at hdecoded
  cases h
  refine ⟨?_, hcode'.symm⟩
  rw [← hdecoded, a.stripNul, ← hunpacked]
  rfl

theorem assembled_eq {a : Address} {code : ℕ} {body message : Bytes}
    (h : assembleMessage a.ip a.port code body = .ok message) :
    code < 2 ^ 32 ∧ message = messageOf a code body := by
  obtain ⟨portField, hport, h⟩ := ok_of_bind h
  obtain ⟨codeField, hcode, h⟩ := ok_of_bind h
  obtain ⟨lengthField, hlength, h⟩ := ok_of_bind h
  cases h
  rw [(pack_ok hport).2, (pack_ok hcode).2, (pack_ok hlength).2]
  exact ⟨(pack_ok hcode).1, rfl⟩

/-- A message that a peer sends names the peer. -/
theorem parse_messageOf {a : Address} {code : ℕ} (hcode : code < 2 ^ 32) (body : Bytes)
    {message : Message} (h : parseMessage ((messageOf a code body).take MSG_MAX) = .ok message) :
    addressOf message.ip message.port = a.text ∧ message.code = code := by
  have hfront : (padIp a.ip.toList ++ BigEndian.encode 4 a.port ++
      BigEndian.encode 4 code).length = 24 := by
    simp [a.length_padIp, BigEndian.length_encode, LEN_IP]
  rw [messageOf, List.append_assoc, List.take_append, List.take_of_length_le] at h
  · exact parseMessage_front a hcode _ h
  · rw [hfront]
    decide

/-- An INFORM message is understood as a whole. -/
theorem parse_inform (my a : Address) :
    ∃ message, parseMessage ((messageOf my COMMAND_INFORM a.bytes).take MSG_MAX) = .ok message ∧
      message.code = COMMAND_INFORM ∧ message.payload = a.bytes ∧
      message.payloadLength = a.bytes.length := by
  have hbytes : a.bytes.length = 20 := a.length_bytes
  have htake : (messageOf my COMMAND_INFORM a.bytes).take MSG_MAX =
      messageOf my COMMAND_INFORM a.bytes := by
    refine List.take_of_length_le ?_
    simp only [messageOf, List.length_append, my.length_padIp, BigEndian.length_encode, hbytes]
    decide
  have hparse := parseMessage_joined a.bytes my.length_padIp my.portFits
    (by decide : COMMAND_INFORM < 2 ^ 32) (by omega)
  rw [my.padIp_eq, decodeUtf8_encode, ← my.padIp_eq] at hparse
  rw [htake]
  exact ⟨_, hparse, rfl, rfl, rfl⟩

theorem recordAddress_bytes (a : Address) : recordAddress a.bytes 0 = .ok a.text := by
  have hread := a.recordAddress [] []
  rwa [List.nil_append, List.append_nil, List.length_nil] at hread

/-- Each listed peer is told of the new one. -/
theorem informMessage_eq (my a peer : Address) :
    informMessage my a.text peer.text = .ok (peer.text, messageOf my COMMAND_INFORM a.bytes) := by
  have hbytes : a.bytes.length = 20 := a.length_bytes
  have hsplit := splitPeer_addressOf peer.noColon peer.port
  rw [informMessage, Address.text, hsplit]
  simp only [bind, Except.bind, parseInt_toDigits, String.ofList_toList]
  rw [a.packPeer]
  simp only []
  rw [assembleMessage_eq my.ip my.portFits (by decide) (by omega)]
  rfl

/-! ## Nothing is invented -/

/-- A peer was started under the address. -/
def Started (booted : List Address) (address : String) : Prop := ∃ a ∈ booted, a.text = address

section Started

variable {P Q : String → Prop}

theorem brings_mono (h : ∀ address, P address → Q address) {message : Message}
    (hmessage : Brings P message) : Brings Q message where
  register hcode := h _ (hmessage.register hcode)
  inform hcode address haddress := h _ (hmessage.inform hcode address haddress)

theorem handler_mono (h : ∀ address, P address → Q address) {handler : Handler}
    (hhandler : handler.Brings P) : handler.Brings Q := by
  cases handler with
  | idle => trivial
  | expiring message => exact brings_mono h hhandler
  | registering newAddress => exact h _ hhandler
  | informing address => exact h _ hhandler

theorem allAddresses_mono (h : ∀ address, P address → Q address) {s : State}
    (hs : AllAddresses P s) : AllAddresses Q s where
  network entry hentry := h _ (hs.network entry hentry)
  handlers t := handler_mono h (hs.handlers t)

/-- An address list can be read off texts that are all addresses. -/
theorem exists_addresses {booted : List Address} {texts : List String}
    (h : ∀ text ∈ texts, Started booted text) :
    ∃ addresses : List Address, addresses.map Address.text = texts ∧
      ∀ a ∈ addresses, a ∈ booted := by
  induction texts with
  | nil => exact ⟨[], rfl, nofun⟩
  | cons text texts ih =>
    obtain ⟨a, ha, rfl⟩ := h text List.mem_cons_self
    obtain ⟨addresses, rfl, hbooted⟩ := ih fun t ht => h t (List.mem_cons_of_mem _ ht)
    refine ⟨a :: addresses, rfl, ?_⟩
    intro b hb
    rcases List.mem_cons.mp hb with rfl | hb
    · exact ha
    · exact hbooted b hb

end Started

/-- The peers know only addresses under which one was started. -/
def HonestNodes (booted : List Address) (peers : String → Option Node) : Prop :=
  ∀ p node, peers p = some node →
    node.address ∈ booted ∧ node.address.text = p ∧
      AllAddresses (Started booted) node.state ∧ SoundNetwork p node.state.network

/-- What is on the way brings no others. -/
structure Honest (w : World) : Prop where
  nodes : HonestNodes w.booted w.peers
  requests : ∀ r ∈ w.requests, ∀ message, parseMessage (r.2.take MSG_MAX) = .ok message →
    Brings (Started w.booted) message
  replies : ∀ r ∈ w.replies, ∃ addresses : List Address,
    (∀ a ∈ addresses, a ∈ w.booted) ∧ r.2 = recordsOf addresses
  announcements : ∀ e ∈ w.announcements, Started w.booted e.2

theorem initial_honest : Honest initial := by
  constructor
  · intro p node h
    cases h
  · intro r h
    cases h
  · intro r h
    cases h
  · intro e h
    cases h

section Step

variable {w : World} {p : String} {node : Node} {state : State}

/-- A section keeps the lists honest, if what it reads is. -/
theorem nodes_section (h : Honest w) (hnode : w.peers p = some node) {label : Peer.Label}
    (hmoves : Peer.step node.state label = some state)
    (hcarries : Carries (Started w.booted) label) :
    HonestNodes w.booted (w.set p (some { node with state })).peers := by
  obtain ⟨hbooted, htext, haddresses, hsound⟩ := h.nodes p node hnode
  intro q n hn
  by_cases hq : q = p
  · subst hq
    rw [set_peers_self, Option.some_inj] at hn
    subst hn
    exact ⟨hbooted, htext, step_allAddresses haddresses hcarries hmoves, step_sound hsound hmoves⟩
  · rw [set_peers_other w hq] at hn
    exact h.nodes q n hn

/-- A message to another peer names its sender. -/
theorem ask_brings (h : Honest w) (hnode : w.peers p = some node) {what : Ask} {bytes : Bytes}
    (hassembled : assembleMessage node.address.ip node.address.port what.code what.body = .ok bytes)
    {message : Message} (hparse : parseMessage (bytes.take MSG_MAX) = .ok message) :
    Brings (Started w.booted) message := by
  obtain ⟨hcode, rfl⟩ := assembled_eq hassembled
  obtain ⟨hfrom, hmessage⟩ := parse_messageOf hcode _ hparse
  constructor
  · intro _
    exact ⟨node.address, (h.nodes p node hnode).1, hfrom.symm⟩
  · intro hinform
    rw [hmessage] at hinform
    cases what <;> cases hinform

/-- So does an INFORM message, and it names the new peer. -/
theorem inform_brings {booted : List Address} (my : Address) {a : Address} (ha : a ∈ booted)
    {message : Message}
    (hparse : parseMessage ((messageOf my COMMAND_INFORM a.bytes).take MSG_MAX) = .ok message) :
    Brings (Started booted) message := by
  obtain ⟨message', hparse', hcode, hpayload, -⟩ := parse_inform my a
  rw [hparse', Except.ok.injEq] at hparse
  subst hparse
  constructor
  · intro hregister
    rw [hcode] at hregister
    cases hregister
  · intro _ address haddress
    rw [hpayload, recordAddress_bytes, Except.ok.injEq] at haddress
    exact ⟨a, ha, haddress⟩

theorem informMessages_eq {my a : Address} {network : Network}
    (hnetwork : ∀ entry ∈ network, ∃ peer : Address, peer.text = entry.1) :
    informMessages my a.text network =
      (network.filter fun entry => entry.1 ∉ [my.text, a.text]).map fun entry =>
        (entry.1, messageOf my COMMAND_INFORM a.bytes) := by
  induction network with
  | nil => rfl
  | cons entry network ih =>
    obtain ⟨peer, hpeer⟩ := hnetwork entry List.mem_cons_self
    obtain ⟨address, time⟩ := entry
    subst hpeer
    have hrest := ih fun e he => hnetwork e (List.mem_cons_of_mem _ he)
    rw [informMessages]
    by_cases hother : peer.text ∉ [my.text, a.text]
    · rw [if_pos hother, informMessage_eq, List.filter_cons_of_pos (by simpa using hother), hrest]
      rfl
    · rw [if_neg hother, List.filter_cons_of_neg (by simpa using hother), hrest]

/-- What a registration answers are the records of the list with the new peer. -/
theorem registered_payload (h : Honest w) (hnode : w.peers p = some node) {newAddress : String}
    (hnew : Started w.booted newAddress) {now : ℚ} {payload : Bytes}
    (hpayload : (registerSection newAddress now node.state.network).2 = .ok (some payload)) :
    newAddress ∉ node.state.network.map Prod.fst ∧
      ∃ addresses : List Address, (∀ a ∈ addresses, a ∈ w.booted) ∧
        addresses.map Address.text = node.state.network.map Prod.fst ++ [newAddress] ∧
        payload = recordsOf addresses := by
  obtain ⟨-, -, haddresses, -⟩ := h.nodes p node hnode
  have htexts : ∀ text ∈ node.state.network.map Prod.fst, Started w.booted text := by
    intro text htext
    obtain ⟨entry, hentry, rfl⟩ := List.mem_map.mp htext
    exact haddresses.network entry hentry
  obtain ⟨a, ha, rfl⟩ := hnew
  obtain ⟨addresses, haddresses, hbooted⟩ := exists_addresses htexts
  have hold : a.text ∉ node.state.network.map Prod.fst := by
    intro hmem
    rw [registerSection, if_pos hmem] at hpayload
    cases hpayload
  rw [registerSection_records haddresses hold] at hpayload
  cases hpayload
  refine ⟨hold, addresses ++ [a], ?_, ?_, rfl⟩
  · intro b hb
    rcases List.mem_append.mp hb with hb | hb
    · exact hbooted b hb
    · rw [List.mem_singleton.mp hb]
      exact ha
  · rw [List.map_append, haddresses]
    rfl

theorem exists_of_forall₂ {α β : Type} {R : α → β → Prop} {l : List α} {l' : List β}
    (h : List.Forall₂ R l l') {x : α} (hx : x ∈ l) : ∃ y ∈ l', R x y := by
  induction h with
  | nil => cases hx
  | cons hfirst _ ih =>
    rcases List.mem_cons.mp hx with rfl | hx
    · exact ⟨_, List.mem_cons_self, hfirst⟩
    · obtain ⟨y, hy, hrel⟩ := ih hx
      exact ⟨y, List.mem_cons_of_mem _ hy, hrel⟩

/-- The addresses in such a reply are read back. -/
theorem records_carry {addresses : List Address} {booted : List Address}
    (h : ∀ a ∈ addresses, a ∈ booted) (clock : ℕ → ℚ) :
    Carries (Started booted) (.merge (recordsOf addresses) clock) := by
  have hcount : (recordsOf addresses).length ⌈/⌉ (LEN_IP + LEN_PORT) = addresses.length := by
    rw [length_recordsOf, Nat.ceilDiv_eq_add_pred_div]
    simp only [LEN_IP, LEN_PORT]
    omega
  have hread := records_read addresses []
  rw [List.nil_append, List.length_nil, ← List.range_eq_range', ← hcount] at hread
  intro i hi address haddress
  obtain ⟨a, ha, hfound⟩ := exists_of_forall₂ hread hi
  rw [hfound, Except.ok.injEq] at haddress
  exact ⟨a, h a ha, haddress⟩

end Step

theorem honest_step {w w' : World} {label : Label} (h : Honest w) (hstep : step w label = some w') :
    Honest w' := by
  cases moves_of_step hstep with
  | boot a down =>
    have hmono : ∀ address, Started w.booted address → Started (w.booted ++ [a]) address := by
      rintro address ⟨b, hb, rfl⟩
      exact ⟨b, List.mem_append_left _ hb, rfl⟩
    have hself : a ∈ w.booted ++ [a] := List.mem_append_right _ List.mem_cons_self
    constructor
    · intro q n hn
      by_cases hq : q = a.text
      · subst hq
        change (w.set a.text _).peers a.text = some n at hn
        rw [set_peers_self, Option.some_inj] at hn
        subst hn
        exact ⟨hself, rfl, start_allAddresses ⟨a, hself, rfl⟩,
          ⟨UniqueKeys.singleton _, List.mem_singleton.mpr rfl⟩⟩
      · change (w.set a.text _).peers q = some n at hn
        rw [set_peers_other w hq] at hn
        obtain ⟨hbooted, htext, haddresses, hsound⟩ := h.nodes q n hn
        exact ⟨List.mem_append_left _ hbooted, htext, allAddresses_mono hmono haddresses, hsound⟩
    · intro r hr message hparse
      exact brings_mono hmono (h.requests r hr message hparse)
    · intro r hr
      obtain ⟨addresses, hbooted, hdata⟩ := h.replies r hr
      exact ⟨addresses, fun b hb => List.mem_append_left _ (hbooted b hb), hdata⟩
    · intro e he
      exact hmono _ (h.announcements e he)
  | stop p =>
    refine ⟨?_, h.requests, h.replies, h.announcements⟩
    intro q n hn
    by_cases hq : q = p
    · subst hq
      rw [set_peers_self] at hn
      cases hn
    · rw [set_peers_other w hq] at hn
      exact h.nodes q n hn
  | ask dest what running assembled =>
    refine ⟨h.nodes, ?_, h.replies, h.announcements⟩
    intro r hr message hparse
    rcases List.mem_append.mp hr with hr | hr
    · exact h.requests r hr message hparse
    · rw [List.mem_singleton.mp hr] at hparse
      exact ask_brings h running assembled hparse
  | receive sent running moves =>
    have hnodes := nodes_section h running moves (h.requests _ sent)
    refine ⟨hnodes, ?_, h.replies, h.announcements⟩
    intro r hr
    exact h.requests r (List.mem_of_mem_erase hr)
  | expire running moves =>
    exact ⟨nodes_section h running moves trivial, h.requests, h.replies, h.announcements⟩
  | @register p node state t now newAddress running registering moves =>
    have hnodes := nodes_section h running moves trivial
    have hnew : Started w.booted newAddress := by
      have hbrings := (h.nodes p node running).2.2.1.handlers t
      rwa [registering] at hbrings
    unfold World.registered
    split
    case h_1 payload hpayload =>
      obtain ⟨-, addresses, hall, -, hdata⟩ := registered_payload h running hnew hpayload
      refine ⟨hnodes, h.requests, ?_, ?_⟩
      · intro r hr
        rcases List.mem_append.mp hr with hr | hr
        · exact h.replies r hr
        · rw [List.mem_singleton.mp hr]
          exact ⟨addresses, hall, hdata⟩
      · intro e he
        rcases List.mem_append.mp he with he | he
        · exact h.announcements e he
        · rw [List.mem_singleton.mp he]
          exact hnew
    case h_2 => exact ⟨hnodes, h.requests, h.replies, h.announcements⟩
  | inform running moves =>
    exact ⟨nodes_section h running moves trivial, h.requests, h.replies, h.announcements⟩
  | @announce p newAddress node reached announced running =>
    obtain ⟨a, ha, rfl⟩ : Started w.booted newAddress := h.announcements _ announced
    obtain ⟨-, -, haddresses, -⟩ := h.nodes p node running
    have hnetwork : ∀ entry ∈ node.state.network, ∃ peer : Address, peer.text = entry.1 := by
      intro entry hentry
      obtain ⟨peer, -, hpeer⟩ := haddresses.network entry hentry
      exact ⟨peer, hpeer⟩
    refine ⟨h.nodes, ?_, h.replies, ?_⟩
    · intro r hr message hparse
      rcases List.mem_append.mp hr with hr | hr
      · exact h.requests r hr message hparse
      · rw [informMessages_eq hnetwork] at hr
        obtain ⟨entry, -, rfl⟩ := List.mem_map.mp (List.mem_of_mem_take hr)
        exact inform_brings node.address ha hparse
    · intro e he
      exact h.announcements e (List.mem_of_mem_erase he)
  | merge sent running moves =>
    obtain ⟨addresses, hall, hdata⟩ := h.replies _ sent
    dsimp only at hdata
    subst hdata
    refine ⟨nodes_section h running moves (records_carry hall _), h.requests, ?_, h.announcements⟩
    intro r hr
    exact h.replies r (List.mem_of_mem_erase hr)
  | loseRequest dest bytesMessage =>
    exact ⟨h.nodes, fun r hr => h.requests r (List.mem_of_mem_erase hr), h.replies, h.announcements⟩
  | loseReply dest data =>
    exact ⟨h.nodes, h.requests, fun r hr => h.replies r (List.mem_of_mem_erase hr), h.announcements⟩
  | loseAnnouncement p newAddress =>
    exact ⟨h.nodes, h.requests, h.replies, fun e he => h.announcements e (List.mem_of_mem_erase he)⟩

theorem reachable_honest {w : World} (h : Transition.Reachable system w) : Honest w := by
  refine h.invariant ?_ ?_
  · rintro _ rfl
    exact initial_honest
  · intro w w' _ hw hnext
    obtain ⟨label, hstep⟩ := hnext
    exact honest_step hw hstep

/-- Whatever is lost or delayed and whichever peers end: no list has an address twice or without a
peer that was started under it, and every registration of a new peer is answered with the records of
the whole list. -/
theorem nothing_invented {w : World} (h : Transition.Reachable system w) {p : String} {node : Node}
    (hnode : w.peers p = some node) :
    (node.state.network.map Prod.fst).Nodup ∧ (p, -1) ∈ node.state.network ∧
      (∀ entry ∈ node.state.network, ∃ a ∈ w.booted, a.text = entry.1) ∧
      ∀ t newAddress now, node.state.handlers t = .registering newAddress →
        newAddress ∉ node.state.network.map Prod.fst →
        ∃ addresses : List Address,
          registerSection newAddress now node.state.network =
            (node.state.network ++ [(newAddress, now)], .ok (some (recordsOf addresses))) ∧
          addresses.map Address.text = node.state.network.map Prod.fst ++ [newAddress] := by
  obtain ⟨-, -, haddresses, hsound⟩ := (reachable_honest h).nodes p node hnode
  refine ⟨hsound.unique, hsound.own, haddresses.network, ?_⟩
  intro t newAddress now hregistering hold
  have hnew := haddresses.handlers t
  rw [hregistering] at hnew
  obtain ⟨a, -, rfl⟩ := hnew
  have htexts : ∀ text ∈ node.state.network.map Prod.fst, Started w.booted text := by
    intro text htext
    obtain ⟨entry, hentry, rfl⟩ := List.mem_map.mp htext
    exact haddresses.network entry hentry
  obtain ⟨addresses, htexts, -⟩ := exists_addresses htexts
  refine ⟨addresses ++ [a], registerSection_records htexts hold now, ?_⟩
  rw [List.map_append, htexts]
  rfl

/-- The peers 10.0.0.1:5 and 10.0.0.2:7. -/
def first : Address where
  ip := "10.0.0.1"
  port := 5
  nonempty := by decide
  short := by decide
  ascii := List.all_iff_forall_prop.mp rfl
  noColon := by decide
  noNul := by decide
  positive := by decide
  portFits := by decide

def second : Address where
  ip := "10.0.0.2"
  port := 7
  nonempty := by decide
  short := by decide
  ascii := List.all_iff_forall_prop.mp rfl
  noColon := by decide
  noNul := by decide
  positive := by decide
  portFits := by decide

/-- The second peer registers with the first one. -/
def handshake : List Label :=
  [.boot first, .boot second, .ask "10.0.0.2:7" "10.0.0.1:5" .register,
    .receive "10.0.0.1:5" 0 [49, 48, 46, 48, 46, 48, 46, 50, 0, 0, 0, 0, 0, 0, 0, 0, 0, 0, 0, 7,
      0, 0, 0, 1, 0, 0, 0, 0],
    .expire "10.0.0.1:5" 0 100, .register "10.0.0.1:5" 0 100,
    .merge "10.0.0.2:7" [49, 48, 46, 48, 46, 48, 46, 49, 0, 0, 0, 0, 0, 0, 0, 0, 0, 0, 0, 5,
      49, 48, 46, 48, 46, 48, 46, 50, 0, 0, 0, 0, 0, 0, 0, 0, 0, 0, 0, 7] fun _ => 101,
    .announce "10.0.0.1:5" "10.0.0.2:7" 0]

def networkOf (w : World) (p : String) : Option Network := (w.peers p).map fun node => node.state.network

theorem handshake_networks :
    (handshake.foldlM step initial).map (fun w => (networkOf w "10.0.0.1:5",
      networkOf w "10.0.0.2:7")) =
      some (some [("10.0.0.1:5", -1), ("10.0.0.2:7", 100)],
        some [("10.0.0.2:7", -1), ("10.0.0.1:5", 101)]) := by
  decide +kernel

theorem nothing_invented_handshake : ∃ (w : World) (node : Node), w.peers "10.0.0.2:7" = some node ∧
    node.state.network = [("10.0.0.2:7", -1), ("10.0.0.1:5", 101)] ∧
      ∀ entry ∈ node.state.network, ∃ a ∈ w.booted, a.text = entry.1 := by
  obtain ⟨w, hrun, hnetworks⟩ := Option.map_eq_some_iff.mp handshake_networks
  obtain ⟨node, hnode, hnetwork⟩ := Option.map_eq_some_iff.mp (Prod.ext_iff.mp hnetworks).2
  exact ⟨w, node, hnode, hnetwork,
    (nothing_invented (Transition.reachable_of_run handshake (.start rfl) hrun) hnode).2.2.1⟩

end CompSys.PeerSystem
