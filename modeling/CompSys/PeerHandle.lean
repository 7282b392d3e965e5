import CompSys.PeerNetwork
import CompSys.PeerReply

/-!
# The handling of a message by the Python peer of A4

`handle` parses a message, lets old entries expire, checks the message and calls the
handler of its command. Each call of `_build_and_send_responses` puts one reply on the
connection, and the exceptions of everything before are answered by one more.
-/
namespace CompSys.Peer

open PythonText

def COMMAND_RETREIVE : Nat := 2

def STATUS_PEER_EXISTS : Nat := 2
def STATUS_BAD_REQUEST : Nat := 3
def STATUS_MALFORMED : Nat := 5

/-- What `os` says of paths, and the bytes that a file is read from. -/
structure Files where
  getcwd : String
  abspath : String → String
  pathExists : String → Bool
  isFile : String → Bool
  contents : String → Except PyError Bytes

/-- What a handler meets. `connect ip port` is what comes of connecting to a peer and sending
it a message. -/
structure Surroundings where
  sha : Sha256
  shuffle : Nat → List (Nat × Bytes) → List (Nat × Bytes)
  describe : PyError → String
  ip : String
  port : Nat
  connect : String → Nat → Except PyError Unit
  files : Files
  currentlyRetreiving : List String
  now : ℚ
  registered : ℚ
  perm_shuffle : ∀ n blocks, (shuffle n blocks).Perm blocks
  describe_short : ∀ e, (describe e).toList.length ≤ 2 ^ 20
  port_lt : port < 2 ^ 16

/-- One reply on the connection, with the messages of its blocks. -/
structure Sent where
  status : Nat
  payload : Bytes
  messages : List Bytes
  deriving DecidableEq, Repr

/-- The network list and the replies so far. -/
structure Session where
  network : Network
  sent : List Sent
  deriving DecidableEq

/-- `_build_and_send_responses`. -/
def reply (env : Surroundings) (status : Nat) (toSend : Bytes) (s : Session) :
    Session × Except PyError Unit :=
  let (messages, result) := buildAndSendResponses env.sha (env.shuffle s.sent.length) status toSend
  let sent := if messages = [] then s.sent else s.sent ++ [⟨status, toSend, messages⟩]
  ({ s with sent }, result)

def handleError (env : Surroundings) (status : Nat) (msgStr : String) (s : Session) :
    Session × Except PyError Unit :=
  reply env status (encode msgStr) s

def assembleMessage (ip : String) (port code : Nat) (request : Bytes) : Except PyError Bytes := do
  let portField ← pack port
  let codeField ← pack code
  let lengthField ← pack request.length
  return padIp ip.toList ++ portField ++ codeField ++ lengthField ++ request

/-- `ip, port = peer.split(':')`. -/
def splitPeer (peer : String) : Except PyError (List Char × List Char) :=
  match peer.toList.splitOn ':' with
  | [ip, port] => .ok (ip, port)
  | _ => .error .valueError

/-- One round of the loop that informs the network. The loop that made the payload has left
`ip` and `port` at its last entry, which is the new one. -/
def informPeer (env : Surroundings) (newAddress peer : String) : Except PyError Unit := do
  let (peerIp, peerPort) ← splitPeer peer
  let msg ← packPeer newAddress
  let number ← parseInt peerPort
  let _ ← assembleMessage env.ip env.port COMMAND_INFORM msg
  env.connect (String.ofList peerIp) number

def myAddress (env : Surroundings) : String := addressOf env.ip env.port

/-- `for peer, _ in network`, up to the first exception. -/
def informLoop (env : Surroundings) (newAddress : String) : List Entry → Except PyError Unit
  | [] => .ok ()
  | (peer, _) :: entries =>
    if peer ∉ [myAddress env, newAddress] then do
      informPeer env newAddress peer
      informLoop env newAddress entries
    else informLoop env newAddress entries

/-- `_register`. -/
def register (env : Surroundings) (ip : String) (port : Nat) (s : Session) :
    Session × Except PyError Unit :=
  if ip = "" then handleError env STATUS_BAD_REQUEST "Cannot register empty username" s
  else if port = 0 then handleError env STATUS_BAD_REQUEST "Cannot register empty port" s
  else
    let newAddress := addressOf ip port
    let (network, payload) := registerSection newAddress env.registered s.network
    match payload with
    | .error e => ({ s with network }, .error e)
    | .ok none =>
      handleError env STATUS_PEER_EXISTS
        s!"Cannot register peer '{newAddress}', already exists" { s with network }
    | .ok (some payload) =>
      match reply env STATUS_OK payload { s with network } with
      | (s, .error e) => (s, .error e)
      | (s, .ok ()) => (s, informLoop env newAddress s.network)

/-- `_add_to_network`. -/
def addToNetwork (env : Surroundings) (bytesMessage : Bytes) (s : Session) :
    Session × Except PyError Unit :=
  match recordAddress bytesMessage 0 with
  | .error e => (s, .error e)
  | .ok address => ({ s with network := informSection address env.registered s.network }, .ok ())

/-- `_handle_request`. -/
def handleRequest (env : Surroundings) (request : Bytes) (s : Session) :
    Session × Except PyError Unit :=
  match decodeUtf8 request with
  | .error e => (s, .error e)
  | .ok getPath =>
    let absolutePath := env.files.abspath getPath
    if ¬ env.files.getcwd.toList <+: absolutePath.toList then
      handleError env STATUS_BAD_REQUEST s!"Cannot access file at {getPath}" s
    else if ¬ env.files.pathExists absolutePath then
      handleError env STATUS_BAD_REQUEST s!"Requested content {getPath} does not exist" s
    else if ¬ env.files.isFile absolutePath then
      handleError env STATUS_BAD_REQUEST s!"Request URI {getPath} is not a file" s
    else if getPath ∈ env.currentlyRetreiving then
      handleError env STATUS_BAD_REQUEST s!"Requested content {getPath} is not yet complete." s
    else
      match env.files.contents absolutePath with
      | .error e => (s, .error e)
      | .ok content =>
        match readText content with
        | .error e => (s, .error e)
        | .ok data => reply env STATUS_OK (encode data) s

/-- The body of the `try` statement of `handle`. -/
def handleBody (env : Surroundings) (bytesMessage : Bytes) (s : Session) :
    Session × Except PyError Unit :=
  match parseMessage (bytesMessage.take MSG_MAX) with
  | .error e => (s, .error e)
  | .ok message =>
    let network := expirySection (addressOf message.ip message.port) env.now s.network
    let s := { s with network }
    if message.payload.length ≠ message.payloadLength then
      handleError env STATUS_MALFORMED
        "Malformed request. Length of request does not match given length" s
    else if message.code ∉ [COMMAND_REGISTER, COMMAND_RETREIVE, COMMAND_INFORM] then
      handleError env STATUS_MALFORMED "Request does not define valid command" s
    else if message.code = COMMAND_REGISTER then register env message.ip message.port s
    else if message.code = COMMAND_INFORM then addToNetwork env message.payload s
    else handleRequest env message.payload s

def handle (env : Surroundings) (bytesMessage : Bytes) (s : Session) : Session :=
  match handleBody env bytesMessage s with
  | (s, .ok ()) => s
  | (s, .error e) =>
    (handleError env STATUS_OTHER s!"Something went wrong. {env.describe e}" s).1

/-! ## One reply -/

/-- All blocks of the payload, in some order, with one status. -/
def Complete (sha : Sha256) (r : Sent) : Prop :=
  ∃ blocks : List (Nat × Bytes), blocks.Perm (makeBlocks r.payload).2 ∧
    r.messages = blocks.map
      (blockMessage sha r.status (makeBlocks r.payload).1 (sha.digest r.payload))

/-- What a reply does: it goes out whole, or nothing of it does. -/
theorem reply_cases (env : Surroundings) (status : Nat) (hstatus : status < 2 ^ 32)
    (toSend : Bytes) (s : Session) :
    ((makeBlocks toSend).1 < 2 ^ 32 ∧
      ∃ messages, Complete env.sha ⟨status, toSend, messages⟩ ∧
        reply env status toSend s = ({ s with sent := s.sent ++ [⟨status, toSend, messages⟩] }, .ok ())) ∨
      ¬(makeBlocks toSend).1 < 2 ^ 32 ∧ ∃ e, reply env status toSend s = (s, .error e) := by
  have hperm := env.perm_shuffle s.sent.length
  by_cases hcount : (makeBlocks toSend).1 < 2 ^ 32
  case pos =>
    have hbuild := buildAndSendResponses_eq env.sha hperm hstatus hcount
    obtain ⟨messages, hmessages⟩ : ∃ messages, messages =
        (env.shuffle s.sent.length (makeBlocks toSend).2).map
          (blockMessage env.sha status (makeBlocks toSend).1 (env.sha.digest toSend)) := ⟨_, rfl⟩
    have hne : messages ≠ [] := by
      rw [hmessages, ne_eq, List.map_eq_nil_iff]
      exact ne_nil_of_perm (hperm _)
    rw [← hmessages] at hbuild
    refine .inl ⟨hcount, messages, ⟨_, hperm _, hmessages⟩, ?_⟩
    rw [reply, hbuild]
    simp only [if_neg hne]
  case neg =>
    obtain ⟨e, hbuild⟩ := buildAndSendResponses_long env.sha status hperm hcount
    refine .inr ⟨hcount, e, ?_⟩
    rw [reply, hbuild]
    rfl

theorem fits_of_length {msgStr : String} (h : msgStr.toList.length ≤ 2 ^ 24) :
    (makeBlocks (encode msgStr)).1 < 2 ^ 32 := by
  have hle := (makeBlocks_splits (encode msgStr)).count_le
  have hbytes := length_encode_le msgStr
  omega

/-- An error with a text of reasonable length is sent. -/
theorem handleError_sent (env : Surroundings) (status : Nat) (hstatus : status < 2 ^ 32)
    (msgStr : String) (h : msgStr.toList.length ≤ 2 ^ 24) (s : Session) :
    ∃ r, Complete env.sha r ∧ (r.status = status ∧ r.payload = encode msgStr) ∧
      handleError env status msgStr s = ({ s with sent := s.sent ++ [r] }, .ok ()) := by
  rcases reply_cases env status hstatus (encode msgStr) s with ⟨-, messages, hcomplete, hreply⟩ | ⟨hlong, -⟩
  · exact ⟨_, hcomplete, ⟨rfl, rfl⟩, hreply⟩
  · exact absurd (fits_of_length h) hlong

/-- So far one reply has been sent, or an exception is on its way that will be answered. -/
def Once (sha : Sha256) (x : Session × Except PyError Unit) : Prop :=
  (∃ r, x.1.sent = [r] ∧ Complete sha r) ∧ x.2 = .ok () ∨ x.1.sent = [] ∧ ∃ e, x.2 = .error e

/-- A reply has been sent, and an exception is on its way. -/
def Twice (x : Session × Except PyError Unit) : Prop :=
  (∃ r, x.1.sent = [r]) ∧ ∃ e, x.2 = .error e

theorem Once.error {env : Surroundings} {s : Session} (h : s.sent = []) {status : Nat}
    (hstatus : status < 2 ^ 32) {msgStr : String} (hlength : msgStr.toList.length ≤ 2 ^ 24) :
    Once env.sha (handleError env status msgStr s) := by
  obtain ⟨r, hcomplete, -, hsent⟩ := handleError_sent env status hstatus msgStr hlength s
  rw [hsent]
  exact .inl ⟨⟨r, by rw [h]; rfl, hcomplete⟩, rfl⟩

theorem Once.reply {env : Surroundings} {s : Session} (h : s.sent = []) (toSend : Bytes) :
    Once env.sha (reply env STATUS_OK toSend s) := by
  rcases reply_cases env STATUS_OK (by decide) toSend s with
    ⟨-, messages, hcomplete, hreply⟩ | ⟨-, e, hreply⟩
  · rw [hreply]
    exact .inl ⟨⟨_, by rw [h]; rfl, hcomplete⟩, rfl⟩
  · rw [hreply]
    exact .inr ⟨h, e, rfl⟩

theorem Once.raised {sha : Sha256} {s : Session} (h : s.sent = []) (e : PyError) :
    Once sha (s, .error e) := .inr ⟨h, e, rfl⟩

theorem handleRequest_once (env : Surroundings) {request : Bytes}
    (hrequest : request.length ≤ MSG_MAX) {s : Session} (h : s.sent = []) :
    Once env.sha (handleRequest env request s) := by
  unfold handleRequest
  split
  case h_1 e _ => exact .raised h e
  case h_2 getPath hpath =>
    have hchars : getPath.toList.length ≤ 8196 := by
      have hbytes := length_le_length_encode getPath
      rw [encode_of_decodeUtf8 hpath] at hbytes
      exact hbytes.trans hrequest
    simp only
    split
    · exact .error h (by decide) (by simp [toString]; omega)
    · split
      · exact .error h (by decide) (by simp [toString]; omega)
      · split
        · exact .error h (by decide) (by simp [toString]; omega)
        · split
          · exact .error h (by decide) (by simp [toString]; omega)
          · split
            case h_1 e _ => exact .raised h e
            case h_2 content _ =>
              split
              case h_1 e _ => exact .raised h e
              case h_2 data _ => exact .reply h _

/-! ## Registration -/

/-- Connecting to the peer at the address and sending it a message works. -/
def CanInform (env : Surroundings) (peer : String) : Prop :=
  ∃ peerIp peerPort number, splitPeer peer = .ok (peerIp, peerPort) ∧
    parseInt peerPort = .ok number ∧ env.connect (String.ofList peerIp) number = .ok ()

theorem length_padIp_le (ip : List Char) : (padIp ip).length ≤ 64 := by
  rw [padIp_eq_encode]
  have hbytes := length_encode_le
    (String.ofList ((ip.take LEN_IP).rightpad LEN_IP (Char.ofNat 0)))
  have htake := List.length_take_le LEN_IP ip
  rw [String.toList_ofList, List.length_rightpad] at hbytes
  have hip : LEN_IP = 16 := rfl
  omega

theorem length_packPeer_le {peer : String} {record : Bytes} (h : packPeer peer = .ok record) :
    record.length ≤ 68 := by
  unfold packPeer at h
  split at h
  case h_1 ip port _ =>
    obtain ⟨number, -, h⟩ := ok_of_bind h
    obtain ⟨portField, hport, h⟩ := ok_of_bind h
    cases h
    have hip := length_padIp_le ip
    unfold pack at hport
    split at hport
    · cases hport
      rw [List.length_append, BigEndian.length_encode]
      omega
    · cases hport
  case h_2 => cases h

theorem assembleMessage_eq (ip : String) {port code : Nat} {request : Bytes} (hport : port < 2 ^ 32)
    (hcode : code < 2 ^ 32) (hrequest : request.length < 2 ^ 32) :
    assembleMessage ip port code request = .ok (padIp ip.toList ++ BigEndian.encode 4 port ++
      BigEndian.encode 4 code ++ BigEndian.encode 4 request.length ++ request) := by
  rw [assembleMessage, pack_eq hport, pack_eq hcode, pack_eq hrequest]
  rfl

theorem assembleMessage_ok (env : Surroundings) (request : Bytes) (h : request.length < 2 ^ 32) :
    ∃ message, assembleMessage env.ip env.port COMMAND_INFORM request = .ok message := by
  have hport := env.port_lt
  exact ⟨_, assembleMessage_eq env.ip (by omega) (by decide) h⟩

theorem informPeer_iff (env : Surroundings) {newAddress : String} (peer : String) {record : Bytes}
    (hrecord : packPeer newAddress = .ok record) :
    informPeer env newAddress peer = .ok () ↔ CanInform env peer := by
  have hlength := length_packPeer_le hrecord
  obtain ⟨message, hmessage⟩ := assembleMessage_ok env record (by omega)
  constructor
  · intro h
    obtain ⟨⟨peerIp, peerPort⟩, hsplit, h⟩ := ok_of_bind h
    obtain ⟨_, -, h⟩ := ok_of_bind h
    obtain ⟨number, hnumber, h⟩ := ok_of_bind h
    obtain ⟨_, -, h⟩ := ok_of_bind h
    exact ⟨peerIp, peerPort, number, hsplit, hnumber, h⟩
  · intro ⟨peerIp, peerPort, number, hsplit, hnumber, hconnect⟩
    rw [informPeer, hsplit]
    simp only [bind, Except.bind, hrecord, hnumber, hmessage, hconnect]

/-- The loop ends well exactly if it can inform every peer that it tries. -/
theorem informLoop_iff {env : Surroundings} {newAddress : String} {record : Bytes}
    (hrecord : packPeer newAddress = .ok record) (entries : List Entry) :
    informLoop env newAddress entries = .ok () ↔
      ∀ entry ∈ entries, entry.1 ∉ [myAddress env, newAddress] → CanInform env entry.1 := by
  induction entries with
  | nil => exact iff_of_true rfl fun entry hentry => absurd hentry List.not_mem_nil
  | cons entry entries ih =>
    obtain ⟨peer, time⟩ := entry
    rw [informLoop, List.forall_mem_cons, ← ih]
    by_cases hother : peer ∉ [myAddress env, newAddress]
    · rw [if_pos hother]
      have hpeer := informPeer_iff env peer hrecord
      constructor
      · intro h
        obtain ⟨_, hinformed, hrest⟩ := ok_of_bind h
        exact ⟨fun _ => hpeer.mp hinformed, hrest⟩
      · intro ⟨h, hrest⟩
        rw [hpeer.mpr (h hother)]
        exact hrest
    · rw [if_neg hother]
      exact ⟨fun h => ⟨fun hnot => absurd hnot hother, h⟩, fun h => h.2⟩

/-- The peer is new, and the reply with the list of all peers can be sent. -/
structure Accepts (env : Surroundings) (network : Network) (ip : String) (port : Nat) : Prop where
  ipGiven : ip ≠ ""
  portGiven : port ≠ 0
  new : addressOf ip port ∉ network.map Prod.fst
  records : ∃ records, ((network ++ [(addressOf ip port, env.registered)]).mapM
    fun entry => packPeer entry.1) = .ok records ∧ (makeBlocks records.flatten).1 < 2 ^ 32

/-- What the section of `_register` comes to. -/
theorem registerSection_cases (newAddress : String) (now : ℚ) (network : Network) :
    (newAddress ∈ network.map Prod.fst ∧
      registerSection newAddress now network = (network, .ok none)) ∨
    newAddress ∉ network.map Prod.fst ∧
      ((∃ e, ((network ++ [(newAddress, now)]).mapM fun entry => packPeer entry.1) = .error e ∧
        registerSection newAddress now network = (network ++ [(newAddress, now)], .error e)) ∨
      ∃ records, ((network ++ [(newAddress, now)]).mapM fun entry => packPeer entry.1) =
          .ok records ∧
        registerSection newAddress now network =
          (network ++ [(newAddress, now)], .ok (some records.flatten))) := by
  by_cases hold : newAddress ∈ network.map Prod.fst
  case pos => exact .inl ⟨hold, if_pos hold⟩
  case neg =>
    refine .inr ⟨hold, ?_⟩
    rw [registerSection, if_neg hold]
    cases hrecords : (network ++ [(newAddress, now)]).mapM fun entry => packPeer entry.1 with
    | error e =>
      simp only [hrecords]
      exact .inl ⟨e, rfl, rfl⟩
    | ok records =>
      simp only [hrecords]
      exact .inr ⟨records, rfl, rfl⟩

theorem packPeer_new {network : Network} {entry : Entry} {records : List Bytes}
    (h : ((network ++ [entry]).mapM fun entry => packPeer entry.1) = .ok records) :
    ∃ record, packPeer entry.1 = .ok record := by
  rw [List.mapM_append] at h
  obtain ⟨_, -, h⟩ := ok_of_bind h
  obtain ⟨_, h, -⟩ := ok_of_bind h
  rw [List.mapM_cons] at h
  obtain ⟨record, hrecord, -⟩ := ok_of_bind h
  exact ⟨record, hrecord⟩

/-- The new peer itself is not informed. -/
theorem informLoop_network (env : Surroundings) {newAddress : String} {record : Bytes}
    (hrecord : packPeer newAddress = .ok record) {network : Network}
    (hnew : newAddress ∉ network.map Prod.fst) (now : ℚ) :
    informLoop env newAddress (network ++ [(newAddress, now)]) = .ok () ↔
      ∀ entry ∈ network, entry.1 ≠ myAddress env → CanInform env entry.1 := by
  rw [informLoop_iff hrecord]
  constructor
  · intro h entry hentry hother
    refine h entry (List.mem_append_left _ hentry) ?_
    have hne : entry.1 ≠ newAddress := fun heq => hnew (heq ▸ List.mem_map_of_mem hentry)
    simp only [List.mem_pair, hother, hne, or_self, not_false_eq_true]
  · intro h entry hentry hother
    rw [List.mem_pair, not_or] at hother
    rcases List.mem_append.mp hentry with hold | hlast
    · exact h entry hold hother.1
    · rw [List.mem_singleton.mp hlast] at hother
      exact absurd rfl hother.2

theorem length_addressOf_le {ip : String} {port : Nat} (hip : ip.toList.length ≤ 16)
    (hport : port < 2 ^ 32) : (addressOf ip port).toList.length ≤ 32 := by
  have hdigits : (Nat.toDigits 10 port).length ≤ 10 :=
    (Nat.length_toDigits_le_iff (by decide) (by decide)).mpr (by omega)
  rw [toList_addressOf, List.length_append, List.length_cons]
  omega

/-- The one way to a second reply: the first one has told a new peer that it is registered,
and another one cannot be informed. -/
theorem register_once_iff (env : Surroundings) {ip : String} {port : Nat}
    (hip : ip.toList.length ≤ 16) (hport : port < 2 ^ 32) {s : Session} (h : s.sent = []) :
    (Once env.sha (register env ip port s) ∧
      (Accepts env s.network ip port →
        ∀ entry ∈ s.network, entry.1 ≠ myAddress env → CanInform env entry.1)) ∨
    (Twice (register env ip port s) ∧ Accepts env s.network ip port ∧
      ¬∀ entry ∈ s.network, entry.1 ≠ myAddress env → CanInform env entry.1) := by
  unfold register
  split
  case isTrue hempty =>
    exact .inl ⟨.error h (by decide) (by decide), fun haccepts => absurd hempty haccepts.ipGiven⟩
  case isFalse hipGiven =>
    split
    case isTrue hempty =>
      exact .inl ⟨.error h (by decide) (by decide), fun haccepts => absurd hempty haccepts.portGiven⟩
    case isFalse hportGiven =>
      have hshort := length_addressOf_le hip hport
      rcases registerSection_cases (addressOf ip port) env.registered s.network with
        ⟨hold, hsection⟩ | ⟨hnew, ⟨e, herror, hsection⟩ | ⟨records, hrecords, hsection⟩⟩
      · simp only [hsection]
        refine .inl ⟨.error h (by decide) (by simp [toString]; omega), ?_⟩
        exact fun haccepts => absurd hold haccepts.new
      · simp only [hsection]
        refine .inl ⟨.raised h e, fun haccepts => ?_⟩
        obtain ⟨records, hrecords, -⟩ := haccepts.records
        rw [herror] at hrecords
        cases hrecords
      · simp only [hsection]
        obtain ⟨record, hrecord⟩ := packPeer_new hrecords
        have hinform := informLoop_network env hrecord hnew env.registered
        rcases reply_cases env STATUS_OK (by decide) records.flatten
            { s with network := s.network ++ [(addressOf ip port, env.registered)] } with
          ⟨hcount, messages, hcomplete, hreply⟩ | ⟨hlong, e, hreply⟩
        · simp only [hreply]
          rw [h]
          cases hresult : informLoop env (addressOf ip port)
              (s.network ++ [(addressOf ip port, env.registered)]) with
          | ok _ => exact .inl ⟨.inl ⟨⟨_, rfl, hcomplete⟩, rfl⟩, fun _ => hinform.mp hresult⟩
          | error e =>
            refine .inr ⟨⟨⟨_, rfl⟩, e, rfl⟩, ?_, fun hall => ?_⟩
            · exact ⟨hipGiven, hportGiven, hnew, records, hrecords, hcount⟩
            · rw [hinform.mpr hall] at hresult
              cases hresult
        · simp only [hreply]
          refine .inl ⟨.raised h e, fun haccepts => ?_⟩
          obtain ⟨records', hrecords', hfits⟩ := haccepts.records
          rw [hrecords] at hrecords'
          cases hrecords'
          exact absurd hfits hlong

/-! ## Whole messages -/

/-- What is known of the fields of a message. -/
structure Fields (bytesMessage : Bytes) (message : Message) : Prop where
  ip : message.ip.toList.length ≤ 16
  port : message.port < 2 ^ 32
  code : unpack (slice bytesMessage (LEN_IP + LEN_PORT) (LEN_IP + LEN_PORT + LEN_COMMAND_LENGTH)) =
    .ok message.code
  payload : message.payload.length ≤ bytesMessage.length

theorem unpack_lt {b : Bytes} {n : Nat} (h : unpack b = .ok n) : n < 2 ^ 32 := by
  unfold unpack at h
  split at h
  case isTrue hlength =>
    cases h
    have hlt := BigEndian.decode_lt b
    rw [hlength] at hlt
    exact hlt
  case isFalse => cases h

theorem parseMessage_fields {bytesMessage : Bytes} {message : Message}
    (h : parseMessage bytesMessage = .ok message) : Fields bytesMessage message := by
  obtain ⟨port, hport, h⟩ := ok_of_bind h
  obtain ⟨code, hcode, h⟩ := ok_of_bind h
  obtain ⟨payloadLength, -, h⟩ := ok_of_bind h
  obtain ⟨ip, hip, h⟩ := ok_of_bind h
  cases h
  constructor
  · have hchars := length_le_length_encode ip
    rw [encode_of_decodeUtf8 hip] at hchars
    have hslice : (slice bytesMessage 0 LEN_IP).length ≤ 16 := by
      rw [slice, List.drop_zero]
      exact List.length_take_le 16 bytesMessage
    exact (length_stripNul_le ip).trans (hchars.trans hslice)
  · exact unpack_lt hport
  · exact hcode
  · simp only [slice, List.length_drop, List.length_take]
    omega

/-- The command field of a message is COMMAND_INFORM. -/
def CarriesInform (bytesMessage : Bytes) : Prop :=
  unpack (slice (bytesMessage.take MSG_MAX) (LEN_IP + LEN_PORT)
    (LEN_IP + LEN_PORT + LEN_COMMAND_LENGTH)) = .ok COMMAND_INFORM

/-- The message has the length it gives and starts with the record of an address. -/
def WellFormed (bytesMessage : Bytes) : Prop :=
  ∃ message address, parseMessage (bytesMessage.take MSG_MAX) = .ok message ∧
    message.payload.length = message.payloadLength ∧
    recordAddress message.payload 0 = .ok address

/-- The session after the sender's section of `handle`. -/
def expired (env : Surroundings) (message : Message) (s : Session) : Session :=
  { s with network := expirySection (addressOf message.ip message.port) env.now s.network }

/-- The entries that are left after a message, by the time at which they were added. -/
def left (env : Surroundings) (message : Message) (network : Network) : Network :=
  survivors (addressOf message.ip message.port) env.now network

theorem expired_network (env : Surroundings) (message : Message) (s : Session) :
    (expired env message s).network = left env message s.network :=
  expirySection_eq _ _ _

/-- A message with COMMAND_INFORM is well formed, and when a new peer is accepted, the other
listed ones can be informed. -/
structure Orderly (env : Surroundings) (network : Network) (bytesMessage : Bytes) : Prop where
  informs : CarriesInform bytesMessage → WellFormed bytesMessage
  registers : ∀ message, parseMessage (bytesMessage.take MSG_MAX) = .ok message →
    message.payload.length = message.payloadLength → message.code = COMMAND_REGISTER →
    Accepts env (left env message network) message.ip message.port →
    ∀ entry ∈ left env message network, entry.1 ≠ myAddress env → CanInform env entry.1

/-- What has been sent once is followed by no other reply. -/
theorem Once.handle {env : Surroundings} {bytesMessage : Bytes} {s : Session}
    (h : Once env.sha (handleBody env bytesMessage s)) :
    ∃ r, (handle env bytesMessage s).sent = [r] ∧ Complete env.sha r := by
  unfold Peer.handle
  split
  case h_1 s' heq =>
    rw [heq] at h
    rcases h with ⟨hsent, -⟩ | ⟨-, e, herror⟩
    · exact hsent
    · cases herror
  case h_2 s' e heq =>
    rw [heq] at h
    have hshort := env.describe_short e
    obtain ⟨r, hcomplete, -, hsent⟩ := handleError_sent env STATUS_OTHER (by decide)
      s!"Something went wrong. {env.describe e}" (by simp [toString]; omega) s'
    rcases h with ⟨-, hok⟩ | ⟨hnone, -⟩
    · cases hok
    · rw [hsent]
      exact ⟨r, congrArg (· ++ [r]) hnone, hcomplete⟩

theorem Twice.handle {env : Surroundings} {bytesMessage : Bytes} {s : Session}
    (h : Twice (handleBody env bytesMessage s)) :
    ∃ r r', (handle env bytesMessage s).sent = [r, r'] := by
  unfold Peer.handle
  split
  case h_1 s' heq =>
    rw [heq] at h
    obtain ⟨-, e, herror⟩ := h
    cases herror
  case h_2 s' e heq =>
    rw [heq] at h
    have hshort := env.describe_short e
    obtain ⟨r', -, -, hsent⟩ := handleError_sent env STATUS_OTHER (by decide)
      s!"Something went wrong. {env.describe e}" (by simp [toString]; omega) s'
    obtain ⟨⟨r, hr⟩, -⟩ := h
    rw [hsent]
    exact ⟨r, r', congrArg (· ++ [r']) hr⟩

section Dispatch

variable (env : Surroundings) {bytesMessage : Bytes} {message : Message} (s : Session)

theorem handleBody_malformed (hparse : parseMessage (bytesMessage.take MSG_MAX) = .ok message)
    (hlength : message.payload.length ≠ message.payloadLength) :
    handleBody env bytesMessage s = handleError env STATUS_MALFORMED
      "Malformed request. Length of request does not match given length"
      (expired env message s) := by
  rw [handleBody, hparse]
  exact if_pos hlength

theorem handleBody_command (hparse : parseMessage (bytesMessage.take MSG_MAX) = .ok message)
    (hlength : message.payload.length = message.payloadLength) :
    handleBody env bytesMessage s =
      if message.code ∉ [COMMAND_REGISTER, COMMAND_RETREIVE, COMMAND_INFORM] then
        handleError env STATUS_MALFORMED "Request does not define valid command"
          (expired env message s)
      else if message.code = COMMAND_REGISTER then
        register env message.ip message.port (expired env message s)
      else if message.code = COMMAND_INFORM then
        addToNetwork env message.payload (expired env message s)
      else handleRequest env message.payload (expired env message s) := by
  rw [handleBody, hparse]
  exact if_neg (not_not.mpr hlength)

theorem handleBody_register (hparse : parseMessage (bytesMessage.take MSG_MAX) = .ok message)
    (hlength : message.payload.length = message.payloadLength)
    (hcode : message.code = COMMAND_REGISTER) :
    handleBody env bytesMessage s =
      register env message.ip message.port (expired env message s) := by
  rw [handleBody_command env s hparse hlength, hcode]
  rfl

theorem handleBody_addToNetwork (hparse : parseMessage (bytesMessage.take MSG_MAX) = .ok message)
    (hlength : message.payload.length = message.payloadLength)
    (hcode : message.code = COMMAND_INFORM) :
    handleBody env bytesMessage s = addToNetwork env message.payload (expired env message s) := by
  rw [handleBody_command env s hparse hlength, hcode]
  rfl

end Dispatch

/-- A message that informs is answered only when something is wrong with it. -/
theorem handleBody_informs (env : Surroundings) {bytesMessage : Bytes}
    (hcarries : CarriesInform bytesMessage) {s : Session} (h : s.sent = []) :
    (WellFormed bytesMessage ∧ (handle env bytesMessage s).sent = []) ∨
      (¬WellFormed bytesMessage ∧ Once env.sha (handleBody env bytesMessage s)) := by
  cases hparse : parseMessage (bytesMessage.take MSG_MAX) with
  | error e =>
    right
    constructor
    · intro ⟨message, address, hparsed, _⟩
      rw [hparse] at hparsed
      cases hparsed
    · rw [handleBody, hparse]
      exact .raised h e
  | ok message =>
    have hstart : (expired env message s).sent = [] := h
    by_cases hlength : message.payload.length = message.payloadLength
    case neg =>
      right
      constructor
      · intro ⟨message', address, hparsed, hlength', _⟩
        rw [hparse] at hparsed
        cases hparsed
        exact hlength hlength'
      · rw [handleBody_malformed env s hparse hlength]
        exact .error hstart (by decide) (by decide)
    case pos =>
      have hcode : message.code = COMMAND_INFORM :=
        Except.ok.inj ((parseMessage_fields hparse).code.symm.trans hcarries)
      have hbody := handleBody_addToNetwork env s hparse hlength hcode
      cases haddress : recordAddress message.payload 0 with
      | error e =>
        right
        constructor
        · intro ⟨message', address, hparsed, _, hrecord⟩
          rw [hparse] at hparsed
          cases hparsed
          rw [haddress] at hrecord
          cases hrecord
        · rw [hbody, addToNetwork, haddress]
          exact .raised h e
      | ok address =>
        left
        refine ⟨⟨message, address, hparse, hlength, haddress⟩, ?_⟩
        rw [handle, hbody, addToNetwork, haddress]
        exact h

/-- Any other message is answered once, unless it registers a peer of which another one
cannot be informed. -/
theorem handleBody_others (env : Surroundings) {bytesMessage : Bytes}
    (hcarries : ¬CarriesInform bytesMessage) {s : Session} (h : s.sent = []) :
    (Once env.sha (handleBody env bytesMessage s) ∧ Orderly env s.network bytesMessage) ∨
      (Twice (handleBody env bytesMessage s) ∧ ¬Orderly env s.network bytesMessage) := by
  have hinforms : CarriesInform bytesMessage → WellFormed bytesMessage :=
    fun hinform => absurd hinform hcarries
  cases hparse : parseMessage (bytesMessage.take MSG_MAX) with
  | error e =>
    left
    constructor
    · rw [handleBody, hparse]
      exact .raised h e
    · refine ⟨hinforms, fun message hparsed => ?_⟩
      rw [hparse] at hparsed
      cases hparsed
  | ok message =>
    have hfields := parseMessage_fields hparse
    have hstart : (expired env message s).sent = [] := h
    have hregisters : (message.payload.length = message.payloadLength →
        message.code = COMMAND_REGISTER →
        Accepts env (left env message s.network) message.ip message.port →
        ∀ entry ∈ left env message s.network, entry.1 ≠ myAddress env → CanInform env entry.1) → Orderly env s.network bytesMessage := by
      intro hall
      refine ⟨hinforms, fun message' hparsed => ?_⟩
      rw [hparse] at hparsed
      cases hparsed
      exact hall
    by_cases hlength : message.payload.length = message.payloadLength
    case neg =>
      left
      constructor
      · rw [handleBody_malformed env s hparse hlength]
        exact .error hstart (by decide) (by decide)
      · exact hregisters fun hlength' => absurd hlength' hlength
    case pos =>
      by_cases hregister : message.code = COMMAND_REGISTER
      case pos =>
        rw [handleBody_register env s hparse hlength hregister]
        have honce := register_once_iff env hfields.ip hfields.port hstart
        rw [expired_network] at honce
        rcases honce with ⟨honce, hall⟩ | ⟨htwice, haccepts, hnot⟩
        · exact .inl ⟨honce, hregisters fun _ _ => hall⟩
        · refine .inr ⟨htwice, fun horderly => hnot ?_⟩
          exact horderly.registers message hparse hlength hregister haccepts
      case neg =>
        left
        constructor
        · have hinform : message.code ≠ COMMAND_INFORM := by
            intro hcode
            exact hcarries (hfields.code.trans (congrArg Except.ok hcode))
          rw [handleBody_command env s hparse hlength]
          split
          case isTrue => exact .error hstart (by decide) (by decide)
          case isFalse =>
            exact handleRequest_once env (hfields.payload.trans (List.length_take_le _ _)) hstart
        · exact hregisters fun _ hcode => absurd hcode hregister

/-- The replies are as many as they should be exactly if the message is orderly: none to a
message that informs, and one to every other message. -/
theorem handle_replies_iff (env : Surroundings) (network : Network) (bytesMessage : Bytes) :
    ((CarriesInform bytesMessage → (handle env bytesMessage ⟨network, []⟩).sent = []) ∧
      (¬CarriesInform bytesMessage →
        ∃ r, (handle env bytesMessage ⟨network, []⟩).sent = [r] ∧ Complete env.sha r)) ↔
    Orderly env network bytesMessage := by
  by_cases hcarries : CarriesInform bytesMessage
  case pos =>
    rcases handleBody_informs env hcarries (s := ⟨network, []⟩) rfl with
      ⟨hwell, hsent⟩ | ⟨hill, honce⟩
    · refine iff_of_true ⟨fun _ => hsent, fun hnot => absurd hcarries hnot⟩ ⟨fun _ => hwell, ?_⟩
      intro message hparsed _ hregister
      have heq := Except.ok.inj ((parseMessage_fields hparsed).code.symm.trans hcarries)
      rw [hregister] at heq
      exact absurd heq (by decide)
    · obtain ⟨r, hsent, -⟩ := honce.handle
      refine iff_of_false ?_ fun h => hill (h.informs hcarries)
      intro ⟨hnone, _⟩
      rw [hnone hcarries] at hsent
      cases hsent
  case neg =>
    rcases handleBody_others env hcarries (s := ⟨network, []⟩) rfl with
      ⟨honce, horderly⟩ | ⟨htwice, hdisorderly⟩
    · exact iff_of_true ⟨fun h => absurd h hcarries, fun _ => honce.handle⟩ horderly
    · obtain ⟨r, r', hsent⟩ := htwice.handle
      refine iff_of_false ?_ hdisorderly
      intro ⟨_, hone⟩
      obtain ⟨r'', hsent', -⟩ := hone hcarries
      rw [hsent] at hsent'
      cases hsent'

section Unreachable

theorem samplePort_lt : 5 < 2 ^ 16 := by decide

theorem unshuffled_perm (_ : Nat) (blocks : List (Nat × Bytes)) : blocks.Perm blocks := .refl _

theorem noText_short (_ : PyError) : "".toList.length ≤ 2 ^ 20 := by decide

/-- A peer at 10.0.0.1:5 that cannot connect to any other peer. SHA-256 is used on its answer
to a third peer and on the text of the exception. -/
def unreachable : Surroundings where
  sha := {
    digest := fun data =>
      if data = encode "Something went wrong. [Errno 111] Connection refused" then
        [0x6e, 0x9b, 0x0f, 0x50, 0xee, 0x3f, 0x20, 0x17, 0x43, 0xfd, 0x99, 0x67, 0x32, 0x6f,
          0x5d, 0x64, 0x70, 0xec, 0x6a, 0xb4, 0xe9, 0x9f, 0x81, 0xb5, 0xf4, 0xb1, 0xef, 0x3b,
          0xb0, 0x7d, 0x49, 0xfb]
      else
        [0x23, 0x47, 0x32, 0xbb, 0x03, 0xdd, 0x70, 0x7a, 0x90, 0x6f, 0xca, 0xa5, 0x5f, 0xda,
          0xe3, 0x6c, 0x74, 0x44, 0x42, 0x8e, 0xa0, 0xce, 0x06, 0xd5, 0x2d, 0x1e, 0x3a, 0x64,
          0x99, 0xd8, 0xde, 0x34]
    length_digest := by
      intro data
      split <;> rfl }
  shuffle _ blocks := blocks
  describe _ := "[Errno 111] Connection refused"
  ip := "10.0.0.1"
  port := 5
  connect _ _ := .error .osError
  files := ⟨"/", fun path => path, fun _ => false, fun _ => false, fun _ => .error .osError⟩
  currentlyRetreiving := []
  now := 110
  registered := 110
  perm_shuffle := unshuffled_perm
  describe_short _ := by decide
  port_lt := samplePort_lt

/-- The registration of 10.0.0.3:9. -/
def thirdPeer : Bytes :=
  [49, 48, 46, 48, 46, 48, 46, 51, 0, 0, 0, 0, 0, 0, 0, 0, 0, 0, 0, 9, 0, 0, 0, 1, 0, 0, 0, 0]

theorem left_thirdPeer :
    left unreachable ⟨"10.0.0.3", 9, 1, 0, []⟩ [("10.0.0.1:5", -1), ("10.0.0.2:7", 100)] =
      [("10.0.0.1:5", -1), ("10.0.0.2:7", 100)] := by
  decide +kernel

theorem thirdPeer_disorderly :
    ¬Orderly unreachable [("10.0.0.1:5", -1), ("10.0.0.2:7", 100)] thirdPeer := by
  intro horderly
  have hparse : parseMessage (thirdPeer.take MSG_MAX) = .ok ⟨"10.0.0.3", 9, 1, 0, []⟩ := by
    decide +kernel
  have hall := horderly.registers _ hparse rfl rfl
  rw [left_thirdPeer] at hall
  have hrecords : ((([("10.0.0.1:5", -1), ("10.0.0.2:7", 100)] : Network) ++
      [(addressOf "10.0.0.3" 9, 110)]).mapM fun entry : Entry => packPeer entry.1) =
      .ok [[49, 48, 46, 48, 46, 48, 46, 49, 0, 0, 0, 0, 0, 0, 0, 0, 0, 0, 0, 5],
        [49, 48, 46, 48, 46, 48, 46, 50, 0, 0, 0, 0, 0, 0, 0, 0, 0, 0, 0, 7],
        [49, 48, 46, 48, 46, 48, 46, 51, 0, 0, 0, 0, 0, 0, 0, 0, 0, 0, 0, 9]] := by
    decide +kernel
  have haccepts : Accepts unreachable [("10.0.0.1:5", -1), ("10.0.0.2:7", 100)] "10.0.0.3" 9 :=
    ⟨by decide, by decide, by decide +kernel, ⟨_, hrecords, by decide⟩⟩
  obtain ⟨_, _, _, -, -, hconnect⟩ :=
    hall haccepts ("10.0.0.2:7", 100) (List.mem_cons_of_mem _ List.mem_cons_self) (by decide +kernel)
  cases hconnect

/-- The first peer has registered the second one, which then goes away: the third one gets
two replies. -/
theorem handle_replies_twice :
    ¬∀ (env : Surroundings) (s : State) (bytesMessage : Bytes),
      Transition.Reachable (peer (myAddress env)) s →
      (CarriesInform bytesMessage → (handle env bytesMessage ⟨s.network, []⟩).sent = []) ∧
      (¬CarriesInform bytesMessage →
        ∃ r, (handle env bytesMessage ⟨s.network, []⟩).sent = [r] ∧ Complete env.sha r) := by
  intro hclaim
  have hrun : (List.foldlM step (start (myAddress unreachable))
      [.receive 0 [49, 48, 46, 48, 46, 48, 46, 50, 0, 0, 0, 0, 0, 0, 0, 0, 0, 0, 0, 7,
          0, 0, 0, 1, 0, 0, 0, 0],
        .expire 0 100, .register 0 100]).map State.network =
      some [("10.0.0.1:5", -1), ("10.0.0.2:7", 100)] := by
    decide +kernel
  obtain ⟨s, hlabels, hnetwork⟩ := Option.map_eq_some_iff.mp hrun
  have hs : Transition.Reachable (peer (myAddress unreachable)) s :=
    Transition.reachable_of_run _ (.start rfl) hlabels
  have hcarries : ¬CarriesInform thirdPeer := by
    unfold CarriesInform
    decide
  obtain ⟨r, hone, -⟩ := (hclaim unreachable s thirdPeer hs).2 hcarries
  rw [hnetwork] at hone
  rcases handleBody_others unreachable hcarries
      (s := ⟨[("10.0.0.1:5", -1), ("10.0.0.2:7", 100)], []⟩) rfl with ⟨-, horderly⟩ | ⟨htwice, -⟩
  · exact thirdPeer_disorderly horderly
  · obtain ⟨r', r'', htwo⟩ := htwice.handle
    rw [hone] at htwo
    cases htwo

end Unreachable

end CompSys.Peer
