import CompSys.CourseClient
import CompSys.CourseTable
import CompSys.Sha256Digest

/-!
# The clients and the server of A3 together

`client.py` registers a user and gets files, each over a connection of its own. It sees what the
table of names and signatures says, whatever the server has been sent before and in whatever
order the blocks of a reply come. Each `recv` is taken to get as many bytes as it asks for.
-/
namespace CompSys.CourseServer

open Peer PythonText

variable {σ : Type}

/-! ## The Python client -/

/-- What `send_to_server` returns, and what it prints about failed checks. -/
structure Received where
  data : Option Bytes
  reports : List String

/-- `while responding`, whose rounds are those of the peer of A4, and what follows it. The fuel
bounds the blocks that are read. -/
def receiveLoop (sha : Sha256) (remote : Remote σ) :
    ℕ → σ → Option (List (Option Bytes)) → Option (Except PyError Received)
  | 0, _, _ => none
  | fuel + 1, conn, allBlocks =>
    match readBlock sha remote conn allBlocks with
    | .error e => some (.error e)
    | .ok (.more allBlocks, conn) => receiveLoop sha remote fuel conn (some allBlocks)
    | .ok (.failed msg, _) => some (.ok ⟨none, [msg]⟩)
    | .ok (.complete _ totalChecksum allBlocks, _) =>
      let allData := allBlocks.reduceOption.flatten
      let reports :=
        if sha.digest allData ≠ totalChecksum then
          ["Total checksum for all data did not match"]
        else []
      some (.ok ⟨some allData, reports⟩)

/-- A connection that is refused ends the client. -/
def sendToServer (sha : Sha256) (remote : Remote σ) (fuel : ℕ) (request : Bytes) :
    Option (Except PyError Received) :=
  match remote.connect request with
  | .error e => some (.error e)
  | .ok conn => receiveLoop sha remote fuel conn none

inductive Outcome where
  | notRetrieved
  | printed (response : String)
  | written (localPath : String) (data : Bytes)
  deriving DecidableEq

/-- Data is printed, or written to a file if that can be opened. -/
def showData (openFile : String → Except PyError Unit) (localPath : String) (data : Bytes) :
    Except PyError Outcome := do
  if localPath = "" ∨ localPath.toList.getLast? = some '/' then
    return .printed (← decodeUtf8 data)
  else
    openFile localPath
    return .written localPath data

def toServer (sha : Sha256) (remote : Remote σ) (openFile : String → Except PyError Unit)
    (fuel : ℕ) (payload : Bytes) : Option (Except PyError Outcome) :=
  (sendToServer sha remote fuel payload).map fun received => do
    match (← received).data with
    | none => return .notRetrieved
    | some [] => return .notRetrieved
    | some data =>
      let localPath ← decodeUtf8 (payload.drop LEN_HEADER)
      showData openFile localPath data

/-! ## What the table answers -/

/-- The data that a well-formed message is answered with. -/
def Table.answer (table : Table) (files : String → Lookup) (attributes : Attributes) :
    Option Bytes :=
  if attributes.requestLength = 0 then
    if attributes.username = "" ∨ attributes.username ∈ table.map Prod.fst then none
    else some (encode s!"New user {attributes.username} registered.")
  else if table.lookup attributes.username = some attributes.signature then
    content? files attributes.body
  else none

/-- How the client ends. Nothing is sent for an empty file, and no data with more blocks than can
be numbered. -/
def outcome (openFile : String → Except PyError Unit) (localPath : String) :
    Option Bytes → Except PyError Outcome
  | none => .ok .notRetrieved
  | some [] => .error .structError
  | some data =>
    if data.length ⌈/⌉ sendableLength < 2 ^ 32 then showData openFile localPath data
    else .ok .notRetrieved

/-! ## What the client makes of a reply -/

section Receiving

variable (sha : Sha256)

/-- It is the loop of the peer of A4 with another result. -/
theorem receiveLoop_eq (remote : Remote σ) (fuel : ℕ) :
    ∀ (conn : σ) (allBlocks : Option (List (Option Bytes))),
      receiveLoop sha remote fuel conn allBlocks =
        (Peer.receiveLoop sha remote fuel conn allBlocks).map fun result =>
          result.map fun (response, _) =>
            ⟨match response.data with
              | .bytes data => some data
              | .msg _ => none, response.reports⟩ := by
  induction fuel with
  | zero =>
    intro conn allBlocks
    rfl
  | succ fuel ih =>
    intro conn allBlocks
    rw [receiveLoop, Peer.receiveLoop]
    cases readBlock sha remote conn allBlocks with
    | error e => rfl
    | ok read =>
      obtain ⟨round, conn⟩ := read
      cases round with
      | more allBlocks => exact ih conn (some allBlocks)
      | failed msg => rfl
      | complete status totalChecksum allBlocks => rfl

/-- The messages of a reply, in some order of its blocks. -/
structure Tells (status : ℕ) (payload : Bytes) (messages : List Bytes) : Prop where
  status_lt : status < 2 ^ 32
  nonempty : payload ≠ []
  blocks : ∃ blocks : List (ℕ × Bytes), blocks.Perm (splitLoop payload 0) ∧
    blocks.length < 2 ^ 32 ∧
    messages = blocks.map (blockMessage sha status blocks.length (sha.digest payload))

variable {sha} {status : ℕ} {payload : Bytes} {messages : List Bytes}

theorem splitLoop_splits (hne : payload ≠ []) {blocks : List (ℕ × Bytes)}
    (hperm : blocks.Perm (splitLoop payload 0)) :
    Splits payload blocks.length (splitLoop payload 0) := by
  have hlength : blocks.length = payload.length ⌈/⌉ sendableLength := by
    rw [hperm.length_eq, length_splitLoop]
  have hpos := List.length_pos_of_ne_nil hne
  constructor
  · rw [splitLoop_numbers, hlength]
  · exact splitLoop_cuts.joined sendableLength_pos payload 0
  · intro block hblock
    exact (splitLoop_cuts.sizes sendableLength_pos payload 0 block hblock).trans (by decide)
  · rw [hlength, ceilDiv_sendableLength]
    omega
  · rw [hlength, ceilDiv_sendableLength]
    omega

/-- A reply with status OK comes back whole. -/
theorem Tells.received (h : Tells sha STATUS_OK payload messages) {fuel : ℕ}
    (hfuel : messages.length ≤ fuel) (request : Bytes) :
    sendToServer sha (exactly messages.flatten) fuel request = some (.ok ⟨some payload, []⟩) := by
  obtain ⟨blocks, hperm, hcount, rfl⟩ := h.blocks
  have hne : blocks ≠ [] := by
    rintro rfl
    have hpos := (splitLoop_splits h.nonempty hperm).nonempty
    exact absurd hpos (lt_irrefl 0)
  have hloop := receiveLoop_blocks sha
    (blocks.map (blockMessage sha STATUS_OK blocks.length (sha.digest payload))).flatten []
    (splitLoop_splits h.nonempty hperm) hcount blocks fuel [] none hperm hne
    (by rwa [List.length_map] at hfuel) rfl
  rw [List.append_nil] at hloop
  change receiveLoop sha _ fuel _ none = _
  rw [receiveLoop_eq]
  exact congrArg _ hloop

/-- Of a reply with another status the client reads one block. -/
theorem Tells.refused (h : Tells sha status payload messages) (hstatus : status ≠ STATUS_OK)
    {fuel : ℕ} (hfuel : 1 ≤ fuel) (request : Bytes) :
    sendToServer sha (exactly messages.flatten) fuel request =
      some (.ok ⟨none, [s!"Got unexpected status code: {status}"]⟩) := by
  obtain ⟨blocks, hperm, hcount, rfl⟩ := h.blocks
  have hsplits := splitLoop_splits h.nonempty hperm
  obtain ⟨block, rest, hblocks⟩ := List.exists_cons_of_length_pos hsplits.nonempty
  have hblock : block ∈ splitLoop payload 0 :=
    hperm.mem_iff.mp (hblocks ▸ List.mem_cons_self)
  obtain ⟨fuel, rfl⟩ := Nat.exists_eq_add_of_le' hfuel
  have hround := readBlock_message sha status
    (blocks.map (blockMessage sha status blocks.length (sha.digest payload))).flatten
    (rest.map (blockMessage sha status blocks.length (sha.digest payload))).flatten payload none
    h.status_lt hcount (hsplits.number_lt hblock) (lt_of_le_sendable (hsplits.sizes block hblock))
    rfl List.length_replicate
  have hbad : status ≠ Peer.STATUS_OK := hstatus
  rw [if_pos hbad] at hround
  have hstream : (blocks.map (blockMessage sha status blocks.length (sha.digest payload))).flatten =
      blockMessage sha status blocks.length (sha.digest payload) block ++
        (rest.map (blockMessage sha status blocks.length (sha.digest payload))).flatten := by
    generalize blocks.length = n
    rw [hblocks, List.map_cons, List.flatten_cons]
  rw [← hstream] at hround
  change receiveLoop sha _ (fuel + 1) _ none = _
  rw [receiveLoop, hround]

/-- The length of the first message cannot be read from nothing. -/
theorem sendToServer_nothing (fuel : ℕ) (request : Bytes) :
    sendToServer sha (exactly []) (fuel + 1) request = some (.error .structError) := rfl

end Receiving

/-! ## What the server sends -/

section Sending

variable {env : Environment} {arrival : Arrival}

variable (env arrival)

theorem length_shuffled (reply : Reply) :
    (arrival.shuffle reply (splitLoop reply.payload 0)).length =
      reply.payload.length ⌈/⌉ sendableLength := by
  rw [(arrival.shuffle_perm reply _).length_eq, length_splitLoop]

theorem respond_tells (reply : Reply) (hstatus : reply.status < 2 ^ 32) (hne : reply.payload ≠ [])
    (hcount : reply.payload.length ⌈/⌉ sendableLength < 2 ^ 32) :
    ∃ messages, Tells env.sha reply.status reply.payload messages ∧
      arrival.respond env reply = (messages, .ok ()) := by
  have hperm := arrival.shuffle_perm reply (splitLoop reply.payload 0)
  have hlength := length_shuffled arrival reply
  rw [← hlength] at hcount
  refine ⟨_, ⟨hstatus, hne, _, hperm, hcount, rfl⟩, ?_⟩
  rw [Arrival.respond, buildAndSendResponses, ← hlength]
  refine sendLoop_eq env.sha _ _ hstatus hcount ?_
  intro block hblock
  have hmem := hperm.mem_iff.mp hblock
  have hsplits := splitLoop_splits hne hperm
  exact ⟨(hsplits.number_lt hmem).trans hcount, lt_of_le_sendable (hsplits.sizes block hmem)⟩

theorem respond_long (reply : Reply)
    (hcount : 2 ^ 32 ≤ reply.payload.length ⌈/⌉ sendableLength) :
    ∃ e, arrival.respond env reply = ([], .error e) := by
  have hlength := length_shuffled arrival reply
  obtain ⟨block, blocks, hblocks⟩ := List.exists_cons_of_length_pos
    (l := arrival.shuffle reply (splitLoop reply.payload 0)) (by omega)
  rw [Arrival.respond, buildAndSendResponses, hblocks, sendLoop]
  split
  case h_1 e _ => exact ⟨e, rfl⟩
  case h_2 message hmessage =>
    exact absurd (blocks_lt_of_assembleReply hmessage) (Nat.not_lt.mpr hcount)

/-- An error is sent, or an exception is on its way that will be answered with one. -/
def Refuses (env : Environment) (arrival : Arrival) (before : List (List Bytes))
    (x : Session × Except PyError Unit) : Prop :=
  (∃ status payload messages, status ≠ STATUS_OK ∧ Tells env.sha status payload messages ∧
      delivered env arrival x.1 = before ++ [messages]) ∧ x.2 = .ok () ∨
    delivered env arrival x.1 = before ∧ ∃ e, x.2 = .error e

theorem send_tells (reply : Reply) (hstatus : reply.status < 2 ^ 32) (hne : reply.payload ≠ [])
    (hcount : reply.payload.length ⌈/⌉ sendableLength < 2 ^ 32) (s : Session) :
    (∃ messages, Tells env.sha reply.status reply.payload messages ∧
      delivered env arrival (send (arrival.request env) reply s).1 =
        delivered env arrival s ++ [messages]) ∧
      (send (arrival.request env) reply s).2 = .ok () := by
  obtain ⟨messages, htells, hrespond⟩ := respond_tells env arrival reply hstatus hne hcount
  refine ⟨⟨messages, htells, ?_⟩, congrArg Prod.snd hrespond⟩
  have hnonempty : messages ≠ [] := by
    rintro rfl
    obtain ⟨blocks, hperm, -, hmap⟩ := htells.blocks
    have hblocks : blocks = [] := List.map_eq_nil_iff.mp hmap.symm
    have hpos := (splitLoop_splits hne hperm).nonempty
    rw [hblocks] at hpos
    exact absurd hpos (lt_irrefl 0)
  rw [delivered_send, hrespond]
  simp [hnonempty]

theorem send_long (reply : Reply)
    (hcount : 2 ^ 32 ≤ reply.payload.length ⌈/⌉ sendableLength)
    (s : Session) :
    Refuses env arrival (delivered env arrival s) (send (arrival.request env) reply s) := by
  obtain ⟨e, hrespond⟩ := respond_long env arrival reply hcount
  refine .inr ⟨?_, e, congrArg Prod.snd hrespond⟩
  rw [delivered_send, hrespond]
  exact List.append_nil _

variable {env arrival}

theorem handleError_refuses {status : ℕ} (hstatus : status < 2 ^ 32) (hbad : status ≠ STATUS_OK)
    {msgStr : String} (hpos : 0 < msgStr.toList.length) (s : Session) :
    Refuses env arrival (delivered env arrival s)
      (handleError (arrival.request env) status msgStr s) := by
  by_cases hcount : (encode msgStr).length ⌈/⌉ sendableLength < 2 ^ 32
  case pos =>
    obtain ⟨⟨messages, htells, hdelivered⟩, hok⟩ :=
      send_tells env arrival (.error status msgStr) hstatus (encode_ne_nil hpos) hcount s
    exact .inl ⟨⟨_, _, messages, hbad, htells, hdelivered⟩, hok⟩
  case neg => exact send_long env arrival (.error status msgStr) (Nat.not_lt.mp hcount) s

/-- Who does not pass the check of the hashes, or asks for no file that can be read. -/
theorem handleRequest_refuses {s : Session} {username : String} {signature body : Bytes}
    (h : ¬((∃ hash salt, s.users.lookup username = some (hash, salt) ∧
        hash = env.sha.digest (credential signature salt)) ∧
      (content? arrival.files body).isSome)) :
    Refuses env arrival (delivered env arrival s)
      (handleRequest env (arrival.request env) username signature body s) := by
  unfold handleRequest
  split
  case h_1 => exact handleError_refuses (by decide) (by decide) (by simp [toString]) s
  case h_2 hash salt hlookup =>
    split
    case isTrue => exact handleError_refuses (by decide) (by decide) (by simp [toString]) s
    case isFalse hhash =>
      have hnone : content? arrival.files body = none := by
        rw [← Option.not_isSome_iff_eq_none]
        exact fun hsome => h ⟨⟨hash, salt, hlookup, not_not.mp hhash⟩, hsome⟩
      unfold content? at hnone
      cases hpath : decodeUtf8 body with
      | error e => exact .inr ⟨rfl, e, rfl⟩
      | ok path =>
        rw [hpath] at hnone
        dsimp only at hnone ⊢
        cases hcons : path.toList with
        | nil => exact .inr ⟨rfl, .indexError, rfl⟩
        | cons c rest =>
          rw [hcons] at hnone
          dsimp only [Arrival.request] at hnone ⊢
          cases hfile : arrival.files (if c = '/' then String.ofList rest else path) with
          | missing => exact handleError_refuses (by decide) (by decide) (by simp [toString]) s
          | notFile => exact handleError_refuses (by decide) (by decide) (by simp [toString]) s
          | file content =>
            rw [hfile] at hnone
            dsimp only at hnone ⊢
            cases hread : readText content with
            | error e => exact .inr ⟨rfl, e, rfl⟩
            | ok text =>
              rw [hread] at hnone
              cases hnone

theorem exists_of_content? {files : String → Lookup} {body data : Bytes}
    (h : content? files body = some data) :
    ∃ path c rest content text, decodeUtf8 body = .ok path ∧ path.toList = c :: rest ∧
      files (if c = '/' then String.ofList rest else path) = .file content ∧
      readText content = .ok text ∧ data = encode text := by
  unfold content? at h
  split at h
  case h_1 => cases h
  case h_2 path hpath =>
    split at h
    case h_1 => cases h
    case h_2 c rest hcons =>
      split at h
      case h_2 => cases h
      case h_1 content hfile =>
        cases hread : readText content with
        | error e =>
          rw [hread] at h
          cases h
        | ok text =>
          rw [hread] at h
          cases h
          exact ⟨path, c, rest, content, text, hpath, hcons, hfile, hread, rfl⟩

theorem handleRequest_sends {s : Session} {username : String} {signature body data : Bytes}
    {hash : Bytes} {salt : String} (hlookup : s.users.lookup username = some (hash, salt))
    (hhash : hash = env.sha.digest (credential signature salt))
    (hcontent : content? arrival.files body = some data) :
    handleRequest env (arrival.request env) username signature body s =
      send (arrival.request env) (.fileData username data) s := by
  obtain ⟨path, c, rest, content, text, hpath, hcons, hfile, hread, rfl⟩ :=
    exists_of_content? hcontent
  rw [handleRequest_serves ⟨hash, salt, path, c, rest, hlookup, hhash, hpath, hcons, hfile⟩, hread]

/-- An exception is answered with an error. -/
theorem sent_refuses (hdescribe : ∀ e, (env.describe e).toList.length ≤ 2 ^ 20) {users : Users}
    (h : Refuses env arrival [] (handleBody env (arrival.request env) ⟨users, []⟩)) :
    ∃ status payload messages, status ≠ STATUS_OK ∧ Tells env.sha status payload messages ∧
      sent env arrival users = [messages] := by
  rcases h with ⟨⟨status, payload, messages, hbad, htells, hdelivered⟩, hok⟩ | ⟨hbefore, e, hraised⟩
  · exact ⟨status, payload, messages, hbad, htells, (sent_ok hok).trans hdelivered⟩
  · have hlength := hdescribe e
    have hpos : 0 < (s!"Something went wrong. {env.describe e}").toList.length := by
      simp [toString]
    have hcount : (encode s!"Something went wrong. {env.describe e}").length ⌈/⌉ sendableLength <
        2 ^ 32 := by
      have hbytes := length_encode_le s!"Something went wrong. {env.describe e}"
      have hchars : (s!"Something went wrong. {env.describe e}").toList.length ≤ 2 ^ 24 := by
        simp [toString]
        omega
      rw [ceilDiv_sendableLength]
      omega
    obtain ⟨⟨messages, htells, hdelivered⟩, -⟩ :=
      send_tells env arrival (.error STATUS_OTHER s!"Something went wrong. {env.describe e}")
        (show STATUS_OTHER < 2 ^ 32 by decide) (encode_ne_nil hpos) hcount
        (handleBody env (arrival.request env) ⟨users, []⟩).1
    refine ⟨STATUS_OTHER, _, messages, by decide, htells, ?_⟩
    rw [sent, handle]
    rcases hbody : handleBody env (arrival.request env) ⟨users, []⟩ with ⟨s, result⟩
    rw [hbody] at hbefore hraised hdelivered
    cases hraised
    rw [hbefore] at hdelivered
    exact hdelivered

/-- What reaches the client, by the data it is to be answered with. -/
inductive Answers (sha : Sha256) : Option Bytes → List (List Bytes) → Prop where
  | refused {status payload messages} (bad : status ≠ STATUS_OK)
      (tells : Tells sha status payload messages) : Answers sha none [messages]
  | tooLong {data status payload messages} (long : 2 ^ 32 ≤ data.length ⌈/⌉ sendableLength)
      (bad : status ≠ STATUS_OK) (tells : Tells sha status payload messages) :
      Answers sha (some data) [messages]
  | empty : Answers sha (some []) []
  | whole {data messages} (fits : data.length ⌈/⌉ sendableLength < 2 ^ 32)
      (tells : Tells sha STATUS_OK data messages) : Answers sha (some data) [messages]

theorem answers_send (hdescribe : ∀ e, (env.describe e).toList.length ≤ 2 ^ 20) {users : Users}
    (reply : Reply) (hstatus : reply.status = STATUS_OK) {s : Session} (hnew : s.replies = [])
    (hbody : handleBody env (arrival.request env) ⟨users, []⟩ =
      send (arrival.request env) reply s) :
    Answers env.sha (some reply.payload) (sent env arrival users) := by
  have hdelivered : delivered env arrival s = [] := by
    rw [delivered, hnew]
    rfl
  by_cases hempty : reply.payload = []
  case pos =>
    obtain ⟨hsame, hok⟩ : delivered env arrival (send (arrival.request env) reply s).1 =
        delivered env arrival s ∧ (send (arrival.request env) reply s).2 = .ok () :=
      send_empty hempty s
    rw [sent_ok ((congrArg Prod.snd hbody).trans hok), hbody, hsame, hdelivered, hempty]
    exact .empty
  case neg =>
    by_cases hcount : reply.payload.length ⌈/⌉ sendableLength < 2 ^ 32
    case pos =>
      obtain ⟨⟨messages, htells, hsent⟩, hok⟩ := send_tells env arrival reply
        (by rw [hstatus]; decide) hempty hcount s
      rw [sent_ok ((congrArg Prod.snd hbody).trans hok), hbody, hsent, hdelivered]
      rw [hstatus] at htells
      exact .whole hcount htells
    case neg =>
      have hrefuses := send_long env arrival reply (Nat.not_lt.mp hcount) s
      rw [← hbody, hdelivered] at hrefuses
      obtain ⟨status, payload, messages, hbad, htells, hsent⟩ := sent_refuses hdescribe hrefuses
      rw [hsent]
      exact .tooLong (Nat.not_lt.mp hcount) hbad htells

theorem answers_refuses (hdescribe : ∀ e, (env.describe e).toList.length ≤ 2 ^ 20) {users : Users}
    (h : Refuses env arrival [] (handleBody env (arrival.request env) ⟨users, []⟩)) :
    Answers env.sha none (sent env arrival users) := by
  obtain ⟨status, payload, messages, hbad, htells, hsent⟩ := sent_refuses hdescribe h
  rw [hsent]
  exact .refused hbad htells

/-- A well-formed message is answered as the table says. -/
theorem answers_sent (hdescribe : ∀ e, (env.describe e).toList.length ≤ 2 ^ 20) {users : Users}
    {table : Table} {attributes : Attributes}
    (hparsed : parseRequest (arrival.message.take MSG_MAX) = .ok attributes)
    (hwell : ¬Malformed attributes)
    (hnames : (users.lookup attributes.username).isSome ↔
      attributes.username ∈ table.map Prod.fst)
    (hpasses : (∃ hash salt, users.lookup attributes.username = some (hash, salt) ∧
      hash = env.sha.digest (credential attributes.signature salt)) ↔
        table.lookup attributes.username = some attributes.signature) :
    Answers env.sha (table.answer arrival.files attributes) (sent env arrival users) := by
  have hbody : handleBody env (arrival.request env) ⟨users, []⟩ =
      if attributes.requestLength = 0 then
        registerNewUser env (arrival.request env) attributes.username attributes.signature
          ⟨users, []⟩
      else handleRequest env (arrival.request env) attributes.username attributes.signature
        attributes.body ⟨users, []⟩ :=
    handleBody_eq hparsed (if_neg hwell)
  have hnothing : delivered env arrival ⟨users, []⟩ = [] := rfl
  unfold Table.answer
  split
  case isTrue hlength =>
    rw [if_pos hlength, registerNewUser] at hbody
    by_cases hname : attributes.username = ""
    case pos =>
      rw [if_pos hname] at hbody
      rw [if_pos (.inl hname)]
      refine answers_refuses hdescribe ?_
      rw [hbody, ← hnothing]
      exact handleError_refuses (by decide) (by decide) (by decide) _
    case neg =>
      rw [if_neg hname] at hbody
      by_cases htaken : attributes.username ∈ table.map Prod.fst
      case pos =>
        rw [if_pos (hnames.mpr htaken)] at hbody
        rw [if_pos (.inr htaken)]
        refine answers_refuses hdescribe ?_
        rw [hbody, ← hnothing]
        exact handleError_refuses (by decide) (by decide) (by simp [toString]) _
      case neg =>
        rw [if_neg fun hsome => htaken (hnames.mp hsome)] at hbody
        rw [if_neg (not_or.mpr ⟨hname, htaken⟩)]
        exact answers_send hdescribe (.registered attributes.username) rfl rfl hbody
  case isFalse hlength =>
    rw [if_neg hlength] at hbody
    split
    case isTrue hregistered =>
      cases hcontent : content? arrival.files attributes.body with
      | some data =>
        obtain ⟨hash, salt, hlookup, hhash⟩ := hpasses.mpr hregistered
        rw [handleRequest_sends hlookup hhash hcontent] at hbody
        exact answers_send hdescribe (.fileData attributes.username data) rfl rfl hbody
      | none =>
        refine answers_refuses hdescribe ?_
        rw [hbody, ← hnothing]
        refine handleRequest_refuses fun h => ?_
        rw [hcontent] at h
        cases h.2
    case isFalse hregistered =>
      refine answers_refuses hdescribe ?_
      rw [hbody, ← hnothing]
      exact handleRequest_refuses fun h => hregistered (hpasses.mp h.1)

end Sending

/-! ## Runs -/

section Runs

theorem Answers.shown {sha : Sha256} {answer : Option Bytes} {sent : List (List Bytes)}
    (h : Answers sha answer sent) (openFile : String → Except PyError Unit) {payload : Bytes}
    {localPath : String} (hpath : decodeUtf8 (payload.drop LEN_HEADER) = .ok localPath) :
    ∃ enough, ∀ fuel, enough ≤ fuel →
      toServer sha (exactly sent.flatten.flatten) openFile fuel payload =
        some (outcome openFile localPath answer) := by
  have hone : ∀ messages : List Bytes, [messages].flatten.flatten = messages.flatten := by
    intro messages
    rw [List.flatten_singleton]
  cases h with
  | refused bad tells =>
    refine ⟨1, fun fuel hfuel => ?_⟩
    rw [hone, toServer, tells.refused bad hfuel]
    rfl
  | @tooLong data status _ messages long bad tells =>
    refine ⟨1, fun fuel hfuel => ?_⟩
    rw [hone, toServer, tells.refused bad hfuel]
    cases data with
    | nil => exact absurd long (by decide)
    | cons b data => exact congrArg some (if_neg (Nat.not_lt.mpr long)).symm
  | empty =>
    refine ⟨1, fun fuel hfuel => ?_⟩
    obtain ⟨fuel, rfl⟩ := Nat.exists_eq_add_of_le' hfuel
    rfl
  | @whole data messages fits tells =>
    refine ⟨messages.length, fun fuel hfuel => ?_⟩
    rw [hone, toServer, tells.received hfuel]
    cases data with
    | nil => exact absurd rfl tells.nonempty
    | cons b data =>
      have houtcome : outcome openFile localPath (some (b :: data)) =
          showData openFile localPath (b :: data) := if_pos fits
      rw [houtcome]
      simp only [Option.map_some, bind, Except.bind, hpath]

/-- The server finds the fields that the client has joined, and the client its own request. -/
theorem parseRequest_payload (sha : Sha256) {username request : String} (password salt : String)
    (hnul : Char.ofNat 0 ∉ username.toList)
    (hname : ∀ c ∈ username.toList.take LEN_USERNAME, c.toNat < 128)
    (hrequest : ∀ c ∈ request.toList, c.toNat < 128)
    (hfits : (usernameField username).length + LEN_SIGNATURE + LEN_REQUEST_LENGTH +
      (encode request).length ≤ MSG_MAX) {payload : Bytes}
    (hpayload : assemblePayload sha username password salt request = .ok payload) :
    parseRequest (payload.take MSG_MAX) = .ok {
        username := String.ofList (username.toList.take LEN_USERNAME)
        signature := sha.digest (salted password salt)
        requestLength := request.toList.length
        body := encode request } ∧
      decodeUtf8 (payload.drop LEN_HEADER) = .ok request := by
  obtain ⟨_, hassembled, hparsed⟩ :=
    understood_of_ascii sha password salt hfits hnul hname hrequest
  cases hassembled.symm.trans hpayload
  obtain ⟨_, hassembled, hwhole, -⟩ := assemblePayload_eq sha password salt hfits
  cases hassembled.symm.trans hpayload
  rw [hwhole] at hparsed ⊢
  have hbody : encode request = payload.drop LEN_HEADER := by
    refine (parseRequest_slice hparsed).trans ?_
    rw [slice, List.take_of_length_le]
    dsimp only
    rw [List.length_drop]
    omega
  rw [← hbody, length_encode_ascii hrequest] at hparsed
  rw [← hbody]
  exact ⟨hparsed, decodeUtf8_encode request⟩

/-- In every run of the server, a Python client sees what the table of names and signatures
says. -/
theorem client_served (env : Environment) (arrivals : List Arrival) (arrival : Arrival)
    (openFile : String → Except PyError Unit) {username password salt request : String}
    (hsha : Set.InjOn env.sha.digest
      (credentialsOf ((arrivals ++ [arrival]).map (Arrival.request env))))
    (hdescribe : ∀ e, (env.describe e).toList.length ≤ 2 ^ 20)
    (hnul : Char.ofNat 0 ∉ username.toList)
    (hname : ∀ c ∈ username.toList.take LEN_USERNAME, c.toNat < 128)
    (hrequest : ∀ c ∈ request.toList, c.toNat < 128)
    (hfits : (usernameField username).length + LEN_SIGNATURE + LEN_REQUEST_LENGTH +
      (encode request).length ≤ MSG_MAX)
    (hpayload : assemblePayload env.sha username password salt request = .ok arrival.message) :
    ∃ enough, ∀ fuel, enough ≤ fuel →
      toServer env.sha (exactly (sent env arrival
          (usersAfter env (arrivals.map (Arrival.request env)))).flatten.flatten)
          openFile fuel arrival.message =
        some (outcome openFile request ((tableAfter (arrivals.map Arrival.message)).answer
          arrival.files {
            username := String.ofList (username.toList.take LEN_USERNAME)
            signature := env.sha.digest (salted password salt)
            requestLength := request.toList.length
            body := encode request })) := by
  obtain ⟨hparsed, hlocal⟩ := parseRequest_payload env.sha password salt hnul hname hrequest hfits
    hpayload
  have hwell : ¬Malformed ⟨String.ofList (username.toList.take LEN_USERNAME),
      env.sha.digest (salted password salt), request.toList.length, encode request⟩ :=
    not_not.mpr (length_encode_ascii hrequest)
  have hrefines := refines_usersAfter env (arrivals.map (Arrival.request env))
  rw [List.map_map] at hrefines
  replace hrefines := hrefines.later (arrival.request env)
  rw [List.map_append] at hsha
  have hpresents : Presents (arrival.request env) (String.ofList (username.toList.take LEN_USERNAME))
      (env.sha.digest (salted password salt)) := ⟨_, hparsed, rfl, rfl⟩
  have hanswers := answers_sent hdescribe hparsed hwell (hrefines.isSome_lookup _)
    (hrefines.passes_iff hsha (List.mem_append_right _ List.mem_cons_self) hpresents)
  exact hanswers.shown openFile hlocal

/-- The messages of one user meet a server on which every path is that of one file. -/
def courseArrival (message : Bytes) : Arrival :=
  { sampleArrival 0 [] [104, 105] with message := message }

def courseEnvironment : Environment where
  sha := CompSys.Sha256.compiled .little (List.replicate 64 0) rfl
  describe _ := ""

/-- A client registers and gets a file. -/
theorem client_served_registered : ∃ registration request : Bytes,
    assemblePayload courseEnvironment.sha "ab" "secret" "salt" "" = .ok registration ∧
    assemblePayload courseEnvironment.sha "ab" "secret" "salt" "tiny.txt" = .ok request ∧
    ∃ enough, ∀ fuel, enough ≤ fuel →
      toServer courseEnvironment.sha (exactly (sent courseEnvironment (courseArrival request)
          (usersAfter courseEnvironment
            [(courseArrival registration).request courseEnvironment])).flatten.flatten)
          (fun _ => .ok ()) fuel request =
        some (.ok (.written "tiny.txt" [104, 105])) := by
  have hnul : Char.ofNat 0 ∉ "ab".toList := by decide
  have hname : ∀ c ∈ "ab".toList.take LEN_USERNAME, c.toNat < 128 :=
    List.all_iff_forall_prop.mp rfl
  have hascii : ∀ c ∈ "tiny.txt".toList, c.toNat < 128 := List.all_iff_forall_prop.mp rfl
  have hascii' : ∀ c ∈ "".toList, c.toNat < 128 := List.all_iff_forall_prop.mp rfl
  have hfits : (usernameField "ab").length + LEN_SIGNATURE + LEN_REQUEST_LENGTH +
      (encode "tiny.txt").length ≤ MSG_MAX := by decide +kernel
  have hfits' : (usernameField "ab").length + LEN_SIGNATURE + LEN_REQUEST_LENGTH +
      (encode "").length ≤ MSG_MAX := by decide +kernel
  obtain ⟨registration, hregistration, -⟩ :=
    assemblePayload_eq courseEnvironment.sha "secret" "salt" hfits'
  obtain ⟨request, hrequest, -⟩ := assemblePayload_eq courseEnvironment.sha "secret" "salt" hfits
  obtain ⟨hparsed, -⟩ := parseRequest_payload courseEnvironment.sha "secret" "salt" hnul hname hascii
    hfits hrequest
  obtain ⟨hparsed', -⟩ := parseRequest_payload courseEnvironment.sha "secret" "salt" hnul hname
    hascii' hfits' hregistration
  refine ⟨registration, request, hregistration, hrequest, ?_⟩
  have hsha : Set.InjOn courseEnvironment.sha.digest (credentialsOf
      (([courseArrival registration] ++ [courseArrival request]).map
        (Arrival.request courseEnvironment))) := by
    refine injOn_credential _ sampleSalt
      (courseEnvironment.sha.digest (salted "secret" "salt")) ?_ ?_
    · intro r hr
      rcases List.mem_pair.mp hr with rfl | rfl <;> rfl
    · rintro r hr _ _ ⟨attributes, hattributes, -, rfl⟩
      rcases List.mem_pair.mp hr with rfl | rfl
      · cases hparsed'.symm.trans hattributes
        rfl
      · cases hparsed.symm.trans hattributes
        rfl
  have htable : tableAfter [registration] =
      [("ab", courseEnvironment.sha.digest (salted "secret" "salt"))] := by
    have hnew : registration? registration =
        some ("ab", courseEnvironment.sha.digest (salted "secret" "salt")) := by
      rw [registration?, hparsed']
      rfl
    rw [tableAfter, List.foldl_cons, List.foldl_nil, Table.register, hnew]
    rfl
  have hserved := client_served courseEnvironment [courseArrival registration]
    (courseArrival request) (fun _ => .ok ()) hsha (fun _ => Nat.zero_le _) hnul hname hascii hfits
    hrequest
  have hanswer : (tableAfter ([courseArrival registration].map Arrival.message)).answer
      (courseArrival request).files {
        username := String.ofList ("ab".toList.take LEN_USERNAME)
        signature := courseEnvironment.sha.digest (salted "secret" "salt")
        requestLength := "tiny.txt".toList.length
        body := encode "tiny.txt" } = some [104, 105] := by
    change (tableAfter [registration]).answer _ _ = _
    have hlookup : (tableAfter [registration]).lookup (String.ofList ("ab".toList.take LEN_USERNAME)) =
        some (courseEnvironment.sha.digest (salted "secret" "salt")) := by
      rw [htable]
      rfl
    rw [Table.answer, if_neg (by decide), if_pos hlookup, content?, decodeUtf8_encode]
    rfl
  rw [hanswer] at hserved
  exact hserved

end Runs

end CompSys.CourseServer
