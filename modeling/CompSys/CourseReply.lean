import CompSys.CourseServer
import CompSys.Cutting
import CompSys.PeerReply

/-!
# What a client of A3 is sent

`_build_and_send_responses` cuts a reply into blocks and sends each; for a reply without a
byte there is none. The handler of a request goes on after its answer to a malformed
length. Together they decide how many replies reach the client.
-/
namespace CompSys.CourseServer

open Peer PythonText

/-! ## Blocks -/

def sendableLength : ℕ :=
  MSG_MAX - LEN_RESPONSE_LENGTH - LEN_STATUS - LEN_BLOCK_ID - LEN_BLOCKS_COUNT -
    LEN_BLOCK_HASH - LEN_TOTAL_HASH

/-- `while len(to_send) > 0`, with what is appended to `blocks`. -/
def splitLoop (toSend : Bytes) (thisBlock : ℕ) : List (ℕ × Bytes) :=
  if 0 < toSend.length then
    (thisBlock, toSend.take sendableLength) ::
      splitLoop (toSend.drop sendableLength) (thisBlock + 1)
  else []
termination_by toSend.length
decreasing_by
  have hpos : 0 < sendableLength := by decide
  rw [List.length_drop]
  omega

/-- What is sent, and whether it ends in an exception. -/
def buildAndSendResponses (sha : Sha256) (shuffle : List (ℕ × Bytes) → List (ℕ × Bytes))
    (status : ℕ) (toSend : Bytes) : List Bytes × Except PyError Unit :=
  let totalChecksum := sha.digest toSend
  let blocksCount := toSend.length ⌈/⌉ sendableLength
  let blocks := splitLoop toSend 0
  sendLoop sha status blocksCount totalChecksum (shuffle blocks)

/-- A message with what its handler meets. The replies of one handler differ in their
status, so that the shuffle may be taken to depend on the reply. -/
structure Arrival where
  message : Bytes
  salt : Salt
  files : String → Lookup
  shuffle : Reply → List (ℕ × Bytes) → List (ℕ × Bytes)
  shuffle_perm : ∀ reply blocks, (shuffle reply blocks).Perm blocks

section Delivery

variable (env : Environment) (arrival : Arrival)

def Arrival.respond (reply : Reply) : List Bytes × Except PyError Unit :=
  buildAndSendResponses env.sha (arrival.shuffle reply) reply.status reply.payload

def Arrival.request : Request where
  message := arrival.message
  salt := arrival.salt
  files := arrival.files
  deliver reply := (arrival.respond env reply).2

/-- The sets of blocks that leave the server, one set for each reply that has blocks. -/
def delivered (s : Session) : List (List Bytes) :=
  (s.replies.map fun reply => (arrival.respond env reply).1).filter (! ·.isEmpty)

/-- What the client gets for its message. -/
def sent (users : Users) : List (List Bytes) :=
  delivered env arrival (handle env (arrival.request env) ⟨users, []⟩)

end Delivery

/-- At least one message, each showing one of the blocks of one body, with one status. -/
structure LogicalReply (sha : Sha256) (status : ℕ) (body : Bytes) (blocks : List (ℕ × Bytes))
    (messages : List Bytes) : Prop where
  nonempty : messages ≠ []
  short : ∀ message ∈ messages, message.length ≤ MSG_MAX
  shown : List.Forall₂ (Shows sha status blocks.length body) messages blocks
  whole : ∃ ordered : List (ℕ × Bytes), ordered.Perm blocks ∧
    ordered.map Prod.fst = List.range blocks.length ∧ (ordered.map Prod.snd).flatten = body

/-- A single logical reply. -/
def IsReply (sha : Sha256) (messages : List Bytes) : Prop :=
  ∃ status body blocks, LogicalReply sha status body blocks messages

section Blocks

theorem splitLoop_cuts : Cutting.Cuts sendableLength splitLoop := by
  intro toSend thisBlock
  rw [splitLoop]

theorem sendableLength_pos : 0 < sendableLength := by decide

theorem ceilDiv_sendableLength (n : ℕ) : n ⌈/⌉ sendableLength = (n + 943) / 944 := by
  have hsize : sendableLength = 944 := rfl
  rw [hsize, Nat.ceilDiv_eq_add_pred_div]
  rfl

theorem splitLoop_numbers (toSend : Bytes) :
    (splitLoop toSend 0).map Prod.fst = List.range (toSend.length ⌈/⌉ sendableLength) := by
  rw [splitLoop_cuts.numbers sendableLength_pos, List.range_eq_range']

theorem length_splitLoop (toSend : Bytes) :
    (splitLoop toSend 0).length = toSend.length ⌈/⌉ sendableLength := by
  rw [← List.length_map Prod.fst, splitLoop_numbers, List.length_range]

variable (sha : Sha256) {shuffle : List (ℕ × Bytes) → List (ℕ × Bytes)}

theorem buildAndSendResponses_empty (hshuffle : ∀ blocks, (shuffle blocks).Perm blocks)
    (status : ℕ) : buildAndSendResponses sha shuffle status [] = ([], .ok ()) := by
  have hnil : shuffle (splitLoop [] 0) = [] := by
    rw [splitLoop_cuts.nil]
    exact (hshuffle []).eq_nil
  simp [buildAndSendResponses, hnil, sendLoop]

theorem logicalReply_blocks {blocks : List (ℕ × Bytes)} {status : ℕ} {toSend : Bytes}
    (hblocks : blocks.Perm (splitLoop toSend 0)) (hstatus : status < 2 ^ 32)
    (hne : toSend ≠ []) (hcount : blocks.length < 2 ^ 32) :
    LogicalReply sha status toSend blocks
      (blocks.map (blockMessage sha status blocks.length (sha.digest toSend))) := by
  have hlength : blocks.length = toSend.length ⌈/⌉ sendableLength := by
    rw [hblocks.length_eq, length_splitLoop]
  have hsize : ∀ block ∈ blocks, block.2.length ≤ sendableLength := by
    intro block hblock
    exact splitLoop_cuts.sizes sendableLength_pos toSend 0 block (hblocks.mem_iff.mp hblock)
  constructor
  · have hpos := List.length_pos_of_ne_nil hne
    rw [ceilDiv_sendableLength] at hlength
    apply List.ne_nil_of_length_pos
    rw [List.length_map]
    omega
  · intro message hmessage
    obtain ⟨block, hblock, rfl⟩ := List.mem_map.mp hmessage
    have hblockSize := hsize block hblock
    have hmax : sendableLength + 80 = MSG_MAX := rfl
    rw [blockMessage, List.length_append, List.length_append, BigEndian.length_encode,
      length_replyHeader sha _ _ _ (sha.length_digest toSend)]
    omega
  · rw [List.forall₂_map_left_iff, List.forall₂_same]
    intro block hblock
    have hnum : block.1 ∈ (splitLoop toSend 0).map Prod.fst :=
      List.mem_map_of_mem (hblocks.mem_iff.mp hblock)
    rw [splitLoop_numbers, List.mem_range, ← hlength] at hnum
    exact blockMessage_shows sha toSend hstatus hcount hnum
      ((hsize block hblock).trans (by decide))
  · refine ⟨splitLoop toSend 0, hblocks.symm, ?_, ?_⟩
    · rw [splitLoop_numbers, hlength]
    · exact splitLoop_cuts.joined sendableLength_pos toSend 0

/-- A body that is not empty is sent whole, unless it has too many blocks for their number
to fit its field: then nothing is sent. -/
theorem buildAndSendResponses_cases (hshuffle : ∀ blocks, (shuffle blocks).Perm blocks)
    {status : ℕ} (hstatus : status < 2 ^ 32) {toSend : Bytes} (hne : toSend ≠ []) :
    (∃ messages, IsReply sha messages ∧
      buildAndSendResponses sha shuffle status toSend = (messages, .ok ())) ∨
    2 ^ 32 ≤ toSend.length ⌈/⌉ sendableLength ∧
      ∃ e, buildAndSendResponses sha shuffle status toSend = ([], .error e) := by
  have hperm := hshuffle (splitLoop toSend 0)
  have hlength : (shuffle (splitLoop toSend 0)).length = toSend.length ⌈/⌉ sendableLength := by
    rw [hperm.length_eq, length_splitLoop]
  by_cases hcount : (shuffle (splitLoop toSend 0)).length < 2 ^ 32
  case pos =>
    have hreply := logicalReply_blocks sha hperm hstatus hne hcount
    refine .inl ⟨_, ⟨status, toSend, _, hreply⟩, ?_⟩
    rw [buildAndSendResponses, ← hlength]
    refine sendLoop_eq sha (sha.digest toSend) _ hstatus hcount ?_
    intro block hblock
    have hmem := hperm.mem_iff.mp hblock
    have hnum : block.1 ∈ (splitLoop toSend 0).map Prod.fst := List.mem_map_of_mem hmem
    rw [splitLoop_numbers, List.mem_range, ← hlength] at hnum
    have hsize := splitLoop_cuts.sizes sendableLength_pos toSend 0 block hmem
    have hsendable : sendableLength = 944 := rfl
    omega
  case neg =>
    rw [hlength] at hcount
    refine .inr ⟨Nat.le_of_not_lt hcount, ?_⟩
    have hpos : 0 < (shuffle (splitLoop toSend 0)).length := by omega
    obtain ⟨block, blocks, hcons⟩ := List.exists_cons_of_length_pos hpos
    simp only [buildAndSendResponses, hcons, sendLoop]
    split
    case h_1 e _ => exact ⟨e, rfl⟩
    case h_2 message hmessage => exact absurd (blocks_lt_of_assembleReply hmessage) hcount

end Blocks

/-! ## Replies -/

section Answers

variable (env : Environment) (arrival : Arrival)

/-- One reply has been sent after those before, or an exception is on its way that will
be answered. -/
def Answered (before : List (List Bytes)) (x : Session × Except PyError Unit) : Prop :=
  (∃ messages, IsReply env.sha messages ∧ delivered env arrival x.1 = before ++ [messages]) ∧
      x.2 = .ok () ∨
    delivered env arrival x.1 = before ∧ ∃ e, x.2 = .error e

/-- What the code checks before it sends the content of a file. -/
def Serves (users : Users) (username : String) (signature body content : Bytes) : Prop :=
  ∃ hash salt path c rest, users.lookup username = some (hash, salt) ∧
    hash = env.sha.digest (credential signature salt) ∧ decodeUtf8 body = .ok path ∧
    path.toList = c :: rest ∧
    arrival.files (if c = '/' then String.ofList rest else path) = .file content

/-- A registered user is served a file without content. -/
def ServesEmpty (users : Users) (attributes : Attributes) : Prop :=
  attributes.requestLength ≠ 0 ∧
    Serves env arrival users attributes.username attributes.signature attributes.body []

variable {env arrival}

theorem delivered_send (reply : Reply) (s : Session) :
    delivered env arrival (send (arrival.request env) reply s).1 =
      delivered env arrival s ++ [(arrival.respond env reply).1].filter (! ·.isEmpty) := by
  simp [delivered, send]

theorem send_empty {reply : Reply} (h : reply.payload = []) (s : Session) :
    delivered env arrival (send (arrival.request env) reply s).1 = delivered env arrival s ∧
      (send (arrival.request env) reply s).2 = .ok () := by
  have hrespond : arrival.respond env reply = ([], .ok ()) := by
    rw [Arrival.respond, h]
    exact buildAndSendResponses_empty env.sha (arrival.shuffle_perm reply) reply.status
  rw [delivered_send, hrespond]
  exact ⟨List.append_nil _, congrArg Prod.snd hrespond⟩

theorem send_cases (reply : Reply) (hstatus : reply.status < 2 ^ 32) (hne : reply.payload ≠ [])
    (s : Session) :
    ((∃ messages, IsReply env.sha messages ∧
        delivered env arrival (send (arrival.request env) reply s).1 =
          delivered env arrival s ++ [messages]) ∧
      (send (arrival.request env) reply s).2 = .ok ()) ∨
    2 ^ 32 ≤ reply.payload.length ⌈/⌉ sendableLength ∧
      delivered env arrival (send (arrival.request env) reply s).1 = delivered env arrival s ∧
      ∃ e, (send (arrival.request env) reply s).2 = .error e := by
  rw [delivered_send]
  rcases buildAndSendResponses_cases env.sha (arrival.shuffle_perm reply) hstatus hne with
    ⟨messages, hreply, hrespond⟩ | ⟨hlong, e, hrespond⟩
  · have hnonempty : messages ≠ [] := by
      obtain ⟨_, _, _, hlogical⟩ := hreply
      exact hlogical.nonempty
    refine .inl ⟨⟨messages, hreply, ?_⟩, congrArg Prod.snd hrespond⟩
    rw [Arrival.respond, hrespond]
    simp [hnonempty]
  · refine .inr ⟨hlong, ?_, e, congrArg Prod.snd hrespond⟩
    rw [Arrival.respond, hrespond]
    simp

theorem answered_send (reply : Reply) (hstatus : reply.status < 2 ^ 32)
    (hne : reply.payload ≠ []) (s : Session) :
    Answered env arrival (delivered env arrival s) (send (arrival.request env) reply s) := by
  rcases send_cases reply hstatus hne s with hsent | ⟨-, hraised⟩
  · exact .inl hsent
  · exact .inr hraised

theorem answered_raised (s : Session) (e : PyError) :
    Answered env arrival (delivered env arrival s) (s, .error e) := .inr ⟨rfl, e, rfl⟩

theorem encode_ne_nil {text : String} (h : 0 < text.toList.length) : encode text ≠ [] := by
  have hbytes := length_le_length_encode text
  apply List.ne_nil_of_length_pos
  omega

variable (env arrival) in
/-- An error with a text of reasonable length is sent. -/
theorem handleError_sent {status : ℕ} (hstatus : status < 2 ^ 32) (msgStr : String)
    (hpos : 0 < msgStr.toList.length) (hlength : msgStr.toList.length ≤ 2 ^ 24) (s : Session) :
    (∃ messages, IsReply env.sha messages ∧
        delivered env arrival (handleError (arrival.request env) status msgStr s).1 =
          delivered env arrival s ++ [messages]) ∧
      (handleError (arrival.request env) status msgStr s).2 = .ok () := by
  rcases send_cases (.error status msgStr) hstatus (encode_ne_nil hpos) s with
    hsent | ⟨hlong, -⟩
  · exact hsent
  · have hbytes := length_encode_le msgStr
    rw [ceilDiv_sendableLength, Reply.payload] at hlong
    omega

theorem handleError_answered {status : ℕ} (hstatus : status < 2 ^ 32) {msgStr : String}
    (hpos : 0 < msgStr.toList.length) (s : Session) :
    Answered env arrival (delivered env arrival s)
      (handleError (arrival.request env) status msgStr s) :=
  answered_send (.error status msgStr) hstatus (encode_ne_nil hpos) s

/-! ## Requests for files -/

theorem handleRequest_serves {s : Session} {username : String} {signature body content : Bytes}
    (h : Serves env arrival s.users username signature body content) :
    handleRequest env (arrival.request env) username signature body s =
      match readText content with
      | .error e => (s, .error e)
      | .ok data => send (arrival.request env) (.fileData username (encode data)) s := by
  obtain ⟨hash, salt, path, c, rest, hlookup, hhash, hpath, hcons, hfile⟩ := h
  cases hread : readText content <;>
    simp only [handleRequest, hlookup, hhash, hpath, hcons, Arrival.request, hfile, hread, ne_eq,
      not_true_eq_false, ↓reduceIte]

/-- A request that is not served a file is refused or raises. -/
theorem handleRequest_refused {s : Session} {username : String} {signature body : Bytes}
    (h : ∀ content, ¬Serves env arrival s.users username signature body content) :
    Answered env arrival (delivered env arrival s)
      (handleRequest env (arrival.request env) username signature body s) := by
  unfold handleRequest
  split
  case h_1 => exact handleError_answered (by decide) (by simp [toString]) s
  case h_2 hash salt hlookup =>
    split
    case isTrue => exact handleError_answered (by decide) (by simp [toString]) s
    case isFalse hhash =>
      split
      case h_1 e _ => exact answered_raised s e
      case h_2 path hpath =>
        split
        case h_1 => exact answered_raised s .indexError
        case h_2 c rest hcons =>
          simp only
          split
          case h_1 => exact handleError_answered (by decide) (by simp [toString]) s
          case h_2 => exact handleError_answered (by decide) (by simp [toString]) s
          case h_3 content hfile =>
            exact absurd ⟨hash, salt, path, c, rest, hlookup, not_not.mp hhash, hpath, hcons, hfile⟩
              (h content)

theorem readText_nil : readText [] = .ok "" := rfl

theorem readText_ne {content : Bytes} {data : String} (h : readText content = .ok data)
    (hne : content ≠ []) : 0 < data.toList.length := by
  obtain ⟨text, htext, h⟩ := ok_of_bind h
  cases h
  rw [String.toList_ofList]
  apply List.length_pos_of_ne_nil
  apply universalNewlines_ne_nil
  intro hnil
  rw [← encode_of_decodeUtf8 htext, encode, hnil] at hne
  exact hne rfl

/-- Exactly an empty file is answered with nothing. -/
theorem handleRequest_served {s : Session} {username : String} {signature body content : Bytes}
    (h : Serves env arrival s.users username signature body content) (hne : content ≠ []) :
    Answered env arrival (delivered env arrival s)
      (handleRequest env (arrival.request env) username signature body s) := by
  rw [handleRequest_serves h]
  split
  case h_1 e _ => exact answered_raised s e
  case h_2 data hdata =>
    exact answered_send (.fileData username (encode data)) (show STATUS_OK < 2 ^ 32 by decide)
      (encode_ne_nil (readText_ne hdata hne)) s

theorem handleRequest_empty {s : Session} {username : String} {signature body : Bytes}
    (h : Serves env arrival s.users username signature body []) :
    delivered env arrival (handleRequest env (arrival.request env) username signature body s).1 =
        delivered env arrival s ∧
      (handleRequest env (arrival.request env) username signature body s).2 = .ok () := by
  rw [handleRequest_serves h, readText_nil]
  exact send_empty rfl s

theorem handleRequest_answered {s : Session} {username : String} {signature body : Bytes}
    (h : ¬Serves env arrival s.users username signature body []) :
    Answered env arrival (delivered env arrival s)
      (handleRequest env (arrival.request env) username signature body s) := by
  by_cases hserves : ∃ content, Serves env arrival s.users username signature body content
  case pos =>
    obtain ⟨content, hserves⟩ := hserves
    apply handleRequest_served hserves
    rintro rfl
    exact h hserves
  case neg => exact handleRequest_refused (not_exists.mp hserves)

theorem registerNewUser_answered (username : String) (signature : Bytes) (s : Session) :
    Answered env arrival (delivered env arrival s)
      (registerNewUser env (arrival.request env) username signature s) := by
  unfold registerNewUser
  split
  · exact handleError_answered (by decide) (by decide) s
  · split
    · exact handleError_answered (by decide) (by simp [toString]) s
    · exact answered_send (.registered username) (show STATUS_OK < 2 ^ 32 by decide)
        (encode_ne_nil (by simp [toString])) _

/-! ## Whole messages -/

/-- The body is shorter than the length that the message gives for it. -/
def Malformed (attributes : Attributes) : Prop :=
  attributes.body.length ≠ attributes.requestLength

theorem parseRequest_body {message : Bytes} {attributes : Attributes}
    (h : parseRequest message = .ok attributes) :
    attributes.body.length ≤ attributes.requestLength := by
  obtain ⟨requestLength, -, h⟩ := ok_of_bind h
  obtain ⟨username, -, h⟩ := ok_of_bind h
  cases h
  simp only [slice, List.length_drop, List.length_take]
  omega

theorem handleBody_eq {attributes : Attributes} {request : Request} {s s' : Session}
    (hparsed : parseRequest (request.message.take MSG_MAX) = .ok attributes)
    (hcheck : (if attributes.body.length ≠ attributes.requestLength then
        handleError request STATUS_MALFORMED
          "Malformed request. Length of request does not match given length" s
      else (s, .ok ())) = (s', .ok ())) :
    handleBody env request s =
      if attributes.requestLength = 0 then
        registerNewUser env request attributes.username attributes.signature s'
      else handleRequest env request attributes.username attributes.signature attributes.body s' := by
  simp only [handleBody, hparsed, hcheck]

/-- There is one reply, or none, by whether `p` holds. -/
def RepliesIf (sha : Sha256) (p : Prop) (sent : List (List Bytes)) : Prop :=
  (p ∧ ∃ messages, IsReply sha messages ∧ sent = [messages]) ∨ (¬p ∧ sent = [])

variable (env arrival) in
/-- The check of the length: with or without its reply, the handler goes on. -/
theorem checkLength_replies (attributes : Attributes) (s : Session) :
    ∃ early s', RepliesIf env.sha (Malformed attributes) early ∧ s'.users = s.users ∧
      delivered env arrival s' = delivered env arrival s ++ early ∧
      (if attributes.body.length ≠ attributes.requestLength then
        handleError (arrival.request env) STATUS_MALFORMED
          "Malformed request. Length of request does not match given length" s
      else (s, .ok ())) = (s', .ok ()) := by
  by_cases hmalformed : Malformed attributes
  case pos =>
    obtain ⟨⟨messages, hreply, hdelivered⟩, hok⟩ :=
      handleError_sent env arrival (show STATUS_MALFORMED < 2 ^ 32 by decide)
        "Malformed request. Length of request does not match given length" (by decide) (by decide) s
    refine ⟨[messages], _, .inl ⟨hmalformed, messages, hreply, rfl⟩, ?_, hdelivered, ?_⟩
    · rfl
    · exact (if_pos hmalformed).trans (Prod.ext rfl hok)
  case neg => exact ⟨[], s, .inr ⟨hmalformed, rfl⟩, rfl, (List.append_nil _).symm, if_neg hmalformed⟩

variable (env) in
/-- After its check of the length the handler answers, except for an empty file. -/
theorem handleBody_replies {attributes : Attributes} (s : Session)
    (hparsed : parseRequest (arrival.message.take MSG_MAX) = .ok attributes) :
    ∃ early, RepliesIf env.sha (Malformed attributes) early ∧
      (ServesEmpty env arrival s.users attributes →
        delivered env arrival (handleBody env (arrival.request env) s).1 =
            delivered env arrival s ++ early ∧
          (handleBody env (arrival.request env) s).2 = .ok ()) ∧
      (¬ServesEmpty env arrival s.users attributes →
        Answered env arrival (delivered env arrival s ++ early)
          (handleBody env (arrival.request env) s)) := by
  obtain ⟨early, s', hearly, husers, hdelivered, hcheck⟩ :=
    checkLength_replies env arrival attributes s
  refine ⟨early, hearly, ?_⟩
  rw [handleBody_eq hparsed hcheck, ← hdelivered, ← husers]
  by_cases hzero : attributes.requestLength = 0
  case pos =>
    rw [if_pos hzero]
    constructor
    · intro hempty
      exact absurd hzero hempty.1
    · intro _
      exact registerNewUser_answered attributes.username attributes.signature s'
  case neg =>
    rw [if_neg hzero]
    constructor
    · intro hempty
      exact handleRequest_empty hempty.2
    · intro hne
      apply handleRequest_answered
      intro hserves
      exact hne ⟨hzero, hserves⟩

/-- An exception is answered by the handler of the exceptions. -/
theorem sent_answered (hdescribe : ∀ e, (env.describe e).toList.length ≤ 2 ^ 20) {users : Users}
    {before : List (List Bytes)}
    (h : Answered env arrival before (handleBody env (arrival.request env) ⟨users, []⟩)) :
    ∃ messages, IsReply env.sha messages ∧ sent env arrival users = before ++ [messages] := by
  rw [sent, handle]
  rcases hbody : handleBody env (arrival.request env) ⟨users, []⟩ with ⟨s, _ | _⟩
  case error e =>
    rw [hbody] at h
    rcases h with ⟨-, hok⟩ | ⟨hbefore, -⟩
    · cases hok
    · have hlength := hdescribe e
      obtain ⟨hsent, -⟩ := handleError_sent env arrival (show STATUS_OTHER < 2 ^ 32 by decide)
        s!"Something went wrong. {env.describe e}" (by simp [toString]) (by simp [toString]; omega) s
      rw [← hbefore]
      exact hsent
  case ok =>
    rw [hbody] at h
    rcases h with ⟨hsent, -⟩ | ⟨-, e, herror⟩
    · exact hsent
    · cases herror

theorem sent_ok {users : Users}
    (h : (handleBody env (arrival.request env) ⟨users, []⟩).2 = .ok ()) :
    sent env arrival users =
      delivered env arrival (handleBody env (arrival.request env) ⟨users, []⟩).1 := by
  rw [sent, handle]
  rcases hbody : handleBody env (arrival.request env) ⟨users, []⟩ with ⟨s, _ | _⟩
  case error e =>
    rw [hbody] at h
    cases h
  case ok => rfl

/-- What is sent because of the length of the body, and after it. -/
theorem sent_parsed (hdescribe : ∀ e, (env.describe e).toList.length ≤ 2 ^ 20) (users : Users)
    {attributes : Attributes}
    (hparsed : parseRequest (arrival.message.take MSG_MAX) = .ok attributes) :
    ∃ early late, sent env arrival users = early ++ late ∧
      RepliesIf env.sha (Malformed attributes) early ∧
      RepliesIf env.sha (¬ServesEmpty env arrival users attributes) late := by
  obtain ⟨early, hearly, hempty, hother⟩ := handleBody_replies env ⟨users, []⟩ hparsed
  by_cases hserves : ServesEmpty env arrival users attributes
  case pos =>
    obtain ⟨hdelivered, hok⟩ := hempty hserves
    refine ⟨early, [], ?_, hearly, .inr ⟨not_not.mpr hserves, rfl⟩⟩
    rw [sent_ok hok, hdelivered, List.append_nil]
    rfl
  case neg =>
    obtain ⟨messages, hreply, hsent⟩ := sent_answered hdescribe (hother hserves)
    exact ⟨early, [messages], hsent, hearly, .inl ⟨hserves, messages, hreply, rfl⟩⟩

/-- A message that is cut short of its fields, or whose name is no text. -/
theorem sent_unparsed (hdescribe : ∀ e, (env.describe e).toList.length ≤ 2 ^ 20) (users : Users)
    {e : PyError} (h : parseRequest (arrival.message.take MSG_MAX) = .error e) :
    ∃ messages, IsReply env.sha messages ∧ sent env arrival users = [messages] := by
  have hraised : handleBody env (arrival.request env) ⟨users, []⟩ = (⟨users, []⟩, .error e) := by
    unfold handleBody
    split
    case h_1 e' heq =>
      cases heq.symm.trans h
      rfl
    case h_2 attributes heq => cases heq.symm.trans h
  have hanswered : Answered env arrival [] (handleBody env (arrival.request env) ⟨users, []⟩) := by
    rw [hraised]
    exact answered_raised ⟨users, []⟩ e
  exact sent_answered hdescribe hanswered

end Answers

/-! ## How many replies -/

/-- A single logical reply and nothing else. -/
def OneReply (sha : Sha256) (sent : List (List Bytes)) : Prop :=
  ∃ messages, sent = [messages] ∧ IsReply sha messages

theorem RepliesIf.one {sha : Sha256} {p q : Prop} {early late : List (List Bytes)}
    (hearly : RepliesIf sha p early) (hlate : RepliesIf sha (¬q) late) :
    OneReply sha (early ++ late) ↔ (p ↔ q) := by
  rcases hearly with ⟨hp, messages, hreply, rfl⟩ | ⟨hp, rfl⟩ <;>
    rcases hlate with ⟨hq, messages', hreply', rfl⟩ | ⟨hq, rfl⟩
  · simp [OneReply, hp, hq]
  · simp [OneReply, hp, not_not.mp hq, hreply]
  · simp [OneReply, hp, hq, hreply']
  · simp [OneReply, hp, not_not.mp hq]

/-- The client gets exactly one logical reply, unless the length of the body is wrong or
the file is empty. Both at once make up for each other. -/
theorem one_reply_iff (env : Environment) (arrival : Arrival) (users : Users)
    (hdescribe : ∀ e, (env.describe e).toList.length ≤ 2 ^ 20) :
    OneReply env.sha (sent env arrival users) ↔
      ∀ attributes, parseRequest (arrival.message.take MSG_MAX) = .ok attributes →
        (Malformed attributes ↔ ServesEmpty env arrival users attributes) := by
  cases hparsed : parseRequest (arrival.message.take MSG_MAX) with
  | error e =>
    obtain ⟨messages, hreply, hsent⟩ := sent_unparsed hdescribe users hparsed
    simp [OneReply, hsent, hreply]
  | ok attributes =>
    obtain ⟨early, late, hsent, hearly, hlate⟩ := sent_parsed hdescribe users hparsed
    rw [hsent, hearly.one hlate]
    simp

/-- A message from the user `u` that gives a length, when every path is that of a file. -/
def sampleArrival (requestLength : ℕ) (body content : Bytes) : Arrival where
  message := 117 :: List.replicate 15 0 ++ List.replicate 32 107 ++
    BigEndian.encode 4 requestLength ++ body
  salt := sampleSalt
  files _ := .file content
  shuffle _ := List.reverse
  shuffle_perm _ := List.reverse_perm

/-- A registration is answered once. -/
theorem one_reply_iff_registration :
    OneReply sampleEnvironment.sha (sent sampleEnvironment (sampleArrival 0 [] []) []) := by
  apply (one_reply_iff sampleEnvironment (sampleArrival 0 [] []) [] (by simp [sampleEnvironment])).mpr
  intro attributes hparsed
  have hregistration : parseRequest ((sampleArrival 0 [] []).message.take MSG_MAX) =
      .ok ⟨"u", List.replicate 32 107, 0, []⟩ := rfl
  cases hregistration.symm.trans hparsed
  simp [Malformed, ServesEmpty]

theorem OneReply.length_eq {sha : Sha256} {sent : List (List Bytes)} (h : OneReply sha sent) :
    sent.length = 1 := by
  obtain ⟨messages, rfl, -⟩ := h
  rfl

/-- A body of one byte with the length two is answered twice, and the request of a
registered user for an empty file not at all. -/
theorem replies_two_or_none :
    ¬OneReply sampleEnvironment.sha (sent sampleEnvironment (sampleArrival 2 [102] [104]) []) ∧
      ¬OneReply sampleEnvironment.sha (sent sampleEnvironment (sampleArrival 1 [102] [])
        [("u", (sampleEnvironment.sha.digest (credential (List.replicate 32 107) sampleSalt),
          sampleSalt.val))]) := by
  constructor
  · intro h
    exact absurd h.length_eq (by decide +kernel)
  · intro h
    exact absurd h.length_eq (by decide +kernel)

end CompSys.CourseServer
