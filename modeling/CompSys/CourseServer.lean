import CompSys.PeerWire
import Mathlib.Data.Set.Function

/-!
# The server of A3

`server.py`: users register under a name with a signature, which is stored salted and
hashed, and get files with it. Each request is handled to its end, through the early
replies and through the handler of the exceptions that the code lets pass. Sending a
reply may raise, whatever has reached the client by then.
-/
namespace CompSys.CourseServer

open Peer PythonText

def MSG_MAX : ℕ := 1024

def LEN_USERNAME : ℕ := 16
def LEN_SIGNATURE : ℕ := 32
def LEN_REQUEST_LENGTH : ℕ := 4

def STATUS_OK : ℕ := 1
def STATUS_USER_EXISTS : ℕ := 2
def STATUS_USER_MISSING : ℕ := 3
def STATUS_INVALID_LOGIN : ℕ := 4
def STATUS_BAD_REQUEST : ℕ := 5
def STATUS_OTHER : ℕ := 6
def STATUS_MALFORMED : ℕ := 7

/-- What `_build_and_send_responses` is called with: an error, the note about a new user,
or the data of a file for a user. -/
inductive Reply where
  | error (status : ℕ) (message : String)
  | registered (username : String)
  | fileData (username : String) (data : Bytes)
  deriving DecidableEq

def Reply.status : Reply → ℕ
  | .error status _ => status
  | .registered _ => STATUS_OK
  | .fileData _ _ => STATUS_OK

def Reply.payload : Reply → Bytes
  | .error _ message => encode message
  | .registered username => encode s!"New user {username} registered."
  | .fileData _ data => data

/-- What `os.path` says of a path, with the content of a file. -/
inductive Lookup where
  | missing
  | notFile
  | file (content : Bytes)

/-- The result of `get_random_salt`. -/
abbrev Salt := { salt : String // salt.length = 64 }

/-- A message with what the server meets while it handles it. -/
structure Request where
  message : Bytes
  salt : Salt
  files : String → Lookup
  deliver : Reply → Except PyError Unit

/-- The hash and the salt under each name. -/
abbrev Users := List (String × (Bytes × String))

/-- The users and the replies to the request so far, the one being sent included. -/
structure Session where
  users : Users
  replies : List Reply

/-- SHA-256 and the texts of exceptions. -/
structure Environment where
  sha : Sha256
  describe : PyError → String

def send (request : Request) (reply : Reply) (s : Session) : Session × Except PyError Unit :=
  ({ s with replies := s.replies ++ [reply] }, request.deliver reply)

def handleError (request : Request) (status : ℕ) (message : String) (s : Session) :
    Session × Except PyError Unit :=
  send request (.error status message) s

/-- `str.encode(f"{signature}{salt}")`. -/
def credential (signature : Bytes) (salt : String) : Bytes :=
  encode (String.ofList (reprBytes signature ++ salt.toList))

def handleRequest (env : Environment) (request : Request) (username : String)
    (signature body : Bytes) (s : Session) : Session × Except PyError Unit :=
  match s.users.lookup username with
  | none =>
    handleError request STATUS_USER_MISSING s!"Cannot serve non-registered user '{username}'" s
  | some (hash, salt) =>
    if hash ≠ env.sha.digest (credential signature salt) then
      handleError request STATUS_INVALID_LOGIN s!"Signature hashes do not match for {username}." s
    else
      match decodeUtf8 body with
      | .error e => (s, .error e)
      | .ok path =>
        match path.toList with
        | [] => (s, .error .indexError)
        | c :: rest =>
          let getPath := if c = '/' then String.ofList rest else path
          match request.files getPath with
          | .missing =>
            handleError request STATUS_BAD_REQUEST s!"Requested content {getPath} does not exist" s
          | .notFile =>
            handleError request STATUS_BAD_REQUEST s!"Request URI {getPath} is not a file" s
          | .file content =>
            match readText content with
            | .error e => (s, .error e)
            | .ok data => send request (.fileData username (encode data)) s

def registerNewUser (env : Environment) (request : Request) (username : String)
    (signature : Bytes) (s : Session) : Session × Except PyError Unit :=
  if username = "" then
    handleError request STATUS_BAD_REQUEST "Cannot register empty username" s
  else if (s.users.lookup username).isSome then
    handleError request STATUS_USER_EXISTS
      s!"Cannot register user under name '{username}', already exists" s
  else
    let hash := env.sha.digest (credential signature request.salt)
    send request (.registered username)
      { s with users := s.users ++ [(username, (hash, request.salt.val))] }

/-- The attributes that a message is cut into. -/
structure Attributes where
  username : String
  signature : Bytes
  requestLength : ℕ
  body : Bytes

def parseRequest (message : Bytes) : Except PyError Attributes := do
  let username := slice message 0 LEN_USERNAME
  let signature := slice message LEN_USERNAME (LEN_USERNAME + LEN_SIGNATURE)
  let requestLength ← unpack (slice message (LEN_USERNAME + LEN_SIGNATURE)
    (LEN_USERNAME + LEN_SIGNATURE + LEN_REQUEST_LENGTH))
  let body := slice message (LEN_USERNAME + LEN_SIGNATURE + LEN_REQUEST_LENGTH)
    (LEN_USERNAME + LEN_SIGNATURE + LEN_REQUEST_LENGTH + requestLength)
  let username := stripNul (← decodeUtf8 username)
  return { username, signature, requestLength, body }

/-- The `try` block. The reply to a malformed length does not end it. -/
def handleBody (env : Environment) (request : Request) (s : Session) :
    Session × Except PyError Unit :=
  match parseRequest (request.message.take MSG_MAX) with
  | .error e => (s, .error e)
  | .ok attributes =>
    match (if attributes.body.length ≠ attributes.requestLength then
        handleError request STATUS_MALFORMED
          "Malformed request. Length of request does not match given length" s
      else (s, .ok ())) with
    | (s, .error e) => (s, .error e)
    | (s, .ok ()) =>
      if attributes.requestLength = 0 then
        registerNewUser env request attributes.username attributes.signature s
      else handleRequest env request attributes.username attributes.signature attributes.body s

/-- Every exception is answered with one more reply. -/
def handle (env : Environment) (request : Request) (s : Session) : Session :=
  match handleBody env request s with
  | (s, .ok ()) => s
  | (s, .error e) =>
    (handleError request STATUS_OTHER s!"Something went wrong. {env.describe e}" s).1

/-- The users after a request, and the replies to it. -/
def serve (env : Environment) (users : Users) (request : Request) : Users × List Reply :=
  let s := handle env request ⟨users, []⟩
  (s.users, s.replies)

/-- The users after requests that are handled one at a time. -/
def usersAfter (env : Environment) (requests : List Request) : Users :=
  requests.foldl (fun users request => (serve env users request).1) []

section Effect

variable (env : Environment) (request : Request) (users : Users)

/-- An error, or a file for a user whose stored hash is the one of the request. -/
def Permitted (reply : Reply) : Prop :=
  (∃ status message, reply = .error status message) ∨
    ∃ attributes hash salt data, parseRequest (request.message.take MSG_MAX) = .ok attributes ∧
      users.lookup attributes.username = some (hash, salt) ∧
      hash = env.sha.digest (credential attributes.signature salt) ∧
      reply = .fileData attributes.username data

/-- The users are left alone. -/
structure Kept (s : Session) : Prop where
  same : s.users = users
  replies : ∀ reply ∈ s.replies, Permitted env request users reply

/-- The user of the request was new and has been added. -/
structure Registered (attributes : Attributes) (s : Session) : Prop where
  parsed : parseRequest (request.message.take MSG_MAX) = .ok attributes
  new : users.lookup attributes.username = none
  extended : s.users = users ++
    [(attributes.username,
      (env.sha.digest (credential attributes.signature request.salt), request.salt.val))]
  noted : .registered attributes.username ∈ s.replies
  replies : ∀ reply ∈ s.replies,
    Permitted env request users reply ∨ reply = .registered attributes.username

variable {env request users}

theorem Kept.send {s : Session} (h : Kept env request users s) {reply : Reply}
    (hreply : Permitted env request users reply) : Kept env request users (send request reply s).1 where
  same := h.same
  replies := by
    intro reply' hmem
    rcases List.mem_append.mp hmem with hold | hnew
    · exact h.replies reply' hold
    · rw [List.mem_singleton.mp hnew]
      exact hreply

theorem Kept.handleError {s : Session} (h : Kept env request users s) (status : ℕ)
    (message : String) : Kept env request users (handleError request status message s).1 :=
  h.send (.inl ⟨status, message, rfl⟩)

theorem Registered.handleError {attributes : Attributes} {s : Session}
    (h : Registered env request users attributes s) (status : ℕ) (message : String) :
    Registered env request users attributes (handleError request status message s).1 where
  parsed := h.parsed
  new := h.new
  extended := h.extended
  noted := List.mem_append_left _ h.noted
  replies := by
    intro reply hmem
    rcases List.mem_append.mp hmem with hold | hnew
    · exact h.replies reply hold
    · exact .inl (.inl ⟨status, message, List.mem_singleton.mp hnew⟩)

/-- A file is sent only past the check of the credentials. -/
theorem handleRequest_kept {attributes : Attributes}
    (hparsed : parseRequest (request.message.take MSG_MAX) = .ok attributes) {s : Session}
    (h : Kept env request users s) (body : Bytes) :
    Kept env request users
      (handleRequest env request attributes.username attributes.signature body s).1 := by
  unfold handleRequest
  split
  case h_1 => exact h.handleError _ _
  case h_2 hash salt hlookup =>
    split
    case isTrue => exact h.handleError _ _
    case isFalse hhash =>
      split
      case h_1 => exact h
      case h_2 path _ =>
        split
        case h_1 => exact h
        case h_2 c rest _ =>
          simp only
          split
          case h_1 => exact h.handleError _ _
          case h_2 => exact h.handleError _ _
          case h_3 content _ =>
            split
            case h_1 => exact h
            case h_2 data _ =>
              rw [h.same] at hlookup
              exact h.send (.inr ⟨attributes, hash, salt, _, hparsed, hlookup, not_not.mp hhash, rfl⟩)

theorem registerNewUser_effect {attributes : Attributes}
    (hparsed : parseRequest (request.message.take MSG_MAX) = .ok attributes) {s : Session}
    (h : Kept env request users s) :
    Kept env request users
        (registerNewUser env request attributes.username attributes.signature s).1 ∨
      Registered env request users attributes
        (registerNewUser env request attributes.username attributes.signature s).1 := by
  unfold registerNewUser
  split
  case isTrue => exact .inl (h.handleError _ _)
  case isFalse =>
    split
    case isTrue => exact .inl (h.handleError _ _)
    case isFalse hnew =>
      rw [h.same, Option.isSome_iff_ne_none, not_not] at hnew
      right
      constructor
      · exact hparsed
      · exact hnew
      · exact congrArg (· ++ _) h.same
      · exact List.mem_append_right _ List.mem_cons_self
      · intro reply hmem
        rcases List.mem_append.mp hmem with hold | hsent
        · exact .inl (h.replies reply hold)
        · exact .inr (List.mem_singleton.mp hsent)

theorem handleBody_effect {s : Session} (h : Kept env request users s) :
    Kept env request users (handleBody env request s).1 ∨
      ∃ attributes, Registered env request users attributes (handleBody env request s).1 := by
  unfold handleBody
  split
  case h_1 => exact .inl h
  case h_2 attributes hparsed =>
    have hchecked : Kept env request users
        (if attributes.body.length ≠ attributes.requestLength then
          handleError request STATUS_MALFORMED
            "Malformed request. Length of request does not match given length" s
        else (s, .ok ())).1 := by
      split
      · exact h.handleError _ _
      · exact h
    split
    case h_1 s' e heq =>
      rw [heq] at hchecked
      exact .inl hchecked
    case h_2 s' heq =>
      rw [heq] at hchecked
      split
      case isTrue => exact (registerNewUser_effect hparsed hchecked).imp_right fun h => ⟨_, h⟩
      case isFalse => exact .inl (handleRequest_kept hparsed hchecked attributes.body)

/-- What a request does: it leaves the users alone, or it adds its own new one. Nothing
but an error, the note about that user or a permitted file is sent. -/
theorem handle_effect (env : Environment) (request : Request) (users : Users) :
    Kept env request users (handle env request ⟨users, []⟩) ∨
      ∃ attributes, Registered env request users attributes (handle env request ⟨users, []⟩) := by
  have hstart : Kept env request users ⟨users, []⟩ :=
    ⟨rfl, fun reply hmem => absurd hmem List.not_mem_nil⟩
  have hbody := handleBody_effect hstart
  unfold handle
  split
  case h_1 s heq =>
    rw [heq] at hbody
    exact hbody
  case h_2 s e heq =>
    rw [heq] at hbody
    rcases hbody with hkept | ⟨attributes, hregistered⟩
    · exact .inl (hkept.handleError _ _)
    · exact .inr ⟨attributes, hregistered.handleError _ _⟩

end Effect

section Runs

variable (env : Environment)

theorem usersAfter_append (requests : List Request) (request : Request) :
    usersAfter env (requests ++ [request]) = (serve env (usersAfter env requests) request).1 := by
  rw [usersAfter, List.foldl_append]
  rfl

/-- A name keeps what is stored under it. -/
theorem serve_lookup {users : Users} (request : Request) {username : String}
    {entry : Bytes × String} (h : users.lookup username = some entry) :
    (serve env users request).1.lookup username = some entry := by
  rcases handle_effect env request users with
    hkept | ⟨attributes, hregistered⟩
  · rw [serve, hkept.same]
    exact h
  · rw [serve, hregistered.extended, List.lookup_append, h]
    rfl

/-- In a longer run too. -/
theorem usersAfter_lookup {before : List Request} (after : List Request) {username : String}
    {entry : Bytes × String} (h : (usersAfter env before).lookup username = some entry) :
    (usersAfter env (before ++ after)).lookup username = some entry := by
  induction after using List.reverseRecOn with
  | nil =>
    rw [List.append_nil]
    exact h
  | append_singleton after request ih =>
    rw [← List.append_assoc, usersAfter_append]
    exact serve_lookup env request ih

/-- The name and the signature of the request. -/
def Presents (request : Request) (username : String) (signature : Bytes) : Prop :=
  ∃ attributes, parseRequest (request.message.take MSG_MAX) = .ok attributes ∧
    attributes.username = username ∧ attributes.signature = signature

/-- After the requests `before`, the request registers the name with the signature. -/
structure Registers (before : List Request) (request : Request) (username : String)
    (signature : Bytes) : Prop where
  presents : Presents request username signature
  new : (usersAfter env before).lookup username = none
  noted : .registered username ∈ (serve env (usersAfter env before) request).2

/-- Everything that is stored comes from a registration. -/
theorem usersAfter_source (requests : List Request) {username hash salt}
    (h : (usersAfter env requests).lookup username = some (hash, salt)) :
    ∃ earlier registration later signature, requests = earlier ++ registration :: later ∧
      Registers env earlier registration username signature ∧ salt = registration.salt ∧
      hash = env.sha.digest (credential signature salt) := by
  induction requests using List.reverseRecOn with
  | nil => cases h
  | append_singleton requests request ih =>
    rw [usersAfter_append] at h
    have hold : (usersAfter env requests).lookup username = some (hash, salt) →
        ∃ earlier registration later signature,
          requests ++ [request] = earlier ++ registration :: later ∧
          Registers env earlier registration username signature ∧ salt = registration.salt ∧
          hash = env.sha.digest (credential signature salt) := by
      intro hbefore
      obtain ⟨earlier, registration, later, signature, heq, hsource⟩ := ih hbefore
      refine ⟨earlier, registration, later ++ [request], signature, ?_, hsource⟩
      rw [heq, List.append_assoc]
      rfl
    rcases handle_effect env request (usersAfter env requests) with
      hkept | ⟨attributes, hregistered⟩
    · rw [serve, hkept.same] at h
      exact hold h
    · rw [serve, hregistered.extended, List.lookup_append, Option.or_eq_some_iff] at h
      rcases h with hbefore | ⟨-, hnew⟩
      · exact hold hbefore
      · rw [List.lookup_cons] at hnew
        split at hnew
        case h_2 => cases hnew
        case h_1 hname =>
          have heq : username = attributes.username := eq_of_beq hname
          cases hnew
          refine ⟨requests, request, [], attributes.signature, rfl, ⟨?_, ?_, ?_⟩, rfl, rfl⟩
          · exact ⟨attributes, hregistered.parsed, heq.symm, rfl⟩
          · exact heq ▸ hregistered.new
          · exact heq ▸ hregistered.noted

/-- The strings that a run may hash: a signature that was presented with a salt. -/
def credentialsOf (requests : List Request) : Set Bytes :=
  { c | ∃ request ∈ requests, ∃ request' ∈ requests, ∃ username signature,
    Presents request username signature ∧ c = credential signature request'.salt }

theorem credential_injective {signature signature' : Bytes} {salt : String}
    (h : credential signature salt = credential signature' salt) : signature = signature' := by
  have hstring := congrArg String.toList (encode_injective h)
  rw [String.toList_ofList, String.toList_ofList] at hstring
  exact reprBytes_append_injective hstring

/-- What is stored under a name never changes, and file data goes only to requests with
the signature that registered the name. -/
theorem authenticated_runs (requests : List Request)
    (hsha : Set.InjOn env.sha.digest (credentialsOf requests)) :
    (∀ before after username entry, requests = before ++ after →
      (usersAfter env before).lookup username = some entry →
        (usersAfter env requests).lookup username = some entry) ∧
    ∀ before request after username data, requests = before ++ request :: after →
      .fileData username data ∈ (serve env (usersAfter env before) request).2 →
        ((usersAfter env before).lookup username).isSome ∧
        ∃ earlier registration later signature, before = earlier ++ registration :: later ∧
          Registers env earlier registration username signature ∧
          Presents request username signature := by
  constructor
  · intro before after username entry heq h
    subst heq
    exact usersAfter_lookup env after h
  · intro before request after username data heq hdata
    have hpermitted : Permitted env request (usersAfter env before) (.fileData username data) := by
      rcases handle_effect env request (usersAfter env before) with
        hkept | ⟨attributes, hregistered⟩
      · exact hkept.replies _ hdata
      · rcases hregistered.replies _ hdata with hpermitted | hother
        · exact hpermitted
        · cases hother
    rcases hpermitted with ⟨_, _, herror⟩ | ⟨attributes, hash, salt, _, hparsed, hlookup, hhash, hreply⟩
    · cases herror
    cases hreply
    refine ⟨by rw [hlookup]; rfl, ?_⟩
    obtain ⟨earlier, registration, later, signature, hbefore, hregisters, hsalt, hhash'⟩ :=
      usersAfter_source env before hlookup
    have hmem : ∀ r, r ∈ before ∨ r = request → r ∈ requests := by
      intro r hr
      rw [heq]
      rcases hr with hr | hr
      · exact List.mem_append_left _ hr
      · exact hr ▸ List.mem_append_right _ List.mem_cons_self
    have hregistration : registration ∈ requests :=
      hmem _ (.inl (hbefore ▸ List.mem_append_right _ List.mem_cons_self))
    have hpresents : Presents request attributes.username attributes.signature :=
      ⟨attributes, hparsed, rfl, rfl⟩
    have hused : credential signature salt ∈ credentialsOf requests :=
      ⟨registration, hregistration, registration, hregistration, _, signature, hregisters.presents,
        by rw [hsalt]⟩
    have hused' : credential attributes.signature salt ∈ credentialsOf requests :=
      ⟨request, hmem _ (.inr rfl), registration, hregistration, _, _, hpresents, by rw [hsalt]⟩
    have hsame := credential_injective (hsha hused hused' (hhash'.symm.trans hhash))
    exact ⟨earlier, registration, later, signature, hbefore, hregisters, hsame ▸ hpresents⟩

theorem parseRequest_signature {message : Bytes} {attributes : Attributes}
    (h : parseRequest message = .ok attributes) :
    attributes.signature = slice message LEN_USERNAME (LEN_USERNAME + LEN_SIGNATURE) := by
  obtain ⟨requestLength, -, h⟩ := ok_of_bind h
  obtain ⟨username, -, h⟩ := ok_of_bind h
  cases h
  rfl

end Runs

section Sample

def sampleSalt : Salt := ⟨String.ofList (List.replicate 64 'a'), by decide⟩

/-- A message from the user `u` with a signature of one repeated byte. -/
def sampleRequest (signatureByte : UInt8) (body : Bytes) : Request where
  message := 117 :: List.replicate 15 0 ++ List.replicate 32 signatureByte ++
    BigEndian.encode 4 body.length ++ body
  salt := sampleSalt
  files _ := .file [104, 105]
  deliver _ := .ok ()

theorem sampleRequest_signature (signatureByte : UInt8) (body : Bytes) (h : body.length ≤ 1) :
    slice ((sampleRequest signatureByte body).message.take MSG_MAX) LEN_USERNAME
      (LEN_USERNAME + LEN_SIGNATURE) = List.replicate 32 signatureByte := by
  have hmax : MSG_MAX = 1024 := rfl
  rw [List.take_of_length_le]
  · exact slice_field (117 :: List.replicate 15 0) _ (BigEndian.encode 4 body.length ++ body)
      (by simp only [sampleRequest, List.append_assoc]) rfl rfl
  · simp only [sampleRequest, List.length_append, List.length_cons, List.length_replicate,
      BigEndian.length_encode]
    omega

/-- SHA-256 on the credentials of two signatures, of which only one has the byte 107. -/
def sampleEnvironment : Environment where
  sha := {
    digest := fun data =>
      if 107 ∈ data then
        [0x29, 0xfd, 0x9d, 0xaf, 0x85, 0x11, 0x5a, 0x7e, 0x72, 0x21, 0xc3, 0x2f, 0xc1, 0xa0, 0x79,
        0xb9, 0x3a, 0xc1, 0x9b, 0x1f, 0x54, 0x6d, 0xfc, 0x96, 0xa7, 0xc9, 0x8a, 0xc3, 0x5a, 0x2d,
        0x7d, 0xc7]
      else
        [0x00, 0x7b, 0xf0, 0xf6, 0x71, 0xfc, 0x59, 0xe4, 0x30, 0xc8, 0xa5, 0x59, 0x76, 0x49, 0x18,
        0x42, 0x10, 0xa0, 0xac, 0xd5, 0x53, 0xcc, 0xec, 0xbf, 0x95, 0xd8, 0x2c, 0x18, 0xdf, 0x96,
        0x7a, 0x4a]
    length_digest := by
      intro data
      split <;> rfl }
  describe _ := ""

/-- A registration, a request with another signature and one with the right one. -/
theorem authenticated_runs_sample :
    .fileData "u" [104, 105] ∈ (serve sampleEnvironment
        (usersAfter sampleEnvironment [sampleRequest 107 [], sampleRequest 108 [102]])
        (sampleRequest 107 [102])).2 ∧
      ∃ earlier registration later signature,
        [sampleRequest 107 [], sampleRequest 108 [102]] = earlier ++ registration :: later ∧
        Registers sampleEnvironment earlier registration "u" signature ∧
        Presents (sampleRequest 107 [102]) "u" signature := by
  have hdata : .fileData "u" [104, 105] ∈ (serve sampleEnvironment
      (usersAfter sampleEnvironment [sampleRequest 107 [], sampleRequest 108 [102]])
      (sampleRequest 107 [102])).2 := by
    decide +kernel
  have hsha : Set.InjOn sampleEnvironment.sha.digest (credentialsOf
      ([sampleRequest 107 [], sampleRequest 108 [102]] ++ [sampleRequest 107 [102]])) := by
    have hcases : ∀ r ∈ [sampleRequest 107 [], sampleRequest 108 [102]] ++ [sampleRequest 107 [102]],
        r = sampleRequest 107 [] ∨ r = sampleRequest 108 [102] ∨ r = sampleRequest 107 [102] := by
      intro r hr
      simpa using hr
    have hcredential : ∀ c ∈ credentialsOf
        ([sampleRequest 107 [], sampleRequest 108 [102]] ++ [sampleRequest 107 [102]]),
        c = credential (List.replicate 32 107) sampleSalt ∨
          c = credential (List.replicate 32 108) sampleSalt := by
      intro c hc
      obtain ⟨request, hrequest, request', hrequest', _, signature, hpresents, heq⟩ := hc
      obtain ⟨attributes, hparsed, -, hsignature⟩ := hpresents
      rw [parseRequest_signature hparsed] at hsignature
      have hsalt : request'.salt = sampleSalt := by
        rcases hcases request' hrequest' with rfl | rfl | rfl <;> rfl
      rw [heq, ← hsignature, hsalt]
      rcases hcases request hrequest with rfl | rfl | rfl
      · exact .inl (by rw [sampleRequest_signature 107 [] (Nat.zero_le 1)])
      · exact .inr (by rw [sampleRequest_signature 108 [102] le_rfl])
      · exact .inl (by rw [sampleRequest_signature 107 [102] le_rfl])
    have hdistinct : sampleEnvironment.sha.digest (credential (List.replicate 32 107) sampleSalt) ≠
        sampleEnvironment.sha.digest (credential (List.replicate 32 108) sampleSalt) := by
      decide +kernel
    intro c hc c' hc' heq
    rcases hcredential c hc with h | h <;> rcases hcredential c' hc' with h' | h' <;> rw [h, h'] at heq
    · exact h.trans h'.symm
    · exact absurd heq hdistinct
    · exact absurd heq.symm hdistinct
    · exact h.trans h'.symm
  exact ⟨hdata, ((authenticated_runs sampleEnvironment _ hsha).2 _ _ [] "u" _ rfl hdata).2⟩

end Sample

end CompSys.CourseServer
