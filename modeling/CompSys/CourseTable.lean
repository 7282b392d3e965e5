import CompSys.CourseReply
import CompSys.UniqueKeys

/-!
# The table of names and signatures

A name belongs to the signature that was first registered for it. The server of A3 keeps salted
hashes; a table of names and signatures says what they are for.
-/
namespace CompSys.CourseServer

open Peer PythonText

/-! ## The table -/

abbrev Table := List (String × Bytes)

/-- What a message registers if the name is free. -/
def registration? (message : Bytes) : Option (String × Bytes) :=
  match parseRequest (message.take MSG_MAX) with
  | .error _ => none
  | .ok attributes =>
    if attributes.requestLength = 0 ∧ attributes.username ≠ "" then
      some (attributes.username, attributes.signature)
    else none

def Table.register (table : Table) (message : Bytes) : Table :=
  match registration? message with
  | none => table
  | some (username, signature) => UniqueKeys.insertNew table username signature

def tableAfter (messages : List Bytes) : Table := messages.foldl Table.register []

/-- The text of the file that a body asks for. -/
def content? (files : String → Lookup) (body : Bytes) : Option Bytes :=
  match decodeUtf8 body with
  | .error _ => none
  | .ok path =>
    match path.toList with
    | [] => none
    | c :: rest =>
      match files (if c = '/' then String.ofList rest else path) with
      | .file content => (readText content).toOption.map encode
      | _ => none

/-- The file that a message is to get, with the name it is for. -/
def Table.file? (table : Table) (files : String → Lookup) (message : Bytes) :
    Option (String × Bytes) :=
  match parseRequest (message.take MSG_MAX) with
  | .error _ => none
  | .ok attributes =>
    if attributes.requestLength ≠ 0 ∧
        table.lookup attributes.username = some attributes.signature then
      (content? files attributes.body).map fun data => (attributes.username, data)
    else none

/-! ## What a request does to the users -/

section Users

variable (env : Environment) (request : Request)

theorem handleRequest_users (username : String) (signature body : Bytes) (s : Session) :
    (handleRequest env request username signature body s).1.users = s.users := by
  unfold handleRequest
  split
  · rfl
  · split
    · rfl
    · split
      · rfl
      · split
        · rfl
        · simp only
          split
          · rfl
          · rfl
          · split <;> rfl

theorem registerNewUser_users (username : String) (signature : Bytes) (s : Session) :
    (registerNewUser env request username signature s).1.users =
      if username = "" ∨ (s.users.lookup username).isSome then s.users
      else s.users ++ [(username,
        (env.sha.digest (credential signature request.salt), request.salt.val))] := by
  unfold registerNewUser
  split
  case isTrue hempty =>
    rw [if_pos (.inl hempty)]
    rfl
  case isFalse hname =>
    split
    case isTrue hsome =>
      rw [if_pos (.inr hsome)]
      rfl
    case isFalse hnew =>
      rw [if_neg (not_or.mpr ⟨hname, hnew⟩)]
      rfl

variable {request}

/-- Its length is checked and it asks for a file: the users are left alone. -/
theorem handleBody_users {attributes : Attributes}
    (hparsed : parseRequest (request.message.take MSG_MAX) = .ok attributes)
    (hlength : attributes.requestLength ≠ 0) (s : Session) :
    (handleBody env request s).1.users = s.users := by
  have hcheck : (if attributes.body.length ≠ attributes.requestLength then
        handleError request STATUS_MALFORMED
          "Malformed request. Length of request does not match given length" s
      else (s, .ok ())).1.users = s.users := by
    split <;> rfl
  unfold handleBody
  simp only [hparsed]
  split
  case h_1 s' e heq =>
    rw [heq] at hcheck
    exact hcheck
  case h_2 s' heq =>
    rw [heq] at hcheck
    rw [if_neg hlength, handleRequest_users]
    exact hcheck

variable (request) in
theorem handle_users (s : Session) :
    (handle env request s).users = (handleBody env request s).1.users := by
  unfold handle
  split
  case h_1 s' heq => rw [heq]
  case h_2 s' e heq =>
    rw [heq]
    rfl

variable (request) in
/-- A request adds its registration if the name is free, and does nothing else. -/
theorem serve_users (users : Users) :
    (serve env users request).1 =
      match registration? request.message with
      | none => users
      | some (username, signature) =>
        if (users.lookup username).isSome then users
        else users ++ [(username,
          (env.sha.digest (credential signature request.salt), request.salt.val))] := by
  rw [serve, handle_users, registration?]
  cases hparsed : parseRequest (request.message.take MSG_MAX) with
  | error e =>
    unfold handleBody
    simp only [hparsed]
  | ok attributes =>
    by_cases hlength : attributes.requestLength = 0
    case neg =>
      simp only [hlength, false_and, ↓reduceIte]
      exact handleBody_users env hparsed hlength _
    case pos =>
      have hbody := parseRequest_body hparsed
      have hwell : ¬attributes.body.length ≠ attributes.requestLength := by omega
      rw [handleBody_eq hparsed (if_neg hwell), if_pos hlength, registerNewUser_users]
      by_cases hname : attributes.username = ""
      · simp [hname]
      · simp only [hlength, hname, false_or, ne_eq, not_false_eq_true, and_self, ↓reduceIte]

end Users

/-! ## The users stand for the table -/

section Refinement

variable {env : Environment} {requests : List Request} {users : Users} {table : Table}

/-- The hash and the salt that are stored under a name come from a signature presented for it. -/
def Stores (env : Environment) (requests : List Request) (username : String)
    (stored : Bytes × String) (signature : Bytes) : Prop :=
  (∃ request ∈ requests, Presents request username signature) ∧
    ∃ request ∈ requests,
      stored = (env.sha.digest (credential signature request.salt), request.salt.val)

def Refines (env : Environment) (requests : List Request) (users : Users) (table : Table) : Prop :=
  List.Forall₂ (fun user entry => user.1 = entry.1 ∧ Stores env requests user.1 user.2 entry.2)
    users table

theorem Stores.later {username : String} {stored : Bytes × String} {signature : Bytes}
    (h : Stores env requests username stored signature) (request : Request) :
    Stores env (requests ++ [request]) username stored signature := by
  obtain ⟨⟨first, hfirst, hpresents⟩, second, hsecond, hstored⟩ := h
  exact ⟨⟨first, List.mem_append_left _ hfirst, hpresents⟩, second,
    List.mem_append_left _ hsecond, hstored⟩

theorem presents_registration {request : Request} {username : String} {signature : Bytes}
    (h : registration? request.message = some (username, signature)) :
    Presents request username signature := by
  rw [registration?] at h
  cases hparsed : parseRequest (request.message.take MSG_MAX) with
  | error e =>
    rw [hparsed] at h
    cases h
  | ok attributes =>
    rw [hparsed] at h
    obtain ⟨-, h⟩ := Option.ite_none_right_eq_some.mp h
    cases h
    exact ⟨attributes, hparsed, rfl, rfl⟩

theorem Refines.lookup (h : Refines env requests users table) (username : String) :
    Option.Rel (Stores env requests username) (users.lookup username) (table.lookup username) :=
  UniqueKeys.lookup_forall₂ h username

theorem Refines.isSome_lookup (h : Refines env requests users table) (username : String) :
    (users.lookup username).isSome ↔ username ∈ table.map Prod.fst := by
  have hkeys : users.map Prod.fst = table.map Prod.fst := by
    refine List.forall₂_eq_eq_eq ▸ ?_
    rw [List.forall₂_map_left_iff, List.forall₂_map_right_iff]
    exact h.imp fun _ _ hentry => hentry.1
  rw [← hkeys]
  simp

theorem Refines.later (h : Refines env requests users table) (request : Request) :
    Refines env (requests ++ [request]) users table :=
  h.imp fun _ _ hentry => ⟨hentry.1, hentry.2.later request⟩

theorem refines_serve (h : Refines env requests users table) (request : Request) :
    Refines env (requests ++ [request]) (serve env users request).1
      (table.register request.message) := by
  have hlater := h.later request
  rw [serve_users, Table.register]
  cases hregistration : registration? request.message with
  | none => exact hlater
  | some new =>
    obtain ⟨username, signature⟩ := new
    dsimp only
    rw [UniqueKeys.insertNew]
    by_cases hold : username ∈ table.map Prod.fst
    case pos =>
      rw [if_pos hold, if_pos ((h.isSome_lookup username).mpr hold)]
      exact hlater
    case neg =>
      rw [if_neg hold, if_neg fun hsome => hold ((h.isSome_lookup username).mp hsome)]
      refine List.rel_append hlater (.cons ⟨rfl, ?_, ?_⟩ .nil)
      · exact ⟨request, List.mem_append_right _ List.mem_cons_self,
          presents_registration hregistration⟩
      · exact ⟨request, List.mem_append_right _ List.mem_cons_self, rfl⟩

/-- After every run. -/
theorem refines_usersAfter (env : Environment) (requests : List Request) :
    Refines env requests (usersAfter env requests) (tableAfter (requests.map Request.message)) := by
  induction requests using List.reverseRecOn with
  | nil => exact .nil
  | append_singleton requests request ih =>
    rw [usersAfter_append, List.map_append, tableAfter, List.foldl_append]
    exact refines_serve ih request

/-- Whoever presents a signature passes the check of the hashes exactly if the table has it. -/
theorem Refines.passes_iff (h : Refines env requests users table)
    (hsha : Set.InjOn env.sha.digest (credentialsOf requests)) {request : Request}
    (hrequest : request ∈ requests) {username : String} {signature : Bytes}
    (hpresents : Presents request username signature) :
    (∃ hash salt, users.lookup username = some (hash, salt) ∧
      hash = env.sha.digest (credential signature salt)) ↔
        table.lookup username = some signature := by
  have hlookup := h.lookup username
  cases hstored : users.lookup username with
  | none =>
    rw [hstored] at hlookup
    cases hentry : table.lookup username with
    | none => simp
    | some entry =>
      rw [hentry] at hlookup
      cases hlookup
  | some stored =>
    rw [hstored] at hlookup
    cases hentry : table.lookup username with
    | none =>
      rw [hentry] at hlookup
      cases hlookup
    | some registered =>
      rw [hentry] at hlookup
      obtain ⟨⟨first, hfirst, hregistered⟩, second, hsecond, rfl⟩ : Stores env requests username
          stored registered := by
        cases hlookup
        assumption
      have hmem : credential registered second.salt ∈ credentialsOf requests :=
        ⟨first, hfirst, second, hsecond, username, registered, hregistered, rfl⟩
      have hmem' : credential signature second.salt ∈ credentialsOf requests :=
        ⟨request, hrequest, second, hsecond, username, signature, hpresents, rfl⟩
      rw [Option.some_inj]
      constructor
      · intro ⟨hash, salt, heq, hhash⟩
        cases heq
        exact credential_injective (hsha hmem hmem' hhash)
      · rintro rfl
        exact ⟨_, _, rfl, rfl⟩

end Refinement

/-! ## The files that are sent -/

section Files

variable {request : Request} {username name : String} {data : Bytes}

theorem mem_handleError (status : ℕ) (message : String) (s : Session) :
    .fileData name data ∈ (handleError request status message s).1.replies ↔
      .fileData name data ∈ s.replies := by
  simp [handleError, send]

theorem registerNewUser_files (env : Environment) (signature : Bytes) (s : Session) :
    .fileData name data ∈ (registerNewUser env request username signature s).1.replies ↔
      .fileData name data ∈ s.replies := by
  unfold registerNewUser
  split
  · exact mem_handleError _ _ s
  · split
    · exact mem_handleError _ _ s
    · simp [send]

/-- The check of the signature has been passed. -/
theorem handleRequest_passed (env : Environment) {signature : Bytes} (body : Bytes) {s : Session}
    {hash : Bytes} {salt : String} (hlookup : s.users.lookup username = some (hash, salt))
    (hhash : hash = env.sha.digest (credential signature salt)) :
    .fileData name data ∈ (handleRequest env request username signature body s).1.replies ↔
      .fileData name data ∈ s.replies ∨
        name = username ∧ content? request.files body = some data := by
  have hpassed : ¬hash ≠ env.sha.digest (credential signature salt) := not_not.mpr hhash
  simp only [handleRequest, content?, hlookup, if_neg hpassed]
  cases decodeUtf8 body with
  | error e => simp
  | ok path =>
    dsimp only
    cases path.toList with
    | nil => simp
    | cons c rest =>
      dsimp only
      cases request.files (if c = '/' then String.ofList rest else path) with
      | missing => simp [mem_handleError]
      | notFile => simp [mem_handleError]
      | file content =>
        dsimp only
        cases readText content with
        | error e => simp [Except.toOption]
        | ok text => simp [Except.toOption, send, eq_comm]

theorem handleRequest_files (env : Environment) (signature body : Bytes) (s : Session) :
    .fileData name data ∈ (handleRequest env request username signature body s).1.replies ↔
      .fileData name data ∈ s.replies ∨
        name = username ∧
          (∃ hash salt, s.users.lookup username = some (hash, salt) ∧
            hash = env.sha.digest (credential signature salt)) ∧
          content? request.files body = some data := by
  by_cases hpasses : ∃ hash salt, s.users.lookup username = some (hash, salt) ∧
      hash = env.sha.digest (credential signature salt)
  case pos =>
    obtain ⟨hash, salt, hlookup, hhash⟩ := hpasses
    rw [handleRequest_passed env body hlookup hhash]
    have hpasses : ∃ hash salt, s.users.lookup username = some (hash, salt) ∧
      hash = env.sha.digest (credential signature salt) := ⟨hash, salt, hlookup, hhash⟩
    rw [and_iff_right hpasses]
  case neg =>
    rw [or_iff_left fun h => hpasses h.2.1]
    unfold handleRequest
    split
    case h_1 => exact mem_handleError _ _ s
    case h_2 hash salt hlookup =>
      have hwrong : hash ≠ env.sha.digest (credential signature salt) :=
        fun heq => hpasses ⟨hash, salt, hlookup, heq⟩
      rw [if_pos hwrong]
      exact mem_handleError _ _ s

theorem handle_files (env : Environment) (s : Session) :
    .fileData name data ∈ (handle env request s).replies ↔
      .fileData name data ∈ (handleBody env request s).1.replies := by
  unfold handle
  split
  case h_1 s' heq => rw [heq]
  case h_2 s' e heq =>
    rw [heq]
    exact mem_handleError _ _ s'

/-- After the check of the length the handler goes on, with the same users and files sent. -/
theorem checkLength_passes (env : Environment) (arrival : Arrival) (attributes : Attributes)
    (s : Session) :
    ∃ s', (if attributes.body.length ≠ attributes.requestLength then
        handleError (arrival.request env) STATUS_MALFORMED
          "Malformed request. Length of request does not match given length" s
      else (s, .ok ())) = (s', .ok ()) ∧ s'.users = s.users ∧
      ∀ name data, .fileData name data ∈ s'.replies ↔ .fileData name data ∈ s.replies := by
  by_cases hmalformed : Malformed attributes
  case pos =>
    have hok := (handleError_sent env arrival (show STATUS_MALFORMED < 2 ^ 32 by decide)
      "Malformed request. Length of request does not match given length" (by decide) (by decide)
      s).2
    refine ⟨(handleError (arrival.request env) STATUS_MALFORMED
      "Malformed request. Length of request does not match given length" s).1,
      (if_pos hmalformed).trans (Prod.ext rfl hok), rfl, ?_⟩
    intro name data
    exact mem_handleError _ _ s
  case neg => exact ⟨s, if_neg hmalformed, rfl, fun _ _ => Iff.rfl⟩

/-- A file is sent to the one who asks for it and passes the check of the hashes. -/
theorem serve_files (env : Environment) (arrival : Arrival) (users : Users) :
    .fileData name data ∈ (serve env users (arrival.request env)).2 ↔
      ∃ attributes, parseRequest (arrival.message.take MSG_MAX) = .ok attributes ∧
        attributes.requestLength ≠ 0 ∧ name = attributes.username ∧
        (∃ hash salt, users.lookup attributes.username = some (hash, salt) ∧
          hash = env.sha.digest (credential attributes.signature salt)) ∧
        content? arrival.files attributes.body = some data := by
  rw [serve, handle_files]
  cases hparsed : parseRequest (arrival.message.take MSG_MAX) with
  | error e =>
    have hbody : handleBody env (arrival.request env) ⟨users, []⟩ = (⟨users, []⟩, .error e) := by
      simp only [handleBody, Arrival.request, hparsed]
    rw [hbody]
    simp
  | ok attributes =>
    obtain ⟨s, hcheck, husers, hfiles⟩ := checkLength_passes env arrival attributes ⟨users, []⟩
    have hrequest : parseRequest ((arrival.request env).message.take MSG_MAX) = .ok attributes :=
      hparsed
    rw [handleBody_eq hrequest hcheck]
    by_cases hlength : attributes.requestLength = 0
    case pos =>
      rw [if_pos hlength, registerNewUser_files, hfiles]
      simp [hlength]
    case neg =>
      rw [if_neg hlength, handleRequest_files, hfiles, husers]
      simp [hlength, Arrival.request]

end Files

section Runs

/-- In every run, exactly the files are sent that the table of names and signatures allows, each
for its name. -/
theorem file_sent_iff_table (env : Environment) (arrivals : List Arrival) (arrival : Arrival)
    (hsha : Set.InjOn env.sha.digest
      (credentialsOf ((arrivals ++ [arrival]).map (Arrival.request env))))
    (username : String) (data : Bytes) :
    .fileData username data ∈
        (serve env (usersAfter env (arrivals.map (Arrival.request env))) (arrival.request env)).2 ↔
      (tableAfter (arrivals.map Arrival.message)).file? arrival.files arrival.message =
        some (username, data) := by
  have hrefines := refines_usersAfter env (arrivals.map (Arrival.request env))
  rw [List.map_map] at hrefines
  replace hrefines := hrefines.later (arrival.request env)
  rw [List.map_append] at hsha
  rw [serve_files, Table.file?]
  cases hparsed : parseRequest (arrival.message.take MSG_MAX) with
  | error e => simp
  | ok attributes =>
    have hpresents : Presents (arrival.request env) attributes.username attributes.signature :=
      ⟨attributes, hparsed, rfl, rfl⟩
    have hpasses := hrefines.passes_iff hsha (List.mem_append_right _ List.mem_cons_self) hpresents
    change _ ↔ (tableAfter (arrivals.map Arrival.message)).lookup attributes.username = _ at hpasses
    dsimp only
    simp only [Except.ok.injEq, exists_eq_left', hpasses, Option.ite_none_right_eq_some,
      Option.map_eq_some_iff, Prod.mk.injEq]
    constructor
    · rintro ⟨hlength, rfl, hregistered, hcontent⟩
      exact ⟨⟨hlength, hregistered⟩, data, hcontent, rfl, rfl⟩
    · rintro ⟨⟨hlength, hregistered⟩, _, hcontent, rfl, rfl⟩
      exact ⟨hlength, rfl, hregistered, hcontent⟩

/-- Hashes of a single credential do not collide. -/
theorem injOn_credential (sha : Sha256) {requests : List Request} (salt : Salt) (signature : Bytes)
    (hsalt : ∀ request ∈ requests, request.salt = salt)
    (hsignature : ∀ request ∈ requests, ∀ username s, Presents request username s → s = signature) :
    Set.InjOn sha.digest (credentialsOf requests) := by
  have hone : ∀ c ∈ credentialsOf requests, c = credential signature salt := by
    rintro c ⟨request, hrequest, request', hrequest', username, s, hpresents, rfl⟩
    rw [hsalt request' hrequest', hsignature request hrequest username s hpresents]
  intro c hc c' hc' _
  rw [hone c hc, hone c' hc']

/-- A user registers and asks for a file. -/
theorem file_sent_iff_table_once :
    .fileData "u" [104, 105] ∈ (serve sampleEnvironment
      (usersAfter sampleEnvironment [(sampleArrival 0 [] []).request sampleEnvironment])
      ((sampleArrival 1 [102] [104, 105]).request sampleEnvironment)).2 := by
  have hsha : Set.InjOn sampleEnvironment.sha.digest (credentialsOf
      (([sampleArrival 0 [] []] ++ [sampleArrival 1 [102] [104, 105]]).map
        (Arrival.request sampleEnvironment))) := by
    refine injOn_credential _ sampleSalt (List.replicate 32 107) ?_ ?_
    · intro request hrequest
      rcases List.mem_pair.mp hrequest with rfl | rfl <;> rfl
    · rintro request hrequest _ _ ⟨attributes, hparsed, -, rfl⟩
      rw [parseRequest_signature hparsed]
      rcases List.mem_pair.mp hrequest with rfl | rfl <;> rfl
  exact (file_sent_iff_table sampleEnvironment [sampleArrival 0 [] []]
    (sampleArrival 1 [102] [104, 105]) hsha "u" [104, 105]).mpr rfl

end Runs

end CompSys.CourseServer
