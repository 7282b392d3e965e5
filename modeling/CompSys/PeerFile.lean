import CompSys.PeerHandle
import Mathlib.Data.Bool.AllAny

/-!
# A file on its way from one Python peer of A4 to another

The server reads the file as text and encodes the text; the client joins the blocks of the
reply and writes them as they are. The file that is written is the one that was read
exactly if reading it as text has changed nothing.
-/
namespace CompSys.Peer

open PythonText

variable {σ : Type}

/-- What `to_server` with COMMAND_RETREIVE writes to the local file, if it gets so far. -/
def retrieve (sha : Sha256) (remote : Remote σ) (fuel : Nat) (message : Bytes) :
    Option (Except PyError (Option Bytes)) :=
  match sendToServer sha remote fuel message true with
  | none => none
  | some (.error e) => some (.error e)
  | some (.ok (response, _)) =>
    if response.status = STATUS_OK then
      match response.data with
      | .bytes data => some (.ok (some data))
      | .msg _ => some (.error .typeError)
    else some (.ok none)

/-- The message asks for the file at the path. -/
def AsksFor (bytesMessage : Bytes) (path : String) : Prop :=
  ∃ message, parseMessage (bytesMessage.take MSG_MAX) = .ok message ∧
    message.payload.length = message.payloadLength ∧ message.code = COMMAND_RETREIVE ∧
    message.payload = encode path

/-- A file in the directory of the peer, which is not retrieving it itself. -/
structure Serves (env : Surroundings) (path : String) (content : Bytes) : Prop where
  inside : env.files.getcwd.toList <+: (env.files.abspath path).toList
  pathExists : env.files.pathExists (env.files.abspath path) = true
  isFile : env.files.isFile (env.files.abspath path) = true
  finished : path ∉ env.currentlyRetreiving
  contents : env.files.contents (env.files.abspath path) = .ok content

/-- The messages that the client receives, in this order. -/
def wire (s : Session) : List Bytes := s.sent.flatMap Sent.messages

/-! ## The request -/

/-- What a client asks with is understood. -/
theorem assembleMessage_asksFor (ip path : String) (port : Nat) {bytesMessage : Bytes}
    (hip : ∀ c ∈ ip.toList, c.toNat < 128)
    (h : assembleMessage ip port COMMAND_RETREIVE (encode path) = .ok bytesMessage)
    (hlength : bytesMessage.length ≤ MSG_MAX) : AsksFor bytesMessage path := by
  obtain ⟨portField, hport, h⟩ := ok_of_bind h
  obtain ⟨codeField, hcode, h⟩ := ok_of_bind h
  obtain ⟨lengthField, hpayload, h⟩ := ok_of_bind h
  obtain ⟨hportLt, rfl⟩ := pack_ok hport
  obtain ⟨hcodeLt, rfl⟩ := pack_ok hcode
  obtain ⟨hpayloadLt, rfl⟩ := pack_ok hpayload
  have hmessage : bytesMessage = padIp ip.toList ++ BigEndian.encode 4 port ++
      BigEndian.encode 4 COMMAND_RETREIVE ++ BigEndian.encode 4 (encode path).length ++
      encode path := (Except.ok.inj h).symm
  refine ⟨⟨stripNul (String.ofList ((ip.toList.take LEN_IP).rightpad LEN_IP (Char.ofNat 0))), port,
    COMMAND_RETREIVE, (encode path).length, encode path⟩, ?_, rfl, rfl, rfl⟩
  rw [List.take_of_length_le hlength, hmessage,
    parseMessage_joined (encode path) (length_padIp_ascii hip) hportLt hcodeLt hpayloadLt,
    padIp_eq_encode, decodeUtf8_encode]
  rfl

/-! ## The reply -/

theorem handleRequest_serves (env : Surroundings) {path data : String} {content : Bytes}
    (hserves : Serves env path content) (hread : readText content = .ok data) (s : Session) :
    handleRequest env (encode path) s = reply env STATUS_OK (encode data) s := by
  simp only [handleRequest, decodeUtf8_encode, hserves.inside, hserves.pathExists, hserves.isFile,
    hserves.finished, hserves.contents, hread, not_true_eq_false, ↓reduceIte]

/-- A file is served as the encoding of what its text is read as. -/
theorem handle_serves (env : Surroundings) (network : Network) {bytesMessage content : Bytes}
    {path text : String} (hasks : AsksFor bytesMessage path) (hserves : Serves env path content)
    (htext : decodeUtf8 content = .ok text) :
    ∃ r, (handle env bytesMessage ⟨network, []⟩).sent = [r] ∧ Complete env.sha r ∧
      (makeBlocks r.payload).1 < 2 ^ 32 ∧
      ((r.status = STATUS_OK ∧
          r.payload = encode (String.ofList (universalNewlines text.toList))) ∨
        (r.status = STATUS_OTHER ∧
          ¬(makeBlocks (encode (String.ofList (universalNewlines text.toList)))).1 < 2 ^ 32)) := by
  obtain ⟨message, hparse, hlength, hcode, hpath⟩ := hasks
  have hread : readText content = .ok (String.ofList (universalNewlines text.toList)) := by
    rw [readText, htext]
    rfl
  have hbody : handleBody env bytesMessage ⟨network, []⟩ =
      reply env STATUS_OK (encode (String.ofList (universalNewlines text.toList)))
        (expired env message ⟨network, []⟩) := by
    rw [handleBody_command env ⟨network, []⟩ hparse hlength, hcode, hpath,
      ← handleRequest_serves env hserves hread]
    rfl
  rcases reply_cases env STATUS_OK (by decide)
      (encode (String.ofList (universalNewlines text.toList))) (expired env message ⟨network, []⟩) with
    ⟨hfits, messages, hcomplete, hreply⟩ | ⟨hlong, e, hreply⟩
  · refine ⟨_, ?_, hcomplete, hfits, .inl ⟨rfl, rfl⟩⟩
    rw [handle, hbody, hreply]
    rfl
  · have hshort := env.describe_short e
    have hdescribed : (s!"Something went wrong. {env.describe e}").toList.length ≤ 2 ^ 24 := by
      simp [toString]
      omega
    obtain ⟨r, hcomplete, ⟨hstatus, hpayload⟩, hsent⟩ := handleError_sent env STATUS_OTHER
      (by decide) s!"Something went wrong. {env.describe e}" hdescribed
      (expired env message ⟨network, []⟩)
    refine ⟨r, ?_, hcomplete, ?_, .inr ⟨hstatus, hlong⟩⟩
    · rw [handle, hbody, hreply]
      simp only [hsent]
      rfl
    · rw [hpayload]
      exact fits_of_length hdescribed

/-! ## The client -/

section Client

variable {sha : Sha256} {r : Sent}

/-- The payload of a reply with status OK is written. -/
theorem retrieve_ok (h : Complete sha r) (hfits : (makeBlocks r.payload).1 < 2 ^ 32)
    (hstatus : r.status = STATUS_OK) {fuel : Nat} (hfuel : r.messages.length ≤ fuel)
    (message : Bytes) :
    retrieve sha (exactly r.messages.flatten) fuel message = some (.ok (some r.payload)) := by
  obtain ⟨blocks, hperm, hmessages⟩ := h
  rw [hstatus] at hmessages
  rw [hmessages, List.length_map] at hfuel
  have hreceive := receiveLoop_blocks sha r.messages.flatten [] (makeBlocks_splits r.payload) hfits
    blocks fuel [] none hperm (ne_nil_of_perm hperm) hfuel rfl
  rw [← hmessages, List.append_nil] at hreceive
  rw [retrieve, sendToServer_exactly, hreceive]
  rfl

/-- Nothing is written after another status. -/
theorem retrieve_refused (h : Complete sha r) (hfits : (makeBlocks r.payload).1 < 2 ^ 32)
    (hstatus : r.status < 2 ^ 32) (hother : r.status ≠ STATUS_OK) {fuel : Nat}
    (hfuel : r.messages.length ≤ fuel) (message : Bytes) :
    retrieve sha (exactly r.messages.flatten) fuel message = some (.ok none) := by
  obtain ⟨blocks, hperm, hmessages⟩ := h
  obtain ⟨block, rest, rfl⟩ := List.exists_cons_of_ne_nil (ne_nil_of_perm hperm)
  rw [hmessages, List.length_map, List.length_cons] at hfuel
  obtain ⟨fuel, rfl⟩ := Nat.exists_eq_succ_of_ne_zero (show fuel ≠ 0 by omega)
  have hblock := hperm.mem_iff.mp List.mem_cons_self
  have hsplits := makeBlocks_splits r.payload
  have hsize := hsplits.sizes block hblock
  have hsendable : sendableLength = 8116 := rfl
  have hround := readBlock_message sha r.status r.messages.flatten
    (rest.map (blockMessage sha r.status (makeBlocks r.payload).1 (sha.digest r.payload))).flatten
    r.payload none hstatus hfits (hsplits.number_lt hblock) (by omega) rfl
    List.length_replicate
  rw [if_pos hother, ← List.flatten_cons, ← List.map_cons, ← hmessages] at hround
  rw [retrieve, sendToServer_exactly, receiveLoop, hround]
  rfl

end Client

/-! ## The whole way -/

theorem makeBlocks_lt_iff (payload : Bytes) :
    (makeBlocks payload).1 < 2 ^ 32 ↔ payload.length ≤ sendableLength * (2 ^ 32 - 1) := by
  have hsendable : sendableLength = 8116 := rfl
  unfold makeBlocks
  split
  case isTrue hempty =>
    rw [hempty]
    exact iff_of_true (show 1 < 2 ^ 32 by decide) (Nat.zero_le _)
  case isFalse hne =>
    have hcount : payload.length ⌈/⌉ sendableLength = (payload.length + 8115) / 8116 := rfl
    simp only [hcount]
    omega

/-- Reading as text changes the bytes of a file exactly if one of them is a carriage return. -/
theorem encode_universalNewlines_iff {content : Bytes} {text : String}
    (htext : decodeUtf8 content = .ok text) :
    encode (String.ofList (universalNewlines text.toList)) = content ↔ 13 ∉ content := by
  have hcontent := encode_of_decodeUtf8 htext
  have hreturn : (13 : UInt8) ∈ content ↔ '\r' ∈ text.toList := by
    rw [← hcontent]
    exact mem_encode_ascii (by decide) text
  rw [hreturn, ← universalNewlines_eq_self_iff]
  constructor
  · intro h
    have htexts := congrArg String.toList (encode_injective (h.trans hcontent.symm))
    rw [String.toList_ofList] at htexts
    exact htexts
  · intro h
    rw [h, String.ofList_toList, hcontent]

/-- The client writes the encoding of what the text of the file is read as. -/
theorem retrieve_served (env : Surroundings) (network : Network) {bytesMessage content : Bytes}
    {path text : String} (hasks : AsksFor bytesMessage path) (hserves : Serves env path content)
    (htext : decodeUtf8 content = .ok text)
    (hfits : (makeBlocks (encode (String.ofList (universalNewlines text.toList)))).1 < 2 ^ 32)
    {fuel : Nat} (hfuel : (wire (handle env bytesMessage ⟨network, []⟩)).length ≤ fuel) :
    retrieve env.sha (exactly (wire (handle env bytesMessage ⟨network, []⟩)).flatten) fuel
        bytesMessage =
      some (.ok (some (encode (String.ofList (universalNewlines text.toList))))) := by
  obtain ⟨r, hsent, hcomplete, hcount, hpayload⟩ := handle_serves env network hasks hserves htext
  have hwire : wire (handle env bytesMessage ⟨network, []⟩) = r.messages := by
    rw [wire, hsent, List.flatMap_singleton]
  rw [hwire] at hfuel ⊢
  rcases hpayload with ⟨hstatus, hserved⟩ | ⟨-, hlong⟩
  · rw [retrieve_ok hcomplete hcount hstatus hfuel bytesMessage, hserved]
  · exact absurd hfits hlong

/-- Nothing is written when the blocks cannot be counted. -/
theorem retrieve_long (env : Surroundings) (network : Network) {bytesMessage content : Bytes}
    {path text : String} (hasks : AsksFor bytesMessage path) (hserves : Serves env path content)
    (htext : decodeUtf8 content = .ok text)
    (hlong : ¬(makeBlocks (encode (String.ofList (universalNewlines text.toList)))).1 < 2 ^ 32)
    {fuel : Nat} (hfuel : (wire (handle env bytesMessage ⟨network, []⟩)).length ≤ fuel) :
    retrieve env.sha (exactly (wire (handle env bytesMessage ⟨network, []⟩)).flatten) fuel
      bytesMessage = some (.ok none) := by
  obtain ⟨r, hsent, hcomplete, hcount, hpayload⟩ := handle_serves env network hasks hserves htext
  have hwire : wire (handle env bytesMessage ⟨network, []⟩) = r.messages := by
    rw [wire, hsent, List.flatMap_singleton]
  rw [hwire] at hfuel ⊢
  rcases hpayload with ⟨-, hserved⟩ | ⟨hstatus, -⟩
  · exact absurd (hserved ▸ hcount) hlong
  · have hsmall : r.status < 2 ^ 32 := by
      rw [hstatus]
      decide
    have hother : r.status ≠ STATUS_OK := by
      rw [hstatus]
      decide
    exact retrieve_refused hcomplete hcount hsmall hother hfuel bytesMessage

/-- The bytes that the client writes are those of the file that is served, in every order of
the blocks, exactly if the file has no carriage return and its blocks can be counted. -/
theorem transfer_identity_iff (env : Surroundings) (network : Network)
    {bytesMessage content : Bytes} {path text : String} (hasks : AsksFor bytesMessage path)
    (hserves : Serves env path content) (htext : decodeUtf8 content = .ok text) :
    (∀ fuel, (wire (handle env bytesMessage ⟨network, []⟩)).length ≤ fuel →
      retrieve env.sha (exactly (wire (handle env bytesMessage ⟨network, []⟩)).flatten) fuel
        bytesMessage = some (.ok (some content))) ↔
    13 ∉ content ∧ content.length ≤ sendableLength * (2 ^ 32 - 1) := by
  rw [← makeBlocks_lt_iff, ← encode_universalNewlines_iff htext]
  by_cases hfits : (makeBlocks (encode (String.ofList (universalNewlines text.toList)))).1 < 2 ^ 32
  case pos =>
    constructor
    · intro h
      have hwritten := (retrieve_served env network hasks hserves htext hfits le_rfl).symm.trans
        (h _ le_rfl)
      simp only [Option.some.injEq, Except.ok.injEq] at hwritten
      exact ⟨hwritten, hwritten ▸ hfits⟩
    · intro ⟨hsame, _⟩ fuel hfuel
      rw [retrieve_served env network hasks hserves htext hfits hfuel, hsame]
  case neg =>
    constructor
    · intro h
      have hwritten := (retrieve_long env network hasks hserves htext hfits le_rfl).symm.trans
        (h _ le_rfl)
      cases hwritten
    · intro ⟨hsame, hcount⟩
      rw [hsame] at hfits
      exact absurd hcount hfits

section Sample

/-- A peer that serves one file. SHA-256 is used on the bytes of "hi" and a line feed. -/
def oneFile (content : Bytes) : Surroundings where
  sha := ⟨fun _ => [0x98, 0xea, 0x6e, 0x4f, 0x21, 0x6f, 0x2f, 0xb4, 0xb6, 0x9f, 0xff, 0x9b, 0x3a, 0x44, 0x84,
    0x2c, 0x38, 0x68, 0x6c, 0xa6, 0x85, 0xf3, 0xf5, 0x5d, 0xc4, 0x8c, 0x5d, 0x3f, 0xb1, 0x10,
    0x7b, 0xe4], fun _ => rfl⟩
  shuffle _ blocks := blocks.reverse
  describe _ := ""
  ip := "10.0.0.1"
  port := 5
  connect _ _ := .ok ()
  files := {
    getcwd := "/srv"
    abspath := fun path => "/srv/" ++ path
    pathExists := fun path => path = "/srv/a.txt"
    isFile := fun path => path = "/srv/a.txt"
    contents := fun _ => .ok content }
  currentlyRetreiving := []
  now := 0
  registered := 0
  perm_shuffle _ blocks := blocks.reverse_perm
  describe_short := noText_short
  port_lt := samplePort_lt

/-- The message of a client at 10.0.0.2:7. -/
def askForFile : Bytes :=
  [49, 48, 46, 48, 46, 48, 46, 50, 0, 0, 0, 0, 0, 0, 0, 0, 0, 0, 0, 7, 0, 0, 0, 2, 0, 0, 0,
    5, 97, 46, 116, 120, 116]

theorem askForFile_asksFor : AsksFor askForFile "a.txt" :=
  assembleMessage_asksFor "10.0.0.2" "a.txt" 7 (List.all_iff_forall_prop.mp rfl) (by decide +kernel)
    (by decide)

theorem oneFile_serves (content : Bytes) : Serves (oneFile content) "a.txt" content := by
  have hpath : decide ("/srv/" ++ "a.txt" = "/srv/a.txt") = true := by decide +kernel
  constructor
  · change "/srv".toList <+: ("/srv/" ++ "a.txt").toList
    decide
  · exact hpath
  · exact hpath
  · exact List.not_mem_nil
  · rfl

/-- A file with a line feed is written as it is served. -/
theorem transfer_identity_hi :
    retrieve (oneFile [104, 105, 10]).sha
      (exactly (wire (handle (oneFile [104, 105, 10]) askForFile ⟨[], []⟩)).flatten)
      (wire (handle (oneFile [104, 105, 10]) askForFile ⟨[], []⟩)).length askForFile =
        some (.ok (some [104, 105, 10])) := by
  have htext : decodeUtf8 [104, 105, 10] = .ok "hi\n" := by decide +kernel
  have hsame := (transfer_identity_iff (oneFile [104, 105, 10]) [] askForFile_asksFor
    (oneFile_serves [104, 105, 10]) htext).mpr ⟨by decide, by decide⟩
  exact hsame _ le_rfl

/-- A file with the line end of another system loses its carriage return. -/
theorem transfer_identity_carriage_return :
    ¬∀ (env : Surroundings) (network : Network) (bytesMessage content : Bytes) (path text : String),
      AsksFor bytesMessage path → Serves env path content → decodeUtf8 content = .ok text →
      ∀ fuel, (wire (handle env bytesMessage ⟨network, []⟩)).length ≤ fuel →
        retrieve env.sha (exactly (wire (handle env bytesMessage ⟨network, []⟩)).flatten) fuel
          bytesMessage = some (.ok (some content)) := by
  intro hclaim
  have htext : decodeUtf8 [104, 105, 13, 10] = .ok "hi\r\n" := by decide +kernel
  have hserves := oneFile_serves [104, 105, 13, 10]
  have hserved : encode (String.ofList (universalNewlines "hi\r\n".toList)) = [104, 105, 10] := by
    decide
  have hfits : (makeBlocks (encode (String.ofList (universalNewlines "hi\r\n".toList)))).1 < 2 ^ 32 := by
    rw [hserved]
    decide
  have hwritten := (retrieve_served _ [] askForFile_asksFor hserves htext hfits le_rfl).symm.trans
    (hclaim _ [] askForFile _ _ _ askForFile_asksFor hserves htext _ le_rfl)
  rw [hserved] at hwritten
  simp at hwritten

end Sample

end CompSys.Peer
