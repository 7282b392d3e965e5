import CompSys.PeerFile
import CompSys.PeerRequest
import CompSys.PeerStored

/-!
# The C client of A4 and a Python peer

The request that `send_message` makes goes to `handle`, and what `handle` sends comes back to
`send_message`. What is stored is what the peer serves for the path, as far as the client can store
it; a request that is refused leaves the file alone.
-/
namespace CompSys.PeerClient.Mixed

open Peer PythonText
open BigEndian (ByteOrder)

/-! ## What is served -/

/-- The data that a peer has for a path, if it gives any. -/
def served (env : Surroundings) (path : String) : Option Bytes :=
  let absolutePath := env.files.abspath path
  if env.files.getcwd.toList <+: absolutePath.toList ∧ env.files.pathExists absolutePath ∧
      env.files.isFile absolutePath ∧ path ∉ env.currentlyRetreiving then
    match env.files.contents absolutePath >>= readText with
    | .error _ => none
    | .ok data => if (makeBlocks (encode data)).1 < 2 ^ 32 then some (encode data) else none
  else none

/-- A reply with all of its blocks that has the data, or refuses it. -/
structure Answer (env : Surroundings) (path : String) (r : Sent) : Prop where
  complete : Complete env.sha r
  status_lt : r.status < 2 ^ 32
  count_lt : (makeBlocks r.payload).1 < 2 ^ 32
  answer : served env path = if r.status = STATUS_OK then some r.payload else none

section Serving

variable {env : Surroundings} {path : String}

theorem handleError_answer {status : Nat} (hstatus : status < 2 ^ 32) (hother : status ≠ STATUS_OK)
    {msgStr : String} (hlength : msgStr.toList.length ≤ 2 ^ 24) (hnone : served env path = none)
    {s : Session} (h : s.sent = []) :
    ∃ r, (handleError env status msgStr s).1.sent = [r] ∧
      (handleError env status msgStr s).2 = .ok () ∧ Answer env path r := by
  obtain ⟨r, hcomplete, ⟨hr, hpayload⟩, hsent⟩ := handleError_sent env status hstatus msgStr hlength s
  refine ⟨r, ?_, ?_, ⟨hcomplete, hr ▸ hstatus, ?_, ?_⟩⟩
  · rw [hsent, h]
    rfl
  · rw [hsent]
  · rw [hpayload]
    exact fits_of_length hlength
  · rw [hr, if_neg hother, hnone]

/-- `_handle_request` answers, or raises an exception for a path for which there is no data. -/
theorem handleRequest_answer (env : Surroundings) (hpath : (encode path).length ≤ MSG_MAX)
    {s : Session} (h : s.sent = []) :
    (∃ r, (handleRequest env (encode path) s).1.sent = [r] ∧
        (handleRequest env (encode path) s).2 = .ok () ∧ Answer env path r) ∨
      (handleRequest env (encode path) s).1.sent = [] ∧
        (∃ e, (handleRequest env (encode path) s).2 = .error e) ∧ served env path = none := by
  have hchars : path.toList.length ≤ 8196 := (length_le_length_encode path).trans hpath
  rw [handleRequest, decodeUtf8_encode]
  simp only
  split
  case isTrue houtside =>
    refine .inl (handleError_answer (by decide) (by decide) (by simp [toString]; omega) ?_ h)
    exact if_neg fun hserved => houtside hserved.1
  case isFalse hinside =>
  split
  case isTrue hmissing =>
    refine .inl (handleError_answer (by decide) (by decide) (by simp [toString]; omega) ?_ h)
    exact if_neg fun hserved => hmissing hserved.2.1
  case isFalse hexists =>
  split
  case isTrue hdirectory =>
    refine .inl (handleError_answer (by decide) (by decide) (by simp [toString]; omega) ?_ h)
    exact if_neg fun hserved => hdirectory hserved.2.2.1
  case isFalse hfile =>
  split
  case isTrue hretreiving =>
    refine .inl (handleError_answer (by decide) (by decide) (by simp [toString]; omega) ?_ h)
    exact if_neg fun hserved => hserved.2.2.2 hretreiving
  case isFalse hfinished =>
    have hserved : served env path =
        match env.files.contents (env.files.abspath path) >>= readText with
        | .error _ => none
        | .ok data => if (makeBlocks (encode data)).1 < 2 ^ 32 then some (encode data) else none :=
      if_pos ⟨not_not.mp hinside, not_not.mp hexists, not_not.mp hfile, hfinished⟩
    cases hcontents : env.files.contents (env.files.abspath path) with
    | error e =>
      rw [hcontents] at hserved
      exact .inr ⟨h, ⟨e, rfl⟩, hserved⟩
    | ok content =>
      rw [hcontents] at hserved
      change served env path = match readText content with
        | .error _ => none
        | .ok data => if (makeBlocks (encode data)).1 < 2 ^ 32 then some (encode data) else none
        at hserved
      cases hread : readText content with
      | error e =>
        rw [hread] at hserved
        simp only [hread]
        exact .inr ⟨h, ⟨e, rfl⟩, hserved⟩
      | ok data =>
        rw [hread] at hserved
        simp only [hread]
        rcases reply_cases env STATUS_OK (by decide) (encode data) s with
          ⟨hfits, messages, hcomplete, hreply⟩ | ⟨hlong, e, hreply⟩
        · have hsmall : STATUS_OK < 2 ^ 32 := by decide
          refine .inl ⟨⟨STATUS_OK, encode data, messages⟩, ?_, ?_, hcomplete, hsmall, hfits, ?_⟩
          · rw [hreply, h]
            rfl
          · rw [hreply]
          · rw [hserved, if_pos rfl]
            exact if_pos hfits
        · refine .inr ⟨?_, ⟨e, ?_⟩, hserved.trans (if_neg hlong)⟩
          · rw [hreply, h]
          · rw [hreply]

/-- Every request for a path gets one answer. -/
theorem handle_answer (env : Surroundings) (network : Network) {bytesMessage : Bytes}
    (hasks : AsksFor bytesMessage path) (hpath : (encode path).length ≤ MSG_MAX) :
    ∃ r, (handle env bytesMessage ⟨network, []⟩).sent = [r] ∧ Answer env path r := by
  obtain ⟨message, hparse, hlength, hcode, hpayload⟩ := hasks
  have hbody : handleBody env bytesMessage ⟨network, []⟩ =
      handleRequest env (encode path) (expired env message ⟨network, []⟩) := by
    rw [handleBody_command env ⟨network, []⟩ hparse hlength, hcode, hpayload]
    rfl
  rw [handle, hbody]
  have hnothing : (expired env message ⟨network, []⟩).sent = [] := rfl
  have hanswer := handleRequest_answer env hpath hnothing
  generalize handleRequest env (encode path) (expired env message ⟨network, []⟩) = x at hanswer ⊢
  obtain ⟨s, result⟩ := x
  rcases hanswer with ⟨r, hsent, rfl, hr⟩ | ⟨hsent, ⟨e, rfl⟩, hnone⟩
  · exact ⟨r, hsent, hr⟩
  · have hshort := env.describe_short e
    have hdescribed : (s!"Something went wrong. {env.describe e}").toList.length ≤ 2 ^ 24 := by
      simp [toString]
      omega
    have hother : STATUS_OTHER ≠ STATUS_OK := by decide
    obtain ⟨r, hsent', -, hr⟩ := handleError_answer (by decide) hother hdescribed hnone hsent
    exact ⟨r, hsent', hr⟩

end Serving

/-! ## What the client makes of it -/

section Refused

variable {sha : Sha256} {status blocksCount : ℕ} {totalHash : Bytes} {block : ℕ × Bytes}

/-- The status and the number of blocks are read as they were sent, whatever the status is. -/
theorem readHeader_status (hstatus : status < 2 ^ 32) (hcount : blocksCount < 2 ^ 32)
    (htotal : totalHash.length = 32) {c : Client} {rest : Bytes}
    (hstream : c.stream = blockMessage sha status blocksCount totalHash block ++ rest) :
    ∃ first c', readHeader c = (first, c') ∧ first.status = status ∧
      first.blockCount = blocksCount ∧ c'.file = c.file := by
  have ha := BigEndian.length_encode 4 block.2.length
  have hb := BigEndian.length_encode 4 status
  have hc := BigEndian.length_encode 4 block.1
  have hd := BigEndian.length_encode 4 blocksCount
  have he := sha.length_digest block.2
  have hheader : (BigEndian.encode 4 block.2.length ++
      replyHeader sha status block.1 blocksCount totalHash block.2).length = REPLY_HEADER_LEN := by
    rw [List.length_append, ha, length_replyHeader sha _ _ _ htotal]
    rfl
  have htake : c.stream.take REPLY_HEADER_LEN = BigEndian.encode 4 block.2.length ++
      replyHeader sha status block.1 blocksCount totalHash block.2 := by
    rw [hstream, blockMessage, List.append_assoc, List.append_assoc, ← List.append_assoc,
      ← hheader, List.take_left]
  refine ⟨_, _, rfl, ?_, ?_, rfl⟩
  · change BigEndian.decode (slice (c.stream.take REPLY_HEADER_LEN ++ _) 4 8) = status
    rw [htake, slice_field (BigEndian.encode 4 block.2.length) (BigEndian.encode 4 status) _
      (by simp only [replyHeader, List.append_assoc]; rfl) ha (by omega),
      BigEndian.decode_encode 4 status hstatus]
  · change BigEndian.decode (slice (c.stream.take REPLY_HEADER_LEN ++ _) 12 16) = blocksCount
    rw [htake, slice_field (BigEndian.encode 4 block.2.length ++ BigEndian.encode 4 status ++
      BigEndian.encode 4 block.1) (BigEndian.encode 4 blocksCount) _
      (by simp only [replyHeader, List.append_assoc]; rfl) (by simp [ha, hb, hc]) (by omega),
      BigEndian.decode_encode 4 blocksCount hcount]

theorem blockLoop_refused (sha : Sha256) (first : ReplyHeader) (left : ℕ) {header : ReplyHeader}
    (hstatus : header.status ≠ STATUS_OK) (c : Client) :
    blockLoop sha COMMAND_RETREIVE first left header c =
      (some .unexpectedStatus, header, c) := by
  have hretreive : ¬(COMMAND_RETREIVE = COMMAND_REGISTER ∧ header.status = STATUS_PEER_EXISTS) :=
    fun h => absurd h.1 (by decide)
  have hhandle : handleBlock sha COMMAND_RETREIVE header c = (some .unexpectedStatus, c) :=
    if_pos ⟨hstatus, hretreive⟩
  cases left with
  | zero => rw [blockLoop, hhandle]
  | succ left => rw [blockLoop, hhandle]

/-- After another status nothing is written. -/
theorem retrieve_refused (stackRoom : ℕ) {r : Sent} (hcomplete : Complete sha r) (hstatus : r.status < 2 ^ 32)
    (hcount : (makeBlocks r.payload).1 < 2 ^ 32) (hother : r.status ≠ STATUS_OK)
    (msgBuf prior : Bytes) :
    (retrieve sha stackRoom r.messages.flatten msgBuf prior).1 = some .unexpectedStatus ∧
      (retrieve sha stackRoom r.messages.flatten msgBuf prior).2.file = prior := by
  obtain ⟨blocks, hperm, hmessages⟩ := hcomplete
  obtain ⟨block, rest, rfl⟩ := List.exists_cons_of_ne_nil (ne_nil_of_perm hperm)
  rw [List.map_cons] at hmessages
  have hstream : (connected r.messages.flatten msgBuf prior).stream =
      blockMessage sha r.status (makeBlocks r.payload).1 (sha.digest r.payload) block ++
        (rest.map (blockMessage sha r.status (makeBlocks r.payload).1
          (sha.digest r.payload))).flatten := by
    rw [hmessages]
    rfl
  obtain ⟨first, c', hread, hfirst, hblocks, hfile⟩ :=
    readHeader_status hstatus hcount (sha.length_digest _) hstream
  have hsome : first.blockCount ≠ 0 := by
    rw [hblocks]
    exact Nat.ne_of_gt (makeBlocks_splits r.payload).nonempty
  have hloop := blockLoop_refused sha first (first.blockCount - 1) (hfirst ▸ hother) c'
  rw [retrieve, sendMessage, hread]
  simp only [receiveBlocks, if_neg hsome, hloop]
  exact ⟨trivial, hfile⟩

end Refused

section Stored

variable {sha : Sha256} (stackRoom : ℕ) {r : Sent}

theorem retrieve_complete (hcomplete : Complete sha r) (hcount : (makeBlocks r.payload).1 < 2 ^ 32)
    (hok : r.status = STATUS_OK) (msgBuf prior : Bytes) :
    ∃ blocks : List (ℕ × Bytes), blocks.Perm (makeBlocks r.payload).2 ∧
      (retrieve sha stackRoom r.messages.flatten msgBuf prior).1 =
        checkFile sha stackRoom (sha.digest r.payload) (stored prior blocks) ∧
      (retrieve sha stackRoom r.messages.flatten msgBuf prior).2.file = stored prior blocks := by
  obtain ⟨blocks, hblocks, hmessages⟩ := hcomplete
  have hstream : r.messages.flatten = contentStream sha r.payload blocks := by
    rw [hmessages, hok]
    rfl
  rw [hstream]
  exact ⟨blocks, hblocks, retrieve_content sha stackRoom hblocks hcount msgBuf prior⟩

/-- The data is stored and accepted if the file of the client can take it. -/
theorem retrieve_restorable (hcomplete : Complete sha r)
    (hcount : (makeBlocks r.payload).1 < 2 ^ 32) (hok : r.status = STATUS_OK)
    (msgBuf : Bytes) {prior : Bytes} (h : Restorable r.payload prior)
    (hroom : r.payload.length ≤ stackRoom) :
    (retrieve sha stackRoom r.messages.flatten msgBuf prior).1 = none ∧
      (retrieve sha stackRoom r.messages.flatten msgBuf prior).2.file = r.payload := by
  obtain ⟨blocks, hblocks, hcheck, hfile⟩ :=
    retrieve_complete stackRoom hcomplete hcount hok msgBuf prior
  have hstored := (stored_eq_iff h.small hblocks prior).mpr h
  rw [hcheck, hfile, hstored]
  exact ⟨checkFile_digest sha stackRoom h.small hroom, rfl⟩

/-- And only then, if there is no data from `2 ^ 32` bytes on. -/
theorem restorable_of_retrieve (hcomplete : Complete sha r)
    (hcount : (makeBlocks r.payload).1 < 2 ^ 32) (hok : r.status = STATUS_OK)
    {msgBuf prior : Bytes} (hsmall : r.payload.length < 2 ^ 32)
    (hnone : (retrieve sha stackRoom r.messages.flatten msgBuf prior).1 = none)
    (hdata : (retrieve sha stackRoom r.messages.flatten msgBuf prior).2.file = r.payload) :
    Restorable r.payload prior ∧ r.payload.length ≤ stackRoom := by
  obtain ⟨blocks, hblocks, hcheck, hfile⟩ :=
    retrieve_complete stackRoom hcomplete hcount hok msgBuf prior
  rw [hfile] at hdata
  rw [hcheck, hdata] at hnone
  obtain ⟨⟨hsize, hroom⟩, -⟩ := checkFile_none hnone
  rw [Nat.mod_eq_of_lt (by omega)] at hsize hroom
  exact ⟨(stored_eq_iff hsize hblocks prior).mp hdata, hroom⟩

end Stored

/-! ## The whole way -/

/-- A request of the client is understood as one for its path. -/
theorem sendRequest_asksFor (order : ByteOrder) {myAddress : PeerAddress} {ip path : String}
    {port : ℕ} (after : Bytes) {msgBuf : Bytes}
    (hip : ∀ c ∈ ip.toList, c.toNat < 128) (hshort : ip.toList.length ≤ 15) (hport : port < 65536)
    (hpath : Char.ofNat 0 ∉ path.toList) (hfits : 28 + (encode path).length ≤ MSG_MAX)
    (hmyIp : CString.cString myAddress.ip = encode ip)
    (hmyPort : atoi myAddress.port = some (Int32.ofNat port))
    (hmsgBuf : msgBuf.length = MAX_MSG_LEN) :
    ∃ message, sendRequest order myAddress (Int32.ofNat COMMAND_RETREIVE)
      (encode path ++ 0 :: after) msgBuf = some message ∧ AsksFor message path := by
  have hmax : MSG_MAX = 8196 := rfl
  have hbody : (0 : UInt8) ∉ encode path := by
    intro h
    exact hpath ((mem_encode_ascii (by decide) path).mp h)
  have hroom : REQUEST_HEADER_LEN + (encode path).length ≤ msgBuf.length := by
    rw [hmsgBuf]
    exact hfits
  have hword : ∀ n < 2 ^ 32, (UInt32.ofNat n).toNat = n :=
    fun n hn => UInt32.toNat_ofNat_of_lt' hn
  have hsent := sendRequest_eq order (Int32.ofNat COMMAND_RETREIVE) after hmyPort hbody hroom
  rw [strncpy_padIp hip hshort hmyIp, Int32.toUInt32_ofNat', Int32.toUInt32_ofNat',
    hword port (by omega), hword COMMAND_RETREIVE (by decide), hword _ (by omega)] at hsent
  refine ⟨_, hsent, assembleMessage_asksFor ip path port hip
    (assembleMessage_eq ip (by omega) (by decide) (by omega)) ?_⟩
  simp only [List.length_append, BigEndian.length_encode, length_padIp_ascii hip]
  exact hfits

/-- What is served is the file itself if reading it as text does not change it. -/
theorem served_content {env : Surroundings} {path text : String} {content : Bytes}
    (hserves : Serves env path content) (htext : decodeUtf8 content = .ok text)
    (hreturn : 13 ∉ content) (hcount : (makeBlocks content).1 < 2 ^ 32) :
    served env path = some content := by
  have hsame := (encode_universalNewlines_iff htext).mpr hreturn
  have hdata : (env.files.contents (env.files.abspath path) >>= readText) =
      .ok (String.ofList (universalNewlines text.toList)) := by
    rw [hserves.contents]
    change readText content = _
    rw [readText, htext]
    rfl
  rw [served, if_pos ⟨hserves.inside, hserves.pathExists, hserves.isFile, hserves.finished⟩, hdata]
  simp only [hsame, if_pos hcount]

/-- The client stores what the peer serves for the path exactly if its file can take that and its
stack has room for it, and a refusal leaves its file as it was. A file without carriage returns is
served as it is. -/
theorem mixed_transfer (order : ByteOrder) (myAddress : PeerAddress) (ip path : String) (port : ℕ)
    (after msgBuf : Bytes) (hip : ∀ c ∈ ip.toList, c.toNat < 128)
    (hshort : ip.toList.length ≤ 15) (hport : port < 65536)
    (hpath : Char.ofNat 0 ∉ path.toList) (hfits : 28 + (encode path).length ≤ MSG_MAX)
    (hmyIp : CString.cString myAddress.ip = encode ip)
    (hmyPort : atoi myAddress.port = some (Int32.ofNat port))
    (hmsgBuf : msgBuf.length = MAX_MSG_LEN) :
    ∃ message, sendRequest order myAddress (Int32.ofNat COMMAND_RETREIVE)
        (encode path ++ 0 :: after) msgBuf = some message ∧
      ∀ (env : Surroundings) (network : Network) (stackRoom : ℕ) (buf prior : Bytes),
        let result := retrieve env.sha stackRoom (wire (handle env message ⟨network, []⟩)).flatten buf prior
        (served env path = none → result.1 = some .unexpectedStatus ∧ result.2.file = prior) ∧
        (∀ data, served env path = some data →
          (Restorable data prior ∧ data.length ≤ stackRoom →
            result.1 = none ∧ result.2.file = data) ∧
          (data.length < 2 ^ 32 → result.1 = none → result.2.file = data →
            Restorable data prior ∧ data.length ≤ stackRoom)) ∧
        ∀ content text, Serves env path content → decodeUtf8 content = .ok text →
          13 ∉ content → Restorable content prior → content.length ≤ stackRoom →
            result.1 = none ∧ result.2.file = content := by
  obtain ⟨message, hsent, hasks⟩ := sendRequest_asksFor order after hip hshort hport hpath hfits
    hmyIp hmyPort hmsgBuf
  refine ⟨message, hsent, ?_⟩
  intro env network stackRoom buf prior
  obtain ⟨r, hreply, hr⟩ := handle_answer env network hasks (by omega)
  have hanswer := hr.answer
  have hwire : wire (handle env message ⟨network, []⟩) = r.messages := by
    rw [wire, hreply, List.flatMap_singleton]
  rw [hwire]
  have hdata : ∀ {data}, served env path = some data → r.status = STATUS_OK ∧ r.payload = data := by
    intro data hserved
    rw [hserved] at hanswer
    split_ifs at hanswer with hok
    exact ⟨hok, (Option.some.inj hanswer).symm⟩
  refine ⟨?_, ?_, ?_⟩
  · intro hnone
    refine retrieve_refused stackRoom hr.complete hr.status_lt hr.count_lt ?_ buf prior
    intro hok
    rw [hnone, if_pos hok] at hanswer
    cases hanswer
  · intro data hserved
    obtain ⟨hok, rfl⟩ := hdata hserved
    constructor
    · intro h
      exact retrieve_restorable stackRoom hr.complete hr.count_lt hok buf h.1 h.2
    · exact restorable_of_retrieve stackRoom hr.complete hr.count_lt hok
  · intro content text hserves htext hreturn hrestorable hroom
    have hsmall := hrestorable.small
    have hcount : (makeBlocks content).1 < 2 ^ 32 := by
      have hle := (makeBlocks_splits content).count_le
      omega
    obtain ⟨hok, rfl⟩ := hdata (served_content hserves htext hreturn hcount)
    exact retrieve_restorable stackRoom hr.complete hr.count_lt hok buf hrestorable hroom

/-- A file with a line feed, over an older one of two bytes. -/
theorem mixed_transfer_hi : ∃ message,
    sendRequest .little ⟨encode "10.0.0.2" ++ List.replicate 8 0, [55, 0]⟩
        (Int32.ofNat COMMAND_RETREIVE) (encode "a.txt" ++ [0]) (List.replicate 8196 1) =
      some message ∧
    let result := retrieve (oneFile [104, 105, 10]).sha 8388608
      (wire (handle (oneFile [104, 105, 10]) message ⟨[], []⟩)).flatten [] [120, 121]
    result.1 = none ∧ result.2.file = [104, 105, 10] := by
  have htext : decodeUtf8 [104, 105, 10] = .ok "hi\n" := by decide +kernel
  obtain ⟨message, hsent, hall⟩ := mixed_transfer .little
    ⟨encode "10.0.0.2" ++ List.replicate 8 0, [55, 0]⟩ "10.0.0.2" "a.txt" 7 []
    (List.replicate 8196 1) (List.all_iff_forall_prop.mp rfl) (by decide) (by decide) (by decide)
    (by decide) rfl rfl List.length_replicate
  refine ⟨message, hsent, ?_⟩
  obtain ⟨-, -, hfile⟩ := hall (oneFile [104, 105, 10]) [] 8388608 [] [120, 121]
  exact hfile [104, 105, 10] "hi\n" (oneFile_serves [104, 105, 10]) htext (by decide)
    ⟨by decide, by decide, by decide, by decide⟩ (by decide)

end CompSys.PeerClient.Mixed
