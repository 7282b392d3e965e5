import CompSys.BigEndian
import CompSys.PythonText
import Mathlib.Data.List.DropRight

/-!
# Messages of the Python peer of A4

What `peer.py` packs into bytes and how it takes bytes apart again. Bytes are
lists, the exceptions that Python raises on the way are values, and SHA-256 is
any function with results of 32 bytes.
-/
namespace CompSys.Peer

abbrev Bytes := List UInt8

/-- The exceptions that the modelled code raises. -/
inductive PyError where
  | structError
  | unicodeDecodeError
  | indexError
  | typeError
  | valueError
  | osError
  deriving DecidableEq, Repr

structure Sha256 where
  digest : Bytes → Bytes
  length_digest : ∀ data, (digest data).length = 32

/-! ## Constants -/

def MSG_MAX : Nat := 8196

def LEN_IP : Nat := 16
def LEN_PORT : Nat := 4
def LEN_REQUEST_LENGTH : Nat := 4
def LEN_COMMAND_LENGTH : Nat := 4
def LEN_RESPONSE_LENGTH : Nat := 4
def LEN_STATUS : Nat := 4
def LEN_BLOCK_ID : Nat := 4
def LEN_BLOCKS_COUNT : Nat := 4
def LEN_BLOCK_HASH : Nat := 32
def LEN_TOTAL_HASH : Nat := 32

def COMMAND_REGISTER : Nat := 1
def COMMAND_INFORM : Nat := 3

def STATUS_OK : Nat := 1
def STATUS_OTHER : Nat := 4

/-! ## Python's slices, numbers and strings -/

universe u

/-- `l[i:j]`. -/
def slice {α : Type u} (l : List α) (i j : Nat) : List α := (l.take j).drop i

/-- `struct.pack('!I', n)`. -/
def pack (n : Int) : Except PyError Bytes :=
  if 0 ≤ n ∧ n ≤ 0xFFFFFFFF then .ok (BigEndian.encode 4 n.toNat) else .error .structError

/-- `struct.unpack('!I', b)[0]`. -/
def unpack (b : Bytes) : Except PyError Nat :=
  if b.length = 4 then .ok (BigEndian.decode b) else .error .structError

/-- `b.decode('utf-8')`. -/
def decodeUtf8 (b : Bytes) : Except PyError String :=
  match String.fromUTF8? ⟨b.toArray⟩ with
  | some s => .ok s
  | none => .error .unicodeDecodeError

/-- `open(path).read()` of a file with the given content. -/
def readText (content : Bytes) : Except PyError String := do
  let text ← decodeUtf8 content
  return String.ofList (PythonText.universalNewlines text.toList)

/-- `s.strip('\x00')`. -/
def stripNul (s : String) : String :=
  String.ofList ((s.toList.dropWhile (· = Char.ofNat 0)).rdropWhile (· = Char.ofNat 0))

/-! ## Replies -/

/-- The tuple that `parse_reply` returns. -/
structure Reply where
  status : Nat
  thisBlock : Nat
  totalBlocks : Nat
  blockChecksum : Bytes
  totalChecksum : Bytes
  response : Bytes
  deriving DecidableEq, Repr

def assembleReply (sha : Sha256) (status thisBlock blocks : Nat) (totalChecksum reply : Bytes) :
    Except PyError Bytes := do
  let lengthField ← pack reply.length
  let statusField ← pack status
  let blockField ← pack thisBlock
  let blocksField ← pack blocks
  return lengthField ++ statusField ++ blockField ++ blocksField ++ sha.digest reply ++
    totalChecksum ++ reply

/-- What follows the length field of a message is taken apart at fixed offsets. -/
def parseReply (bytesMessage : Bytes) (responseLength : Nat) : Except PyError Reply := do
  let status ← unpack (slice bytesMessage 0 LEN_STATUS)
  let thisBlock ← unpack (slice bytesMessage LEN_STATUS (LEN_STATUS + LEN_BLOCK_ID))
  let totalBlocks ← unpack (slice bytesMessage (LEN_STATUS + LEN_BLOCK_ID)
    (LEN_STATUS + LEN_BLOCK_ID + LEN_BLOCKS_COUNT))
  let blockChecksum := slice bytesMessage (LEN_STATUS + LEN_BLOCK_ID + LEN_BLOCKS_COUNT)
    (LEN_STATUS + LEN_BLOCK_ID + LEN_BLOCKS_COUNT + LEN_BLOCK_HASH)
  let totalChecksum := slice bytesMessage
    (LEN_STATUS + LEN_BLOCK_ID + LEN_BLOCKS_COUNT + LEN_BLOCK_HASH)
    (LEN_STATUS + LEN_BLOCK_ID + LEN_BLOCKS_COUNT + LEN_BLOCK_HASH + LEN_TOTAL_HASH)
  let response := slice bytesMessage
    (LEN_STATUS + LEN_BLOCK_ID + LEN_BLOCKS_COUNT + LEN_BLOCK_HASH + LEN_TOTAL_HASH)
    (LEN_STATUS + LEN_BLOCK_ID + LEN_BLOCKS_COUNT + LEN_BLOCK_HASH + LEN_TOTAL_HASH +
      responseLength)
  return { status, thisBlock, totalBlocks, blockChecksum, totalChecksum, response }

/-! ## Requests -/

/-- The tuple that `parse_message` returns. -/
structure Message where
  ip : String
  port : Nat
  code : Nat
  payloadLength : Nat
  payload : Bytes
  deriving DecidableEq, Repr

def parseMessage (bytesMessage : Bytes) : Except PyError Message := do
  let ip := slice bytesMessage 0 LEN_IP
  let port ← unpack (slice bytesMessage LEN_IP (LEN_IP + LEN_PORT))
  let code ← unpack (slice bytesMessage (LEN_IP + LEN_PORT)
    (LEN_IP + LEN_PORT + LEN_COMMAND_LENGTH))
  let payloadLength ← unpack (slice bytesMessage (LEN_IP + LEN_PORT + LEN_COMMAND_LENGTH)
    (LEN_IP + LEN_PORT + LEN_COMMAND_LENGTH + LEN_REQUEST_LENGTH))
  let payload := slice bytesMessage
    (LEN_IP + LEN_PORT + LEN_COMMAND_LENGTH + LEN_REQUEST_LENGTH)
    (LEN_IP + LEN_PORT + LEN_COMMAND_LENGTH + LEN_REQUEST_LENGTH + payloadLength)
  let ip := stripNul (← decodeUtf8 ip)
  return { ip, port, code, payloadLength, payload }

/-- What has been computed without an exception has been so at its first part. -/
theorem ok_of_bind {α β : Type} {x : Except PyError α} {f : α → Except PyError β} {r : β}
    (h : x >>= f = .ok r) : ∃ a, x = .ok a ∧ f a = .ok r := by
  cases x with
  | error e => cases h
  | ok a => exact ⟨a, rfl, h⟩

/-! ## Round trips -/

theorem slice_field {α : Type u} {l : List α} (before field after : List α) {i j : Nat}
    (hl : l = before ++ (field ++ after)) (hi : before.length = i) (hj : i + field.length = j) :
    slice l i j = field := by
  rw [slice, hl, ← hj, ← hi, ← List.append_assoc, List.take_append_of_le_length (by simp),
    List.take_of_length_le (by simp), List.drop_left]

theorem decodeUtf8_encode (s : String) : decodeUtf8 (PythonText.encode s) = .ok s := by
  rw [decodeUtf8, PythonText.fromUTF8_encode]

theorem encode_of_decodeUtf8 {b : Bytes} {s : String} (h : decodeUtf8 b = .ok s) :
    PythonText.encode s = b := by
  unfold decodeUtf8 at h
  split at h
  case h_1 s' hs =>
    cases h
    exact PythonText.encode_of_fromUTF8 hs
  case h_2 => cases h

theorem length_stripNul_le (text : String) : (stripNul text).toList.length ≤ text.toList.length := by
  rw [stripNul, String.toList_ofList]
  exact (List.rdropWhile_prefix _ _).length_le.trans (List.dropWhile_suffix _).length_le

section Strip

variable {text : List Char} (h : Char.ofNat 0 ∉ text) (n : Nat)
include h

theorem rdropWhile_nul :
    (text ++ List.replicate n (Char.ofNat 0)).rdropWhile (· = Char.ofNat 0) = text := by
  induction n with
  | zero =>
    rw [List.replicate_zero, List.append_nil, List.rdropWhile_eq_self_iff]
    intro hne hlast
    exact h (of_decide_eq_true hlast ▸ List.getLast_mem hne)
  | succ n ih =>
    rw [List.replicate_succ', ← List.append_assoc, List.rdropWhile_concat_pos _ _ _ (by simp), ih]

/-- The NULs that a text has been filled up with are stripped again. -/
theorem stripNul_pad :
    stripNul (String.ofList (text ++ List.replicate n (Char.ofNat 0))) = String.ofList text := by
  rw [stripNul, String.toList_ofList]
  cases text with
  | nil =>
    rw [List.nil_append, List.dropWhile_replicate, if_pos (by simp), List.rdropWhile_nil]
  | cons c rest =>
    have hc : c ≠ Char.ofNat 0 := by
      rintro rfl
      exact h List.mem_cons_self
    rw [List.cons_append, List.dropWhile_cons_of_neg (by simpa using hc), ← List.cons_append,
      rdropWhile_nul h]

end Strip

theorem pack_eq {n : Nat} (h : n < 2 ^ 32) : pack n = .ok (BigEndian.encode 4 n) := by
  rw [pack, if_pos (by omega), Int.toNat_natCast]

theorem pack_ok {n : Nat} {b : Bytes} (h : pack n = .ok b) :
    n < 2 ^ 32 ∧ b = BigEndian.encode 4 n := by
  unfold pack at h
  split at h
  case isTrue hrange =>
    cases h
    exact ⟨by omega, by rw [Int.toNat_natCast]⟩
  case isFalse => cases h

theorem unpack_encode {n : Nat} (h : n < 2 ^ 32) : unpack (BigEndian.encode 4 n) = .ok n := by
  rw [unpack, if_pos (BigEndian.length_encode 4 n), BigEndian.decode_encode 4 n h]

/-- The header of an assembled reply after its length field. -/
def replyHeader (sha : Sha256) (status thisBlock blocks : Nat) (totalChecksum reply : Bytes) :
    Bytes :=
  BigEndian.encode 4 status ++ (BigEndian.encode 4 thisBlock ++ (BigEndian.encode 4 blocks ++
    (sha.digest reply ++ totalChecksum)))

theorem length_replyHeader (sha : Sha256) (status thisBlock blocks : Nat)
    {totalChecksum : Bytes} (htotal : totalChecksum.length = 32) (reply : Bytes) :
    (replyHeader sha status thisBlock blocks totalChecksum reply).length = 76 := by
  simp only [replyHeader, List.length_append, BigEndian.length_encode, sha.length_digest, htotal]

theorem assembleReply_eq (sha : Sha256) {status thisBlock blocks : Nat} (totalChecksum : Bytes)
    {reply : Bytes} (hstatus : status < 2 ^ 32) (hblock : thisBlock < 2 ^ 32)
    (hblocks : blocks < 2 ^ 32) (hreply : reply.length < 2 ^ 32) :
    assembleReply sha status thisBlock blocks totalChecksum reply =
      .ok (BigEndian.encode 4 reply.length ++
        (replyHeader sha status thisBlock blocks totalChecksum reply ++ reply)) := by
  rw [assembleReply, pack_eq hreply, pack_eq hstatus, pack_eq hblock, pack_eq hblocks]
  simp only [replyHeader, List.append_assoc]
  rfl

/-- Where the fields of an assembled reply stand. -/
structure ReplyFields (m : Bytes) (status thisBlock blocks : Nat)
    (blockChecksum totalChecksum reply : Bytes) : Prop where
  status : slice m 0 4 = BigEndian.encode 4 status
  thisBlock : slice m 4 8 = BigEndian.encode 4 thisBlock
  blocks : slice m 8 12 = BigEndian.encode 4 blocks
  blockChecksum : slice m 12 44 = blockChecksum
  totalChecksum : slice m 44 76 = totalChecksum
  reply : slice m 76 (76 + reply.length) = reply

theorem replyHeader_fields (sha : Sha256) (status thisBlock blocks : Nat) {totalChecksum : Bytes}
    (reply : Bytes) (htotal : totalChecksum.length = 32) :
    ReplyFields (replyHeader sha status thisBlock blocks totalChecksum reply ++ reply) status
      thisBlock blocks (sha.digest reply) totalChecksum reply := by
  have ha := BigEndian.length_encode 4 status
  have hb := BigEndian.length_encode 4 thisBlock
  have hc := BigEndian.length_encode 4 blocks
  have hd := sha.length_digest reply
  rw [replyHeader]
  generalize hm : BigEndian.encode 4 status ++ (BigEndian.encode 4 thisBlock ++
    (BigEndian.encode 4 blocks ++ (sha.digest reply ++ totalChecksum))) ++ reply = m
  -- each field starts where the fields before it end
  constructor
  · exact slice_field [] _ (BigEndian.encode 4 thisBlock ++ BigEndian.encode 4 blocks ++
      sha.digest reply ++ totalChecksum ++ reply) (by simp [← hm]) rfl (by omega)
  · exact slice_field (BigEndian.encode 4 status) _ (BigEndian.encode 4 blocks ++
      sha.digest reply ++ totalChecksum ++ reply) (by simp [← hm]) ha (by omega)
  · exact slice_field (BigEndian.encode 4 status ++ BigEndian.encode 4 thisBlock) _
      (sha.digest reply ++ totalChecksum ++ reply) (by simp [← hm]) (by simp [ha, hb]) (by omega)
  · exact slice_field (BigEndian.encode 4 status ++ BigEndian.encode 4 thisBlock ++
      BigEndian.encode 4 blocks) _ (totalChecksum ++ reply) (by simp [← hm]) (by simp [ha, hb, hc])
      (by omega)
  · exact slice_field (BigEndian.encode 4 status ++ BigEndian.encode 4 thisBlock ++
      BigEndian.encode 4 blocks ++ sha.digest reply) _ reply (by simp [← hm])
      (by simp [ha, hb, hc, hd]) (by omega)
  · exact slice_field (BigEndian.encode 4 status ++ BigEndian.encode 4 thisBlock ++
      BigEndian.encode 4 blocks ++ sha.digest reply ++ totalChecksum) reply [] (by simp [← hm])
      (by simp [ha, hb, hc, hd, htotal]) rfl

/-- Every field that `assemble_reply` writes is read back by `parse_reply`. -/
theorem parseReply_header (sha : Sha256) {status thisBlock blocks : Nat} {totalChecksum : Bytes}
    (reply : Bytes) (hstatus : status < 2 ^ 32) (hblock : thisBlock < 2 ^ 32)
    (hblocks : blocks < 2 ^ 32) (htotal : totalChecksum.length = 32) :
    parseReply (replyHeader sha status thisBlock blocks totalChecksum reply ++ reply)
      reply.length = .ok ⟨status, thisBlock, blocks, sha.digest reply, totalChecksum, reply⟩ := by
  have h := replyHeader_fields sha status thisBlock blocks reply htotal
  simp only [parseReply, LEN_STATUS, LEN_BLOCK_ID, LEN_BLOCKS_COUNT, LEN_BLOCK_HASH,
    LEN_TOTAL_HASH, Nat.reduceAdd, h.status, h.thisBlock, h.blocks, h.blockChecksum,
    h.totalChecksum, h.reply, unpack_encode hstatus, unpack_encode hblock, unpack_encode hblocks]
  rfl

/-- What `parse_message` finds behind a field of sixteen bytes. -/
theorem parseMessage_joined {ipField : Bytes} {port code : Nat} (payload : Bytes)
    (hip : ipField.length = 16) (hport : port < 2 ^ 32) (hcode : code < 2 ^ 32)
    (hpayload : payload.length < 2 ^ 32) :
    parseMessage (ipField ++ BigEndian.encode 4 port ++ BigEndian.encode 4 code ++
        BigEndian.encode 4 payload.length ++ payload) =
      (decodeUtf8 ipField).map fun ip => ⟨stripNul ip, port, code, payload.length, payload⟩ := by
  have hua := unpack_encode hport
  have hub := unpack_encode hcode
  have huc := unpack_encode hpayload
  have ha := BigEndian.length_encode 4 port
  have hb := BigEndian.length_encode 4 code
  have hc := BigEndian.length_encode 4 payload.length
  generalize BigEndian.encode 4 port = a at *
  generalize BigEndian.encode 4 code = b at *
  generalize BigEndian.encode 4 payload.length = c at *
  obtain ⟨m, hm⟩ : ∃ m, m = ipField ++ a ++ b ++ c ++ payload := ⟨_, rfl⟩
  rw [← hm]
  have hipField : slice m 0 16 = ipField :=
    slice_field [] ipField (a ++ b ++ c ++ payload) (by simp [hm]) rfl (by omega)
  have hportField : slice m 16 20 = a :=
    slice_field ipField a (b ++ c ++ payload) (by simp [hm]) hip (by omega)
  have hcodeField : slice m 20 24 = b :=
    slice_field (ipField ++ a) b (c ++ payload) (by simp [hm]) (by simp [hip, ha]) (by omega)
  have hlengthField : slice m 24 28 = c :=
    slice_field (ipField ++ a ++ b) c payload (by simp [hm]) (by simp [hip, ha, hb]) (by omega)
  have hpayloadField : slice m 28 (28 + payload.length) = payload :=
    slice_field (ipField ++ a ++ b ++ c) payload [] (by simp [hm]) (by simp [hip, ha, hb, hc]) rfl
  simp only [parseMessage, LEN_IP, LEN_PORT, LEN_COMMAND_LENGTH, LEN_REQUEST_LENGTH,
    Nat.reduceAdd, hipField, hportField, hcodeField, hlengthField, hua, hub, huc]
  simp only [bind, Except.bind, hpayloadField]
  cases decodeUtf8 ipField <;> rfl

end CompSys.Peer
