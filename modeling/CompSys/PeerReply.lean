import CompSys.Cutting
import CompSys.PeerWire
import CompSys.Slots
import Mathlib.Data.List.ReduceOption

/-!
# Replies of the Python peer of A4, block by block

`_build_and_send_responses` cuts a payload into numbered blocks and sends them
in the order that the shuffle gives; `send_to_server` reads blocks until each
has come and joins them. Every payload comes back, in every order of its blocks.
-/
namespace CompSys.Peer

variable {σ : Type}

/-! ## Sending -/

def sendableLength : Nat :=
  MSG_MAX - LEN_RESPONSE_LENGTH - LEN_STATUS - LEN_BLOCK_ID - LEN_BLOCKS_COUNT -
    LEN_BLOCK_HASH - LEN_TOTAL_HASH

/-- `while len(to_send) > 0`, with what is appended to `blocks`. -/
def splitLoop (toSend : Bytes) (thisBlock : Nat) : List (Nat × Bytes) :=
  if 0 < toSend.length then
    (thisBlock, toSend.take sendableLength) ::
      splitLoop (toSend.drop sendableLength) (thisBlock + 1)
  else []
termination_by toSend.length
decreasing_by
  have hpos : 0 < sendableLength := by decide
  rw [List.length_drop]
  omega

/-- `blocks_count` and `blocks` before the shuffle. The quotient is rounded up exactly. -/
def makeBlocks (toSend : Bytes) : Nat × List (Nat × Bytes) :=
  let blocksCount := toSend.length ⌈/⌉ sendableLength
  if toSend.length = 0 then (1, (0, []) :: splitLoop toSend 0)
  else (blocksCount, splitLoop toSend 0)

/-- What is sent, and how the loop ends. -/
def sendLoop (sha : Sha256) (status blocksCount : Nat) (totalChecksum : Bytes) :
    List (Nat × Bytes) → List Bytes × Except PyError Unit
  | [] => ([], .ok ())
  | (blockNum, blockPayload) :: blocks =>
    match assembleReply sha status blockNum blocksCount totalChecksum blockPayload with
    | .error e => ([], .error e)
    | .ok payload =>
      let (sent, result) := sendLoop sha status blocksCount totalChecksum blocks
      (payload :: sent, result)

def buildAndSendResponses (sha : Sha256)
    (shuffle : List (Nat × Bytes) → List (Nat × Bytes)) (status : Nat) (toSend : Bytes) :
    List Bytes × Except PyError Unit :=
  let totalChecksum := sha.digest toSend
  let (blocksCount, blocks) := makeBlocks toSend
  sendLoop sha status blocksCount totalChecksum (shuffle blocks)

/-! ## Receiving -/

/-- The other side of a socket: `connect` and `sendall(request)` together give a connection
or raise, and so does each `recv`. -/
structure Remote (σ : Type) where
  connect : Bytes → Except PyError σ
  recv : σ → Nat → Except PyError (Bytes × σ)

/-- What one round of `while responding` leads to. -/
inductive Round where
  | more (allBlocks : List (Option Bytes))
  | failed (msg : String)
  | complete (status : Nat) (totalChecksum : Bytes) (allBlocks : List (Option Bytes))
  deriving DecidableEq, Repr

inductive ReplyData where
  | bytes (data : Bytes)
  | msg (text : String)
  deriving DecidableEq, Repr

/-- What `send_to_server` returns, and what it prints about failed checks. -/
structure Response where
  status : Nat
  data : ReplyData
  reports : List String
  deriving DecidableEq, Repr

/-- One round. Each of its branches assigns to `all_blocks[this_block]`, which raises when
there is no such block. -/
def readBlock (sha : Sha256) (remote : Remote σ) (conn : σ)
    (allBlocks : Option (List (Option Bytes))) : Except PyError (Round × σ) := do
  let (initialRead, conn) ← remote.recv conn LEN_RESPONSE_LENGTH
  let responseLength ← unpack initialRead
  let (responseBytes, conn) ← remote.recv conn
    (responseLength + LEN_STATUS + LEN_BLOCK_ID + LEN_BLOCKS_COUNT + LEN_BLOCK_HASH +
      LEN_TOTAL_HASH)
  let reply ← parseReply responseBytes responseLength
  let allBlocks := allBlocks.getD (List.replicate reply.totalBlocks none)
  if allBlocks.length ≤ reply.thisBlock then throw .indexError
  else if reply.status ≠ STATUS_OK then
    return (.failed s!"Got unexpected status code: {reply.status}", conn)
  else if sha.digest reply.response ≠ reply.blockChecksum then
    return (.failed (s!"Block {reply.thisBlock}/{reply.totalBlocks} checksums for " ++
      "a block did not match"), conn)
  else
    let allBlocks := allBlocks.set reply.thisBlock (some reply.response)
    if allBlocks.count none = 0 then
      return (.complete reply.status reply.totalChecksum allBlocks, conn)
    else return (.more allBlocks, conn)

/-- `while responding` and what follows it, with what is left of the connection. The fuel
bounds the blocks that are read. -/
def receiveLoop (sha : Sha256) (remote : Remote σ) :
    Nat → σ → Option (List (Option Bytes)) → Option (Except PyError (Response × σ))
  | 0, _, _ => none
  | fuel + 1, conn, allBlocks =>
    match readBlock sha remote conn allBlocks with
    | .error e => some (.error e)
    | .ok (.more allBlocks, conn) => receiveLoop sha remote fuel conn (some allBlocks)
    | .ok (.failed msg, conn) => some (.ok (⟨STATUS_OTHER, .msg msg, [msg]⟩, conn))
    | .ok (.complete status totalChecksum allBlocks, conn) =>
      let allData := allBlocks.reduceOption.flatten
      let reports :=
        if sha.digest allData ≠ totalChecksum then
          ["Total checksum for all data did not match"]
        else []
      some (.ok (⟨status, .bytes allData, reports⟩, conn))

def sendToServer (sha : Sha256) (remote : Remote σ) (fuel : Nat) (request : Bytes)
    (expectReply : Bool) : Option (Except PyError (Response × σ)) :=
  match remote.connect request with
  | .error e => some (.error e)
  | .ok conn =>
    if expectReply then receiveLoop sha remote fuel conn none
    else some (.ok (⟨STATUS_OK, .msg "", []⟩, conn))

/-- A remote side whose stream of bytes is read in exactly the lengths asked for. -/
def exactly (stream : Bytes) : Remote Bytes where
  connect _ := .ok stream
  recv stream n := .ok (stream.take n, stream.drop n)

theorem sendToServer_exactly (sha : Sha256) (stream request : Bytes) (fuel : Nat) :
    sendToServer sha (exactly stream) fuel request true =
      receiveLoop sha (exactly stream) fuel stream none := rfl

/-! ## The blocks of a payload -/

theorem splitLoop_cuts : Cutting.Cuts sendableLength splitLoop := by
  intro toSend thisBlock
  rw [splitLoop]

theorem sendableLength_pos : 0 < sendableLength := by decide

/-- The length of a block fits its field. -/
theorem lt_of_le_sendable {n : Nat} (h : n ≤ sendableLength) : n < 2 ^ 32 :=
  h.trans_lt (by decide)

/-- Blocks that make up a payload. -/
structure Splits (payload : Bytes) (blocksCount : Nat) (blocks : List (Nat × Bytes)) : Prop where
  numbers : blocks.map Prod.fst = List.range blocksCount
  joined : (blocks.map Prod.snd).flatten = payload
  sizes : ∀ block ∈ blocks, block.2.length ≤ sendableLength
  nonempty : 0 < blocksCount
  count_le : blocksCount ≤ max 1 payload.length

/-- The count that is computed is that of the blocks that are cut. -/
theorem makeBlocks_splits (payload : Bytes) :
    Splits payload (makeBlocks payload).1 (makeBlocks payload).2 := by
  unfold makeBlocks
  split
  case isTrue hempty =>
    have hnil : payload = [] := List.eq_nil_of_length_eq_zero hempty
    subst hnil
    rw [splitLoop_cuts.nil]
    exact ⟨rfl, rfl, by simp, by decide, by decide⟩
  case isFalse hne =>
    have hcount : payload.length ⌈/⌉ sendableLength = (payload.length + 8115) / 8116 := rfl
    refine ⟨?_, splitLoop_cuts.joined sendableLength_pos payload 0,
      splitLoop_cuts.sizes sendableLength_pos payload 0, ?_, ?_⟩
    · rw [splitLoop_cuts.numbers sendableLength_pos, List.range_eq_range']
    · simp only [hcount]
      omega
    · simp only [hcount]
      omega

theorem makeBlocks_count (payload : Bytes) :
    (makeBlocks payload).1 = max 1 ((payload.length + 8115) / 8116) := by
  have hceil : payload.length ⌈/⌉ sendableLength = (payload.length + 8115) / 8116 := rfl
  rw [makeBlocks]
  split
  case isTrue hempty => simp [hempty]
  case isFalse hne =>
    rw [hceil]
    omega

/-- What fits into one block. -/
theorem makeBlocks_single {payload : Bytes} (hpos : 0 < payload.length)
    (hfits : payload.length ≤ sendableLength) : makeBlocks payload = (1, [(0, payload)]) := by
  have hsendable : sendableLength = 8116 := rfl
  have hceil : payload.length ⌈/⌉ sendableLength = (payload.length + 8115) / 8116 := rfl
  have hone : payload.length ⌈/⌉ sendableLength = 1 := by omega
  rw [makeBlocks, if_neg (Nat.ne_of_gt hpos), splitLoop_cuts.cons 0 hpos,
    List.take_of_length_le hfits, List.drop_eq_nil_of_le hfits, splitLoop_cuts.nil, hone]

theorem Splits.length_eq {payload : Bytes} {blocksCount : Nat} {blocks : List (Nat × Bytes)}
    (h : Splits payload blocksCount blocks) : blocks.length = blocksCount := by
  rw [← List.length_map Prod.fst, h.numbers, List.length_range]

theorem Splits.nodup {payload : Bytes} {blocksCount : Nat} {blocks : List (Nat × Bytes)}
    (h : Splits payload blocksCount blocks) : (blocks.map Prod.fst).Nodup := by
  rw [h.numbers]
  exact List.nodup_range

theorem Splits.number_lt {payload : Bytes} {blocksCount : Nat} {blocks : List (Nat × Bytes)}
    (h : Splits payload blocksCount blocks) {block : Nat × Bytes} (hblock : block ∈ blocks) :
    block.1 < blocksCount := by
  have hmem := List.mem_map_of_mem (f := Prod.fst) hblock
  rw [h.numbers] at hmem
  exact List.mem_range.mp hmem

theorem ne_nil_of_perm {payload : Bytes} {blocks : List (Nat × Bytes)}
    (h : blocks.Perm (makeBlocks payload).2) : blocks ≠ [] := by
  intro hnil
  have hlength := h.length_eq
  rw [hnil, (makeBlocks_splits payload).length_eq] at hlength
  exact absurd hlength.symm (Nat.ne_of_gt (makeBlocks_splits payload).nonempty)

/-- Each block that has come takes one of the empty slots. -/
theorem Splits.count_none {payload : Bytes} {blocksCount : Nat} {blocks : List (Nat × Bytes)}
    (h : Splits payload blocksCount blocks) {done todo : List (Nat × Bytes)}
    (hperm : (done ++ todo).Perm blocks) :
    (Slots.fill (List.replicate blocksCount none) done).count none = todo.length := by
  have hlengths := hperm.length_eq
  rw [h.length_eq, List.length_append] at hlengths
  have hnodup : (done.map Prod.fst).Nodup := by
    have hall := (hperm.map Prod.fst).nodup_iff.mpr h.nodup
    rw [List.map_append] at hall
    exact hall.of_append_left
  rw [Slots.count_none_fill done hnodup
    fun b hb => h.number_lt (hperm.mem_iff.mp (List.mem_append_left todo hb))]
  omega

/-- When all blocks have come, in whatever order, they are joined to the payload. -/
theorem Splits.joined_fill {payload : Bytes} {blocksCount : Nat} {blocks : List (Nat × Bytes)}
    (h : Splits payload blocksCount blocks) {done : List (Nat × Bytes)} (hperm : done.Perm blocks) :
    (Slots.fill (List.replicate blocksCount none) done).reduceOption.flatten = payload := by
  rw [Slots.fill_all hperm h.numbers, List.reduceOption, List.filterMap_map, ← h.joined]
  simp

/-! ## One block -/

/-- The message of a block. -/
def blockMessage (sha : Sha256) (status blocksCount : Nat) (totalChecksum : Bytes)
    (block : Nat × Bytes) : Bytes :=
  BigEndian.encode 4 block.2.length ++
    (replyHeader sha status block.1 blocksCount totalChecksum block.2 ++ block.2)

theorem sendLoop_eq (sha : Sha256) {status blocksCount : Nat} (totalChecksum : Bytes)
    (blocks : List (Nat × Bytes)) (hstatus : status < 2 ^ 32) (hcount : blocksCount < 2 ^ 32)
    (hblocks : ∀ block ∈ blocks, block.1 < 2 ^ 32 ∧ block.2.length < 2 ^ 32) :
    sendLoop sha status blocksCount totalChecksum blocks =
      (blocks.map (blockMessage sha status blocksCount totalChecksum), .ok ()) := by
  induction blocks with
  | nil => rfl
  | cons block blocks ih =>
      obtain ⟨hnum, hlen⟩ := hblocks block List.mem_cons_self
      have hrest := ih fun b hb => hblocks b (List.mem_cons_of_mem block hb)
      have hmessage := assembleReply_eq sha totalChecksum hstatus hnum hcount hlen
      simp only [sendLoop, hmessage, hrest]
      rfl

/-- A message shows its block: it is short enough, and its length field and every field of
its header are read back. -/
structure Shows (sha : Sha256) (status blocksCount : Nat) (payload message : Bytes)
    (block : Nat × Bytes) : Prop where
  short : message.length ≤ MSG_MAX
  lengthField : unpack (message.take LEN_RESPONSE_LENGTH) = .ok block.2.length
  fields : parseReply (message.drop LEN_RESPONSE_LENGTH) block.2.length =
    .ok ⟨status, block.1, blocksCount, sha.digest block.2, sha.digest payload, block.2⟩

theorem blockMessage_shows (sha : Sha256) {status blocksCount : Nat} (payload : Bytes)
    {block : Nat × Bytes} (hstatus : status < 2 ^ 32) (hcount : blocksCount < 2 ^ 32)
    (hnum : block.1 < blocksCount) (hlen : block.2.length ≤ sendableLength) :
    Shows sha status blocksCount payload
      (blockMessage sha status blocksCount (sha.digest payload) block) block := by
  have htotal := sha.length_digest payload
  have hfield : LEN_RESPONSE_LENGTH = (BigEndian.encode 4 block.2.length).length :=
    (BigEndian.length_encode 4 _).symm
  have hmax : sendableLength + 80 = MSG_MAX := rfl
  have hlt : block.2.length < 2 ^ 32 := lt_of_le_sendable hlen
  refine ⟨?_, ?_, ?_⟩
  · rw [blockMessage, List.length_append, List.length_append, BigEndian.length_encode,
      length_replyHeader sha _ _ _ htotal]
    omega
  · rw [blockMessage, hfield, List.take_left]
    exact unpack_encode hlt
  · rw [blockMessage, hfield, List.drop_left]
    exact parseReply_header sha block.2 hstatus (by omega) hcount htotal

/-- A round that reads the message of a block puts the block into its slot, or fails with
the status of the reply. -/
theorem readBlock_message (sha : Sha256) (status : Nat) {blocksCount : Nat} (stream rest payload : Bytes)
    {block : Nat × Bytes} (allBlocks : Option (List (Option Bytes)))
    {slots : List (Option Bytes)} (hstatus : status < 2 ^ 32) (hcount : blocksCount < 2 ^ 32)
    (hnum : block.1 < blocksCount) (hlen : block.2.length < 2 ^ 32)
    (hslots : allBlocks.getD (List.replicate blocksCount none) = slots)
    (hslotsLen : slots.length = blocksCount) :
    readBlock sha (exactly stream)
        (blockMessage sha status blocksCount (sha.digest payload) block ++ rest) allBlocks =
      .ok (if status ≠ STATUS_OK then .failed s!"Got unexpected status code: {status}"
        else if (slots.set block.1 (some block.2)).count none = 0 then
          .complete status (sha.digest payload) (slots.set block.1 (some block.2))
        else .more (slots.set block.1 (some block.2)), rest) := by
  have htotal := sha.length_digest payload
  have hfield : LEN_RESPONSE_LENGTH = (BigEndian.encode 4 block.2.length).length :=
    (BigEndian.length_encode 4 _).symm
  have hheader := length_replyHeader sha status block.1 blocksCount htotal block.2
  have hparse := parseReply_header sha block.2 hstatus (show block.1 < 2 ^ 32 by omega) hcount
    htotal
  have hrest : block.2.length + LEN_STATUS + LEN_BLOCK_ID + LEN_BLOCKS_COUNT + LEN_BLOCK_HASH +
      LEN_TOTAL_HASH =
        (replyHeader sha status block.1 blocksCount (sha.digest payload) block.2 ++
          block.2).length := by
    rw [List.length_append, hheader]
    simp only [LEN_STATUS, LEN_BLOCK_ID, LEN_BLOCKS_COUNT, LEN_BLOCK_HASH, LEN_TOTAL_HASH]
    omega
  have hindex : ¬slots.length ≤ block.1 := by omega
  rw [blockMessage, List.append_assoc, readBlock]
  simp only [exactly, hfield, List.take_left, List.drop_left, unpack_encode hlen, bind, Except.bind,
    hrest, hparse, hslots, hindex, ↓reduceIte, ne_eq, not_true_eq_false]
  split
  · rfl
  · split <;> rfl

/-! ## All blocks -/

/-- The blocks that are read, in whatever order, fill the slots and are joined. -/
theorem receiveLoop_blocks (sha : Sha256) {payload : Bytes} {blocksCount : Nat}
    {blocks : List (Nat × Bytes)} (stream later : Bytes) (hsplits : Splits payload blocksCount blocks)
    (hcount : blocksCount < 2 ^ 32) (todo : List (Nat × Bytes)) :
    ∀ (fuel : Nat) (done : List (Nat × Bytes)) (allBlocks : Option (List (Option Bytes))),
      (done ++ todo).Perm blocks → todo ≠ [] → todo.length ≤ fuel →
      allBlocks.getD (List.replicate blocksCount none) =
        Slots.fill (List.replicate blocksCount none) done →
      receiveLoop sha (exactly stream) fuel
          ((todo.map (blockMessage sha STATUS_OK blocksCount (sha.digest payload))).flatten ++
            later) allBlocks =
        some (.ok (⟨STATUS_OK, .bytes payload, []⟩, later)) := by
  induction todo with
  | nil =>
      intro fuel done allBlocks _ hne
      exact absurd rfl hne
  | cons block todo ih =>
      intro fuel done allBlocks hperm _ hfuel hslots
      obtain ⟨fuel, rfl⟩ := Nat.exists_eq_succ_of_ne_zero
        (Nat.ne_of_gt (Nat.lt_of_lt_of_le (Nat.succ_pos todo.length) hfuel))
      have hmoved : ((done ++ [block]) ++ todo).Perm blocks := by
        rwa [List.append_assoc, List.singleton_append]
      have hblock : block ∈ blocks :=
        hperm.mem_iff.mp (List.mem_append_right done List.mem_cons_self)
      have hnum := hsplits.number_lt hblock
      have hlen : block.2.length < 2 ^ 32 := lt_of_le_sendable (hsplits.sizes block hblock)
      have hlength :
          (Slots.fill (List.replicate blocksCount (none : Option Bytes)) done).length =
            blocksCount := by
        rw [Slots.length_fill, List.length_replicate]
      have hround := readBlock_message sha STATUS_OK stream
        ((todo.map (blockMessage sha STATUS_OK blocksCount (sha.digest payload))).flatten ++ later)
        payload allBlocks (by decide) hcount hnum hlen hslots hlength
      rw [if_neg (not_not.mpr rfl), ← Slots.fill_concat] at hround
      rw [List.map_cons, List.flatten_cons, List.append_assoc, receiveLoop, hround,
        hsplits.count_none hmoved]
      by_cases hlast : todo = []
      case pos =>
        subst hlast
        rw [List.append_nil] at hmoved
        simp only [List.length_nil, ↓reduceIte, hsplits.joined_fill hmoved]
        simp
      case neg =>
        have hmore : ¬todo.length = 0 := Nat.ne_of_gt (List.length_pos_of_ne_nil hlast)
        simp only [hmore, ↓reduceIte]
        exact ih fuel (done ++ [block]) _ hmoved hlast (Nat.le_of_succ_le_succ hfuel) rfl

/-- The bounds of the blocks, in whatever order they are sent. -/
theorem shuffled_bounds {shuffle : List (Nat × Bytes) → List (Nat × Bytes)}
    (hshuffle : ∀ blocks, (shuffle blocks).Perm blocks) (payload : Bytes) :
    ∀ block ∈ shuffle (makeBlocks payload).2,
      block.1 < (makeBlocks payload).1 ∧ block.2.length ≤ sendableLength := by
  intro block hblock
  have hsplits := makeBlocks_splits payload
  have hmem := (hshuffle _).mem_iff.mp hblock
  exact ⟨hsplits.number_lt hmem, hsplits.sizes block hmem⟩

/-- A reply whose number of blocks fits its field goes out whole. -/
theorem buildAndSendResponses_eq (sha : Sha256)
    {shuffle : List (Nat × Bytes) → List (Nat × Bytes)} {status : Nat} {payload : Bytes}
    (hshuffle : ∀ blocks, (shuffle blocks).Perm blocks) (hstatus : status < 2 ^ 32)
    (hcount : (makeBlocks payload).1 < 2 ^ 32) :
    buildAndSendResponses sha shuffle status payload =
      ((shuffle (makeBlocks payload).2).map
        (blockMessage sha status (makeBlocks payload).1 (sha.digest payload)), .ok ()) := by
  refine sendLoop_eq sha (sha.digest payload) _ hstatus hcount ?_
  intro block hblock
  have hbounds := shuffled_bounds hshuffle payload block hblock
  exact ⟨hbounds.1.trans hcount, lt_of_le_sendable hbounds.2⟩

theorem blocks_lt_of_assembleReply {sha : Sha256} {status thisBlock blocks : Nat}
    {totalChecksum reply message : Bytes}
    (h : assembleReply sha status thisBlock blocks totalChecksum reply = .ok message) :
    blocks < 2 ^ 32 := by
  obtain ⟨lengthField, -, h⟩ := ok_of_bind h
  obtain ⟨statusField, -, h⟩ := ok_of_bind h
  obtain ⟨blockField, -, h⟩ := ok_of_bind h
  obtain ⟨blocksField, hpack, -⟩ := ok_of_bind h
  by_contra hlarge
  rw [pack, if_neg (by omega)] at hpack
  cases hpack

/-- A reply with more blocks fails before anything is sent. -/
theorem buildAndSendResponses_long (sha : Sha256)
    {shuffle : List (Nat × Bytes) → List (Nat × Bytes)} (status : Nat) {payload : Bytes}
    (hshuffle : ∀ blocks, (shuffle blocks).Perm blocks)
    (hcount : ¬(makeBlocks payload).1 < 2 ^ 32) :
    ∃ e, buildAndSendResponses sha shuffle status payload = ([], .error e) := by
  change ∃ e, sendLoop sha status (makeBlocks payload).1 (sha.digest payload)
    (shuffle (makeBlocks payload).2) = ([], .error e)
  cases hblocks : shuffle (makeBlocks payload).2 with
  | nil => exact absurd hblocks (ne_nil_of_perm (hshuffle _))
  | cons block blocks =>
    rw [sendLoop]
    split
    case h_1 e _ => exact ⟨e, rfl⟩
    case h_2 message hmessage => exact absurd (blocks_lt_of_assembleReply hmessage) hcount

theorem blocks_lt_of_sent {sha : Sha256} {shuffle : List (Nat × Bytes) → List (Nat × Bytes)}
    {status : Nat} {payload : Bytes} {messages : List Bytes}
    (hshuffle : ∀ blocks, (shuffle blocks).Perm blocks)
    (h : buildAndSendResponses sha shuffle status payload = (messages, .ok ())) :
    (makeBlocks payload).1 < 2 ^ 32 := by
  by_contra hcount
  obtain ⟨e, hlong⟩ := buildAndSendResponses_long sha status hshuffle hcount
  rw [hlong] at h
  cases h

/-- The other side reads a reply with status OK and no byte of what comes later. -/
theorem sendToServer_blocks (sha : Sha256)
    {shuffle : List (Nat × Bytes) → List (Nat × Bytes)} {payload : Bytes}
    (hshuffle : ∀ blocks, (shuffle blocks).Perm blocks)
    (hcount : (makeBlocks payload).1 < 2 ^ 32) (request later : Bytes) {fuel : Nat}
    (hfuel : (shuffle (makeBlocks payload).2).length ≤ fuel) :
    sendToServer sha (exactly (((shuffle (makeBlocks payload).2).map
        (blockMessage sha STATUS_OK (makeBlocks payload).1 (sha.digest payload))).flatten ++ later))
        fuel request true =
      some (.ok (⟨STATUS_OK, .bytes payload, []⟩, later)) := by
  exact receiveLoop_blocks sha _ later (makeBlocks_splits payload) hcount _ fuel [] none (hshuffle _)
    (ne_nil_of_perm (hshuffle _)) hfuel rfl

/-- Every payload is sent in blocks that each fit a message, are numbered from zero on and
carry the right checksums, and comes back from them in every order. -/
theorem reply_round_trip (sha : Sha256) (shuffle : List (Nat × Bytes) → List (Nat × Bytes))
    (payload request later : Bytes) (hshuffle : ∀ blocks, (shuffle blocks).Perm blocks)
    (hlen : payload.length < 2 ^ 32) :
    ∃ messages, buildAndSendResponses sha shuffle STATUS_OK payload = (messages, .ok ()) ∧
      ((shuffle (makeBlocks payload).2).map Prod.fst).Perm (List.range (makeBlocks payload).1) ∧
      List.Forall₂ (Shows sha STATUS_OK (makeBlocks payload).1 payload) messages
        (shuffle (makeBlocks payload).2) ∧
      ∀ fuel, messages.length ≤ fuel →
        sendToServer sha (exactly (messages.flatten ++ later)) fuel request true =
          some (.ok (⟨STATUS_OK, .bytes payload, []⟩, later)) := by
  have hsplits := makeBlocks_splits payload
  have hstatus : STATUS_OK < 2 ^ 32 := by decide
  have hcount : (makeBlocks payload).1 < 2 ^ 32 := by
    have hle := hsplits.count_le
    omega
  refine ⟨_, buildAndSendResponses_eq sha hshuffle hstatus hcount, ?_, ?_, ?_⟩
  · rw [← hsplits.numbers]
    exact (hshuffle _).map Prod.fst
  · rw [List.forall₂_map_left_iff, List.forall₂_same]
    intro block hblock
    have hbounds := shuffled_bounds hshuffle payload block hblock
    exact blockMessage_shows sha payload hstatus hcount hbounds.1 hbounds.2
  · intro fuel hfuel
    rw [List.length_map] at hfuel
    exact sendToServer_blocks sha hshuffle hcount request later hfuel

/-- SHA-256 where it is used on the bytes of "abc" only. -/
def abcSha256 : Sha256 where
  digest _ := [0xba, 0x78, 0x16, 0xbf, 0x8f, 0x01, 0xcf, 0xea, 0x41, 0x41, 0x40, 0xde, 0x5d, 0xae,
    0x22, 0x23, 0xb0, 0x03, 0x61, 0xa3, 0x96, 0x17, 0x7a, 0x9c, 0xb4, 0x10, 0xff, 0x61, 0xf2, 0x00,
    0x15, 0xad]
  length_digest _ := rfl

/-- SHA-256 where it is used on 10000, 8116 or 1884 times the letter a only. -/
def lettersSha256 : Sha256 where
  digest data :=
    if data.length = 10000 then
      [0x27, 0xdd, 0x1f, 0x61, 0xb8, 0x67, 0xb6, 0xa0, 0xf6, 0xe9, 0xd8, 0xa4, 0x1c, 0x43, 0x23,
       0x1d, 0xe5, 0x21, 0x07, 0xe5, 0x3a, 0xe4, 0x24, 0xde, 0x8f, 0x84, 0x7b, 0x82, 0x1d, 0xb4,
       0xb7, 0x11]
    else if data.length = 8116 then
      [0xe2, 0x99, 0x5c, 0xd7, 0x4e, 0x03, 0x9f, 0x72, 0x06, 0x7a, 0x46, 0x9e, 0x63, 0xa0, 0x7c,
       0x1c, 0xcf, 0x77, 0xa2, 0xcb, 0x9e, 0x58, 0x14, 0xb3, 0xbe, 0xa4, 0xea, 0x8a, 0x03, 0x44,
       0x94, 0x7f]
    else
      [0xf5, 0x2c, 0x35, 0x7b, 0xce, 0x6d, 0x0a, 0xce, 0x1e, 0x5c, 0x82, 0xc5, 0xcf, 0x23, 0x90,
       0xd1, 0x22, 0xcb, 0x1c, 0xc1, 0x54, 0xb8, 0xa5, 0x7e, 0x0d, 0x7d, 0x78, 0x8f, 0xf2, 0x56,
       0x8e, 0x27]
  length_digest data := by
    split
    · rfl
    · split <;> rfl

/-- More than one block holds. -/
def letters : Bytes := List.replicate 10000 97

theorem length_letters : letters.length = 10000 := List.length_replicate

theorem makeBlocks_letters :
    makeBlocks letters = (2, [(0, List.replicate 8116 97), (1, List.replicate 1884 97)]) := by
  have hsendable : sendableLength = 8116 := rfl
  have hceil : ∀ n : Nat, n ⌈/⌉ sendableLength = (n + 8115) / 8116 := fun _ => rfl
  have hpos : 0 < letters.length := by
    rw [length_letters]
    decide
  have hfirst : letters.take sendableLength = List.replicate 8116 97 := by
    rw [letters, List.take_replicate, hsendable]
    rfl
  have hrest : letters.drop sendableLength = List.replicate 1884 97 := by
    rw [letters, List.drop_replicate, hsendable]
  have hlength : (List.replicate 1884 (97 : UInt8)).length = 1884 := List.length_replicate
  rw [makeBlocks, if_neg (Nat.ne_of_gt hpos), splitLoop_cuts.cons 0 hpos, hfirst, hrest,
    splitLoop_cuts.cons 1 (by rw [hlength]; decide), List.take_of_length_le (by omega),
    List.drop_eq_nil_of_le (by omega), splitLoop_cuts.nil, hceil, length_letters]

theorem reply_round_trip_letters :
    ∃ messages, buildAndSendResponses lettersSha256 List.reverse STATUS_OK letters =
        (messages, .ok ()) ∧ messages.length = 2 ∧
      ∀ fuel, 2 ≤ fuel →
        sendToServer lettersSha256 (exactly (messages.flatten ++ [])) fuel [] true =
          some (.ok (⟨STATUS_OK, .bytes letters, []⟩, [])) := by
  obtain ⟨messages, hsent, -, hshows, hreceived⟩ :=
    reply_round_trip lettersSha256 List.reverse letters [] [] List.reverse_perm (by
      rw [length_letters]
      decide)
  have htwo : messages.length = 2 := by
    rw [hshows.length_eq, makeBlocks_letters]
    rfl
  exact ⟨messages, hsent, htwo, fun fuel hfuel => hreceived fuel (by omega)⟩

end CompSys.Peer
