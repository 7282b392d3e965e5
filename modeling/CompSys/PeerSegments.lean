import CompSys.PeerChecksum

/-!
# Replies that come in pieces

`send_to_server` calls `recv` once for the length of a block and once for the rest of it. A call
returns what has come so far, which may be less than what is asked for.
-/
namespace CompSys.Peer

/-- The stream comes in pieces: call number `t` finds `cut t` bytes. -/
def segmented (cut : ℕ → ℕ) (stream : Bytes) : Remote (ℕ × Bytes) where
  connect _ := .ok (0, stream)
  recv conn n := .ok (conn.2.take (min (cut conn.1) n),
    (conn.1 + 1, conn.2.drop (min (cut conn.1) n)))

/-- The bytes of a block that `send_to_server` cannot do without: it finds out that the last ones
are missing by the checksum of the payload, but only prints that the total checksum is wrong. -/
def enough (payload : Bytes) : ℕ :=
  if payload = [] then LEN_STATUS + LEN_BLOCK_ID + LEN_BLOCKS_COUNT + LEN_BLOCK_HASH
  else LEN_STATUS + LEN_BLOCK_ID + LEN_BLOCKS_COUNT + LEN_BLOCK_HASH + LEN_TOTAL_HASH +
    payload.length

/-- From call `t` on, each call for a length finds all of it, and the next one all that counts. -/
def Whole (cut : ℕ → ℕ) : ℕ → List (ℕ × Bytes) → Prop
  | _, [] => True
  | t, block :: blocks =>
    LEN_RESPONSE_LENGTH ≤ cut t ∧ enough block.2 ≤ cut (t + 1) ∧ Whole cut (t + 2) blocks

/-- Of a reply with another status, only the first three fields of the first block count. -/
def Suffices (cut : ℕ → ℕ) (status : ℕ) (blocks : List (ℕ × Bytes)) : Prop :=
  if status = STATUS_OK then Whole cut 0 blocks
  else LEN_RESPONSE_LENGTH ≤ cut 0 ∧ LEN_STATUS + LEN_BLOCK_ID + LEN_BLOCKS_COUNT ≤ cut 1

/-- What the caller gets of `send_to_server`. -/
def Answers {σ : Type} (sha : Sha256) (remote : Remote σ) (request : Bytes)
    (answer : Except PyError (ℕ × ReplyData)) : Prop :=
  ∃ fuel, (sendToServer sha remote fuel request true).map
    (Except.map fun r => (r.1.status, r.1.data)) = some answer

/-! ## A block that is cut off -/

section Truncated

theorem slice_take {α : Type} (l : List α) (n i j : ℕ) :
    slice (l.take n) i j = (slice l i j).take (n - i) := by
  rw [slice, slice, List.take_drop, List.take_take, List.take_take]
  by_cases hi : i ≤ n
  · rw [Nat.add_sub_cancel' hi, min_comm]
  · rw [List.drop_eq_nil_of_le, List.drop_eq_nil_of_le]
    all_goals rw [List.length_take]; omega

theorem unpack_take {n k : ℕ} (h : n < 2 ^ 32) (hk : 4 ≤ k) :
    unpack ((BigEndian.encode 4 n).take k) = .ok n := by
  rw [List.take_of_length_le ((BigEndian.length_encode 4 n).trans_le hk), unpack_encode h]

theorem unpack_short {n k : ℕ} (hk : k < 4) :
    unpack ((BigEndian.encode 4 n).take k) = .error .structError := by
  rw [unpack, if_neg]
  rw [List.length_take, BigEndian.length_encode]
  omega

variable (sha : Sha256) {status thisBlock blocks : ℕ} {totalChecksum : Bytes} (reply : Bytes)

/-- What `parse_reply` finds in the first bytes of a block. -/
theorem parseReply_take (hstatus : status < 2 ^ 32) (hblock : thisBlock < 2 ^ 32)
    (hblocks : blocks < 2 ^ 32) (htotal : totalChecksum.length = 32) {n : ℕ} (hn : 12 ≤ n) :
    parseReply ((replyHeader sha status thisBlock blocks totalChecksum reply ++ reply).take n)
      reply.length = .ok ⟨status, thisBlock, blocks, (sha.digest reply).take (n - 12),
        totalChecksum.take (n - 44), reply.take (n - 76)⟩ := by
  have h := replyHeader_fields sha status thisBlock blocks reply htotal
  simp only [parseReply, LEN_STATUS, LEN_BLOCK_ID, LEN_BLOCKS_COUNT, LEN_BLOCK_HASH,
    LEN_TOTAL_HASH, Nat.reduceAdd, slice_take, h.status, h.thisBlock, h.blocks, h.blockChecksum,
    h.totalChecksum, h.reply, unpack_take hstatus (show 4 ≤ n - 0 by omega),
    unpack_take hblock (show 4 ≤ n - 4 by omega), unpack_take hblocks (show 4 ≤ n - 8 by omega)]
  rfl

theorem parseReply_short (htotal : totalChecksum.length = 32) {n : ℕ} (hn : n < 12) : ∃ e,
    parseReply ((replyHeader sha status thisBlock blocks totalChecksum reply ++ reply).take n)
      reply.length = .error e := by
  have h := replyHeader_fields sha status thisBlock blocks reply htotal
  cases hparse : parseReply
      ((replyHeader sha status thisBlock blocks totalChecksum reply ++ reply).take n)
      reply.length with
  | error e => exact ⟨e, rfl⟩
  | ok parsed =>
    -- the third field is not there in full
    obtain ⟨_, -, hparse⟩ := ok_of_bind hparse
    obtain ⟨_, -, hparse⟩ := ok_of_bind hparse
    obtain ⟨_, hblocks, -⟩ := ok_of_bind hparse
    change unpack (slice _ 8 12) = _ at hblocks
    rw [slice_take, h.blocks, unpack_short (by omega)] at hblocks
    cases hblocks

end Truncated

/-! ## A round -/

section Round

variable (sha : Sha256) (cut : ℕ → ℕ) (stream : Bytes)

/-- The number of bytes of a block that the second call of a round finds. -/
def found (t : ℕ) (payload : Bytes) : ℕ := min (cut (t + 1)) (76 + payload.length)

theorem readReply_segmented {t status blocksCount : ℕ} {totalChecksum : Bytes} {block : ℕ × Bytes}
    (htotal : totalChecksum.length = 32) (hlength : block.2.length < 2 ^ 32) (hcut : 4 ≤ cut t)
    (rest : Bytes) :
    let bytes := replyHeader sha status block.1 blocksCount totalChecksum block.2 ++ block.2
    readReply (segmented cut stream)
        (t, blockMessage sha status blocksCount totalChecksum block ++ rest) =
      (parseReply (bytes.take (found cut t block.2)) block.2.length).map fun reply =>
        (reply, (t + 2, bytes.drop (found cut t block.2) ++ rest)) := by
  intro bytes
  have hfield := BigEndian.length_encode 4 block.2.length
  have hbytes : bytes.length = 76 + block.2.length := by
    rw [List.length_append, length_replyHeader sha _ _ _ htotal]
  have hmin : min (cut t) LEN_RESPONSE_LENGTH = (BigEndian.encode 4 block.2.length).length :=
    (min_eq_right hcut).trans hfield.symm
  have hsize : min (cut (t + 1)) (block.2.length + LEN_STATUS + LEN_BLOCK_ID + LEN_BLOCKS_COUNT +
      LEN_BLOCK_HASH + LEN_TOTAL_HASH) = found cut t block.2 := by
    simp only [found, LEN_STATUS, LEN_BLOCK_ID, LEN_BLOCKS_COUNT, LEN_BLOCK_HASH, LEN_TOTAL_HASH]
    omega
  have hfound : found cut t block.2 ≤ bytes.length := hbytes ▸ min_le_right _ _
  have hmessage : blockMessage sha status blocksCount totalChecksum block ++ rest =
      BigEndian.encode 4 block.2.length ++ (bytes ++ rest) := List.append_assoc _ _ _
  rw [hmessage, readReply]
  simp only [segmented, hmin, List.take_left, List.drop_left, unpack_encode hlength, bind,
    Except.bind, hsize, List.take_append_of_le_length hfound, List.drop_append_of_le_length hfound]
  cases parseReply (bytes.take (found cut t block.2)) block.2.length <;> rfl

theorem readReply_starved {t status blocksCount : ℕ} {totalChecksum : Bytes} {block : ℕ × Bytes}
    (hcut : cut t < 4) (rest : Bytes) : ∃ e,
    readReply (segmented cut stream)
      (t, blockMessage sha status blocksCount totalChecksum block ++ rest) = .error e := by
  have hfield := BigEndian.length_encode 4 block.2.length
  have hmin : min (cut t) LEN_RESPONSE_LENGTH = cut t := min_eq_left (Nat.le_of_lt hcut)
  have hfirst : (blockMessage sha status blocksCount totalChecksum block ++ rest).take (cut t) =
      (BigEndian.encode 4 block.2.length).take (cut t) := by
    rw [blockMessage, List.append_assoc]
    exact List.take_append_of_le_length (by omega)
  refine ⟨.structError, ?_⟩
  rw [readReply]
  simp only [segmented, hmin, hfirst, unpack_short hcut, bind, Except.bind]

theorem enough_nil : enough [] = 44 := rfl

theorem enough_of_ne_nil {payload : Bytes} (h : payload ≠ []) :
    enough payload = 76 + payload.length := if_neg h

theorem le_enough (payload : Bytes) : 44 ≤ enough payload := by
  by_cases h : payload = []
  · rw [h, enough_nil]
  · rw [enough_of_ne_nil h]
    omega

theorem enough_le (payload : Bytes) : enough payload ≤ 76 + payload.length := by
  by_cases h : payload = []
  · rw [h, enough_nil]
    omega
  · rw [enough_of_ne_nil h]

/-- No other beginning of the payload has its checksum. -/
def Unforged (sha : Sha256) (payload : Bytes) : Prop :=
  ∀ front, front <+: payload → front ≠ payload → sha.digest front ≠ sha.digest payload

variable {sha} {status blocksCount : ℕ} {totalChecksum : Bytes} {block : ℕ × Bytes}
  {allBlocks : Option (List (Option Bytes))} {slots : List (Option Bytes)}

/-- The first `n` bytes of a block, taken apart. -/
def cutReply (sha : Sha256) (status blocksCount : ℕ) (totalChecksum : Bytes) (block : ℕ × Bytes)
    (n : ℕ) : Reply :=
  ⟨status, block.1, blocksCount, (sha.digest block.2).take (n - 12), totalChecksum.take (n - 44),
    block.2.take (n - 76)⟩

theorem placeBlock_status (hslots : allBlocks.getD (List.replicate blocksCount none) = slots)
    (hnum : block.1 < slots.length) (hstatus : status ≠ STATUS_OK) (n : ℕ) :
    placeBlock sha allBlocks (cutReply sha status blocksCount totalChecksum block n) =
      .ok (.failed s!"Got unexpected status code: {status}") := by
  rw [placeBlock, cutReply]
  dsimp only
  rw [hslots, if_neg (Nat.not_le_of_lt hnum), if_pos hstatus]

theorem placeBlock_enough (hslots : allBlocks.getD (List.replicate blocksCount none) = slots)
    (hnum : block.1 < slots.length) {n : ℕ} (hn : enough block.2 ≤ n) :
    placeBlock sha allBlocks (cutReply sha STATUS_OK blocksCount totalChecksum block n) =
      .ok (if (slots.set block.1 (some block.2)).count none = 0 then
          .complete STATUS_OK (totalChecksum.take (n - 44)) (slots.set block.1 (some block.2))
        else .more (slots.set block.1 (some block.2))) := by
  have hdigest := sha.length_digest block.2
  have hheader := le_enough block.2
  have hpayload : block.2.take (n - 76) = block.2 := by
    by_cases hne : block.2 = []
    · rw [hne, List.take_nil]
    · rw [enough_of_ne_nil hne] at hn
      exact List.take_of_length_le (by omega)
  have hchecksum : (sha.digest block.2).take (n - 12) = sha.digest block.2 :=
    List.take_of_length_le (by omega)
  rw [placeBlock, cutReply, hpayload, hchecksum]
  dsimp only
  rw [hslots, if_neg (Nat.not_le_of_lt hnum), if_neg (not_not.mpr rfl), if_neg (not_not.mpr rfl)]
  split <;> rfl

theorem placeBlock_short (hslots : allBlocks.getD (List.replicate blocksCount none) = slots)
    (hnum : block.1 < slots.length) (hunforged : Unforged sha block.2) {n : ℕ}
    (hn : n < enough block.2) : ∃ msg,
    placeBlock sha allBlocks (cutReply sha STATUS_OK blocksCount totalChecksum block n) =
      .ok (.failed msg) := by
  have hdigest := sha.length_digest block.2
  have hwrong : sha.digest (block.2.take (n - 76)) ≠ (sha.digest block.2).take (n - 12) := by
    by_cases hheader : n < 44
    · -- part of the checksum is missing
      intro heq
      have hlength := congrArg List.length heq
      rw [sha.length_digest, List.length_take] at hlength
      omega
    · -- part of the payload is missing
      have hne : block.2 ≠ [] := by
        intro hnil
        rw [hnil, enough_nil] at hn
        omega
      rw [enough_of_ne_nil hne] at hn
      rw [List.take_of_length_le (show (sha.digest block.2).length ≤ n - 12 by omega)]
      refine hunforged _ (List.take_prefix _ _) fun heq => ?_
      have hlength := congrArg List.length heq
      have hpos := List.length_pos_of_ne_nil hne
      rw [List.length_take] at hlength
      omega
  rw [placeBlock, cutReply]
  dsimp only
  rw [hslots, if_neg (Nat.not_le_of_lt hnum), if_neg (not_not.mpr rfl), if_pos hwrong]
  exact ⟨_, rfl⟩

end Round

/-! ## All rounds -/

/-- The caller gets an exception or STATUS_OTHER. -/
def Fails {σ : Type} (result : Option (Except PyError (Response × σ))) : Prop :=
  (∃ e, result = some (.error e)) ∨ ∃ r conn, result = some (.ok (r, conn)) ∧ r.status = STATUS_OTHER

section Rounds

variable {sha : Sha256} {cut : ℕ → ℕ} (stream : Bytes) {status blocksCount : ℕ}
  {totalChecksum : Bytes} {block : ℕ × Bytes} (htotal : totalChecksum.length = 32)
  (hlength : block.2.length < 2 ^ 32)
include htotal hlength

theorem readReply_cut_short {t : ℕ} (hcut : LEN_RESPONSE_LENGTH ≤ cut t)
    (hfound : found cut t block.2 < 12) (rest : Bytes) : ∃ e, readReply (segmented cut stream)
      (t, blockMessage sha status blocksCount totalChecksum block ++ rest) = .error e := by
  rw [readReply_segmented sha cut stream htotal hlength hcut]
  obtain ⟨e, hparse⟩ := parseReply_short sha block.2 htotal hfound
  rw [hparse]
  exact ⟨e, rfl⟩

variable (hcount : blocksCount < 2 ^ 32) (hnum : block.1 < blocksCount)
include hcount hnum

theorem readReply_cut {t : ℕ} (hstatus : status < 2 ^ 32) (hcut : LEN_RESPONSE_LENGTH ≤ cut t)
    (hfound : 12 ≤ found cut t block.2) (rest : Bytes) :
    readReply (segmented cut stream)
        (t, blockMessage sha status blocksCount totalChecksum block ++ rest) =
      .ok (cutReply sha status blocksCount totalChecksum block (found cut t block.2), (t + 2,
        (replyHeader sha status block.1 blocksCount totalChecksum block.2 ++ block.2).drop
          (found cut t block.2) ++ rest)) := by
  rw [readReply_segmented sha cut stream htotal hlength hcut,
    parseReply_take sha block.2 hstatus (hnum.trans hcount) hcount htotal hfound]
  rfl

variable {allBlocks : Option (List (Option Bytes))} {slots : List (Option Bytes)}
  (hslots : allBlocks.getD (List.replicate blocksCount none) = slots)
  (hslotsLen : slots.length = blocksCount)
include hslots hslotsLen

/-- A round that does not find enough is the last one. -/
theorem receiveLoop_short {t : ℕ} (hunforged : Unforged sha block.2)
    (hshort : ¬(LEN_RESPONSE_LENGTH ≤ cut t ∧ enough block.2 ≤ cut (t + 1))) (fuel : ℕ)
    (rest : Bytes) :
    Fails (receiveLoop sha (segmented cut stream) (fuel + 1)
      (t, blockMessage sha STATUS_OK blocksCount totalChecksum block ++ rest) allBlocks) := by
  by_cases hcut : LEN_RESPONSE_LENGTH ≤ cut t
  case neg =>
    have hread : ∃ e, readReply (segmented cut stream) (t, blockMessage sha STATUS_OK blocksCount
        totalChecksum block ++ rest) = .error e :=
      readReply_starved sha cut stream (Nat.lt_of_not_le hcut) rest
    obtain ⟨e, hread⟩ := hread
    exact .inl ⟨e, receiveLoop_error hread fuel allBlocks⟩
  case pos =>
    have hfew : found cut t block.2 < enough block.2 := by
      have hnot : ¬enough block.2 ≤ cut (t + 1) := fun h => hshort ⟨hcut, h⟩
      rw [found]
      omega
    by_cases hfound : 12 ≤ found cut t block.2
    case neg =>
      have hread : ∃ e, readReply (segmented cut stream) (t, blockMessage sha STATUS_OK blocksCount
          totalChecksum block ++ rest) = .error e :=
        readReply_cut_short stream htotal hlength hcut (Nat.lt_of_not_le hfound) rest
      obtain ⟨e, hread⟩ := hread
      exact .inl ⟨e, receiveLoop_error hread fuel allBlocks⟩
    case pos =>
      have hread := @readReply_cut sha cut stream STATUS_OK _ _ _ htotal hlength hcount hnum t
        (by decide) hcut hfound rest
      obtain ⟨msg, hplace⟩ := placeBlock_short hslots (hslotsLen ▸ hnum) hunforged hfew
      rw [receiveLoop_read hread, hplace]
      exact .inr ⟨_, _, rfl, rfl⟩

/-- A round that finds enough puts the block into its slot. -/
theorem receiveLoop_enough {t : ℕ} (hcut : LEN_RESPONSE_LENGTH ≤ cut t)
    (henough : enough block.2 ≤ cut (t + 1)) (fuel : ℕ) (rest : Bytes) :
    ∃ reports conn, (block.2 ≠ [] → conn = (t + 2, rest)) ∧
      receiveLoop sha (segmented cut stream) (fuel + 1)
          (t, blockMessage sha STATUS_OK blocksCount totalChecksum block ++ rest) allBlocks =
        if (slots.set block.1 (some block.2)).count none = 0 then
          some (.ok (⟨STATUS_OK,
            .bytes (slots.set block.1 (some block.2)).reduceOption.flatten, reports⟩, conn))
        else receiveLoop sha (segmented cut stream) fuel conn
          (some (slots.set block.1 (some block.2))) := by
  have hfound : enough block.2 ≤ found cut t block.2 := le_min henough (enough_le block.2)
  have hheader := le_enough block.2
  have hread := @readReply_cut sha cut stream STATUS_OK _ _ _ htotal hlength hcount hnum t
    (by decide) hcut (by omega) rest
  have hplace := @placeBlock_enough sha _ totalChecksum _ _ _ hslots (hslotsLen ▸ hnum) _ hfound
  have hconn : block.2 ≠ [] → (t + 2,
      (replyHeader sha STATUS_OK block.1 blocksCount totalChecksum block.2 ++ block.2).drop
        (found cut t block.2) ++ rest) = (t + 2, rest) := by
    intro hne
    rw [enough_of_ne_nil hne] at hfound
    rw [List.drop_eq_nil_of_le, List.nil_append]
    rw [List.length_append, length_replyHeader sha _ _ _ htotal]
    exact hfound
  rw [receiveLoop_read hread, hplace]
  by_cases hfull : (slots.set block.1 (some block.2)).count none = 0
  · simp only [if_pos hfull]
    exact ⟨_, _, hconn, rfl⟩
  · simp only [if_neg hfull]
    exact ⟨[], _, hconn, rfl⟩

end Rounds

section Reply

variable {sha : Sha256} {cut : ℕ → ℕ} (stream : Bytes) {payload : Bytes} {blocksCount : ℕ}
  {blocks : List (ℕ × Bytes)}

/-- Whether each block is found whole decides how the loop ends. -/
theorem receiveLoop_segmented (hsplits : Splits payload blocksCount blocks)
    (hcount : blocksCount < 2 ^ 32) (hempty : ∀ block ∈ blocks, block.2 = [] → blocksCount = 1)
    (todo : List (ℕ × Bytes)) :
    ∀ (fuel t : ℕ) (done : List (ℕ × Bytes)) (allBlocks : Option (List (Option Bytes))),
      (done ++ todo).Perm blocks → todo ≠ [] → todo.length ≤ fuel →
      allBlocks.getD (List.replicate blocksCount none) =
        Slots.fill (List.replicate blocksCount none) done →
      (Whole cut t todo → ∃ reports conn, receiveLoop sha (segmented cut stream) fuel (t,
          (todo.map (blockMessage sha STATUS_OK blocksCount (sha.digest payload))).flatten)
            allBlocks = some (.ok (⟨STATUS_OK, .bytes payload, reports⟩, conn))) ∧
      (¬Whole cut t todo → (∀ block ∈ todo, Unforged sha block.2) →
        Fails (receiveLoop sha (segmented cut stream) fuel (t,
          (todo.map (blockMessage sha STATUS_OK blocksCount (sha.digest payload))).flatten)
            allBlocks)) := by
  induction todo with
  | nil =>
    intro fuel t done allBlocks _ hne
    exact absurd rfl hne
  | cons block todo ih =>
    intro fuel t done allBlocks hperm _ hfuel hslots
    obtain ⟨fuel, rfl⟩ := Nat.exists_eq_succ_of_ne_zero
      (Nat.ne_of_gt (Nat.lt_of_lt_of_le (Nat.succ_pos todo.length) hfuel))
    have hmoved : ((done ++ [block]) ++ todo).Perm blocks := by
      rwa [List.append_assoc, List.singleton_append]
    have hblock : block ∈ blocks :=
      hperm.mem_iff.mp (List.mem_append_right done List.mem_cons_self)
    have hnum := hsplits.number_lt hblock
    have hlength : block.2.length < 2 ^ 32 := lt_of_le_sendable (hsplits.sizes block hblock)
    have hslotsLen :
        (Slots.fill (List.replicate blocksCount (none : Option Bytes)) done).length =
          blocksCount := by
      rw [Slots.length_fill, List.length_replicate]
    rw [List.map_cons, List.flatten_cons, Whole]
    by_cases hcut : LEN_RESPONSE_LENGTH ≤ cut t ∧ enough block.2 ≤ cut (t + 1)
    case neg =>
      refine ⟨fun h => absurd ⟨h.1, h.2.1⟩ hcut, fun _ hunforged => ?_⟩
      exact receiveLoop_short stream (sha.length_digest payload) hlength hcount hnum hslots
        hslotsLen (hunforged block List.mem_cons_self) hcut fuel _
    case pos =>
      obtain ⟨reports, conn, hconn, hround⟩ := @receiveLoop_enough sha cut stream _ _ _
        (sha.length_digest payload) hlength hcount hnum _ _ hslots hslotsLen t hcut.1 hcut.2 fuel
        (todo.map (blockMessage sha STATUS_OK blocksCount (sha.digest payload))).flatten
      rw [← Slots.fill_concat, hsplits.count_none hmoved] at hround
      rw [and_iff_right hcut.1, and_iff_right hcut.2, hround]
      by_cases hlast : todo = []
      case pos =>
        subst hlast
        rw [List.append_nil] at hmoved
        rw [if_pos List.length_nil, hsplits.joined_fill hmoved]
        exact ⟨fun _ => ⟨reports, conn, rfl⟩, fun h => absurd trivial h⟩
      case neg =>
        have hne : block.2 ≠ [] := by
          intro hnil
          have hone := hempty block hblock hnil
          have hlengths := hperm.length_eq
          have hpos := List.length_pos_of_ne_nil hlast
          rw [List.length_append, List.length_cons, hsplits.length_eq] at hlengths
          omega
        rw [if_neg (Nat.ne_of_gt (List.length_pos_of_ne_nil hlast)), hconn hne]
        obtain ⟨hwhole, hshort⟩ := ih fuel (t + 2) (done ++ [block])
          (some (Slots.fill (List.replicate blocksCount none) (done ++ [block]))) hmoved hlast
          (Nat.le_of_succ_le_succ hfuel) rfl
        refine ⟨hwhole, fun hnot hunforged => hshort hnot fun b hb => ?_⟩
        exact hunforged b (List.mem_cons_of_mem _ hb)

/-- An empty block is the only one. -/
theorem makeBlocks_empty {block : ℕ × Bytes} (hblock : block ∈ (makeBlocks payload).2)
    (hnil : block.2 = []) : (makeBlocks payload).1 = 1 := by
  unfold makeBlocks at hblock ⊢
  split
  case isTrue => rfl
  case isFalse hne =>
    rw [if_neg hne] at hblock
    exact absurd hnil (splitLoop_cuts.nonempty sendableLength_pos payload 0 block hblock)

/-- A reply with another status is not read beyond its first block. -/
theorem receiveLoop_status {status t : ℕ} {block : ℕ × Bytes} (hstatus : status < 2 ^ 32)
    (hne : status ≠ STATUS_OK) (hcount : blocksCount < 2 ^ 32) (hnum : block.1 < blocksCount)
    (hlength : block.2.length < 2 ^ 32) (fuel : ℕ) (rest : Bytes) :
    (LEN_RESPONSE_LENGTH ≤ cut t ∧ LEN_STATUS + LEN_BLOCK_ID + LEN_BLOCKS_COUNT ≤ cut (t + 1) →
      ∃ reports conn, receiveLoop sha (segmented cut stream) (fuel + 1)
        (t, blockMessage sha status blocksCount (sha.digest payload) block ++ rest) none =
          some (.ok (⟨STATUS_OTHER, .msg s!"Got unexpected status code: {status}", reports⟩,
            conn))) ∧
    (¬(LEN_RESPONSE_LENGTH ≤ cut t ∧ LEN_STATUS + LEN_BLOCK_ID + LEN_BLOCKS_COUNT ≤ cut (t + 1)) →
      ∃ e, receiveLoop sha (segmented cut stream) (fuel + 1)
        (t, blockMessage sha status blocksCount (sha.digest payload) block ++ rest) none =
          some (.error e)) := by
  have htotal := sha.length_digest payload
  have hfound : 12 ≤ found cut t block.2 ↔
      LEN_STATUS + LEN_BLOCK_ID + LEN_BLOCKS_COUNT ≤ cut (t + 1) := by
    rw [found]
    change _ ↔ 12 ≤ _
    omega
  by_cases hcut : LEN_RESPONSE_LENGTH ≤ cut t
  case neg =>
    have hread : ∃ e, readReply (segmented cut stream) (t, blockMessage sha status blocksCount
        (sha.digest payload) block ++ rest) = .error e :=
      readReply_starved sha cut stream (Nat.lt_of_not_le hcut) rest
    obtain ⟨e, hread⟩ := hread
    exact ⟨fun h => absurd h.1 hcut, fun _ => ⟨e, receiveLoop_error hread fuel none⟩⟩
  case pos =>
    rw [and_iff_right hcut, ← hfound]
    by_cases hfields : 12 ≤ found cut t block.2
    case neg =>
      have hread : ∃ e, readReply (segmented cut stream) (t, blockMessage sha status blocksCount
          (sha.digest payload) block ++ rest) = .error e :=
        readReply_cut_short stream htotal hlength hcut (Nat.lt_of_not_le hfields) rest
      obtain ⟨e, hread⟩ := hread
      exact ⟨fun h => absurd h hfields, fun _ => ⟨e, receiveLoop_error hread fuel none⟩⟩
    case pos =>
      have hread := @readReply_cut sha cut stream status _ _ _ htotal hlength hcount hnum t
        hstatus hcut hfields rest
      have hslots : ((none : Option (List (Option Bytes))).getD (List.replicate blocksCount none)) =
          List.replicate blocksCount none := rfl
      rw [receiveLoop_read hread, placeBlock_status hslots (by rwa [List.length_replicate]) hne]
      exact ⟨fun _ => ⟨_, _, rfl⟩, fun h => absurd hfields h⟩

end Reply

/-! ## What the caller gets -/

section Answer

variable {σ : Type} {sha : Sha256} {remote : Remote σ} {request : Bytes}

/-- More fuel than enough makes no difference. -/
theorem receiveLoop_mono {fuel fuel' : ℕ} {conn : σ} {allBlocks : Option (List (Option Bytes))}
    {result : Except PyError (Response × σ)} (hle : fuel ≤ fuel')
    (h : receiveLoop sha remote fuel conn allBlocks = some result) :
    receiveLoop sha remote fuel' conn allBlocks = some result := by
  induction fuel generalizing fuel' conn allBlocks with
  | zero => cases h
  | succ fuel ih =>
    obtain ⟨fuel', rfl⟩ := Nat.exists_eq_add_of_le' (Nat.le_trans (Nat.le_add_left 1 fuel) hle)
    rw [receiveLoop] at h ⊢
    cases hround : readBlock sha remote conn allBlocks with
    | error e =>
      rw [hround] at h
      exact h
    | ok outcome =>
      obtain ⟨round, conn'⟩ := outcome
      rw [hround] at h
      cases round with
      | more allBlocks' => exact ih (Nat.le_of_succ_le_succ hle) h
      | failed msg => exact h
      | complete status totalChecksum allBlocks' => exact h

theorem sendToServer_mono {fuel fuel' : ℕ} {result : Except PyError (Response × σ)}
    (hle : fuel ≤ fuel') (h : sendToServer sha remote fuel request true = some result) :
    sendToServer sha remote fuel' request true = some result := by
  rw [sendToServer] at h ⊢
  cases hconnect : remote.connect request with
  | error e =>
    rw [hconnect] at h
    exact h
  | ok conn =>
    rw [hconnect] at h
    exact receiveLoop_mono hle h

theorem Answers.unique {answer answer' : Except PyError (ℕ × ReplyData)}
    (h : Answers sha remote request answer) (h' : Answers sha remote request answer') :
    answer = answer' := by
  obtain ⟨fuel, h⟩ := h
  obtain ⟨fuel', h'⟩ := h'
  obtain ⟨result, hresult, hanswer⟩ := Option.map_eq_some_iff.mp h
  obtain ⟨result', hresult', hanswer'⟩ := Option.map_eq_some_iff.mp h'
  have hsame := (sendToServer_mono (Nat.le_max_left fuel fuel') hresult).symm.trans
    (sendToServer_mono (Nat.le_max_right fuel fuel') hresult')
  rw [← hanswer, ← hanswer', Option.some_inj.mp hsame]

variable {conn conn' : σ} {fuel : ℕ}

theorem answers_ok (hconnect : remote.connect request = .ok conn) {r : Response}
    (h : receiveLoop sha remote fuel conn none = some (.ok (r, conn'))) :
    Answers sha remote request (.ok (r.status, r.data)) := by
  refine ⟨fuel, ?_⟩
  rw [sendToServer, hconnect]
  simp only [↓reduceIte, h]
  rfl

theorem answers_error (hconnect : remote.connect request = .ok conn) {e : PyError}
    (h : receiveLoop sha remote fuel conn none = some (.error e)) :
    Answers sha remote request (.error e) := by
  refine ⟨fuel, ?_⟩
  rw [sendToServer, hconnect]
  simp only [↓reduceIte, h]
  rfl

/-- What fails does not return with another status. -/
theorem not_answers_of_fails (hconnect : remote.connect request = .ok conn)
    (h : Fails (receiveLoop sha remote fuel conn none)) (data : ReplyData) :
    ¬Answers sha remote request (.ok (STATUS_OK, data)) := by
  intro hok
  rcases h with ⟨e, herror⟩ | ⟨r, conn', hfailed, hstatus⟩
  · cases hok.unique (answers_error hconnect herror)
  · have hsame := hok.unique (answers_ok hconnect hfailed)
    rw [hstatus] at hsame
    cases hsame

end Answer

section Segmentation

variable (sha : Sha256) (cut : ℕ → ℕ) {status : ℕ} {payload : Bytes} {blocks : List (ℕ × Bytes)}

/-- The answer to the caller when every call returns what it asks for. -/
def plainAnswer (status : ℕ) (payload : Bytes) : Except PyError (ℕ × ReplyData) :=
  if status = STATUS_OK then .ok (STATUS_OK, .bytes payload)
  else .ok (STATUS_OTHER, .msg s!"Got unexpected status code: {status}")

/-- The stream of a reply. -/
def replyStream (sha : Sha256) (status : ℕ) (payload : Bytes) (blocks : List (ℕ × Bytes)) : Bytes :=
  (blocks.map (blockMessage sha status (makeBlocks payload).1 (sha.digest payload))).flatten

/-- The first block, which there is in any case. -/
theorem exists_first (hblocks : blocks.Perm (makeBlocks payload).2) :
    ∃ block rest, blocks = block :: rest ∧ block.1 < (makeBlocks payload).1 ∧
      block.2.length < 2 ^ 32 := by
  obtain ⟨block, rest, rfl⟩ := List.exists_cons_of_ne_nil (ne_nil_of_perm hblocks)
  have hblock := hblocks.mem_iff.mp List.mem_cons_self
  have hsize := (makeBlocks_splits payload).sizes block hblock
  exact ⟨block, rest, rfl, (makeBlocks_splits payload).number_lt hblock, lt_of_le_sendable hsize⟩

theorem answers_exactly (hstatus : status < 2 ^ 32) (hblocks : blocks.Perm (makeBlocks payload).2)
    (hcount : (makeBlocks payload).1 < 2 ^ 32) (request : Bytes) :
    Answers sha (exactly (replyStream sha status payload blocks)) request
      (plainAnswer status payload) := by
  by_cases hok : status = STATUS_OK
  case pos =>
    subst hok
    have hloop := receiveLoop_blocks sha (replyStream sha STATUS_OK payload blocks) []
      (makeBlocks_splits payload) hcount blocks blocks.length [] none hblocks
      (ne_nil_of_perm hblocks) le_rfl rfl
    rw [List.append_nil] at hloop
    exact answers_ok rfl hloop
  case neg =>
    obtain ⟨block, rest, rfl, hnum, hlength⟩ := exists_first hblocks
    have hround := readBlock_message sha status (replyStream sha status payload (block :: rest))
      (replyStream sha status payload rest) payload none hstatus hcount hnum hlength rfl
      List.length_replicate
    rw [if_pos hok] at hround
    have hloop : receiveLoop sha (exactly (replyStream sha status payload (block :: rest))) 1
        (blockMessage sha status (makeBlocks payload).1 (sha.digest payload) block ++
          replyStream sha status payload rest) none =
        some (.ok (⟨STATUS_OTHER, .msg s!"Got unexpected status code: {status}",
          [s!"Got unexpected status code: {status}"]⟩, replyStream sha status payload rest)) := by
      rw [receiveLoop, hround]
    rw [plainAnswer, if_neg hok]
    exact answers_ok rfl hloop

theorem answers_segmented (hstatus : status < 2 ^ 32)
    (hblocks : blocks.Perm (makeBlocks payload).2) (hcount : (makeBlocks payload).1 < 2 ^ 32)
    (request : Bytes) :
    (Suffices cut status blocks → Answers sha
      (segmented cut (replyStream sha status payload blocks)) request (plainAnswer status payload)) ∧
    (¬Suffices cut status blocks → (status = STATUS_OK → ∀ block ∈ blocks, Unforged sha block.2) →
      ¬Answers sha (segmented cut (replyStream sha status payload blocks)) request
        (plainAnswer status payload)) := by
  by_cases hok : status = STATUS_OK
  case pos =>
    subst hok
    obtain ⟨hwhole, hshort⟩ := @receiveLoop_segmented sha cut
      (replyStream sha STATUS_OK payload blocks) _ _ _ (makeBlocks_splits payload) hcount
      (fun block hblock hnil => makeBlocks_empty hblock hnil) blocks blocks.length 0 [] none hblocks
      (ne_nil_of_perm hblocks) le_rfl rfl
    rw [Suffices, if_pos rfl, plainAnswer, if_pos rfl]
    constructor
    · intro h
      obtain ⟨reports, conn, hloop⟩ := hwhole h
      exact answers_ok rfl hloop
    · intro h hunforged
      exact not_answers_of_fails rfl (hshort h (hunforged rfl)) _
  case neg =>
    obtain ⟨block, rest, rfl, hnum, hlength⟩ := exists_first hblocks
    obtain ⟨henough, hfew⟩ := @receiveLoop_status sha cut
      (replyStream sha status payload (block :: rest)) payload _ status 0 block hstatus hok hcount
      hnum hlength 0 (replyStream sha status payload rest)
    rw [Suffices, if_neg hok, plainAnswer, if_neg hok]
    constructor
    · intro h
      obtain ⟨reports, conn, hloop⟩ := henough h
      exact answers_ok rfl hloop
    · intro h _ hanswers
      obtain ⟨e, hloop⟩ := hfew h
      cases hanswers.unique (answers_error rfl hloop)

end Segmentation

/-- A reply that comes in pieces is read as if it came at once exactly if enough of each block is
there when `send_to_server` asks for it, except where the beginning of a payload happens to have the
checksum of the payload. -/
theorem segmentation_iff (sha : Sha256) (cut : ℕ → ℕ) {status : ℕ} {payload : Bytes}
    {blocks : List (ℕ × Bytes)} (hstatus : status < 2 ^ 32)
    (hblocks : blocks.Perm (makeBlocks payload).2) (hcount : (makeBlocks payload).1 < 2 ^ 32)
    (request : Bytes) :
    (Suffices cut status blocks → ∀ answer,
      Answers sha (segmented cut (replyStream sha status payload blocks)) request answer ↔
        Answers sha (exactly (replyStream sha status payload blocks)) request answer) ∧
    ((∀ answer,
      Answers sha (segmented cut (replyStream sha status payload blocks)) request answer ↔
        Answers sha (exactly (replyStream sha status payload blocks)) request answer) →
      Suffices cut status blocks ∨
        status = STATUS_OK ∧ ∃ block ∈ blocks, ¬Unforged sha block.2) := by
  have hexactly := answers_exactly sha hstatus hblocks hcount request
  obtain ⟨henough, hfew⟩ := answers_segmented sha cut hstatus hblocks hcount request
  constructor
  · intro hsuffices answer
    constructor
    · intro h
      rw [h.unique (henough hsuffices)]
      exact hexactly
    · intro h
      rw [h.unique hexactly]
      exact henough hsuffices
  · intro hsame
    by_contra hnot
    rw [not_or] at hnot
    refine hfew hnot.1 (fun hok block hblock => ?_) ((hsame _).mpr hexactly)
    by_contra hforged
    exact hnot.2 ⟨hok, block, hblock, hforged⟩

/-- SHA-256 where it is used on the beginnings of "abc". -/
def beginningsSha256 : Sha256 where
  digest data :=
    if data = [] then
      [0xe3, 0xb0, 0xc4, 0x42, 0x98, 0xfc, 0x1c, 0x14, 0x9a, 0xfb, 0xf4, 0xc8, 0x99, 0x6f, 0xb9,
       0x24, 0x27, 0xae, 0x41, 0xe4, 0x64, 0x9b, 0x93, 0x4c, 0xa4, 0x95, 0x99, 0x1b, 0x78, 0x52,
       0xb8, 0x55]
    else if data = [97] then
      [0xca, 0x97, 0x81, 0x12, 0xca, 0x1b, 0xbd, 0xca, 0xfa, 0xc2, 0x31, 0xb3, 0x9a, 0x23, 0xdc,
       0x4d, 0xa7, 0x86, 0xef, 0xf8, 0x14, 0x7c, 0x4e, 0x72, 0xb9, 0x80, 0x77, 0x85, 0xaf, 0xee,
       0x48, 0xbb]
    else if data = [97, 98] then
      [0xfb, 0x8e, 0x20, 0xfc, 0x2e, 0x4c, 0x3f, 0x24, 0x8c, 0x60, 0xc3, 0x9b, 0xd6, 0x52, 0xf3,
       0xc1, 0x34, 0x72, 0x98, 0xbb, 0x97, 0x7b, 0x8b, 0x4d, 0x59, 0x03, 0xb8, 0x50, 0x55, 0x62,
       0x06, 0x03]
    else
      [0xba, 0x78, 0x16, 0xbf, 0x8f, 0x01, 0xcf, 0xea, 0x41, 0x41, 0x40, 0xde, 0x5d, 0xae, 0x22,
       0x23, 0xb0, 0x03, 0x61, 0xa3, 0x96, 0x17, 0x7a, 0x9c, 0xb4, 0x10, 0xff, 0x61, 0xf2, 0x00,
       0x15, 0xad]
  length_digest data := by
    split
    · rfl
    · split
      · rfl
      · split <;> rfl

theorem unforged_abc : Unforged beginningsSha256 [97, 98, 99] := by
  intro front hfront
  have hall : ∀ front ∈ List.inits [97, 98, 99], front ≠ [97, 98, 99] →
      beginningsSha256.digest front ≠ beginningsSha256.digest [97, 98, 99] := by
    decide +kernel
  exact hall front ((List.mem_inits _ _).mpr hfront)

theorem makeBlocks_abc : makeBlocks [97, 98, 99] = (1, [(0, [97, 98, 99])]) :=
  makeBlocks_single (by decide) (by decide)

/-- The two blocks in the other order, in messages of 1964 and 8196 bytes. -/
def lettersBlocks : List (ℕ × Bytes) :=
  [(1, List.replicate 1884 97), (0, List.replicate 8116 97)]

/-- The length and then the rest of each block are there. -/
def lettersCut (t : ℕ) : ℕ := if t % 2 = 0 then 4 else if t = 1 then 1960 else 8192

theorem segmentation_letters :
    Suffices lettersCut STATUS_OK lettersBlocks ∧ ∀ answer,
      Answers lettersSha256 (segmented lettersCut
          (replyStream lettersSha256 STATUS_OK letters lettersBlocks)) [] answer ↔
        Answers lettersSha256 (exactly
          (replyStream lettersSha256 STATUS_OK letters lettersBlocks)) [] answer := by
  have hblocks : lettersBlocks.Perm (makeBlocks letters).2 := by
    rw [makeBlocks_letters]
    exact List.Perm.swap _ _ _
  have hcount : (makeBlocks letters).1 < 2 ^ 32 := by
    rw [makeBlocks_letters]
    decide
  have hsuffices : Suffices lettersCut STATUS_OK lettersBlocks := by
    rw [Suffices, if_pos rfl]
    refine ⟨by decide, ?_, by decide, ?_, trivial⟩
    · rw [enough, List.length_replicate]
      decide
    · rw [enough, List.length_replicate]
      decide
  exact ⟨hsuffices,
    (segmentation_iff lettersSha256 lettersCut (by decide) hblocks hcount []).1 hsuffices⟩

/-- The last byte of the only block comes later than the others. -/
theorem segmentation_late_byte : ¬∀ (sha : Sha256) (cut : ℕ → ℕ) (status : ℕ) (payload : Bytes)
    (blocks : List (ℕ × Bytes)), (∀ t, 1 ≤ cut t) → status < 2 ^ 32 →
    blocks.Perm (makeBlocks payload).2 → (makeBlocks payload).1 < 2 ^ 32 → ∀ request answer,
      Answers sha (segmented cut (replyStream sha status payload blocks)) request answer ↔
        Answers sha (exactly (replyStream sha status payload blocks)) request answer := by
  intro h
  have hblocks : [(0, [97, 98, 99])].Perm (makeBlocks [97, 98, 99]).2 := by
    rw [makeBlocks_abc]
  have hcount : (makeBlocks [97, 98, 99]).1 < 2 ^ 32 := by
    rw [makeBlocks_abc]
    decide
  have hsame := h beginningsSha256 (fun t => if t = 1 then 78 else 4) STATUS_OK [97, 98, 99] _
    (fun t => by split <;> decide) (by decide) hblocks hcount [] (plainAnswer STATUS_OK [97, 98, 99])
  refine (answers_segmented beginningsSha256 _ (by decide) hblocks hcount []).2 ?_ ?_
    (hsame.mpr (answers_exactly beginningsSha256 (by decide) hblocks hcount []))
  · intro hsuffices
    exact absurd (show 79 ≤ 78 from hsuffices.2.1) (by decide)
  · intro _ block hblock
    rw [List.mem_singleton.mp hblock]
    exact unforged_abc

end CompSys.Peer
