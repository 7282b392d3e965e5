import CompSys.PeerReply

/-!
# The total checksum of a reply

`send_to_server` compares the checksum that the last block announces for all data with that
of the data it has joined, prints what it has found and returns the data in any case. So it
is up to the other side whether the announced checksums are those of the data.
-/
namespace CompSys.Peer

variable {σ : Type}

/-! ## One round -/

/-- The part of a round that reads from the connection. -/
def readReply (remote : Remote σ) (conn : σ) : Except PyError (Reply × σ) := do
  let (initialRead, conn) ← remote.recv conn LEN_RESPONSE_LENGTH
  let responseLength ← unpack initialRead
  let (responseBytes, conn) ← remote.recv conn
    (responseLength + LEN_STATUS + LEN_BLOCK_ID + LEN_BLOCKS_COUNT + LEN_BLOCK_HASH +
      LEN_TOTAL_HASH)
  let reply ← parseReply responseBytes responseLength
  return (reply, conn)

/-- The part that follows. -/
def placeBlock (sha : Sha256) (allBlocks : Option (List (Option Bytes))) (reply : Reply) :
    Except PyError Round :=
  let allBlocks := allBlocks.getD (List.replicate reply.totalBlocks none)
  if allBlocks.length ≤ reply.thisBlock then .error .indexError
  else if reply.status ≠ STATUS_OK then
    .ok (.failed s!"Got unexpected status code: {reply.status}")
  else if sha.digest reply.response ≠ reply.blockChecksum then
    .ok (.failed (s!"Block {reply.thisBlock}/{reply.totalBlocks} checksums for " ++
      "a block did not match"))
  else
    let allBlocks := allBlocks.set reply.thisBlock (some reply.response)
    if allBlocks.count none = 0 then .ok (.complete reply.status reply.totalChecksum allBlocks)
    else .ok (.more allBlocks)

theorem readBlock_eq (sha : Sha256) (remote : Remote σ) (conn : σ)
    (allBlocks : Option (List (Option Bytes))) :
    readBlock sha remote conn allBlocks = (do
      let (reply, conn) ← readReply remote conn
      let round ← placeBlock sha allBlocks reply
      return (round, conn)) := by
  simp only [readBlock, readReply, bind_assoc, pure_bind]
  congr; funext first
  congr; funext responseLength
  congr; funext second
  congr; funext reply
  unfold placeBlock
  dsimp only
  split
  · rfl
  · split
    · rfl
    · split
      · rfl
      · split <;> rfl

/-- The blocks that `send_to_server` reads, round after round. -/
def received (sha : Sha256) (remote : Remote σ) :
    Nat → σ → Option (List (Option Bytes)) → List Reply
  | 0, _, _ => []
  | fuel + 1, conn, allBlocks =>
    match readReply remote conn with
    | .error _ => []
    | .ok (reply, conn) =>
      match placeBlock sha allBlocks reply with
      | .ok (.more allBlocks) => reply :: received sha remote fuel conn (some allBlocks)
      | _ => [reply]

section Round

variable {sha : Sha256} {remote : Remote σ} {conn conn' : σ} {reply : Reply}

theorem receiveLoop_error {e : PyError} (hread : readReply remote conn = .error e) (fuel : Nat)
    (allBlocks : Option (List (Option Bytes))) :
    receiveLoop sha remote (fuel + 1) conn allBlocks = some (.error e) := by
  rw [receiveLoop, readBlock_eq, hread]
  rfl

theorem receiveLoop_read (hread : readReply remote conn = .ok (reply, conn')) (fuel : Nat)
    (allBlocks : Option (List (Option Bytes))) :
    receiveLoop sha remote (fuel + 1) conn allBlocks =
      match placeBlock sha allBlocks reply with
      | .error e => some (.error e)
      | .ok (.more allBlocks) => receiveLoop sha remote fuel conn' (some allBlocks)
      | .ok (.failed msg) => some (.ok (⟨STATUS_OTHER, .msg msg, [msg]⟩, conn'))
      | .ok (.complete status totalChecksum allBlocks) =>
        some (.ok (⟨status, .bytes allBlocks.reduceOption.flatten,
          if sha.digest allBlocks.reduceOption.flatten ≠ totalChecksum then
            ["Total checksum for all data did not match"] else []⟩, conn')) := by
  have hround : readBlock sha remote conn allBlocks =
      (placeBlock sha allBlocks reply >>= fun round => .ok (round, conn')) := by
    rw [readBlock_eq, hread]
    rfl
  rw [receiveLoop, hround]
  cases placeBlock sha allBlocks reply with
  | error e => rfl
  | ok round => cases round <;> rfl

end Round

/-! ## The blocks that have come -/

/-- The other side sends these blocks, whatever they hold. -/
inductive Sends (remote : Remote σ) : σ → List Reply → σ → Prop where
  | nil (conn : σ) : Sends remote conn [] conn
  | cons {conn conn₁ conn₂ : σ} {reply : Reply} {blocks : List Reply} :
      readReply remote conn = .ok (reply, conn₁) → Sends remote conn₁ blocks conn₂ →
      Sends remote conn (reply :: blocks) conn₂

/-- The number of blocks is what the first one says. -/
def announced : List Reply → Nat
  | [] => 0
  | block :: _ => block.totalBlocks

/-- The payload of the block that has come last for a number. -/
def payloadOf (blocks : List Reply) (i : Nat) : Bytes :=
  (Slots.lastOf (blocks.map fun block => (block.thisBlock, block.response)) i).getD []

/-- The payloads one after the other. -/
def assembled (blocks : List Reply) : Bytes := (List.range (announced blocks)).flatMap (payloadOf blocks)

/-- A block with status OK, with a number in range and with the checksum of its payload. -/
structure Good (sha : Sha256) (n : Nat) (block : Reply) : Prop where
  number : block.thisBlock < n
  status : block.status = STATUS_OK
  checksum : sha.digest block.response = block.blockChecksum

/-- Good blocks of every number, the last of which is the first of its number. -/
structure Completes (sha : Sha256) (blocks : List Reply) : Prop where
  good : ∀ block ∈ blocks, Good sha (announced blocks) block
  full : ∀ i < announced blocks, ∃ block ∈ blocks, block.thisBlock = i
  early : ∃ i < announced blocks, ∀ block ∈ blocks.dropLast, block.thisBlock ≠ i

/-- `all_blocks` when some blocks have come. -/
def slots (blocks : List Reply) : List (Option Bytes) :=
  Slots.fill (List.replicate (announced blocks) none)
    (blocks.map fun block => (block.thisBlock, block.response))

def table : List Reply → Option (List (Option Bytes))
  | [] => none
  | block :: blocks => some (slots (block :: blocks))

section Blocks

variable {sha : Sha256} {done : List Reply} {reply : Reply}

theorem announced_concat (hne : done ≠ []) (reply : Reply) :
    announced (done ++ [reply]) = announced done := by
  obtain ⟨block, blocks, rfl⟩ := List.exists_cons_of_ne_nil hne
  rfl

theorem table_concat (done : List Reply) (reply : Reply) :
    table (done ++ [reply]) = some (slots (done ++ [reply])) := by
  cases done <;> rfl

theorem slots_concat (done : List Reply) (reply : Reply) :
    slots (done ++ [reply]) =
      ((table done).getD (List.replicate reply.totalBlocks none)).set reply.thisBlock
        (some reply.response) := by
  rw [slots, List.map_append, List.map_singleton, Slots.fill_concat]
  cases done <;> rfl

theorem length_table (done : List Reply) (reply : Reply) :
    ((table done).getD (List.replicate reply.totalBlocks none)).length =
      announced (done ++ [reply]) := by
  cases done with
  | nil => exact List.length_replicate
  | cons block blocks =>
    rw [table, Option.getD_some, slots, Slots.length_fill, List.length_replicate]
    rfl

theorem slots_full_iff (blocks : List Reply) :
    (slots blocks).count none = 0 ↔
      ∀ i < announced blocks, ∃ block ∈ blocks, block.thisBlock = i := by
  rw [slots, Slots.fill_full_iff]
  simp

/-- When there is one for every number, the payloads are joined. -/
theorem joined_slots (blocks : List Reply)
    (hfull : ∀ i < announced blocks, ∃ block ∈ blocks, block.thisBlock = i) :
    (slots blocks).reduceOption.flatten = assembled blocks := by
  have hget : ∀ i ∈ List.range (announced blocks),
      Slots.lastOf (blocks.map fun block => (block.thisBlock, block.response)) i =
        some (payloadOf blocks i) := by
    intro i hi
    obtain ⟨block, hblock, rfl⟩ := hfull i (List.mem_range.mp hi)
    cases hlast : Slots.lastOf (blocks.map fun block => (block.thisBlock, block.response))
        block.thisBlock with
    | none => exact absurd rfl (Slots.lastOf_eq_none.mp hlast _ (List.mem_map_of_mem hblock))
    | some payload => rw [payloadOf, hlast, Option.getD_some]
  rw [slots, Slots.fill_empty, List.map_congr_left hget, assembled, List.reduceOption,
    List.filterMap_map]
  simp [List.flatMap]

/-- A good block takes its slot. -/
theorem placeBlock_good (hgood : Good sha (announced (done ++ [reply])) reply) :
    placeBlock sha (table done) reply =
      .ok (if (slots (done ++ [reply])).count none = 0 then
          .complete reply.status reply.totalChecksum (slots (done ++ [reply]))
        else .more (slots (done ++ [reply]))) := by
  have hnumber : ¬ ((table done).getD (List.replicate reply.totalBlocks none)).length ≤
      reply.thisBlock := by
    rw [length_table]
    exact Nat.not_le.mpr hgood.number
  rw [placeBlock, if_neg hnumber, if_neg (not_not.mpr hgood.status),
    if_neg (not_not.mpr hgood.checksum), slots_concat]
  exact (apply_ite Except.ok _ _ _).symm

/-- Any other block ends the loop. -/
theorem placeBlock_bad (hbad : ¬ Good sha (announced (done ++ [reply])) reply) :
    (∃ e, placeBlock sha (table done) reply = .error e) ∨
      ∃ msg, placeBlock sha (table done) reply = .ok (.failed msg) := by
  unfold placeBlock
  dsimp only
  split
  · exact .inl ⟨_, rfl⟩
  · rename_i hnumber
    split
    · exact .inr ⟨_, rfl⟩
    · rename_i hstatus
      split
      · exact .inr ⟨_, rfl⟩
      · rename_i hchecksum
        rw [length_table] at hnumber
        exact absurd ⟨Nat.lt_of_not_le hnumber, not_not.mp hstatus, not_not.mp hchecksum⟩ hbad

end Blocks

/-! ## The loop -/

section Loop

variable {sha : Sha256} {remote : Remote σ} {conn conn' : σ} {done blocks : List Reply}
  {reply : Reply}

theorem announced_append (done : List Reply) (reply : Reply) (blocks : List Reply) :
    announced (done ++ reply :: blocks) = announced (done ++ [reply]) := by
  cases done <;> rfl

/-- Good blocks, with a number that has not come. -/
structure Waiting (sha : Sha256) (done : List Reply) : Prop where
  good : ∀ block ∈ done, Good sha (announced done) block
  missing : done = [] ∨ ∃ i < announced done, ∀ block ∈ done, block.thisBlock ≠ i

theorem Waiting.good_concat (h : Waiting sha done)
    (hgood : Good sha (announced (done ++ [reply])) reply) :
    ∀ block ∈ done ++ [reply], Good sha (announced (done ++ [reply])) block := by
  intro block hblock
  rw [List.mem_append, List.mem_singleton] at hblock
  obtain hblock | rfl := hblock
  · rw [announced_concat (List.ne_nil_of_mem hblock)]
    exact h.good block hblock
  · exact hgood

theorem Waiting.more (h : Waiting sha done) (hgood : Good sha (announced (done ++ [reply])) reply)
    (hfull : ¬ (slots (done ++ [reply])).count none = 0) : Waiting sha (done ++ [reply]) := by
  refine ⟨h.good_concat hgood, .inr ?_⟩
  rw [slots_full_iff] at hfull
  push Not at hfull
  exact hfull

theorem Waiting.complete (h : Waiting sha done)
    (hgood : Good sha (announced (done ++ [reply])) reply)
    (hfull : (slots (done ++ [reply])).count none = 0) : Completes sha (done ++ [reply]) := by
  refine ⟨h.good_concat hgood, (slots_full_iff _).mp hfull, ?_⟩
  rw [List.dropLast_concat]
  obtain rfl | ⟨i, hi, hmissing⟩ := h.missing
  · exact ⟨0, Nat.zero_lt_of_lt hgood.number, by simp⟩
  · have hne : done ≠ [] := by
      rintro rfl
      exact absurd hi (Nat.not_lt_zero i)
    exact ⟨i, by rwa [announced_concat hne], hmissing⟩

/-- A run that returns data has read blocks that complete the reply. -/
theorem receiveLoop_completes {fuel : Nat} {data : Bytes} {reports : List String}
    (hdone : Waiting sha done)
    (h : receiveLoop sha remote fuel conn (table done) =
      some (.ok (⟨STATUS_OK, .bytes data, reports⟩, conn'))) :
    Sends remote conn (received sha remote fuel conn (table done)) conn' ∧
      Completes sha (done ++ received sha remote fuel conn (table done)) ∧
      data = assembled (done ++ received sha remote fuel conn (table done)) := by
  induction fuel generalizing conn done with
  | zero => cases h
  | succ fuel ih =>
    rw [received]
    cases hread : readReply remote conn with
    | error e =>
      rw [receiveLoop_error hread] at h
      cases h
    | ok read =>
      obtain ⟨reply, conn₁⟩ := read
      rw [receiveLoop_read hread] at h
      dsimp only
      by_cases hgood : Good sha (announced (done ++ [reply])) reply
      · rw [placeBlock_good hgood] at h ⊢
        by_cases hfull : (slots (done ++ [reply])).count none = 0
        · rw [if_pos hfull, hgood.status] at h
          rw [if_pos hfull]
          cases h
          have hcompletes := hdone.complete hgood hfull
          exact ⟨.cons hread (.nil _), hcompletes, joined_slots _ hcompletes.full⟩
        · rw [if_neg hfull] at h ⊢
          dsimp only at h ⊢
          rw [← table_concat] at h ⊢
          obtain ⟨hsends, hcompletes, hdata⟩ := ih (hdone.more hgood hfull) h
          rw [List.append_cons done reply
            (received sha remote fuel conn₁ (table (done ++ [reply])))]
          exact ⟨.cons hread hsends, hcompletes, hdata⟩
      · obtain ⟨e, hbad⟩ | ⟨msg, hbad⟩ := placeBlock_bad hgood <;>
        · rw [hbad] at h
          cases h

/-- Blocks that complete the reply are read, and their data is returned. -/
theorem receiveLoop_sends (hsends : Sends remote conn blocks conn')
    (hcompletes : Completes sha (done ++ blocks)) (hne : blocks ≠ []) :
    received sha remote blocks.length conn (table done) = blocks ∧
      ∃ reports, receiveLoop sha remote blocks.length conn (table done) =
        some (.ok (⟨STATUS_OK, .bytes (assembled (done ++ blocks)), reports⟩, conn')) := by
  induction hsends generalizing done with
  | nil conn => exact absurd rfl hne
  | @cons conn conn₁ conn₂ reply blocks hread hsends ih =>
    have hgood : Good sha (announced (done ++ [reply])) reply := by
      rw [← announced_append done reply blocks]
      exact hcompletes.good reply (by simp)
    rw [List.length_cons, received, receiveLoop_read hread, hread]
    dsimp only
    rw [placeBlock_good hgood]
    cases blocks with
    | nil =>
      have hfull : (slots (done ++ [reply])).count none = 0 := (slots_full_iff _).mpr hcompletes.full
      rw [if_pos hfull]
      cases hsends
      dsimp only
      rw [hgood.status, joined_slots _ hcompletes.full]
      exact ⟨rfl, _, rfl⟩
    | cons next blocks =>
      -- a number that comes with the last block only has not come yet
      have hopen : ¬ (slots (done ++ [reply])).count none = 0 := by
        rw [slots_full_iff]
        intro hall
        obtain ⟨i, hi, hmissing⟩ := hcompletes.early
        rw [announced_append] at hi
        obtain ⟨block, hblock, hnumber⟩ := hall i hi
        refine hmissing block ?_ hnumber
        rw [List.append_cons, List.dropLast_append_of_ne_nil (List.cons_ne_nil next blocks)]
        exact List.mem_append_left _ hblock
      rw [if_neg hopen]
      dsimp only
      rw [← table_concat, List.append_cons done reply (next :: blocks)]
      rw [List.append_cons done reply (next :: blocks)] at hcompletes
      obtain ⟨hreceived, hreturn⟩ := ih hcompletes (List.cons_ne_nil next blocks)
      exact ⟨congrArg (reply :: ·) hreceived, hreturn⟩

end Loop

theorem Completes.ne_nil {sha : Sha256} {blocks : List Reply} (h : Completes sha blocks) :
    blocks ≠ [] := by
  rintro rfl
  obtain ⟨i, hi, -⟩ := h.early
  exact absurd hi (Nat.not_lt_zero i)

/-- The data that is returned with STATUS_OK has the checksum that each of its blocks has
announced exactly if, whenever blocks complete a reply, each of them announces the checksum of
their payloads. -/
theorem total_checksum_iff (sha : Sha256) (remote : Remote σ) (request : Bytes) :
    (∀ (conn conn' : σ) (fuel : Nat) (data : Bytes) (reports : List String),
      remote.connect request = .ok conn →
      sendToServer sha remote fuel request true =
        some (.ok (⟨STATUS_OK, .bytes data, reports⟩, conn')) →
      ∀ block ∈ received sha remote fuel conn none, sha.digest data = block.totalChecksum) ↔
    ∀ (conn conn' : σ) (blocks : List Reply),
      remote.connect request = .ok conn → Sends remote conn blocks conn' →
      Completes sha blocks →
      ∀ block ∈ blocks, sha.digest (assembled blocks) = block.totalChecksum := by
  have hsend : ∀ (conn : σ) (fuel : Nat), remote.connect request = .ok conn →
      sendToServer sha remote fuel request true = receiveLoop sha remote fuel conn (table []) := by
    intro conn fuel hconn
    rw [sendToServer, hconn]
    rfl
  constructor
  · intro h conn conn' blocks hconn hsends hcompletes
    have hfresh : Completes sha ([] ++ blocks) := hcompletes
    obtain ⟨hreceived, reports, hreturn⟩ := receiveLoop_sends hsends hfresh hcompletes.ne_nil
    have hall := h conn conn' blocks.length _ reports hconn ((hsend conn _ hconn).trans hreturn)
    rwa [show received sha remote blocks.length conn none = blocks from hreceived] at hall
  · intro h conn conn' fuel data reports hconn hreturn
    rw [hsend conn fuel hconn] at hreturn
    obtain ⟨hsends, hcompletes, rfl⟩ := receiveLoop_completes ⟨by simp, .inl rfl⟩ hreturn
    exact h conn conn' _ hconn hsends hcompletes

/-- One block with the bytes of abc, and zeros for the checksum of all data. -/
def forgedReply : Reply :=
  ⟨STATUS_OK, 0, 1, abcSha256.digest [97, 98, 99], List.replicate 32 0, [97, 98, 99]⟩

/-- It goes through. -/
theorem total_checksum_ignored : ¬ ∀ (sha : Sha256) (remote : Remote Bytes) (request : Bytes)
    (conn conn' : Bytes) (fuel : Nat) (data : Bytes) (reports : List String),
    remote.connect request = .ok conn →
    sendToServer sha remote fuel request true =
      some (.ok (⟨STATUS_OK, .bytes data, reports⟩, conn')) →
    ∀ block ∈ received sha remote fuel conn none, sha.digest data = block.totalChecksum := by
  intro h
  have hforged := h abcSha256
    (exactly (blockMessage abcSha256 STATUS_OK 1 (List.replicate 32 0) (0, [97, 98, 99]))) []
    _ [] 1 [97, 98, 99] ["Total checksum for all data did not match"] rfl (by decide) forgedReply
    (by decide)
  revert hforged
  decide

end CompSys.Peer
