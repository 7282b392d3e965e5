import CompSys.PeerChecksum
import CompSys.PeerClient

/-!
# The C client of A4 reads the blocks of a reply

What `send_message` makes of the stream that the Python peer sends, block after block: the headers
are read as they were written, the payloads pass their checks, and the client of a file writes each
of them where its number says.
-/
namespace CompSys.PeerClient

open Peer

/-- What is written into the file for a block. -/
def writeBlock (file : Bytes) (block : ℕ × Bytes) : Bytes :=
  fputs file (block.1 * (MAX_MSG_LEN - REPLY_HEADER_LEN) % 4294967296) block.2

/-- The file after all of the blocks, in the order in which they come. -/
def stored (prior : Bytes) (blocks : List (ℕ × Bytes)) : Bytes := blocks.foldl writeBlock prior

/-- The header of a block. -/
def headerOf (sha : Sha256) (blocksCount : ℕ) (totalHash : Bytes) (block : ℕ × Bytes) :
    ReplyHeader where
  length := block.2.length
  status := STATUS_OK
  thisBlock := block.1
  blockCount := blocksCount
  blockHash := sha.digest block.2
  totalHash := totalHash

section Reading

variable (sha : Sha256) {blocksCount : ℕ} {totalHash : Bytes} {block : ℕ × Bytes}

/-- The first bytes of the message of a block. -/
def headerBytes (sha : Sha256) (blocksCount : ℕ) (totalHash : Bytes) (block : ℕ × Bytes) : Bytes :=
  BigEndian.encode 4 block.2.length ++
    replyHeader sha STATUS_OK block.1 blocksCount totalHash block.2

theorem length_headerBytes (htotal : totalHash.length = 32) (blocksCount : ℕ) (block : ℕ × Bytes) :
    (headerBytes sha blocksCount totalHash block).length = REPLY_HEADER_LEN := by
  rw [headerBytes, List.length_append, BigEndian.length_encode,
    length_replyHeader sha _ _ _ htotal]
  rfl

theorem parseHeader_bytes (htotal : totalHash.length = 32) (hcount : blocksCount < 2 ^ 32)
    (hnum : block.1 < blocksCount) (hlength : block.2.length < 2 ^ 32) (behind : Bytes) :
    parseHeader (headerBytes sha blocksCount totalHash block ++ behind) =
      headerOf sha blocksCount totalHash block := by
  have ha := BigEndian.length_encode 4 block.2.length
  have hb := BigEndian.length_encode 4 STATUS_OK
  have hc := BigEndian.length_encode 4 block.1
  have hd := BigEndian.length_encode 4 blocksCount
  have he := sha.length_digest block.2
  have hna := BigEndian.decode_encode 4 block.2.length hlength
  have hnb := BigEndian.decode_encode 4 STATUS_OK (by decide)
  have hnc := BigEndian.decode_encode 4 block.1 (hnum.trans hcount)
  have hnd := BigEndian.decode_encode 4 blocksCount hcount
  rw [headerBytes, replyHeader]
  generalize BigEndian.encode 4 block.2.length = a at *
  generalize BigEndian.encode 4 STATUS_OK = b at *
  generalize BigEndian.encode 4 block.1 = c at *
  generalize BigEndian.encode 4 blocksCount = d at *
  generalize hm : a ++ (b ++ (c ++ (d ++ (sha.digest block.2 ++ totalHash)))) ++ behind = m
  have hlengthField : slice m 0 4 = a :=
    slice_field [] a (b ++ c ++ d ++ sha.digest block.2 ++ totalHash ++ behind) (by simp [← hm]) rfl
      (by omega)
  have hstatusField : slice m 4 8 = b :=
    slice_field a b (c ++ d ++ sha.digest block.2 ++ totalHash ++ behind) (by simp [← hm]) ha
      (by omega)
  have hblockField : slice m 8 12 = c :=
    slice_field (a ++ b) c (d ++ sha.digest block.2 ++ totalHash ++ behind) (by simp [← hm])
      (by simp [ha, hb]) (by omega)
  have hcountField : slice m 12 16 = d :=
    slice_field (a ++ b ++ c) d (sha.digest block.2 ++ totalHash ++ behind) (by simp [← hm])
      (by simp [ha, hb, hc]) (by omega)
  have hblockHash : slice m 16 48 = sha.digest block.2 :=
    slice_field (a ++ b ++ c ++ d) _ (totalHash ++ behind) (by simp [← hm])
      (by simp [ha, hb, hc, hd]) (by omega)
  have htotalHash : slice m 48 80 = totalHash :=
    slice_field (a ++ b ++ c ++ d ++ sha.digest block.2) _ behind (by simp [← hm])
      (by simp [ha, hb, hc, hd, he]) (by omega)
  simp only [parseHeader, headerOf, SHA256_HASH_SIZE, Nat.reduceAdd, hlengthField, hstatusField,
    hblockField, hcountField, hblockHash, htotalHash, hna, hnb, hnc, hnd]

/-- The header of the next block is read, and its payload is next in the stream. -/
theorem readHeader_message (htotal : totalHash.length = 32) (hcount : blocksCount < 2 ^ 32)
    (hnum : block.1 < blocksCount) (hlength : block.2.length < 2 ^ 32) {c : Client} {rest : Bytes}
    (hstream : c.stream = blockMessage sha STATUS_OK blocksCount totalHash block ++ rest) :
    ∃ c', readHeader c = (headerOf sha blocksCount totalHash block, c') ∧
      c'.stream = block.2 ++ rest ∧ c'.file = c.file := by
  have hheader := length_headerBytes sha htotal blocksCount block
  have hmessage : c.stream = headerBytes sha blocksCount totalHash block ++ (block.2 ++ rest) := by
    rw [hstream, blockMessage, headerBytes]
    simp only [List.append_assoc]
  have htake : c.stream.take REPLY_HEADER_LEN = headerBytes sha blocksCount totalHash block := by
    rw [hmessage, ← hheader, List.take_left]
  have hdrop : c.stream.drop REPLY_HEADER_LEN = block.2 ++ rest := by
    rw [hmessage, ← hheader, List.drop_left]
  refine ⟨(readHeader c).2, Prod.ext ?_ rfl, hdrop, rfl⟩
  change parseHeader (c.stream.take REPLY_HEADER_LEN ++ _) = _
  rw [htake, parseHeader_bytes sha htotal hcount hnum hlength]

/-- The payload passes its check. -/
theorem handleBlock_payload (blocksCount : ℕ) (totalHash : Bytes) (command : ℕ)
    (hlength : block.2.length ≤ sendableLength) {c : Client} {rest : Bytes}
    (hstream : c.stream = block.2 ++ rest) :
    ∃ c', handleBlock sha command (headerOf sha blocksCount totalHash block) c = (none, c') ∧
      c'.stream = rest ∧ (∃ behind, c'.msgBuf = block.2 ++ behind) ∧
      c'.file = if command = COMMAND_RETREIVE then writeBlock c.file block else c.file := by
  have hfits : ¬MAX_MSG_LEN < (headerOf sha blocksCount totalHash block).length := by
    have hmax : sendableLength ≤ MAX_MSG_LEN := by decide
    exact Nat.not_lt.mpr (hlength.trans hmax)
  have hbuf : (readnb block.2.length c).msgBuf = block.2 ++ c.msgBuf.drop block.2.length := by
    rw [readnb, hstream, List.take_left]
  have hpayload : (readnb block.2.length c).msgBuf.take block.2.length = block.2 := by
    rw [hbuf, List.take_left]
  have hrest : (readnb block.2.length c).stream = rest := by
    rw [readnb, hstream, List.drop_left]
  rw [handleBlock, if_neg fun h => h.1 rfl, if_neg hfits]
  simp only [headerOf, hpayload, ne_eq, not_true_eq_false, if_false]
  split
  case isTrue => exact ⟨_, rfl, hrest, ⟨_, hbuf⟩, rfl⟩
  case isFalse => exact ⟨_, rfl, hrest, ⟨_, hbuf⟩, rfl⟩

/-- The client goes through all blocks. The payload of the last one is left in the buffer. -/
theorem blockLoop_blocks (command : ℕ) (htotal : totalHash.length = 32)
    (hcount : blocksCount < 2 ^ 32) (first : ReplyHeader) (hfirst : first.blockCount = blocksCount)
    (hhash : first.totalHash = totalHash) (blocks : List (ℕ × Bytes)) :
    ∀ (block : ℕ × Bytes) (c : Client),
      (∀ b ∈ block :: blocks, b.1 < blocksCount ∧ b.2.length ≤ sendableLength) →
      c.stream = block.2 ++ (blocks.map (blockMessage sha STATUS_OK blocksCount totalHash)).flatten →
      let last := (block :: blocks).getLast (List.cons_ne_nil _ _)
      ∃ c', blockLoop sha command first blocks.length (headerOf sha blocksCount totalHash block) c =
          (none, headerOf sha blocksCount totalHash last, c') ∧
        (∃ behind, c'.msgBuf = last.2 ++ behind) ∧
        c'.file = if command = COMMAND_RETREIVE then stored c.file (block :: blocks) else c.file := by
  induction blocks with
  | nil =>
    intro block c hbounds hstream
    obtain ⟨c', hhandle, -, hbuf, hfile⟩ := handleBlock_payload sha blocksCount totalHash
      command (hbounds block List.mem_cons_self).2 hstream
    refine ⟨c', ?_, hbuf, hfile⟩
    rw [List.length_nil, blockLoop, hhandle]
    rfl
  | cons next blocks ih =>
    intro block c hbounds hstream
    rw [List.map_cons, List.flatten_cons] at hstream
    obtain ⟨c₁, hhandle, hstream₁, -, hfile₁⟩ := handleBlock_payload sha blocksCount totalHash
      command (hbounds block List.mem_cons_self).2 hstream
    have hnext := hbounds next (List.mem_cons_of_mem _ List.mem_cons_self)
    have hlength : next.2.length < 2 ^ 32 := lt_of_le_sendable hnext.2
    obtain ⟨c₂, hread, hstream₂, hfile₂⟩ :=
      readHeader_message sha htotal hcount hnext.1 hlength hstream₁
    obtain ⟨c', hloop, hbuf, hfile⟩ := ih next c₂
      (fun b hb => hbounds b (List.mem_cons_of_mem _ hb)) hstream₂
    refine ⟨c', ?_, hbuf, ?_⟩
    · rw [List.length_cons, blockLoop, hhandle]
      simp only [hread]
      rw [if_neg (not_not.mpr (show (headerOf sha blocksCount totalHash next).blockCount = _ from
        hfirst.symm)), if_neg (not_not.mpr (show (headerOf sha blocksCount totalHash
          next).totalHash = _ from hhash.symm)), hloop]
      rfl
    · rw [hfile, hfile₂, hfile₁]
      split <;> rfl

end Reading

section Reply

variable (sha : Sha256) {content : Bytes} {blocks : List (ℕ × Bytes)}

/-- What is sent for a content, in some order of its blocks. -/
def contentStream (sha : Sha256) (content : Bytes) (blocks : List (ℕ × Bytes)) : Bytes :=
  (blocks.map (blockMessage sha STATUS_OK (makeBlocks content).1 (sha.digest content))).flatten

/-- The reading of a whole reply. -/
theorem receiveBlocks_content (command : ℕ) (hblocks : blocks.Perm (makeBlocks content).2)
    (hcount : (makeBlocks content).1 < 2 ^ 32) {c : Client}
    (hstream : c.stream = contentStream sha content blocks) :
    ∃ first c₁ c', readHeader c = (first, c₁) ∧
      receiveBlocks sha command first c₁ = (none, headerOf sha (makeBlocks content).1
        (sha.digest content) (blocks.getLast (ne_nil_of_perm hblocks)), c') ∧
      (∃ behind, c'.msgBuf = (blocks.getLast (ne_nil_of_perm hblocks)).2 ++ behind) ∧
      c'.file = if command = COMMAND_RETREIVE then stored c.file blocks else c.file := by
  have hsplits := makeBlocks_splits content
  have hbounds : ∀ b ∈ blocks, b.1 < (makeBlocks content).1 ∧ b.2.length ≤ sendableLength := by
    intro b hb
    have hmem := hblocks.mem_iff.mp hb
    exact ⟨hsplits.number_lt hmem, hsplits.sizes b hmem⟩
  obtain ⟨block, rest, rfl⟩ := List.exists_cons_of_ne_nil (ne_nil_of_perm hblocks)
  have hblock := hbounds block List.mem_cons_self
  have hlength : block.2.length < 2 ^ 32 := lt_of_le_sendable hblock.2
  rw [contentStream, List.map_cons, List.flatten_cons] at hstream
  obtain ⟨c₁, hread, hstream₁, hfile₁⟩ :=
    readHeader_message sha (sha.length_digest content) hcount hblock.1 hlength hstream
  obtain ⟨c', hloop, hbuf, hfile⟩ := blockLoop_blocks sha command (sha.length_digest content) hcount
    (headerOf sha (makeBlocks content).1 (sha.digest content) block) rfl rfl rest block c₁ hbounds
    hstream₁
  refine ⟨_, c₁, c', hread, ?_, hbuf, by rw [hfile, hfile₁]⟩
  have hlengths := hblocks.length_eq
  rw [hsplits.length_eq, List.length_cons] at hlengths
  have hleft : (headerOf sha (makeBlocks content).1 (sha.digest content) block).blockCount - 1 =
      rest.length := Nat.sub_eq_of_eq_add hlengths.symm
  have hsome : (headerOf sha (makeBlocks content).1 (sha.digest content) block).blockCount ≠ 0 :=
    Nat.ne_of_gt hsplits.nonempty
  rw [receiveBlocks, if_neg hsome, hleft]
  exact hloop

end Reply

end CompSys.PeerClient
