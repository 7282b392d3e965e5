import CompSys.PeerStored

/-!
# The check of a retrieved file

What `send_message` has checked of a file that it accepts. The file is the old one with what
`fputs` writes of the blocks of the reply, and the check reads it whole as long as all of that
ends at places within an `int`.
-/
namespace CompSys.PeerClient

open Peer

/-! ## The blocks of a reply -/

/-- The blocks from the header at hand on, with `left` of them to follow, as the reads cut them
out of the stream. -/
def blocksFrom : ℕ → ReplyHeader → Client → List (ℕ × Bytes)
  | 0, header, c => [(header.thisBlock, (readnb header.length c).msgBuf.take header.length)]
  | left + 1, header, c =>
    let c := readnb header.length c
    (header.thisBlock, c.msgBuf.take header.length) ::
      blocksFrom left (readHeader c).1 (readHeader c).2

/-- The numbers and payloads of the blocks that a reply announces. -/
def replyBlocks (stream msgBuf : Bytes) : List (ℕ × Bytes) :=
  let (first, c) := readHeader (connected stream msgBuf [])
  if first.blockCount = 0 then [] else blocksFrom (first.blockCount - 1) first c

/-- The same bytes are in the stream and in the buffer, whatever is in the file. -/
def SameInput (c c' : Client) : Prop := c.stream = c'.stream ∧ c.msgBuf = c'.msgBuf

theorem SameInput.readnb {c c' : Client} (h : SameInput c c') (n : ℕ) :
    SameInput (readnb n c) (readnb n c') := by
  simp only [SameInput, PeerClient.readnb, h.1, h.2, and_self]

theorem SameInput.readHeader {c c' : Client} (h : SameInput c c') :
    (readHeader c).1 = (readHeader c').1 ∧ SameInput (readHeader c).2 (readHeader c').2 := by
  have hread := h.readnb REPLY_HEADER_LEN
  exact ⟨congrArg parseHeader hread.2, hread⟩

theorem SameInput.blocksFrom {c c' : Client} (h : SameInput c c') (left : ℕ)
    (header : ReplyHeader) : blocksFrom left header c = blocksFrom left header c' := by
  induction left generalizing header c c' with
  | zero => rw [PeerClient.blocksFrom, PeerClient.blocksFrom, (h.readnb header.length).2]
  | succ left ih =>
    obtain ⟨hheader, hnext⟩ := (h.readnb header.length).readHeader
    rw [PeerClient.blocksFrom, PeerClient.blocksFrom]
    simp only [(h.readnb header.length).2, hheader]
    rw [ih hnext]

/-! ## The file of an accepted reply -/

theorem handleBlock_none {sha : Sha256} {header : ReplyHeader} {c c' : Client}
    (h : handleBlock sha COMMAND_RETREIVE header c = (none, c')) :
    SameInput c' (readnb header.length c) ∧ c'.file = writeBlock c.file
        (header.thisBlock, (readnb header.length c).msgBuf.take header.length) := by
  unfold handleBlock at h
  split at h
  · cases h
  · split at h
    · cases h
    · simp only at h
      split at h
      · cases h
      · cases h
        exact ⟨⟨rfl, rfl⟩, rfl⟩

/-- A loop without an early return writes every block. -/
theorem blockLoop_file (sha : Sha256) (first : ReplyHeader) (left : ℕ) {header last : ReplyHeader}
    {c c' : Client} (h : blockLoop sha COMMAND_RETREIVE first left header c = (none, last, c')) :
    c'.file = stored c.file (blocksFrom left header c) := by
  induction left generalizing header c with
  | zero =>
    rw [blockLoop] at h
    cases hrun : handleBlock sha COMMAND_RETREIVE header c with
    | mk failure c₁ =>
      rw [hrun] at h
      cases h
      exact (handleBlock_none hrun).2
  | succ left ih =>
    rw [blockLoop] at h
    cases hrun : handleBlock sha COMMAND_RETREIVE header c with
    | mk failure c₁ =>
      rw [hrun] at h
      cases failure with
      | some failure => cases h
      | none =>
        obtain ⟨hinput, hfile⟩ := handleBlock_none hrun
        obtain ⟨hheader, hnext⟩ := hinput.readHeader
        simp only at h
        split at h
        · cases h
        · split at h
          · cases h
          · have hkept : (readHeader c₁).2.file = c₁.file := rfl
            rw [ih h, hkept, hfile, hheader, hnext.blocksFrom]
            rfl

theorem retrieve_file (sha : Sha256) (stackRoom : ℕ) (stream msgBuf file : Bytes)
    (h : (retrieve sha stackRoom stream msgBuf file).1 = none) :
    (retrieve sha stackRoom stream msgBuf file).2.file = stored file (replyBlocks stream msgBuf) := by
  have hfirst : (readHeader (connected stream msgBuf file)).1 =
      (readHeader (connected stream msgBuf [])).1 := rfl
  unfold retrieve sendMessage at h ⊢
  unfold replyBlocks
  cases hread : readHeader (connected stream msgBuf file) with
  | mk first c =>
    rw [hread] at h hfirst
    simp only at h hfirst ⊢
    rw [← hfirst]
    cases hblocks : receiveBlocks sha COMMAND_RETREIVE first c with
    | mk failure rest =>
      obtain ⟨last, c'⟩ := rest
      rw [hblocks] at h
      cases failure with
      | some failure => cases h
      | none =>
        have hfile : c.file = file := congrArg (fun r => r.2.file) hread.symm
        unfold receiveBlocks at hblocks
        split at hblocks
        case isTrue hzero =>
          cases hblocks
          rw [if_pos hzero]
          exact hfile
        case isFalse hsome =>
          rw [if_neg hsome]
          have hstored := blockLoop_file sha first _ hblocks
          have hinput : SameInput c (readHeader (connected stream msgBuf [])).2 :=
            ⟨congrArg (fun r => r.2.stream) hread.symm, congrArg (fun r => r.2.msgBuf) hread.symm⟩
          rw [hfile, hinput.blocksFrom] at hstored
          exact hstored

/-- The old file and the bytes that `fputs` writes of the blocks end at places within an `int`. -/
def EndsWithinInt (prior : Bytes) (blocks : List (ℕ × Bytes)) : Prop :=
  prior.length < 2147483648 ∧ ∀ block ∈ blocks, ∀ p, Covers block p → p + 1 < 2147483648

theorem length_stored_lt_iff (prior : Bytes) (blocks : List (ℕ × Bytes)) :
    (stored prior blocks).length < 2147483648 ↔ EndsWithinInt prior blocks := by
  have hlt := lt_length_stored prior blocks 2147483647
  have hlast : (stored prior blocks).length < 2147483648 ↔
      ¬2147483647 < (stored prior blocks).length := by omega
  rw [hlast, hlt, EndsWithinInt, not_or]
  constructor
  · intro ⟨hprior, hnone⟩
    refine ⟨by omega, fun block hblock p hcovers => ?_⟩
    by_contra hge
    exact hnone ⟨p, by omega, block, hblock, hcovers⟩
  · intro ⟨hprior, hall⟩
    refine ⟨by omega, ?_⟩
    rintro ⟨p, hle, block, hblock, hcovers⟩
    have hp := hall block hblock p hcovers
    omega

/-- When a file is accepted, its hash is the one of every header exactly if the old file and what
`fputs` writes of the blocks end within an `int`, or the hash does not tell the file from its
beginning. And whatever is written has been verified against the first block. -/
theorem retrieve_verified_iff (sha : Sha256) (stackRoom : ℕ) (stream msgBuf file : Bytes) :
    ((retrieve sha stackRoom stream msgBuf file).1 = none →
      ((∀ header ∈ (retrieve sha stackRoom stream msgBuf file).2.headers,
          sha.digest (retrieve sha stackRoom stream msgBuf file).2.file = header.totalHash) ↔
        (EndsWithinInt file (replyBlocks stream msgBuf) ∨
          sha.digest (stored file (replyBlocks stream msgBuf)) =
            sha.digest ((stored file (replyBlocks stream msgBuf)).take
              ((stored file (replyBlocks stream msgBuf)).length % 4294967296))))) ∧
    ∀ w ∈ (retrieve sha stackRoom stream msgBuf file).2.written,
      w.Verified sha (firstHeader stream msgBuf) := by
  obtain ⟨hverified, hfirst, haccepted⟩ := retrieve_spec sha stackRoom stream msgBuf file
  refine ⟨fun hnone => ?_, hverified⟩
  obtain ⟨hagree, hcheck⟩ := haccepted hnone
  rw [retrieve_file sha stackRoom stream msgBuf file hnone] at hcheck ⊢
  rw [← length_stored_lt_iff]
  obtain ⟨-, hhash⟩ := checkFile_none hcheck
  constructor
  · intro hall
    exact .inr ((hall _ hfirst).trans hhash.symm)
  · rintro (hsmall | hcollision) header hmem
    · rw [Nat.mod_eq_of_lt (by omega), List.take_length] at hhash
      exact hhash.trans (hagree header hmem).symm
    · exact (hcollision.trans hhash).trans (hagree header hmem).symm

/-! ## A file that is accepted for its first byte -/

/-- A block that passes its checks is written. -/
theorem handleBlock_ok {sha : Sha256} {header : ReplyHeader} {c : Client} {payload : Bytes}
    (hstatus : header.status = STATUS_OK) (hlength : header.length ≤ MAX_MSG_LEN)
    (hpayload : (readnb header.length c).msgBuf.take header.length = payload)
    (hhash : sha.digest payload = header.blockHash) :
    handleBlock sha COMMAND_RETREIVE header c =
      (none, { readnb header.length c with
        file := fputs c.file header.offset payload
        written := c.written ++ [⟨header, payload⟩] }) := by
  subst hpayload
  have hnot : ¬ (header.status ≠ STATUS_OK ∧
      ¬ (COMMAND_RETREIVE = COMMAND_REGISTER ∧ header.status = STATUS_PEER_EXISTS)) :=
    fun h => h.1 hstatus
  rw [handleBlock, if_neg hnot, if_neg (Nat.not_lt.mpr hlength)]
  simp only [hhash, ne_eq, not_true_eq_false, if_false, if_true]
  rfl

/-- A reply of one block, taken apart as far as the check of the file. -/
theorem retrieve_single {sha : Sha256} {stackRoom : ℕ} {stream msgBuf file payload : Bytes}
    {header : ReplyHeader}
    (hheader : parseHeader (readnb REPLY_HEADER_LEN (connected stream msgBuf file)).msgBuf = header)
    (hcount : header.blockCount = 1) (hstatus : header.status = STATUS_OK)
    (hlength : header.length ≤ MAX_MSG_LEN)
    (hpayload : (readnb header.length
      (readnb REPLY_HEADER_LEN (connected stream msgBuf file))).msgBuf.take header.length = payload)
    (hhash : sha.digest payload = header.blockHash) :
    (retrieve sha stackRoom stream msgBuf file).1 =
        checkFile sha stackRoom header.totalHash (fputs file header.offset payload) ∧
      (retrieve sha stackRoom stream msgBuf file).2.file = fputs file header.offset payload ∧
      (retrieve sha stackRoom stream msgBuf file).2.headers = [header] := by
  have hread : readHeader (connected stream msgBuf file) = (header,
      { readnb REPLY_HEADER_LEN (connected stream msgBuf file) with headers := [header] }) := by
    rw [readHeader, hheader]
    rfl
  have hblock := handleBlock_ok
    (c := { readnb REPLY_HEADER_LEN (connected stream msgBuf file) with headers := [header] })
    hstatus hlength hpayload hhash
  unfold retrieve sendMessage receiveBlocks
  rw [hread]
  simp only [hcount, Nat.one_ne_zero, if_false, Nat.sub_self, blockLoop, hblock, if_true]
  exact ⟨rfl, rfl, rfl⟩

/-- SHA-256 of one zero byte. -/
def zeroHash : Bytes :=
  [0x6e, 0x34, 0x0b, 0x9c, 0xff, 0xb3, 0x7a, 0x98, 0x9c, 0xa5, 0x44, 0xe6, 0xbb, 0x78, 0x0a,
    0x2c, 0x78, 0x90, 0x1d, 0x3f, 0xb3, 0x37, 0x38, 0x76, 0x85, 0x11, 0xa3, 0x06, 0x17, 0xaf,
    0xa0, 0x1d]

/-- SHA-256 of `abcde`. -/
def payloadHash : Bytes :=
  [0x36, 0xbb, 0xe5, 0x0e, 0xd9, 0x68, 0x41, 0xd1, 0x04, 0x43, 0xbc, 0xb6, 0x70, 0xd6, 0x55,
    0x4f, 0x0a, 0x34, 0xb7, 0x61, 0xbe, 0x67, 0xec, 0x9c, 0x4a, 0x8a, 0xd2, 0xc0, 0xc4, 0x4c,
    0xa4, 0x2c]

/-- SHA-256 of `2 ^ 32 - 4` zero bytes and `abcde`. -/
def sparseHash : Bytes :=
  [0xfa, 0x83, 0xe7, 0x67, 0xb8, 0x1b, 0x2e, 0xf5, 0x46, 0xd1, 0x73, 0x49, 0x93, 0x73, 0xa2,
    0xdb, 0xe2, 0xe6, 0x18, 0xcc, 0xab, 0x22, 0x46, 0x85, 0x6b, 0xc0, 0x2e, 0xb5, 0xb0, 0xee,
    0x0c, 0x9b]

/-- SHA-256 on the three inputs that occur below. -/
def knownSha256 : Sha256 where
  digest data :=
    if data = [0] then zeroHash
    else if data = [97, 98, 99, 100, 101] then payloadHash
    else if data.length = 4294967297 then sparseHash
    else List.replicate 32 0
  length_digest data := by
    split
    · rfl
    · split
      · rfl
      · split <;> rfl

/-- One block with the payload `abcde` at the offset `2 ^ 32 - 4`, announced with the
hash of a single zero byte as the hash of the file. -/
def sparseReply : Bytes :=
  BigEndian.encode 4 5 ++ BigEndian.encode 4 1 ++ BigEndian.encode 4 639799835 ++
    BigEndian.encode 4 1 ++ payloadHash ++ zeroHash ++ [97, 98, 99, 100, 101]

theorem writeAt_nil {data : Bytes} (h : data ≠ []) (offset : ℕ) :
    writeAt [] offset data = List.replicate offset 0 ++ data := by
  simp [writeAt, h]

/-- The file that a short payload far behind the end of an empty one leaves. -/
theorem fputs_sparse (n : ℕ) :
    (fputs [] (n + 1) [97, 98, 99, 100, 101]).length = n + 6 ∧
      (fputs [] (n + 1) [97, 98, 99, 100, 101]).take 1 = [0] := by
  have hall : ([97, 98, 99, 100, 101] : Bytes).takeWhile (fun b => b ≠ 0) =
      [97, 98, 99, 100, 101] := by decide
  rw [fputs, hall, writeAt_nil (List.cons_ne_nil _ _)]
  constructor
  · rw [List.length_append, List.length_replicate]
    rfl
  · rfl

theorem checkFile_sparse {file : Bytes} (hlength : file.length = 4294967297)
    (hfirst : file.take 1 = [0]) : checkFile knownSha256 8388608 zeroHash file = none := by
  have hsize : file.length % 4294967296 = 1 := by omega
  have hhead : knownSha256.digest [0] = zeroHash := by decide
  unfold checkFile getFileSha
  simp only [hsize, hfirst, hhead]
  rfl

theorem digest_sparse {file : Bytes} (hlength : file.length = 4294967297) :
    knownSha256.digest file ≠ zeroHash := by
  have hzero : file ≠ [0] := by
    intro heq
    rw [heq] at hlength
    exact absurd hlength (by decide)
  have hpayload : file ≠ [97, 98, 99, 100, 101] := by
    intro heq
    rw [heq] at hlength
    exact absurd hlength (by decide)
  have hdigest : knownSha256.digest file = sparseHash := by
    simp only [knownSha256, if_neg hzero, if_neg hpayload, if_pos hlength]
  rw [hdigest]
  decide

/-- The check reads the size of the written file as one byte, for which a stack of 8 MiB has
room. -/
theorem retrieve_unverified :
    (retrieve knownSha256 8388608 sparseReply (List.replicate 8196 0) []).1 = none ∧
      ∃ header ∈ (retrieve knownSha256 8388608 sparseReply (List.replicate 8196 0) []).2.headers,
        knownSha256.digest (retrieve knownSha256 8388608 sparseReply (List.replicate 8196 0) []).2.file ≠
          header.totalHash := by
  have hheader : parseHeader (readnb REPLY_HEADER_LEN
      (connected sparseReply (List.replicate 8196 0) [])).msgBuf =
        ⟨5, 1, 639799835, 1, payloadHash, zeroHash⟩ := by
    decide
  have hpayload : (readnb 5 (readnb REPLY_HEADER_LEN
      (connected sparseReply (List.replicate 8196 0) []))).msgBuf.take 5 =
        [97, 98, 99, 100, 101] := by
    decide
  have hhash : knownSha256.digest [97, 98, 99, 100, 101] = payloadHash := by decide
  obtain ⟨hchecked, hfile, hheaders⟩ :=
    retrieve_single hheader rfl rfl (by decide) hpayload hhash
  have hoffset : ReplyHeader.offset ⟨5, 1, 639799835, 1, payloadHash, zeroHash⟩ = 4294967292 := rfl
  obtain ⟨hlength, hfirst⟩ := fputs_sparse 4294967291
  rw [hoffset] at hchecked hfile
  rw [hchecked, hfile, hheaders]
  exact ⟨checkFile_sparse hlength hfirst, _, List.mem_cons_self, digest_sparse hlength⟩

end CompSys.PeerClient
