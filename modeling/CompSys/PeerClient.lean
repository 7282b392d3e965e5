import CompSys.PeerWire
import Mathlib.Data.List.Basic

/-!
# The client of the C peer of A4

`send_message` of `peer.c` from the reply on: the header of the first block, the loop
over the blocks with all of its early returns, and the check of the finished file.
The peer at the other end is any finite sequence of bytes. Opening a file succeeds.
-/
namespace CompSys.PeerClient

open Peer

def MAX_MSG_LEN : ℕ := 8196
def REPLY_HEADER_LEN : ℕ := 80
def SHA256_HASH_SIZE : ℕ := 32

def COMMAND_RETREIVE : ℕ := 2
def STATUS_PEER_EXISTS : ℕ := 2

structure ReplyHeader where
  length : ℕ
  status : ℕ
  thisBlock : ℕ
  blockCount : ℕ
  blockHash : Bytes
  totalHash : Bytes
  deriving DecidableEq, Repr

/-- A block whose payload has gone to the file. -/
structure Written where
  header : ReplyHeader
  payload : Bytes
  deriving DecidableEq, Repr

/-- What is still to come from the peer, the message buffer and the file on disk, with
the headers that have been read and the blocks that have been written. -/
structure Client where
  stream : Bytes
  msgBuf : Bytes
  file : Bytes
  headers : List ReplyHeader
  written : List Written

/-- The early returns, and two ends that are not defined in C: a payload that does not
fit the buffer, and a file for which there is no buffer on the stack. -/
inductive Failure where
  | inconsistentCount
  | inconsistentHash
  | unexpectedStatus
  | payloadMismatch
  | fileMismatch
  | bufferOverrun
  | noFileBuffer
  deriving DecidableEq, Repr

/-- At the end of the stream the rest of the buffer keeps what it held. -/
def readnb (n : ℕ) (c : Client) : Client :=
  { c with
    stream := c.stream.drop n
    msgBuf := c.stream.take n ++ c.msgBuf.drop (c.stream.take n).length }

def parseHeader (msgBuf : Bytes) : ReplyHeader where
  length := BigEndian.decode (slice msgBuf 0 4)
  status := BigEndian.decode (slice msgBuf 4 8)
  thisBlock := BigEndian.decode (slice msgBuf 8 12)
  blockCount := BigEndian.decode (slice msgBuf 12 16)
  blockHash := slice msgBuf 16 (16 + SHA256_HASH_SIZE)
  totalHash := slice msgBuf 48 (48 + SHA256_HASH_SIZE)

def readHeader (c : Client) : ReplyHeader × Client :=
  let c := readnb REPLY_HEADER_LEN c
  let header := parseHeader c.msgBuf
  (header, { c with headers := c.headers ++ [header] })

/-- The product is an unsigned 32-bit one. -/
def ReplyHeader.offset (header : ReplyHeader) : ℕ :=
  header.thisBlock * (MAX_MSG_LEN - REPLY_HEADER_LEN) % 4294967296

/-- A write at a position fills the gap behind a shorter file with zeros. -/
def writeAt (file : Bytes) (offset : ℕ) (data : Bytes) : Bytes :=
  if data = [] then file
  else file.take offset ++ List.replicate (offset - file.length) 0 ++ data ++
    file.drop (offset + data.length)

/-- `fputs` writes up to the first NUL. -/
def fputs (file : Bytes) (offset : ℕ) (payload : Bytes) : Bytes :=
  writeAt file offset (payload.takeWhile fun b => b ≠ 0)

/-- The body of the loop, with the header of its block read. -/
def handleBlock (sha : Sha256) (command : ℕ) (header : ReplyHeader) (c : Client) :
    Option Failure × Client :=
  if header.status ≠ STATUS_OK ∧
      ¬ (command = COMMAND_REGISTER ∧ header.status = STATUS_PEER_EXISTS) then
    (some .unexpectedStatus, c)
  else if MAX_MSG_LEN < header.length then (some .bufferOverrun, c)
  else
    let c := readnb header.length c
    let payload := c.msgBuf.take header.length
    if sha.digest payload ≠ header.blockHash then (some .payloadMismatch, c)
    else if command = COMMAND_RETREIVE then
      (none, { c with
        file := fputs c.file header.offset payload
        written := c.written ++ [⟨header, payload⟩] })
    else (none, c)

/-- The loop over the blocks, with `left` of them to follow the one at hand. The header
that was read last is returned with the end of the loop. -/
def blockLoop (sha : Sha256) (command : ℕ) (first : ReplyHeader) :
    ℕ → ReplyHeader → Client → Option Failure × ReplyHeader × Client
  | 0, header, c =>
    match handleBlock sha command header c with
    | (failure, c) => (failure, header, c)
  | left + 1, header, c =>
    match handleBlock sha command header c with
    | (some failure, c) => (some failure, header, c)
    | (none, c) =>
      match readHeader c with
      | (next, c) =>
        if next.blockCount ≠ first.blockCount then (some .inconsistentCount, next, c)
        else if next.totalHash ≠ first.totalHash then (some .inconsistentHash, next, c)
        else blockLoop sha command first left next c

/-- The size is an `int`: what is left of it modulo `2 ^ 32`, and negative from `2 ^ 31`
on. The buffer of that size is on the stack, where `stackRoom` bytes are left. -/
def getFileSha (sha : Sha256) (stackRoom : ℕ) (file : Bytes) : Option Bytes :=
  let size := file.length % 4294967296
  if size < 2147483648 ∧ size ≤ stackRoom then some (sha.digest (file.take size)) else none

/-- The check after the loop. -/
def checkFile (sha : Sha256) (stackRoom : ℕ) (totalHash : Bytes) (file : Bytes) :
    Option Failure :=
  match getFileSha sha stackRoom file with
  | none => some .noFileBuffer
  | some fileHash => if fileHash ≠ totalHash then some .fileMismatch else none

/-- Nothing is done for a first block that announces no blocks at all. -/
def receiveBlocks (sha : Sha256) (command : ℕ) (first : ReplyHeader) (c : Client) :
    Option Failure × ReplyHeader × Client :=
  if first.blockCount = 0 then (none, first, c)
  else blockLoop sha command first (first.blockCount - 1) first c

/-- There is no failure when the function gets past its last check. -/
def sendMessage (sha : Sha256) (stackRoom command : ℕ) (c : Client) :
    Option Failure × Client :=
  match readHeader c with
  | (first, c) =>
    match receiveBlocks sha command first c with
    | (some failure, _, c) => (some failure, c)
    | (none, last, c) =>
      if command = COMMAND_RETREIVE then (checkFile sha stackRoom last.totalHash c.file, c) else (none, c)

/-- The connection is open and the request has been sent. -/
def connected (stream msgBuf file : Bytes) : Client := ⟨stream, msgBuf, file, [], []⟩

/-- `send_message` for a file. -/
def retrieve (sha : Sha256) (stackRoom : ℕ) (stream msgBuf file : Bytes) :
    Option Failure × Client :=
  sendMessage sha stackRoom COMMAND_RETREIVE (connected stream msgBuf file)

section Blocks

/-- A block that may be written after a first block with the given header. -/
structure Written.Verified (sha : Sha256) (first : ReplyHeader) (w : Written) : Prop where
  status : w.header.status = STATUS_OK
  payload : sha.digest w.payload = w.header.blockHash
  blockCount : w.header.blockCount = first.blockCount
  totalHash : w.header.totalHash = first.totalHash

/-- All blocks that went to the file are verified. -/
def AllVerified (sha : Sha256) (first : ReplyHeader) (c : Client) : Prop :=
  ∀ w ∈ c.written, w.Verified sha first

/-- The headers are left alone. -/
theorem handleBlock_headers (sha : Sha256) (command : ℕ) (header : ReplyHeader) (c : Client) :
    (handleBlock sha command header c).2.headers = c.headers := by
  unfold handleBlock
  split
  · rfl
  · split
    · rfl
    · simp only
      split
      · rfl
      · split <;> rfl

/-- A block is written only after its checks. -/
theorem handleBlock_verified (sha : Sha256) {first header : ReplyHeader} {c : Client}
    (h : AllVerified sha first c) (hcount : header.blockCount = first.blockCount)
    (htotal : header.totalHash = first.totalHash) :
    AllVerified sha first (handleBlock sha COMMAND_RETREIVE header c).2 := by
  unfold handleBlock
  split
  case isTrue => exact h
  case isFalse hstatus =>
    split
    case isTrue => exact h
    case isFalse =>
      by_cases hhash : sha.digest ((readnb header.length c).msgBuf.take header.length) ≠
          header.blockHash
      · rw [if_pos hhash]
        exact h
      · rw [if_neg hhash, if_pos rfl]
        have hok : header.status = STATUS_OK := by
          by_contra hne
          exact hstatus ⟨hne, fun hregister => absurd hregister.1 (by decide)⟩
        intro w hw
        rcases List.mem_append.mp hw with hold | hnew
        · exact h w hold
        · rw [List.mem_singleton.mp hnew]
          exact ⟨hok, not_not.mp hhash, hcount, htotal⟩

/-- The headers that have been read announce what the first one announced. -/
def Agree (first : ReplyHeader) (headers : List ReplyHeader) : Prop :=
  ∀ header ∈ headers, header.totalHash = first.totalHash

/-- What a run of the loop leaves, and what it has read when it runs to its end. -/
theorem blockLoop_spec (sha : Sha256) {first : ReplyHeader} (left : ℕ)
    {header : ReplyHeader} {c : Client} (h : AllVerified sha first c)
    (hcount : header.blockCount = first.blockCount) (htotal : header.totalHash = first.totalHash)
    (hagree : Agree first c.headers) {failure : Option Failure} {last : ReplyHeader} {c' : Client}
    (hrun : blockLoop sha COMMAND_RETREIVE first left header c = (failure, last, c')) :
    AllVerified sha first c' ∧ c.headers ⊆ c'.headers ∧
      (failure = none → Agree first c'.headers ∧ last.totalHash = first.totalHash) := by
  induction left generalizing header c with
  | zero =>
    have hinv := handleBlock_verified sha h hcount htotal
    have hheaders := handleBlock_headers sha COMMAND_RETREIVE header c
    cases hrun
    exact ⟨hinv, hheaders ▸ List.Subset.refl _, fun _ => ⟨hheaders ▸ hagree, htotal⟩⟩
  | succ left ih =>
    have hinv := handleBlock_verified sha h hcount htotal
    have hheaders := handleBlock_headers sha COMMAND_RETREIVE header c
    unfold blockLoop at hrun
    generalize handleBlock sha COMMAND_RETREIVE header c = handled at hrun hinv hheaders
    obtain ⟨stopped, handled⟩ := handled
    simp only at hinv hheaders
    cases stopped with
    | some stop =>
      cases hrun
      exact ⟨hinv, hheaders ▸ List.Subset.refl _, fun hnone => by cases hnone⟩
    | none =>
      -- the next header is only logged, the file and the written blocks stay
      have hinv' : AllVerified sha first (readHeader handled).2 := hinv
      have hkept : c.headers ⊆ (readHeader handled).2.headers :=
        fun header' hmem => List.mem_append_left _ (hheaders ▸ hmem)
      simp only at hrun
      split at hrun
      case isTrue =>
        cases hrun
        exact ⟨hinv', hkept, fun hnone => by cases hnone⟩
      case isFalse hcount' =>
        split at hrun
        case isTrue =>
          cases hrun
          exact ⟨hinv', hkept, fun hnone => by cases hnone⟩
        case isFalse htotal' =>
          have hagree' : Agree first (readHeader handled).2.headers := by
            intro header' hmem
            rcases List.mem_append.mp hmem with hold | hnew
            · exact hagree header' (hheaders ▸ hold)
            · rw [List.mem_singleton.mp hnew]
              exact not_not.mp htotal'
          obtain ⟨hinv'', hkept', hend⟩ :=
            ih hinv' (not_not.mp hcount') (not_not.mp htotal') hagree' hrun
          exact ⟨hinv'', List.Subset.trans hkept hkept', hend⟩

end Blocks

section Retrieve

/-- The header that is read first. -/
def firstHeader (stream msgBuf : Bytes) : ReplyHeader :=
  (readHeader (connected stream msgBuf [])).1

/-- What a call leaves: the file has been checked when there was no failure. -/
theorem retrieve_spec (sha : Sha256) (stackRoom : ℕ) (stream msgBuf file : Bytes) :
    AllVerified sha (firstHeader stream msgBuf) (retrieve sha stackRoom stream msgBuf file).2 ∧
      firstHeader stream msgBuf ∈ (retrieve sha stackRoom stream msgBuf file).2.headers ∧
      ((retrieve sha stackRoom stream msgBuf file).1 = none →
        Agree (firstHeader stream msgBuf) (retrieve sha stackRoom stream msgBuf file).2.headers ∧
        checkFile sha stackRoom (firstHeader stream msgBuf).totalHash
          (retrieve sha stackRoom stream msgBuf file).2.file = none) := by
  have hinv : AllVerified sha (firstHeader stream msgBuf)
      (readHeader (connected stream msgBuf file)).2 :=
    fun w hw => (List.not_mem_nil hw).elim
  have hagree : Agree (firstHeader stream msgBuf)
      (readHeader (connected stream msgBuf file)).2.headers := by
    intro header hmem
    rw [List.mem_singleton.mp hmem]
    rfl
  have hfirst : (readHeader (connected stream msgBuf file)).1 = firstHeader stream msgBuf := rfl
  have hmem : firstHeader stream msgBuf ∈ (readHeader (connected stream msgBuf file)).2.headers :=
    List.mem_singleton.mpr rfl
  unfold retrieve sendMessage
  generalize readHeader (connected stream msgBuf file) = opened at hinv hagree hfirst hmem
  obtain ⟨first, c⟩ := opened
  simp only at hinv hagree hfirst hmem ⊢
  subst hfirst
  obtain ⟨failure, last, c', hrun⟩ : ∃ failure last c',
      receiveBlocks sha COMMAND_RETREIVE (firstHeader stream msgBuf) c = (failure, last, c') :=
    ⟨_, _, _, rfl⟩
  have hblocks : AllVerified sha (firstHeader stream msgBuf) c' ∧
      c.headers ⊆ c'.headers ∧ (failure = none → Agree (firstHeader stream msgBuf) c'.headers ∧
        last.totalHash = (firstHeader stream msgBuf).totalHash) := by
    unfold receiveBlocks at hrun
    split at hrun
    · cases hrun
      exact ⟨hinv, List.Subset.refl _, fun _ => ⟨hagree, rfl⟩⟩
    · exact blockLoop_spec sha _ hinv rfl rfl hagree hrun
  obtain ⟨hinv', hkept, hend⟩ := hblocks
  rw [hrun]
  cases failure with
  | some failure => exact ⟨hinv', hkept hmem, fun hnone => by cases hnone⟩
  | none =>
    obtain ⟨hagree', hlast⟩ := hend rfl
    simp only [if_true]
    refine ⟨hinv', hkept hmem, fun hchecked => ⟨hagree', ?_⟩⟩
    rw [← hlast]
    exact hchecked

/-- The check passes when the hash of what it reads is the announced one: the whole
file, as long as its size is an `int`. -/
theorem checkFile_none {sha : Sha256} {stackRoom : ℕ} {totalHash file : Bytes}
    (h : checkFile sha stackRoom totalHash file = none) :
    (file.length % 4294967296 < 2147483648 ∧ file.length % 4294967296 ≤ stackRoom) ∧
      sha.digest (file.take (file.length % 4294967296)) = totalHash := by
  unfold checkFile getFileSha at h
  by_cases hsize : file.length % 4294967296 < 2147483648 ∧ file.length % 4294967296 ≤ stackRoom
  · simp only [if_pos hsize] at h
    refine ⟨hsize, ?_⟩
    by_contra hne
    rw [if_pos hne] at h
    cases h
  · simp only [if_neg hsize] at h
    cases h

end Retrieve

end CompSys.PeerClient
