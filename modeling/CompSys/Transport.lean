import CompSys.BufferedReader

/-!
# Messages from one helper to the other

`compsys_helper_writen` and the unbuffered `compsys_helper_readn`. What one side writes in as many
pieces as it takes is what the other side reads, in pieces of its own.
-/
namespace CompSys.BufferedReader.Transport

open Peer (Bytes)

/-! ## The program -/

/-- One `write` of the `size` bytes at the front of the memory: how many of them were taken, which
is put onto the stream, or an `errno` when it was none. -/
def write (size : ℕ) (bufp : Bytes) (fd : Descriptor) : Except ℤ ℕ × Descriptor :=
  match fd.outcomes with
  | [] => (.ok size, { fd with stream := fd.stream ++ bufp.take size })
  | .upTo most :: outcomes =>
    let count := min size (most + 1)
    (.ok count, ⟨fd.stream ++ bufp.take count, outcomes⟩)
  | .failed errno :: outcomes => (.error errno, { fd with outcomes := outcomes })

theorem write_error {size : ℕ} {bufp : Bytes} {fd fd' : Descriptor} {errno : ℤ}
    (h : write size bufp fd = (.error errno, fd')) :
    fd.outcomes = .failed errno :: fd'.outcomes ∧ fd'.stream = fd.stream := by
  unfold write at h
  split at h
  case h_1 => cases h
  case h_2 => cases h
  case h_3 hcons =>
    cases h
    exact ⟨hcons, rfl⟩

theorem write_ok {size count : ℕ} {bufp : Bytes} {fd fd' : Descriptor} (hsize : 0 < size)
    (h : write size bufp fd = (.ok count, fd')) :
    0 < count ∧ count ≤ size ∧ fd'.stream = fd.stream ++ bufp.take count ∧
      fd'.outcomes <:+ fd.outcomes := by
  unfold write at h
  split at h
  case h_1 =>
    cases h
    exact ⟨hsize, Nat.le_refl _, rfl, List.suffix_rfl⟩
  case h_2 most outcomes hcons =>
    cases h
    refine ⟨by omega, Nat.min_le_left .., rfl, ?_⟩
    rw [hcons]
    exact List.suffix_cons ..
  case h_3 => cases h

/-- `while (nleft > 0)` of `compsys_helper_writen`. Bytes behind the memory are undefined. -/
def writenLoop (n : ℕ) (fd : Descriptor) (nleft : ℕ) (bufp : Bytes) : Option (ℤ × Descriptor) :=
  if nleft > 0 then
    if bufp.length < nleft then none
    else
      match hwrite : write nleft bufp fd with
      | (.error errno, fd) =>
        if errno = EINTR then writenLoop n fd nleft bufp else some (-1, fd)
      | (.ok nwritten, fd) => writenLoop n fd (nleft - nwritten) (bufp.drop nwritten)
  else some (n, fd)
termination_by (nleft, fd.outcomes.length)
decreasing_by
  · have hlength := congrArg List.length (write_error hwrite).1
    rw [List.length_cons] at hlength
    exact Prod.Lex.right _ (by omega)
  · have hcount := (write_ok ‹nleft > 0› hwrite).1
    exact Prod.Lex.left _ _ (by omega)

def writen (fd : Descriptor) (usrbuf : Bytes) (n : ℕ) : Option (ℤ × Descriptor) :=
  writenLoop n fd n usrbuf

/-- `while (nleft > 0)` of `compsys_helper_readn`: what is returned and what has been read. -/
def readnLoop (n : ℕ) (fd : Descriptor) (nleft : ℕ) (bufp : Bytes) : ℤ × Bytes × Descriptor :=
  if nleft > 0 then
    match hread : read nleft fd with
    | (.error errno, fd) => if errno = EINTR then readnLoop n fd nleft bufp else (-1, bufp, fd)
    | (.ok chunk, fd) =>
      if chunk.length = 0 then (n - nleft, bufp, fd)
      else readnLoop n fd (nleft - chunk.length) (bufp ++ chunk)
  else (n - nleft, bufp, fd)
termination_by (nleft, fd.outcomes.length)
decreasing_by
  · have hlength := congrArg List.length (read_error hread).1
    rw [List.length_cons] at hlength
    exact Prod.Lex.right _ (by omega)
  · exact Prod.Lex.left _ _ (by omega)

def readn (fd : Descriptor) (n : ℕ) : ℤ × Bytes × Descriptor := readnLoop n fd n []

/-- One call of `writen` for each message. -/
def runWrites (fd : Descriptor) : List Bytes → Option (List ℤ × Descriptor)
  | [] => some ([], fd)
  | message :: messages => do
    let (returned, fd) ← writen fd message message.length
    let (returns, fd) ← runWrites fd messages
    return (returned :: returns, fd)

/-- One call of `readn` for each of the lengths. -/
def runReads (fd : Descriptor) : List ℕ → List (ℤ × Bytes)
  | [] => []
  | n :: lengths =>
    let (returned, bytes, fd) := readn fd n
    (returned, bytes) :: runReads fd lengths

/-! ## Writing -/

/-- A call that has put `sent` of its data onto the stream: all of it if its length is returned. Else
some failure that is no interruption has kept the rest back. -/
structure Puts (n : ℕ) (data : Bytes) (fd : Descriptor) (returned : ℤ) (sent : Bytes)
    (fd' : Descriptor) : Prop where
  stream : fd'.stream = fd.stream ++ sent
  front : sent <+: data
  outcomes : fd'.outcomes <:+ fd.outcomes
  returned : returned = n ∧ sent = data ∨
    returned = -1 ∧ sent ≠ data ∧ ∃ errno, .failed errno ∈ fd.outcomes ∧ errno ≠ EINTR

section Writing

variable {n : ℕ} {data sent : Bytes} {fd fd₁ fd' : Descriptor} {returned : ℤ}

/-- A piece of the data in front of what the rest of the call does. -/
theorem Puts.cons (count : ℕ) (hstream : fd₁.stream = fd.stream ++ data.take count)
    (houtcomes : fd₁.outcomes <:+ fd.outcomes)
    (h : Puts n (data.drop count) fd₁ returned sent fd') :
    Puts n data fd returned (data.take count ++ sent) fd' := by
  constructor
  · rw [h.stream, hstream, List.append_assoc]
  · calc data.take count ++ sent <+: data.take count ++ data.drop count :=
          (List.prefix_append_right_inj _).mpr h.front
      _ = data := List.take_append_drop ..
  · exact h.outcomes.trans houtcomes
  · rcases h.returned with ⟨hreturned, hall⟩ | ⟨hreturned, hsome, errno, hfailed, hother⟩
    · exact .inl ⟨hreturned, by rw [hall, List.take_append_drop]⟩
    · refine .inr ⟨hreturned, ?_, errno, houtcomes.subset hfailed, hother⟩
      intro hall
      exact hsome (List.append_cancel_left (hall.trans (List.take_append_drop count data).symm))

/-- An interruption changes nothing. -/
theorem Puts.interrupted (hstream : fd₁.stream = fd.stream)
    (houtcomes : fd₁.outcomes <:+ fd.outcomes) (h : Puts n data fd₁ returned sent fd') :
    Puts n data fd returned sent fd' := by
  have hnone := Puts.cons 0 (by rw [hstream, List.take_zero, List.append_nil]) houtcomes h
  rwa [List.take_zero, List.nil_append] at hnone

/-- The induction is on the bytes that are left and the failures to come. -/
theorem writenLoop_puts (n : ℕ) {nleft : ℕ} (fd : Descriptor) {data : Bytes} (behind : Bytes)
    (hlength : data.length = nleft) :
    ∃ returned fd' sent, writenLoop n fd nleft (data ++ behind) = some (returned, fd') ∧
      Puts n data fd returned sent fd' := by
  induction hm : nleft + fd.outcomes.length using Nat.strong_induction_on
    generalizing nleft fd data with
  | _ m ih =>
    subst hm
    rw [writenLoop]
    by_cases hpos : nleft > 0
    case neg =>
      have hnil : data = [] := List.length_eq_zero_iff.mp (by omega)
      rw [if_neg hpos]
      exact ⟨_, _, [], rfl, (List.append_nil _).symm, List.nil_prefix, List.suffix_rfl,
        .inl ⟨rfl, hnil.symm⟩⟩
    case pos =>
      have hroom : ¬(data ++ behind).length < nleft := by
        rw [List.length_append]
        omega
      rw [if_pos hpos, if_neg hroom]
      split
      case h_1 errno fd₁ hwrite =>
        obtain ⟨houtcomes, hstream⟩ := write_error hwrite
        have hsuffix : fd₁.outcomes <:+ fd.outcomes := by
          rw [houtcomes]
          exact List.suffix_cons ..
        by_cases heintr : errno = EINTR
        case pos =>
          have hfewer := congrArg List.length houtcomes
          rw [List.length_cons] at hfewer
          obtain ⟨returned, fd', sent, hrun, hputs⟩ := ih _ (by omega) fd₁ hlength rfl
          rw [if_pos heintr]
          exact ⟨returned, fd', sent, hrun, hputs.interrupted hstream hsuffix⟩
        case neg =>
          have hfailed : .failed errno ∈ fd.outcomes := by
            rw [houtcomes]
            exact List.mem_cons_self
          have hsome : [] ≠ data := by
            rintro rfl
            rw [List.length_nil] at hlength
            omega
          rw [if_neg heintr]
          exact ⟨_, _, [], rfl, by rw [hstream, List.append_nil], List.nil_prefix, hsuffix,
            .inr ⟨rfl, hsome, errno, hfailed, heintr⟩⟩
      case h_2 count fd₁ hwrite =>
        obtain ⟨hcount, hle, hstream, hsuffix⟩ := write_ok hpos hwrite
        have hfits : count ≤ data.length := by omega
        have hrest : (data.drop count).length = nleft - count := by rw [List.length_drop, hlength]
        have hfewer := hsuffix.length_le
        obtain ⟨returned, fd', sent, hrun, hputs⟩ := ih _ (by omega) fd₁ hrest rfl
        rw [List.take_append_of_le_length hfits] at hstream
        rw [List.drop_append_of_le_length hfits]
        exact ⟨returned, fd', data.take count ++ sent, hrun, hputs.cons count hstream hsuffix⟩

/-- With interruptions only, the messages are put onto the stream one behind the other. -/
theorem runWrites_puts (messages : List Bytes) (fd : Descriptor)
    (heintr : ∀ errno, .failed errno ∈ fd.outcomes → errno = EINTR) :
    ∃ fd', runWrites fd messages = some (messages.map fun m => (m.length : ℤ), fd') ∧
      fd'.stream = fd.stream ++ messages.flatten := by
  induction messages generalizing fd with
  | nil => exact ⟨fd, rfl, (List.append_nil _).symm⟩
  | cons message messages ih =>
    obtain ⟨returned, fd₁, sent, hrun, hputs⟩ := writenLoop_puts message.length fd [] rfl
    rw [List.append_nil] at hrun
    obtain ⟨hreturned, hsent⟩ : returned = message.length ∧ sent = message := by
      rcases hputs.returned with hall | ⟨-, -, errno, hfailed, hother⟩
      · exact hall
      · exact absurd (heintr errno hfailed) hother
    obtain ⟨fd', hrest, hstream⟩ := ih fd₁ fun errno h => heintr errno (hputs.outcomes.subset h)
    refine ⟨fd', ?_, ?_⟩
    · rw [runWrites, writen, hrun, hreturned]
      simp only [Option.bind_eq_bind, Option.bind_some, hrest]
      rfl
    · rw [hstream, hputs.stream, hsent, List.flatten_cons, List.append_assoc]

end Writing

/-! ## Reading -/

section Reading

variable {n : ℕ} {fd : Descriptor}

theorem read_suffix {size : ℕ} {fd' : Descriptor} {chunk : Bytes}
    (h : read size fd = (.ok chunk, fd')) : fd'.outcomes <:+ fd.outcomes := by
  unfold read at h
  split at h
  case h_1 =>
    cases h
    exact List.suffix_rfl
  case h_2 hcons =>
    cases h
    rw [hcons]
    exact List.suffix_cons ..
  case h_3 => cases h

/-- An unbuffered read with interruptions only gets its bytes from the front of the stream. -/
theorem readnLoop_takes (n nleft : ℕ) (fd : Descriptor) (bufp : Bytes)
    (heintr : ∀ errno, .failed errno ∈ fd.outcomes → errno = EINTR) :
    ∃ fd' : Descriptor, readnLoop n fd nleft bufp =
        ((n : ℤ) - nleft + (fd.stream.take nleft).length, bufp ++ fd.stream.take nleft, fd') ∧
      fd'.stream = fd.stream.drop nleft ∧ fd'.outcomes <:+ fd.outcomes := by
  induction hm : nleft + fd.outcomes.length using Nat.strong_induction_on
    generalizing nleft fd bufp with
  | _ m ih =>
    subst hm
    rw [readnLoop]
    by_cases hpos : nleft > 0
    case neg =>
      have hzero : nleft = 0 := by omega
      rw [if_neg hpos, hzero]
      exact ⟨fd, by simp, rfl, List.suffix_rfl⟩
    case pos =>
      rw [if_pos hpos]
      split
      case h_1 errno fd₁ hread =>
        obtain ⟨houtcomes, hstream⟩ := read_error hread
        have hsuffix : fd₁.outcomes <:+ fd.outcomes := by
          rw [houtcomes]
          exact List.suffix_cons ..
        have hfailed : .failed errno ∈ fd.outcomes := by
          rw [houtcomes]
          exact List.mem_cons_self
        have hfewer := congrArg List.length houtcomes
        rw [List.length_cons] at hfewer
        obtain ⟨fd', hrun, hrest, hsuffix'⟩ := ih _ (by omega) nleft fd₁ bufp
          (fun e h => heintr e (hsuffix.subset h)) rfl
        rw [if_pos (heintr errno hfailed), hrun, ← hstream]
        exact ⟨fd', rfl, hrest, hsuffix'.trans hsuffix⟩
      case h_2 chunk fd₁ hread =>
        obtain ⟨happend, hle, hend, -⟩ := read_ok hread hpos
        have hsuffix := read_suffix hread
        by_cases hempty : chunk.length = 0
        case pos =>
          have hchunk : chunk = [] := List.length_eq_zero_iff.mp hempty
          have hnone := hend hchunk
          rw [hchunk, List.nil_append, hnone] at happend
          rw [if_pos hempty, hnone]
          exact ⟨fd₁, by simp, by simp [happend], hsuffix⟩
        case neg =>
          have hfewer := hsuffix.length_le
          obtain ⟨fd', hrun, hrest, hsuffix'⟩ := ih _ (by omega) (nleft - chunk.length) fd₁ (bufp ++ chunk)
            (fun e h => heintr e (hsuffix.subset h)) rfl
          have htake : fd.stream.take nleft = chunk ++ fd₁.stream.take (nleft - chunk.length) := by
            rw [← happend, List.take_append, List.take_of_length_le hle]
          have hdrop : fd.stream.drop nleft = fd₁.stream.drop (nleft - chunk.length) := by
            rw [← happend, List.drop_append, List.drop_of_length_le hle, List.nil_append]
          rw [if_neg hempty, hrun, htake, hdrop]
          refine ⟨fd', ?_, hrest, hsuffix'.trans hsuffix⟩
          rw [List.append_assoc, List.length_append]
          congr 1
          push_cast
          omega

theorem runReads_takes (messages : List Bytes) (fd : Descriptor) (rest : Bytes)
    (hstream : fd.stream = messages.flatten ++ rest)
    (heintr : ∀ errno, .failed errno ∈ fd.outcomes → errno = EINTR) :
    runReads fd (messages.map List.length) = messages.map fun m => ((m.length : ℤ), m) := by
  induction messages generalizing fd with
  | nil => rfl
  | cons message messages ih =>
    obtain ⟨fd', hrun, hdrop, hsuffix⟩ :=
      readnLoop_takes message.length message.length fd [] heintr
    rw [List.flatten_cons, List.append_assoc] at hstream
    rw [hstream, List.take_left, List.nil_append] at hrun
    rw [hstream, List.drop_left] at hdrop
    rw [List.map_cons, runReads, readn, hrun]
    simp only [ih fd' hdrop fun errno h => heintr errno (hsuffix.subset h)]
    simp

end Reading

/-! ## The whole way -/

/-- The buffered calls for the lengths of the messages in front of the stream report these. -/
theorem served_messages {messages : List Bytes} {rest : Bytes} {rs : List Result}
    (h : Served (messages.flatten ++ rest) (messages.map fun m => .readnb m.length) rs) :
    rs.map (fun r => (r.returned, r.delivered)) = messages.map fun m => ((m.length : ℤ), m) := by
  induction messages generalizing rs with
  | nil =>
    cases rs with
    | nil => rfl
    | cons r rs => exact h.elim
  | cons message messages ih =>
    cases rs with
    | nil => exact h.elim
    | cons r rs =>
      obtain ⟨hserves, hserved⟩ := h
      obtain ⟨-, hlength⟩ := hserves.readnb message.length rfl
      rw [List.flatten_cons, List.append_assoc, List.length_append,
        Nat.min_eq_left (Nat.le_add_right ..)] at hlength
      have hfront := hserves.front
      rw [List.flatten_cons, List.append_assoc] at hfront hserved
      have hsame : r.delivered = message := by
        rw [List.prefix_iff_eq_take.mp hfront, hlength, List.take_left]
      rw [hsame, List.drop_left] at hserved
      rw [List.map_cons, List.map_cons, ih hserved, hserves.reported, hsame]

/-- However the writes and the reads are cut into pieces and interrupted, each message is written
whole, and a call for its length gets it, from the buffered and from the unbuffered reader. -/
theorem messages_arrive (messages : List Bytes) (writes reads : List Outcome) (buf rest : Bytes)
    (hshort : ∀ m ∈ messages, m.length < 2 ^ 31)
    (hwrites : ∀ errno, .failed errno ∈ writes → errno = EINTR)
    (hreads : ∀ errno, .failed errno ∈ reads → errno = EINTR)
    (hbuf : buf.length = COMPSYS_BUFSIZE) :
    ∃ fd, runWrites ⟨[], writes⟩ messages = some (messages.map fun m => (m.length : ℤ), fd) ∧
      (∃ rs, runCalls (readinitb buf) ⟨fd.stream ++ rest, reads⟩
          (messages.map fun m => .readnb m.length) = some rs ∧
        rs.map (fun r => (r.returned, r.delivered)) = messages.map fun m => ((m.length : ℤ), m)) ∧
      runReads ⟨fd.stream ++ rest, reads⟩ (messages.map List.length) =
        messages.map fun m => ((m.length : ℤ), m) := by
  obtain ⟨fd, hwritten, hstream⟩ := runWrites_puts messages ⟨[], writes⟩ hwrites
  have hsent : fd.stream ++ rest = messages.flatten ++ rest := congrArg (· ++ rest) hstream
  refine ⟨fd, hwritten, ?_, runReads_takes messages _ rest hsent hreads⟩
  have hallowed : ∀ call ∈ messages.map fun m => Call.readnb m.length, call.Allowed := by
    intro call hcall
    obtain ⟨m, hm, rfl⟩ := List.mem_map.mp hcall
    exact hshort m hm
  have hahead : Ahead (readinitb buf) ⟨fd.stream ++ rest, reads⟩ (messages.flatten ++ rest) := by
    rw [hsent]
    exact readinitb_ahead hbuf hreads
  obtain ⟨rs, hrun, hserved⟩ := runCalls_served hallowed hahead
  exact ⟨rs, hrun, served_messages hserved⟩

/-- Two messages, of which the first takes two writes and is read in two pieces. -/
theorem messages_arrive_hi : ∃ fd,
    runWrites ⟨[], [.upTo 0, .failed 4]⟩ [[104, 105], [10]] = some ([2, 1], fd) ∧
      (∃ rs, runCalls (readinitb (List.replicate 8192 0))
          ⟨fd.stream ++ [33], [.failed 4, .upTo 0]⟩ [.readnb 2, .readnb 1] = some rs ∧
        rs.map (fun r => (r.returned, r.delivered)) = [(2, [104, 105]), (1, [10])]) ∧
      runReads ⟨fd.stream ++ [33], [.failed 4, .upTo 0]⟩ [2, 1] = [(2, [104, 105]), (1, [10])] :=
  messages_arrive [[104, 105], [10]] [.upTo 0, .failed 4] [.failed 4, .upTo 0]
    (List.replicate 8192 0) [33] (by decide) (fun errno h => by simpa [EINTR] using h)
    (fun errno h => by simpa [EINTR] using h) List.length_replicate

end CompSys.BufferedReader.Transport
