import CompSys.PeerClient

/-!
# The buffered reader of A4

`compsys_helper_readnb` and `compsys_helper_readlineb` on one `compsys_helper_state_t`, whose
descriptor stands for the bytes still to come from it. How many of them a `read` returns, and
which reads fail, is up to the operating system. `none` is a copy from outside of the internal
buffer.
-/
namespace CompSys.BufferedReader

open Peer (Bytes)

def COMPSYS_BUFSIZE : ℕ := 8192

def EINTR : ℤ := 4

def NEWLINE : UInt8 := 10

/-! ## The operating system -/

/-- One `read`: at most so many bytes and one more, or a failure with its `errno`. -/
inductive Outcome where
  | upTo (most : ℕ)
  | failed (errno : ℤ)
deriving DecidableEq

/-- The bytes to come and what the next reads do; those behind the list get all they can. -/
structure Descriptor where
  stream : Bytes
  outcomes : List Outcome

/-- `read`: a chunk that is empty at the end of the stream only, or the `errno`. -/
def read (size : ℕ) (fd : Descriptor) : Except ℤ Bytes × Descriptor :=
  match fd.outcomes with
  | [] => (.ok (fd.stream.take size), { fd with stream := fd.stream.drop size })
  | .upTo most :: outcomes =>
    let count := min size (most + 1)
    (.ok (fd.stream.take count), ⟨fd.stream.drop count, outcomes⟩)
  | .failed errno :: outcomes => (.error errno, { fd with outcomes := outcomes })

/-! ## The program -/

structure State where
  cnt : ℤ
  bufptr : ℕ
  buf : Bytes

/-- The internal buffer holds anything at first. -/
def readinitb (buf : Bytes) : State := { cnt := 0, bufptr := 0, buf := buf }

theorem read_error {size : ℕ} {fd fd' : Descriptor} {errno : ℤ}
    (h : read size fd = (.error errno, fd')) :
    fd.outcomes = .failed errno :: fd'.outcomes ∧ fd'.stream = fd.stream := by
  unfold read at h
  split at h
  · cases h
  · cases h
  · cases h
    exact ⟨‹_›, rfl⟩

/-- `while (cnt <= 0)`, with the value that the call returns from inside the loop. -/
def refill (rp : State) (fd : Descriptor) : Option ℤ × State × Descriptor :=
  if rp.cnt ≤ 0 then
    match hread : read COMPSYS_BUFSIZE fd with
    | (.error errno, fd) =>
      let rp := { rp with cnt := -1 }
      if errno ≠ EINTR then (some (-1), rp, fd) else refill rp fd
    | (.ok chunk, fd) =>
      let rp := { rp with cnt := chunk.length, buf := chunk ++ rp.buf.drop chunk.length }
      if chunk.length = 0 then (some 0, rp, fd) else (none, { rp with bufptr := 0 }, fd)
  else (none, rp, fd)
termination_by fd.outcomes.length
decreasing_by
  rw [(read_error hread).1]
  exact Nat.lt_succ_self _

/-- `(int) n` for a `size_t`. -/
def toInt (n : ℕ) : ℤ := Int.bmod n (2 ^ 32)

/-- What a call returns and has written at `usrbuf`, with the state after it. -/
structure Result where
  returned : ℤ
  written : Bytes
  state : State
  fd : Descriptor

/-- `compsys_helper_read`: `memcpy` of `min(n, cnt)` bytes from the internal buffer. -/
def helperRead (rp : State) (fd : Descriptor) (n : ℕ) : Option Result :=
  let (stop, rp, fd) := refill rp fd
  match stop with
  | some returned => some ⟨returned, [], rp, fd⟩
  | none =>
    let cnt := if rp.cnt < toInt n then rp.cnt else toInt n
    if cnt < 0 ∨ rp.buf.length < rp.bufptr + cnt.toNat then none
    else
      let rp' := { rp with bufptr := rp.bufptr + cnt.toNat, cnt := rp.cnt - cnt }
      some ⟨cnt, (rp.buf.drop rp.bufptr).take cnt.toNat, rp', fd⟩

/-- `while (nleft > 0)`. -/
def readnbLoop (n : ℕ) (rp : State) (fd : Descriptor) (nleft : ℕ) (bufp : Bytes) :
    Option Result :=
  if nleft > 0 then
    match helperRead rp fd nleft with
    | none => none
    | some r =>
      if r.returned < 0 then some { r with returned := -1, written := bufp ++ r.written }
      else if r.returned = 0 then some { r with returned := n - nleft, written := bufp ++ r.written }
      else readnbLoop n r.state r.fd (nleft - r.returned.toNat) (bufp ++ r.written)
  else some ⟨n - nleft, bufp, rp, fd⟩
termination_by nleft
decreasing_by omega

def readnb (rp : State) (fd : Descriptor) (n : ℕ) : Option Result := readnbLoop n rp fd n []

/-- `for (n = 1; n < maxlen; n++)`, one byte at a time, with the NUL behind the loop. -/
def readlinebLoop (maxlen : ℕ) (rp : State) (fd : Descriptor) (n : ℕ) (bufp : Bytes) :
    Option Result :=
  if n < maxlen then
    match helperRead rp fd 1 with
    | none => none
    | some r =>
      if r.returned = 1 then do
        let c ← r.written.head?
        if c = NEWLINE then some { r with returned := n + 1 - 1, written := bufp ++ [c] ++ [0] }
        else readlinebLoop maxlen r.state r.fd (n + 1) (bufp ++ [c])
      else if r.returned = 0 then
        if n = 1 then some { r with returned := 0, written := bufp }
        else some { r with returned := n - 1, written := bufp ++ [0] }
      else some { r with returned := -1, written := bufp }
  else some ⟨n - 1, bufp ++ [0], rp, fd⟩
termination_by maxlen - n

def readlineb (rp : State) (fd : Descriptor) (maxlen : ℕ) : Option Result :=
  readlinebLoop maxlen rp fd 1 []

/-! ## Calls on one state -/

inductive Call where
  | readnb (n : ℕ)
  | readlineb (maxlen : ℕ)
deriving DecidableEq

def Call.Allowed : Call → Prop
  | .readnb n => n < 2 ^ 31
  | .readlineb maxlen => 2 ≤ maxlen

instance : DecidablePred Call.Allowed
  | .readnb n => inferInstanceAs (Decidable (n < 2 ^ 31))
  | .readlineb maxlen => inferInstanceAs (Decidable (2 ≤ maxlen))

def Call.run (rp : State) (fd : Descriptor) : Call → Option Result
  | .readnb n => BufferedReader.readnb rp fd n
  | .readlineb maxlen => BufferedReader.readlineb rp fd maxlen

def runCalls (rp : State) (fd : Descriptor) : List Call → Option (List Result)
  | [] => some []
  | call :: calls => do
    let r ← call.run rp fd
    let rs ← runCalls r.state r.fd calls
    return r :: rs

/-- The bytes that a call reports. -/
def Result.delivered (r : Result) : Bytes := r.written.take r.returned.toNat

/-- What a call does in front of the bytes `rest` of the stream. -/
structure Serves (rest : Bytes) (call : Call) (r : Result) : Prop where
  front : r.delivered <+: rest
  reported : r.returned = r.delivered.length
  readnb : ∀ n, call = .readnb n →
    r.written = r.delivered ∧ r.delivered.length = min n rest.length
  readlineb : ∀ maxlen, call = .readlineb maxlen →
    r.delivered.length ≤ maxlen - 1 ∧ NEWLINE ∉ r.delivered.dropLast ∧
    (r.delivered.getLast? = some NEWLINE ∨ r.delivered.length = maxlen - 1 ∨
      r.delivered = rest) ∧
    r.written = if r.delivered = [] then [] else r.delivered ++ [0]

/-- Each call is served where those before it have stopped. -/
def Served : Bytes → List Call → List Result → Prop
  | _, [], [] => True
  | rest, call :: calls, r :: rs =>
    Serves rest call r ∧ Served (rest.drop r.delivered.length) calls rs
  | _, _, _ => False

/-! ## What is still to come -/

/-- The bytes in front of the next call: the unread ones of the internal buffer, then the
stream. -/
structure Ahead (rp : State) (fd : Descriptor) (rest : Bytes) : Prop where
  inside : rp.bufptr + rp.cnt.toNat ≤ rp.buf.length
  size : rp.buf.length = COMPSYS_BUFSIZE
  rest : (rp.buf.drop rp.bufptr).take rp.cnt.toNat ++ fd.stream = rest
  interrupted : ∀ errno, .failed errno ∈ fd.outcomes → errno = EINTR

theorem readinitb_ahead {buf : Bytes} {fd : Descriptor} (hsize : buf.length = COMPSYS_BUFSIZE)
    (heintr : ∀ errno, .failed errno ∈ fd.outcomes → errno = EINTR) :
    Ahead (readinitb buf) fd fd.stream :=
  ⟨Nat.zero_le _, hsize, rfl, heintr⟩

/-- An empty internal buffer leaves the stream. -/
theorem Ahead.stream_of_nonpos {rp : State} {fd : Descriptor} {rest : Bytes}
    (h : Ahead rp fd rest) (hcnt : rp.cnt ≤ 0) : fd.stream = rest := by
  rw [← h.rest, Int.toNat_of_nonpos hcnt, List.take_zero, List.nil_append]

theorem read_ok {size : ℕ} {fd fd' : Descriptor} {chunk : Bytes}
    (h : read size fd = (.ok chunk, fd')) (hsize : 0 < size) :
    chunk ++ fd'.stream = fd.stream ∧ chunk.length ≤ size ∧ (chunk = [] → fd.stream = []) ∧
      fd'.outcomes ⊆ fd.outcomes := by
  have htake : ∀ {count : ℕ}, 0 < count → fd.stream.take count = [] → fd.stream = [] := by
    intro count hcount hnil
    rcases List.take_eq_nil_iff.mp hnil with hzero | hstream
    · omega
    · exact hstream
  unfold read at h
  split at h
  case h_1 hnil =>
    cases h
    exact ⟨List.take_append_drop .., List.length_take_le .., htake hsize, List.Subset.refl _⟩
  case h_2 most outcomes hcons =>
    cases h
    refine ⟨List.take_append_drop .., ?_, htake (by omega), ?_⟩
    · exact (List.length_take_le ..).trans (Nat.min_le_left ..)
    · rw [hcons]
      exact List.subset_cons_self ..
  case h_3 => cases h

/-- Failed reads are repeated; then there are unread bytes, or there is nothing to come. -/
theorem refill_spec {rest : Bytes} (rp : State) (fd : Descriptor) (h : Ahead rp fd rest) :
    ∃ stop rp' fd', refill rp fd = (stop, rp', fd') ∧ Ahead rp' fd' rest ∧
      (stop = none ∧ 0 < rp'.cnt ∨ stop = some 0 ∧ rest = []) := by
  induction hn : fd.outcomes.length using Nat.strong_induction_on generalizing rp fd with
  | _ n ih =>
    subst hn
    by_cases hcnt : rp.cnt ≤ 0
    · have hstream := h.stream_of_nonpos hcnt
      rw [refill, if_pos hcnt]
      split
      case h_1 errno fd' hread =>
        obtain ⟨houtcomes, hsame⟩ := read_error hread
        have heintr : errno = EINTR := by
          apply h.interrupted
          rw [houtcomes]
          exact List.mem_cons_self ..
        simp only [heintr, ne_eq, not_true_eq_false, ↓reduceIte]
        refine ih _ ?_ _ _ ⟨?_, h.size, ?_, fun e he => h.interrupted e ?_⟩ rfl
        · rw [houtcomes]
          exact Nat.lt_succ_self _
        · have hinside := h.inside
          change rp.bufptr + 0 ≤ rp.buf.length
          omega
        · change (rp.buf.drop rp.bufptr).take 0 ++ fd'.stream = rest
          rw [List.take_zero, List.nil_append, hsame, hstream]
        · rw [houtcomes]
          exact List.mem_cons_of_mem _ he
      case h_2 chunk fd' hread =>
        obtain ⟨happend, hle, hnil, hsub⟩ := read_ok hread (by decide)
        have hsize := h.size
        have hlength : (chunk ++ rp.buf.drop chunk.length).length = COMPSYS_BUFSIZE := by
          rw [List.length_append, List.length_drop]
          omega
        by_cases hempty : chunk.length = 0
        · have hchunk : chunk = [] := List.length_eq_zero_iff.mp hempty
          subst hchunk
          simp only [List.length_nil, ↓reduceIte]
          refine ⟨_, _, _, rfl, ⟨?_, hlength, ?_, fun e he => h.interrupted e (hsub he)⟩,
            .inr ⟨rfl, hstream.symm.trans (hnil rfl)⟩⟩
          · have hinside := h.inside
            change rp.bufptr + 0 ≤ rp.buf.length
            omega
          · simpa [hstream] using happend
        · simp only [if_neg hempty]
          refine ⟨_, _, _, rfl, ⟨?_, hlength, ?_, fun e he => h.interrupted e (hsub he)⟩,
            .inl ⟨rfl, by simp only; omega⟩⟩
          · simp only [Int.toNat_natCast, Nat.zero_add, hlength]
            exact hle
          · simp only [Int.toNat_natCast, List.drop_zero, List.take_left]
            exact happend.trans hstream
    · rw [refill, if_neg hcnt]
      exact ⟨_, _, _, rfl, h, .inl ⟨rfl, by omega⟩⟩

/-- A call of `compsys_helper_read` gets bytes unless there are none to come. -/
theorem helperRead_spec {rp : State} {fd : Descriptor} {rest : Bytes} (h : Ahead rp fd rest)
    {n : ℕ} (hpos : 0 < n) (hn : n < 2 ^ 31) :
    ∃ r rest', helperRead rp fd n = some r ∧ r.written ++ rest' = rest ∧
      Ahead r.state r.fd rest' ∧ r.returned = r.written.length ∧ r.written.length ≤ n ∧
      (r.written = [] → rest = []) := by
  obtain ⟨stop, rp', fd', hrefill, h', ⟨rfl, hcnt⟩ | ⟨rfl, hnil⟩⟩ := refill_spec rp fd h
  · have hint : toInt n = n := Int.bmod_eq_of_le (by omega) (by omega)
    obtain ⟨m, hm⟩ : ∃ m : ℕ, (if rp'.cnt < (n : ℤ) then rp'.cnt else n) = m :=
      ⟨min rp'.cnt.toNat n, by split <;> omega⟩
    have hmn : 0 < m ∧ m ≤ n ∧ (m : ℤ) ≤ rp'.cnt := by split at hm <;> omega
    have hinside := h'.inside
    have hlength : ((rp'.buf.drop rp'.bufptr).take m).length = m := by
      rw [List.length_take, List.length_drop]
      omega
    have hbounds : ¬((m : ℤ) < 0 ∨ rp'.buf.length < rp'.bufptr + m) := by omega
    have hrun : helperRead rp fd n = some ⟨m, (rp'.buf.drop rp'.bufptr).take m,
        { rp' with bufptr := rp'.bufptr + m, cnt := rp'.cnt - m }, fd'⟩ := by
      rw [helperRead, hrefill]
      simp only [hint, hm, Int.toNat_natCast]
      rw [if_neg hbounds]
    refine ⟨_, (rp'.buf.drop (rp'.bufptr + m)).take (rp'.cnt - m).toNat ++ fd'.stream, hrun, ?_,
      ⟨?_, h'.size, rfl, h'.interrupted⟩, ?_, ?_, ?_⟩
    · have hsplit : rp'.cnt.toNat = m + (rp'.cnt - m).toNat := by omega
      rw [← h'.rest, hsplit, List.take_add, List.drop_drop, List.append_assoc]
    · change rp'.bufptr + m + (rp'.cnt - m).toNat ≤ rp'.buf.length
      omega
    · exact congrArg Nat.cast hlength.symm
    · exact hlength.le.trans hmn.2.1
    · intro hempty
      have hzero := congrArg List.length hempty
      rw [List.length_nil, hlength] at hzero
      omega
  · refine ⟨⟨0, [], rp', fd'⟩, rest, ?_, rfl, h', rfl, Nat.zero_le _, fun _ => hnil⟩
    rw [helperRead, hrefill]

/-! ## Both calls -/

/-- The induction is on `nleft`; each turn gets a byte or finds the end of the stream. -/
theorem readnbLoop_spec {n nleft : ℕ} (hn : nleft < 2 ^ 31) {rp : State} {fd : Descriptor}
    {rest : Bytes} (h : Ahead rp fd rest) (bufp : Bytes) :
    ∃ r, readnbLoop n rp fd nleft bufp = some r ∧ r.written = bufp ++ rest.take nleft ∧
      r.returned = n - nleft + (rest.take nleft).length ∧
      Ahead r.state r.fd (rest.drop nleft) := by
  induction nleft using Nat.strong_induction_on generalizing rp fd rest bufp with
  | _ nleft ih =>
    rw [readnbLoop]
    by_cases hpos : nleft > 0
    · obtain ⟨r, rest', hrun, happend, hahead, hreturned, hle, hnil⟩ := helperRead_spec h hpos hn
      rw [if_pos hpos, hrun]
      simp only [if_neg (show ¬r.returned < 0 by omega)]
      by_cases hempty : r.written = []
      · have hrest := hnil hempty
        have hrest' : rest' = [] := by
          rw [hrest] at happend
          exact (List.append_eq_nil_iff.mp happend).2
        rw [hempty, List.length_nil, Nat.cast_zero] at hreturned
        rw [if_pos hreturned, hempty, hrest]
        exact ⟨_, rfl, by simp, by simp, by simpa [hrest'] using hahead⟩
      · have hlength : 0 < r.written.length := List.length_pos_of_ne_nil hempty
        rw [if_neg (by omega)]
        obtain ⟨r', hrun', hwritten, hreturned', hahead'⟩ :=
          ih (nleft - r.returned.toNat) (by omega) (by omega) hahead (bufp ++ r.written)
        have hcount : r.returned.toNat = r.written.length := by omega
        have htake : rest.take nleft = r.written ++ rest'.take (nleft - r.written.length) := by
          rw [← happend, List.take_append, List.take_of_length_le hle]
        have hdrop : rest.drop nleft = rest'.drop (nleft - r.written.length) := by
          rw [← happend, List.drop_append, List.drop_of_length_le hle, List.nil_append]
        rw [hcount] at hwritten hreturned' hahead'
        refine ⟨r', hrun', ?_, ?_, ?_⟩
        · rw [hwritten, htake, List.append_assoc]
        · rw [hreturned', htake, List.length_append]
          omega
        · rw [hdrop]
          exact hahead'
    · have hzero : nleft = 0 := by omega
      subst hzero
      exact ⟨_, rfl, by simp, by simp, h⟩

/-- The front of a text up to its first newline, at most `most` bytes of it. -/
def line : ℕ → Bytes → Bytes
  | 0, _ => []
  | _ + 1, [] => []
  | most + 1, c :: rest => if c = NEWLINE then [c] else c :: line most rest

@[simp] theorem line_nil (most : ℕ) : line most [] = [] := by
  cases most <;> rfl

theorem line_isPrefix (most : ℕ) (rest : Bytes) : line most rest <+: rest := by
  induction most generalizing rest with
  | zero => exact List.nil_prefix
  | succ most ih =>
    cases rest with
    | nil => exact List.nil_prefix
    | cons c rest =>
      rw [line]
      split
      · exact List.cons_prefix_cons.mpr ⟨rfl, List.nil_prefix⟩
      · exact List.cons_prefix_cons.mpr ⟨rfl, ih rest⟩

theorem length_line_le (most : ℕ) (rest : Bytes) : (line most rest).length ≤ most := by
  induction most generalizing rest with
  | zero => exact Nat.le_refl 0
  | succ most ih =>
    cases rest with
    | nil => exact Nat.zero_le _
    | cons c rest =>
      rw [line]
      split
      · exact Nat.succ_le_succ (Nat.zero_le most)
      · exact Nat.succ_le_succ (ih rest)

theorem line_eq_nil {most : ℕ} (rest : Bytes) (hmost : 0 < most) :
    line most rest = [] ↔ rest = [] := by
  obtain ⟨most, rfl⟩ := Nat.exists_eq_succ_of_ne_zero hmost.ne'
  cases rest with
  | nil => simp
  | cons c rest =>
    rw [line]
    split <;> simp

/-- A newline is the last byte. -/
theorem newline_not_mem_line (most : ℕ) (rest : Bytes) :
    NEWLINE ∉ (line most rest).dropLast := by
  induction most generalizing rest with
  | zero => exact List.not_mem_nil
  | succ most ih =>
    cases rest with
    | nil => exact List.not_mem_nil
    | cons c rest =>
      rw [line]
      split
      · exact List.not_mem_nil
      case isFalse hc =>
        cases hline : line most rest with
        | nil => exact List.not_mem_nil
        | cons d tail =>
          have hrest := ih rest
          rw [hline] at hrest
          rw [List.dropLast_cons_of_ne_nil (List.cons_ne_nil d tail), List.mem_cons, not_or]
          exact ⟨Ne.symm hc, hrest⟩

/-- A line ends with a newline, or because it is full, or with the text. -/
theorem line_stops (most : ℕ) (rest : Bytes) :
    (line most rest).getLast? = some NEWLINE ∨ (line most rest).length = most ∨
      line most rest = rest := by
  induction most generalizing rest with
  | zero => exact .inr (.inl rfl)
  | succ most ih =>
    cases rest with
    | nil => exact .inr (.inr rfl)
    | cons c rest =>
      rw [line]
      split
      case isTrue hc => exact .inl (congrArg some hc)
      case isFalse =>
        rcases ih rest with hnewline | hfull | hall
        · left
          rw [List.getLast?_cons, hnewline]
          rfl
        · exact .inr (.inl (congrArg Nat.succ hfull))
        · exact .inr (.inr (congrArg (List.cons c) hall))

/-- The induction is on the room that is left. -/
theorem readlinebLoop_spec (maxlen : ℕ) {n : ℕ} (hn : 1 ≤ n) {rp : State} {fd : Descriptor}
    {rest : Bytes} (h : Ahead rp fd rest) (bufp : Bytes) :
    ∃ r, readlinebLoop maxlen rp fd n bufp = some r ∧
      r.written = (if n = 1 ∧ n < maxlen ∧ rest = [] then bufp
        else bufp ++ line (maxlen - n) rest ++ [0]) ∧
      r.returned = n - 1 + (line (maxlen - n) rest).length ∧
      Ahead r.state r.fd (rest.drop (line (maxlen - n) rest).length) := by
  induction hroom : maxlen - n generalizing n rp fd rest bufp with
  | zero =>
    have hfull : ¬n < maxlen := by omega
    rw [readlinebLoop, if_neg hfull]
    exact ⟨_, rfl, by simp [line, hfull], by simp [line], h⟩
  | succ most ih =>
    have hlt : n < maxlen := by omega
    obtain ⟨r, rest', hrun, happend, hahead, hreturned, hle, hnil⟩ :=
      helperRead_spec h Nat.one_pos (by decide)
    rw [readlinebLoop, if_pos hlt, hrun]
    cases hwritten : r.written with
    | nil =>
      have hrest := hnil hwritten
      have hrest' : rest' = [] := by
        rw [hrest] at happend
        exact (List.append_eq_nil_iff.mp happend).2
      rw [hwritten, List.length_nil] at hreturned
      subst hrest hrest'
      simp only [hreturned, Nat.cast_zero, zero_ne_one, ↓reduceIte]
      by_cases hone : n = 1
      · rw [if_pos hone]
        exact ⟨_, rfl, by simp [hone]; omega, by simp [hone], hahead⟩
      · rw [if_neg hone]
        exact ⟨_, rfl, by simp [hone], by simp, hahead⟩
    | cons c tail =>
      have htail : tail = [] := by
        rw [hwritten, List.length_cons] at hle
        exact List.length_eq_zero_iff.mp (by omega)
      subst htail
      rw [hwritten] at hreturned
      have hrest : rest = c :: rest' := by rw [← happend, hwritten, List.singleton_append]
      subst hrest
      have hsome : ¬(n = 1 ∧ n < maxlen ∧ c :: rest' = []) := by simp
      simp only [hreturned, hwritten, List.length_singleton, Nat.cast_one, ↓reduceIte,
        List.head?_cons, Option.bind_eq_bind, Option.bind_some, if_neg hsome, line]
      by_cases hc : c = NEWLINE
      · rw [if_pos hc, if_pos hc]
        exact ⟨_, rfl, rfl, by simp, hahead⟩
      · rw [if_neg hc, if_neg hc]
        obtain ⟨r', hrun', hwritten', hreturned', hahead'⟩ :=
          ih (n := n + 1) (by omega) hahead (bufp ++ [c]) (by omega)
        refine ⟨r', hrun', ?_, ?_, hahead'⟩
        · rw [hwritten', if_neg (by omega)]
          simp
        · rw [hreturned']
          simp

theorem drop_length_take {rest front : Bytes} {n : ℕ} (h : front = rest.take n) :
    rest.drop front.length = rest.drop n := by
  rw [h, List.length_take]
  by_cases hle : n ≤ rest.length
  · rw [Nat.min_eq_left hle]
  · rw [Nat.min_eq_right (by omega), List.drop_length, List.drop_of_length_le (by omega)]

theorem readnb_serves {rp : State} {fd : Descriptor} {rest : Bytes} (h : Ahead rp fd rest)
    {n : ℕ} (hn : n < 2 ^ 31) :
    ∃ r, readnb rp fd n = some r ∧ r.written = rest.take n ∧ Serves rest (.readnb n) r ∧
      Ahead r.state r.fd (rest.drop r.delivered.length) := by
  obtain ⟨r, hrun, hwritten, hreturned, hahead⟩ := readnbLoop_spec (n := n) hn h []
  rw [List.nil_append] at hwritten
  have hreturned' : r.returned = r.written.length := by
    rw [hreturned, hwritten]
    omega
  have hdelivered : r.delivered = r.written := by
    rw [Result.delivered, hreturned', Int.toNat_natCast, List.take_length]
  have htake : r.delivered = rest.take n := hdelivered.trans hwritten
  refine ⟨r, hrun, hwritten, ⟨?_, ?_, ?_, ?_⟩, ?_⟩
  · rw [htake]
    exact List.take_prefix ..
  · rw [hreturned', hdelivered]
  · intro n' hcall
    cases hcall
    exact ⟨hdelivered.symm, by rw [htake, List.length_take]⟩
  · intro maxlen hcall
    cases hcall
  · rw [drop_length_take htake]
    exact hahead

theorem readlineb_serves {rp : State} {fd : Descriptor} {rest : Bytes} (h : Ahead rp fd rest)
    {maxlen : ℕ} (hmax : 2 ≤ maxlen) :
    ∃ r, readlineb rp fd maxlen = some r ∧ Serves rest (.readlineb maxlen) r ∧
      Ahead r.state r.fd (rest.drop r.delivered.length) := by
  obtain ⟨r, hrun, hwritten, hreturned, hahead⟩ :=
    readlinebLoop_spec maxlen (Nat.le_refl 1) h []
  have hnil := line_eq_nil rest (show 0 < maxlen - 1 by omega)
  have hreturned' : r.returned = (line (maxlen - 1) rest).length := by
    rw [hreturned]
    simp
  have hwritten' : r.written =
      if line (maxlen - 1) rest = [] then [] else line (maxlen - 1) rest ++ [0] := by
    rw [hwritten, List.nil_append]
    refine if_congr ?_ rfl rfl
    rw [hnil]
    exact ⟨fun h => h.2.2, fun h => ⟨rfl, by omega, h⟩⟩
  have hdelivered : r.delivered = line (maxlen - 1) rest := by
    rw [Result.delivered, hwritten', hreturned', Int.toNat_natCast]
    split
    case isTrue hline => rw [hline, List.take_nil]
    case isFalse => rw [List.take_left]
  refine ⟨r, hrun, ⟨?_, ?_, ?_, ?_⟩, ?_⟩
  · rw [hdelivered]
    exact line_isPrefix ..
  · rw [hreturned', hdelivered]
  · intro n hcall
    cases hcall
  · intro maxlen' hcall
    cases hcall
    rw [hdelivered]
    exact ⟨length_line_le .., newline_not_mem_line _ _, line_stops .., hwritten'⟩
  · rw [hdelivered]
    exact hahead

/-! ## Runs -/

theorem Call.run_serves {rp : State} {fd : Descriptor} {rest : Bytes} (h : Ahead rp fd rest)
    {call : Call} (hallowed : call.Allowed) :
    ∃ r, call.run rp fd = some r ∧ Serves rest call r ∧
      Ahead r.state r.fd (rest.drop r.delivered.length) := by
  cases call with
  | readnb n =>
    obtain ⟨r, hrun, -, hserves, hahead⟩ := readnb_serves h hallowed
    exact ⟨r, hrun, hserves, hahead⟩
  | readlineb maxlen => exact readlineb_serves h hallowed

theorem runCalls_served {calls : List Call} (hcalls : ∀ call ∈ calls, call.Allowed)
    {rp : State} {fd : Descriptor} {rest : Bytes} (h : Ahead rp fd rest) :
    ∃ rs, runCalls rp fd calls = some rs ∧ Served rest calls rs := by
  induction calls generalizing rp fd rest with
  | nil => exact ⟨[], rfl, trivial⟩
  | cons call calls ih =>
    obtain ⟨r, hrun, hserves, hahead⟩ := Call.run_serves h (hcalls call (List.mem_cons_self ..))
    obtain ⟨rs, hrest, hserved⟩ :=
      ih (fun later hlater => hcalls later (List.mem_cons_of_mem call hlater)) hahead
    refine ⟨r :: rs, ?_, hserves, hserved⟩
    rw [runCalls, hrun]
    simp only [Option.bind_eq_bind, Option.bind_some, hrest]
    rfl

theorem Served.isPrefix {calls : List Call} {rs : List Result} {rest : Bytes}
    (h : Served rest calls rs) : (rs.map Result.delivered).flatten <+: rest := by
  induction calls generalizing rest rs with
  | nil =>
    cases rs with
    | nil => exact List.nil_prefix
    | cons r rs => exact h.elim
  | cons call calls ih =>
    cases rs with
    | nil => exact h.elim
    | cons r rs =>
      obtain ⟨hserves, hserved⟩ := h
      obtain ⟨behind, hbehind⟩ := hserves.front
      have hdrop : rest.drop r.delivered.length = behind := by rw [← hbehind, List.drop_left]
      have hlater := ih hserved
      rw [hdrop] at hlater
      rw [List.map_cons, List.flatten_cons, ← hbehind]
      exact (List.prefix_append_right_inj _).mpr hlater

/-- However the stream is cut and whichever reads are interrupted, every call on the state
returns and serves the bytes behind those of the calls before it. -/
theorem calls_served (buf stream : Bytes) (outcomes : List Outcome) (calls : List Call)
    (hsize : buf.length = COMPSYS_BUFSIZE)
    (heintr : ∀ errno, .failed errno ∈ outcomes → errno = EINTR)
    (hcalls : ∀ call ∈ calls, call.Allowed) :
    ∃ rs, runCalls (readinitb buf) ⟨stream, outcomes⟩ calls = some rs ∧
      Served stream calls rs ∧ (rs.map Result.delivered).flatten <+: stream := by
  have hstart : Ahead (readinitb buf) ⟨stream, outcomes⟩ stream := readinitb_ahead hsize heintr
  obtain ⟨rs, hrun, hserved⟩ := runCalls_served hcalls hstart
  exact ⟨rs, hrun, hserved, hserved.isPrefix⟩

/-- A line that comes in two chunks, the second `read` interrupted, and what is behind it. -/
theorem calls_served_two_chunks :
    ∃ rs, runCalls (readinitb (List.replicate 8192 0))
        ⟨[104, 105, 10, 33], [.upTo 0, .failed 4, .upTo 2]⟩ [.readlineb 100, .readnb 7] = some rs ∧
      Served [104, 105, 10, 33] [.readlineb 100, .readnb 7] rs ∧
      (rs.map Result.delivered).flatten <+: [104, 105, 10, 33] :=
  calls_served _ _ _ _ List.length_replicate
    (fun errno h => by simpa [EINTR] using h) (by decide)

/-- The client reads its messages this way: what `send_message` sees of `readnb` is the stream
without its chunks. -/
theorem readnb_client {rp : State} {fd : Descriptor} {c : PeerClient.Client}
    (h : Ahead rp fd c.stream) {n : ℕ} (hn : n < 2 ^ 31) :
    ∃ r, readnb rp fd n = some r ∧
      (PeerClient.readnb n c).msgBuf = r.written ++ c.msgBuf.drop r.written.length ∧
      Ahead r.state r.fd (PeerClient.readnb n c).stream := by
  obtain ⟨r, hrun, hwritten, hserves, hahead⟩ := readnb_serves h hn
  have hdelivered := (hserves.readnb n rfl).1.symm.trans hwritten
  refine ⟨r, hrun, ?_, ?_⟩
  · rw [PeerClient.readnb, hwritten]
  · rw [drop_length_take hdelivered] at hahead
    exact hahead

end CompSys.BufferedReader
