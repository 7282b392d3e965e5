import CompSys.PeerWire
import CompSys.Sha256

/-!
# The hash of A3 and A4 is SHA-256

However the data is cut into calls of `sha256_update`, `sha256_final` gives the hash that the
standard gives the whole of it, on machines of either byte order.
-/
namespace CompSys.Sha256

open BigEndian Sha2 BlockAbsorb

/-! ## Words -/

theorem Ch_eq (x y z : BitVec 32) : Ch x y z = ch x y z := by
  apply BitVec.eq_of_getLsbD_eq
  intro i hi
  simp only [Ch, ch, BitVec.getLsbD_xor, BitVec.getLsbD_and, BitVec.getLsbD_not, hi, decide_true]
  cases x.getLsbD i <;> cases y.getLsbD i <;> cases z.getLsbD i <;> rfl

theorem Maj_eq (x y z : BitVec 32) : Maj x y z = maj x y z := by
  apply BitVec.eq_of_getLsbD_eq
  intro i hi
  simp only [Maj, maj, BitVec.getLsbD_xor, BitVec.getLsbD_and, BitVec.getLsbD_or]
  cases x.getLsbD i <;> cases y.getLsbD i <;> cases z.getLsbD i <;> rfl

theorem doRound_eq (v : Vars) (k w : BitVec 32) : doRound v k w = Sha2.round v k w := by
  simp only [doRound, Sha2.round, Ch_eq, Maj_eq]
  rfl

theorem or_eq_add (x y : ℕ) (h : y < 2 ^ 8) : x <<< 8 ||| y = x * 256 + y := by
  rw [← Nat.shiftLeft_add_eq_or_of_lt h, Nat.shiftLeft_eq]

theorem decode_four (a b c d : UInt8) : BitVec.ofNat 32 (decode [a, b, c, d]) =
    a.toBitVec ++ b.toBitVec ++ c.toBitVec ++ d.toBitVec := by
  apply BitVec.eq_of_toNat_eq
  have ha := a.toNat_lt
  have hb := b.toNat_lt
  have hc := c.toNat_lt
  have hd := d.toNat_lt
  simp only [decode, List.foldl_cons, List.foldl_nil, BitVec.toNat_append, UInt8.toNat_toBitVec,
    or_eq_add _ _ hb, or_eq_add _ _ hc, or_eq_add _ _ hd, BitVec.toNat_ofNat]
  omega

/-- The rotations and the masks turn the bytes around. -/
theorem byteswap_append (a b c d : BitVec 8) :
    byteswap .little (a ++ b ++ c ++ d) = d ++ c ++ b ++ a := by
  have hmask : (0xff00ff00#32) = BitVec.allOnes 8 ++ 0#8 ++ BitVec.allOnes 8 ++ 0#8 := rfl
  have hmask' : (0x00ff00ff#32) = 0#8 ++ BitVec.allOnes 8 ++ 0#8 ++ BitVec.allOnes 8 := rfl
  apply BitVec.eq_of_getLsbD_eq
  intro i hi
  change ((ROTR (a ++ b ++ c ++ d) 8 &&& 0xff00ff00#32) |||
    (ROTL (a ++ b ++ c ++ d) 8 &&& 0x00ff00ff#32)).getLsbD i = _
  rw [hmask, hmask']
  simp only [ROTR, ROTL, BitVec.getLsbD_or, BitVec.getLsbD_and, BitVec.getLsbD_ushiftRight,
    BitVec.getLsbD_shiftLeft, BitVec.getLsbD_append, BitVec.getLsbD_allOnes, BitVec.getLsbD_zero]
  grind

/-- A word of a block has its first byte as the most significant one, on either machine. -/
theorem byteswap_load (order : ByteOrder) {bytes : List UInt8} (h : bytes.length = 4) :
    byteswap order (load order bytes) = BitVec.ofNat 32 (decode bytes) := by
  cases order with
  | big => rfl
  | little =>
    obtain ⟨a, b, c, d, rfl⟩ := List.length_eq_four.mp h
    have hreverse : [a, b, c, d].reverse = [d, c, b, a] := rfl
    rw [load, hreverse, decode_four, decode_four, byteswap_append]

theorem exists_bytes (x : BitVec 32) : ∃ a b c d : UInt8,
    x = a.toBitVec ++ b.toBitVec ++ c.toBitVec ++ d.toBitVec := by
  refine ⟨⟨x.extractLsb' 24 8⟩, ⟨x.extractLsb' 16 8⟩, ⟨x.extractLsb' 8 8⟩,
    ⟨x.extractLsb' 0 8⟩, ?_⟩
  apply BitVec.eq_of_getLsbD_eq
  intro i hi
  simp only [BitVec.getLsbD_append, BitVec.getLsbD_extractLsb']
  grind

theorem encode_append (a b c d : UInt8) :
    encode 4 (a.toBitVec ++ b.toBitVec ++ c.toBitVec ++ d.toBitVec).toNat = [a, b, c, d] := by
  have ha := a.toNat_lt
  have hb := b.toNat_lt
  have hc := c.toNat_lt
  have hd := d.toNat_lt
  simp only [encode, BitVec.toNat_append, UInt8.toNat_toBitVec, or_eq_add _ _ hb,
    or_eq_add _ _ hc, or_eq_add _ _ hd, List.nil_append, List.cons_append, List.cons.injEq,
    and_true, ← UInt8.toNat_inj, UInt8.toNat_ofNat']
  omega

theorem encode_byteswap (x : BitVec 32) :
    encode 4 (byteswap .little x).toNat = (encode 4 x.toNat).reverse := by
  obtain ⟨a, b, c, d, rfl⟩ := exists_bytes x
  rw [byteswap_append, encode_append, encode_append]
  rfl

theorem encode_halves (x y : BitVec 32) :
    encode 8 (x.setWidth 64 <<< 32 ||| y.setWidth 64).toNat =
      encode 4 x.toNat ++ encode 4 y.toNat := by
  have hx := x.isLt
  have hy := y.isLt
  have hsum : (x.setWidth 64 <<< 32 ||| y.setWidth 64).toNat = x.toNat * 2 ^ 32 + y.toNat := by
    rw [BitVec.toNat_or, BitVec.toNat_shiftLeft, BitVec.toNat_setWidth_of_le (by decide),
      BitVec.toNat_setWidth_of_le (by decide), Nat.shiftLeft_eq, Nat.mod_eq_of_lt (by omega),
      ← Nat.shiftLeft_eq, ← Nat.shiftLeft_add_eq_or_of_lt hy]
  have hlow : encode 4 (x.toNat * 2 ^ 32 + y.toNat) = encode 4 y.toNat := by
    rw [← encode_mod 4 (x.toNat * 2 ^ 32 + y.toNat), ← encode_mod 4 y.toNat]
    congr 1
    omega
  have hhigh : (x.toNat * 2 ^ 32 + y.toNat) / 256 ^ 4 = x.toNat := by omega
  rw [hsum, encode_add 4 4, hlow, hhigh]

/-- The length is stored with its most significant byte first, on either machine. -/
theorem store64_byteswap64 (order : ByteOrder) (x : BitVec 64) :
    store64 order (byteswap64 order x) = encode 8 x.toNat := by
  cases order with
  | big => rfl
  | little =>
    have hx : x = ((x >>> 32).setWidth 32).setWidth 64 <<< 32 ||| (x.setWidth 32).setWidth 64 := by
      apply BitVec.eq_of_getLsbD_eq
      intro i hi
      simp only [BitVec.getLsbD_or, BitVec.getLsbD_shiftLeft, BitVec.getLsbD_setWidth,
        BitVec.getLsbD_ushiftRight]
      grind
    rw [store64, byteswap64, encode_halves, encode_byteswap, encode_byteswap, List.reverse_append,
      List.reverse_reverse, List.reverse_reverse, ← encode_halves, ← hx]

theorem hashBytes_eq (hash : Vars) : hashBytes hash = hash.bytes := by
  have hword : ∀ w : BitVec 32, [UInt8.ofNat (w >>> 24).toNat, UInt8.ofNat (w >>> 16).toNat,
      UInt8.ofNat (w >>> 8).toNat, UInt8.ofNat w.toNat] = encode 4 w.toNat := by
    intro w
    simp [encode, Nat.shiftRight_eq_div_pow, Nat.div_div_eq_div_mul]
  rw [hashBytes, Vars.bytes, funext hword]

/-! ## Constants -/

theorem prime_iff {p : ℕ} (h : p < 18 ^ 2) :
    Nat.Prime p ↔ 2 ≤ p ∧ ∀ m < 18, 2 ≤ m → m < p → ¬m ∣ p := by
  constructor
  · intro hp
    obtain ⟨htwo, hall⟩ := Nat.prime_def_lt'.mp hp
    exact ⟨htwo, fun m _ => hall m⟩
  · rintro ⟨htwo, hall⟩
    refine Nat.prime_def_le_sqrt.mpr ⟨htwo, fun m hm hsqrt => ?_⟩
    exact hall m (hsqrt.trans_lt (Nat.sqrt_lt'.mpr h)) hm
      (hsqrt.trans_lt (Nat.sqrt_lt_self (by omega)))

/-- The primes by trial division, which is fast enough to compute. -/
theorem primes_eq : primes =
    (List.range 312).filter fun p => 2 ≤ p ∧ ∀ m < 18, 2 ≤ m → m < p → ¬m ∣ p := by
  refine List.filter_congr fun p hp => decide_eq_decide.mpr (prime_iff ?_)
  exact (List.mem_range.mp hp).trans (by decide)

theorem constants_eq : constants = K := by
  have hroots : List.Forall₂ (IsRoot 3) primes K := by
    rw [primes_eq]
    decide +kernel
  have hmap : ∀ {ps : List ℕ} {ks : List (BitVec 32)}, List.Forall₂ (IsRoot 3) ps ks →
      ps.map (rootBits 3) = ks := by
    intro ps ks h
    induction h with
    | nil => rfl
    | cons hroot _ ih => rw [List.map_cons, hroot.rootBits (by decide), ih]
  exact hmap hroots

theorem initial_eq (memory : List UInt8) (h : memory.length = 64) :
    (sha256Init memory h).hash = initial := by
  have hroot : ∀ {p : ℕ} {k : BitVec 32}, IsRoot 2 p k → k = rootBits 2 p :=
    fun h => (h.rootBits (by decide)).symm
  rw [sha256Init, initial, Vars.mk.injEq]
  exact ⟨hroot (by decide +kernel), hroot (by decide +kernel), hroot (by decide +kernel),
    hroot (by decide +kernel), hroot (by decide +kernel), hroot (by decide +kernel),
    hroot (by decide +kernel), hroot (by decide +kernel)⟩

/-! ## A block -/

theorem words_byteswap (order : ByteOrder) {bytes : List UInt8} (h : bytes.length = 64) :
    (words order bytes).map (byteswap order) = (List.range 16).map (schedule bytes) := by
  rw [words, List.map_map]
  refine List.map_congr_left fun i hi => ?_
  have hlt : i < 16 := List.mem_range.mp hi
  have hfour : ((bytes.drop (4 * i)).take 4).length = 4 := by
    rw [List.length_take, List.length_drop]
    omega
  rw [Function.comp_apply, byteswap_load order hfour, schedule, if_pos hlt, word]

theorem getD_schedule (block : List UInt8) {n t : ℕ} (h : t < n) :
    ((List.range n).map (schedule block)).getD t 0 = schedule block t := by
  rw [List.getD_eq_getElem?_getD, List.getElem?_map, List.getElem?_range h]
  rfl

/-- The loop appends one word of the schedule after the other. -/
theorem extend_schedule (block : List UInt8) (i : ℕ) {n : ℕ} (h : 16 ≤ n) :
    extend i ((List.range n).map (schedule block)) = (List.range (n + i)).map (schedule block) := by
  induction i generalizing n with
  | zero => rfl
  | succ i ih =>
    have hnext : schedule block n = sigma1 (schedule block (n - 16 + 14)) +
        schedule block (n - 16 + 9) + sigma0 (schedule block (n - 16 + 1)) +
        schedule block (n - 16) := by
      have h2 : n - 16 + 14 = n - 2 := by omega
      have h7 : n - 16 + 9 = n - 7 := by omega
      have h15 : n - 16 + 1 = n - 15 := by omega
      rw [schedule, if_neg (by omega), h2, h7, h15]
      rfl
    rw [extend]
    simp only [List.length_map, List.length_range]
    rw [getD_schedule block (by omega), getD_schedule block (by omega),
      getD_schedule block (by omega), getD_schedule block (by omega), ← hnext,
      ← List.map_singleton, ← List.map_append, ← List.range_succ, ih (by omega)]
    congr 2
    omega

/-- Four rounds in a turn are the rounds one after the other. -/
theorem roundLoop_eq (i : ℕ) (v : Vars) {Kp W : List (BitVec 32)} (hKp : Kp.length = 4 * i)
    (hW : W.length = 4 * i) :
    roundLoop i v Kp W = (Kp.zip W).foldl (fun v kw => Sha2.round v kw.1 kw.2) v := by
  induction i generalizing v Kp W with
  | zero =>
    rw [List.eq_nil_of_length_eq_zero hKp]
    rfl
  | succ i ih =>
    match Kp, hKp, W, hW with
    | k₀ :: k₁ :: k₂ :: k₃ :: Kp, hKp, w₀ :: w₁ :: w₂ :: w₃ :: W, hW =>
      simp only [List.length_cons] at hKp hW
      rw [roundLoop, ih _ (by omega) (by omega)]
      simp only [doRound_eq, List.zip_cons_cons, List.foldl_cons]

theorem SHA256Guts_eq (order : ByteOrder) (hash : Vars) {block : List UInt8}
    (h : block.length = 64) :
    SHA256Guts order hash (words order block) = compress hash block := by
  rw [SHA256Guts, words_byteswap order h, extend_schedule block 48 (le_refl 16),
    roundLoop_eq 16 hash rfl (by rw [List.length_map, List.length_range]), compress, constants_eq]
  rfl

/-! ## Messages -/

/-- The data so far: its whole blocks are in the hash, the rest is in the buffer. -/
structure Absorbed (sc : Context) (data : List UInt8) : Prop where
  totalLength : sc.totalLength = BitVec.ofNat 64 (8 * data.length)
  hash : sc.hash = (absorb compress 64 initial data).1
  buffer : sc.buffer.take sc.bufferLength = (absorb compress 64 initial data).2

theorem init_absorbed (memory : List UInt8) (h : memory.length = 64) :
    Absorbed (sha256Init memory h) [] := by
  have hempty : absorb compress 64 initial ([] : List UInt8) = (initial, []) :=
    absorb_short (by decide)
  refine ⟨rfl, ?_, ?_⟩
  · rw [hempty, initial_eq]
  · rw [hempty]
    rfl

theorem Absorbed.bufferLength {sc : Context} {data : List UInt8} (h : Absorbed sc data) :
    sc.bufferLength = data.length % 64 := by
  have hlt := sc.bufferLength_lt
  have hlength := congrArg List.length h.buffer
  rw [length_absorb (by decide), List.length_take, sc.length_buffer] at hlength
  omega

/-- The bytes that a turn copies. -/
def copied (sc : Context) (data : List UInt8) : ℕ :=
  if data.length < 64 - sc.bufferLength then data.length else 64 - sc.bufferLength

theorem copied_le (sc : Context) (data : List UInt8) :
    copied sc data ≤ 64 - sc.bufferLength ∧ copied sc data ≤ data.length := by
  rw [copied]
  split <;> omega

theorem updateTurn_full (order : ByteOrder) {sc : Context} {data : List UInt8}
    (h : sc.bufferLength + copied sc data = 64) :
    (updateTurn order sc data).1.hash = SHA256Guts order sc.hash
        (words order (overwrite sc.buffer data sc.bufferLength (copied sc data))) ∧
      (updateTurn order sc data).1.bufferLength = 0 ∧
      (updateTurn order sc data).1.totalLength =
        sc.totalLength + BitVec.ofNat 64 (copied sc data * 8) ∧
      (updateTurn order sc data).2 = data.drop (copied sc data) := by
  rw [copied] at h
  rw [updateTurn, dif_pos h]
  exact ⟨rfl, rfl, rfl, rfl⟩

theorem updateTurn_not_full (order : ByteOrder) {sc : Context} {data : List UInt8}
    (h : sc.bufferLength + copied sc data ≠ 64) :
    (updateTurn order sc data).1.hash = sc.hash ∧
      (updateTurn order sc data).1.buffer =
        overwrite sc.buffer data sc.bufferLength (copied sc data) ∧
      (updateTurn order sc data).1.bufferLength = sc.bufferLength + copied sc data ∧
      (updateTurn order sc data).1.totalLength =
        sc.totalLength + BitVec.ofNat 64 (copied sc data * 8) ∧
      (updateTurn order sc data).2 = data.drop (copied sc data) := by
  rw [copied] at h
  rw [updateTurn, dif_neg h]
  exact ⟨rfl, rfl, rfl, rfl, rfl⟩

theorem take_overwrite {buffer : List UInt8} (data : List UInt8) {start len : ℕ}
    (hstart : start ≤ buffer.length) (hlen : len ≤ data.length) :
    (overwrite buffer data start len).take (start + len) = buffer.take start ++ data.take len := by
  apply List.take_left'
  rw [List.length_append, List.length_take, List.length_take]
  omega

/-- A turn of the loop takes some bytes on. -/
theorem updateTurn_absorbed (order : ByteOrder) {sc : Context} {before : List UInt8}
    (h : Absorbed sc before) (data : List UInt8) :
    (updateTurn order sc data).2 = data.drop (copied sc data) ∧
      Absorbed (updateTurn order sc data).1 (before ++ data.take (copied sc data)) := by
  obtain ⟨hroom, hdata⟩ := copied_le sc data
  have hlt := sc.bufferLength_lt
  have hlength := sc.length_buffer
  have hmore : absorb compress 64 initial (before ++ data.take (copied sc data)) =
      absorb compress 64 sc.hash (sc.buffer.take sc.bufferLength ++ data.take (copied sc data)) := by
    rw [absorb_append (by decide), ← h.hash, ← h.buffer]
  have hfilled : (overwrite sc.buffer data sc.bufferLength (copied sc data)).take
      (sc.bufferLength + copied sc data) =
      sc.buffer.take sc.bufferLength ++ data.take (copied sc data) :=
    take_overwrite data (by omega) hdata
  have hcount : (sc.buffer.take sc.bufferLength ++ data.take (copied sc data)).length =
      sc.bufferLength + copied sc data := by
    rw [List.length_append, List.length_take, List.length_take]
    omega
  have htotal : sc.totalLength + BitVec.ofNat 64 (copied sc data * 8) =
      BitVec.ofNat 64 (8 * (before ++ data.take (copied sc data)).length) := by
    rw [h.totalLength, ← BitVec.ofNat_add, List.length_append,
      List.length_take, Nat.min_eq_left hdata]
    congr 1
    omega
  by_cases hfull : sc.bufferLength + copied sc data = 64
  · obtain ⟨hhash, hempty, hsum, hrest⟩ := updateTurn_full order hfull
    have hblock : overwrite sc.buffer data sc.bufferLength (copied sc data) =
        sc.buffer.take sc.bufferLength ++ data.take (copied sc data) := by
      rw [← hfilled, hfull, List.take_of_length_le]
      rw [length_overwrite (by omega) hdata]
      omega
    have hall : absorb compress 64 sc.hash
        (sc.buffer.take sc.bufferLength ++ data.take (copied sc data)) =
        (compress sc.hash (sc.buffer.take sc.bufferLength ++ data.take (copied sc data)), []) := by
      rw [absorb_block (by decide) (by omega), List.take_of_length_le (by omega),
        List.drop_of_length_le (by omega), absorb_short (by decide)]
    refine ⟨hrest, hsum.trans htotal, ?_, ?_⟩
    · rw [hmore, hall, hhash, hblock, SHA256Guts_eq order sc.hash (by omega)]
    · rw [hmore, hall, hempty]
      rfl
  · obtain ⟨hhash, hbuffer, hmoved, hsum, hrest⟩ := updateTurn_not_full order hfull
    have hall : absorb compress 64 sc.hash
        (sc.buffer.take sc.bufferLength ++ data.take (copied sc data)) =
        (sc.hash, sc.buffer.take sc.bufferLength ++ data.take (copied sc data)) :=
      absorb_short (by omega)
    refine ⟨hrest, hsum.trans htotal, ?_, ?_⟩
    · rw [hmore, hall, hhash]
    · rw [hmore, hall, hbuffer, hmoved, hfilled]

theorem copied_pos (sc : Context) {data : List UInt8} (h : data ≠ []) : 0 < copied sc data := by
  have hlt := sc.bufferLength_lt
  have hpos := List.length_pos_iff.mpr h
  rw [copied]
  split <;> omega

theorem updateLoop_absorbed (order : ByteOrder) (turns : ℕ) {sc : Context}
    {before data : List UInt8} (h : Absorbed sc before) (hturns : data.length ≤ turns) :
    Absorbed (updateLoop order turns sc data) (before ++ data) := by
  induction turns generalizing sc before data with
  | zero =>
    rw [List.eq_nil_of_length_eq_zero (Nat.le_zero.mp hturns), List.append_nil]
    exact h
  | succ turns ih =>
    rw [updateLoop]
    split
    case isTrue hempty =>
      rw [hempty, List.append_nil]
      exact h
    case isFalse hmore =>
      have hpos := copied_pos sc hmore
      have hshorter : (data.drop (copied sc data)).length ≤ turns := by
        rw [List.length_drop]
        omega
      obtain ⟨hrest, hnext⟩ := updateTurn_absorbed order h data
      have hall := ih hnext hshorter
      rwa [List.append_assoc, List.take_append_drop, ← hrest] at hall

theorem update_absorbed (order : ByteOrder) {sc : Context} {before : List UInt8}
    (h : Absorbed sc before) (data : List UInt8) :
    Absorbed (sha256Update order sc data) (before ++ data) :=
  updateLoop_absorbed order data.length h (le_refl _)

theorem chunks_absorbed (order : ByteOrder) (chunks : List (List UInt8)) {sc : Context}
    {before : List UInt8} (h : Absorbed sc before) :
    Absorbed (chunks.foldl (sha256Update order) sc) (before ++ chunks.flatten) := by
  induction chunks generalizing sc before with
  | nil => rwa [List.flatten_nil, List.append_nil]
  | cons chunk chunks ih =>
    rw [List.foldl_cons, List.flatten_cons, ← List.append_assoc]
    exact ih (update_absorbed order h chunk)

/-- `sha256_final` pads the data as the standard does. -/
theorem final_absorbed (order : ByteOrder) {sc : Context} {message : List UInt8}
    (h : Absorbed sc message) : sha256Final order sc = digest message := by
  have hbuffer := h.bufferLength
  have hpadding : padding.take (if 64 < 120 - sc.bufferLength then 120 - sc.bufferLength - 64
      else 120 - sc.bufferLength) = 0x80 :: List.replicate (zeros message.length) 0 := by
    have hcount : (if 64 < 120 - sc.bufferLength then 120 - sc.bufferLength - 64
        else 120 - sc.bufferLength) = zeros message.length + 1 := by
      rw [zeros, hbuffer]
      split <;> omega
    have hzeros : zeros message.length ≤ 63 := by
      rw [zeros]
      omega
    rw [hcount, padding, List.take_succ_cons, List.take_replicate, Nat.min_eq_left hzeros]
  have hlength : store64 order (byteswap64 order sc.totalLength) =
      encode 8 (8 * message.length) := by
    rw [store64_byteswap64, h.totalLength, BitVec.toNat_ofNat]
    exact encode_mod 8 (8 * message.length)
  have hall := update_absorbed order (update_absorbed order h
    (0x80 :: List.replicate (zeros message.length) 0)) (encode 8 (8 * message.length))
  rw [sha256Final, hpadding, hlength, hashBytes_eq, hall.hash]
  rfl

/-- Any calls of `sha256_update` and then `sha256_final` compute SHA-256 of all the data. -/
theorem sha256_of_chunks (order : ByteOrder) (memory : List UInt8) (h : memory.length = 64)
    (chunks : List (List UInt8)) :
    sha256Final order (chunks.foldl (sha256Update order) (sha256Init memory h)) =
      digest chunks.flatten :=
  final_absorbed order (chunks_absorbed order chunks (init_absorbed memory h))

theorem sha256_of_two_chunks : (List.replicate 64 (0 : UInt8)).length = 64 ∧
    sha256Final .little ([[97], [98, 99]].foldl (sha256Update .little)
      (sha256Init (List.replicate 64 0) (by decide))) = digest [97, 98, 99] :=
  ⟨by decide, sha256_of_chunks .little (List.replicate 64 0) (by decide) [[97], [98, 99]]⟩

example : sha256Final .little (sha256Update .little (sha256Init (List.replicate 64 0) rfl)
    [0x61, 0x62, 0x63]) = [
      0xba, 0x78, 0x16, 0xbf, 0x8f, 0x01, 0xcf, 0xea, 0x41, 0x41, 0x40, 0xde, 0x5d, 0xae, 0x22, 0x23,
      0xb0, 0x03, 0x61, 0xa3, 0x96, 0x17, 0x7a, 0x9c, 0xb4, 0x10, 0xff, 0x61, 0xf2, 0x00, 0x15,
      0xad] := by
  decide +kernel

/-! ## The hash of the peers -/

theorem getDataSha_eq (order : ByteOrder) (memory : List UInt8) (h : memory.length = 64)
    (sourcedata : List UInt8) : getDataSha order memory h sourcedata = digest sourcedata :=
  final_absorbed order (update_absorbed order (init_absorbed memory h) sourcedata)

/-- SHA-256 as the standard defines it, for the peers to use. -/
noncomputable def standard : Peer.Sha256 := ⟨digest, length_digest⟩

/-- The hash that the C programs compute, whatever is on their stack. -/
def compiled (order : ByteOrder) (memory : List UInt8) (h : memory.length = 64) : Peer.Sha256 where
  digest := getDataSha order memory h
  length_digest data := by
    rw [getDataSha_eq]
    exact length_digest data

theorem compiled_eq (order : ByteOrder) (memory : List UInt8) (h : memory.length = 64) :
    compiled order memory h = standard := by
  have hdigest : getDataSha order memory h = digest := funext (getDataSha_eq order memory h)
  simp only [compiled, standard, hdigest]

end CompSys.Sha256
