import Mathlib.Data.List.Basic
import Mathlib.Tactic.IntervalCases

/-!
# Text in Python

What Python does with strings and bytes beyond what Lean's strings do: UTF-8 as lists
of bytes, the translation of line ends in files that are read as text, and the text
that formatting a `bytes` object gives.
-/
namespace CompSys.PythonText

/-- `s.encode('utf-8')`. -/
def encode (s : String) : List UInt8 := s.toList.flatMap String.utf8EncodeChar

section Encoding

theorem toByteArray_eq (s : String) : s.toByteArray = ⟨(encode s).toArray⟩ := by
  have hlist : s.toByteArray = (String.ofList s.toList).toByteArray := by rw [String.ofList_toList]
  rw [hlist, String.toByteArray_ofList, List.utf8Encode, ByteArray.ext_iff, List.data_toByteArray,
    encode]

theorem toList_loop (bytes : ByteArray) (i : ℕ) (read : List UInt8) :
    ByteArray.toList.loop bytes i read = read.reverse ++ bytes.data.toList.drop i := by
  induction i, read using ByteArray.toList.loop.induct bytes with
  | case1 i read hlt ih =>
    have hi : i < bytes.data.toList.length := by simpa using hlt
    rw [ByteArray.toList.loop, if_pos hlt, ih, List.drop_eq_getElem_cons hi, List.reverse_cons,
      List.append_assoc, List.singleton_append]
    have hget : bytes.get! i = bytes.data.toList[i] := by
      rw [ByteArray.get!, Array.getElem_toList]
      exact getElem!_pos bytes.data i hlt
    rw [hget]
  | case2 i read hge =>
    have hlen : bytes.data.toList.length ≤ i := by
      have : bytes.size = bytes.data.toList.length := rfl
      omega
    rw [ByteArray.toList.loop, if_neg hge, List.drop_eq_nil_of_le hlen, List.append_nil]

theorem toList_toUTF8 (s : String) : s.toUTF8.toList = encode s := by
  have hdata : s.toUTF8.data.toList = encode s := by
    rw [String.toUTF8_eq_toByteArray, toByteArray_eq]
  rw [ByteArray.toList, toList_loop, hdata]
  rfl

theorem encode_injective : Function.Injective encode := by
  intro s t h
  rw [← String.toByteArray_inj, toByteArray_eq, toByteArray_eq, h]

/-- Encoded text is read back. -/
theorem fromUTF8_encode (s : String) : String.fromUTF8? ⟨(encode s).toArray⟩ = some s := by
  have hvalid := s.isValidUTF8
  rw [toByteArray_eq] at hvalid
  rw [String.fromUTF8?, dif_pos hvalid, Option.some_inj, ← String.toByteArray_inj,
    toByteArray_eq s]
  rfl

/-- Bytes that are read as text are its encoding. -/
theorem encode_of_fromUTF8 {b : List UInt8} {s : String}
    (h : String.fromUTF8? ⟨b.toArray⟩ = some s) : encode s = b := by
  unfold String.fromUTF8? at h
  split at h
  case isTrue hvalid =>
    have hs := congrArg String.toByteArray (Option.some.inj h)
    rw [toByteArray_eq s] at hs
    have hdata : b.toArray = (encode s).toArray := congrArg ByteArray.data hs
    exact (List.toArray_inj hdata).symm
  case isFalse => cases h

theorem toNat_ofNat_ascii {n : ℕ} (h : n < 128) : (Char.ofNat n).toNat = n := by
  have hvalid : n.isValidChar := .inl (by omega)
  rw [Char.ofNat, dif_pos hvalid]
  rfl

/-- A byte below 128 is the encoding of its own character and occurs in no other one. -/
theorem mem_utf8EncodeChar_ascii {b : UInt8} (hb : b.toNat < 128) (c : Char) :
    b ∈ String.utf8EncodeChar c ↔ Char.ofNat b.toNat = c := by
  have hhigh : ∀ n, 128 ≤ n → n < 256 → b ≠ UInt8.ofNat n := by
    intro n hge hlt heq
    rw [heq, UInt8.toNat_ofNat'] at hb
    omega
  rcases Nat.lt_or_ge 127 c.toNat with hlarge | hsmall
  · have hne : Char.ofNat b.toNat ≠ c := by
      intro heq
      rw [← heq, toNat_ofNat_ascii hb] at hlarge
      omega
    have hv : ¬ c.val.toNat ≤ 127 := Nat.not_le.mpr hlarge
    refine ⟨fun hmem => ?_, fun heq => absurd heq hne⟩
    unfold String.utf8EncodeChar at hmem
    simp only [if_neg hv] at hmem
    exfalso
    split at hmem
    · simp only [List.mem_cons, List.not_mem_nil, or_false] at hmem
      rcases hmem with h | h <;> exact hhigh _ (by omega) (by omega) h
    · split at hmem
      · simp only [List.mem_cons, List.not_mem_nil, or_false] at hmem
        rcases hmem with h | h | h <;> exact hhigh _ (by omega) (by omega) h
      · simp only [List.mem_cons, List.not_mem_nil, or_false] at hmem
        rcases hmem with h | h | h | h <;> exact hhigh _ (by omega) (by omega) h
  · have hv : c.val.toNat ≤ 127 := hsmall
    unfold String.utf8EncodeChar
    simp only [if_pos hv, List.mem_singleton]
    constructor
    · intro h
      have hval : b.toNat = c.toNat := by
        rw [h, UInt8.toNat_ofNat']
        exact Nat.mod_eq_of_lt (by omega)
      rw [hval, Char.ofNat_toNat]
    · intro h
      have hval : c.val.toNat = b.toNat := by
        rw [← h]
        exact toNat_ofNat_ascii hb
      rw [hval, UInt8.ofNat_toNat]

/-- The first byte of a longer character says how many bytes follow, and these are between
128 and 191. -/
structure Sequence (lead : UInt8) (tail : List UInt8) : Prop where
  announces : (0xC0 ≤ lead.toNat ∧ lead.toNat ≤ 0xDF ∧ tail.length = 1) ∨
    (0xE0 ≤ lead.toNat ∧ lead.toNat ≤ 0xEF ∧ tail.length = 2) ∨
    (0xF0 ≤ lead.toNat ∧ lead.toNat ≤ 0xF7 ∧ tail.length = 3)
  continues : ∀ b ∈ tail, 0x80 ≤ b.toNat ∧ b.toNat ≤ 0xBF

theorem utf8EncodeChar_ascii {c : Char} (h : c.toNat < 128) :
    String.utf8EncodeChar c = [UInt8.ofNat c.toNat] := by
  have hval : c.val.toNat ≤ 127 := Nat.le_of_lt_succ h
  unfold String.utf8EncodeChar
  exact if_pos hval

theorem utf8EncodeChar_sequence {c : Char} (h : 128 ≤ c.toNat) :
    ∃ lead tail, String.utf8EncodeChar c = lead :: tail ∧ Sequence lead tail := by
  have hval : ¬ c.val.toNat ≤ 0x7F := Nat.not_le.mpr h
  have hbyte : ∀ n, n < 256 → (UInt8.ofNat n).toNat = n := by
    intro n hn
    rw [UInt8.toNat_ofNat']
    exact Nat.mod_eq_of_lt hn
  have htail : ∀ n, 0x80 ≤ (UInt8.ofNat (n % 0x40 + 0x80)).toNat ∧
      (UInt8.ofNat (n % 0x40 + 0x80)).toNat ≤ 0xBF := by
    intro n
    rw [hbyte _ (by omega)]
    omega
  unfold String.utf8EncodeChar
  simp only [if_neg hval]
  split
  · refine ⟨_, _, rfl, ⟨.inl ?_, ?_⟩⟩
    · rw [hbyte _ (by omega)]
      exact ⟨by omega, by omega, rfl⟩
    · simp only [List.mem_cons, List.not_mem_nil, or_false]
      rintro b rfl
      exact htail _
  · split
    · refine ⟨_, _, rfl, ⟨.inr (.inl ?_), ?_⟩⟩
      · rw [hbyte _ (by omega)]
        exact ⟨by omega, by omega, rfl⟩
      · simp only [List.mem_cons, List.not_mem_nil, or_false]
        rintro b (rfl | rfl) <;> exact htail _
    · refine ⟨_, _, rfl, ⟨.inr (.inr ?_), ?_⟩⟩
      · rw [hbyte _ (by omega)]
        exact ⟨by omega, by omega, rfl⟩
      · simp only [List.mem_cons, List.not_mem_nil, or_false]
        rintro b (rfl | rfl | rfl) <;> exact htail _

/-- A byte below 128 stands for its own character and for nothing else. -/
theorem mem_encode_ascii {b : UInt8} (hb : b.toNat < 128) (s : String) :
    b ∈ encode s ↔ Char.ofNat b.toNat ∈ s.toList := by
  have hchar := mem_utf8EncodeChar_ascii hb
  unfold encode
  rw [List.mem_flatMap]
  constructor
  · intro ⟨c, hc, hmem⟩
    rw [(hchar c).mp hmem]
    exact hc
  · intro hmem
    exact ⟨_, hmem, (hchar _).mpr rfl⟩

/-- A text has at least as many bytes as characters. -/
theorem length_le_length_encode (s : String) : s.toList.length ≤ (encode s).length := by
  rw [encode]
  induction s.toList with
  | nil => exact Nat.zero_le _
  | cons c rest ih =>
    have hpos := c.utf8Size_pos
    rw [List.flatMap_cons, List.length_append, String.length_utf8EncodeChar, List.length_cons]
    omega

/-- A character has at most four bytes. -/
theorem length_encode_le (s : String) : (encode s).length ≤ 4 * s.toList.length := by
  rw [encode]
  induction s.toList with
  | nil => exact Nat.zero_le _
  | cons c rest ih =>
    have hfour := c.utf8Size_le_four
    rw [List.flatMap_cons, List.length_append, String.length_utf8EncodeChar, List.length_cons]
    omega

theorem length_encode_ascii {s : String} (h : ∀ c ∈ s.toList, c.toNat < 128) :
    (encode s).length = s.toList.length := by
  rw [encode]
  generalize s.toList = text at h ⊢
  induction text with
  | nil => rfl
  | cons c rest ih =>
    rw [List.flatMap_cons, List.length_append, utf8EncodeChar_ascii (h c List.mem_cons_self),
      List.length_singleton, ih fun c hc => h c (List.mem_cons_of_mem _ hc), List.length_cons, Nat.add_comm]

/-- Only ASCII text has as many bytes as characters. -/
theorem ascii_of_length_encode {s : String} (h : (encode s).length = s.toList.length) :
    ∀ c ∈ s.toList, c.toNat < 128 := by
  rw [encode] at h
  generalize s.toList = text at h ⊢
  induction text with
  | nil => exact fun _ hc => absurd hc List.not_mem_nil
  | cons c rest ih =>
    have hpos := c.utf8Size_pos
    have hrest := length_le_length_encode (String.ofList rest)
    rw [encode, String.toList_ofList] at hrest
    rw [List.flatMap_cons, List.length_append, String.length_utf8EncodeChar, List.length_cons] at h
    intro c' hc'
    rcases List.mem_cons.mp hc' with rfl | hmem
    · by_contra hlarge
      obtain ⟨lead, tail, hbytes, hsequence⟩ := utf8EncodeChar_sequence (Nat.not_lt.mp hlarge)
      have hlength := congrArg List.length hbytes
      rw [String.length_utf8EncodeChar, List.length_cons] at hlength
      have htail : 0 < tail.length := by
        rcases hsequence.announces with ⟨-, -, h⟩ | ⟨-, -, h⟩ | ⟨-, -, h⟩ <;> omega
      omega
    · exact ih (by omega) c' hmem

end Encoding

section Lines

/-- What the text of a file is read as: every `\r\n` and every other `\r` becomes `\n`. -/
def universalNewlines : List Char → List Char
  | [] => []
  | '\r' :: '\n' :: rest => '\n' :: universalNewlines rest
  | '\r' :: rest => '\n' :: universalNewlines rest
  | c :: rest => c :: universalNewlines rest

theorem universalNewlines_ne_nil {text : List Char} (h : text ≠ []) :
    universalNewlines text ≠ [] := by
  induction text using universalNewlines.induct with
  | case1 => exact absurd rfl h
  | case2 | case3 | case4 => simp [universalNewlines]

/-- No carriage return is left. -/
theorem not_mem_universalNewlines (text : List Char) : '\r' ∉ universalNewlines text := by
  induction text using universalNewlines.induct with
  | case1 => exact List.not_mem_nil
  | case2 rest ih =>
    rw [universalNewlines, List.mem_cons, not_or]
    exact ⟨by decide, ih⟩
  | case3 rest hnot ih =>
    rw [universalNewlines, List.mem_cons, not_or]
    · exact ⟨by decide, ih⟩
    · exact hnot
  | case4 c rest hpair hnot ih =>
    rw [universalNewlines, List.mem_cons, not_or]
    · exact ⟨fun heq => hnot heq.symm, ih⟩
    · exact hpair
    · exact hnot

/-- Text comes through unchanged exactly if it has no carriage return. -/
theorem universalNewlines_eq_self_iff (text : List Char) :
    universalNewlines text = text ↔ '\r' ∉ text := by
  constructor
  · intro h
    rw [← h]
    exact not_mem_universalNewlines text
  · intro h
    induction text with
    | nil => rfl
    | cons c rest ih =>
      rw [List.mem_cons, not_or] at h
      have hne : c ≠ '\r' := fun heq => h.1 heq.symm
      rw [universalNewlines, ih h.2]
      · rintro _ rfl
        exact absurd rfl hne
      · exact hne

end Lines

section Repr

/-- A digit of a lower-case hexadecimal number. -/
def hexDigit (n : ℕ) : Char := if n < 10 then Char.ofNat (48 + n) else Char.ofNat (87 + n)

/-- One byte of the text of a `bytes` object in the given quotes. -/
def escapeByte (quote b : UInt8) : List Char :=
  if b = quote ∨ b = 92 then ['\\', Char.ofNat b.toNat]
  else if b = 9 then ['\\', 't']
  else if b = 10 then ['\\', 'n']
  else if b = 13 then ['\\', 'r']
  else if b < 32 ∨ 127 ≤ b then
    ['\\', 'x', hexDigit (b.toNat / 16), hexDigit (b.toNat % 16)]
  else [Char.ofNat b.toNat]

/-- Double quotes for bytes that have single quotes and no double ones. -/
def quoteOf (bytes : List UInt8) : UInt8 := if 39 ∈ bytes ∧ 34 ∉ bytes then 34 else 39

/-- `f"{bytes}"`. -/
def reprBytes (bytes : List UInt8) : List Char :=
  'b' :: Char.ofNat (quoteOf bytes).toNat ::
    (bytes.flatMap (escapeByte (quoteOf bytes)) ++ [Char.ofNat (quoteOf bytes).toNat])

def hexValue (c : Char) : ℕ := if c.toNat < 58 then c.toNat - 48 else c.toNat - 87

/-- The first byte that a text in quotes shows, and the rest of the text. -/
def readByte : List Char → Option (UInt8 × List Char)
  | [] => none
  | '\\' :: 't' :: rest => some (9, rest)
  | '\\' :: 'n' :: rest => some (10, rest)
  | '\\' :: 'r' :: rest => some (13, rest)
  | '\\' :: 'x' :: high :: low :: rest =>
    some (UInt8.ofNat (16 * hexValue high + hexValue low), rest)
  | '\\' :: c :: rest => some (UInt8.ofNat c.toNat, rest)
  | c :: rest => some (UInt8.ofNat c.toNat, rest)

theorem hexValue_hexDigit {n : ℕ} (h : n < 16) : hexValue (hexDigit n) = n := by
  interval_cases n <;> decide

theorem readByte_escapeByte {quote : UInt8} (hquote : quote = 34 ∨ quote = 39) (b : UInt8)
    (rest : List Char) : readByte (escapeByte quote b ++ rest) = some (b, rest) := by
  unfold escapeByte
  split
  case isTrue h =>
    rcases h with h | h
    · rcases hquote with hq | hq <;> subst hq <;> subst h <;> rfl
    · subst h
      rfl
  case isFalse hplain =>
    rw [not_or] at hplain
    split
    case isTrue h => subst h; rfl
    case isFalse =>
      split
      case isTrue h => subst h; rfl
      case isFalse =>
        split
        case isTrue h => subst h; rfl
        case isFalse =>
          split
          case isTrue =>
            have hb := b.toNat_lt
            change some (UInt8.ofNat (16 * hexValue (hexDigit (b.toNat / 16)) +
              hexValue (hexDigit (b.toNat % 16))), rest) = _
            rw [hexValue_hexDigit (by omega), hexValue_hexDigit (by omega), Nat.div_add_mod,
              UInt8.ofNat_toNat]
          case isFalse hprint =>
            rw [not_or, UInt8.not_le, UInt8.lt_iff_toNat_lt] at hprint
            have hascii : b.toNat < 128 := hprint.2.trans (by decide)
            have hne : Char.ofNat b.toNat ≠ '\\' := by
              intro heq
              have hval := congrArg Char.toNat heq
              rw [toNat_ofNat_ascii hascii] at hval
              exact hplain.2 (UInt8.toNat_inj.mp hval)
            rw [List.singleton_append, readByte]
            · rw [toNat_ofNat_ascii hascii, UInt8.ofNat_toNat]
            all_goals
              intros
              exact hne (by assumption)

theorem escapeByte_injective {quote : UInt8} (hquote : quote = 34 ∨ quote = 39) :
    ∀ bytes bytes' : List UInt8,
      bytes.flatMap (escapeByte quote) = bytes'.flatMap (escapeByte quote) → bytes = bytes' := by
  have hcons : ∀ b bytes, readByte ((b :: bytes).flatMap (escapeByte quote)) =
      some (b, bytes.flatMap (escapeByte quote)) := by
    intro b bytes
    rw [List.flatMap_cons, readByte_escapeByte hquote]
  intro bytes
  induction bytes with
  | nil =>
    intro bytes' h
    cases bytes' with
    | nil => rfl
    | cons b' bytes' =>
      have hread := hcons b' bytes'
      rw [← h] at hread
      cases hread
  | cons b bytes ih =>
    intro bytes' h
    cases bytes' with
    | nil =>
      have hread := hcons b bytes
      rw [h] at hread
      cases hread
    | cons b' bytes' =>
      have hread := (hcons b bytes).symm.trans ((congrArg readByte h).trans (hcons b' bytes'))
      rw [Option.some_inj, Prod.mk.injEq] at hread
      rw [hread.1, ih bytes' hread.2]

theorem quoteOf_cases (bytes : List UInt8) : quoteOf bytes = 34 ∨ quoteOf bytes = 39 := by
  unfold quoteOf
  split
  · exact .inl rfl
  · exact .inr rfl

/-- The text of a `bytes` object tells it from every other one, also in front of other
text of the same length. -/
theorem reprBytes_append_injective {bytes bytes' : List UInt8} {text : List Char}
    (h : reprBytes bytes ++ text = reprBytes bytes' ++ text) : bytes = bytes' := by
  have hrepr := List.append_cancel_right h
  unfold reprBytes at hrepr
  rw [List.cons.injEq, List.cons.injEq] at hrepr
  obtain ⟨-, hquote, hbody⟩ := hrepr
  have hsame : quoteOf bytes = quoteOf bytes' := by
    rcases quoteOf_cases bytes with hq | hq <;> rcases quoteOf_cases bytes' with hq' | hq'
    · rw [hq, hq']
    · rw [hq, hq'] at hquote
      exact absurd hquote (by decide)
    · rw [hq, hq'] at hquote
      exact absurd hquote (by decide)
    · rw [hq, hq']
  rw [hsame] at hbody
  exact escapeByte_injective (quoteOf_cases bytes') bytes bytes' (List.append_cancel_right hbody)

end Repr

end CompSys.PythonText
