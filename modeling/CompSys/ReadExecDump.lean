import Mathlib.Algebra.Order.BigOperators.Group.List
import Mathlib.Algebra.Order.Group.Nat
import Mathlib.Data.List.TakeWhile
import CompSys.ReadExec

/-!
# Loading the lines of a hex dump

A line of `objdump -s` has its bytes twice, as hex words and as text. `read_exec` does
not know where the text begins: it takes the first word of the text for a fifth to last
hex word when there are fewer than four.
-/
namespace CompSys.ReadExec

open Scanf (Text char isSpace words firstWord)
open ByteMemory (Holds InArea writeBytes)

/-! ## The lines -/

def blank : BitVec 8 := char ' '

def blanks (n : ℕ) : Text := List.replicate n blank

def hexDigit (n : ℕ) : BitVec 8 := BitVec.ofNat 8 (if n < 10 then 0x30 + n else 0x57 + n)

def hexText (bytes : List (BitVec 8)) : Text :=
  bytes.flatMap fun b => [hexDigit (b.toNat / 16), hexDigit (b.toNat % 16)]

/-- Groups of four bytes; the last one may be shorter. -/
def groups : List (BitVec 8) → List (List (BitVec 8))
  | [] => []
  | a :: b :: c :: d :: rest => [a, b, c, d] :: groups rest
  | rest => [rest]

/-- A printable byte as itself, another one as a dot. -/
def shown (b : BitVec 8) : BitVec 8 :=
  if 0x20 ≤ b.toNat ∧ b.toNat ≤ 0x7e then b else char '.'

/-- Hex words, each with a blank behind it. -/
def wordsText (rows : List Text) : Text := rows.flatMap fun row => row ++ [blank]

/-- A line with `pad` more blanks before the text, and `trail` blanks behind it. -/
def dumpLine (address : Text) (bytes : List (BitVec 8)) (pad trail : ℕ) : Text :=
  blank :: (address ++ blank :: (wordsText ((groups bytes).map hexText) ++
    (blanks pad ++ (bytes.map shown ++ blanks trail))))

/-- An address in lower-case hex, of any width. -/
structure IsAddress (text : Text) (addr : Word) : Prop where
  ne : text ≠ []
  digits : ∀ c ∈ text, isHex c
  value : Scanf.value text = addr.toNat

/-! ## Characters -/

theorem isDigit_of_isHex {c : BitVec 8} (h : isHex c = true) : Scanf.isDigit c = true := by
  simp only [isHex, Bool.or_eq_true, Bool.and_eq_true, decide_eq_true_eq] at h
  unfold Scanf.isDigit Scanf.digitValue
  rcases h with h | h
  · rw [if_pos h]
    rfl
  · rw [if_neg (by omega), if_pos h]
    rfl

theorem isSpace_of_isHex {c : BitVec 8} (h : isHex c = true) : isSpace c = false :=
  Scanf.isSpace_of_isDigit (isDigit_of_isHex h)

theorem isSpace_blank : isSpace blank = true := by decide

theorem isSpace_blanks (n : ℕ) : ∀ c ∈ blanks n, isSpace c := by
  intro c hc
  rw [List.eq_of_mem_replicate hc]
  exact isSpace_blank

theorem toNat_hexDigit {n : ℕ} (h : n < 16) :
    (hexDigit n).toNat = if n < 10 then 0x30 + n else 0x57 + n := by
  rw [hexDigit, BitVec.toNat_ofNat]
  split <;> omega

theorem isHex_hexDigit {n : ℕ} (h : n < 16) : isHex (hexDigit n) = true := by
  have hvalue := toNat_hexDigit h
  simp only [isHex, Bool.or_eq_true, Bool.and_eq_true, decide_eq_true_eq]
  split at hvalue <;> omega

theorem toHex_hexDigit {n : ℕ} (h : n < 16) : toHex (hexDigit n) = n := by
  have hvalue := toNat_hexDigit h
  unfold toHex
  split at hvalue
  · rw [if_pos (by omega)]
    omega
  · rw [if_neg (by omega), if_pos (by omega)]
    omega

/-! ## Rows of the dump -/

theorem hexText_cons (b : BitVec 8) (bytes : List (BitVec 8)) :
    hexText (b :: bytes) = hexDigit (b.toNat / 16) :: hexDigit (b.toNat % 16) :: hexText bytes := rfl

theorem length_hexText (bytes : List (BitVec 8)) : (hexText bytes).length = 2 * bytes.length := by
  induction bytes with
  | nil => rfl
  | cons b rest ih =>
    rw [hexText_cons, List.length_cons, List.length_cons, ih, List.length_cons]
    omega

theorem isHex_hexText {bytes : List (BitVec 8)} {c : BitVec 8} (h : c ∈ hexText bytes) :
    isHex c = true := by
  induction bytes with
  | nil => cases h
  | cons b rest ih =>
    have hb := b.isLt
    rw [hexText_cons] at h
    rcases List.mem_cons.mp h with rfl | h
    · exact isHex_hexDigit (by omega)
    rcases List.mem_cons.mp h with rfl | h
    · exact isHex_hexDigit (by omega)
    · exact ih h

theorem pairs_hexText (bytes : List (BitVec 8)) : pairs (hexText bytes) = bytes := by
  induction bytes with
  | nil => rfl
  | cons b rest ih =>
    have hb := b.isLt
    rw [hexText_cons, pairs, ih, toHex_hexDigit (by omega), toHex_hexDigit (by omega)]
    congr 1
    apply BitVec.eq_of_toNat_eq
    rw [BitVec.toNat_ofNat]
    omega

/-- A row of a dump stands for its bytes, and only a full one lets the next row count. -/
theorem decode_hexText {group : List (BitVec 8)} (h : group.length ≤ 4) (rest : List Text) :
    decode (hexText group :: rest) = if group.length = 4 then group ++ decode rest else group := by
  have hlength := length_hexText group
  have htake : (hexText group).take 8 = hexText group := List.take_of_length_le (by omega)
  have hdigits : (hexText group).takeWhile isHex = hexText group :=
    List.takeWhile_eq_self_iff.mpr fun c hc => isHex_hexText hc
  simp only [decode, htake, hdigits, hlength, pairs_hexText]
  by_cases hfull : group.length = 4
  · rw [if_pos (by omega), if_pos hfull]
  · rw [if_neg (by omega), if_neg hfull]

theorem length_lt_four {bytes : List (BitVec 8)}
    (h : ∀ a b c d rest, bytes = a :: b :: c :: d :: rest → False) : bytes.length < 4 := by
  match bytes with
  | [] => decide
  | [_] => simp
  | [_, _] => simp
  | [_, _, _] => simp
  | a :: b :: c :: d :: rest => exact absurd rfl (h a b c d rest)

/-- The rows stand for the bytes; the words behind them count when the last row is full. -/
theorem decode_groups (bytes : List (BitVec 8)) (more : List Text) :
    decode ((groups bytes).map hexText ++ more) =
      bytes ++ if 4 ∣ bytes.length then decode more else [] := by
  induction bytes using groups.induct with
  | case1 => rfl
  | case2 a b c d rest ih =>
    have hdvd : 4 ∣ (a :: b :: c :: d :: rest).length ↔ 4 ∣ rest.length := by
      simp only [List.length_cons]
      omega
    rw [groups, List.map_cons, List.cons_append, decode_hexText le_rfl, ih,
      if_congr hdvd rfl rfl]
    rfl
  | case3 bytes hne hlong =>
    have hshort := length_lt_four hlong
    have hpos : 0 < bytes.length := List.length_pos_iff.mpr hne
    have hdvd : ¬ 4 ∣ bytes.length := by omega
    rw [groups.eq_3 bytes hne hlong, List.map_singleton, List.singleton_append,
      decode_hexText (by omega), if_neg (by omega), if_neg hdvd, List.append_nil]

theorem length_groups (bytes : List (BitVec 8)) : (groups bytes).length = (bytes.length + 3) / 4 := by
  induction bytes using groups.induct with
  | case1 => rfl
  | case2 a b c d rest ih =>
    rw [groups, List.length_cons, ih]
    simp only [List.length_cons]
    omega
  | case3 bytes hne hlong =>
    have hshort := length_lt_four hlong
    have hpos : 0 < bytes.length := List.length_pos_iff.mpr hne
    rw [groups.eq_3 bytes hne hlong, List.length_singleton]
    omega

theorem mem_groups {bytes group : List (BitVec 8)} (h : group ∈ groups bytes) :
    group ≠ [] ∧ group.length ≤ 4 := by
  induction bytes using groups.induct with
  | case1 => cases h
  | case2 a b c d rest ih =>
    rw [groups] at h
    rcases List.mem_cons.mp h with rfl | h
    · exact ⟨List.cons_ne_nil _ _, le_rfl⟩
    · exact ih h
  | case3 bytes hne hlong =>
    rw [groups.eq_3 bytes hne hlong, List.mem_singleton] at h
    rw [h]
    exact ⟨hne, Nat.le_of_lt (length_lt_four hlong)⟩

/-- The rows of a dump are words of at most eight characters. -/
theorem mem_rows {bytes : List (BitVec 8)} {row : Text} (h : row ∈ (groups bytes).map hexText) :
    row ≠ [] ∧ row.length ≤ 8 ∧ ∀ c ∈ row, isSpace c = false := by
  obtain ⟨group, hgroup, rfl⟩ := List.mem_map.mp h
  obtain ⟨hne, hle⟩ := mem_groups hgroup
  have hlength := length_hexText group
  have hpos : 0 < group.length := List.length_pos_iff.mpr hne
  refine ⟨List.length_pos_iff.mp (by omega), by omega, ?_⟩
  intro c hc
  exact isSpace_of_isHex (isHex_hexText hc)

/-! ## Scanning a line -/

/-- Words with a blank behind each are scanned one by one. -/
theorem words_wordsText {rows : List Text} (h : ∀ row ∈ rows, row ≠ [] ∧ ∀ c ∈ row, isSpace c = false)
    {k : ℕ} (hk : rows.length ≤ k) (s : Text) :
    words k (wordsText rows ++ s) = rows ++ words (k - rows.length) s := by
  induction rows generalizing k with
  | nil => rfl
  | cons row rest ih =>
    have hrest : ∀ row' ∈ rest, row' ≠ [] ∧ ∀ c ∈ row', isSpace c = false :=
      fun row' hmem => h row' (List.mem_cons_of_mem row hmem)
    obtain ⟨hne, hrow⟩ := h row List.mem_cons_self
    cases k with
    | zero => cases hk
    | succ k =>
      have htext : wordsText (row :: rest) ++ s = row ++ blank :: (wordsText rest ++ s) := by
        simp [wordsText]
      rw [htext, Scanf.words_append hne hrow (Scanf.ends_cons isSpace_blank _),
        Scanf.words_cons_space isSpace_blank, ih hrest (Nat.le_of_succ_le_succ hk), List.length_cons,
        Nat.add_sub_add_right]
      rfl

/-- The words of the text that are scanned, because there are fewer than four hex words. -/
def textWords (bytes : List (BitVec 8)) : List Text :=
  words (4 - (groups bytes).length) (bytes.map shown)

theorem words_line {bytes : List (BitVec 8)} (hlength : bytes.length ≤ 16) (pad trail : ℕ) :
    words 4 (wordsText ((groups bytes).map hexText) ++
        (blanks pad ++ (bytes.map shown ++ blanks trail))) =
      (groups bytes).map hexText ++ textWords bytes := by
  have hrows : ∀ row ∈ (groups bytes).map hexText, row ≠ [] ∧ ∀ c ∈ row, isSpace c = false :=
    fun row hrow => ⟨(mem_rows hrow).1, (mem_rows hrow).2.2⟩
  have hfour : ((groups bytes).map hexText).length ≤ 4 := by
    rw [List.length_map, length_groups]
    omega
  rw [words_wordsText hrows hfour, Scanf.words_spaces (isSpace_blanks pad),
    Scanf.words_append_spaces (isSpace_blanks trail), List.length_map, textWords]

theorem scan_dumpLine {address : Text} {addr : Word} (haddress : IsAddress address addr)
    {bytes : List (BitVec 8)} (hlength : bytes.length ≤ 16) (pad trail : ℕ) :
    Scanf.scan dataFormat (dumpLine address bytes pad trail) =
      .number addr :: ((groups bytes).map hexText ++ textWords bytes).map .text := by
  have hsmall : Scanf.value address < 2 ^ 64 := by
    have hlt := addr.isLt
    rw [haddress.value]
    omega
  have hvalue : (BitVec.ofNat 64 (Scanf.value address)).setWidth 32 = addr := by
    rw [haddress.value]
    apply BitVec.eq_of_toNat_eq
    rw [BitVec.toNat_setWidth, BitVec.toNat_ofNat]
    have hlt := addr.isLt
    omega
  have hdigits : ∀ c ∈ address, Scanf.isDigit c :=
    fun c hc => isDigit_of_isHex (haddress.digits c hc)
  have hhex := Scanf.scanHex_digits haddress.ne hdigits hsmall isSpace_blank
    (wordsText ((groups bytes).map hexText) ++ (blanks pad ++ (bytes.map shown ++ blanks trail)))
  have hskip : Scanf.skipSpace (dumpLine address bytes pad trail) = address ++ blank ::
      (wordsText ((groups bytes).map hexText) ++ (blanks pad ++ (bytes.map shown ++ blanks trail))) := by
    cases address with
    | nil => exact absurd rfl haddress.ne
    | cons d rest =>
      have hd := Scanf.isSpace_of_isDigit (hdigits d List.mem_cons_self)
      rw [dumpLine, Scanf.skipSpace_cons isSpace_blank, List.cons_append, Scanf.skipSpace_word hd]
  have hsilent : ∀ d ∈ dataFormat.drop 7, d.Silent := by
    intro d hd
    simp only [dataFormat, List.replicate, List.cons_append, List.nil_append, List.drop_succ_cons,
      List.drop_zero, List.mem_cons, List.not_mem_nil, or_false] at hd
    rcases hd with rfl | rfl | rfl | rfl | rfl | rfl | rfl | rfl | rfl <;> trivial
  have hformat : dataFormat =
      .space :: .hex :: .space :: (List.replicate 4 (.word none) ++ dataFormat.drop 7) := rfl
  rw [hformat, Scanf.scan, Scanf.scan, Scanf.skipSpace_skipSpace, hskip, hhex]
  simp only [Scanf.scan]
  rw [Scanf.scan_words 4 hsilent, Scanf.words_skipSpace, Scanf.words_cons_space isSpace_blank,
    words_line hlength, hvalue]

/-! ## The text behind the rows -/

/-- The word of the text that is read behind fewer than four rows. -/
def asciiWord (bytes : List (BitVec 8)) : Text := firstWord (bytes.map shown)

/-- The bytes that the hex digits at the front of a word stand for. -/
def hexPrefix (word : Text) : List (BitVec 8) := pairs (word.takeWhile isHex)

/-- What is read behind the bytes: after full rows, the front of the text. -/
def extraBytes (bytes : List (BitVec 8)) : List (BitVec 8) :=
  if 4 ∣ bytes.length ∧ bytes.length < 16 then hexPrefix (asciiWord bytes) else []

theorem mem_textWords {bytes : List (BitVec 8)} {word : Text} (h : word ∈ textWords bytes) :
    word.length ≤ bytes.length := by
  have hword := List.le_sum_of_mem (List.mem_map_of_mem (f := List.length) h)
  have hsum := Scanf.length_words_le (4 - (groups bytes).length) (bytes.map shown)
  rw [List.length_map] at hsum
  exact hword.trans hsum

theorem length_asciiWord_le (bytes : List (BitVec 8)) : (asciiWord bytes).length ≤ bytes.length := by
  have hword := Scanf.length_firstWord_le (bytes.map shown)
  have hskip : (Scanf.skipSpace (bytes.map shown)).length ≤ (bytes.map shown).length :=
    (List.dropWhile_sublist _).length_le
  rw [List.length_map] at hskip
  exact hword.trans hskip

/-- Behind three rows there is room for one word. -/
theorem textWords_three {bytes : List (BitVec 8)} (hlong : 8 < bytes.length)
    (hshort : bytes.length ≤ 12) :
    textWords bytes = if asciiWord bytes = [] then [] else [asciiWord bytes] := by
  have hrows : 4 - (groups bytes).length = 0 + 1 := by
    rw [length_groups]
    omega
  rw [textWords, hrows, Scanf.words_succ]
  rfl

theorem textWords_four {bytes : List (BitVec 8)} (hlong : 12 < bytes.length) :
    textWords bytes = [] := by
  have hrows : 4 - (groups bytes).length = 0 := by
    rw [length_groups]
    omega
  rw [textWords, hrows]
  rfl

/-- Only the fourth word can be too long for its row. -/
theorem overflow_iff (bytes : List (BitVec 8)) :
    (∃ row ∈ (groups bytes).map hexText ++ textWords bytes, 8 < row.length) ↔
      8 < bytes.length ∧ bytes.length ≤ 12 ∧ 8 < (asciiWord bytes).length := by
  constructor
  · intro ⟨row, hmem, hlong⟩
    rcases List.mem_append.mp hmem with hrow | hword
    · have hfits := (mem_rows hrow).2.1
      omega
    · have hle := mem_textWords hword
      have hshort : bytes.length ≤ 12 := by
        by_contra hfour
        rw [textWords_four (by omega)] at hword
        cases hword
      rw [textWords_three (by omega) hshort] at hword
      split at hword
      case isTrue => cases hword
      case isFalse =>
        rw [List.mem_singleton] at hword
        exact ⟨by omega, hshort, hword ▸ hlong⟩
  · intro ⟨hlong, hshort, hword⟩
    have hne : asciiWord bytes ≠ [] := List.length_pos_iff.mp (by omega)
    refine ⟨asciiWord bytes, List.mem_append_right _ ?_, hword⟩
    rw [textWords_three hlong hshort, if_neg hne]
    exact List.mem_singleton_self _

/-- Words that fit are read up to the first character that is not a hex digit; a word of
eight digits must have nothing behind it. -/
theorem decode_words_succ (k : ℕ) (s : Text) (hfits : (firstWord s).length ≤ 8)
    (hlast : (firstWord s).length = 8 →
      words k ((Scanf.skipSpace s).drop (firstWord s).length) = []) :
    decode (words (k + 1) s) = hexPrefix (firstWord s) := by
  rw [Scanf.words_succ]
  by_cases hne : firstWord s = []
  · rw [if_pos hne, hne]
    rfl
  · have htake : (firstWord s).take 8 = firstWord s := List.take_of_length_le hfits
    have hdigits : ((firstWord s).takeWhile isHex).length ≤ (firstWord s).length :=
      (List.takeWhile_sublist isHex).length_le
    simp only [if_neg hne, decode, htake, hexPrefix]
    split
    case isTrue hfull =>
      rw [hlast (by omega), decode, List.append_nil]
    case isFalse => rfl

theorem decode_textWords {bytes : List (BitVec 8)} (hfour : 4 ∣ bytes.length)
    (hlength : bytes.length ≤ 16)
    (hfits : 8 < bytes.length → bytes.length ≤ 12 → (asciiWord bytes).length ≤ 8) :
    decode (textWords bytes) = extraBytes bytes := by
  have hrows := length_groups bytes
  by_cases hshort : bytes.length < 16
  · rw [extraBytes, if_pos ⟨hfour, hshort⟩]
    have hle := length_asciiWord_le bytes
    obtain ⟨k, hk⟩ : ∃ k, 4 - (groups bytes).length = k + 1 :=
      ⟨3 - (groups bytes).length, by omega⟩
    rw [textWords, hk]
    refine decode_words_succ k (bytes.map shown) ?_ ?_
    · by_cases hlong : 8 < bytes.length
      · exact hfits hlong (by omega)
      · exact hle.trans (by omega)
    · intro height
      by_cases hlong : 8 < bytes.length
      -- twelve bytes: this was the fourth word
      · have hzero : k = 0 := by omega
        rw [hzero]
        rfl
      -- eight bytes: the word is the whole text
      · have hskip : (Scanf.skipSpace (bytes.map shown)).length ≤ (bytes.map shown).length :=
          (List.dropWhile_sublist _).length_le
        rw [List.length_map] at hskip
        rw [List.drop_eq_nil_of_le (by omega), Scanf.words_nil]
  · rw [extraBytes, if_neg (by omega), textWords_four (by omega), decode]

theorem decode_line {bytes : List (BitVec 8)} (hlength : bytes.length ≤ 16)
    (hfits : 8 < bytes.length → bytes.length ≤ 12 → (asciiWord bytes).length ≤ 8) :
    decode ((groups bytes).map hexText ++ textWords bytes) = bytes ++ extraBytes bytes := by
  rw [decode_groups]
  by_cases hfour : 4 ∣ bytes.length
  · rw [if_pos hfour, decode_textWords hfour hlength hfits]
  · rw [if_neg hfour, extraBytes, if_neg fun h => hfour h.1]

/-! ## Loading a line -/

theorem shown_ne_newline (b : BitVec 8) : shown b ≠ newline := by
  unfold shown
  split
  case isTrue hprint =>
    rintro rfl
    exact absurd hprint (by decide)
  case isFalse => decide

theorem newline_not_mem_dumpLine {address : Text} {addr : Word} (haddress : IsAddress address addr)
    (bytes : List (BitVec 8)) (pad trail : ℕ) :
    newline ∉ dumpLine address bytes pad trail := by
  have hblank : newline ≠ blank := by decide
  have hblanks : ∀ n, newline ∉ blanks n := fun n h => hblank (List.eq_of_mem_replicate h)
  have hhex : ∀ {c}, isHex c = true → newline ≠ c := by
    rintro c hc rfl
    exact absurd hc (by decide)
  have hrows : newline ∉ wordsText ((groups bytes).map hexText) := by
    intro h
    simp only [wordsText, List.mem_flatMap, List.mem_map, List.mem_append, List.mem_singleton] at h
    obtain ⟨row, ⟨group, -, rfl⟩, hrow | hbehind⟩ := h
    · exact hhex (isHex_hexText hrow) rfl
    · exact hblank hbehind
  have hshown : newline ∉ bytes.map shown := by
    intro h
    obtain ⟨b, -, hb⟩ := List.mem_map.mp h
    exact shown_ne_newline b hb
  simp only [dumpLine, List.mem_cons, List.mem_append, not_or]
  exact ⟨hblank, fun h => hhex (haddress.digits newline h) rfl, hblank, hrows, hblanks pad, hshown,
    hblanks trail⟩

theorem filterMap_text (rows : List Text) :
    (rows.map Scanf.Value.text).filterMap Scanf.Value.text? = rows := by
  induction rows with
  | nil => rfl
  | cons row rest ih => simp [Scanf.Value.text?, ih]

theorem any_long_iff (rows : List Text) :
    (rows.any fun row => decide (8 < row.length)) = true ↔ ∃ row ∈ rows, 8 < row.length := by
  simp

/-- A line is loaded when it is read to its end, its bytes stand in the memory, and nothing
else has changed there. -/
def Loads (st : Loader) (line rest : Text) (addr : Word) (bytes : List (BitVec 8)) : Prop :=
  ∃ st', iteration st (line ++ newline :: rest) = .ok (st', rest) ∧
    Holds st'.mem.bytes addr bytes ∧
    ∀ b, ¬ InArea addr bytes.length b → st'.mem.bytes b = st.mem.bytes b

section

variable (st : Loader) {address : Text} {addr : Word} {bytes : List (BitVec 8)} (pad trail : ℕ)

theorem readLine_overflow (haddress : IsAddress address addr) (hlength : bytes.length ≤ 16)
    (hoverflow : ∃ row ∈ (groups bytes).map hexText ++ textWords bytes, 8 < row.length) :
    readLine st (dumpLine address bytes pad trail) = .error .overflow := by
  simp only [readLine, scan_dumpLine haddress hlength, filterMap_text]
  exact if_pos ((any_long_iff _).mpr hoverflow)

/-- A line whose words fit is data, and stores what its words stand for. -/
theorem readLine_data (haddress : IsAddress address addr) (hpos : 1 ≤ bytes.length)
    (hlength : bytes.length ≤ 16)
    (hfits : ¬∃ row ∈ (groups bytes).map hexText ++ textWords bytes, 8 < row.length) :
    readLine st (dumpLine address bytes pad trail) =
      .ok { st with
        mem := storeLoop ((groups bytes).map hexText ++ textWords bytes)
          (countHexes ((groups bytes).map hexText ++ textWords bytes)) 0 addr st.mem } := by
  have hcount : countHexes ((groups bytes).map hexText ++ textWords bytes) ≠ 0 := by
    rw [countHexes_eq, decode_groups, List.length_append]
    omega
  simp only [readLine, scan_dumpLine haddress hlength, filterMap_text]
  rw [if_neg fun h => hfits ((any_long_iff _).mp h), if_pos hcount]

theorem length_extraBytes_le (bytes : List (BitVec 8)) :
    (extraBytes bytes).length ≤ bytes.length := by
  unfold extraBytes
  split
  case isTrue =>
    have hdigits : ((asciiWord bytes).takeWhile isHex).length ≤ (asciiWord bytes).length :=
      (List.takeWhile_sublist isHex).length_le
    have hword := length_asciiWord_le bytes
    rw [hexPrefix, length_pairs]
    omega
  case isFalse => exact Nat.zero_le _

/-- What the loop makes of a line: an error, or the bytes with what is read behind them. -/
theorem iteration_dumpLine (haddress : IsAddress address addr) (hpos : 1 ≤ bytes.length)
    (hlength : bytes.length ≤ 16) (hline : (dumpLine address bytes pad trail).length < 1023)
    (rest : Text) :
    (8 < bytes.length ∧ bytes.length ≤ 12 ∧ 8 < (asciiWord bytes).length →
      iteration st (dumpLine address bytes pad trail ++ newline :: rest) = .error .overflow) ∧
    ((8 < bytes.length → bytes.length ≤ 12 → (asciiWord bytes).length ≤ 8) →
      ∃ st', iteration st (dumpLine address bytes pad trail ++ newline :: rest) = .ok (st', rest) ∧
        st'.mem.bytes = writeBytes st.mem.bytes addr (bytes ++ extraBytes bytes)) := by
  have hread := iteration_line st (newline_not_mem_dumpLine haddress bytes pad trail) hline rest
  constructor
  · intro hlong
    rw [hread, readLine_overflow st pad trail haddress hlength ((overflow_iff bytes).mpr hlong)]
    rfl
  · intro hfits
    have hrows : ¬∃ row ∈ (groups bytes).map hexText ++ textWords bytes, 8 < row.length := by
      rw [overflow_iff]
      intro ⟨hlong, hshort, hword⟩
      exact absurd (hfits hlong hshort) (by omega)
    rw [hread, readLine_data st pad trail haddress hpos hlength hrows]
    refine ⟨_, rfl, ?_⟩
    rw [storeLoop_decode, decode_line hlength hfits]

/-- A line is loaded exactly when the first word of its text, where it is read, fits into
its row, and the memory behind the bytes holds already what that word stands for. -/
theorem dump_line_iff (haddress : IsAddress address addr) (hpos : 1 ≤ bytes.length)
    (hlength : bytes.length ≤ 16) (hline : (dumpLine address bytes pad trail).length < 1023)
    (rest : Text) :
    Loads st (dumpLine address bytes pad trail) rest addr bytes ↔
      (8 < bytes.length → bytes.length ≤ 12 → (asciiWord bytes).length ≤ 8) ∧
        Holds st.mem.bytes (addr + BitVec.ofNat 32 bytes.length) (extraBytes bytes) := by
  obtain ⟨herror, hok⟩ := iteration_dumpLine st pad trail haddress hpos hlength hline rest
  have hextra := length_extraBytes_le bytes
  have hsmall : bytes.length ≤ 2 ^ 32 := by omega
  have hboth : bytes.length + (extraBytes bytes).length ≤ 2 ^ 32 := by omega
  constructor
  · intro ⟨st', hstep, hbytes⟩
    have hfits : 8 < bytes.length → bytes.length ≤ 12 → (asciiWord bytes).length ≤ 8 := by
      intro hlong hshort
      by_contra hword
      rw [herror ⟨hlong, hshort, by omega⟩] at hstep
      cases hstep
    obtain ⟨st'', hstep', hwritten⟩ := hok hfits
    rw [hstep] at hstep'
    cases hstep'
    have hexact := (ByteMemory.eq_writeBytes_iff hsmall st.mem.bytes st'.mem.bytes addr).mpr hbytes
    rw [hwritten, ByteMemory.writeBytes_append_eq_iff hboth] at hexact
    exact ⟨hfits, hexact⟩
  · intro ⟨hfits, hheld⟩
    obtain ⟨st', hstep, hwritten⟩ := hok hfits
    rw [(ByteMemory.writeBytes_append_eq_iff hboth st.mem.bytes addr).mpr hheld] at hwritten
    exact ⟨st', hstep, (ByteMemory.eq_writeBytes_iff hsmall _ _ addr).mp hwritten⟩

end

/-- The last line of `.data` in `hello.dis`. -/
example : dumpLine ("1140c".toList.map char) [0x56, 0x0a, 0x00] 30 13 =
    " 1140c 560a00                               V..             ".toList.map char := by
  decide

theorem dump_line_iff_string : Loads ⟨SimMemory.memoryCreate, [], -1⟩
    (dumpLine ("1140c".toList.map char) [0x56, 0x0a, 0x00] 30 13) [] 0x1140c [0x56, 0x0a, 0x00] := by
  have haddress : IsAddress ("1140c".toList.map char) 0x1140c :=
    ⟨by decide, by decide, by decide⟩
  apply (dump_line_iff _ 30 13 haddress (by decide) (by decide) (by decide) []).mpr
  have hextra : extraBytes [0x56, 0x0a, 0x00] = [] := by decide
  rw [hextra]
  exact ⟨by decide, trivial⟩

/-- The four bytes `abcd` are followed by their own text, which is taken for two more. -/
theorem dump_line_wrong :
    (∃ st', iteration ⟨SimMemory.memoryCreate, [], -1⟩
        (dumpLine [char '0'] [0x61, 0x62, 0x63, 0x64] 28 12 ++ [newline]) = .ok (st', []) ∧
      st'.mem.bytes 4 = 0xab ∧ st'.mem.bytes 5 = 0xcd) ∧
    ¬∀ (st : Loader) (address : Text) (addr : Word) (bytes : List (BitVec 8)) (pad trail : ℕ)
        (rest : Text), IsAddress address addr → 1 ≤ bytes.length → bytes.length ≤ 16 →
      (dumpLine address bytes pad trail).length < 1023 →
      Loads st (dumpLine address bytes pad trail) rest addr bytes := by
  have haddress : IsAddress [char '0'] 0 := ⟨by decide, by decide, by decide⟩
  have hextra : extraBytes [0x61, 0x62, 0x63, 0x64] = [0xab, 0xcd] := by decide
  have hrun := @iteration_dumpLine ⟨SimMemory.memoryCreate, [], -1⟩ [char '0'] 0
    [0x61, 0x62, 0x63, 0x64] 28 12 haddress (by decide) (by decide) (by decide) []
  obtain ⟨st', hstep, hbytes⟩ := hrun.2 (by decide)
  rw [hextra, SimMemory.bytes_memoryCreate] at hbytes
  have hfour : st'.mem.bytes 4 = 0xab := by
    rw [hbytes]
    decide
  have hfive : st'.mem.bytes 5 = 0xcd := by
    rw [hbytes]
    decide
  refine ⟨⟨st', hstep, hfour, hfive⟩, ?_⟩
  intro hall
  obtain ⟨st'', hstep', -, hother⟩ := hall ⟨SimMemory.memoryCreate, [], -1⟩ [char '0'] 0
    [0x61, 0x62, 0x63, 0x64] 28 12 [] haddress (by decide) (by decide) (by decide)
  rw [hstep] at hstep'
  cases hstep'
  have hbehind := hother 4 (by rw [ByteMemory.inArea_iff (by decide)]; decide)
  rw [hfour, SimMemory.bytes_memoryCreate] at hbehind
  exact absurd hbehind (by decide)

end CompSys.ReadExec
