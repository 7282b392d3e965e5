import Mathlib.Algebra.Ring.Nat
import Mathlib.Data.List.DropRight

/-!
# Scanning by formats

`sscanf` with words and hexadecimal numbers. White space in a format skips all white
space; a conversion skips the white space before it; the first directive that does not
match ends the scan.
-/
namespace CompSys.Scanf

/-- A string of C without its NUL. -/
abbrev Text := List (BitVec 8)

def char (c : Char) : BitVec 8 := BitVec.ofNat 8 c.toNat

/-- The blank, and the characters from tab to carriage return. -/
def isSpace (c : BitVec 8) : Bool := c == char ' ' || (decide (9 ≤ c.toNat) && decide (c.toNat ≤ 13))

def skipSpace (s : Text) : Text := s.dropWhile isSpace

/-! ## Conversions -/

def digitValue (c : BitVec 8) : Option ℕ :=
  if 0x30 ≤ c.toNat ∧ c.toNat ≤ 0x39 then some (c.toNat - 0x30)
  else if 0x61 ≤ c.toNat ∧ c.toNat ≤ 0x66 then some (c.toNat - 0x57)
  else if 0x41 ≤ c.toNat ∧ c.toNat ≤ 0x46 then some (c.toNat - 0x37)
  else none

def isDigit (c : BitVec 8) : Bool := (digitValue c).isSome

def value (digits : Text) : ℕ := digits.foldl (fun n c => 16 * n + (digitValue c).getD 0) 0

/-- The number as an unsigned long, cut to an unsigned int. -/
def toUnsigned (negative : Bool) (n : ℕ) : BitVec 32 :=
  if n < 2 ^ 64 then
    if negative then (-BitVec.ofNat 64 n).setWidth 32 else (BitVec.ofNat 64 n).setWidth 32
  else -1

def dropSign : Text → Bool × Text
  | c :: rest =>
    if c = char '-' then (true, rest) else if c = char '+' then (false, rest) else (false, c :: rest)
  | [] => (false, [])

/-- `0x` may stand before the digits. -/
def dropPrefix : Text → Text
  | zero :: x :: rest =>
    if zero = char '0' ∧ (x = char 'x' ∨ x = char 'X') then rest else zero :: x :: rest
  | s => s

/-- `%x`, after the white space: the number and the text behind it. -/
def scanHex (s : Text) : Option (BitVec 32 × Text) :=
  let (negative, s) := dropSign s
  let s := dropPrefix s
  match s.takeWhile isDigit with
  | [] => none
  | digits => some (toUnsigned negative (value digits), s.dropWhile isDigit)

/-- `%s`, after the white space, with at most `width` characters if there is a width. -/
def scanWord (width : Option ℕ) (s : Text) : Text × Text :=
  let word := s.takeWhile fun c => !isSpace c
  let word := match width with
    | none => word
    | some k => word.take k
  (word, s.drop word.length)

/-! ## Formats -/

inductive Directive where
  | space
  | literal (c : BitVec 8)
  | hex
  | word (width : Option ℕ)
deriving DecidableEq

inductive Value where
  | number (v : BitVec 32)
  | text (s : Text)
deriving DecidableEq

def Value.text? : Value → Option Text
  | number _ => none
  | text s => some s

/-- The values that are assigned, in order; their number is what `sscanf` returns. -/
def scan : List Directive → Text → List Value
  | [], _ => []
  | .space :: rest, s => scan rest (skipSpace s)
  | .literal c :: rest, s =>
    match s with
    | [] => []
    | c' :: s => if c' = c then scan rest s else []
  | .hex :: rest, s =>
    match scanHex (skipSpace s) with
    | none => []
    | some (v, s) => .number v :: scan rest s
  | .word width :: rest, s =>
    match scanWord width (skipSpace s) with
    | ([], _) => []
    | (word, s) => .text word :: scan rest s

/-- The first `k` words. -/
def words : ℕ → Text → List Text
  | 0, _ => []
  | k + 1, s =>
    match scanWord none (skipSpace s) with
    | ([], _) => []
    | (word, s) => word :: words k s

def firstWord (s : Text) : Text := (scanWord none (skipSpace s)).1

/-! ## Numbers -/

theorem ne_of_isDigit {c d : BitVec 8} (h : isDigit c = true) (hd : isDigit d = false) : c ≠ d := by
  rintro rfl
  rw [h] at hd
  cases hd

theorem isSpace_of_isDigit {c : BitVec 8} (h : isDigit c = true) : isSpace c = false := by
  unfold isDigit digitValue at h
  have hblank : (char ' ').toNat = 0x20 := rfl
  have hlow : 0x30 ≤ c.toNat := by
    by_contra hlt
    rw [if_neg (by omega), if_neg (by omega), if_neg (by omega)] at h
    cases h
  have hne : c ≠ char ' ' := by
    rintro rfl
    omega
  have hrange : ¬ c.toNat ≤ 13 := by omega
  simp [isSpace, hne, hrange]

/-- The digits before a white space are read as their number. -/
theorem scanHex_digits {digits : Text} (hne : digits ≠ []) (hdigits : ∀ c ∈ digits, isDigit c)
    (hsmall : value digits < 2 ^ 64) {c : BitVec 8} (hc : isSpace c = true) (s : Text) :
    scanHex (digits ++ c :: s) = some ((BitVec.ofNat 64 (value digits)).setWidth 32, c :: s) := by
  have hstop : isDigit c = false := by
    by_contra hdigit
    rw [Bool.not_eq_false] at hdigit
    rw [isSpace_of_isDigit hdigit] at hc
    cases hc
  cases digits with
  | nil => exact absurd rfl hne
  | cons d rest =>
    have hd : isDigit d = true := hdigits d List.mem_cons_self
    have hsign : dropSign (d :: rest ++ c :: s) = (false, d :: rest ++ c :: s) := by
      rw [List.cons_append, dropSign, if_neg (ne_of_isDigit hd rfl), if_neg (ne_of_isDigit hd rfl)]
    have hprefix : dropPrefix (d :: rest ++ c :: s) = d :: rest ++ c :: s := by
      have hx : ∀ x s', rest ++ c :: s = x :: s' → ¬(x = char 'x' ∨ x = char 'X') := by
        intro x s' heq
        cases rest with
        | nil =>
          cases heq
          rintro (rfl | rfl) <;> exact absurd hc (by decide)
        | cons e rest =>
          cases heq
          have hx : isDigit x = true := hdigits x (List.mem_cons_of_mem d List.mem_cons_self)
          rintro (h | h)
          · exact ne_of_isDigit hx rfl h
          · exact ne_of_isDigit hx rfl h
      rw [List.cons_append]
      cases hrest : rest ++ c :: s with
      | nil => rfl
      | cons x s' => rw [dropPrefix, if_neg fun h => hx x s' hrest h.2]
    have htake : (d :: rest ++ c :: s).takeWhile isDigit = d :: rest := by
      rw [List.takeWhile_append_of_pos hdigits, List.takeWhile_cons_of_neg (by simp [hstop]),
        List.append_nil]
    have hdrop : (d :: rest ++ c :: s).dropWhile isDigit = c :: s := by
      rw [List.dropWhile_append_of_pos hdigits, List.dropWhile_cons_of_neg (by simp [hstop])]
    simp only [scanHex, hsign, hprefix, htake, hdrop, toUnsigned, hsmall, if_true]
    rfl

/-! ## Words -/

theorem skipSpace_cons {c : BitVec 8} (hc : isSpace c = true) (s : Text) :
    skipSpace (c :: s) = skipSpace s :=
  List.dropWhile_cons_of_pos hc

theorem skipSpace_word {c : BitVec 8} (hc : isSpace c = false) (s : Text) :
    skipSpace (c :: s) = c :: s :=
  List.dropWhile_cons_of_neg (by simp [hc])

theorem skipSpace_skipSpace (s : Text) : skipSpace (skipSpace s) = skipSpace s :=
  List.dropWhile_idempotent isSpace s

theorem words_skipSpace (k : ℕ) (s : Text) : words k (skipSpace s) = words k s := by
  cases k with
  | zero => rfl
  | succ k => rw [words, words, skipSpace_skipSpace]

theorem words_cons_space {c : BitVec 8} (hc : isSpace c = true) (k : ℕ) (s : Text) :
    words k (c :: s) = words k s := by
  cases k with
  | zero => rfl
  | succ k => rw [words, words, skipSpace_cons hc]

theorem words_nil (k : ℕ) : words k [] = [] := by
  cases k <;> rfl

theorem words_spaces {blanks : Text} (h : ∀ c ∈ blanks, isSpace c) (k : ℕ) (s : Text) :
    words k (blanks ++ s) = words k s := by
  induction blanks with
  | nil => rfl
  | cons c rest ih =>
    rw [List.cons_append, words_cons_space (h c List.mem_cons_self)]
    exact ih fun d hd => h d (List.mem_cons_of_mem c hd)

/-- Text that ends a word. -/
def Ends (s : Text) : Prop := ∀ c ∈ s.head?, isSpace c = true

theorem ends_nil : Ends [] := by
  intro c hc
  cases hc

theorem ends_cons {c : BitVec 8} (hc : isSpace c = true) (s : Text) : Ends (c :: s) := by
  intro d hd
  cases hd
  exact hc

theorem Ends.append {s t : Text} (hs : Ends s) (ht : Ends t) : Ends (s ++ t) := by
  cases s with
  | nil => exact ht
  | cons c s => exact ends_cons (hs c rfl) (s ++ t)

theorem ends_of_spaces {blanks : Text} (h : ∀ c ∈ blanks, isSpace c) : Ends blanks :=
  fun c hc => h c (List.mem_of_mem_head? hc)

theorem scanWord_append {word s : Text} (hword : ∀ c ∈ word, isSpace c = false) (hs : Ends s) :
    scanWord none (word ++ s) = (word, s) := by
  have hgraph : ∀ c ∈ word, (!isSpace c) = true := by
    intro c hc
    rw [hword c hc]
    rfl
  have hstop : s.takeWhile (fun c => !isSpace c) = [] := by
    cases s with
    | nil => rfl
    | cons c s => exact List.takeWhile_cons_of_neg (by simp [hs c rfl])
  have htake : (word ++ s).takeWhile (fun c => !isSpace c) = word := by
    rw [List.takeWhile_append_of_pos hgraph, hstop, List.append_nil]
  simp only [scanWord, htake, List.drop_left]

/-- Every text is white space, a word, and the rest; without a word there is no rest. -/
theorem exists_split (s : Text) : ∃ blanks word rest, s = blanks ++ (word ++ rest) ∧
    (∀ c ∈ blanks, isSpace c) ∧ (∀ c ∈ word, isSpace c = false) ∧ Ends rest ∧
    (word = [] → rest = []) := by
  induction s with
  | nil => exact ⟨[], [], [], rfl, by simp, by simp, ends_nil, fun _ => rfl⟩
  | cons c s ih =>
    obtain ⟨blanks, word, rest, hsplit, hblanks, hword, hrest, hnil⟩ := ih
    cases hc : isSpace c with
    | true =>
      have hblanks' : ∀ d ∈ c :: blanks, isSpace d = true := by
        intro d hd
        rcases List.mem_cons.mp hd with rfl | hd
        · exact hc
        · exact hblanks d hd
      exact ⟨c :: blanks, word, rest, by rw [hsplit]; rfl, hblanks', hword, hrest, hnil⟩
    | false =>
      cases blanks with
      | nil =>
        have hword' : ∀ d ∈ c :: word, isSpace d = false := by
          intro d hd
          rcases List.mem_cons.mp hd with rfl | hd
          · exact hc
          · exact hword d hd
        exact ⟨[], c :: word, rest, by rw [hsplit]; rfl, by simp, hword', hrest, by simp⟩
      | cons b blanks =>
        have hends : Ends s := by
          rw [hsplit]
          exact ends_cons (hblanks b List.mem_cons_self) _
        exact ⟨[], [c], s, rfl, by simp, by simpa using hc, hends, by simp⟩

/-- A word in front is read as it is. -/
theorem words_append {word s : Text} (hne : word ≠ []) (hword : ∀ c ∈ word, isSpace c = false)
    (hs : Ends s) (k : ℕ) : words (k + 1) (word ++ s) = word :: words k s := by
  cases word with
  | nil => exact absurd rfl hne
  | cons c rest =>
    have hskip : skipSpace (c :: rest ++ s) = c :: rest ++ s :=
      skipSpace_word (hword c List.mem_cons_self) (rest ++ s)
    rw [words, hskip, scanWord_append hword hs]

theorem words_succ (k : ℕ) (s : Text) :
    words (k + 1) s =
      if firstWord s = [] then [] else firstWord s :: words k ((skipSpace s).drop (firstWord s).length) := by
  have hrest : (scanWord none (skipSpace s)).2 = (skipSpace s).drop (firstWord s).length := rfl
  rw [words, ← hrest, firstWord]
  cases scanWord none (skipSpace s) with
  | mk word rest =>
    cases word with
    | nil => rfl
    | cons c word => rw [if_neg (List.cons_ne_nil c word)]

theorem length_firstWord_le (s : Text) : (firstWord s).length ≤ (skipSpace s).length :=
  (List.takeWhile_sublist _).length_le

/-- The words fit into the text. -/
theorem length_words_le (k : ℕ) (s : Text) : ((words k s).map List.length).sum ≤ s.length := by
  induction k generalizing s with
  | zero => exact Nat.zero_le _
  | succ k ih =>
    rw [words_succ]
    split
    · exact Nat.zero_le _
    · have hword := length_firstWord_le s
      have hskip : (skipSpace s).length ≤ s.length := (List.dropWhile_sublist _).length_le
      have hrest := ih ((skipSpace s).drop (firstWord s).length)
      rw [List.length_drop] at hrest
      rw [List.map_cons, List.sum_cons]
      omega

/-- White space at the end does not matter. -/
theorem words_append_spaces {blanks : Text} (h : ∀ c ∈ blanks, isSpace c) (k : ℕ) (s : Text) :
    words k (s ++ blanks) = words k s := by
  induction k generalizing s with
  | zero => rfl
  | succ k ih =>
    obtain ⟨front, word, rest, rfl, hfront, hword, hrest, hnil⟩ := exists_split s
    rw [List.append_assoc, words_spaces hfront, words_spaces hfront, List.append_assoc]
    by_cases hne : word = []
    · have hspaces := words_spaces h (k + 1) []
      rw [List.append_nil, words_nil] at hspaces
      rw [hne, hnil hne, List.nil_append, List.nil_append, List.nil_append, hspaces, words_nil]
    · rw [words_append hne hword (hrest.append (ends_of_spaces h)), words_append hne hword hrest, ih]

/-- Directives that assign nothing. -/
def Directive.Silent : Directive → Prop
  | space | literal _ => True
  | hex | word _ => False

theorem scan_silent {rest : List Directive} (h : ∀ d ∈ rest, d.Silent) (s : Text) :
    scan rest s = [] := by
  induction rest generalizing s with
  | nil => rfl
  | cons d rest ih =>
    have hrest : ∀ d ∈ rest, d.Silent := fun d' hd => h d' (List.mem_cons_of_mem d hd)
    cases d with
    | space => exact ih hrest (skipSpace s)
    | literal c =>
      unfold scan
      split
      case h_1 => rfl
      case h_2 c' s' =>
        split
        · exact ih hrest s'
        · rfl
    | hex => exact absurd (h .hex List.mem_cons_self) id
    | word width => exact absurd (h (.word width) List.mem_cons_self) id

/-- A format that ends in `%s` conversions yields the words of the text. -/
theorem scan_words (k : ℕ) {rest : List Directive} (h : ∀ d ∈ rest, d.Silent) (s : Text) :
    scan (List.replicate k (.word none) ++ rest) s = (words k s).map .text := by
  induction k generalizing s with
  | zero => exact scan_silent h s
  | succ k ih =>
    rw [List.replicate_succ, List.cons_append, scan, words]
    split
    · rfl
    · rw [ih, List.map_cons]

end CompSys.Scanf
