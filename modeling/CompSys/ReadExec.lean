import CompSys.Scanf
import CompSys.SimMemoryBytes
import Mathlib.Data.List.Induction

/-!
# Loading a disassembly

`read_exec` in `read_exec.c`, one line of the file at a time. A line of hex words is
data, a line with an address and a colon is an instruction, and the symbol `_start`
tells where the program starts.
-/
namespace CompSys.ReadExec

open Scanf (Text Directive Value char)

/-- A word that does not fit into its row of `hexes` is written over what follows it; a
store to an unaligned address exits. -/
inductive Stop where
  | overflow
  | unaligned
deriving DecidableEq

/-- What a line may change: the memory, the texts given to `assembly_set`, and the start. -/
structure Loader where
  mem : SimMemory
  texts : List (Word × Text)
  startAddr : Word

/-! ## Hex words -/

def isHex (c : BitVec 8) : Bool :=
  (decide (0x30 ≤ c.toNat) && decide (c.toNat ≤ 0x39)) ||
    (decide (0x61 ≤ c.toNat) && decide (c.toNat ≤ 0x66))

def toHex (c : BitVec 8) : ℕ :=
  if 0x30 ≤ c.toNat ∧ c.toNat ≤ 0x39 then c.toNat - 0x30
  else if 0x61 ≤ c.toNat ∧ c.toNat ≤ 0x66 then c.toNat - 0x61 + 10
  else if 0x41 ≤ c.toNat ∧ c.toNat ≤ 0x46 then c.toNat - 0x41 + 10
  else 0

def toHex2 (a b : BitVec 8) : Word := BitVec.ofNat 32 (toHex a * 16 + toHex b)

/-- The loops over the rows, with `num` digits counted so far. A row that has not eight
hex digits is the last one. -/
def countLoop : List Text → ℕ → ℕ
  | [], num => num / 2
  | row :: rest, num =>
    let digits := ((row.take 8).takeWhile isHex).length
    if digits = 8 then countLoop rest (num + 8) else (num + digits) / 2

def countHexes (hexes : List Text) : ℕ := countLoop hexes 0

/-- `hexes[block][disp]`; behind the characters of a row stands a NUL. -/
def hexAt (hexes : List Text) (block disp : ℕ) : BitVec 8 := (hexes.getD block []).getD disp 0

/-- The `for` loop over the bytes of a line, from the `i`-th one on. -/
def storeLoop (hexes : List Text) : ℕ → ℕ → Word → SimMemory → SimMemory
  | 0, _, _, mem => mem
  | turns + 1, i, addr, mem =>
    let block := i / 4
    let disp := i % 4 * 2
    let data := toHex2 (hexAt hexes block disp) (hexAt hexes block (disp + 1))
    storeLoop hexes turns (i + 1) (addr + 1) (mem.memoryWrB addr data)

/-! ## Lines -/

/-- `" %x %s%s%s%s*c[ ]*c[]"`. -/
def dataFormat : List Directive :=
  [.space, .hex, .space] ++ List.replicate 4 (.word none) ++
    [.literal (char '*'), .literal (char 'c'), .literal (char '['), .space, .literal (char ']'),
      .literal (char '*'), .literal (char 'c'), .literal (char '['), .literal (char ']')]

/-- `" %x: %x %7s %15s %23s"`. -/
def insnFormat : List Directive :=
  [.space, .hex, .literal (char ':'), .space, .hex, .space, .word (some 7), .space,
    .word (some 15), .space, .word (some 23)]

/-- `"%x <%s"`. -/
def entryFormat : List Directive := [.hex, .space, .literal (char '<'), .word none]

/-- `%-8s` and the like. -/
def padded (width : ℕ) (s : Text) : Text := s ++ List.replicate (width - s.length) (char ' ')

/-- The text for the opcode and the arguments that were found. -/
def insnText : List Text → Text
  | [opcode] => padded 8 opcode
  | [opcode, args] => padded 8 opcode ++ char ' ' :: padded 16 args
  | [opcode, args, rest] =>
    padded 8 opcode ++ char ' ' :: padded 16 args ++ char ' ' :: padded 24 rest
  | _ => []

/-- `_start>:`. -/
def startSymbol : Text := "_start>:".toList.map char

def readEntry (st : Loader) (line : Text) : Loader :=
  match Scanf.scan entryFormat line with
  | [.number addr, .text symbol] =>
    if symbol = startSymbol then { st with startAddr := addr } else st
  | _ => st

def readInsn (st : Loader) (line : Text) : Except Stop Loader :=
  match Scanf.scan insnFormat line with
  | .number addr :: .number a :: found =>
    match st.mem.memoryWrW addr a with
    | none => .error .unaligned
    | some mem =>
      let words := found.filterMap Value.text?
      if words = [] then .ok { st with mem := mem }
      else .ok { st with mem := mem, texts := st.texts ++ [(addr, insnText words)] }
  | _ => .ok (readEntry st line)

/-- The body of the `while` loop for a line without its newline. -/
def readLine (st : Loader) (line : Text) : Except Stop Loader :=
  match Scanf.scan dataFormat line with
  | .number addr :: found =>
    let hexes := found.filterMap Value.text?
    if hexes.any fun row => decide (8 < row.length) then .error .overflow
    else
      let numHex := countHexes hexes
      if numHex ≠ 0 then .ok { st with mem := storeLoop hexes numHex 0 addr st.mem }
      else readInsn st line
  | _ => readInsn st line

def newline : BitVec 8 := char '\n'

/-- `fgets` with room for `n` characters: the line with its newline, and the rest of the file. -/
def fgets : ℕ → Text → Text × Text
  | 0, s => ([], s)
  | _ + 1, [] => ([], [])
  | n + 1, c :: s =>
    if c = newline then ([c], s)
    else
      let (line, rest) := fgets n s
      (c :: line, rest)

/-- A trailing newline is removed. -/
def chop (line : Text) : Text :=
  if line.getLast? = some newline then line.dropLast else line

/-- One turn of the `while` loop; `MAXLINE` counts the terminating NUL. -/
def iteration (st : Loader) (file : Text) : Except Stop (Loader × Text) :=
  let (line, rest) := fgets 1023 file
  (readLine st (chop line)).map fun st => (st, rest)

/-! ## What the rows stand for -/

def pairs : Text → List (BitVec 8)
  | a :: b :: s => BitVec.ofNat 8 (toHex a * 16 + toHex b) :: pairs s
  | _ => []

/-- The bytes of the rows, up to the first character that is not a hex digit. -/
def decode : List Text → List (BitVec 8)
  | [] => []
  | row :: rest =>
    let digits := (row.take 8).takeWhile isHex
    if digits.length = 8 then pairs digits ++ decode rest else pairs digits

/-- The byte that the loop stores in turn `i`. -/
def byteAt (hexes : List Text) (i : ℕ) : BitVec 8 :=
  BitVec.ofNat 8 (toHex (hexAt hexes (i / 4) (i % 4 * 2)) * 16 +
    toHex (hexAt hexes (i / 4) (i % 4 * 2 + 1)))

theorem length_pairs (s : Text) : (pairs s).length = s.length / 2 := by
  induction s using List.twoStepInduction with
  | nil => rfl
  | singleton => simp [pairs]
  | cons_cons a b s ih =>
    rw [pairs, List.length_cons, ih, List.length_cons, List.length_cons]
    omega

theorem getElem?_pairs (s : Text) (i : ℕ) (hi : i < (pairs s).length) :
    (pairs s)[i]? = some (BitVec.ofNat 8 (toHex (s.getD (i * 2) 0) * 16 +
      toHex (s.getD (i * 2 + 1) 0))) := by
  induction s using List.twoStepInduction generalizing i with
  | nil => cases hi
  | singleton => cases hi
  | cons_cons a b s ih =>
    cases i with
    | zero => rfl
    | succ i =>
      rw [pairs, List.length_cons] at hi
      have hnext := ih i (Nat.lt_of_succ_lt_succ hi)
      have hindex : (i + 1) * 2 = i * 2 + 1 + 1 := by omega
      rw [pairs, List.getElem?_cons_succ, hnext, hindex, List.getD_cons_succ, List.getD_cons_succ,
        List.getD_cons_succ, List.getD_cons_succ]

theorem countLoop_eq (hexes : List Text) (m : ℕ) :
    countLoop hexes (2 * m) = m + (decode hexes).length := by
  induction hexes generalizing m with
  | nil =>
    rw [countLoop, decode, List.length_nil]
    omega
  | cons row rest ih =>
    simp only [countLoop, decode]
    split
    case isTrue hfull =>
      have hnext : 2 * m + 8 = 2 * (m + 4) := by omega
      rw [hnext, ih, List.length_append, length_pairs, hfull]
      omega
    case isFalse =>
      rw [length_pairs]
      omega

theorem countHexes_eq (hexes : List Text) : countHexes hexes = (decode hexes).length := by
  have h := countLoop_eq hexes 0
  rwa [Nat.mul_zero, Nat.zero_add] at h

/-- The digits of a row are its first characters. -/
theorem digits_getD {row : Text} {i : ℕ} (h : i < ((row.take 8).takeWhile isHex).length) :
    ((row.take 8).takeWhile isHex).getD i 0 = row.getD i 0 := by
  have hprefix : (row.take 8).takeWhile isHex <+: row :=
    (List.takeWhile_prefix isHex).trans (List.take_prefix 8 row)
  obtain ⟨t, ht⟩ := hprefix
  have happend := List.getD_append ((row.take 8).takeWhile isHex) t 0 i h
  rw [ht] at happend
  exact happend.symm

theorem byteAt_row (row : Text) (rest : List Text) {i : ℕ} (hi : i < 4) :
    byteAt (row :: rest) i =
      BitVec.ofNat 8 (toHex (row.getD (i * 2) 0) * 16 + toHex (row.getD (i * 2 + 1) 0)) := by
  have hblock : i / 4 = 0 := Nat.div_eq_of_lt hi
  have hdisp : i % 4 = i := Nat.mod_eq_of_lt hi
  rw [byteAt, hblock, hdisp]
  rfl

theorem byteAt_rest (row : Text) (rest : List Text) (i : ℕ) :
    byteAt (row :: rest) (i + 4) = byteAt rest i := by
  have hblock : (i + 4) / 4 = i / 4 + 1 := by omega
  have hdisp : (i + 4) % 4 = i % 4 := by omega
  rw [byteAt, hblock, hdisp]
  rfl

theorem decode_getElem? (hexes : List Text) (i : ℕ) (hi : i < (decode hexes).length) :
    (decode hexes)[i]? = some (byteAt hexes i) := by
  induction hexes generalizing i with
  | nil => cases hi
  | cons row rest ih =>
    have hdigits : ((row.take 8).takeWhile isHex).length ≤ 8 :=
      (List.takeWhile_sublist isHex).length_le.trans (List.length_take_le 8 row)
    -- the bytes of the first row
    have hrow : ∀ j, j < (pairs ((row.take 8).takeWhile isHex)).length →
        (pairs ((row.take 8).takeWhile isHex))[j]? = some (byteAt (row :: rest) j) := by
      intro j hj
      have hlength := length_pairs ((row.take 8).takeWhile isHex)
      rw [getElem?_pairs _ j hj, byteAt_row row rest (by omega), digits_getD (by omega),
        digits_getD (by omega)]
    simp only [decode] at hi ⊢
    split
    case isTrue hfull =>
      rw [if_pos hfull, List.length_append, length_pairs, hfull] at hi
      by_cases hfirst : i < 4
      · have hj : i < (pairs ((row.take 8).takeWhile isHex)).length := by
          rw [length_pairs, hfull]
          exact hfirst
        rw [List.getElem?_append_left hj]
        exact hrow i hj
      · obtain ⟨j, rfl⟩ := Nat.exists_eq_add_of_le' (Nat.le_of_not_lt hfirst)
        have hlength : (pairs ((row.take 8).takeWhile isHex)).length = 4 := by
          rw [length_pairs, hfull]
        rw [List.getElem?_append_right (by omega), hlength, Nat.add_sub_cancel, byteAt_rest]
        exact ih j (by omega)
    case isFalse hpart =>
      rw [if_neg hpart] at hi
      exact hrow i hi

/-! ## Storing them -/

theorem bytes_memoryWrB_hex (mem : SimMemory) (addr : Word) (a b : BitVec 8) :
    (mem.memoryWrB addr (toHex2 a b)).bytes =
      ByteMemory.writeB mem.bytes addr (BitVec.ofNat 8 (toHex a * 16 + toHex b)) := by
  have hlow (n : ℕ) : (BitVec.ofNat 32 n).extractLsb' 0 8 = BitVec.ofNat 8 n := by
    apply BitVec.eq_of_toNat_eq
    rw [BitVec.extractLsb'_toNat, Nat.shiftRight_zero, BitVec.toNat_ofNat, BitVec.toNat_ofNat]
    omega
  rw [SimMemory.bytes_memoryWrB, toHex2, hlow]

/-- The loop writes one byte after the other. -/
theorem storeLoop_bytes (hexes : List Text) (turns i : ℕ) (addr : Word) (mem : SimMemory) :
    (storeLoop hexes turns i addr mem).bytes =
      ByteMemory.writeBytes mem.bytes addr ((List.range' i turns).map (byteAt hexes)) := by
  induction turns generalizing i addr mem with
  | zero => rfl
  | succ turns ih =>
    rw [storeLoop, ih, bytes_memoryWrB_hex, List.range'_succ, List.map_cons]
    rfl

theorem storeLoop_decode (hexes : List Text) (addr : Word) (mem : SimMemory) :
    (storeLoop hexes (countHexes hexes) 0 addr mem).bytes =
      ByteMemory.writeBytes mem.bytes addr (decode hexes) := by
  have hbytes : (List.range' 0 (decode hexes).length).map (byteAt hexes) = decode hexes := by
    apply List.ext_getElem?
    intro i
    by_cases hi : i < (decode hexes).length
    · rw [decode_getElem? hexes i hi, List.getElem?_map, List.getElem?_range' hi]
      simp
    · rw [List.getElem?_eq_none (by simpa using hi), List.getElem?_eq_none (by omega)]
  rw [storeLoop_bytes, countHexes_eq, hbytes]

/-! ## Reading a line -/

theorem fgets_line {line : Text} (hline : newline ∉ line) {n : ℕ} (hn : line.length < n)
    (rest : Text) : fgets n (line ++ newline :: rest) = (line ++ [newline], rest) := by
  induction line generalizing n with
  | nil =>
    cases n with
    | zero => cases hn
    | succ n => simp [fgets]
  | cons c line ih =>
    cases n with
    | zero => cases hn
    | succ n =>
      have hc : c ≠ newline := fun heq => hline (heq ▸ List.mem_cons_self)
      have hrest : newline ∉ line := fun hmem => hline (List.mem_cons_of_mem c hmem)
      rw [List.cons_append, fgets, if_neg hc, ih hrest (Nat.lt_of_succ_lt_succ hn)]
      rfl

theorem chop_line (line : Text) : chop (line ++ [newline]) = line := by
  simp [chop]

/-- A short line that ends with a newline is read as it is. -/
theorem iteration_line (st : Loader) {line : Text} (hline : newline ∉ line)
    (hlength : line.length < 1023) (rest : Text) :
    iteration st (line ++ newline :: rest) = (readLine st line).map fun st => (st, rest) := by
  simp only [iteration, fgets_line hline hlength, chop_line]

end CompSys.ReadExec
