import Mathlib.Algebra.BigOperators.Group.List.Basic
import CompSys.SimMemoryBytes

/-!
# Passing arguments to the simulated program

`pass_args_to_program` in `main.c`: the arguments from `--` on are copied to the
simulated memory, behind their number and a table of pointers to them.
-/
namespace CompSys.PassArgs

open ByteMemory

/-- A string of C: its bytes up to the terminating NUL. -/
structure CString where
  bytes : List (BitVec 8)
  noNul : 0 ∉ bytes

namespace CString

def stored (s : CString) : List (BitVec 8) := s.bytes ++ [0]

def size (s : CString) : ℕ := s.bytes.length + 1

theorem length_stored (s : CString) : s.stored.length = s.size := by
  simp [stored, size]

end CString

/-- `--`. -/
def separator : List (BitVec 8) := [0x2d, 0x2d]

/-- The `while` loop over the arguments that are left: the position where it stops, and
`seperator_found`. -/
def findSeparator : List CString → ℕ → ℕ × Bool
  | [], pos => (pos, false)
  | arg :: rest, pos =>
    if arg.bytes = separator then (pos, true) else findSeparator rest (pos + 1)

/-- The `do` loop, with the bytes that are left before the NUL; a char is signed. -/
def copyString (mem : SimMemory) (strAddr : Word) : List (BitVec 8) → SimMemory × Word
  | [] => (mem.memoryWrB strAddr 0, strAddr + 1)
  | cp :: rest =>
    let c : Word := cp.signExtend 32
    if c ≠ 0 then copyString (mem.memoryWrB strAddr c) (strAddr + 1) rest
    else (mem.memoryWrB strAddr c, strAddr + 1)

/-- The `for` loop over the arguments that are left; `none` is an exit. -/
def passLoop (argvAddr : Word) : List CString → ℕ → Word → SimMemory → Option SimMemory
  | [], _, _, mem => some mem
  | arg :: rest, index, strAddr, mem =>
    match mem.memoryWrW (argvAddr + 4 * BitVec.ofNat 32 index) strAddr with
    | none => none
    | some mem =>
      let (mem, strAddr) := copyString mem strAddr arg.bytes
      passLoop argvAddr rest (index + 1) strAddr mem

/-- The memory after the call, and the position that is returned. -/
def passArgsToProgram (mem : SimMemory) (argv : List CString) : Option (SimMemory × ℕ) :=
  let (position, found) := findSeparator (argv.drop 1) 1
  if found then
    let numArgs := argv.length - position
    let countAddr : Word := 0x1000000
    let argvAddr : Word := 0x1000004
    let strAddr := argvAddr + 4 * BitVec.ofNat 32 numArgs
    match mem.memoryWrW countAddr (BitVec.ofNat 32 numArgs) with
    | none => none
    | some mem =>
      (passLoop argvAddr (argv.drop position) 0 strAddr mem).map fun mem => (mem, position)
  else some (mem, position)

/-! ## The separator -/

theorem findSeparator_none {args : List CString} (h : ∀ arg ∈ args, arg.bytes ≠ separator)
    (pos : ℕ) : findSeparator args pos = (pos + args.length, false) := by
  induction args generalizing pos with
  | nil => rfl
  | cons arg rest ih =>
    have hrest : ∀ arg' ∈ rest, arg'.bytes ≠ separator :=
      fun arg' hmem => h arg' (List.mem_cons_of_mem arg hmem)
    rw [findSeparator, if_neg (h arg List.mem_cons_self), ih hrest, List.length_cons]
    congr 1
    omega

theorem findSeparator_first {args : List CString} {i : ℕ} {arg : CString}
    (hi : args[i]? = some arg) (harg : arg.bytes = separator)
    (hbefore : ∀ q arg', q < i → args[q]? = some arg' → arg'.bytes ≠ separator) (pos : ℕ) :
    findSeparator args pos = (pos + i, true) := by
  induction args generalizing i pos with
  | nil => cases hi
  | cons first rest ih =>
    cases i with
    | zero =>
      cases hi
      rw [findSeparator, if_pos harg, Nat.add_zero]
    | succ i =>
      have hfirst : first.bytes ≠ separator := hbefore 0 first (Nat.succ_pos i) rfl
      have hrest : ∀ q arg', q < i → rest[q]? = some arg' → arg'.bytes ≠ separator :=
        fun q arg' hq hget => hbefore (q + 1) arg' (Nat.succ_lt_succ hq) hget
      rw [findSeparator, if_neg hfirst, ih hi hrest]
      congr 1
      omega

/-! ## One string -/

/-- A char is zero only if its byte is. -/
theorem signExtend_ne_zero {b : BitVec 8} (h : b ≠ 0) : b.signExtend 32 ≠ (0 : Word) := by
  intro hzero
  apply h
  have hback := BitField.extract_signExtend b 0 8 (by decide) (by decide : 8 ≤ 32)
  rw [hzero, BitVec.extractLsb'_eq_self] at hback
  exact hback.symm

theorem bytes_memoryWrB_char (mem : SimMemory) (addr : Word) (b : BitVec 8) :
    (mem.memoryWrB addr (b.signExtend 32)).bytes = writeB mem.bytes addr b := by
  rw [SimMemory.bytes_memoryWrB, BitField.extract_signExtend b 0 8 (by decide) (by decide),
    BitVec.extractLsb'_eq_self]

/-- The loop writes the bytes and the NUL, and stops behind it. -/
theorem copyString_spec {l : List (BitVec 8)} (h : 0 ∉ l) (mem : SimMemory) (strAddr : Word) :
    (copyString mem strAddr l).1.bytes = writeBytes mem.bytes strAddr (l ++ [0]) ∧
      (copyString mem strAddr l).2 = strAddr + BitVec.ofNat 32 (l.length + 1) := by
  induction l generalizing mem strAddr with
  | nil => exact ⟨SimMemory.bytes_memoryWrB mem strAddr 0, rfl⟩
  | cons cp rest ih =>
    have hcp : cp ≠ 0 := fun heq => h (heq ▸ List.mem_cons_self)
    have hrest : 0 ∉ rest := fun hmem => h (List.mem_cons_of_mem cp hmem)
    obtain ⟨hbytes, hnext⟩ :=
      ih hrest (mem.memoryWrB strAddr (cp.signExtend 32)) (strAddr + 1)
    simp only [copyString, ne_eq, signExtend_ne_zero hcp, not_false_eq_true, if_true]
    rw [hbytes, hnext, bytes_memoryWrB_char]
    exact ⟨rfl, (ofNat_succ_eq strAddr (rest.length + 1)).symm⟩

/-! ## The table and the strings -/

/-- The room that the strings take, one behind the other. -/
def room (args : List CString) : ℕ := (args.map CString.size).sum

theorem room_cons (arg : CString) (rest : List CString) : room (arg :: rest) = arg.size + room rest := by
  rw [room, List.map_cons, List.sum_cons, ← room]

/-- From `slot` on pointers to the strings, which stand from `s` on. -/
def Laid (m : Bytes 32) : List CString → ℕ → ℕ → Prop
  | [], _, _ => True
  | arg :: rest, slot, s =>
    readW m (BitVec.ofNat 32 slot) = BitVec.ofNat 32 s ∧
      Holds m (BitVec.ofNat 32 s) arg.stored ∧ Laid m rest (slot + 4) (s + arg.size)

/-- An entry of the table of pointers. -/
theorem slot_address (i : ℕ) :
    (0x1000004 : Word) + 4 * BitVec.ofNat 32 i = BitVec.ofNat 32 (0x1000004 + 4 * i) := by
  rw [BitVec.ofNat_add, BitVec.ofNat_mul]
  rfl

theorem toNat_address {n : ℕ} (h : n < 2 ^ 32) : (BitVec.ofNat 32 n).toNat = n := by
  rw [BitVec.toNat_ofNat, Nat.mod_eq_of_lt h]

theorem inArea_address {s n : ℕ} {c : Word} (hs : s < 2 ^ 32) (h : s + n ≤ 2 ^ 32) :
    InArea (BitVec.ofNat 32 s) n c ↔ s ≤ c.toNat ∧ c.toNat < s + n := by
  have hsum : (BitVec.ofNat 32 s).toNat + n ≤ 2 ^ 32 := by rwa [toNat_address hs]
  rw [inArea_iff hsum, toNat_address hs]

/-- The rest of the loop writes the rest of the table and of the strings, and nothing else. -/
theorem passLoop_spec (args : List CString) (index s : ℕ) (mem : SimMemory)
    (htable : 0x1000004 + 4 * (index + args.length) ≤ s) (hroom : s + room args ≤ 2 ^ 32) :
    ∃ mem', passLoop 0x1000004 args index (BitVec.ofNat 32 s) mem = some mem' ∧
      Laid mem'.bytes args (0x1000004 + 4 * index) s ∧
      ∀ c : Word, ¬(0x1000004 + 4 * index ≤ c.toNat ∧ c.toNat < 0x1000004 + 4 * (index + args.length)) →
        ¬(s ≤ c.toNat ∧ c.toNat < s + room args) → mem'.bytes c = mem.bytes c := by
  induction args generalizing index s mem with
  | nil => exact ⟨mem, rfl, trivial, fun _ _ _ => rfl⟩
  | cons arg rest ih =>
    rw [room_cons] at hroom
    rw [List.length_cons] at htable
    have hsize : 0 < arg.size := Nat.succ_pos _
    have hnext : BitVec.ofNat 32 s + BitVec.ofNat 32 arg.size = BitVec.ofNat 32 (s + arg.size) :=
      (BitVec.ofNat_add s arg.size).symm
    have haligned : (BitVec.ofNat 32 (0x1000004 + 4 * index)).toNat % 4 = 0 := by
      rw [BitVec.toNat_ofNat]
      omega
    obtain ⟨mem₁, hwrite, hbytes₁⟩ := SimMemory.bytes_memoryWrW mem _ (BitVec.ofNat 32 s) haligned
    obtain ⟨hbytes₂, hstr⟩ := copyString_spec arg.noNul mem₁ (BitVec.ofNat 32 s)
    rw [← CString.size, hnext] at hstr
    rw [← CString.stored] at hbytes₂
    obtain ⟨mem', hrun, hlaid, hframe⟩ := ih (index + 1) (s + arg.size)
      (copyString mem₁ (BitVec.ofNat 32 s) arg.bytes).1 (by omega) (by omega)
    have hs : s < 2 ^ 32 := by omega
    have hslots : 0x1000004 + 4 * index < 2 ^ 32 := by omega
    -- the string at hand lies behind the table, before the strings that follow
    have hstring : ∀ c : Word, ¬(s ≤ c.toNat ∧ c.toNat < s + arg.size) →
        (copyString mem₁ (BitVec.ofNat 32 s) arg.bytes).1.bytes c = mem₁.bytes c := by
      intro c hc
      rw [hbytes₂]
      apply writeBytes_other
      rwa [CString.length_stored, inArea_address hs (by omega)]
    have hpointer : ∀ c : Word,
        ¬(0x1000004 + 4 * index ≤ c.toNat ∧ c.toNat < 0x1000004 + 4 * index + 4) →
        mem₁.bytes c = mem.bytes c := by
      intro c hc
      rw [hbytes₁, writeW_eq]
      apply writeBytes_other
      rwa [length_wordBytes, inArea_address hslots (by omega)]
    refine ⟨mem', ?_, ⟨?_, ?_, ?_⟩, ?_⟩
    · rw [passLoop, slot_address, hwrite]
      simp only [hstr]
      exact hrun
    · rw [← holds_wordBytes]
      have hheld := holds_writeW (by decide) mem.bytes (BitVec.ofNat 32 (0x1000004 + 4 * index))
        (BitVec.ofNat 32 s)
      rw [← hbytes₁] at hheld
      refine hheld.congr fun c hc => ?_
      have harea : 0x1000004 + 4 * index ≤ c.toNat ∧ c.toNat < 0x1000004 + 4 * index + 4 :=
        (inArea_address hslots (by omega)).mp hc
      rw [hframe c (by omega) (by omega), hstring c (by omega)]
    · have hlength : arg.stored.length ≤ 2 ^ 32 := by
        rw [CString.length_stored]
        omega
      have hheld := holds_writeBytes hlength mem₁.bytes (BitVec.ofNat 32 s)
      rw [← hbytes₂] at hheld
      refine hheld.congr fun c hc => ?_
      rw [CString.length_stored, inArea_address hs (by omega)] at hc
      exact hframe c (by omega) (by omega)
    · have hnextSlot : 0x1000004 + 4 * index + 4 = 0x1000004 + 4 * (index + 1) := by omega
      rw [hnextSlot]
      exact hlaid
    · intro c htab hstr'
      rw [List.length_cons] at htab
      rw [room_cons] at hstr'
      rw [hframe c (by omega) (by omega), hstring c (by omega), hpointer c (by omega)]

theorem Laid.get {m : Bytes 32} {args : List CString} {slot s : ℕ} (h : Laid m args slot s)
    (i : ℕ) (hi : i < args.length) :
    readW m (BitVec.ofNat 32 (slot + 4 * i)) = BitVec.ofNat 32 (s + room (args.take i)) ∧
      Holds m (BitVec.ofNat 32 (s + room (args.take i))) args[i].stored := by
  induction args generalizing slot s i with
  | nil => cases hi
  | cons arg rest ih =>
    obtain ⟨hpointer, hstring, hrest⟩ := h
    cases i with
    | zero => exact ⟨hpointer, hstring⟩
    | succ i =>
      have hslot : slot + 4 * (i + 1) = slot + 4 + 4 * i := by omega
      have hplace : s + room ((arg :: rest).take (i + 1)) = s + arg.size + room (rest.take i) := by
        rw [List.take_succ_cons, room_cons]
        omega
      rw [hslot, hplace]
      exact ih hrest i (Nat.lt_of_succ_lt_succ hi)

/-- A string ends before the next ones start. -/
theorem room_take {args : List CString} {i j : ℕ} (hij : i < j) (hj : j ≤ args.length)
    (hi : i < args.length) : room (args.take i) + args[i].size ≤ room (args.take j) := by
  induction args generalizing i j with
  | nil => cases hi
  | cons arg rest ih =>
    obtain ⟨j, rfl⟩ := Nat.exists_eq_succ_of_ne_zero (Nat.ne_of_gt (Nat.zero_lt_of_lt hij))
    rw [List.take_succ_cons, room_cons]
    cases i with
    | zero => simp [room]
    | succ i =>
      rw [List.take_succ_cons, room_cons, List.getElem_cons_succ]
      have hle := ih (Nat.lt_of_succ_lt_succ hij) (Nat.le_of_succ_le_succ hj)
        (Nat.lt_of_succ_lt_succ hi)
      omega

theorem room_take_le (args : List CString) (i : ℕ) (hi : i < args.length) :
    room (args.take i) + args[i].size ≤ room args := by
  have h := room_take hi le_rfl hi
  rwa [List.take_length] at h

/-! ## What the program finds -/

/-- The pointer that the table has for an argument. -/
def pointer (m : Bytes 32) (i : ℕ) : Word := readW m (0x1000004 + 4 * BitVec.ofNat 32 i)

/-- The program finds the arguments: their number, and for each a pointer to a copy. -/
structure Passed (m : Bytes 32) (args : List CString) : Prop where
  count : readW m 0x1000000 = BitVec.ofNat 32 args.length
  string : ∀ i (hi : i < args.length), Holds m (pointer m i) args[i].stored
  apart : ∀ i j (hi : i < args.length) (hj : j < args.length), i ≠ j →
    ∀ c, InArea (pointer m i) args[i].size c → ¬ InArea (pointer m j) args[j].size c
  table : ∀ i (hi : i < args.length) c, InArea (pointer m i) args[i].size c →
    ¬ InArea 0x1000000 (4 + 4 * args.length) c

theorem passed_of_laid {m : Bytes 32} {args : List CString}
    (hroom : 0x1000004 + 4 * args.length + room args ≤ 2 ^ 32)
    (hcount : readW m 0x1000000 = BitVec.ofNat 32 args.length)
    (hlaid : Laid m args 0x1000004 (0x1000004 + 4 * args.length)) : Passed m args := by
  have hpointer (i : ℕ) (hi : i < args.length) : pointer m i =
      BitVec.ofNat 32 (0x1000004 + 4 * args.length + room (args.take i)) := by
    rw [pointer, slot_address]
    exact (hlaid.get i hi).1
  have harea (i : ℕ) (hi : i < args.length) (c : Word) : InArea (pointer m i) args[i].size c ↔
      0x1000004 + 4 * args.length + room (args.take i) ≤ c.toNat ∧
        c.toNat < 0x1000004 + 4 * args.length + room (args.take i) + args[i].size := by
    have hle := room_take_le args i hi
    have hsize : 0 < args[i].size := Nat.succ_pos _
    rw [hpointer i hi, inArea_address (by omega) (by omega)]
  constructor
  case count => exact hcount
  case string =>
    intro i hi
    rw [hpointer i hi]
    exact (hlaid.get i hi).2
  case apart =>
    intro i j hi hj hne c hci hcj
    rw [harea i hi] at hci
    rw [harea j hj] at hcj
    rcases Nat.lt_or_gt_of_ne hne with hlt | hgt
    · have hbefore := room_take hlt (Nat.le_of_lt hj) hi
      omega
    · have hbefore := room_take hgt (Nat.le_of_lt hi) hj
      omega
  case table =>
    intro i hi c hc htable
    have haddress : (0x1000000 : Word) = BitVec.ofNat 32 0x1000000 := rfl
    rw [harea i hi] at hc
    rw [haddress, inArea_address (by omega) (by omega)] at htable
    omega

/-- `--` stands at `p`, and at no position before it except perhaps the first of all. -/
structure FirstSeparator (argv : List CString) (p : ℕ) : Prop where
  pos : 1 ≤ p
  found : ∃ arg, argv[p]? = some arg ∧ arg.bytes = separator
  first : ∀ q arg, 1 ≤ q → q < p → argv[q]? = some arg → arg.bytes ≠ separator

theorem FirstSeparator.findSeparator_eq {argv : List CString} {p : ℕ} (h : FirstSeparator argv p) :
    findSeparator (argv.drop 1) 1 = (p, true) := by
  obtain ⟨arg, hget, harg⟩ := h.found
  have hpos : 1 + (p - 1) = p := Nat.add_sub_cancel' h.pos
  have hget' : (argv.drop 1)[p - 1]? = some arg := by
    rw [List.getElem?_drop, hpos, hget]
  have hbefore : ∀ q arg', q < p - 1 → (argv.drop 1)[q]? = some arg' → arg'.bytes ≠ separator := by
    intro q arg' hq hq'
    rw [List.getElem?_drop] at hq'
    exact h.first (1 + q) arg' (by omega) (by omega) hq'
  rw [findSeparator_first hget' harg hbefore, hpos]

/-- The arguments from the separator on are passed; without one nothing is written, and the
returned position is `argc`, or 1 if there are no arguments at all. -/
theorem passes_arguments (mem : SimMemory) (argv : List CString) :
    (∀ p, FirstSeparator argv p →
      0x1000004 + 4 * (argv.length - p) + room (argv.drop p) ≤ 2 ^ 32 →
      ∃ mem', passArgsToProgram mem argv = some (mem', p) ∧ Passed mem'.bytes (argv.drop p)) ∧
    ((∀ arg ∈ argv.drop 1, arg.bytes ≠ separator) →
      passArgsToProgram mem argv = some (mem, if argv = [] then 1 else argv.length)) := by
  constructor
  · intro p hp hroom
    rw [← List.length_drop] at hroom
    obtain ⟨mem₁, hwrite, hbytes⟩ := SimMemory.bytes_memoryWrW mem 0x1000000
      (BitVec.ofNat 32 (argv.drop p).length) rfl
    obtain ⟨mem', hrun, hlaid, hframe⟩ := passLoop_spec (argv.drop p) 0
      (0x1000004 + 4 * (argv.drop p).length) mem₁ (by omega) hroom
    refine ⟨mem', ?_, passed_of_laid hroom ?_ hlaid⟩
    · simp only [passArgsToProgram, hp.findSeparator_eq, if_true, ← List.length_drop]
      rw [hwrite, slot_address]
      exact congrArg (Option.map fun mem => (mem, p)) hrun
    · -- the loop writes behind the count
      have haddress : (0x1000000 : Word) = BitVec.ofNat 32 0x1000000 := rfl
      have hheld := holds_writeW (by decide) mem.bytes 0x1000000
        (BitVec.ofNat 32 (argv.drop p).length)
      rw [← hbytes] at hheld
      rw [← holds_wordBytes]
      refine hheld.congr fun c hc => ?_
      rw [length_wordBytes, haddress, inArea_address (by omega) (by omega)] at hc
      exact hframe c (by omega) (by omega)
  · intro hnone
    have hlength : 1 + (argv.drop 1).length = if argv = [] then 1 else argv.length := by
      cases argv with
      | nil => rfl
      | cons arg rest => simp [Nat.add_comm]
    rw [passArgsToProgram, findSeparator_none hnone, hlength]
    rfl

/-- `sim fib.dis -- 7`. -/
def fibArgs : List CString :=
  [⟨[0x73, 0x69, 0x6d], by decide⟩, ⟨[0x66, 0x69, 0x62, 0x2e, 0x64, 0x69, 0x73], by decide⟩,
    ⟨separator, by decide⟩, ⟨[0x37], by decide⟩]

theorem passes_arguments_fib :
    (∃ mem, passArgsToProgram SimMemory.memoryCreate fibArgs = some (mem, 2) ∧
        Passed mem.bytes (fibArgs.drop 2)) ∧
      passArgsToProgram SimMemory.memoryCreate (fibArgs.take 2) = some (SimMemory.memoryCreate, 2) := by
  have hfirst : FirstSeparator fibArgs 2 := by
    refine ⟨by decide, ⟨_, rfl, rfl⟩, ?_⟩
    intro q arg hpos hlt hget
    have hq : q = 1 := by omega
    subst hq
    cases hget
    decide
  constructor
  · exact (passes_arguments SimMemory.memoryCreate fibArgs).1 2 hfirst (by decide)
  · exact (passes_arguments SimMemory.memoryCreate (fibArgs.take 2)).2 (by decide)

/-- With no arguments at all the position 1 is returned. -/
theorem passes_no_arguments :
    passArgsToProgram SimMemory.memoryCreate [] = some (SimMemory.memoryCreate, 1) ∧
      ¬∀ (mem : SimMemory) (argv : List CString),
        (∀ p, FirstSeparator argv p →
          0x1000004 + 4 * (argv.length - p) + room (argv.drop p) ≤ 2 ^ 32 →
          ∃ mem', passArgsToProgram mem argv = some (mem', p) ∧
            Passed mem'.bytes (argv.drop p)) ∧
        ((∀ arg ∈ argv.drop 1, arg.bytes ≠ separator) →
          passArgsToProgram mem argv = some (mem, argv.length)) := by
  refine ⟨rfl, ?_⟩
  intro hall
  have h := (hall SimMemory.memoryCreate []).2 (by simp)
  have hrun : passArgsToProgram SimMemory.memoryCreate [] = some (SimMemory.memoryCreate, 1) := rfl
  rw [hrun] at h
  cases h

end CompSys.PassArgs
