import CompSys.BitField
import CompSys.ByteMemory

/-!
# The simulated memory of A5

`memory.c` keeps the 2^32 bytes as lazily created pages of 16384 ints. Every
access goes through `get_page`, which also creates the page it is asked for;
bytes and halfwords are lanes of an int, selected by masks and shifts.
-/
namespace CompSys

/-- `struct memory`; an absent page is a NULL pointer. -/
structure SimMemory where
  pages : BitVec 16 → Option (BitVec 14 → Word)

namespace SimMemory

def memoryCreate : SimMemory := ⟨fun _ => none⟩

def pageNumber (addr : Word) : BitVec 16 := (addr.sshiftRight 16 &&& 0x0ffff#32).setWidth 16

def wordIndex (addr : Word) : BitVec 14 := (addr.sshiftRight 2 &&& 0x3fff#32).setWidth 14

/-- The page that `get_page` returns: a new page is all zeros. -/
def page (mem : SimMemory) (addr : Word) : BitVec 14 → Word :=
  match mem.pages (pageNumber addr) with
  | some cells => cells
  | none => fun _ => 0

/-- The memory after `get_page`, with the page present. -/
def getPage (mem : SimMemory) (addr : Word) : SimMemory :=
  ⟨Function.update mem.pages (pageNumber addr) (some (mem.page addr))⟩

/-- `page[index] = v` on the page of `get_page`. -/
def setCell (mem : SimMemory) (addr v : Word) : SimMemory :=
  ⟨Function.update mem.pages (pageNumber addr)
    (some (Function.update (mem.page addr) (wordIndex addr) v))⟩

def cell (mem : SimMemory) (addr : Word) : Word := mem.page addr (wordIndex addr)

/-- `none` is the exit on an unaligned address, here and below. -/
def memoryWrW (mem : SimMemory) (addr data : Word) : Option SimMemory :=
  if addr &&& 0x3#32 ≠ 0 then none
  else some (mem.setCell addr data)

def memoryWrH (mem : SimMemory) (addr data : Word) : Option SimMemory :=
  if addr &&& 0x1#32 ≠ 0 then none
  else if addr &&& 2#32 = 0 then
    some (mem.setCell addr ((mem.cell addr &&& 0xffff0000#32) ||| (data &&& 0x0000ffff#32)))
  else
    some (mem.setCell addr ((mem.cell addr &&& 0x0000ffff#32) ||| (data <<< 16)))

def memoryWrB (mem : SimMemory) (addr data : Word) : SimMemory :=
  match (addr &&& 0x3#32).toNat with
  | 0 => mem.setCell addr ((mem.cell addr &&& 0xffffff00#32) ||| (data &&& 0xff#32))
  | 1 => mem.setCell addr ((mem.cell addr &&& 0xffff00ff#32) ||| ((data &&& 0xff#32) <<< 8))
  | 2 => mem.setCell addr ((mem.cell addr &&& 0xff00ffff#32) ||| ((data &&& 0xff#32) <<< 16))
  | _ => mem.setCell addr ((mem.cell addr &&& 0x00ffffff#32) ||| ((data &&& 0xff#32) <<< 24))

/-- Reads return the value and the memory, in which the page now exists. -/
def memoryRdW (mem : SimMemory) (addr : Word) : Option (Word × SimMemory) :=
  if addr &&& 0x3#32 ≠ 0 then none
  else some (mem.cell addr, mem.getPage addr)

def memoryRdH (mem : SimMemory) (addr : Word) : Option (Word × SimMemory) :=
  if addr &&& 0x1#32 ≠ 0 then none
  else if addr &&& 2#32 = 0 then some (mem.cell addr &&& 0xffff#32, mem.getPage addr)
  else some ((mem.cell addr).sshiftRight 16 &&& 0xffff#32, mem.getPage addr)

def memoryRdB (mem : SimMemory) (addr : Word) : Word × SimMemory :=
  match (addr &&& 0x3#32).toNat with
  | 0 => (mem.cell addr &&& 0xff#32, mem.getPage addr)
  | 1 => ((mem.cell addr).sshiftRight 8 &&& 0xff#32, mem.getPage addr)
  | 2 => ((mem.cell addr).sshiftRight 16 &&& 0xff#32, mem.getPage addr)
  | _ => ((mem.cell addr).sshiftRight 24 &&& 0xff#32, mem.getPage addr)

/-! ## Addresses as page, cell and lane -/

theorem pageNumber_eq (addr : Word) : pageNumber addr = addr.extractLsb' 16 16 := by
  have hmask : (0x0ffff#32) = BitField.mask 32 16 := by decide
  rw [pageNumber, hmask, BitField.sshiftRight_and_mask _ _ _ (by decide),
    BitVec.setWidth_setWidth_of_le _ (by decide), BitVec.setWidth_eq]

theorem wordIndex_eq (addr : Word) : wordIndex addr = addr.extractLsb' 2 14 := by
  have hmask : (0x3fff#32) = BitField.mask 32 14 := by decide
  rw [wordIndex, hmask, BitField.sshiftRight_and_mask _ _ _ (by decide),
    BitVec.setWidth_setWidth_of_le _ (by decide), BitVec.setWidth_eq]

theorem lane_toNat (addr : Word) : (addr &&& 0x3#32).toNat = addr.toNat % 4 := by
  rw [BitVec.toNat_and]
  exact Nat.and_two_pow_sub_one_eq_mod addr.toNat 2

theorem word_aligned_iff (addr : Word) : addr &&& 0x3#32 = 0 ↔ addr.toNat % 4 = 0 := by
  rw [← lane_toNat, ← BitVec.toNat_inj]
  rfl

theorem half_aligned_iff (addr : Word) : addr &&& 0x1#32 = 0 ↔ addr.toNat % 2 = 0 := by
  have h : (addr &&& 0x1#32).toNat = addr.toNat % 2 := by
    rw [BitVec.toNat_and]
    exact Nat.and_two_pow_sub_one_eq_mod addr.toNat 1
  rw [← h, ← BitVec.toNat_inj]
  rfl

/-- The test on bit 1 tells the two halves of a word apart. -/
theorem low_half_iff (addr : Word) : addr &&& 2#32 = 0 ↔ addr.toNat % 4 < 2 := by
  have hbit : addr &&& 2#32 = 0 ↔ addr.getLsbD 1 = false := by
    constructor
    · intro h
      have hget := congrArg (fun x : Word => x.getLsbD 1) h
      simpa using hget
    · intro h
      apply BitVec.eq_of_getLsbD_eq
      intro i hi
      by_cases hi1 : i = 1
      · subst hi1
        rw [BitVec.getLsbD_and, h, Bool.false_and]
        rfl
      · have htwo : (2#32).getLsbD i = false := by
          have hpow : 2 = 2 ^ 1 := rfl
          rw [BitVec.getLsbD_ofNat, hpow, Nat.testBit_two_pow_of_ne (by omega)]
          simp
        simp [htwo]
  rw [hbit, BitVec.getLsbD, Nat.testBit_eq_decide_div_mod_eq]
  simp only [decide_eq_false_iff_not]
  omega

/-- Inside a cell, stepping to another lane does not wrap around. -/
theorem toNat_add_lane (addr : Word) (k : Nat) (h : addr.toNat % 4 + k < 4) :
    (addr + BitVec.ofNat 32 k).toNat = addr.toNat + k := by
  have hlt := addr.isLt
  rw [BitVec.toNat_add, BitVec.toNat_ofNat]
  omega

/-- Two addresses meet in one cell when they agree above the lane. -/
theorem same_cell_iff (a b : Word) :
    (pageNumber a = pageNumber b ∧ wordIndex a = wordIndex b) ↔ a.toNat / 4 = b.toNat / 4 := by
  have ha := a.isLt
  have hb := b.isLt
  rw [pageNumber_eq, pageNumber_eq, wordIndex_eq, wordIndex_eq, ← BitVec.toNat_inj,
    ← BitVec.toNat_inj]
  simp only [BitVec.extractLsb'_toNat, Nat.shiftRight_eq_div_pow]
  omega

theorem cell_setCell (mem : SimMemory) (a b v : Word) :
    (mem.setCell a v).cell b = if b.toNat / 4 = a.toNat / 4 then v else mem.cell b := by
  have hsame := same_cell_iff b a
  by_cases hpage : pageNumber b = pageNumber a
  · have hcells : (mem.setCell a v).page b = Function.update (mem.page a) (wordIndex a) v := by
      simp [page, setCell, hpage]
    have hold : mem.page b = mem.page a := by
      simp [page, hpage]
    by_cases hword : wordIndex b = wordIndex a
    · rw [if_pos (hsame.mp ⟨hpage, hword⟩), cell, hcells, hword, Function.update_self]
    · rw [if_neg (fun h => hword (hsame.mpr h).2), cell, hcells, Function.update_of_ne hword,
        cell, hold]
  · have hcells : (mem.setCell a v).page b = mem.page b := by
      simp [page, setCell, Function.update_of_ne hpage]
    rw [if_neg (fun h => hpage (hsame.mpr h).1), cell, hcells, cell]

theorem cell_getPage (mem : SimMemory) (a b : Word) : (mem.getPage a).cell b = mem.cell b := by
  by_cases hpage : pageNumber b = pageNumber a
  · simp [cell, page, getPage, hpage]
  · simp [cell, page, getPage, Function.update_of_ne hpage]

/-! ## The memory as a flat byte array -/

/-- The byte that the model keeps in a lane of a cell. -/
def bytes (mem : SimMemory) : ByteMemory.Bytes 32 :=
  fun addr => (mem.cell addr).extractLsb' (8 * (addr.toNat % 4)) 8

theorem bytes_memoryCreate : memoryCreate.bytes = fun _ => 0 := by
  funext addr
  simp [bytes, cell, page, memoryCreate]

theorem bytes_getPage (mem : SimMemory) (addr : Word) : (mem.getPage addr).bytes = mem.bytes := by
  funext b
  rw [bytes, cell_getPage, bytes]

theorem bytes_add_lane (mem : SimMemory) (addr : Word) (k : Nat) (h : addr.toNat % 4 + k < 4) :
    mem.bytes (addr + BitVec.ofNat 32 k) =
      (mem.cell addr).extractLsb' (8 * (addr.toNat % 4 + k)) 8 := by
  have hadd := toNat_add_lane addr k h
  have hsame := (same_cell_iff (addr + BitVec.ofNat 32 k) addr).mpr (by omega)
  have hlane : (addr.toNat + k) % 4 = addr.toNat % 4 + k := by omega
  rw [bytes, cell, page, hsame.1, hsame.2, ← page, ← cell, hadd, hlane]

/-- A field of a cell replaced: only the lanes of the field change. -/
theorem bytes_replace (mem : SimMemory) (addr data : Word) (lane len : Nat) (b : Word) :
    (mem.setCell addr (BitField.replace (mem.cell addr) (8 * lane) (8 * len) data)).bytes b =
      if b.toNat / 4 = addr.toNat / 4 ∧ lane ≤ b.toNat % 4 ∧ b.toNat % 4 < lane + len then
        data.extractLsb' (8 * (b.toNat % 4 - lane)) 8
      else mem.bytes b := by
  rw [bytes, cell_setCell]
  by_cases hcell : b.toNat / 4 = addr.toNat / 4
  · have hsame := (same_cell_iff b addr).mpr hcell
    have hold : mem.cell b = mem.cell addr := by
      simp [cell, page, hsame.1, hsame.2]
    rw [if_pos hcell]
    apply BitVec.eq_of_getLsbD_eq
    intro i hi
    rw [BitVec.getLsbD_extractLsb', BitField.getLsbD_replace _ _ _ _ _ (by omega)]
    by_cases hin : lane ≤ b.toNat % 4 ∧ b.toNat % 4 < lane + len
    · have hoffset : 8 * (b.toNat % 4) + i - 8 * lane = 8 * (b.toNat % 4 - lane) + i := by omega
      rw [if_pos (by omega), if_pos ⟨hcell, hin⟩, BitVec.getLsbD_extractLsb', hoffset]
    · rw [if_neg (by omega), if_neg (fun h => hin h.2), bytes, BitVec.getLsbD_extractLsb', hold]
  · rw [if_neg hcell, if_neg (fun h => hcell h.1), bytes]

end SimMemory

end CompSys
