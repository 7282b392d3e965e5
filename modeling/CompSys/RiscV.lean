import Mathlib.Data.BitVec
import CompSys.ByteMemory

/-!
# RV32IM instructions

The formats of instruction words, the fields they are read by, and what the
instructions compute from their operands. The immediate of a branch or a jump is
an even number of bytes, of which the lowest bit is not stored.
-/
namespace CompSys.RiscV

abbrev Register := BitVec 5

/-! ## Formats -/

def formatR (opcode : BitVec 7) (rd : Register) (funct3 : BitVec 3) (rs1 rs2 : Register)
    (funct7 : BitVec 7) : BitVec 32 :=
  (funct7 ++ rs2 ++ rs1 ++ funct3 ++ rd ++ opcode).cast rfl

def formatI (opcode : BitVec 7) (rd : Register) (funct3 : BitVec 3) (rs1 : Register)
    (imm : BitVec 12) : BitVec 32 :=
  (imm ++ rs1 ++ funct3 ++ rd ++ opcode).cast rfl

def formatS (opcode : BitVec 7) (funct3 : BitVec 3) (rs1 rs2 : Register) (imm : BitVec 12) :
    BitVec 32 :=
  (imm.extractLsb' 5 7 ++ rs2 ++ rs1 ++ funct3 ++ imm.extractLsb' 0 5 ++ opcode).cast rfl

def formatB (opcode : BitVec 7) (funct3 : BitVec 3) (rs1 rs2 : Register) (imm : BitVec 13) :
    BitVec 32 :=
  (imm.extractLsb' 12 1 ++ imm.extractLsb' 5 6 ++ rs2 ++ rs1 ++ funct3 ++ imm.extractLsb' 1 4 ++
    imm.extractLsb' 11 1 ++ opcode).cast rfl

def formatU (opcode : BitVec 7) (rd : Register) (imm : BitVec 20) : BitVec 32 :=
  (imm ++ rd ++ opcode).cast rfl

def formatJ (opcode : BitVec 7) (rd : Register) (imm : BitVec 21) : BitVec 32 :=
  (imm.extractLsb' 20 1 ++ imm.extractLsb' 1 10 ++ imm.extractLsb' 11 1 ++ imm.extractLsb' 12 8 ++
    rd ++ opcode).cast rfl

/-! ## Fields -/

def opcodeField (inst : BitVec 32) : BitVec 7 := inst.extractLsb' 0 7

def rdField (inst : BitVec 32) : Register := inst.extractLsb' 7 5

def funct3Field (inst : BitVec 32) : BitVec 3 := inst.extractLsb' 12 3

def rs1Field (inst : BitVec 32) : Register := inst.extractLsb' 15 5

def rs2Field (inst : BitVec 32) : Register := inst.extractLsb' 20 5

def funct7Field (inst : BitVec 32) : BitVec 7 := inst.extractLsb' 25 7

def immI (inst : BitVec 32) : BitVec 32 := (inst.extractLsb' 20 12).signExtend 32

def immS (inst : BitVec 32) : BitVec 32 :=
  (inst.extractLsb' 25 7 ++ inst.extractLsb' 7 5).signExtend 32

def immB (inst : BitVec 32) : BitVec 32 :=
  (inst.extractLsb' 31 1 ++ inst.extractLsb' 7 1 ++ inst.extractLsb' 25 6 ++
    inst.extractLsb' 8 4 ++ 0#1).signExtend 32

def immJ (inst : BitVec 32) : BitVec 32 :=
  (inst.extractLsb' 31 1 ++ inst.extractLsb' 12 8 ++ inst.extractLsb' 20 1 ++
    inst.extractLsb' 21 10 ++ 0#1).signExtend 32

/-! The bits of the immediates. -/

theorem getLsbD_immI (inst : BitVec 32) {i : ℕ} (hi : i < 32) :
    (immI inst).getLsbD i = if i < 11 then inst.getLsbD (20 + i) else inst.getLsbD 31 := by
  simp only [immI, BitVec.getLsbD_signExtend, BitVec.getLsbD_extractLsb', BitVec.msb_eq_getLsbD_last]
  split_ifs with h12 h11 h11
  · simp [hi, h12]
  · have heq : i = 11 := by omega
    simp [heq]
  · omega
  · simp [hi]

theorem getLsbD_immS (inst : BitVec 32) {i : ℕ} (hi : i < 32) :
    (immS inst).getLsbD i =
      if i < 5 then inst.getLsbD (7 + i) else if i < 11 then inst.getLsbD (20 + i)
      else inst.getLsbD 31 := by
  simp only [immS, BitVec.getLsbD_signExtend, BitVec.getLsbD_append, BitVec.getLsbD_extractLsb',
    BitVec.msb_eq_getLsbD_last]
  by_cases h5 : i < 5
  · have h12 : i < 12 := by omega
    simp [hi, h5, h12]
  by_cases h11 : i < 11
  · have h12 : i < 12 := by omega
    have hfield : i - 5 < 7 := by omega
    have hbit : 25 + (i - 5) = 20 + i := by omega
    simp [hi, h5, h11, h12, hfield, hbit]
  by_cases heq : i = 11
  · simp [heq]
  · have h12 : ¬ i < 12 := by omega
    simp [hi, h5, h11, h12]

theorem getLsbD_immB (inst : BitVec 32) {i : ℕ} (hi : i < 32) :
    (immB inst).getLsbD i =
      if i = 0 then false else if i < 5 then inst.getLsbD (7 + i)
      else if i < 11 then inst.getLsbD (20 + i) else if i = 11 then inst.getLsbD 7
      else inst.getLsbD 31 := by
  simp only [immB, BitVec.getLsbD_signExtend, BitVec.getLsbD_append, BitVec.getLsbD_extractLsb',
    BitVec.msb_eq_getLsbD_last]
  by_cases h0 : i = 0
  · simp [h0]
  have h1 : ¬ i < 1 := by omega
  by_cases h5 : i < 5
  · have h13 : i < 13 := by omega
    have hfield : i - 1 < 4 := by omega
    have hbit : 8 + (i - 1) = 7 + i := by omega
    simp [hi, h0, h5, h13, hfield, hbit]
  have h4 : ¬ i - 1 < 4 := by omega
  by_cases h11 : i < 11
  · have h13 : i < 13 := by omega
    have hfield : i - 1 - 4 < 6 := by omega
    have hbit : 25 + (i - 1 - 4) = 20 + i := by omega
    simp [hi, h0, h4, h5, h11, h13, hfield, hbit]
  have hcases : i = 11 ∨ i = 12 ∨ ¬ i < 13 := by omega
  rcases hcases with rfl | rfl | h13
  · simp
  · simp
  · have hne : i ≠ 11 := by omega
    simp [hi, h0, h5, h11, h13, hne]

theorem getLsbD_immJ (inst : BitVec 32) {i : ℕ} (hi : i < 32) :
    (immJ inst).getLsbD i =
      if i = 0 then false else if i < 11 then inst.getLsbD (20 + i)
      else if i = 11 then inst.getLsbD 20 else if i < 20 then inst.getLsbD i
      else inst.getLsbD 31 := by
  simp only [immJ, BitVec.getLsbD_signExtend, BitVec.getLsbD_append, BitVec.getLsbD_extractLsb',
    BitVec.msb_eq_getLsbD_last]
  by_cases h0 : i = 0
  · simp [h0]
  have h1 : ¬ i < 1 := by omega
  by_cases h11 : i < 11
  · have h21 : i < 21 := by omega
    have hfield : i - 1 < 10 := by omega
    have hbit : 21 + (i - 1) = 20 + i := by omega
    simp [hi, h0, h11, h21, hfield, hbit]
  have h10 : ¬ i - 1 < 10 := by omega
  by_cases heq : i = 11
  · simp [heq]
  have hlink : ¬ i - 1 - 10 < 1 := by omega
  by_cases h20 : i < 20
  · have h21 : i < 21 := by omega
    have hfield : i - 1 - 10 - 1 < 8 := by omega
    have hbit : 12 + (i - 1 - 10 - 1) = i := by omega
    simp [hi, h0, h10, h11, heq, h20, h21, hlink, hfield, hbit]
  by_cases heq' : i = 20
  · simp [heq']
  · have h21 : ¬ i < 21 := by omega
    simp [hi, h0, h11, heq, h20, h21]

section Fields

variable (opcode : BitVec 7) (rd rs1 rs2 : Register) (funct3 : BitVec 3) (funct7 : BitVec 7)

theorem fields_formatR :
    opcodeField (formatR opcode rd funct3 rs1 rs2 funct7) = opcode ∧
      rdField (formatR opcode rd funct3 rs1 rs2 funct7) = rd ∧
      funct3Field (formatR opcode rd funct3 rs1 rs2 funct7) = funct3 ∧
      rs1Field (formatR opcode rd funct3 rs1 rs2 funct7) = rs1 ∧
      rs2Field (formatR opcode rd funct3 rs1 rs2 funct7) = rs2 ∧
      funct7Field (formatR opcode rd funct3 rs1 rs2 funct7) = funct7 := by
  simp (disch := decide) only [opcodeField, rdField, funct3Field, rs1Field, rs2Field, funct7Field,
    formatR, BitVec.extractLsb'_cast, BitVec.extractLsb'_append_eq_of_le,
    BitVec.extractLsb'_append_eq_of_add_le, Nat.reduceSub, BitVec.extractLsb'_eq_self, and_self]

theorem fields_formatI (imm : BitVec 12) :
    opcodeField (formatI opcode rd funct3 rs1 imm) = opcode ∧
      rdField (formatI opcode rd funct3 rs1 imm) = rd ∧
      funct3Field (formatI opcode rd funct3 rs1 imm) = funct3 ∧
      rs1Field (formatI opcode rd funct3 rs1 imm) = rs1 ∧
      immI (formatI opcode rd funct3 rs1 imm) = imm.signExtend 32 := by
  simp (disch := decide) only [opcodeField, rdField, funct3Field, rs1Field, immI, formatI,
    BitVec.extractLsb'_cast, BitVec.extractLsb'_append_eq_of_le,
    BitVec.extractLsb'_append_eq_of_add_le, Nat.reduceSub, BitVec.extractLsb'_eq_self, and_self]

theorem fields_formatS (imm : BitVec 12) :
    opcodeField (formatS opcode funct3 rs1 rs2 imm) = opcode ∧
      funct3Field (formatS opcode funct3 rs1 rs2 imm) = funct3 ∧
      rs1Field (formatS opcode funct3 rs1 rs2 imm) = rs1 ∧
      rs2Field (formatS opcode funct3 rs1 rs2 imm) = rs2 ∧
      immS (formatS opcode funct3 rs1 rs2 imm) = imm.signExtend 32 := by
  simp (disch := decide) only [opcodeField, funct3Field, rs1Field, rs2Field, immS, formatS,
    BitVec.extractLsb'_cast, BitVec.extractLsb'_append_eq_of_le,
    BitVec.extractLsb'_append_eq_of_add_le, Nat.reduceSub, BitVec.extractLsb'_eq_self, and_self,
    BitVec.extractLsb'_append_extractLsb'_eq_extractLsb']

theorem fields_formatB (imm : BitVec 13) :
    opcodeField (formatB opcode funct3 rs1 rs2 imm) = opcode ∧
      funct3Field (formatB opcode funct3 rs1 rs2 imm) = funct3 ∧
      rs1Field (formatB opcode funct3 rs1 rs2 imm) = rs1 ∧
      rs2Field (formatB opcode funct3 rs1 rs2 imm) = rs2 := by
  simp (disch := decide) only [opcodeField, funct3Field, rs1Field, rs2Field, formatB,
    BitVec.extractLsb'_cast, BitVec.extractLsb'_append_eq_of_le,
    BitVec.extractLsb'_append_eq_of_add_le, Nat.reduceSub, BitVec.extractLsb'_eq_self, and_self]

/-- The lowest bits of the immediate stand where other formats have `funct3`. -/
theorem fields_formatU (imm : BitVec 20) :
    opcodeField (formatU opcode rd imm) = opcode ∧ rdField (formatU opcode rd imm) = rd ∧
      funct3Field (formatU opcode rd imm) = imm.extractLsb' 0 3 := by
  simp (disch := decide) only [opcodeField, rdField, funct3Field, formatU,
    BitVec.extractLsb'_cast, BitVec.extractLsb'_append_eq_of_le,
    BitVec.extractLsb'_append_eq_of_add_le, Nat.reduceSub, BitVec.extractLsb'_eq_self, and_self]

theorem fields_formatJ (imm : BitVec 21) :
    opcodeField (formatJ opcode rd imm) = opcode ∧ rdField (formatJ opcode rd imm) = rd := by
  simp (disch := decide) only [opcodeField, rdField, formatJ,
    BitVec.extractLsb'_cast, BitVec.extractLsb'_append_eq_of_le,
    BitVec.extractLsb'_append_eq_of_add_le, Nat.reduceSub, BitVec.extractLsb'_eq_self, and_self]

/-- An even number is its upper bits and a zero. -/
theorem even_eq {w : ℕ} {x : BitVec (w + 1)} (h : x.getLsbD 0 = false) :
    x.extractLsb' 1 w ++ 0#1 = x := by
  apply BitVec.eq_of_getLsbD_eq
  intro i hi
  rw [BitVec.getLsbD_append]
  by_cases h0 : i < 1
  · have hzero : i = 0 := by omega
    simpa [hzero] using h.symm
  · have hback : 1 + (i - 1) = i := by omega
    have hlt : i - 1 < w := by omega
    simp [h0, hlt, hback]

theorem immB_formatB {imm : BitVec 13} (h : imm.getLsbD 0 = false) :
    immB (formatB opcode funct3 rs1 rs2 imm) = imm.signExtend 32 := by
  simp (disch := decide) only [immB, formatB,
    BitVec.extractLsb'_cast, BitVec.extractLsb'_append_eq_of_le,
    BitVec.extractLsb'_append_eq_of_add_le, Nat.reduceSub, BitVec.extractLsb'_eq_self,
    BitVec.extractLsb'_append_extractLsb'_eq_extractLsb']
  exact congrArg (BitVec.signExtend 32) (even_eq h)

theorem immJ_formatJ {imm : BitVec 21} (h : imm.getLsbD 0 = false) :
    immJ (formatJ opcode rd imm) = imm.signExtend 32 := by
  simp (disch := decide) only [immJ, formatJ,
    BitVec.extractLsb'_cast, BitVec.extractLsb'_append_eq_of_le,
    BitVec.extractLsb'_append_eq_of_add_le, Nat.reduceSub, BitVec.extractLsb'_eq_self,
    BitVec.extractLsb'_append_extractLsb'_eq_extractLsb']
  exact congrArg (BitVec.signExtend 32) (even_eq h)

end Fields

/-! ## Register arithmetic -/

/-- The instructions of the R format. -/
inductive RegOp where
  | add | sub | sll | slt | sltu | xor | srl | sra | or | and
  | mul | mulh | mulhsu | mulhu | div | divu | rem | remu
deriving DecidableEq

namespace RegOp

def funct3 : RegOp → BitVec 3
  | add | sub | mul => 0
  | sll | mulh => 1
  | slt | mulhsu => 2
  | sltu | mulhu => 3
  | xor | div => 4
  | srl | sra | divu => 5
  | or | rem => 6
  | and | remu => 7

def funct7 : RegOp → BitVec 7
  | sub | sra => 0x20
  | mul | mulh | mulhsu | mulhu | div | divu | rem | remu => 0x01
  | _ => 0x00

/-- The quotient -2^31 / -1 wraps, and dividing by zero gives -1 and the dividend. -/
def result (op : RegOp) (a b : BitVec 32) : BitVec 32 :=
  match op with
  | add => a + b
  | sub => a - b
  | sll => a <<< (b.toNat % 32)
  | slt => if a.toInt < b.toInt then 1 else 0
  | sltu => if a.toNat < b.toNat then 1 else 0
  | xor => a ^^^ b
  | srl => a >>> (b.toNat % 32)
  | sra => a.sshiftRight (b.toNat % 32)
  | or => a ||| b
  | and => a &&& b
  | mul => a * b
  | mulh => BitVec.ofInt 32 (a.toInt * b.toInt / 2 ^ 32)
  | mulhsu => BitVec.ofInt 32 (a.toInt * b.toNat / 2 ^ 32)
  | mulhu => BitVec.ofNat 32 (a.toNat * b.toNat / 2 ^ 32)
  | div => if b = 0 then -1 else BitVec.ofInt 32 (a.toInt.tdiv b.toInt)
  | divu => if b = 0 then -1 else BitVec.ofNat 32 (a.toNat / b.toNat)
  | rem => if b = 0 then a else BitVec.ofInt 32 (a.toInt.tmod b.toInt)
  | remu => if b = 0 then a else BitVec.ofNat 32 (a.toNat % b.toNat)

def encode (op : RegOp) (rd rs1 rs2 : Register) : BitVec 32 :=
  formatR 0x33 rd op.funct3 rs1 rs2 op.funct7

end RegOp

/-! ## Arithmetic with immediates -/

inductive ArithOp where
  | addi | slti | sltiu | xori | ori | andi
deriving DecidableEq

inductive ShiftOp where
  | slli | srli | srai
deriving DecidableEq

/-- An instruction of the I format that computes, with its immediate or its shift amount. -/
inductive ImmOp where
  | arith (op : ArithOp) (imm : BitVec 12)
  | shift (op : ShiftOp) (shamt : BitVec 5)
deriving DecidableEq

namespace ImmOp

def funct3 : ImmOp → BitVec 3
  | arith .addi _ => 0
  | arith .slti _ => 2
  | arith .sltiu _ => 3
  | arith .xori _ => 4
  | arith .ori _ => 6
  | arith .andi _ => 7
  | shift .slli _ => 1
  | shift .srli _ => 5
  | shift .srai _ => 5

/-- A shift has its kind above the amount. -/
def field : ImmOp → BitVec 12
  | arith _ imm => imm
  | shift .srai shamt => 0x20#7 ++ shamt
  | shift _ shamt => 0x00#7 ++ shamt

def result (op : ImmOp) (a : BitVec 32) : BitVec 32 :=
  match op with
  | arith .addi imm => a + imm.signExtend 32
  | arith .slti imm => if a.toInt < imm.toInt then 1 else 0
  | arith .sltiu imm => if a.toNat < (imm.signExtend 32).toNat then 1 else 0
  | arith .xori imm => a ^^^ imm.signExtend 32
  | arith .ori imm => a ||| imm.signExtend 32
  | arith .andi imm => a &&& imm.signExtend 32
  | shift .slli shamt => a <<< shamt.toNat
  | shift .srli shamt => a >>> shamt.toNat
  | shift .srai shamt => a.sshiftRight shamt.toNat

def encode (op : ImmOp) (rd rs1 : Register) : BitVec 32 :=
  formatI 0x13 rd op.funct3 rs1 op.field

end ImmOp

/-! ## Upper immediates -/

def encodeLui (rd : Register) (imm : BitVec 20) : BitVec 32 := formatU 0x37 rd imm

def encodeAuipc (rd : Register) (imm : BitVec 20) : BitVec 32 := formatU 0x17 rd imm

/-- The immediate in the upper twenty bits. -/
def upper (imm : BitVec 20) : BitVec 32 := BitVec.ofNat 32 (imm.toNat * 2 ^ 12)

/-! ## Loads and stores -/

inductive LoadOp where
  | lb | lh | lw | lbu | lhu
deriving DecidableEq

namespace LoadOp

def funct3 : LoadOp → BitVec 3
  | lb => 0
  | lh => 1
  | lw => 2
  | lbu => 4
  | lhu => 5

/-- The number of bytes that are read. -/
def width : LoadOp → ℕ
  | lb | lbu => 1
  | lh | lhu => 2
  | lw => 4

def value (op : LoadOp) (m : ByteMemory.Bytes 32) (a : BitVec 32) : BitVec 32 :=
  match op with
  | lb => (m a).signExtend 32
  | lh => (ByteMemory.readH m a).signExtend 32
  | lw => ByteMemory.readW m a
  | lbu => (m a).setWidth 32
  | lhu => (ByteMemory.readH m a).setWidth 32

/-- What a load of the low bits of a word gives. -/
def extend (op : LoadOp) (v : BitVec 32) : BitVec 32 :=
  match op with
  | lb => (v.extractLsb' 0 8).signExtend 32
  | lh => (v.extractLsb' 0 16).signExtend 32
  | lw => v
  | lbu => (v.extractLsb' 0 8).setWidth 32
  | lhu => (v.extractLsb' 0 16).setWidth 32

def encode (op : LoadOp) (rd rs1 : Register) (imm : BitVec 12) : BitVec 32 :=
  formatI 0x03 rd op.funct3 rs1 imm

end LoadOp

inductive StoreOp where
  | sb | sh | sw
deriving DecidableEq

namespace StoreOp

def funct3 : StoreOp → BitVec 3
  | sb => 0
  | sh => 1
  | sw => 2

def width : StoreOp → ℕ
  | sb => 1
  | sh => 2
  | sw => 4

def write (op : StoreOp) (m : ByteMemory.Bytes 32) (a v : BitVec 32) : ByteMemory.Bytes 32 :=
  match op with
  | sb => ByteMemory.writeB m a (v.extractLsb' 0 8)
  | sh => ByteMemory.writeH m a (v.extractLsb' 0 16)
  | sw => ByteMemory.writeW m a v

/-- The bytes that are stored. -/
def bytes (op : StoreOp) (v : BitVec 32) : List (BitVec 8) :=
  match op with
  | sb => [v.extractLsb' 0 8]
  | sh => ByteMemory.halfBytes (v.extractLsb' 0 16)
  | sw => ByteMemory.wordBytes v

theorem length_bytes (op : StoreOp) (v : BitVec 32) : (op.bytes v).length = op.width := by
  cases op <;> rfl

theorem width_le (op : StoreOp) : op.width ≤ 4 := by
  cases op <;> decide

theorem write_eq (op : StoreOp) (m : ByteMemory.Bytes 32) (a v : BitVec 32) :
    op.write m a v = ByteMemory.writeBytes m a (op.bytes v) := by
  cases op with
  | sb => rfl
  | sh => exact ByteMemory.writeH_eq m a _
  | sw => exact ByteMemory.writeW_eq m a v

def encode (op : StoreOp) (rs1 rs2 : Register) (imm : BitVec 12) : BitVec 32 :=
  formatS 0x23 op.funct3 rs1 rs2 imm

end StoreOp

/-! ## Control transfer -/

inductive BranchOp where
  | beq | bne | blt | bge | bltu | bgeu
deriving DecidableEq

namespace BranchOp

def funct3 : BranchOp → BitVec 3
  | beq => 0
  | bne => 1
  | blt => 4
  | bge => 5
  | bltu => 6
  | bgeu => 7

def Taken (op : BranchOp) (a b : BitVec 32) : Prop :=
  match op with
  | beq => a = b
  | bne => a ≠ b
  | blt => a.toInt < b.toInt
  | bge => b.toInt ≤ a.toInt
  | bltu => a.toNat < b.toNat
  | bgeu => b.toNat ≤ a.toNat

end BranchOp

end CompSys.RiscV
