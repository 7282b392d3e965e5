import CompSys.RiscV

/-!
# An RV32IM processor

All instructions with their words, and a machine that executes one after the other. The
machine stops at an environment call, at a word that is no instruction, and where an address
that it uses is not aligned.
-/
namespace CompSys.RiscV

/-- An offset of a branch or of `jal` is given without its lowest bit, which is zero. -/
inductive Instr where
  | regOp (op : RegOp) (rd rs1 rs2 : Register)
  | immOp (op : ImmOp) (rd rs1 : Register)
  | lui (rd : Register) (imm : BitVec 20)
  | auipc (rd : Register) (imm : BitVec 20)
  | load (op : LoadOp) (rd rs1 : Register) (imm : BitVec 12)
  | store (op : StoreOp) (rs1 rs2 : Register) (imm : BitVec 12)
  | branch (op : BranchOp) (rs1 rs2 : Register) (half : BitVec 12)
  | jal (rd : Register) (half : BitVec 20)
  | jalr (rd rs1 : Register) (imm : BitVec 12)
  | ecall
deriving DecidableEq

/-! ## Words -/

def Instr.encode : Instr → BitVec 32
  | regOp op rd rs1 rs2 => op.encode rd rs1 rs2
  | immOp op rd rs1 => op.encode rd rs1
  | lui rd imm => encodeLui rd imm
  | auipc rd imm => encodeAuipc rd imm
  | load op rd rs1 imm => op.encode rd rs1 imm
  | store op rs1 rs2 imm => op.encode rs1 rs2 imm
  | branch op rs1 rs2 half => formatB 0x63 op.funct3 rs1 rs2 (half ++ 0#1)
  | jal rd half => formatJ 0x6F rd (half ++ 0#1)
  | jalr rd rs1 imm => formatI 0x67 rd 0 rs1 imm
  | ecall => formatI 0x73 0 0 0 0

def RegOp.all : List RegOp :=
  [.add, .sub, .sll, .slt, .sltu, .xor, .srl, .sra, .or, .and,
    .mul, .mulh, .mulhsu, .mulhu, .div, .divu, .rem, .remu]

def ImmOp.ofFields (funct3 : BitVec 3) (field : BitVec 12) : Option ImmOp :=
  match funct3 with
  | 0 => some (.arith .addi field)
  | 2 => some (.arith .slti field)
  | 3 => some (.arith .sltiu field)
  | 4 => some (.arith .xori field)
  | 6 => some (.arith .ori field)
  | 7 => some (.arith .andi field)
  | 1 =>
    if field.extractLsb' 5 7 = 0x00 then some (.shift .slli (field.extractLsb' 0 5)) else none
  | 5 =>
    if field.extractLsb' 5 7 = 0x00 then some (.shift .srli (field.extractLsb' 0 5))
    else if field.extractLsb' 5 7 = 0x20 then some (.shift .srai (field.extractLsb' 0 5))
    else none
  | _ => none

def decode (inst : BitVec 32) : Option Instr :=
  let rd := rdField inst
  let rs1 := rs1Field inst
  let rs2 := rs2Field inst
  let funct3 := funct3Field inst
  let immI := inst.extractLsb' 20 12
  match opcodeField inst with
  | 0x33 =>
    (RegOp.all.find? fun op => op.funct3 = funct3 ∧ op.funct7 = funct7Field inst).map
      fun op => .regOp op rd rs1 rs2
  | 0x13 => (ImmOp.ofFields funct3 immI).map fun op => .immOp op rd rs1
  | 0x37 => some (.lui rd (inst.extractLsb' 12 20))
  | 0x17 => some (.auipc rd (inst.extractLsb' 12 20))
  | 0x03 =>
    ([.lb, .lh, .lw, .lbu, .lhu].find? fun op : LoadOp => op.funct3 = funct3).map
      fun op => .load op rd rs1 immI
  | 0x23 =>
    ([.sb, .sh, .sw].find? fun op : StoreOp => op.funct3 = funct3).map
      fun op => .store op rs1 rs2 (inst.extractLsb' 25 7 ++ inst.extractLsb' 7 5)
  | 0x63 =>
    ([.beq, .bne, .blt, .bge, .bltu, .bgeu].find? fun op : BranchOp => op.funct3 = funct3).map
      fun op => .branch op rs1 rs2 (inst.extractLsb' 31 1 ++ inst.extractLsb' 7 1 ++
        inst.extractLsb' 25 6 ++ inst.extractLsb' 8 4)
  | 0x6F =>
    some (.jal rd (inst.extractLsb' 31 1 ++ inst.extractLsb' 12 8 ++ inst.extractLsb' 20 1 ++
      inst.extractLsb' 21 10))
  | 0x67 => if funct3 = 0 then some (.jalr rd rs1 immI) else none
  | 0x73 => if rd = 0 ∧ funct3 = 0 ∧ rs1 = 0 ∧ immI = 0 then some .ecall else none
  | _ => none

theorem ImmOp.ofFields_encode (op : ImmOp) : ofFields op.funct3 op.field = some op := by
  match op with
  | .arith op imm => cases op <;> rfl
  | .shift op shamt =>
    cases op <;> simp (disch := decide) only [funct3, field, ofFields,
      BitVec.extractLsb'_append_eq_left, BitVec.extractLsb'_append_eq_right]
    all_goals rfl

section Immediates

variable (opcode : BitVec 7) (rd rs1 rs2 : Register) (funct3 : BitVec 3)

theorem extract_immI (imm : BitVec 12) :
    (formatI opcode rd funct3 rs1 imm).extractLsb' 20 12 = imm := by
  simp (disch := decide) only [formatI, BitVec.extractLsb'_cast,
    BitVec.extractLsb'_append_eq_of_le, Nat.reduceSub, BitVec.extractLsb'_eq_self]

theorem extract_immU (imm : BitVec 20) : (formatU opcode rd imm).extractLsb' 12 20 = imm := by
  simp (disch := decide) only [formatU, BitVec.extractLsb'_cast,
    BitVec.extractLsb'_append_eq_of_le, Nat.reduceSub, BitVec.extractLsb'_eq_self]

theorem extract_immS (imm : BitVec 12) :
    (formatS opcode funct3 rs1 rs2 imm).extractLsb' 25 7 ++
      (formatS opcode funct3 rs1 rs2 imm).extractLsb' 7 5 = imm := by
  apply BitVec.eq_of_getLsbD_eq
  intro i hi
  simp only [formatS, BitVec.getLsbD_cast, BitVec.getLsbD_append, BitVec.getLsbD_extractLsb']
  grind

theorem extract_immB (half : BitVec 12) :
    (formatB opcode funct3 rs1 rs2 (half ++ 0#1)).extractLsb' 31 1 ++
      (formatB opcode funct3 rs1 rs2 (half ++ 0#1)).extractLsb' 7 1 ++
      (formatB opcode funct3 rs1 rs2 (half ++ 0#1)).extractLsb' 25 6 ++
      (formatB opcode funct3 rs1 rs2 (half ++ 0#1)).extractLsb' 8 4 = half := by
  apply BitVec.eq_of_getLsbD_eq
  intro i hi
  simp only [formatB, BitVec.getLsbD_cast, BitVec.getLsbD_append, BitVec.getLsbD_extractLsb']
  grind

theorem extract_immJ (half : BitVec 20) :
    (formatJ opcode rd (half ++ 0#1)).extractLsb' 31 1 ++
      (formatJ opcode rd (half ++ 0#1)).extractLsb' 12 8 ++
      (formatJ opcode rd (half ++ 0#1)).extractLsb' 20 1 ++
      (formatJ opcode rd (half ++ 0#1)).extractLsb' 21 10 = half := by
  apply BitVec.eq_of_getLsbD_eq
  intro i hi
  simp only [formatJ, BitVec.getLsbD_cast, BitVec.getLsbD_append, BitVec.getLsbD_extractLsb']
  grind

end Immediates

theorem decode_encode (i : Instr) : decode i.encode = some i := by
  cases i with
  | regOp op rd rs1 rs2 =>
    obtain ⟨hop, hrd, hf3, hrs1, hrs2, hf7⟩ := fields_formatR 0x33 rd rs1 rs2 op.funct3 op.funct7
    simp only [decode, Instr.encode, RegOp.encode, hop, hrd, hf3, hrs1, hrs2, hf7]
    cases op <;> rfl
  | immOp op rd rs1 =>
    obtain ⟨hop, hrd, hf3, hrs1, -⟩ := fields_formatI 0x13 rd rs1 op.funct3 op.field
    simp only [decode, Instr.encode, ImmOp.encode, hop, hrd, hf3, hrs1, extract_immI,
      ImmOp.ofFields_encode, Option.map_some]
    rfl
  | lui rd imm =>
    obtain ⟨hop, hrd, -⟩ := fields_formatU 0x37 rd imm
    simp only [decode, Instr.encode, encodeLui, hop, hrd, extract_immU]
    rfl
  | auipc rd imm =>
    obtain ⟨hop, hrd, -⟩ := fields_formatU 0x17 rd imm
    simp only [decode, Instr.encode, encodeAuipc, hop, hrd, extract_immU]
    rfl
  | load op rd rs1 imm => 
    obtain ⟨hop, hrd, hf3, hrs1, -⟩ := fields_formatI 0x03 rd rs1 op.funct3 imm
    simp only [decode, Instr.encode, LoadOp.encode, hop, hrd, hf3, hrs1, extract_immI]
    cases op <;> rfl
  | store op rs1 rs2 imm =>
    obtain ⟨hop, hf3, hrs1, hrs2, -⟩ := fields_formatS 0x23 rs1 rs2 op.funct3 imm
    simp only [decode, Instr.encode, StoreOp.encode, hop, hf3, hrs1, hrs2, extract_immS]
    cases op <;> rfl
  | branch op rs1 rs2 half =>
    obtain ⟨hop, hf3, hrs1, hrs2⟩ := fields_formatB 0x63 rs1 rs2 op.funct3 (half ++ 0#1)
    simp only [decode, Instr.encode, hop, hf3, hrs1, hrs2, extract_immB]
    cases op <;> rfl
  | jal rd half =>
    obtain ⟨hop, hrd⟩ := fields_formatJ 0x6F rd (half ++ 0#1)
    simp only [decode, Instr.encode, hop, hrd, extract_immJ]
    rfl
  | jalr rd rs1 imm =>
    obtain ⟨hop, hrd, hf3, hrs1, -⟩ := fields_formatI 0x67 rd rs1 0 imm
    simp only [decode, Instr.encode, hop, hrd, hf3, hrs1, extract_immI, if_true]
    rfl
  | ecall => rfl

/-! A word is put together again from its fields. -/

section Fields

variable (w : BitVec 32)

theorem formatR_fields : formatR (opcodeField w) (rdField w) (funct3Field w) (rs1Field w)
    (rs2Field w) (funct7Field w) = w := by
  apply BitVec.eq_of_getLsbD_eq
  intro i hi
  simp only [formatR, opcodeField, rdField, funct3Field, rs1Field, rs2Field, funct7Field,
    BitVec.getLsbD_cast, BitVec.getLsbD_append, BitVec.getLsbD_extractLsb']
  grind

theorem formatI_fields : formatI (opcodeField w) (rdField w) (funct3Field w) (rs1Field w)
    (w.extractLsb' 20 12) = w := by
  apply BitVec.eq_of_getLsbD_eq
  intro i hi
  simp only [formatI, opcodeField, rdField, funct3Field, rs1Field,
    BitVec.getLsbD_cast, BitVec.getLsbD_append, BitVec.getLsbD_extractLsb']
  grind

theorem formatU_fields : formatU (opcodeField w) (rdField w) (w.extractLsb' 12 20) = w := by
  apply BitVec.eq_of_getLsbD_eq
  intro i hi
  simp only [formatU, opcodeField, rdField,
    BitVec.getLsbD_cast, BitVec.getLsbD_append, BitVec.getLsbD_extractLsb']
  grind

theorem formatS_fields : formatS (opcodeField w) (funct3Field w) (rs1Field w) (rs2Field w)
    (w.extractLsb' 25 7 ++ w.extractLsb' 7 5) = w := by
  apply BitVec.eq_of_getLsbD_eq
  intro i hi
  simp only [formatS, opcodeField, funct3Field, rs1Field, rs2Field,
    BitVec.getLsbD_cast, BitVec.getLsbD_append, BitVec.getLsbD_extractLsb']
  grind

theorem formatB_fields : formatB (opcodeField w) (funct3Field w) (rs1Field w) (rs2Field w)
    (w.extractLsb' 31 1 ++ w.extractLsb' 7 1 ++ w.extractLsb' 25 6 ++ w.extractLsb' 8 4 ++
      0#1) = w := by
  apply BitVec.eq_of_getLsbD_eq
  intro i hi
  simp only [formatB, opcodeField, funct3Field, rs1Field, rs2Field,
    BitVec.getLsbD_cast, BitVec.getLsbD_append, BitVec.getLsbD_extractLsb']
  grind

theorem formatJ_fields : formatJ (opcodeField w) (rdField w)
    (w.extractLsb' 31 1 ++ w.extractLsb' 12 8 ++ w.extractLsb' 20 1 ++ w.extractLsb' 21 10 ++
      0#1) = w := by
  apply BitVec.eq_of_getLsbD_eq
  intro i hi
  simp only [formatJ, opcodeField, rdField,
    BitVec.getLsbD_cast, BitVec.getLsbD_append, BitVec.getLsbD_extractLsb']
  grind

end Fields

theorem ImmOp.fields_of_ofFields {funct3 : BitVec 3} {field : BitVec 12} {op : ImmOp}
    (h : ofFields funct3 field = some op) : op.funct3 = funct3 ∧ op.field = field := by
  have hfield : field.extractLsb' 5 7 ++ field.extractLsb' 0 5 = field := by
    apply BitVec.eq_of_getLsbD_eq
    intro i hi
    simp only [BitVec.getLsbD_append, BitVec.getLsbD_extractLsb']
    grind
  simp only [ofFields] at h
  split at h
  case h_7 =>
    obtain ⟨hkind, heq⟩ := Option.ite_none_right_eq_some.mp h
    cases heq
    rw [hkind] at hfield
    exact ⟨rfl, hfield⟩
  case h_8 =>
    split at h
    case isTrue hkind =>
      cases h
      rw [hkind] at hfield
      exact ⟨rfl, hfield⟩
    case isFalse =>
      obtain ⟨hkind, heq⟩ := Option.ite_none_right_eq_some.mp h
      cases heq
      rw [hkind] at hfield
      exact ⟨rfl, hfield⟩
  case h_9 => cases h
  all_goals
    cases h
    exact ⟨rfl, rfl⟩

theorem encode_of_decode {w : BitVec 32} {i : Instr} (h : decode w = some i) : i.encode = w := by
  have hR := formatR_fields w
  have hI := formatI_fields w
  have hU := formatU_fields w
  have hS := formatS_fields w
  have hB := formatB_fields w
  have hJ := formatJ_fields w
  simp only [decode] at h
  split at h
  case h_1 hop =>
    obtain ⟨op, hfind, rfl⟩ := Option.map_eq_some_iff.mp h
    have hfields := List.find?_some hfind
    rw [decide_eq_true_eq] at hfields
    rwa [hop, ← hfields.1, ← hfields.2] at hR
  case h_2 hop =>
    obtain ⟨op, hfind, rfl⟩ := Option.map_eq_some_iff.mp h
    have hfields := ImmOp.fields_of_ofFields hfind
    rwa [hop, ← hfields.1, ← hfields.2] at hI
  case h_3 hop =>
    cases h
    rwa [hop] at hU
  case h_4 hop =>
    cases h
    rwa [hop] at hU
  case h_5 hop =>
    obtain ⟨op, hfind, rfl⟩ := Option.map_eq_some_iff.mp h
    have hf3 := List.find?_some hfind
    rw [decide_eq_true_eq] at hf3
    rwa [hop, ← hf3] at hI
  case h_6 hop =>
    obtain ⟨op, hfind, rfl⟩ := Option.map_eq_some_iff.mp h
    have hf3 := List.find?_some hfind
    rw [decide_eq_true_eq] at hf3
    rwa [hop, ← hf3] at hS
  case h_7 hop =>
    obtain ⟨op, hfind, rfl⟩ := Option.map_eq_some_iff.mp h
    have hf3 := List.find?_some hfind
    rw [decide_eq_true_eq] at hf3
    rwa [hop, ← hf3] at hB
  case h_8 hop =>
    cases h
    rwa [hop] at hJ
  case h_9 hop =>
    obtain ⟨hf3, heq⟩ := Option.ite_none_right_eq_some.mp h
    cases heq
    rwa [hop, hf3] at hI
  case h_10 hop =>
    obtain ⟨⟨hrd, hf3, hrs1, himm⟩, heq⟩ := Option.ite_none_right_eq_some.mp h
    cases heq
    rwa [hop, hrd, hf3, hrs1, himm] at hI
  case h_11 => cases h

/-- An instruction is what its word says, and no other word says it. -/
theorem decode_eq_some_iff {w : BitVec 32} {i : Instr} : decode w = some i ↔ i.encode = w := by
  constructor
  · exact encode_of_decode
  · rintro rfl
    exact decode_encode i

/-! ## The machine -/

instance BranchOp.decidableTaken (op : BranchOp) (a b : BitVec 32) : Decidable (op.Taken a b) :=
  match op with
  | beq => inferInstanceAs (Decidable (a = b))
  | bne => inferInstanceAs (Decidable (a ≠ b))
  | blt => inferInstanceAs (Decidable (a.toInt < b.toInt))
  | bge => inferInstanceAs (Decidable (b.toInt ≤ a.toInt))
  | bltu => inferInstanceAs (Decidable (a.toNat < b.toNat))
  | bgeu => inferInstanceAs (Decidable (b.toNat ≤ a.toNat))

/-- The zero register always holds zero. -/
structure Machine where
  pc : BitVec 32
  x : Register → BitVec 32
  mem : ByteMemory.Bytes 32
  x_zero : x 0 = 0

namespace Machine

/-- A result for the zero register is dropped. -/
def set (m : Machine) (rd : Register) (v : BitVec 32) : Machine where
  pc := m.pc
  x := if rd = 0 then m.x else Function.update m.x rd v
  mem := m.mem
  x_zero := by
    split
    · exact m.x_zero
    · rename_i hrd
      rw [Function.update_of_ne (Ne.symm hrd)]
      exact m.x_zero

def next (m : Machine) : Machine := { m with pc := m.pc + 4 }

def jump (m : Machine) (target : BitVec 32) : Option Machine :=
  if target.toNat % 4 = 0 then some { m with pc := target } else none

@[simp]
theorem set_pc (m : Machine) (rd : Register) (v : BitVec 32) : (m.set rd v).pc = m.pc := rfl

@[simp]
theorem set_x (m : Machine) (rd : Register) (v : BitVec 32) :
    (m.set rd v).x = if rd = 0 then m.x else Function.update m.x rd v := rfl

@[simp]
theorem set_mem (m : Machine) (rd : Register) (v : BitVec 32) : (m.set rd v).mem = m.mem := rfl

@[simp]
theorem next_pc (m : Machine) : m.next.pc = m.pc + 4 := rfl

@[simp]
theorem next_x (m : Machine) : m.next.x = m.x := rfl

@[simp]
theorem next_mem (m : Machine) : m.next.mem = m.mem := rfl

/-- The address of a load, a store or `jalr`. -/
def address (m : Machine) (rs1 : Register) (imm : BitVec 12) : BitVec 32 :=
  m.x rs1 + imm.signExtend 32

def exec (m : Machine) : Instr → Option Machine
  | .regOp op rd rs1 rs2 => some (m.set rd (op.result (m.x rs1) (m.x rs2))).next
  | .immOp op rd rs1 => some (m.set rd (op.result (m.x rs1))).next
  | .lui rd imm => some (m.set rd (upper imm)).next
  | .auipc rd imm => some (m.set rd (m.pc + upper imm)).next
  | .load op rd rs1 imm =>
    if (m.address rs1 imm).toNat % op.width = 0 then
      some (m.set rd (op.value m.mem (m.address rs1 imm))).next
    else none
  | .store op rs1 rs2 imm =>
    if (m.address rs1 imm).toNat % op.width = 0 then
      some { m with mem := op.write m.mem (m.address rs1 imm) (m.x rs2) }.next
    else none
  | .branch op rs1 rs2 half =>
    if op.Taken (m.x rs1) (m.x rs2) then m.jump (m.pc + (half ++ 0#1).signExtend 32)
    else some m.next
  | .jal rd half => (m.set rd (m.pc + 4)).jump (m.pc + (half ++ 0#1).signExtend 32)
  | .jalr rd rs1 imm => (m.set rd (m.pc + 4)).jump (m.address rs1 imm &&& ~~~1)
  | .ecall => none

def fetch (m : Machine) : Option Instr :=
  if m.pc.toNat % 4 = 0 then decode (ByteMemory.readW m.mem m.pc) else none

def step (m : Machine) : Option Machine := m.fetch.bind m.exec

/-- The state after `n` steps. -/
def run (m : Machine) : ℕ → Option Machine
  | 0 => some m
  | n + 1 => (m.run n).bind step

theorem fetch_eq_some_iff {m : Machine} {i : Instr} :
    m.fetch = some i ↔ m.pc.toNat % 4 = 0 ∧ ByteMemory.readW m.mem m.pc = i.encode := by
  rw [fetch, Option.ite_none_right_eq_some, decode_eq_some_iff]
  exact and_congr_right' eq_comm

theorem step_eq_some_iff {m m' : Machine} :
    m.step = some m' ↔ ∃ i, m.fetch = some i ∧ m.exec i = some m' :=
  Option.bind_eq_some_iff

theorem jump_eq_some_iff {m m' : Machine} {target : BitVec 32} :
    m.jump target = some m' ↔ target.toNat % 4 = 0 ∧ { m with pc := target } = m' := by
  rw [jump, Option.ite_none_right_eq_some, Option.some.injEq]

theorem run_succ_eq_some_iff {m m' : Machine} {n : ℕ} :
    m.run (n + 1) = some m' ↔ ∃ mid, m.run n = some mid ∧ mid.step = some m' :=
  Option.bind_eq_some_iff

/-- A machine that gets far has been everywhere before. -/
theorem run_isSome_of_le {m m' : Machine} {k n : ℕ} (h : m.run n = some m') (hk : k ≤ n) :
    ∃ mid, m.run k = some mid := by
  induction n generalizing m' with
  | zero =>
    obtain rfl := Nat.le_zero.mp hk
    exact ⟨m', h⟩
  | succ n ih =>
    obtain ⟨mid, hmid, -⟩ := run_succ_eq_some_iff.mp h
    rcases Nat.le_succ_iff.mp hk with hle | rfl
    · exact ih hmid hle
    · exact ⟨m', h⟩

end Machine

end CompSys.RiscV
