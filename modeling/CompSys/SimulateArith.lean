import Mathlib.Tactic.Linarith
import CompSys.SimulateDecode
import CompSys.SimulateOutcome

/-!
# Arithmetic of the simulator

What `simulate` computes for the arithmetic instructions, against what RV32IM
defines. An instruction that no case handles leaves the PC where it is, and the
loop executes it again.
-/
namespace CompSys.Simulate

open RiscV (Register RegOp ImmOp)

/-- The next iteration writes `v` to `rd` and goes on to the next instruction. -/
def Computes (s : State) (rd : Register) (v : Word) : Prop :=
  ∃ s', iteration s = .ok s' ∧ s'.reg = Function.update s.reg rd v ∧ s'.pc = s.pc + 4

/-- The state after a case with a result, or without a case. -/
def settle (s : State) (ins : Instruction) : Option Word → State
  | some v => s.insert ins v
  | none => s

/-- An iteration computes a value exactly when that is the result of its case. -/
theorem computes_iff {s st : State} {ins : Instruction} {rd : Register} {v : Word}
    {result : Except Stop (Option Word)} (h : iteration s = result.map (settle st ins))
    (hreg : st.reg = s.reg) (hpc : st.pc = s.pc) (hrd : ins.rd = rd) :
    Computes s rd v ↔ result = .ok (some v) := by
  have hnext : s.pc ≠ s.pc + 4 := by
    intro heq
    have hnat := congrArg BitVec.toNat heq
    rw [BitVec.toNat_add] at hnat
    have hlt := s.pc.isLt
    have hfour : (4 : Word).toNat = 4 := rfl
    omega
  constructor
  · intro ⟨s', hstep, hreg', hpc'⟩
    rw [h] at hstep
    match result, hstep with
    | .ok (some w), hstep =>
      cases hstep
      have hvalue := congrFun hreg' rd
      simp only [settle, State.insert, State.writeRd, State.incrementPC, hreg, hrd,
        Function.update_self] at hvalue
      rw [hvalue]
    | .ok none, hstep =>
      cases hstep
      exact absurd (hpc.symm.trans hpc') hnext
  · intro hresult
    rw [hresult] at h
    refine ⟨st.insert ins v, h, ?_, ?_⟩
    · simp [State.insert, State.writeRd, State.incrementPC, hreg, hrd]
    · simp [State.insert, State.writeRd, State.incrementPC, hpc]

/-! ## Instructions of the R format -/

/-- The result of the case for an instruction, if there is a case for it. -/
def regResult (op : RegOp) (a b : Word) : Except Stop (Option Word) :=
  match op with
  | .add => .ok (some (a + b))
  | .sub => .ok (some (a - b))
  | .sll => .ok (some (a <<< shiftCount b))
  | .sltu => .ok (some (ofBool (a.ult b)))
  | .xor => .ok (some (a ^^^ b))
  | .srl => .ok (some (a >>> shiftCount b))
  | .or => .ok (some (a ||| b))
  | .and => .ok (some (a &&& b))
  | .mul => .ok (some (a * b))
  | .mulh => .ok (some (((a.signExtend 64 * b.signExtend 64).sshiftRight 32).setWidth 32))
  | .mulhsu => .ok (some ((((a * b).setWidth 64 : BitVec 64).sshiftRight 32).setWidth 32))
  | .mulhu => .ok (some ((((a * b).setWidth 64 : BitVec 64) >>> 32).setWidth 32))
  | .div => if b ≠ 0 then (divide a b).map some else .ok none
  | .divu => if b ≠ 0 then .ok (some (a / b)) else .ok none
  | .remu => (remainderUnsigned a b).map some
  | .slt | .sra | .rem => .ok none

theorem executeR_op (s : State) {ins : Instruction} {op : RegOp}
    (hf3 : ins.funct3 = op.funct3.setWidth 32) (hf7 : ins.funct7 = op.funct7.setWidth 32) :
    executeR s ins = (regResult op ins.rs1 ins.rs2).map (settle s ins) := by
  cases op <;> simp only [RegOp.funct3, RegOp.funct7] at hf3 hf7 <;>
    simp [executeR, hf3, hf7, regResult, settle, Except.map]
  case div =>
    by_cases hb : ins.rs2 = 0#32
    · simp [hb]
    · simp only [hb, ↓reduceIte]
      cases divide ins.rs1 ins.rs2 <;> rfl
  case divu =>
    by_cases hb : ins.rs2 = 0#32 <;> simp [hb]
  case remu =>
    cases remainderUnsigned ins.rs1 ins.rs2 <;> rfl

/-- The operands on which an instruction has the result that RV32IM defines. -/
def RegRight (op : RegOp) (a b : Word) : Prop :=
  match op with
  | .slt | .sra | .rem => False
  | .div => b ≠ 0 ∧ ¬(a = 0x80000000 ∧ b = -1)
  | .divu | .remu => b ≠ 0
  | .mulhsu => 0 ≤ a.toInt * b.toNat ∧ a.toInt * b.toNat < 2 ^ 32
  | .mulhu => a.toNat * b.toNat < 2 ^ 32
  | _ => True

theorem ofBool_eq (c : Bool) : ofBool c = if c = true then 1 else 0 := rfl

/-- The product in 32 bits has no upper half, which is right for a small product only. -/
theorem mulhsu_iff (a b : Word) :
    (0 : Word) = BitVec.ofInt 32 (a.toInt * b.toNat / 2 ^ 32) ↔
      0 ≤ a.toInt * b.toNat ∧ a.toInt * b.toNat < 2 ^ 32 := by
  have hb := b.isLt
  have hlow := BitVec.le_two_mul_toInt (x := a)
  have hhigh := BitVec.two_mul_toInt_lt (x := a)
  have hlow' : -(2 ^ 31 * 2 ^ 32) ≤ a.toInt * b.toNat := by nlinarith
  have hhigh' : a.toInt * b.toNat < 2 ^ 31 * 2 ^ 32 := by nlinarith
  rw [ofInt_zero_iff (by omega) (by omega)]
  omega

theorem mulhu_iff (a b : Word) :
    (0 : Word) = BitVec.ofNat 32 (a.toNat * b.toNat / 2 ^ 32) ↔ a.toNat * b.toNat < 2 ^ 32 := by
  have hproduct : a.toNat * b.toNat < 2 ^ 32 * 2 ^ 32 := Nat.mul_lt_mul'' a.isLt b.isLt
  rw [← BitVec.toNat_inj, BitVec.toNat_ofNat, Nat.mod_eq_of_lt (by omega)]
  have hzero : (0 : Word).toNat = 0 := rfl
  omega

theorem sdiv_eq (a b : Word) : a.sdiv b = BitVec.ofInt 32 (a.toInt.tdiv b.toInt) := by
  rw [← BitVec.toInt_inj, BitVec.toInt_sdiv, BitVec.toInt_ofInt]

theorem udiv_eq (a b : Word) : a / b = BitVec.ofNat 32 (a.toNat / b.toNat) := by
  rw [← BitVec.toNat_udiv, BitVec.ofNat_toNat, BitVec.setWidth_eq]

theorem umod_eq (a b : Word) : a % b = BitVec.ofNat 32 (a.toNat % b.toNat) := by
  rw [← BitVec.toNat_umod, BitVec.ofNat_toNat, BitVec.setWidth_eq]

theorem regResult_iff (op : RegOp) (a b : Word) :
    regResult op a b = .ok (some (op.result a b)) ↔ RegRight op a b := by
  cases op
  case div =>
    by_cases hb : b = 0
    · simp [regResult, RegRight, hb]
    · by_cases hfits : a = 0x80000000 ∧ b = -1
      · simp [regResult, RegRight, divide, hfits, Except.map]
      · simp only [regResult, RegRight, RegOp.result, divide, ne_eq, hb, hfits, not_false_eq_true, if_true,
          if_false, Except.map, sdiv_eq, and_self]
  case divu =>
    by_cases hb : b = 0#32 <;> simp [regResult, RegRight, RegOp.result, hb, udiv_eq]
  case remu =>
    by_cases hb : b = 0#32 <;>
      simp [regResult, RegRight, RegOp.result, remainderUnsigned, hb, Except.map, umod_eq]
  case mulhsu =>
    simp only [regResult, RegRight, RegOp.result, (no_upper_half _).1, Except.ok.injEq, Option.some.injEq]
    exact mulhsu_iff a b
  case mulhu =>
    simp only [regResult, RegRight, RegOp.result, (no_upper_half _).2, Except.ok.injEq, Option.some.injEq]
    exact mulhu_iff a b
  all_goals simp [regResult, RegRight, RegOp.result, shiftCount, ofBool_eq, BitVec.ult, upper_half_eq]

theorem iteration_reg {s : State} {op : RegOp} {rd rs1 rs2 : Register}
    (hfetch : Fetches s (op.encode rd rs1 rs2)) :
    iteration s = (regResult op (s.reg rs1) (s.reg rs2)).map
      (settle (fetched s (op.encode rd rs1 rs2)) (decode s (op.encode rd rs1 rs2))) := by
  obtain ⟨hop, -, hrs1, hrs2, hf3, hf7⟩ := decode_formatR s rd rs1 rs2 op.funct3 op.funct7
  have hstep := iteration_eq hfetch
  simp only [execute, RegOp.encode, hop] at hstep
  rw [hstep, executeR_op _ hf3 hf7, hrs1, hrs2]
  rfl

/-- An instruction of the R format has its result exactly on these operands. -/
theorem register_arithmetic_iff {s : State} {op : RegOp} {rd rs1 rs2 : Register}
    (hfetch : Fetches s (op.encode rd rs1 rs2)) :
    Computes s rd (op.result (s.reg rs1) (s.reg rs2)) ↔ RegRight op (s.reg rs1) (s.reg rs2) := by
  obtain ⟨-, hrd, -⟩ := decode_formatR s rd rs1 rs2 op.funct3 op.funct7
  rw [computes_iff (iteration_reg hfetch) rfl rfl hrd]
  exact regResult_iff op _ _

/-- x1 holds 7, and the other registers hold -2. -/
def sevenAndMinusTwo (r : Register) : Word := if r = 1 then 7 else -2

theorem register_arithmetic_iff_div :
    Fetches (single sevenAndMinusTwo (RegOp.div.encode 3 1 2)) (RegOp.div.encode 3 1 2) ∧
      Computes (single sevenAndMinusTwo (RegOp.div.encode 3 1 2)) 3 (-3) := by
  have hfetch := fetches_single sevenAndMinusTwo (RegOp.div.encode 3 1 2)
  have hright : RegRight .div (sevenAndMinusTwo 1) (sevenAndMinusTwo 2) := by
    simp only [RegRight]
    decide
  have hresult : RegOp.div.result (sevenAndMinusTwo 1) (sevenAndMinusTwo 2) = -3 := by decide
  exact ⟨hfetch, hresult ▸ (register_arithmetic_iff hfetch).mpr hright⟩

/-- `slt` is executed over and over again, and the product of -2 and 7 loses its upper half. -/
theorem register_arithmetic_wrong :
    (∃ s', iteration (single sevenAndMinusTwo (RegOp.slt.encode 3 1 2)) = .ok s' ∧ s'.pc = 0) ∧
      (∃ s', iteration (single sevenAndMinusTwo (RegOp.mulhsu.encode 3 2 1)) = .ok s' ∧
        s'.reg 3 = 0) ∧ RegOp.mulhsu.result (-2) 7 = -1 ∧
      ¬∀ (s : State) (op : RegOp) (rd rs1 rs2 : Register), rd ≠ 0 →
        Fetches s (op.encode rd rs1 rs2) → Computes s rd (op.result (s.reg rs1) (s.reg rs2)) := by
  have hslt := iteration_reg (fetches_single sevenAndMinusTwo (RegOp.slt.encode 3 1 2))
  have hmul := iteration_reg (fetches_single sevenAndMinusTwo (RegOp.mulhsu.encode 3 2 1))
  refine ⟨⟨_, hslt, rfl⟩, ⟨_, hmul, by decide⟩, by decide, ?_⟩
  intro hall
  have h := hall _ .slt 3 1 2 (by decide) (fetches_single sevenAndMinusTwo _)
  obtain ⟨s', hstep, -, hpc⟩ := h
  rw [hslt] at hstep
  cases hstep
  exact absurd hpc (by decide)

/-! ## Instructions with an immediate -/

open RiscV (ArithOp ShiftOp)

/-- The result of the case for an instruction, if there is a case for it. -/
def immResult (op : ImmOp) (a : Word) : Option Word :=
  match op with
  | .arith .addi imm => some (a + imm.signExtend 32)
  | .arith .slti imm => some (ofBool (a.slt (imm.signExtend 32)))
  | .arith .sltiu imm => some (ofBool (a.ult (imm.signExtend 32)))
  | .arith .xori imm => some (a ^^^ imm.signExtend 32)
  | .arith .ori imm => some (a ||| imm.signExtend 32)
  | .arith .andi imm => some (a &&& imm.signExtend 32)
  | .shift .slli shamt => some (a <<< (shamt.toNat % 16))
  | .shift .srli shamt => some (a >>> (shamt.toNat % 16))
  | .shift .srai _ => none

/-- The kind and the amount that are found in the immediate of a shift. -/
theorem shift_field (kind : BitVec 7) (shamt : BitVec 5) {ins : Instruction}
    (himm : ins.immediate = (kind ++ shamt).signExtend 32) :
    shiftKind ins = kind.setWidth 32 ∧ shiftAmount ins = shamt.toNat % 16 := by
  have hmask7 : (0x7F#32) = BitField.mask 32 7 := by decide
  have hmask4 : (0xF#32) = BitField.mask 32 4 := by decide
  constructor
  · rw [shiftKind, himm, hmask7, BitField.sshiftRight_and_mask _ _ _ (by decide),
      BitField.extract_signExtend _ _ _ (by decide) (by decide), BitVec.extractLsb'_append_eq_left]
  · rw [shiftAmount, himm, hmask4, BitField.and_mask _ _ (by decide),
      BitField.extract_signExtend _ _ _ (by decide) (by decide),
      BitVec.extractLsb'_append_eq_of_add_le (by decide), BitVec.toNat_setWidth,
      BitVec.extractLsb'_toNat]
    have hlt := shamt.isLt
    simp
    omega

theorem executeI1_op (s : State) {ins : Instruction} {op : ImmOp}
    (hf3 : ins.funct3 = op.funct3.setWidth 32) (himm : ins.immediate = op.field.signExtend 32) :
    executeI1 s ins = settle s ins (immResult op ins.rs1) := by
  match op with
  | .arith op imm =>
    cases op <;> simp only [ImmOp.funct3, ImmOp.field] at hf3 himm <;>
      simp [executeI1, hf3, himm, immResult, settle]
  | .shift op shamt =>
    cases op <;> simp only [ImmOp.funct3, ImmOp.field] at hf3 himm <;>
      obtain ⟨hkind, hamount⟩ := shift_field _ _ himm <;>
      simp [executeI1, hf3, hkind, hamount, immResult, settle]

/-- The operands on which an instruction has the result that RV32I defines. -/
def ImmRight (op : ImmOp) (a : Word) : Prop :=
  match op with
  | .arith _ _ => True
  | .shift .slli shamt => shamt.toNat < 16 ∨ 2 ^ 32 ∣ a.toNat * 2 ^ (shamt.toNat - 16)
  | .shift .srli shamt => shamt.toNat < 16 ∨ a.toNat < 2 ^ (shamt.toNat - 16)
  | .shift .srai _ => False

/-- Shifting a word by sixteen more places changes it unless it is zero already. -/
theorem shiftLeft_sixteen (x : Word) : x = x <<< 16 ↔ x = 0 := by
  constructor
  · intro h
    have htwice : x <<< 16 = x <<< 16 <<< 16 := by rwa [← h]
    calc x = x <<< 16 <<< 16 := h.trans htwice
      _ = x <<< (16 + 16) := (BitVec.shiftLeft_add x 16 16).symm
      _ = 0 := BitVec.shiftLeft_eq_zero le_rfl
  · rintro rfl
    rfl

theorem ushiftRight_sixteen (x : Word) : x = x >>> 16 ↔ x = 0 := by
  constructor
  · intro h
    have htwice : x >>> 16 = x >>> 16 >>> 16 := by rwa [← h]
    calc x = x >>> 16 >>> 16 := h.trans htwice
      _ = x >>> (16 + 16) := (BitVec.shiftRight_add x 16 16).symm
      _ = 0 := BitVec.ushiftRight_eq_zero le_rfl
  · rintro rfl
    rfl

theorem immResult_iff (op : ImmOp) (a : Word) :
    immResult op a = some (op.result a) ↔ ImmRight op a := by
  match op with
  | .arith .slti imm =>
    have hsign : (imm.signExtend 32).toInt = imm.toInt := BitVec.toInt_signExtend_of_le (by decide)
    simp [immResult, ImmRight, ImmOp.result, ofBool_eq, BitVec.slt, hsign]
  | .arith .sltiu imm => simp [immResult, ImmRight, ImmOp.result, ofBool_eq, BitVec.ult]
  | .arith .addi imm | .arith .xori imm | .arith .ori imm | .arith .andi imm =>
    simp [immResult, ImmRight, ImmOp.result]
  | .shift .srai shamt => simp [immResult, ImmRight]
  | .shift .slli shamt =>
    simp only [immResult, ImmRight, ImmOp.result, Option.some.injEq]
    by_cases hsmall : shamt.toNat < 16
    · simp [hsmall, Nat.mod_eq_of_lt hsmall]
    · have hmod : shamt.toNat % 16 = shamt.toNat - 16 := by
        have hlt := shamt.isLt
        omega
      have hsum : shamt.toNat - 16 + 16 = shamt.toNat := by omega
      rw [or_iff_right hsmall, hmod, ← shiftLeft_zero_iff, ← shiftLeft_sixteen,
        ← BitVec.shiftLeft_add, hsum]
  | .shift .srli shamt =>
    simp only [immResult, ImmRight, ImmOp.result, Option.some.injEq]
    by_cases hsmall : shamt.toNat < 16
    · simp [hsmall, Nat.mod_eq_of_lt hsmall]
    · have hmod : shamt.toNat % 16 = shamt.toNat - 16 := by
        have hlt := shamt.isLt
        omega
      have hsum : shamt.toNat - 16 + 16 = shamt.toNat := by omega
      rw [or_iff_right hsmall, hmod, ← ushiftRight_zero_iff, ← ushiftRight_sixteen,
        ← BitVec.shiftRight_add, hsum]

theorem iteration_imm {s : State} {op : ImmOp} {rd rs1 : Register}
    (hfetch : Fetches s (op.encode rd rs1)) :
    iteration s = (Except.ok (immResult op (s.reg rs1))).map
      (settle (fetched s (op.encode rd rs1)) (decode s (op.encode rd rs1))) := by
  obtain ⟨hop, -, hrs1, hf3, himm⟩ := decode_formatI s rd rs1 op.funct3 computation_mem op.field
  have hstep := iteration_eq hfetch
  simp only [execute, ImmOp.encode, hop] at hstep
  rw [hstep, executeI1_op _ hf3 himm, hrs1]
  rfl

/-- An instruction with an immediate has its result exactly on these operands. -/
theorem immediate_arithmetic_iff {s : State} {op : ImmOp} {rd rs1 : Register}
    (hfetch : Fetches s (op.encode rd rs1)) :
    Computes s rd (op.result (s.reg rs1)) ↔ ImmRight op (s.reg rs1) := by
  obtain ⟨-, hrd, -⟩ := decode_formatI s rd rs1 op.funct3 computation_mem op.field
  rw [computes_iff (iteration_imm hfetch) rfl rfl hrd, Except.ok.injEq]
  exact immResult_iff op _

/-- `srli x3, x1, 20` loses all bits of 7 twice over. -/
theorem immediate_arithmetic_iff_srli :
    Fetches (single sevenAndMinusTwo ((ImmOp.shift .srli 20).encode 3 1))
        ((ImmOp.shift .srli 20).encode 3 1) ∧
      Computes (single sevenAndMinusTwo ((ImmOp.shift .srli 20).encode 3 1)) 3 0 := by
  have hfetch := fetches_single sevenAndMinusTwo ((ImmOp.shift .srli 20).encode 3 1)
  have hright : ImmRight (.shift .srli 20) (sevenAndMinusTwo 1) := by
    simp only [ImmRight]
    decide
  have hresult : (ImmOp.shift .srli 20).result (sevenAndMinusTwo 1) = 0 := by decide
  exact ⟨hfetch, hresult ▸ (immediate_arithmetic_iff hfetch).mpr hright⟩

/-- `slli x3, x1, 16` shifts by nothing, and `srai` is executed over and over again. -/
theorem immediate_arithmetic_wrong :
    (∃ s', iteration (single sevenAndMinusTwo ((ImmOp.shift .slli 16).encode 3 1)) = .ok s' ∧
        s'.reg 3 = 7) ∧ (ImmOp.shift .slli 16).result 7 = 0x70000 ∧
      (∃ s', iteration (single sevenAndMinusTwo ((ImmOp.shift .srai 1).encode 3 1)) = .ok s' ∧
        s'.pc = 0) ∧
      ¬∀ (s : State) (op : ImmOp) (rd rs1 : Register), rd ≠ 0 →
        Fetches s (op.encode rd rs1) → Computes s rd (op.result (s.reg rs1)) := by
  have hslli := iteration_imm (fetches_single sevenAndMinusTwo ((ImmOp.shift .slli 16).encode 3 1))
  have hsrai := iteration_imm (fetches_single sevenAndMinusTwo ((ImmOp.shift .srai 1).encode 3 1))
  refine ⟨⟨_, hslli, by decide⟩, by decide, ⟨_, hsrai, rfl⟩, ?_⟩
  intro hall
  have h := hall _ (.shift .srai 1) 3 1 (by decide) (fetches_single sevenAndMinusTwo _)
  obtain ⟨s', hstep, -, hpc⟩ := h
  rw [hsrai] at hstep
  cases hstep
  exact absurd hpc (by decide)

/-! ## Upper immediates -/

/-- Nine bits of the word, from the topmost one of `rd` on, end up in the upper nine bits. -/
theorem immediateU_shifted (inst : Word) :
    immediateU inst <<< 12 = (inst.extractLsb' 11 9 ++ 0#23).cast rfl := by
  have hmask : (0x7FFFF800#32) = BitField.mask 32 20 <<< 11 := by decide
  apply BitVec.eq_of_getLsbD_eq
  intro i hi
  simp only [immediateU, hmask, BitVec.getLsbD_cast, BitVec.getLsbD_append, BitVec.getLsbD_and,
    BitVec.getLsbD_shiftLeft, BitField.getLsbD_mask, BitVec.getLsbD_extractLsb']
  by_cases h23 : i < 23
  · have hlow : i < 12 ∨ i - 12 < 11 := by omega
    rcases hlow with hlow | hlow <;> simp [h23, hlow]
  · have h12 : ¬ i < 12 := by omega
    have h11 : ¬ i - 12 < 11 := by omega
    have hword : i - 12 < 32 := by omega
    have hsize : i - 12 - 11 < 20 := by omega
    have hlt : i - 12 - 11 < 32 := by omega
    have hfield : i - 23 < 9 := by omega
    have hbit : 11 + (i - 23) = i - 12 := by omega
    simp [hi, h23, h12, h11, hword, hsize, hlt, hfield, hbit]

theorem toNat_formatU (opcode : BitVec 7) (rd : Register) (imm : BitVec 20) :
    (RiscV.formatU opcode rd imm).toNat = imm.toNat * 2 ^ 12 + rd.toNat * 2 ^ 7 + opcode.toNat := by
  rw [RiscV.formatU, BitVec.toNat_cast, BitVec.toNat_append, BitVec.toNat_append,
    ← Nat.shiftLeft_add_eq_or_of_lt rd.isLt, ← Nat.shiftLeft_add_eq_or_of_lt opcode.isLt,
    Nat.shiftLeft_eq, Nat.shiftLeft_eq]
  omega

/-- Of the immediate only 0x800 survives, and it is there exactly when `rd` is x16 or above. -/
theorem upper_iff (opcode : BitVec 7) (rd : Register) (imm : BitVec 20) :
    immediateU (RiscV.formatU opcode rd imm) <<< 12 = RiscV.upper imm ↔
      imm.toNat = 0x800 * (rd.toNat / 16) := by
  have himm := imm.isLt
  have hrd := rd.isLt
  have hop := opcode.isLt
  rw [immediateU_shifted, ← BitVec.toNat_inj, BitVec.toNat_cast, BitVec.toNat_append,
    ← Nat.shiftLeft_add_eq_or_of_lt (by decide), BitVec.extractLsb'_toNat, toNat_formatU,
    RiscV.upper, BitVec.toNat_ofNat, Nat.shiftLeft_eq, Nat.shiftRight_eq_div_pow,
    BitVec.toNat_ofNat]
  omega

theorem iteration_lui {s : State} {rd : Register} {imm : BitVec 20}
    (hfetch : Fetches s (RiscV.encodeLui rd imm)) :
    iteration s = (Except.ok (some (immediateU (RiscV.encodeLui rd imm) <<< 12))).map
      (settle (fetched s (RiscV.encodeLui rd imm)) (decode s (RiscV.encodeLui rd imm))) := by
  obtain ⟨hop, -, -, himm⟩ := decode_formatU s rd lui_mem imm
  have hstep := iteration_eq hfetch
  simp only [execute, RiscV.encodeLui, hop, himm] at hstep
  exact hstep

/-- `auipc` has a case only where the lowest bits of its immediate are zero. -/
theorem iteration_auipc {s : State} {rd : Register} {imm : BitVec 20}
    (hfetch : Fetches s (RiscV.encodeAuipc rd imm)) :
    iteration s = (Except.ok (if imm.toNat % 8 = 0 then
        some (s.pc + immediateU (RiscV.encodeAuipc rd imm) <<< 12) else none)).map
      (settle (fetched s (RiscV.encodeAuipc rd imm)) (decode s (RiscV.encodeAuipc rd imm))) := by
  obtain ⟨hop, -, hf3, himm⟩ := decode_formatU s rd auipc_mem imm
  have hlow : (decode s (RiscV.formatU 0x17 rd imm)).funct3.toNat = imm.toNat % 8 := by
    rw [hf3, BitVec.toNat_setWidth, BitVec.extractLsb'_toNat, Nat.shiftRight_zero]
    omega
  have hstep := iteration_eq hfetch
  simp only [execute, RiscV.encodeAuipc, hop, himm, hlow] at hstep
  rw [hstep]
  by_cases hzero : imm.toNat % 8 = 0
  · rw [if_pos hzero]
    split
    case h_1 => rfl
    case h_2 hne => exact absurd hzero hne
  · rw [if_neg hzero]
    split
    case h_1 heq => exact absurd heq hzero
    case h_2 => rfl

/-- `lui` and `auipc` have their results exactly with these immediates. -/
theorem upper_immediates_iff (s : State) (rd : Register) (imm : BitVec 20) :
    (Fetches s (RiscV.encodeLui rd imm) →
      (Computes s rd (RiscV.upper imm) ↔ imm.toNat = 0x800 * (rd.toNat / 16))) ∧
    (Fetches s (RiscV.encodeAuipc rd imm) →
      (Computes s rd (s.pc + RiscV.upper imm) ↔ imm.toNat = 0x800 * (rd.toNat / 16))) := by
  constructor
  · intro hfetch
    obtain ⟨-, hrd, -⟩ := decode_formatU s rd lui_mem imm
    rw [computes_iff (iteration_lui hfetch) rfl rfl hrd, Except.ok.injEq, Option.some.injEq]
    exact upper_iff 0x37 rd imm
  · intro hfetch
    obtain ⟨-, hrd, -⟩ := decode_formatU s rd auipc_mem imm
    rw [computes_iff (iteration_auipc hfetch) rfl rfl hrd, Except.ok.injEq]
    by_cases hzero : imm.toNat % 8 = 0
    · rw [if_pos hzero, Option.some.injEq, BitVec.add_right_inj]
      exact upper_iff 0x17 rd imm
    · rw [if_neg hzero]
      constructor
      · intro hnone
        cases hnone
      · intro hsmall
        omega

/-- `lui x16, 0x800`, and `auipc x1, 0` at address 0. -/
theorem upper_immediates_iff_samples :
    Fetches (single (fun _ => 0) (RiscV.encodeLui 16 0x800)) (RiscV.encodeLui 16 0x800) ∧
      Computes (single (fun _ => 0) (RiscV.encodeLui 16 0x800)) 16 0x800000 ∧
      Fetches (single (fun _ => 0) (RiscV.encodeAuipc 1 0)) (RiscV.encodeAuipc 1 0) ∧
      Computes (single (fun _ => 0) (RiscV.encodeAuipc 1 0)) 1 0 := by
  have hlui := fetches_single (fun _ => 0) (RiscV.encodeLui 16 0x800)
  have hauipc := fetches_single (fun _ => 0) (RiscV.encodeAuipc 1 0)
  exact ⟨hlui, ((upper_immediates_iff _ 16 0x800).1 hlui).mpr (by decide),
    hauipc, ((upper_immediates_iff _ 1 0).2 hauipc).mpr (by decide)⟩

/-- `lui x1, 1` writes 2^24, and `auipc x1, 1` is executed over and over again. -/
theorem upper_immediates_wrong :
    (∃ s', iteration (single (fun _ => 0) (RiscV.encodeLui 1 1)) = .ok s' ∧
        s'.reg 1 = 0x1000000) ∧ RiscV.upper 1 = 0x1000 ∧
      (∃ s', iteration (single (fun _ => 0) (RiscV.encodeAuipc 1 1)) = .ok s' ∧ s'.pc = 0) ∧
      ¬∀ (s : State) (rd : Register) (imm : BitVec 20), rd ≠ 0 →
        (Fetches s (RiscV.encodeLui rd imm) → Computes s rd (RiscV.upper imm)) ∧
        (Fetches s (RiscV.encodeAuipc rd imm) → Computes s rd (s.pc + RiscV.upper imm)) := by
  have hlui := iteration_lui (fetches_single (fun _ => 0) (RiscV.encodeLui 1 1))
  have hauipc := iteration_auipc (fetches_single (fun _ => 0) (RiscV.encodeAuipc 1 1))
  refine ⟨⟨_, hlui, by decide⟩, by decide, ⟨_, hauipc, rfl⟩, ?_⟩
  intro hall
  have h := (hall _ 1 1 (by decide)).2 (fetches_single (fun _ => 0) _)
  obtain ⟨s', hstep, -, hpc⟩ := h
  rw [hauipc] at hstep
  cases hstep
  exact absurd hpc (by decide)

end CompSys.Simulate
