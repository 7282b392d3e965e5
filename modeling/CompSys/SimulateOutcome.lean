import CompSys.RiscV
import CompSys.SimMemoryBytes
import CompSys.Simulate
import Mathlib.Data.BitVec

/-!
# What one iteration of the simulator can do

Every word that is fetched, legal or not, leads to one of four outcomes: a register is
written, bytes are stored, a branch is decided, or nothing happens. The operations that
write a register are named here together with the operands for which their result is zero.
-/
namespace CompSys.Simulate

open RiscV (StoreOp BranchOp)

/-! ## The writing operations -/

/-- The operations of `simulate` that write a register. -/
inductive Operation where
  | add | sub | mul | mulhsu | xor | div | or | and | remu | sll | mulh | srl | sra | divu | mulhu
  | sltu | addi | xori | ori | andi | slli | srli | srai | slti | sltiu | lb | lh | lw | lbu | lhu
  | jal | jalr | lui | auipc
deriving DecidableEq

namespace Operation

/-- The operands on which the result is zero. -/
def Vanishes (s : State) (ins : Instruction) : Operation → Prop
  | add => ins.rs2 = -ins.rs1
  | sub | xor => ins.rs1 = ins.rs2
  | mul => 2 ^ 32 ∣ ins.rs1.toNat * ins.rs2.toNat
  | mulhsu | mulhu => True
  | div => ins.rs1.toInt.natAbs < ins.rs2.toInt.natAbs
  | or => ins.rs1 = 0 ∧ ins.rs2 = 0
  | and => ins.rs1 &&& ins.rs2 = 0
  | remu => ins.rs2.toNat ∣ ins.rs1.toNat
  | sll => 2 ^ 32 ∣ ins.rs1.toNat * 2 ^ shiftCount ins.rs2
  | mulh => 0 ≤ ins.rs1.toInt * ins.rs2.toInt ∧ ins.rs1.toInt * ins.rs2.toInt < 2 ^ 32
  | srl => ins.rs1.toNat < 2 ^ shiftCount ins.rs2
  | sra => 0 ≤ ins.rs1.toInt ∧ ins.rs1.toInt < 2 ^ shiftCount ins.rs2
  | divu => ins.rs1.toNat < ins.rs2.toNat
  | sltu => ins.rs2.toNat ≤ ins.rs1.toNat
  | addi => ins.immediate = -ins.rs1
  | xori => ins.rs1 = ins.immediate
  | ori => ins.rs1 = 0 ∧ ins.immediate = 0
  | andi => ins.rs1 &&& ins.immediate = 0
  | slli => 2 ^ 32 ∣ ins.rs1.toNat * 2 ^ shiftAmount ins
  | srli => ins.rs1.toNat < 2 ^ shiftAmount ins
  | srai => 0 ≤ ins.rs1.toInt ∧ ins.rs1.toInt < 2 ^ shiftAmount ins
  | slti => ins.immediate.toInt ≤ ins.rs1.toInt
  | sltiu => ins.immediate.toNat ≤ ins.rs1.toNat
  | lb | lbu => s.mem.bytes (dataAddress s ins) = 0
  | lh | lhu => ByteMemory.readH s.mem.bytes (dataAddress s ins) = 0
  | lw => ByteMemory.readW s.mem.bytes (dataAddress s ins) = 0
  | jal | jalr => s.pc = -4
  | lui => 2 ^ 20 ∣ ins.immediate.toNat
  | auipc => s.pc = -(ins.immediate <<< 12)

instance (s : State) (ins : Instruction) (op : Operation) : Decidable (op.Vanishes s ins) := by
  cases op <;> unfold Vanishes <;> infer_instance

end Operation

/-- The operation an instruction selects by its fields; a division by zero selects none. -/
def operation (ins : Instruction) : Option Operation :=
  match ins.opcode, ins.funct3.toNat with
  | some .R, 0x0 =>
    if ins.funct7 = 0x00 then some .add
    else if ins.funct7 = 0x20 then some .sub
    else if ins.funct7 = 0x01 then some .mul
    else none
  | some .R, 0x2 => if ins.funct7 = 0x01 then some .mulhsu else none
  | some .R, 0x4 =>
    if ins.funct7 = 0x00 then some .xor
    else if ins.funct7 = 0x01 ∧ ins.rs2 ≠ 0 then some .div
    else none
  | some .R, 0x6 => if ins.funct7 = 0x00 then some .or else none
  | some .R, 0x7 =>
    if ins.funct7 = 0x00 then some .and
    else if ins.funct7 = 0x01 then some .remu
    else none
  | some .R, 0x1 =>
    if ins.funct7 = 0x00 then some .sll
    else if ins.funct7 = 0x01 then some .mulh
    else none
  | some .R, 0x5 =>
    if ins.funct7 = 0x00 then some .srl
    else if ins.funct7 = 0x5 then some .sra
    else if ins.funct7 = 0x01 ∧ ins.rs2 ≠ 0 then some .divu
    else none
  | some .R, 0x3 =>
    if ins.funct7 = 0x01 then some .mulhu
    else if ins.funct7 = 0x0 then some .sltu
    else none
  | some .I1, 0x0 => some .addi
  | some .I1, 0x4 => some .xori
  | some .I1, 0x6 => some .ori
  | some .I1, 0x7 => some .andi
  | some .I1, 0x1 => if shiftKind ins = 0x00 then some .slli else none
  | some .I1, 0x5 =>
    if shiftKind ins = 0x00 then some .srli
    else if shiftKind ins = 0x02 then some .srai
    else none
  | some .I1, 0x2 => some .slti
  | some .I1, 0x3 => some .sltiu
  | some .I2, 0x0 => some .lb
  | some .I2, 0x1 => some .lh
  | some .I2, 0x2 => some .lw
  | some .I2, 0x4 => some .lbu
  | some .I2, 0x5 => some .lhu
  | some .J, _ => some .jal
  | some .I3, 0x0 => some .jalr
  | some .U1, _ => some .lui
  | some .U2, 0x0 => some .auipc
  | _, _ => none

/-! ## When a result is zero -/

theorem toInt_zero : (0 : Word).toInt = 0 := rfl

theorem add_zero_iff (a b : Word) : a + b = 0 ↔ b = -a := add_eq_zero_iff_eq_neg'

theorem mul_zero_iff (a b : Word) : a * b = 0 ↔ 2 ^ 32 ∣ a.toNat * b.toNat := by
  rw [← BitVec.toNat_inj, BitVec.toNat_mul, Nat.dvd_iff_mod_eq_zero]
  rfl

theorem or_zero_iff (a b : Word) : a ||| b = 0 ↔ a = 0 ∧ b = 0 := by
  constructor
  · intro h
    have hbit : ∀ i, a.getLsbD i = false ∧ b.getLsbD i = false := by
      intro i
      have hi := congrArg (fun x : Word => x.getLsbD i) h
      simpa using hi
    exact ⟨BitVec.eq_of_getLsbD_eq fun i _ => by simp [(hbit i).1],
      BitVec.eq_of_getLsbD_eq fun i _ => by simp [(hbit i).2]⟩
  · rintro ⟨rfl, rfl⟩
    rfl

theorem shiftLeft_zero_iff (a : Word) (n : Nat) : a <<< n = 0 ↔ 2 ^ 32 ∣ a.toNat * 2 ^ n := by
  rw [← BitVec.toNat_inj, BitVec.toNat_shiftLeft, Nat.shiftLeft_eq, Nat.dvd_iff_mod_eq_zero]
  rfl

theorem ushiftRight_zero_iff (a : Word) (n : Nat) : a >>> n = 0 ↔ a.toNat < 2 ^ n := by
  rw [← BitVec.toNat_inj, BitVec.toNat_ushiftRight, Nat.shiftRight_eq_div_pow]
  simp

theorem sshiftRight_zero_iff (a : Word) (n : Nat) :
    a.sshiftRight n = 0 ↔ 0 ≤ a.toInt ∧ a.toInt < 2 ^ n := by
  have hpos : (0 : Int) < 2 ^ n := Int.pow_pos (by decide)
  rw [← BitVec.toInt_inj, BitVec.toInt_sshiftRight, Int.shiftRight_eq_div_pow]
  constructor
  · intro h
    have hsplit := Int.mul_ediv_add_emod a.toInt (2 ^ n)
    have hzero : a.toInt / 2 ^ n = 0 := by simpa using h
    have hnonneg := Int.emod_nonneg a.toInt (Int.ne_of_gt hpos)
    have hlt := Int.emod_lt_of_pos a.toInt hpos
    rw [hzero, Int.mul_zero, Int.zero_add] at hsplit
    omega
  · rintro ⟨hnonneg, hlt⟩
    exact Int.ediv_eq_zero_of_lt hnonneg (by exact_mod_cast hlt)

theorem udiv_zero_iff (a b : Word) (hb : b ≠ 0) : a / b = 0 ↔ a.toNat < b.toNat := by
  have hb' : b.toNat ≠ 0 := fun h => hb (BitVec.eq_of_toNat_eq h)
  rw [← BitVec.toNat_inj, BitVec.toNat_udiv]
  simp [Nat.div_eq_zero_iff, hb']

theorem umod_zero_iff (a b : Word) : a % b = 0 ↔ b.toNat ∣ a.toNat := by
  rw [← BitVec.toNat_inj, BitVec.toNat_umod, Nat.dvd_iff_mod_eq_zero]
  rfl

theorem sdiv_zero_iff (a b : Word) (hb : b ≠ 0) (hfits : ¬(a = 0x80000000 ∧ b = -1)) :
    a.sdiv b = 0 ↔ a.toInt.natAbs < b.toInt.natAbs := by
  have hb' : b.toInt.natAbs ≠ 0 := by
    intro h
    exact hb (BitVec.eq_of_toInt_eq (Int.natAbs_eq_zero.mp h))
  have hrange : a ≠ BitVec.intMin 32 ∨ b ≠ -1#32 := by
    by_cases ha : a = BitVec.intMin 32
    · exact Or.inr fun hminus => hfits ⟨ha, hminus⟩
    · exact Or.inl ha
  rw [← BitVec.toInt_inj, BitVec.toInt_sdiv_of_ne_or_ne a b hrange, toInt_zero,
    ← Int.natAbs_eq_zero, Int.natAbs_tdiv]
  exact Nat.div_eq_zero_iff.trans (or_iff_right hb')

/-- The upper half of a 64-bit product of two ints. -/
theorem upper_half_eq (a b : Word) :
    (((a.signExtend 64 * b.signExtend 64).sshiftRight 32).setWidth 32 : Word) =
      BitVec.ofInt 32 (a.toInt * b.toInt / 2 ^ 32) := by
  have hlow : -(2 ^ (32 * 2 - 2)) ≤ a.toInt * b.toInt := BitVec.le_toInt_mul_toInt
  have hhigh : a.toInt * b.toInt ≤ 2 ^ (32 * 2 - 2) := BitVec.toInt_mul_toInt_le
  have hproduct : (a.signExtend 64 * b.signExtend 64).toInt = a.toInt * b.toInt := by
    rw [BitVec.toInt_mul, BitVec.toInt_signExtend_of_le (by decide),
      BitVec.toInt_signExtend_of_le (by decide)]
    exact Int.bmod_eq_of_le (by omega) (by omega)
  rw [← BitVec.signExtend_eq_setWidth_of_le _ (by decide), BitVec.signExtend,
    BitVec.toInt_sshiftRight, hproduct, Int.shiftRight_eq_div_pow]
  rfl

theorem ofInt_zero_iff {q : ℤ} (hlow : -(2 ^ 31) ≤ q) (hhigh : q < 2 ^ 31) :
    (0 : Word) = BitVec.ofInt 32 q ↔ q = 0 := by
  rw [← BitVec.toInt_inj, BitVec.toInt_ofInt, Int.bmod_eq_of_le (by omega) (by omega)]
  exact eq_comm

theorem upper_half_zero_iff (a b : Word) :
    (((a.signExtend 64 * b.signExtend 64).sshiftRight 32).setWidth 32 : Word) = 0 ↔
      0 ≤ a.toInt * b.toInt ∧ a.toInt * b.toInt < 2 ^ 32 := by
  have hlow : -(2 ^ (32 * 2 - 2)) ≤ a.toInt * b.toInt := BitVec.le_toInt_mul_toInt
  have hhigh : a.toInt * b.toInt ≤ 2 ^ (32 * 2 - 2) := BitVec.toInt_mul_toInt_le
  rw [upper_half_eq, eq_comm, ofInt_zero_iff (by omega) (by omega)]
  omega

/-- `mulsu` and `mulhu` multiply in 32 bits, so there is no upper half. -/
theorem no_upper_half (a : Word) :
    (((a.setWidth 64 : BitVec 64).sshiftRight 32).setWidth 32 : Word) = 0 ∧
      (((a.setWidth 64 : BitVec 64) >>> 32).setWidth 32 : Word) = 0 := by
  constructor <;>
  · apply BitVec.eq_of_getLsbD_eq
    intro i hi
    have hupper : 32 + i < 64 := by omega
    simp [BitVec.getLsbD_sshiftRight, hi, hupper]

theorem ofBool_zero_iff (c : Bool) : ofBool c = 0 ↔ c = false := by
  cases c <;> decide

theorem setWidth_zero_iff {w : Nat} (h : w ≤ 32) (x : BitVec w) :
    (x.setWidth 32 : Word) = 0 ↔ x = 0 := by
  have hlt := x.isLt
  have hpow : 2 ^ w ≤ 2 ^ 32 := Nat.pow_le_pow_right (by decide) h
  rw [← BitVec.toNat_inj, ← BitVec.toNat_inj, BitVec.toNat_setWidth,
    Nat.mod_eq_of_lt (by omega)]
  rfl

/-! ## Outcomes -/

/-- A block of the `switch` is executed; the block of a division by zero is not. -/
def Matches (ins : Instruction) : Prop :=
  (∃ op, operation ins = some op) ∨
    (ins.opcode = some .S ∧ ∃ op : StoreOp, ins.funct3 = op.funct3.setWidth 32) ∨
    (ins.opcode = some .B ∧ ∃ op : BranchOp, ins.funct3 = op.funct3.setWidth 32)

/-- The addresses where the program may go on. -/
inductive GoesTo (s : State) (ins : Instruction) : Word → Prop where
  | next : ins.opcode ≠ some .J → ins.opcode ≠ some .I3 → GoesTo s ins (s.pc + 4)
  | branch : ins.opcode = some .B → GoesTo s ins (s.pc + ins.immediate)
  | jal : ins.opcode = some .J → GoesTo s ins (s.pc + ins.immediate)
  | jalr : ins.opcode = some .I3 → GoesTo s ins (ins.rs1 + ins.immediate)

/-- What executing an instruction does to the PC, the registers and the bytes. -/
inductive Outcome (s : State) (ins : Instruction) (s' : State) : Prop where
  | written (op : Operation) (v : Word) : operation ins = some op → (v = 0 ↔ op.Vanishes s ins) →
      s'.reg = Function.update s.reg ins.rd v → s'.mem.bytes = s.mem.bytes →
      GoesTo s ins s'.pc → Outcome s ins s'
  | stored (op : StoreOp) : ins.opcode = some .S → ins.funct3 = op.funct3.setWidth 32 →
      s'.reg = s.reg → s'.mem.bytes = op.write s.mem.bytes (dataAddress s ins) ins.rs2 →
      s'.pc = s.pc + 4 → Outcome s ins s'
  | branched (op : BranchOp) : ins.opcode = some .B → ins.funct3 = op.funct3.setWidth 32 →
      s'.reg = s.reg → s'.mem.bytes = s.mem.bytes → GoesTo s ins s'.pc → Outcome s ins s'
  | kept : ¬ Matches ins → s'.pc = s.pc → s'.reg = s.reg → s'.mem.bytes = s.mem.bytes →
      Outcome s ins s'

/-- Whether a result is zero depends on the memory through its bytes alone. -/
theorem Operation.vanishes_congr (op : Operation) (ins : Instruction) {s s' : State}
    (hpc : s'.pc = s.pc) (hbytes : s'.mem.bytes = s.mem.bytes) :
    op.Vanishes s' ins ↔ op.Vanishes s ins := by
  have haddress : dataAddress s' ins = dataAddress s ins := by
    rw [dataAddress, dataAddress, hpc]
  cases op <;> simp only [Vanishes, haddress, hpc, hbytes]

/-- An outcome is about the PC, the registers and the bytes of the state before. -/
theorem Outcome.congr {s₁ s s' : State} {ins : Instruction} (h : Outcome s₁ ins s')
    (hpc : s₁.pc = s.pc) (hreg : s₁.reg = s.reg) (hmem : s₁.mem.bytes = s.mem.bytes) :
    Outcome s ins s' := by
  have hgoes : ∀ a, GoesTo s₁ ins a → GoesTo s ins a := by
    intro a ha
    cases ha with
    | next hJ hI3 => exact hpc ▸ .next hJ hI3
    | branch hop => exact hpc ▸ .branch hop
    | jal hop => exact hpc ▸ .jal hop
    | jalr hop => exact .jalr hop
  have haddress : dataAddress s₁ ins = dataAddress s ins := by
    rw [dataAddress, dataAddress, hpc]
  cases h with
  | written op v hsel hv hwritten hbytes hnext =>
    exact .written op v hsel (hv.trans (op.vanishes_congr ins hpc hmem)) (hreg ▸ hwritten)
      (hbytes.trans hmem) (hgoes _ hnext)
  | stored op hop hf hkept hbytes hnext =>
    rw [hmem, haddress] at hbytes
    exact .stored op hop hf (hkept.trans hreg) hbytes (hpc ▸ hnext)
  | branched op hop hf hkept hbytes hnext =>
    exact .branched op hop hf (hkept.trans hreg) (hbytes.trans hmem) (hgoes _ hnext)
  | kept hno hsame hkept hbytes =>
    exact .kept hno (hsame.trans hpc) (hkept.trans hreg) (hbytes.trans hmem)

/-- The last three lines of a case, after its memory access if it has one. -/
theorem Outcome.insert {s st : State} {ins : Instruction} (op : Operation) (v : Word)
    (hop : operation ins = some op) (hv : v = 0 ↔ op.Vanishes s ins)
    (hj : ins.opcode ≠ some .J) (hi : ins.opcode ≠ some .I3)
    (hreg : st.reg = s.reg) (hpc : st.pc = s.pc) (hmem : st.mem.bytes = s.mem.bytes) :
    Outcome s ins (st.insert ins v) := by
  refine .written op v hop hv ?_ hmem ?_
  · simp [State.insert, State.writeRd, State.incrementPC, hreg]
  · rw [State.insert, State.incrementPC, State.writeRd, hpc]
    exact .next hj hi

/-- Without a block, an instruction that is neither a store nor a branch changes nothing. -/
theorem Outcome.nothing {s : State} {ins : Instruction} (hop : operation ins = none)
    (hS : ins.opcode ≠ some .S) (hB : ins.opcode ≠ some .B) : Outcome s ins s := by
  refine .kept ?_ rfl rfl rfl
  rintro (⟨op, hsel⟩ | ⟨hstore, -⟩ | ⟨hbranch, -⟩)
  · rw [hop] at hsel
    cases hsel
  · exact hS hstore
  · exact hB hbranch

/-! ## Computations -/

/-- A computation either has no block, or its block inserts a value. -/
def Settles (s : State) (ins : Instruction) (s' : State) : Prop :=
  match operation ins with
  | some op => ∃ v, s' = s.insert ins v ∧ (v = 0 ↔ op.Vanishes s ins)
  | none => s' = s

theorem Settles.value {s : State} {ins : Instruction} (op : Operation) (v : Word)
    (hop : operation ins = some op) (hv : v = 0 ↔ op.Vanishes s ins) :
    Settles s ins (s.insert ins v) := by
  rw [Settles, hop]
  exact ⟨v, rfl, hv⟩

theorem Settles.nothing {s : State} {ins : Instruction} (hop : operation ins = none) :
    Settles s ins s := by
  rw [Settles, hop]

theorem executeR_settles {s s' : State} {ins : Instruction} (hop : ins.opcode = some .R)
    (h : executeR s ins = .ok s') : Settles s ins s' := by
  have hsel := operation.eq_1 ins
  unfold executeR at h
  split at h
  case h_1 hf =>
    simp only [hop, hf] at hsel
    split_ifs at h with h0 h20 h1 <;> cases h
    · exact .value .add _ (by simp [hsel, h0]) (add_zero_iff _ _)
    · exact .value .sub _ (by simp [hsel, h20]) sub_eq_zero
    · exact .value .mul _ (by simp [hsel, h1]) (mul_zero_iff _ _)
    · exact .nothing (by rw [hsel, if_neg h0, if_neg h20, if_neg h1])
  case h_2 hf =>
    simp only [hop, hf] at hsel
    split_ifs at h with h1 <;> cases h
    · exact .value .mulhsu _ (by simp [hsel, h1]) (iff_of_true (no_upper_half _).1 trivial)
    · exact .nothing (by rw [hsel, if_neg h1])
  case h_3 hf =>
    simp only [hop, hf] at hsel
    split_ifs at h with h0 h1 hb
    · cases h
      exact .value .xor _ (by simp [hsel, h0]) BitVec.xor_eq_zero_iff
    · unfold divide at h
      split_ifs at h with hfits <;> cases h
      have hdiv : operation ins = some .div := by rw [hsel, if_neg h0, if_pos ⟨h1, hb⟩]
      exact .value .div _ hdiv (sdiv_zero_iff _ _ hb hfits)
    · cases h
      exact .nothing (by rw [hsel, if_neg h0, if_neg fun h => hb h.2])
    · cases h
      exact .nothing (by rw [hsel, if_neg h0, if_neg fun h => h1 h.1])
  case h_4 hf =>
    simp only [hop, hf] at hsel
    split_ifs at h with h0 <;> cases h
    · exact .value .or _ (by simp [hsel, h0]) (or_zero_iff _ _)
    · exact .nothing (by rw [hsel, if_neg h0])
  case h_5 hf =>
    simp only [hop, hf] at hsel
    split_ifs at h with h0 h1
    · cases h
      exact .value .and _ (by simp [hsel, h0]) Iff.rfl
    · unfold remainderUnsigned at h
      split_ifs at h with hb <;> cases h
      exact .value .remu _ (by simp [hsel, h1]) (umod_zero_iff _ _)
    · cases h
      exact .nothing (by rw [hsel, if_neg h0, if_neg h1])
  case h_6 hf =>
    simp only [hop, hf] at hsel
    split_ifs at h with h0 h1 <;> cases h
    · exact .value .sll _ (by simp [hsel, h0]) (shiftLeft_zero_iff _ _)
    · exact .value .mulh _ (by simp [hsel, h1]) (upper_half_zero_iff _ _)
    · exact .nothing (by rw [hsel, if_neg h0, if_neg h1])
  case h_7 hf =>
    simp only [hop, hf] at hsel
    split_ifs at h with h0 h5 h1 hb <;> cases h
    · exact .value .srl _ (by simp [hsel, h0]) (ushiftRight_zero_iff _ _)
    · exact .value .sra _ (by simp [hsel, h5]) (sshiftRight_zero_iff _ _)
    · have hdivu : operation ins = some .divu := by
        rw [hsel, if_neg h0, if_neg h5, if_pos ⟨h1, hb⟩]
      exact .value .divu _ hdivu (udiv_zero_iff _ _ hb)
    · exact .nothing (by rw [hsel, if_neg h0, if_neg h5, if_neg fun h => hb h.2])
    · exact .nothing (by rw [hsel, if_neg h0, if_neg h5, if_neg fun h => h1 h.1])
  case h_8 hf =>
    simp only [hop, hf] at hsel
    split_ifs at h with h1 h0 <;> cases h
    · exact .value .mulhu _ (by simp [hsel, h1]) (iff_of_true (no_upper_half _).2 trivial)
    · exact .value .sltu _ (by simp [hsel, h0])
        ((ofBool_zero_iff _).trans (by simp [Operation.Vanishes, BitVec.ult]))
    · exact .nothing (by rw [hsel, if_neg h1, if_neg h0])
  case h_9 =>
    cases h
    refine .nothing ?_
    rw [operation, hop]
    split <;> first | rfl | contradiction

theorem executeI1_settles {s : State} {ins : Instruction} (hop : ins.opcode = some .I1) :
    Settles s ins (executeI1 s ins) := by
  have hsel := operation.eq_1 ins
  unfold executeI1
  split
  case h_1 hf => exact .value .addi _ (by simp [operation, hop, hf]) (add_zero_iff _ _)
  case h_2 hf => exact .value .xori _ (by simp [operation, hop, hf]) BitVec.xor_eq_zero_iff
  case h_3 hf => exact .value .ori _ (by simp [operation, hop, hf]) (or_zero_iff _ _)
  case h_4 hf => exact .value .andi _ (by simp [operation, hop, hf]) Iff.rfl
  case h_5 hf =>
    simp only [hop, hf] at hsel
    split_ifs with h0
    · exact .value .slli _ (by simp [hsel, h0]) (shiftLeft_zero_iff _ _)
    · exact .nothing (by rw [hsel, if_neg h0])
  case h_6 hf =>
    simp only [hop, hf] at hsel
    split_ifs with h0 h2
    · exact .value .srli _ (by simp [hsel, h0]) (ushiftRight_zero_iff _ _)
    · exact .value .srai _ (by simp [hsel, h2]) (sshiftRight_zero_iff _ _)
    · exact .nothing (by rw [hsel, if_neg h0, if_neg h2])
  case h_7 hf =>
    exact .value .slti _ (by simp [operation, hop, hf])
      ((ofBool_zero_iff _).trans (by simp [Operation.Vanishes, BitVec.slt]))
  case h_8 hf =>
    exact .value .sltiu _ (by simp [operation, hop, hf])
      ((ofBool_zero_iff _).trans (by simp [Operation.Vanishes, BitVec.ult]))
  case h_9 =>
    refine .nothing ?_
    rw [operation, hop]
    split <;> first | rfl | contradiction

theorem Settles.outcome {s s' : State} {ins : Instruction} (h : Settles s ins s')
    (hop : ins.opcode = some .R ∨ ins.opcode = some .I1) : Outcome s ins s' := by
  have hne : ins.opcode ≠ some .J ∧ ins.opcode ≠ some .I3 ∧ ins.opcode ≠ some .S ∧
      ins.opcode ≠ some .B := by
    rcases hop with hop | hop <;> rw [hop] <;> decide
  obtain ⟨hJ, hI3, hS, hB⟩ := hne
  unfold Settles at h
  split at h
  case h_1 op hsel =>
    obtain ⟨v, rfl, hv⟩ := h
    exact .insert op v hsel hv hJ hI3 rfl rfl rfl
  case h_2 hsel =>
    rw [h]
    exact .nothing hsel hS hB

/-! ## Loads -/

section Loads

variable {s s' : State} {ins : Instruction} (op : Operation) {addr : Word}
  (hop : ins.opcode = some .I2) (hsel : operation ins = some op)
include hop hsel

/-- A load writes its register and leaves the bytes. -/
theorem Outcome.load {mem : SimMemory} (v : Word) (hv : v = 0 ↔ op.Vanishes s ins)
    (hmem : mem.bytes = s.mem.bytes) :
    Outcome s ins (({ s with mem := mem } : State).insert ins v) :=
  .insert op v hsel hv (by simp [hop]) (by simp [hop]) rfl rfl hmem

theorem loadB_outcome (hzero : op.Vanishes s ins ↔ s.mem.bytes addr = 0) :
    Outcome s ins (loadB s ins addr) := by
  rw [loadB, SimMemory.memoryRdB_eq]
  exact .load op hop hsel _ ((setWidth_zero_iff (by decide) _).trans hzero.symm)
    (SimMemory.bytes_getPage s.mem addr)

theorem loadH_outcome (hzero : op.Vanishes s ins ↔ ByteMemory.readH s.mem.bytes addr = 0)
    (h : loadH s ins addr = .ok s') : Outcome s ins s' := by
  by_cases haligned : addr.toNat % 2 = 0
  · rw [loadH, SimMemory.memoryRdH_eq _ _ haligned] at h
    cases h
    exact .load op hop hsel _ ((setWidth_zero_iff (by decide) _).trans hzero.symm)
      (SimMemory.bytes_getPage s.mem addr)
  · rw [loadH, SimMemory.memoryRdH, if_pos (mt (SimMemory.half_aligned_iff addr).mp haligned)] at h
    cases h

theorem loadW_outcome (hzero : op.Vanishes s ins ↔ ByteMemory.readW s.mem.bytes addr = 0)
    (h : loadW s ins addr = .ok s') : Outcome s ins s' := by
  by_cases haligned : addr.toNat % 4 = 0
  · rw [loadW, SimMemory.memoryRdW_eq _ _ haligned] at h
    cases h
    exact .load op hop hsel _ hzero.symm (SimMemory.bytes_getPage s.mem addr)
  · rw [loadW, SimMemory.memoryRdW, if_pos (mt (SimMemory.word_aligned_iff addr).mp haligned)] at h
    cases h

end Loads

theorem executeI2_outcome {s s' : State} {ins : Instruction} (hop : ins.opcode = some .I2)
    (h : executeI2 s ins = .ok s') : Outcome s ins s' := by
  have hunsigned : s.pc + (ins.rs1 + ins.immediate) = dataAddress s ins := by
    rw [dataAddress, BitVec.add_assoc]
  unfold executeI2 at h
  split at h
  case h_1 hf =>
    cases h
    exact loadB_outcome .lb hop (by simp [operation, hop, hf]) Iff.rfl
  case h_2 hf => exact loadH_outcome .lh hop (by simp [operation, hop, hf]) Iff.rfl h
  case h_3 hf => exact loadW_outcome .lw hop (by simp [operation, hop, hf]) Iff.rfl h
  case h_4 hf =>
    cases h
    rw [hunsigned]
    exact loadB_outcome .lbu hop (by simp [operation, hop, hf]) Iff.rfl
  case h_5 hf =>
    rw [hunsigned] at h
    exact loadH_outcome .lhu hop (by simp [operation, hop, hf]) Iff.rfl h
  case h_6 =>
    cases h
    refine .nothing ?_ (by simp [hop]) (by simp [hop])
    rw [operation, hop]
    split <;> first | rfl | contradiction

/-! ## Stores and branches -/

theorem executeS_outcome {s s' : State} {ins : Instruction} (hop : ins.opcode = some .S)
    (h : executeS s ins = .ok s') : Outcome s ins s' := by
  unfold executeS at h
  split at h
  case h_1 hf =>
    cases h
    exact .stored .sb hop (BitVec.eq_of_toNat_eq hf) rfl (SimMemory.bytes_memoryWrB _ _ _) rfl
  case h_2 hf =>
    by_cases haligned : (dataAddress s ins).toNat % 2 = 0
    · obtain ⟨mem', hwrite, hbytes⟩ :=
        SimMemory.bytes_memoryWrH s.mem (dataAddress s ins) ins.rs2 haligned
      rw [hwrite] at h
      cases h
      exact .stored .sh hop (BitVec.eq_of_toNat_eq hf) rfl hbytes rfl
    · rw [SimMemory.memoryWrH, if_pos (mt (SimMemory.half_aligned_iff _).mp haligned)] at h
      cases h
  case h_3 hf =>
    by_cases haligned : (dataAddress s ins).toNat % 4 = 0
    · obtain ⟨mem', hwrite, hbytes⟩ :=
        SimMemory.bytes_memoryWrW s.mem (dataAddress s ins) ins.rs2 haligned
      rw [hwrite] at h
      cases h
      exact .stored .sw hop (BitVec.eq_of_toNat_eq hf) rfl hbytes rfl
    · rw [SimMemory.memoryWrW, if_pos (mt (SimMemory.word_aligned_iff _).mp haligned)] at h
      cases h
  case h_4 h0 h1 h2 =>
    cases h
    refine .kept ?_ rfl rfl rfl
    rintro (⟨op, hsel⟩ | ⟨-, op, hf⟩ | ⟨hbranch, -⟩)
    · simp [operation, hop] at hsel
    · cases op
      case sb => exact h0 (by rw [hf]; rfl)
      case sh => exact h1 (by rw [hf]; rfl)
      case sw => exact h2 (by rw [hf]; rfl)
    · rw [hop] at hbranch
      cases hbranch

/-- A branch goes on at one of two addresses. -/
theorem branch_outcome {s : State} {ins : Instruction} (op : BranchOp) (taken : Bool)
    (hop : ins.opcode = some .B) (hf : ins.funct3.toNat = op.funct3.toNat) :
    Outcome s ins (s.branch ins taken) := by
  have hf3 : ins.funct3 = op.funct3.setWidth 32 := by
    apply BitVec.eq_of_toNat_eq
    rw [hf, BitVec.toNat_setWidth_of_le (by decide)]
  cases taken with
  | true => exact .branched op hop hf3 rfl rfl (.branch hop)
  | false => exact .branched op hop hf3 rfl rfl (.next (by simp [hop]) (by simp [hop]))

theorem executeB_outcome {s : State} {ins : Instruction} (hop : ins.opcode = some .B) :
    Outcome s ins (executeB s ins) := by
  unfold executeB
  split
  case h_1 hf => exact branch_outcome .beq _ hop hf
  case h_2 hf => exact branch_outcome .bne _ hop hf
  case h_3 hf => exact branch_outcome .blt _ hop hf
  case h_4 hf => exact branch_outcome .bge _ hop hf
  case h_5 hf => exact branch_outcome .bltu _ hop hf
  case h_6 hf => exact branch_outcome .bgeu _ hop hf
  case h_7 h0 h1 h4 h5 h6 h7 =>
    refine .kept ?_ rfl rfl rfl
    rintro (⟨op, hsel⟩ | ⟨hstore, -⟩ | ⟨-, op, hf⟩)
    · simp [operation, hop] at hsel
    · rw [hop] at hstore
      cases hstore
    · cases op
      case beq => exact h0 (by rw [hf]; rfl)
      case bne => exact h1 (by rw [hf]; rfl)
      case blt => exact h4 (by rw [hf]; rfl)
      case bge => exact h5 (by rw [hf]; rfl)
      case bltu => exact h6 (by rw [hf]; rfl)
      case bgeu => exact h7 (by rw [hf]; rfl)

/-! ## Every instruction -/

theorem execute_outcome {s s' : State} {ins : Instruction} (h : execute s ins = .ok s') :
    Outcome s ins s' := by
  unfold execute at h
  split at h
  case h_1 hop => exact (executeR_settles hop h).outcome (.inl hop)
  case h_2 hop =>
    cases h
    exact (executeI1_settles hop).outcome (.inr hop)
  case h_3 hop => exact executeI2_outcome hop h
  case h_4 hop => exact executeS_outcome hop h
  case h_5 hop =>
    cases h
    exact executeB_outcome hop
  case h_6 hop =>
    cases h
    exact .written .jal _ (by simp [operation, hop]) add_eq_zero_iff_eq_neg rfl rfl (.jal hop)
  case h_7 hop =>
    split at h <;> cases h
    case h_1 hf =>
      exact .written .jalr _ (by simp [operation, hop, hf]) add_eq_zero_iff_eq_neg rfl rfl (.jalr hop)
    case h_2 hf =>
      refine .nothing ?_ (by simp [hop]) (by simp [hop])
      rw [operation, hop]
      split <;> first | rfl | contradiction
  case h_8 hop =>
    cases h
    have hlow : (2 ^ 32 ∣ ins.immediate.toNat * 2 ^ 12) ↔ 2 ^ 20 ∣ ins.immediate.toNat := by
      omega
    exact .insert .lui _ (by simp [operation, hop]) ((shiftLeft_zero_iff _ _).trans hlow)
      (by simp [hop]) (by simp [hop]) rfl rfl rfl
  case h_9 hop =>
    split at h <;> cases h
    case h_1 hf =>
      exact .insert .auipc _ (by simp [operation, hop, hf]) add_eq_zero_iff_eq_neg (by simp [hop])
        (by simp [hop]) rfl rfl rfl
    case h_2 hf =>
      refine .nothing ?_ (by simp [hop]) (by simp [hop])
      rw [operation, hop]
      split <;> first | rfl | contradiction
  case h_10 hop =>
    have hs : s' = s := by
      split at h
      case h_1 => split_ifs at h; cases h; rfl
      case h_2 => cases h; rfl
    rw [hs]
    exact .nothing (by simp [operation, hop]) (by simp [hop]) (by simp [hop])
  case h_11 hop =>
    cases h
    exact .nothing (by simp [operation, hop]) (by simp [hop]) (by simp [hop])

/-- An iteration that goes on has read a word, with one of the outcomes. -/
theorem iteration_outcome {s s' : State} (h : iteration s = .ok s') :
    ∃ inst mem, s.mem.memoryRdW s.pc = some (inst, mem) ∧ Outcome s (decode s inst) s' := by
  unfold iteration at h
  split at h
  case h_1 => cases h
  case h_2 inst mem hread =>
    have hmem : mem.bytes = s.mem.bytes := by
      unfold SimMemory.memoryRdW at hread
      split_ifs at hread
      cases hread
      exact SimMemory.bytes_getPage s.mem s.pc
    exact ⟨inst, mem, hread, (execute_outcome h).congr rfl rfl hmem⟩

end CompSys.Simulate
