import CompSys.RiscV
import CompSys.SimMemoryBytes
import CompSys.Simulate

/-!
# Decoding in the simulator

What the field extractors and `calculate_immediate` find in an instruction word.
The fields and the immediates of the I and S formats are those of RISC-V; the other
immediates differ in some bits.
-/
namespace CompSys.Simulate

open RiscV (Register)

/-! ## Fields -/

theorem regIndex_eq (inst : Word) (low : ℕ) (h : low + 5 ≤ 32) :
    regIndex inst low = inst.extractLsb' low 5 := by
  have hmask : (0x1F#32) = BitField.mask 32 5 := by decide
  rw [regIndex, hmask, BitField.sshiftRight_and_mask _ _ _ h,
    BitVec.setWidth_setWidth_of_le _ (by decide), BitVec.setWidth_eq]

theorem funct3_eq (inst : Word) : funct3 inst = (RiscV.funct3Field inst).setWidth 32 := by
  have hmask : (0x7#32) = BitField.mask 32 3 := by decide
  rw [funct3, hmask, BitField.sshiftRight_and_mask _ _ _ (by decide), RiscV.funct3Field]

theorem funct7_eq (inst : Word) : funct7 inst = (RiscV.funct7Field inst).setWidth 32 := by
  have hmask : (0x7F#32) = BitField.mask 32 7 := by decide
  rw [funct7, hmask, BitField.sshiftRight_and_mask _ _ _ (by decide), RiscV.funct7Field]

theorem opcode_eq (inst : Word) : inst &&& 0x7F#32 = (RiscV.opcodeField inst).setWidth 32 := by
  have hmask : (0x7F#32) = BitField.mask 32 7 := by decide
  rw [hmask, BitField.and_mask _ _ (by decide), RiscV.opcodeField]

/-- The helpers find the fields of the RISC-V formats. -/
theorem decode_eq (s : State) (inst : Word) :
    decode s inst =
      { opcode := Opcode.ofWord ((RiscV.opcodeField inst).setWidth 32)
        rd := RiscV.rdField inst
        funct3 := (RiscV.funct3Field inst).setWidth 32
        rs1 := s.reg (RiscV.rs1Field inst)
        rs2 := s.reg (RiscV.rs2Field inst)
        funct7 := (RiscV.funct7Field inst).setWidth 32
        immediate := calculateImmediate (Opcode.ofWord ((RiscV.opcodeField inst).setWidth 32))
          inst s.immediate } := by
  simp only [decode, opcode_eq, funct3_eq, funct7_eq, rs1, rs2, rd]
  rw [regIndex_eq _ _ (by decide), regIndex_eq _ _ (by decide), regIndex_eq _ _ (by decide)]
  rfl

/-! ## Immediates -/

theorem getLsbD_fillSign (inst : Word) (low count i : ℕ) (hi : i < 32) :
    (fillSign inst low count).getLsbD i =
      (decide (low ≤ i ∧ i < low + count) && inst.getLsbD 31) := by
  induction count with
  | zero => simp [fillSign]
  | succ count ih =>
    have hnext : fillSign inst low (count + 1) =
        fillSign inst low count ||| (inst >>> 31) <<< (low + count) := by
      simp [fillSign, List.range_succ]
    rw [hnext, BitVec.getLsbD_or, ih, BitVec.getLsbD_shiftLeft, BitVec.getLsbD_ushiftRight]
    by_cases heq : i = low + count
    · simp [heq ▸ hi, heq]
    · by_cases hlt : i < low + count
      · have hiff : low ≤ i ∧ i < low + (count + 1) ↔ low ≤ i ∧ i < low + count := by omega
        simp [hlt, hiff]
      · have hout : 32 ≤ 31 + (i - (low + count)) := by omega
        have hiff : ¬ (i < low + (count + 1)) := by omega
        simp [hlt, hiff, BitVec.getLsbD_of_ge _ _ hout]

/-- The bits above `low` without the topmost one. -/
theorem getLsbD_dropTop (inst : Word) (low i : ℕ) (hlow : low < 32) :
    ((inst >>> low) &&& ~~~(1#32 <<< (31 - low))).getLsbD i =
      (decide (low + i < 31) && inst.getLsbD (low + i)) := by
  by_cases hi : low + i < 31
  · have h32 : i < 32 := by omega
    have hbelow : i < 31 - low := by omega
    simp [hi, h32, hbelow]
  · by_cases htop : i = 31 - low
    · have h31 : low + (31 - low) = 31 := by omega
      have h32 : 31 - low < 32 := by omega
      simp [htop, h31, h32]
    · have hout : 32 ≤ low + i := by omega
      simp [hi, BitVec.getLsbD_of_ge _ _ hout]

theorem getLsbD_single (inst : Word) (bit i : ℕ) (hbit : bit < 32) :
    (inst &&& (1#32 <<< bit)).getLsbD i = (decide (i = bit) && inst.getLsbD bit) := by
  by_cases heq : i = bit
  · simp [heq, hbit]
  · by_cases hlt : i < bit
    · simp [heq, hlt]
    · have hne : i - bit ≠ 0 := by omega
      simp [heq, hne]

theorem immediateI_eq (inst : Word) : immediateI inst = RiscV.immI inst := by
  apply BitVec.eq_of_getLsbD_eq
  intro i hi
  have hrest := getLsbD_dropTop inst 20 i (by decide)
  rw [immediateI, BitVec.getLsbD_or, getLsbD_fillSign _ _ _ _ hi, hrest, RiscV.getLsbD_immI inst hi]
  by_cases h11 : i < 11
  · have hlow : ¬ 11 ≤ i := by omega
    have hfield : 20 + i < 31 := by omega
    simp [h11, hlow, hfield]
  · have hhigh : 11 ≤ i := by omega
    have hfield : ¬ 20 + i < 31 := by omega
    simp [h11, hhigh, hfield, hi]

theorem immediateS_eq (inst : Word) : immediateS inst = RiscV.immS inst := by
  apply BitVec.eq_of_getLsbD_eq
  intro i hi
  have hfield := getLsbD_dropTop inst 25 (i - 5) (by decide)
  have hmask : (0xF#32) = BitField.mask 32 4 := by decide
  simp only [immediateS, BitVec.getLsbD_or, getLsbD_fillSign _ _ _ _ hi, RiscV.getLsbD_immS inst hi,
    BitVec.getLsbD_shiftLeft, hfield, BitVec.getLsbD_ushiftRight, getLsbD_single inst 7 _ (by decide),
    BitVec.getLsbD_and, hmask, BitField.getLsbD_mask]
  by_cases h0 : i = 0
  · simp [h0]
  by_cases h5 : i < 5
  · have hlow : ¬ 11 ≤ i := by omega
    have h4 : i - 1 < 4 := by omega
    have h32 : i - 1 < 32 := by omega
    have hbit : 8 + (i - 1) = 7 + i := by omega
    simp [hi, h0, h5, hlow, h4, h32, hbit]
  have h4 : ¬ i - 1 < 4 := by omega
  by_cases h11 : i < 11
  · have hlow : ¬ 11 ≤ i := by omega
    have hbit : 25 + (i - 5) = 20 + i := by omega
    have h31 : 20 + i < 31 := by omega
    simp [hi, h0, h5, h11, hlow, h4, hbit, h31]
  · have hhigh : 11 ≤ i := by omega
    have h31 : ¬ 25 + (i - 5) < 31 := by omega
    simp [hi, h0, h5, h11, hhigh, h4, h31]

/-- The lowest four bits of a branch offset come from the top of the word. -/
theorem immediateB_eq (inst : Word) :
    immediateB inst = BitField.replace (RiscV.immB inst) 1 4 (inst >>> 28) := by
  apply BitVec.eq_of_getLsbD_eq
  intro i hi
  have hfield := getLsbD_dropTop inst 25 (i - 5) (by decide)
  rw [BitField.getLsbD_replace _ _ _ _ _ hi]
  simp only [immediateB, BitVec.getLsbD_or, getLsbD_fillSign _ _ _ _ hi, RiscV.getLsbD_immB inst hi,
    BitVec.getLsbD_shiftLeft, hfield, BitVec.getLsbD_ushiftRight, getLsbD_single inst 7 _ (by decide),
    BitVec.getLsbD_and, BitVec.getLsbD_not, BitVec.getLsbD_one]
  by_cases h0 : i = 0
  · simp [h0]
  by_cases h5 : i < 5
  · have hin : 1 ≤ i ∧ i < 1 + 4 := by omega
    have h12 : ¬ 12 ≤ i := by omega
    have h7 : ¬ i - 4 = 7 := by omega
    simp [hi, h0, h5, hin, h12, h7]
  have htop : 32 ≤ 28 + (i - 1) := by omega
  by_cases h11 : i < 11
  · have h12 : ¬ 12 ≤ i := by omega
    have h7 : ¬ i - 4 = 7 := by omega
    have hbit : 25 + (i - 5) = 20 + i := by omega
    have h31 : 20 + i < 31 := by omega
    simp [hi, h0, h5, h11, h12, h7, hbit, h31, BitVec.getLsbD_of_ge _ _ htop]
  by_cases heq : i = 11
  · simp [heq]
  · have hhigh : 12 ≤ i := by omega
    have h7 : ¬ i - 4 = 7 := by omega
    have h31 : ¬ 25 + (i - 5) < 31 := by omega
    simp [hi, h0, h5, h11, heq, hhigh, h7, h31, BitVec.getLsbD_of_ge _ _ htop]

/-- A jump offset has its lowest bit set. -/
theorem immediateJ_eq (inst : Word) : immediateJ inst = RiscV.immJ inst ||| 1#32 := by
  apply BitVec.eq_of_getLsbD_eq
  intro i hi
  have hfield := getLsbD_dropTop inst 25 (i - 5) (by decide)
  have hmask : (0xF#32) = BitField.mask 32 4 := by decide
  simp only [immediateJ, BitVec.getLsbD_or, getLsbD_fillSign _ _ _ _ hi, RiscV.getLsbD_immJ inst hi,
    BitVec.getLsbD_shiftLeft, hfield, BitVec.getLsbD_ushiftRight, getLsbD_single inst 20 _ (by decide),
    BitVec.getLsbD_and, hmask, BitField.getLsbD_mask, BitVec.getLsbD_one]
  by_cases h0 : i = 0
  · simp [h0]
  have h12 : i < 12 → ¬ 20 ≤ i := by omega
  by_cases h5 : i < 5
  · have h11 : i < 11 := by omega
    have h32 : 20 + i < 32 := by omega
    have hlow : i < 12 := by omega
    have hne : ¬ 9 + i = 20 := by omega
    have hpos : ¬ 20 + i < 21 := by omega
    have h4 : 20 + i - 21 < 4 := by omega
    have h31 : 20 + i - 21 < 32 := by omega
    simp [hi, h0, h5, h11, h32, hlow, h12 hlow, hne, hpos, h4, h31]
  have h4 : ¬ 20 + i - 21 < 4 := by omega
  by_cases h11 : i < 11
  · have hlow : i < 12 := by omega
    have hne : ¬ 9 + i = 20 := by omega
    have hbit : 25 + (i - 5) = 20 + i := by omega
    have h31 : 20 + i < 31 := by omega
    simp [hi, h0, h5, h11, hlow, h12 hlow, hne, h4, hbit, h31]
  by_cases heq : i = 11
  · simp [heq]
  have hge : ¬ i < 12 := by omega
  have hne : ¬ 9 + i = 20 := by omega
  have h31 : ¬ 25 + (i - 5) < 31 := by omega
  by_cases h20 : i < 20
  · have hlow : ¬ 20 ≤ i := by omega
    have hword : 12 + i < 32 := by omega
    have hback : 12 + (i - 12) = i := by omega
    simp [hi, h0, h5, h11, heq, hge, hne, h31, h20, hlow, hword, hback, h4]
  · have hhigh : 20 ≤ i := by omega
    have hword : ¬ 12 + i < 32 := by omega
    simp [hi, h0, h5, h11, heq, hge, hne, h31, h20, hhigh, hword, h4]

/-! ## Decoding what was encoded -/

section Formats

variable (s : State) (rd rs1 rs2 : Register) (funct3 : BitVec 3)

theorem decode_formatR (funct7 : BitVec 7) :
    (decode s (RiscV.formatR 0x33 rd funct3 rs1 rs2 funct7)).opcode = some .R ∧
      (decode s (RiscV.formatR 0x33 rd funct3 rs1 rs2 funct7)).rd = rd ∧
      (decode s (RiscV.formatR 0x33 rd funct3 rs1 rs2 funct7)).rs1 = s.reg rs1 ∧
      (decode s (RiscV.formatR 0x33 rd funct3 rs1 rs2 funct7)).rs2 = s.reg rs2 ∧
      (decode s (RiscV.formatR 0x33 rd funct3 rs1 rs2 funct7)).funct3 = funct3.setWidth 32 ∧
      (decode s (RiscV.formatR 0x33 rd funct3 rs1 rs2 funct7)).funct7 = funct7.setWidth 32 := by
  obtain ⟨hop, hrd, hf3, hrs1, hrs2, hf7⟩ := RiscV.fields_formatR 0x33 rd rs1 rs2 funct3 funct7
  rw [decode_eq, hop, hrd, hf3, hrs1, hrs2, hf7]
  exact ⟨rfl, rfl, rfl, rfl, rfl, rfl⟩

/-- The opcodes of the I format. -/
def opcodesI : List (BitVec 7 × Opcode) := [(0x13, .I1), (0x03, .I2), (0x67, .I3), (0x73, .I4)]

theorem computation_mem : ((0x13 : BitVec 7), Opcode.I1) ∈ opcodesI := by decide

theorem load_mem : ((0x03 : BitVec 7), Opcode.I2) ∈ opcodesI := by decide

theorem decode_formatI {opcode : BitVec 7} {kind : Opcode} (hkind : (opcode, kind) ∈ opcodesI)
    (imm : BitVec 12) :
    (decode s (RiscV.formatI opcode rd funct3 rs1 imm)).opcode = some kind ∧
      (decode s (RiscV.formatI opcode rd funct3 rs1 imm)).rd = rd ∧
      (decode s (RiscV.formatI opcode rd funct3 rs1 imm)).rs1 = s.reg rs1 ∧
      (decode s (RiscV.formatI opcode rd funct3 rs1 imm)).funct3 = funct3.setWidth 32 ∧
      (decode s (RiscV.formatI opcode rd funct3 rs1 imm)).immediate = imm.signExtend 32 := by
  obtain ⟨hop, hrd, hf3, hrs1, himm⟩ := RiscV.fields_formatI opcode rd rs1 funct3 imm
  have himm' := (immediateI_eq (RiscV.formatI opcode rd funct3 rs1 imm)).trans himm
  rw [decode_eq, hop, hrd, hf3, hrs1]
  simp only [opcodesI, List.mem_cons, Prod.mk.injEq, List.not_mem_nil, or_false] at hkind
  rcases hkind with ⟨rfl, rfl⟩ | ⟨rfl, rfl⟩ | ⟨rfl, rfl⟩ | ⟨rfl, rfl⟩ <;>
    exact ⟨rfl, rfl, rfl, rfl, himm'⟩

theorem decode_formatS (imm : BitVec 12) :
    (decode s (RiscV.formatS 0x23 funct3 rs1 rs2 imm)).opcode = some .S ∧
      (decode s (RiscV.formatS 0x23 funct3 rs1 rs2 imm)).rs1 = s.reg rs1 ∧
      (decode s (RiscV.formatS 0x23 funct3 rs1 rs2 imm)).rs2 = s.reg rs2 ∧
      (decode s (RiscV.formatS 0x23 funct3 rs1 rs2 imm)).funct3 = funct3.setWidth 32 ∧
      (decode s (RiscV.formatS 0x23 funct3 rs1 rs2 imm)).immediate = imm.signExtend 32 := by
  obtain ⟨hop, hf3, hrs1, hrs2, himm⟩ := RiscV.fields_formatS 0x23 rs1 rs2 funct3 imm
  have himm' := (immediateS_eq (RiscV.formatS 0x23 funct3 rs1 rs2 imm)).trans himm
  rw [decode_eq, hop, hf3, hrs1, hrs2]
  exact ⟨rfl, rfl, rfl, rfl, himm'⟩

theorem decode_formatB (imm : BitVec 13) :
    (decode s (RiscV.formatB 0x63 funct3 rs1 rs2 imm)).opcode = some .B ∧
      (decode s (RiscV.formatB 0x63 funct3 rs1 rs2 imm)).rs1 = s.reg rs1 ∧
      (decode s (RiscV.formatB 0x63 funct3 rs1 rs2 imm)).rs2 = s.reg rs2 ∧
      (decode s (RiscV.formatB 0x63 funct3 rs1 rs2 imm)).funct3 = funct3.setWidth 32 ∧
      (decode s (RiscV.formatB 0x63 funct3 rs1 rs2 imm)).immediate =
        immediateB (RiscV.formatB 0x63 funct3 rs1 rs2 imm) := by
  obtain ⟨hop, hf3, hrs1, hrs2⟩ := RiscV.fields_formatB 0x63 rs1 rs2 funct3 imm
  rw [decode_eq, hop, hf3, hrs1, hrs2]
  exact ⟨rfl, rfl, rfl, rfl, rfl⟩

theorem decode_formatJ (imm : BitVec 21) :
    (decode s (RiscV.formatJ 0x6F rd imm)).opcode = some .J ∧
      (decode s (RiscV.formatJ 0x6F rd imm)).rd = rd ∧
      (decode s (RiscV.formatJ 0x6F rd imm)).immediate = immediateJ (RiscV.formatJ 0x6F rd imm) := by
  obtain ⟨hop, hrd⟩ := RiscV.fields_formatJ 0x6F rd imm
  rw [decode_eq, hop, hrd]
  exact ⟨rfl, rfl, rfl⟩

/-- The opcodes of `lui` and `auipc`. -/
def opcodesU : List (BitVec 7 × Opcode) := [(0x37, .U1), (0x17, .U2)]

theorem lui_mem : ((0x37 : BitVec 7), Opcode.U1) ∈ opcodesU := by decide

theorem auipc_mem : ((0x17 : BitVec 7), Opcode.U2) ∈ opcodesU := by decide

theorem decode_formatU {opcode : BitVec 7} {kind : Opcode} (hkind : (opcode, kind) ∈ opcodesU)
    (imm : BitVec 20) :
    (decode s (RiscV.formatU opcode rd imm)).opcode = some kind ∧
      (decode s (RiscV.formatU opcode rd imm)).rd = rd ∧
      (decode s (RiscV.formatU opcode rd imm)).funct3 = (imm.extractLsb' 0 3).setWidth 32 ∧
      (decode s (RiscV.formatU opcode rd imm)).immediate =
        immediateU (RiscV.formatU opcode rd imm) := by
  obtain ⟨hop, hrd, hf3⟩ := RiscV.fields_formatU opcode rd imm
  rw [decode_eq, hop, hrd, hf3]
  simp only [opcodesU, List.mem_cons, Prod.mk.injEq, List.not_mem_nil, or_false] at hkind
  rcases hkind with ⟨rfl, rfl⟩ | ⟨rfl, rfl⟩ <;> exact ⟨rfl, rfl, rfl, rfl⟩

end Formats

/-- The head of an iteration at `addr`: every helper reads the word there. -/
def decodeAt (s : State) (addr : Word) : Option Instruction :=
  (s.mem.memoryRdW addr).map fun fetched => decode s fetched.1

/-- The word at `addr`, once it is `inst`, decodes to an instruction with `P`. -/
def Decodes (s : State) (addr inst : Word) (P : Instruction → Prop) : Prop :=
  ∃ mem ins, s.mem.memoryWrW addr inst = some mem ∧
    decodeAt { s with mem := mem } addr = some ins ∧ P ins

theorem Decodes.of_decode {s : State} {addr inst : Word} {P : Instruction → Prop}
    (haddr : addr.toNat % 4 = 0) (h : ∀ mem, P (decode { s with mem := mem } inst)) :
    Decodes s addr inst P := by
  have hwrite : s.mem.memoryWrW addr inst = some (s.mem.setCell addr inst) := by
    rw [SimMemory.memoryWrW, if_neg (not_not_intro ((SimMemory.word_aligned_iff addr).mpr haddr))]
  have hread := SimMemory.memoryRdW_setCell s.mem addr inst haddr
  refine ⟨s.mem.setCell addr inst, _, hwrite, ?_, h (s.mem.setCell addr inst)⟩
  simp [decodeAt, hread]

/-- The decoder inverts the encoding of the R, I and S formats. -/
theorem decoder_inverts_encoding (s : State) (addr : Word) (haddr : addr.toNat % 4 = 0) :
    (∀ (rd rs1 rs2 : Register) (funct3 : BitVec 3) (funct7 : BitVec 7),
      Decodes s addr (RiscV.formatR 0x33 rd funct3 rs1 rs2 funct7) fun ins =>
        ins.opcode = some .R ∧ ins.rd = rd ∧ ins.rs1 = s.reg rs1 ∧ ins.rs2 = s.reg rs2 ∧
          ins.funct3 = funct3.setWidth 32 ∧ ins.funct7 = funct7.setWidth 32) ∧
    (∀ opcode kind, (opcode, kind) ∈ opcodesI →
      ∀ (rd rs1 : Register) (funct3 : BitVec 3) (imm : BitVec 12),
      Decodes s addr (RiscV.formatI opcode rd funct3 rs1 imm) fun ins =>
        ins.opcode = some kind ∧ ins.rd = rd ∧ ins.rs1 = s.reg rs1 ∧
          ins.funct3 = funct3.setWidth 32 ∧ ins.immediate = imm.signExtend 32) ∧
    ∀ (rs1 rs2 : Register) (funct3 : BitVec 3) (imm : BitVec 12),
      Decodes s addr (RiscV.formatS 0x23 funct3 rs1 rs2 imm) fun ins =>
        ins.opcode = some .S ∧ ins.rs1 = s.reg rs1 ∧ ins.rs2 = s.reg rs2 ∧
          ins.funct3 = funct3.setWidth 32 ∧ ins.immediate = imm.signExtend 32 := by
  refine ⟨?_, ?_, ?_⟩
  · intro rd rs1 rs2 funct3 funct7
    exact .of_decode haddr fun mem =>
      decode_formatR { s with mem := mem } rd rs1 rs2 funct3 funct7
  · intro opcode kind hkind rd rs1 funct3 imm
    exact .of_decode haddr fun mem =>
      decode_formatI { s with mem := mem } rd rs1 funct3 hkind imm
  · intro rs1 rs2 funct3 imm
    exact .of_decode haddr fun mem =>
      decode_formatS { s with mem := mem } rs1 rs2 funct3 imm

/-- `addi sp, sp, -16`, stored where the samples start. -/
theorem decoder_inverts_encoding_addi :
    (0x10074#32).toNat % 4 = 0 ∧
      Decodes (start SimMemory.memoryCreate 0x10074 0) 0x10074
        (RiscV.formatI 0x13 2 0 2 (-16)) fun ins =>
          ins.opcode = some .I1 ∧ ins.rd = 2 ∧ ins.rs1 = 0 ∧ ins.funct3 = 0 ∧
            ins.immediate = -16 := by
  have h := (decoder_inverts_encoding (start SimMemory.memoryCreate 0x10074 0) 0x10074
    (by decide)).2.1 0x13 .I1 (by decide) 2 2 0 (-16)
  exact ⟨by decide, h⟩

/-! ## Executing what was fetched -/

/-- The word that the next iteration executes. -/
structure Fetches (s : State) (inst : Word) : Prop where
  aligned : s.pc.toNat % 4 = 0
  word : ByteMemory.readW s.mem.bytes s.pc = inst

/-- The state in which the fetched instruction is executed. -/
def fetched (s : State) (inst : Word) : State :=
  { s with mem := s.mem.getPage s.pc, immediate := (decode s inst).immediate }

theorem iteration_eq {s : State} {inst : Word} (h : Fetches s inst) :
    iteration s = execute (fetched s inst) (decode s inst) := by
  rw [iteration, SimMemory.memoryRdW_eq _ _ h.aligned, h.word]
  rfl

/-- The word that an iteration has read is the one at the PC. -/
theorem fetches_of_read {s : State} {inst : Word} {mem : SimMemory}
    (h : s.mem.memoryRdW s.pc = some (inst, mem)) : Fetches s inst := by
  by_cases haligned : s.pc.toNat % 4 = 0
  · rw [SimMemory.memoryRdW_eq _ _ haligned] at h
    cases h
    exact ⟨haligned, rfl⟩
  · rw [SimMemory.memoryRdW, if_pos (mt (SimMemory.word_aligned_iff s.pc).mp haligned)] at h
    cases h

/-- A program of one instruction, at address 0. -/
def single (reg : Register → Word) (inst : Word) : State :=
  { start (SimMemory.memoryCreate.setCell 0 inst) 0 0 with reg := reg }

theorem fetches_single (reg : Register → Word) (inst : Word) : Fetches (single reg inst) inst := by
  refine ⟨rfl, ?_⟩
  have hread := SimMemory.memoryRdW_eq (single reg inst).mem 0 rfl
  have hcell := SimMemory.memoryRdW_setCell SimMemory.memoryCreate 0 inst rfl
  exact (Prod.mk.inj (Option.some.inj (hread.symm.trans hcell))).1

theorem bytes_fetched (s : State) (inst : Word) : (fetched s inst).mem.bytes = s.mem.bytes :=
  SimMemory.bytes_getPage s.mem s.pc

end CompSys.Simulate
