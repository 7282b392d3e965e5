import CompSys.SimulateDecode

/-!
# Branches and jumps of the simulator

The offsets of `calculate_immediate` for the B and J formats. Four bits of a branch
offset are read from the wrong end of the word, and a jump offset is odd: a branch
reaches its target when those bits agree, a jump never does.
-/
namespace CompSys.Simulate

open RiscV (Register BranchOp)

/-- An even offset of `w` bits. -/
structure Offset (w : ℕ) where
  bits : BitVec w
  even : bits.getLsbD 0 = false

/-- A control transfer with an immediate: a branch or `jal`. -/
inductive Transfer where
  | branch (funct3 : BitVec 3) (rs1 rs2 : Register) (offset : Offset 13)
  | jump (rd : Register) (offset : Offset 21)

namespace Transfer

def word : Transfer → Word
  | branch funct3 rs1 rs2 offset => RiscV.formatB 0x63 funct3 rs1 rs2 offset.bits
  | jump rd offset => RiscV.formatJ 0x6F rd offset.bits

def offset : Transfer → Word
  | branch _ _ _ offset => offset.bits.signExtend 32
  | jump _ offset => offset.bits.signExtend 32

/-- A branch is taken when its condition holds, a jump always. -/
def Taken (s : State) : Transfer → Prop
  | branch funct3 rs1 rs2 _ =>
    ∃ op : BranchOp, op.funct3 = funct3 ∧ op.Taken (s.reg rs1) (s.reg rs2)
  | jump _ _ => True

/-- The bits 4 to 1 of a branch offset are equal to its bits 12, 10, 9 and 8. -/
def Kept : Transfer → Prop
  | branch _ _ _ offset =>
    offset.bits.extractLsb' 1 4 = offset.bits.extractLsb' 12 1 ++ offset.bits.extractLsb' 8 3
  | jump _ _ => False

/-- The next iteration goes on at the encoded target, which is aligned. -/
def Reaches (s : State) (t : Transfer) : Prop :=
  ∃ s', iteration s = .ok s' ∧ s'.pc = s.pc + t.offset ∧ s'.pc.toNat % 4 = 0

end Transfer

/-! ## Offsets -/

/-- The upper four bits of a branch are the bits 12, 10, 9 and 8 of its offset. -/
theorem top_formatB (opcode : BitVec 7) (funct3 : BitVec 3) (rs1 rs2 : Register) (imm : BitVec 13) :
    (RiscV.formatB opcode funct3 rs1 rs2 imm).extractLsb' 28 4 =
      imm.extractLsb' 12 1 ++ imm.extractLsb' 8 3 := by
  have hsplit (w : Word) : w.extractLsb' 28 4 = w.extractLsb' 31 1 ++ w.extractLsb' 28 3 := by
    rw [BitVec.extractLsb'_append_extractLsb'_eq_extractLsb' (by decide)]
  rw [hsplit]
  simp (disch := decide) only [RiscV.formatB, BitVec.extractLsb'_cast,
    BitVec.extractLsb'_append_eq_of_le, BitVec.extractLsb'_append_eq_of_add_le, Nat.reduceSub,
    BitField.extract_extract]

theorem immediateB_iff (funct3 : BitVec 3) (rs1 rs2 : Register) (offset : Offset 13) :
    immediateB (RiscV.formatB 0x63 funct3 rs1 rs2 offset.bits) = offset.bits.signExtend 32 ↔
      offset.bits.extractLsb' 1 4 =
        offset.bits.extractLsb' 12 1 ++ offset.bits.extractLsb' 8 3 := by
  have hlow : (offset.bits.signExtend 32).extractLsb' 1 4 = offset.bits.extractLsb' 1 4 :=
    BitField.extract_signExtend offset.bits 1 4 (by decide) (by decide)
  have htop (w : Word) : (w >>> 28).extractLsb' 0 4 = w.extractLsb' 28 4 := by
    apply BitVec.eq_of_getLsbD_eq
    intro i hi
    simp [hi]
  rw [immediateB_eq, RiscV.immB_formatB _ _ _ _ offset.even,
    BitField.replace_eq_self_iff _ _ _ _ (by decide), htop, top_formatB, hlow]
  exact eq_comm

theorem immediateJ_ne (rd : Register) (offset : Offset 21) :
    immediateJ (RiscV.formatJ 0x6F rd offset.bits) ≠ offset.bits.signExtend 32 := by
  rw [immediateJ_eq, RiscV.immJ_formatJ _ _ offset.even]
  intro h
  have hbit := congrArg (fun w : Word => w.getLsbD 0) h
  have heven : (offset.bits.signExtend 32).getLsbD 0 = false := by
    rw [BitVec.getLsbD_signExtend, offset.even]
    rfl
  simp only [BitVec.getLsbD_or, heven] at hbit
  exact absurd hbit (by decide)

theorem immediate_transfer_iff (s : State) (t : Transfer) :
    (decode s t.word).immediate = t.offset ↔ t.Kept := by
  cases t with
  | branch funct3 rs1 rs2 offset =>
    obtain ⟨-, -, -, -, himm⟩ := decode_formatB s rs1 rs2 funct3 offset.bits
    exact himm ▸ immediateB_iff funct3 rs1 rs2 offset
  | jump rd offset =>
    obtain ⟨-, -, himm⟩ := decode_formatJ s rd offset.bits
    exact iff_of_false (himm ▸ immediateJ_ne rd offset) id

/-! ## Steps -/

theorem executeB_taken (s : State) {ins : Instruction} {op : BranchOp}
    (hf3 : ins.funct3 = op.funct3.setWidth 32) (h : op.Taken ins.rs1 ins.rs2) :
    executeB s ins = { s with pc := s.pc + ins.immediate } := by
  cases op <;> simp only [BranchOp.Taken, BranchOp.funct3] at h hf3 <;>
    simp [executeB, hf3, State.branch, BitVec.slt, BitVec.ult, h]

/-- A transfer that is taken adds the immediate to the PC. -/
theorem iteration_taken {s : State} {t : Transfer} (hfetch : Fetches s t.word) (h : t.Taken s) :
    ∃ s', iteration s = .ok s' ∧ s'.pc = s.pc + (decode s t.word).immediate := by
  cases t with
  | branch funct3 rs1 rs2 offset =>
    obtain ⟨hop, hrs1, hrs2, hf3, -⟩ := decode_formatB s rs1 rs2 funct3 offset.bits
    obtain ⟨op, rfl, htaken⟩ := h
    rw [← hrs1, ← hrs2] at htaken
    have hstep := iteration_eq hfetch
    simp only [execute, Transfer.word, hop] at hstep
    exact ⟨_, hstep, congrArg State.pc (executeB_taken (fetched s _) hf3 htaken)⟩
  | jump rd offset =>
    obtain ⟨hop, -, -⟩ := decode_formatJ s rd offset.bits
    have hstep := iteration_eq hfetch
    simp only [execute, Transfer.word, hop] at hstep
    exact ⟨_, hstep, rfl⟩

/-- The offset is decoded as it was encoded, and a transfer that is taken reaches its
target, exactly when the bits that the decoder confuses are equal. -/
theorem control_transfer_iff (s : State) (t : Transfer) :
    ((decode s t.word).immediate = t.offset ↔ t.Kept) ∧
      (Fetches s t.word → t.offset.toNat % 4 = 0 → t.Taken s → (t.Reaches s ↔ t.Kept)) := by
  have himm := immediate_transfer_iff s t
  refine ⟨himm, fun hfetch hoffset htaken => ?_⟩
  obtain ⟨s', hstep, hpc⟩ := iteration_taken hfetch htaken
  rw [← himm]
  constructor
  · intro ⟨s'', hstep', htarget, _⟩
    rw [hstep] at hstep'
    cases hstep'
    rw [hpc] at htarget
    exact (BitVec.add_right_inj s.pc).mp htarget
  · intro h
    refine ⟨s', hstep, by rw [hpc, h], ?_⟩
    have haligned := hfetch.aligned
    rw [hpc, h, BitVec.toNat_add]
    omega

/-- `beq x0, x0, 516` has its bits 9 and 2 equal. -/
def beqKept : Transfer := .branch 0 0 0 ⟨516, rfl⟩

theorem control_transfer_iff_beq :
    Fetches (single (fun _ => 0) beqKept.word) beqKept.word ∧ beqKept.offset.toNat % 4 = 0 ∧
      beqKept.Taken (single (fun _ => 0) beqKept.word) ∧
      beqKept.Reaches (single (fun _ => 0) beqKept.word) := by
  have hfetch := fetches_single (fun _ => 0) beqKept.word
  have htaken : beqKept.Taken (single (fun _ => 0) beqKept.word) := ⟨.beq, rfl, rfl⟩
  have hiff := (control_transfer_iff (single (fun _ => 0) beqKept.word) beqKept).2 hfetch rfl htaken
  have hkept : beqKept.Kept := by simp only [Transfer.Kept, beqKept]; decide
  exact ⟨hfetch, rfl, htaken, hiff.mpr hkept⟩

/-- `beq x0, x0, 8`. -/
def beqEight : Transfer := .branch 0 0 0 ⟨8, rfl⟩

/-- `jal x0, 8`. -/
def jalEight : Transfer := .jump 0 ⟨8, rfl⟩

/-- The branch stays where it is, the jump goes to 9. -/
theorem control_transfer_lost :
    (∃ s', iteration (single (fun _ => 0) beqEight.word) = .ok s' ∧ s'.pc = 0) ∧
      (∃ s', iteration (single (fun _ => 0) jalEight.word) = .ok s' ∧ s'.pc = 9) ∧
      ¬∀ (s : State) (t : Transfer), (decode s t.word).immediate = t.offset ∧
        (Fetches s t.word → t.offset.toNat % 4 = 0 → t.Taken s → t.Reaches s) := by
  refine ⟨iteration_taken (fetches_single _ _) ⟨.beq, rfl, rfl⟩,
    iteration_taken (fetches_single _ _) trivial, ?_⟩
  intro hall
  have hbranch := (hall (single (fun _ => 0) beqEight.word) beqEight).1
  exact absurd hbranch (by decide)

end CompSys.Simulate
