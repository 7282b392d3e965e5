import CompSys.SimulateDecode
import CompSys.SimulateOutcome

/-!
# The frame of one iteration of the simulator

What an iteration may change, and where it goes on, by the word that it executes.
-/
namespace CompSys.Simulate

open RiscV (StoreOp)

/-- What the iteration that executes `inst` may change, and where it goes on. -/
structure Frame (s s' : State) (inst : Word) : Prop where
  reg : ∀ r, r ≠ inst.extractLsb' 7 5 → s'.reg r = s.reg r
  opcode : s'.mem.bytes ≠ s.mem.bytes → inst.extractLsb' 0 7 = 0x23
  bytes : ∀ b, s'.mem.bytes b ≠ s.mem.bytes b → ∃ op : StoreOp,
    (decode s inst).funct3 = op.funct3.setWidth 32 ∧
      ByteMemory.InArea (dataAddress s (decode s inst)) op.width b
  notBoth : s'.reg = s.reg ∨ s'.mem.bytes = s.mem.bytes
  branch : inst.extractLsb' 0 7 = 0x63 → s'.reg = s.reg ∧ s'.mem.bytes = s.mem.bytes
  pc : Matches (decode s inst) → GoesTo s (decode s inst) s'.pc
  kept : ¬ Matches (decode s inst) →
    s'.pc = s.pc ∧ s'.reg = s.reg ∧ s'.mem.bytes = s.mem.bytes

theorem opcode_store {w : Word} (h : Opcode.ofWord w = some .S) : w.toNat = 0x23 := by
  unfold Opcode.ofWord at h
  split at h <;> cases h
  assumption

theorem frame_of_outcome {s s' : State} {inst : Word} (h : Outcome s (decode s inst) s') :
    Frame s s' inst := by
  have hrd : (decode s inst).rd = inst.extractLsb' 7 5 := by
    rw [decode_eq]
    rfl
  have hbranch : inst.extractLsb' 0 7 = 0x63 → (decode s inst).opcode = some .B := by
    intro hop
    rw [decode_eq, RiscV.opcodeField, hop]
    rfl
  cases h with
  | written op v hsel _ hreg hbytes hpc =>
    have hmatch : Matches (decode s inst) := .inl ⟨op, hsel⟩
    refine ⟨?_, fun h => absurd hbytes h, fun b hb => absurd (congrFun hbytes b) hb, .inr hbytes,
      ?_, fun _ => hpc, fun h => absurd hmatch h⟩
    · intro r hr
      rw [hreg, hrd, Function.update_of_ne hr]
    · intro hop
      simp [operation, hbranch hop] at hsel
  | stored op hop hf hreg hbytes hpc =>
    have hmatch : Matches (decode s inst) := .inr (.inl ⟨hop, op, hf⟩)
    refine ⟨fun r _ => congrFun hreg r, ?_, ?_, .inl hreg, ?_, ?_, fun h => absurd hmatch h⟩
    · intro _
      rw [decode_eq] at hop
      have hnat := opcode_store hop
      rw [BitVec.toNat_setWidth_of_le (by decide)] at hnat
      exact BitVec.eq_of_toNat_eq hnat
    · intro b hb
      refine ⟨op, hf, by_contra fun hout => hb ?_⟩
      rw [hbytes, op.write_eq, ByteMemory.writeBytes_other]
      rwa [op.length_bytes]
    · intro hb
      rw [hbranch hb] at hop
      cases hop
    · intro _
      rw [hpc]
      exact .next (by simp [hop]) (by simp [hop])
  | branched op hop hf hreg hbytes hpc =>
    have hmatch : Matches (decode s inst) := .inr (.inr ⟨hop, op, hf⟩)
    exact ⟨fun r _ => congrFun hreg r, fun h => absurd hbytes h,
      fun b hb => absurd (congrFun hbytes b) hb, .inl hreg, fun _ => ⟨hreg, hbytes⟩, fun _ => hpc,
      fun h => absurd hmatch h⟩
  | kept hno hpc hreg hbytes =>
    exact ⟨fun r _ => congrFun hreg r, fun h => absurd hbytes h,
      fun b hb => absurd (congrFun hbytes b) hb, .inl hreg, fun _ => ⟨hreg, hbytes⟩,
      fun h => absurd h hno, fun _ => ⟨hpc, hreg, hbytes⟩⟩

/-- An iteration that goes on has executed one word, and changes only what its frame allows. -/
theorem iteration_frame {s s' : State} (h : iteration s = .ok s') :
    ∃ inst, Fetches s inst ∧ Frame s s' inst := by
  obtain ⟨inst, mem, hread, houtcome⟩ := iteration_outcome h
  exact ⟨inst, fetches_of_read hread, frame_of_outcome houtcome⟩

/-- `jalr x1, 8(x1)` reads x1 before it is written, and the word 0 changes nothing. -/
theorem iteration_frame_samples :
    (∃ s', iteration (single (fun _ => 0x100) (RiscV.formatI 0x67 1 0 1 8)) = .ok s' ∧
        s'.pc = 0x108 ∧ s'.reg 1 = 4 ∧
        ∃ inst, Frame (single (fun _ => 0x100) (RiscV.formatI 0x67 1 0 1 8)) s' inst) ∧
      ∃ s', iteration (single (fun _ => 0x100) 0) = .ok s' ∧ s'.pc = 0 ∧
        ∃ inst, Frame (single (fun _ => 0x100) 0) s' inst := by
  have hjalr : ∃ s', iteration (single (fun _ => 0x100) (RiscV.formatI 0x67 1 0 1 8)) = .ok s' ∧
      s'.pc = 0x108 ∧ s'.reg 1 = 4 := ⟨_, rfl, by decide, by decide⟩
  have hzero : ∃ s', iteration (single (fun _ => 0x100) 0) = .ok s' ∧ s'.pc = 0 :=
    ⟨_, rfl, by decide⟩
  obtain ⟨s₁, hrun₁, hpc₁, hreg₁⟩ := hjalr
  obtain ⟨s₂, hrun₂, hpc₂⟩ := hzero
  obtain ⟨inst₁, -, hframe₁⟩ := iteration_frame hrun₁
  obtain ⟨inst₂, -, hframe₂⟩ := iteration_frame hrun₂
  exact ⟨⟨s₁, hrun₁, hpc₁, hreg₁, inst₁, hframe₁⟩, s₂, hrun₂, hpc₂, inst₂, hframe₂⟩

end CompSys.Simulate
