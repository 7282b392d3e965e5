import CompSys.RiscVMachine
import CompSys.SimulateControl
import CompSys.SimulateFrame
import CompSys.SimulateMemory

/-!
# The simulator against a processor

Whole runs of `simulate` next to those of an RV32IM processor. They agree as long as every
instruction that the processor executes is one that the simulator gets right there.
-/
namespace CompSys.Simulate

open RiscV (Register Instr Machine LoadOp StoreOp BranchOp RegOp ImmOp)

/-- The same instruction is next, and the registers and the bytes of the memory are the same. -/
structure Agrees (s : State) (m : Machine) : Prop where
  pc : s.pc = m.pc
  reg : s.reg = m.x
  mem : s.mem.bytes = m.mem

/-- The processor in the state of the simulator. -/
def processor (s : State) (h : s.reg 0 = 0) : Machine := ⟨s.pc, s.reg, s.mem.bytes, h⟩

theorem agrees_processor (s : State) (h : s.reg 0 = 0) : Agrees s (processor s h) := ⟨rfl, rfl, rfl⟩

/-- The next iteration leads to a state of the processor. -/
def Follows (s : State) (m' : Machine) : Prop := ∃ s', iteration s = .ok s' ∧ Agrees s' m'

/-- What `lui` writes: the lowest eight bits of the immediate, and above `rd`'s topmost bit. -/
def shiftedUpper (rd : Register) (imm : BitVec 20) : Word :=
  BitVec.ofNat 32 ((imm.toNat % 2 ^ 8 * 2 + rd.toNat / 16) * 2 ^ 23)

/-- The simulator executes the instruction as the processor does. What it writes to x0
stays there, so that it has to be zero. -/
def Faithful (m : Machine) : Instr → Prop
  | .regOp op rd rs1 rs2 =>
    if rd = 0 then regResult op (m.x rs1) (m.x rs2) = .ok (some 0)
    else RegRight op (m.x rs1) (m.x rs2)
  | .immOp op rd rs1 => if rd = 0 then immResult op (m.x rs1) = some 0 else ImmRight op (m.x rs1)
  | .lui rd imm =>
    if rd = 0 then shiftedUpper 0 imm = 0 else imm.toNat = 0x800 * (rd.toNat / 16)
  | .auipc rd imm =>
    if rd = 0 then imm.toNat % 8 = 0 ∧ m.pc + shiftedUpper 0 imm = 0
    else imm.toNat = 0x800 * (rd.toNat / 16)
  | .load op rd rs1 imm =>
    if rd = 0 then loaded op m.mem (m.pc + m.address rs1 imm) = 0
    else LoadRight op m.mem (m.address rs1 imm) (m.pc + m.address rs1 imm)
  | .store op rs1 rs2 imm =>
    m.pc = 0 ∨ ByteMemory.Holds m.mem (m.address rs1 imm) (op.bytes (m.x rs2)) ∧
      ByteMemory.Holds m.mem (m.pc + m.address rs1 imm) (op.bytes (m.x rs2))
  | .branch op rs1 rs2 half =>
    op.Taken (m.x rs1) (m.x rs2) →
      half.extractLsb' 0 4 = half.extractLsb' 11 1 ++ half.extractLsb' 7 3
  | .jal _ _ => False
  | .jalr rd rs1 imm => (rd = 0 → m.pc + 4 = 0) ∧ (m.address rs1 imm).getLsbD 0 = false
  | .ecall => True

/-! ## Steps -/

theorem Agrees.fetches {s : State} {m : Machine} {i : Instr} (h : Agrees s m)
    (hfetch : m.fetch = some i) : Fetches s i.encode := by
  obtain ⟨haligned, hword⟩ := Machine.fetch_eq_some_iff.mp hfetch
  rw [← h.pc] at haligned hword
  rw [← h.mem] at hword
  exact ⟨haligned, hword⟩

/-- Only stores change the memory. -/
theorem mem_kept {s s' : State} {i : Instr} (hfetch : Fetches s i.encode)
    (hop : RiscV.opcodeField i.encode ≠ 0x23) (h : iteration s = .ok s') :
    s'.mem.bytes = s.mem.bytes := by
  obtain ⟨inst, hfetch', hframe⟩ := iteration_frame h
  have hinst : inst = i.encode := hfetch'.word.symm.trans hfetch.word
  by_contra hchanged
  have hstore := hframe.opcode hchanged
  rw [hinst] at hstore
  exact hop hstore

theorem pc_ne_next (pc : Word) : pc ≠ pc + 4 := by
  intro heq
  have hnat := congrArg BitVec.toNat heq
  rw [BitVec.toNat_add] at hnat
  have hlt := pc.isLt
  have hfour : (4 : Word).toNat = 4 := rfl
  omega

/-- Writing a value, where the zero register gets zero, is what the processor does. -/
theorem update_set {s : State} {m : Machine} (h : Agrees s m) (rd : Register) (v : Word) :
    Function.update s.reg rd (if rd = 0 then 0 else v) = (m.set rd v).x := by
  rw [Machine.set_x, h.reg]
  by_cases hrd : rd = 0
  · rw [if_pos hrd, if_pos hrd, hrd, ← m.x_zero, Function.update_eq_self]
  · rw [if_neg hrd, if_neg hrd]

theorem update_eq_set_iff {s : State} {m : Machine} (h : Agrees s m) (rd : Register) (v w : Word) :
    Function.update s.reg rd w = (m.set rd v).x ↔ w = if rd = 0 then 0 else v := by
  rw [← update_set h]
  constructor
  · intro heq
    have hvalue := congrFun heq rd
    rwa [Function.update_self, Function.update_self] at hvalue
  · rintro rfl
    rfl

/-- An instruction with a result follows the processor exactly when it writes the same. -/
theorem follows_iff {s st : State} {m : Machine} {i : Instr} {rd : Register} {v : Word}
    {result : Except Stop (Option Word)} (h : Agrees s m) (hfetch : Fetches s i.encode)
    (hop : RiscV.opcodeField i.encode ≠ 0x23)
    (hstep : iteration s = result.map (settle st (decode s i.encode)))
    (hreg : st.reg = s.reg) (hpc : st.pc = s.pc) (hrd : (decode s i.encode).rd = rd) :
    Follows s (m.set rd v).next ↔ result = .ok (some (if rd = 0 then 0 else v)) := by
  match result, hstep with
  | .error stop, hstep =>
    refine iff_of_false ?_ (fun heq => nomatch heq)
    rintro ⟨s', hstep', -⟩
    rw [hstep] at hstep'
    cases hstep'
  | .ok none, hstep =>
    refine iff_of_false ?_ (fun heq => nomatch heq)
    rintro ⟨s', hstep', hagrees⟩
    rw [hstep] at hstep'
    cases hstep'
    have hpc' : st.pc = m.pc + 4 := hagrees.pc
    rw [hpc, ← h.pc] at hpc'
    exact pc_ne_next s.pc hpc'
  | .ok (some w), hstep =>
    have hwrite : (st.insert (decode s i.encode) w).reg = Function.update s.reg rd w := by
      rw [← hrd, ← hreg]
      rfl
    have hnext : (st.insert (decode s i.encode) w).pc = s.pc + 4 := by
      rw [← hpc]
      rfl
    rw [Except.ok.injEq, Option.some.injEq, ← update_eq_set_iff h]
    constructor
    · rintro ⟨s', hstep', hagrees⟩
      rw [hstep] at hstep'
      cases hstep'
      exact hwrite.symm.trans hagrees.reg
    · intro heq
      exact ⟨_, hstep, hnext.trans (congrArg (· + 4) h.pc), hwrite.trans heq,
        (mem_kept hfetch hop hstep).trans h.mem⟩

theorem upper_value (opcode : BitVec 7) (rd : Register) (imm : BitVec 20) :
    immediateU (RiscV.formatU opcode rd imm) <<< 12 = shiftedUpper rd imm := by
  have himm := imm.isLt
  have hrd := rd.isLt
  have hop := opcode.isLt
  rw [immediateU_shifted, ← BitVec.toNat_inj, BitVec.toNat_cast, BitVec.toNat_append,
    ← Nat.shiftLeft_add_eq_or_of_lt (by decide), BitVec.extractLsb'_toNat, toNat_formatU,
    shiftedUpper, BitVec.toNat_ofNat, Nat.shiftLeft_eq, Nat.shiftRight_eq_div_pow,
    BitVec.toNat_ofNat]
  omega

theorem reg_follows_iff {s : State} {m : Machine} {op : RegOp} {rd rs1 rs2 : Register}
    (h : Agrees s m) (hfetch : Fetches s (Instr.regOp op rd rs1 rs2).encode) :
    Follows s (m.set rd (op.result (m.x rs1) (m.x rs2))).next ↔
      Faithful m (.regOp op rd rs1 rs2) := by
  obtain ⟨hopcode, -⟩ := RiscV.fields_formatR 0x33 rd rs1 rs2 op.funct3 op.funct7
  obtain ⟨-, hrd, -⟩ := decode_formatR s rd rs1 rs2 op.funct3 op.funct7
  have hop : RiscV.opcodeField (Instr.regOp op rd rs1 rs2).encode ≠ 0x23 := by
    rw [Instr.encode, RegOp.encode, hopcode]
    decide
  rw [follows_iff h hfetch hop (iteration_reg hfetch) rfl rfl hrd, Faithful, h.reg]
  split
  · exact Iff.rfl
  · exact regResult_iff op _ _

theorem imm_follows_iff {s : State} {m : Machine} {op : ImmOp} {rd rs1 : Register}
    (h : Agrees s m) (hfetch : Fetches s (Instr.immOp op rd rs1).encode) :
    Follows s (m.set rd (op.result (m.x rs1))).next ↔ Faithful m (.immOp op rd rs1) := by
  obtain ⟨hopcode, -⟩ := RiscV.fields_formatI 0x13 rd rs1 op.funct3 op.field
  obtain ⟨-, hrd, -⟩ := decode_formatI s rd rs1 op.funct3 computation_mem op.field
  have hop : RiscV.opcodeField (Instr.immOp op rd rs1).encode ≠ 0x23 := by
    rw [Instr.encode, ImmOp.encode, hopcode]
    decide
  rw [follows_iff h hfetch hop (iteration_imm hfetch) rfl rfl hrd, Faithful, h.reg,
    Except.ok.injEq]
  split
  · exact Iff.rfl
  · exact immResult_iff op _

theorem lui_follows_iff {s : State} {m : Machine} {rd : Register} {imm : BitVec 20}
    (h : Agrees s m) (hfetch : Fetches s (Instr.lui rd imm).encode) :
    Follows s (m.set rd (RiscV.upper imm)).next ↔ Faithful m (.lui rd imm) := by
  obtain ⟨hopcode, -⟩ := RiscV.fields_formatU 0x37 rd imm
  obtain ⟨-, hrd, -⟩ := decode_formatU s rd lui_mem imm
  have hop : RiscV.opcodeField (Instr.lui rd imm).encode ≠ 0x23 := by
    rw [Instr.encode, RiscV.encodeLui, hopcode]
    decide
  rw [follows_iff h hfetch hop (iteration_lui hfetch) rfl rfl hrd, Faithful, Except.ok.injEq,
    Option.some.injEq]
  split
  case isTrue hzero => rw [RiscV.encodeLui, upper_value, hzero]
  case isFalse => exact upper_iff 0x37 rd imm

theorem auipc_follows_iff {s : State} {m : Machine} {rd : Register} {imm : BitVec 20}
    (h : Agrees s m) (hfetch : Fetches s (Instr.auipc rd imm).encode) :
    Follows s (m.set rd (m.pc + RiscV.upper imm)).next ↔ Faithful m (.auipc rd imm) := by
  obtain ⟨hopcode, -⟩ := RiscV.fields_formatU 0x17 rd imm
  obtain ⟨-, hrd, -⟩ := decode_formatU s rd auipc_mem imm
  have hop : RiscV.opcodeField (Instr.auipc rd imm).encode ≠ 0x23 := by
    rw [Instr.encode, RiscV.encodeAuipc, hopcode]
    decide
  rw [follows_iff h hfetch hop (iteration_auipc hfetch) rfl rfl hrd, Faithful, Except.ok.injEq,
    Option.ite_none_right_eq_some, Option.some.injEq, h.pc]
  split
  case isTrue hzero => rw [RiscV.encodeAuipc, upper_value, hzero]
  case isFalse =>
    rw [BitVec.add_right_inj, RiscV.encodeAuipc, upper_iff]
    refine and_iff_right_of_imp fun himm => ?_
    omega

theorem Agrees.address {s : State} {m : Machine} (h : Agrees s m) (rs1 : Register)
    (imm : BitVec 12) : Simulate.address s rs1 imm = m.address rs1 imm := by
  rw [Simulate.address, Machine.address, h.reg]

theorem load_follows_iff {s : State} {m : Machine} {op : LoadOp} {rd rs1 : Register}
    {imm : BitVec 12} (h : Agrees s m) (hfetch : Fetches s (Instr.load op rd rs1 imm).encode)
    (haligned : (m.address rs1 imm).toNat % op.width = 0) :
    Follows s (m.set rd (op.value m.mem (m.address rs1 imm))).next ↔
      Faithful m (.load op rd rs1 imm) := by
  obtain ⟨hopcode, -⟩ := RiscV.fields_formatI 0x03 rd rs1 op.funct3 imm
  obtain ⟨-, hrd, -⟩ := decode_formatI s rd rs1 op.funct3 load_mem imm
  have hop : RiscV.opcodeField (Instr.load op rd rs1 imm).encode ≠ 0x23 := by
    rw [Instr.encode, LoadOp.encode, hopcode]
    decide
  rw [← h.address] at haligned
  obtain ⟨st, hstep, hreg, hpc⟩ := iteration_load hfetch haligned
  rw [follows_iff h hfetch hop hstep hreg hpc hrd, Faithful, h.address, h.mem, h.pc,
    Except.ok.injEq, Option.some.injEq]
  split
  · exact Iff.rfl
  · exact loaded_iff op _ _ _

theorem store_follows_iff {s : State} {m : Machine} {op : StoreOp} {rs1 rs2 : Register}
    {imm : BitVec 12} (h : Agrees s m) (hfetch : Fetches s (Instr.store op rs1 rs2 imm).encode)
    (haligned : (m.address rs1 imm).toNat % op.width = 0) :
    Follows s { m with mem := op.write m.mem (m.address rs1 imm) (m.x rs2) }.next ↔
      Faithful m (.store op rs1 rs2 imm) := by
  have hpc := hfetch.aligned
  rw [← h.address] at haligned
  have hstores := iteration_store hfetch haligned
  rw [h.address, h.pc, h.reg, h.mem] at hstores
  rw [Faithful, ← write_iff op m.mem _ _ (h.pc ▸ hpc), ← stores_iff hstores]
  constructor
  · rintro ⟨s', hstep, hagrees⟩
    exact ⟨s', hstep, hagrees.mem, hagrees.reg.trans h.reg.symm,
      hagrees.pc.trans (congrArg (· + 4) h.pc.symm)⟩
  · rintro ⟨s', hstep, hbytes, hreg, hpc'⟩
    exact ⟨s', hstep, hpc'.trans (congrArg (· + 4) h.pc), hreg.trans h.reg, hbytes⟩

theorem executeB_not_taken (s : State) {ins : Instruction} {op : BranchOp}
    (hf3 : ins.funct3 = op.funct3.setWidth 32) (h : ¬op.Taken ins.rs1 ins.rs2) :
    executeB s ins = s.incrementPC := by
  cases op <;> simp only [BranchOp.Taken, BranchOp.funct3] at h hf3 <;>
    simp [executeB, hf3, State.branch, BitVec.slt, BitVec.ult, h]

/-- An offset without its lowest bit. -/
def ofHalf {w : ℕ} (half : BitVec w) : Offset (w + 1) where
  bits := half ++ 0#1
  even := by
    rw [BitVec.getLsbD_append]
    rfl

theorem branch_kept_iff (op : BranchOp) (rs1 rs2 : Register) (half : BitVec 12) :
    immediateB (Instr.branch op rs1 rs2 half).encode = (half ++ 0#1).signExtend 32 ↔
      half.extractLsb' 0 4 = half.extractLsb' 11 1 ++ half.extractLsb' 7 3 := by
  have hkept := immediateB_iff op.funct3 rs1 rs2 (ofHalf half)
  simp (disch := decide) only [ofHalf, BitVec.extractLsb'_append_eq_of_le, Nat.reduceSub] at hkept
  exact hkept

theorem branch_follows_iff {s : State} {m m' : Machine} {op : BranchOp} {rs1 rs2 : Register}
    {half : BitVec 12} (h : Agrees s m) (hfetch : Fetches s (Instr.branch op rs1 rs2 half).encode)
    (hexec : m.exec (.branch op rs1 rs2 half) = some m') :
    Follows s m' ↔ Faithful m (.branch op rs1 rs2 half) := by
  obtain ⟨hop, hrs1, hrs2, hf3, himm⟩ := decode_formatB s rs1 rs2 op.funct3 (half ++ 0#1)
  rw [h.reg] at hrs1 hrs2
  have hstep := iteration_eq hfetch
  simp only [Instr.encode, execute, hop] at hstep
  have hmem := (bytes_fetched s (Instr.branch op rs1 rs2 half).encode).trans h.mem
  simp only [Machine.exec] at hexec
  split at hexec
  case isTrue htaken =>
    obtain ⟨-, rfl⟩ := Machine.jump_eq_some_iff.mp hexec
    rw [← hrs1, ← hrs2] at htaken
    rw [executeB_taken _ hf3 htaken, himm] at hstep
    rw [Faithful, ← hrs1, ← hrs2, ← branch_kept_iff op rs1 rs2]
    constructor
    · rintro ⟨s', hstep', hagrees⟩ -
      rw [hstep] at hstep'
      cases hstep'
      have hpc : s.pc + _ = m.pc + _ := hagrees.pc
      rwa [h.pc, BitVec.add_right_inj] at hpc
    · intro hkept
      exact ⟨_, hstep, congrArg₂ (· + ·) h.pc (hkept htaken), h.reg, hmem⟩
  case isFalse hnot =>
    cases hexec
    rw [← hrs1, ← hrs2] at hnot
    rw [executeB_not_taken _ hf3 hnot] at hstep
    rw [Faithful, ← hrs1, ← hrs2]
    exact iff_of_true ⟨_, hstep, congrArg (· + 4) h.pc, h.reg, hmem⟩ fun htaken => absurd htaken hnot

/-- The offset of a jump is odd. -/
theorem jal_not_follows {s : State} {m m' : Machine} {rd : Register} {half : BitVec 20}
    (h : Agrees s m) (hfetch : Fetches s (Instr.jal rd half).encode)
    (hexec : m.exec (.jal rd half) = some m') : ¬Follows s m' := by
  obtain ⟨hop, -, himm⟩ := decode_formatJ s rd (half ++ 0#1)
  have hstep := iteration_eq hfetch
  simp only [Instr.encode, execute, hop, himm] at hstep
  obtain ⟨-, rfl⟩ := Machine.jump_eq_some_iff.mp hexec
  rintro ⟨s', hstep', hagrees⟩
  rw [hstep] at hstep'
  cases hstep'
  have hpc : s.pc + _ = m.pc + _ := hagrees.pc
  rw [h.pc, BitVec.add_right_inj] at hpc
  exact immediateJ_ne rd (ofHalf half) hpc

theorem clear_lowest_iff (x : Word) : x = x &&& ~~~1 ↔ x.getLsbD 0 = false := by
  constructor
  · intro h
    rw [h, BitVec.getLsbD_and]
    exact Bool.and_false _
  · intro h
    apply BitVec.eq_of_getLsbD_eq
    intro i hi
    have hone : (1 : Word).getLsbD i = decide (i = 0) := by
      simp
    rw [BitVec.getLsbD_and, BitVec.getLsbD_not, hone]
    by_cases hzero : i = 0
    · rw [hzero, h]
      rfl
    · simp [hi, hzero]

theorem jalr_follows_iff {s : State} {m m' : Machine} {rd rs1 : Register} {imm : BitVec 12}
    (h : Agrees s m) (hfetch : Fetches s (Instr.jalr rd rs1 imm).encode)
    (hexec : m.exec (.jalr rd rs1 imm) = some m') :
    Follows s m' ↔ Faithful m (.jalr rd rs1 imm) := by
  have hmem_I : ((0x67 : BitVec 7), Opcode.I3) ∈ opcodesI := by decide
  obtain ⟨hop, hrd, hrs1, hf3, himm⟩ := decode_formatI s rd rs1 0 hmem_I imm
  have hstep := iteration_eq hfetch
  simp only [Instr.encode, execute, hop, hf3, hrs1, himm] at hstep
  change iteration s = .ok { (fetched s _).writeRd _ (s.pc + 4) with
    pc := Simulate.address s rs1 imm } at hstep
  have hmem := (bytes_fetched s (Instr.jalr rd rs1 imm).encode).trans h.mem
  have hwrite : Function.update s.reg (decode s (Instr.jalr rd rs1 imm).encode).rd (s.pc + 4) =
      Function.update s.reg rd (s.pc + 4) := congrArg (Function.update s.reg · (s.pc + 4)) hrd
  have hvalue : s.pc + 4 = (if rd = 0 then 0 else m.pc + 4) ↔ (rd = 0 → m.pc + 4 = 0) := by
    rw [h.pc]
    split
    case isTrue hzero => exact ⟨fun h _ => h, fun h => h hzero⟩
    case isFalse hne => exact iff_of_true rfl fun hzero => absurd hzero hne
  obtain ⟨-, rfl⟩ := Machine.jump_eq_some_iff.mp hexec
  rw [Faithful, ← clear_lowest_iff, ← hvalue, ← update_eq_set_iff h]
  constructor
  · rintro ⟨s', hstep', hagrees⟩
    rw [hstep] at hstep'
    cases hstep'
    exact ⟨hwrite.symm.trans hagrees.reg, (h.address rs1 imm).symm.trans hagrees.pc⟩
  · rintro ⟨hreg, hpc⟩
    exact ⟨_, hstep, (h.address rs1 imm).trans hpc, hwrite.trans hreg, hmem⟩

/-- A step of the processor is followed exactly by a faithful instruction. -/
theorem step_follows_iff {s : State} {m m' : Machine} {i : Instr} (h : Agrees s m)
    (hfetch : m.fetch = some i) (hexec : m.exec i = some m') : Follows s m' ↔ Faithful m i := by
  have hword := h.fetches hfetch
  cases i with
  | regOp op rd rs1 rs2 =>
    cases hexec
    exact reg_follows_iff h hword
  | immOp op rd rs1 =>
    cases hexec
    exact imm_follows_iff h hword
  | lui rd imm =>
    cases hexec
    exact lui_follows_iff h hword
  | auipc rd imm =>
    cases hexec
    exact auipc_follows_iff h hword
  | load op rd rs1 imm =>
    obtain ⟨haligned, heq⟩ := Option.ite_none_right_eq_some.mp hexec
    cases heq
    exact load_follows_iff h hword haligned
  | store op rs1 rs2 imm =>
    obtain ⟨haligned, heq⟩ := Option.ite_none_right_eq_some.mp hexec
    cases heq
    exact store_follows_iff h hword haligned
  | branch op rs1 rs2 half => exact branch_follows_iff h hword hexec
  | jal rd half => exact iff_of_false (jal_not_follows h hword hexec) id
  | jalr rd rs1 imm => exact jalr_follows_iff h hword hexec
  | ecall => cases hexec

/-! ## Runs -/

/-- The simulator and the processor pass through the same states, up to the `n`-th. -/
def RunsAgree (s : State) (m : Machine) (n : ℕ) : Prop :=
  ∀ k ≤ n, ∃ s' m', simulate k s = .ok s' ∧ m.run k = some m' ∧ Agrees s' m'

theorem runsAgree_succ_iff {s : State} {m mid m' : Machine} {n : ℕ} (hrun : m.run n = some mid)
    (hstep : mid.step = some m') : RunsAgree s m (n + 1) ↔
      RunsAgree s m n ∧ ∃ s', simulate n s = .ok s' ∧ Follows s' m' := by
  have hrun' : m.run (n + 1) = some m' := Machine.run_succ_eq_some_iff.mpr ⟨mid, hrun, hstep⟩
  constructor
  · intro h
    refine ⟨fun k hk => h k (Nat.le_succ_of_le hk), ?_⟩
    obtain ⟨s', -, hsim, -, -⟩ := h n (Nat.le_succ n)
    obtain ⟨s'', m'', hsim', hm'', hagrees⟩ := h (n + 1) (le_refl _)
    rw [hrun'] at hm''
    cases hm''
    rw [simulate, hsim] at hsim'
    exact ⟨s', hsim, s'', hsim', hagrees⟩
  · rintro ⟨h, s', hsim, s'', hnext, hagrees⟩ k hk
    rcases Nat.le_succ_iff.mp hk with hle | rfl
    · exact h k hle
    · refine ⟨s'', m', ?_, hrun', hagrees⟩
      rw [simulate, hsim]
      exact hnext

/-- The runs agree exactly as long as every instruction that the processor executes is faithful. -/
theorem runs_agree_iff {s : State} {m m' : Machine} (h : Agrees s m) {n : ℕ}
    (hrun : m.run n = some m') :
    RunsAgree s m n ↔ ∀ k < n, ∀ mid i, m.run k = some mid → mid.fetch = some i → Faithful mid i := by
  induction n generalizing m' with
  | zero =>
    refine iff_of_true ?_ (fun k hk => absurd hk (Nat.not_lt_zero k))
    intro k hk
    rw [Nat.le_zero.mp hk]
    exact ⟨s, m, rfl, rfl, h⟩
  | succ n ih =>
    obtain ⟨mid, hmid, hstep⟩ := Machine.run_succ_eq_some_iff.mp hrun
    obtain ⟨i, hfetch, hexec⟩ := Machine.step_eq_some_iff.mp hstep
    have hlast : RunsAgree s m n → ((∃ s', simulate n s = .ok s' ∧ Follows s' m') ↔
        Faithful mid i) := by
      intro hagree
      obtain ⟨s', mid', hsim, hmid', hagrees⟩ := hagree n (le_refl n)
      rw [hmid] at hmid'
      cases hmid'
      rw [← step_follows_iff hagrees hfetch hexec]
      constructor
      · rintro ⟨s'', hsim', hfollows⟩
        rw [hsim] at hsim'
        cases hsim'
        exact hfollows
      · intro hfollows
        exact ⟨s', hsim, hfollows⟩
    rw [runsAgree_succ_iff hmid hstep, and_congr_right hlast, ih hmid]
    constructor
    · rintro ⟨hbefore, hfaithful⟩ k hk mid' i' hmid' hfetch'
      rcases Nat.lt_succ_iff_lt_or_eq.mp hk with hlt | rfl
      · exact hbefore k hlt mid' i' hmid' hfetch'
      · rw [hmid] at hmid'
        cases hmid'
        rw [hfetch] at hfetch'
        cases hfetch'
        exact hfaithful
    · intro hall
      exact ⟨fun k hk => hall k (Nat.lt_succ_of_lt hk), hall n (Nat.lt_succ_self n) mid i hmid hfetch⟩

/-- `addi x3, x0, 5`. -/
def addiFive : Instr := .immOp (.arith .addi 5) 3 0

/-- A memory with instructions one after the other. -/
def listed : Word → List Instr → SimMemory → SimMemory
  | _, [], mem => mem
  | a, i :: code, mem => listed (a + 4) code (mem.setCell a i.encode)

/-- `addi x3, x0, 5`, `slli x4, x3, 2` and `mul x5, x3, x4`. -/
def product : State :=
  start (listed 0 [addiFive, .immOp (.shift .slli 2) 4 3, .regOp .mul 5 3 4]
    SimMemory.memoryCreate) 0 0

theorem runs_agree_iff_product : ∃ m', (processor product rfl).run 3 = some m' ∧ m'.x 5 = 100 ∧
    RunsAgree product (processor product rfl) 3 := by
  have hfetch₀ : (processor product rfl).fetch = some addiFive := rfl
  obtain ⟨m₁, hrun₁, hfetch₁⟩ : ∃ m₁, (processor product rfl).run 1 = some m₁ ∧
      m₁.fetch = some (.immOp (.shift .slli 2) 4 3) := ⟨_, rfl, rfl⟩
  obtain ⟨m₂, hrun₂, hfetch₂⟩ : ∃ m₂, (processor product rfl).run 2 = some m₂ ∧
      m₂.fetch = some (.regOp .mul 5 3 4) := ⟨_, rfl, rfl⟩
  obtain ⟨m', hrun, hproduct⟩ : ∃ m', (processor product rfl).run 3 = some m' ∧ m'.x 5 = 100 :=
    ⟨_, rfl, rfl⟩
  refine ⟨m', hrun, hproduct, (runs_agree_iff (agrees_processor product rfl) hrun).mpr ?_⟩
  intro k hk mid i hmid hi
  match k, hk with
  | 0, _ =>
    cases hmid
    cases hfetch₀.symm.trans hi
    trivial
  | 1, _ =>
    cases hrun₁.symm.trans hmid
    cases hfetch₁.symm.trans hi
    exact .inl (by decide)
  | 2, _ =>
    cases hrun₂.symm.trans hmid
    cases hfetch₂.symm.trans hi
    trivial

/-! ## Programs that run as on a processor -/

/-- Instructions that the simulator gets right on all operands. -/
def AlwaysRight : Instr → Prop
  | .regOp op rd _ _ =>
    rd ≠ 0 ∧ op ∈ [.add, .sub, .sll, .sltu, .xor, .srl, .or, .and, .mul, .mulh]
  | .immOp (.arith _ _) rd _ => rd ≠ 0
  | .immOp (.shift op shamt) rd _ => rd ≠ 0 ∧ op ≠ .srai ∧ shamt.toNat < 16
  | .lui rd imm => rd ≠ 0 ∧ imm.toNat = 0x800 * (rd.toNat / 16)
  | .auipc rd imm => rd ≠ 0 ∧ imm.toNat = 0x800 * (rd.toNat / 16)
  | .branch _ _ _ half => half.extractLsb' 0 4 = half.extractLsb' 11 1 ++ half.extractLsb' 7 3
  | .ecall => True
  | _ => False

theorem AlwaysRight.faithful {i : Instr} (h : AlwaysRight i) (m : Machine) : Faithful m i := by
  cases i with
  | regOp op rd rs1 rs2 =>
    obtain ⟨hrd, hop⟩ := h
    rw [Faithful, if_neg hrd]
    cases op <;> trivial
  | immOp op rd rs1 =>
    match op, h with
    | .arith op imm, hrd =>
      rw [Faithful, if_neg hrd]
      trivial
    | .shift .slli shamt, ⟨hrd, _, hshamt⟩ =>
      rw [Faithful, if_neg hrd]
      exact Or.inl hshamt
    | .shift .srli shamt, ⟨hrd, _, hshamt⟩ =>
      rw [Faithful, if_neg hrd]
      exact Or.inl hshamt
    | .shift .srai shamt, ⟨_, hop, _⟩ => exact absurd rfl hop
  | lui rd imm =>
    rw [Faithful, if_neg h.1]
    exact h.2
  | auipc rd imm =>
    rw [Faithful, if_neg h.1]
    exact h.2
  | branch op rs1 rs2 half => exact fun _ => h
  | ecall => trivial
  | load op rd rs1 imm => exact h.elim
  | store op rs1 rs2 imm => exact h.elim
  | jal rd half => exact h.elim
  | jalr rd rs1 imm => exact h.elim

/-- The address of the `j`-th instruction. -/
def place (base : Word) (j : ℕ) : Word := base + BitVec.ofNat 32 (4 * j)

/-- AlwaysRight instructions that lead to one another: nothing but an `ecall` ends the code. -/
structure Closed (base : Word) (code : List Instr) : Prop where
  aligned : base.toNat % 4 = 0
  plain : ∀ i ∈ code, AlwaysRight i
  next : ∀ j i, code[j]? = some i → i ≠ .ecall → j + 1 < code.length
  branch : ∀ j op rs1 rs2 half, code[j]? = some (.branch op rs1 rs2 half) →
    ∃ j' < code.length, place base j + (half ++ 0#1).signExtend 32 = place base j'

/-- The processor is about to execute an instruction of the code. -/
structure Inside (base : Word) (code : List Instr) (m : Machine) : Prop where
  words : ∀ j i, code[j]? = some i → ByteMemory.readW m.mem (place base j) = i.encode
  pc : ∃ j < code.length, m.pc = place base j

theorem aligned_place {base : Word} (h : base.toNat % 4 = 0) (j : ℕ) :
    (place base j).toNat % 4 = 0 := by
  rw [place, BitVec.toNat_add, BitVec.toNat_ofNat]
  omega

theorem place_succ (base : Word) (j : ℕ) : place base j + 4 = place base (j + 1) := by
  have hfour : (4 : Word) = BitVec.ofNat 32 4 := rfl
  rw [place, place, hfour, BitVec.add_assoc, ← BitVec.ofNat_add]
  rfl

theorem Inside.fetch {base : Word} {code : List Instr} {m : Machine} (h : Inside base code m)
    (hcode : Closed base code) :
    ∃ j i, code[j]? = some i ∧ m.pc = place base j ∧ m.fetch = some i := by
  obtain ⟨j, hj, hpc⟩ := h.pc
  have hget := List.getElem?_eq_getElem hj
  refine ⟨j, code[j], hget, hpc, Machine.fetch_eq_some_iff.mpr ⟨?_, ?_⟩⟩
  · rw [hpc]
    exact aligned_place hcode.aligned j
  · rw [hpc]
    exact h.words j _ hget

/-- AlwaysRight instructions leave the memory as it is, and only branches jump. -/
theorem AlwaysRight.exec {i : Instr} (h : AlwaysRight i) (hne : i ≠ .ecall) (m : Machine) :
    (∃ m', m.exec i = some m' ∧ m'.mem = m.mem ∧ m'.pc = m.pc + 4) ∨
      ∃ op rs1 rs2 half, i = .branch op rs1 rs2 half ∧
        m.exec i = m.jump (m.pc + (half ++ 0#1).signExtend 32) := by
  cases i with
  | regOp op rd rs1 rs2 => exact Or.inl ⟨_, rfl, rfl, rfl⟩
  | immOp op rd rs1 => exact Or.inl ⟨_, rfl, rfl, rfl⟩
  | lui rd imm => exact Or.inl ⟨_, rfl, rfl, rfl⟩
  | auipc rd imm => exact Or.inl ⟨_, rfl, rfl, rfl⟩
  | branch op rs1 rs2 half =>
    rw [Machine.exec]
    split
    · exact Or.inr ⟨op, rs1, rs2, half, rfl, rfl⟩
    · exact Or.inl ⟨_, rfl, rfl, rfl⟩
  | ecall => exact absurd rfl hne
  | load op rd rs1 imm => exact h.elim
  | store op rs1 rs2 imm => exact h.elim
  | jal rd half => exact h.elim
  | jalr rd rs1 imm => exact h.elim

theorem Inside.step {base : Word} {code : List Instr} {m : Machine} (h : Inside base code m)
    (hcode : Closed base code) : m.fetch = some .ecall ∨
      ∃ i m', AlwaysRight i ∧ m.fetch = some i ∧ m.exec i = some m' ∧ Inside base code m' := by
  obtain ⟨j, i, hget, hpc, hfetch⟩ := h.fetch hcode
  by_cases hne : i = .ecall
  · exact Or.inl (hne ▸ hfetch)
  have hplain := hcode.plain i (List.mem_of_getElem? hget)
  refine Or.inr ⟨i, ?_⟩
  rcases hplain.exec hne m with ⟨m', hexec, hmem, hnext⟩ | ⟨op, rs1, rs2, half, hbranch, hexec⟩
  · refine ⟨m', hplain, hfetch, hexec, ?_, j + 1, hcode.next j i hget hne, ?_⟩
    · rw [hmem]
      exact h.words
    · rw [hnext, hpc, place_succ]
  · obtain ⟨j', hj', htarget⟩ := hcode.branch j op rs1 rs2 half (hbranch ▸ hget)
    rw [hpc, htarget, Machine.jump, if_pos (aligned_place hcode.aligned j')] at hexec
    exact ⟨_, hplain, hfetch, hexec, h.words, j', hj', rfl⟩

theorem ecall_stops {s : State} {m : Machine} (h : Agrees s m) (hfetch : m.fetch = some .ecall) :
    iteration s = .error .ecall := by
  have hmem : ((0x73 : BitVec 7), Opcode.I4) ∈ opcodesI := by decide
  obtain ⟨hop, -, -, hf3, himm⟩ := decode_formatI s 0 0 0 hmem 0
  have hstep := iteration_eq (h.fetches hfetch)
  simp only [Instr.encode, execute, hop, hf3, himm] at hstep
  exact hstep

/-- Both go on in the same state, or both have stopped at an `ecall`. -/
def Same : Except Stop State → Option Machine → Prop
  | .ok s, some m => Agrees s m
  | .error .ecall, none => True
  | _, _ => False

/-- Closed code runs on the simulator as on a processor, for ever or up to its `ecall`. -/
theorem closed_code_runs {s : State} {m : Machine} {base : Word} {code : List Instr}
    (h : Agrees s m) (hcode : Closed base code) (hinside : Inside base code m) (n : ℕ) :
    Same (simulate n s) (m.run n) := by
  have hall : (∃ s' m', simulate n s = .ok s' ∧ m.run n = some m' ∧ Agrees s' m' ∧
      Inside base code m') ∨ simulate n s = .error .ecall ∧ m.run n = none := by
    induction n with
    | zero => exact Or.inl ⟨s, m, rfl, rfl, h, hinside⟩
    | succ n ih =>
      rcases ih with ⟨s', m', hsim, hrun, hagrees, hin⟩ | ⟨hsim, hrun⟩
      · have hsim' : simulate (n + 1) s = iteration s' := by
          rw [simulate, hsim]
          rfl
        have hrun' : m.run (n + 1) = m'.fetch.bind m'.exec := by
          rw [Machine.run, hrun]
          rfl
        rw [hsim', hrun']
        rcases hin.step hcode with hecall | ⟨i, m'', hplain, hfetch, hexec, hin'⟩
        · rw [hecall]
          exact Or.inr ⟨ecall_stops hagrees hecall, rfl⟩
        · obtain ⟨s'', hstep, hagrees'⟩ :=
            (step_follows_iff hagrees hfetch hexec).mpr (hplain.faithful m')
          rw [hfetch]
          exact Or.inl ⟨s'', m'', hstep, hexec, hagrees', hin'⟩
      · rw [simulate, hsim, Machine.run, hrun]
        exact Or.inr ⟨rfl, rfl⟩
  rcases hall with ⟨s', m', hsim, hrun, hagrees, -⟩ | ⟨hsim, hrun⟩
  · rw [hsim, hrun]
    exact hagrees
  · rw [hsim, hrun]
    trivial

/-- `addi x3, x0, 5` and `ecall`. -/
theorem closed_code_runs_addi : Closed 0 [addiFive, .ecall] ∧
    Same (simulate 2 (pair 0 addiFive.encode Instr.ecall.encode))
      ((processor (pair 0 addiFive.encode Instr.ecall.encode) rfl).run 2) := by
  have hget : ∀ {j : ℕ} {i : Instr}, [addiFive, .ecall][j]? = some i →
      j = 0 ∧ i = addiFive ∨ j = 1 ∧ i = .ecall := by
    intro j i h
    match j with
    | 0 => exact Or.inl ⟨rfl, (Option.some.inj h).symm⟩
    | 1 => exact Or.inr ⟨rfl, (Option.some.inj h).symm⟩
    | j + 2 => cases h
  have hcode : Closed 0 [addiFive, .ecall] := by
    refine ⟨rfl, ?_, ?_, ?_⟩
    · intro i hi
      obtain ⟨j, hj⟩ := List.getElem?_of_mem hi
      rcases hget hj with ⟨-, rfl⟩ | ⟨-, rfl⟩
      · exact (by decide : (3 : Register) ≠ 0)
      · trivial
    · intro j i h hne
      rcases hget h with ⟨rfl, -⟩ | ⟨-, rfl⟩
      · decide
      · exact absurd rfl hne
    · intro j op rs1 rs2 half h
      rcases hget h with ⟨-, heq⟩ | ⟨-, heq⟩ <;> cases heq
  refine ⟨hcode, closed_code_runs (agrees_processor _ rfl) hcode ⟨?_, 0, by decide, rfl⟩ 2⟩
  intro j i h
  rcases hget h with ⟨rfl, rfl⟩ | ⟨rfl, rfl⟩
  · decide
  · decide

end CompSys.Simulate
