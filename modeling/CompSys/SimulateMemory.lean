import CompSys.SimulateArith

/-!
# Loads and stores of the simulator

`simulate` adds the PC to the address of every load and store, and the signed loads
extend with zeros as the unsigned ones do. What RV32I defines happens where this makes
no difference.
-/
namespace CompSys.Simulate

open RiscV (Register LoadOp StoreOp)

/-- The address that RV32I defines. -/
def address (s : State) (rs1 : Register) (imm : BitVec 12) : Word :=
  s.reg rs1 + imm.signExtend 32

/-- The simulator adds the PC to it. -/
theorem dataAddress_eq {s : State} {inst : Word} {rs1 : Register} {imm : BitVec 12}
    (hrs1 : (decode s inst).rs1 = s.reg rs1)
    (himm : (decode s inst).immediate = imm.signExtend 32) :
    dataAddress (fetched s inst) (decode s inst) = s.pc + address s rs1 imm := by
  rw [dataAddress, hrs1, himm, BitVec.add_assoc]
  rfl

/-! ## Loads -/

/-- What a load writes to its register. -/
def loaded (op : LoadOp) (m : ByteMemory.Bytes 32) (a : Word) : Word :=
  match op with
  | .lb | .lbu => (m a).setWidth 32
  | .lh | .lhu => (ByteMemory.readH m a).setWidth 32
  | .lw => ByteMemory.readW m a

theorem executeI2_op {s : State} {ins : Instruction} {op : LoadOp}
    (hf3 : ins.funct3 = op.funct3.setWidth 32)
    (haligned : (dataAddress s ins).toNat % op.width = 0) :
    executeI2 s ins = .ok (({ s with mem := s.mem.getPage (dataAddress s ins) } : State).insert ins
      (loaded op s.mem.bytes (dataAddress s ins))) := by
  have hunsigned : s.pc + (ins.rs1 + ins.immediate) = dataAddress s ins := by
    rw [dataAddress, BitVec.add_assoc]
  cases op <;> simp only [LoadOp.funct3, LoadOp.width] at hf3 haligned
  case lb => simp [executeI2, hf3, loadB, SimMemory.memoryRdB_eq, loaded]
  case lh => simp [executeI2, hf3, loadH, SimMemory.memoryRdH_eq _ _ haligned, loaded]
  case lw => simp [executeI2, hf3, loadW, SimMemory.memoryRdW_eq _ _ haligned, loaded]
  case lbu => simp [executeI2, hf3, loadB, hunsigned, SimMemory.memoryRdB_eq, loaded]
  case lhu => simp [executeI2, hf3, loadH, hunsigned, SimMemory.memoryRdH_eq _ _ haligned, loaded]

/-- The PC and an address that are both aligned have an aligned sum. -/
theorem aligned_sum {s : State} {inst a : Word} {width : ℕ} (hfetch : Fetches s inst)
    (hwidth : width ∣ 4) (h : a.toNat % width = 0) : (s.pc + a).toNat % width = 0 := by
  have hpc : width ∣ s.pc.toNat := hwidth.trans (Nat.dvd_of_mod_eq_zero hfetch.aligned)
  have hword : width ∣ 2 ^ 32 := hwidth.trans (by decide)
  have hsum := (Nat.dvd_add hpc (Nat.dvd_of_mod_eq_zero h))
  rw [BitVec.toNat_add]
  exact Nat.mod_eq_zero_of_dvd ((Nat.dvd_mod_iff hword).mpr hsum)

theorem LoadOp.width_dvd (op : LoadOp) : op.width ∣ 4 := by
  cases op <;> decide

theorem StoreOp.width_dvd (op : StoreOp) : op.width ∣ 4 := by
  cases op <;> decide

/-- A load reads at its address plus the PC. -/
theorem iteration_load {s : State} {op : LoadOp} {rd rs1 : Register} {imm : BitVec 12}
    (hfetch : Fetches s (op.encode rd rs1 imm))
    (haligned : (address s rs1 imm).toNat % op.width = 0) :
    ∃ st, iteration s =
        (Except.ok (some (loaded op s.mem.bytes (s.pc + address s rs1 imm)))).map
          (settle st (decode s (op.encode rd rs1 imm))) ∧
      st.reg = s.reg ∧ st.pc = s.pc := by
  obtain ⟨hop, -, hrs1, hf3, himm⟩ := decode_formatI s rd rs1 op.funct3 load_mem imm
  have hdata := dataAddress_eq hrs1 himm
  rw [← LoadOp.encode] at hdata
  have hsum := aligned_sum hfetch (LoadOp.width_dvd op) haligned
  rw [← hdata] at hsum
  have hstep := iteration_eq hfetch
  simp only [execute, LoadOp.encode, hop] at hstep
  rw [LoadOp.encode] at hsum
  rw [executeI2_op hf3 hsum, bytes_fetched, ← LoadOp.encode, hdata] at hstep
  exact ⟨_, hstep, rfl, rfl⟩

/-- The bytes at the second address are those at the first one, and a sign bit among
them is zero. -/
def LoadRight (op : LoadOp) (m : ByteMemory.Bytes 32) (a b : Word) : Prop :=
  match op with
  | .lb => m b = m a ∧ (m a).msb = false
  | .lh => ByteMemory.readH m b = ByteMemory.readH m a ∧ (ByteMemory.readH m a).msb = false
  | .lw => ByteMemory.readW m b = ByteMemory.readW m a
  | .lbu => m b = m a
  | .lhu => ByteMemory.readH m b = ByteMemory.readH m a

theorem setWidth_inj {w v : ℕ} (h : w ≤ v) (x y : BitVec w) :
    x.setWidth v = y.setWidth v ↔ x = y := by
  constructor
  · intro heq
    have hback := congrArg (BitVec.setWidth w) heq
    rwa [BitVec.setWidth_setWidth_of_le _ h, BitVec.setWidth_setWidth_of_le _ h,
      BitVec.setWidth_eq, BitVec.setWidth_eq] at hback
  · rintro rfl
    rfl

theorem loaded_iff (op : LoadOp) (m : ByteMemory.Bytes 32) (a b : Word) :
    loaded op m b = op.value m a ↔ LoadRight op m a b := by
  cases op with
  | lb => exact BitField.setWidth_eq_signExtend_iff _ _ (by decide)
  | lh => exact BitField.setWidth_eq_signExtend_iff _ _ (by decide)
  | lw => exact Iff.rfl
  | lbu => exact setWidth_inj (by decide) _ _
  | lhu => exact setWidth_inj (by decide) _ _

/-! ## Stores -/

/-- The next iteration leaves these bytes and goes on to the next instruction. -/
def Stores (s : State) (m : ByteMemory.Bytes 32) : Prop :=
  ∃ s', iteration s = .ok s' ∧ s'.mem.bytes = m ∧ s'.reg = s.reg ∧ s'.pc = s.pc + 4

theorem executeS_op {s : State} {ins : Instruction} {op : StoreOp}
    (hf3 : ins.funct3 = op.funct3.setWidth 32)
    (haligned : (dataAddress s ins).toNat % op.width = 0) :
    ∃ mem', executeS s ins = .ok ({ s with mem := mem' } : State).incrementPC ∧
      mem'.bytes = op.write s.mem.bytes (dataAddress s ins) ins.rs2 := by
  cases op with
  | sb =>
    refine ⟨_, ?_, SimMemory.bytes_memoryWrB s.mem (dataAddress s ins) ins.rs2⟩
    simp [executeS, hf3, StoreOp.funct3, stored]
  | sh =>
    obtain ⟨mem', hwrite, hbytes⟩ :=
      SimMemory.bytes_memoryWrH s.mem (dataAddress s ins) ins.rs2 haligned
    refine ⟨mem', ?_, hbytes⟩
    simp [executeS, hf3, StoreOp.funct3, stored, hwrite]
  | sw =>
    obtain ⟨mem', hwrite, hbytes⟩ :=
      SimMemory.bytes_memoryWrW s.mem (dataAddress s ins) ins.rs2 haligned
    refine ⟨mem', ?_, hbytes⟩
    simp [executeS, hf3, StoreOp.funct3, stored, hwrite]

/-- A store writes at its address plus the PC. -/
theorem iteration_store {s : State} {op : StoreOp} {rs1 rs2 : Register} {imm : BitVec 12}
    (hfetch : Fetches s (op.encode rs1 rs2 imm))
    (haligned : (address s rs1 imm).toNat % op.width = 0) :
    Stores s (op.write s.mem.bytes (s.pc + address s rs1 imm) (s.reg rs2)) := by
  obtain ⟨hop, hrs1, hrs2, hf3, himm⟩ := decode_formatS s rs1 rs2 op.funct3 imm
  have hdata := dataAddress_eq hrs1 himm
  rw [← StoreOp.encode] at hdata
  have hsum := aligned_sum hfetch (StoreOp.width_dvd op) haligned
  rw [← hdata] at hsum
  have hstep := iteration_eq hfetch
  simp only [execute, StoreOp.encode, hop] at hstep
  obtain ⟨mem', hexec, hbytes⟩ := executeS_op hf3 hsum
  rw [← StoreOp.encode, hdata, bytes_fetched, StoreOp.encode, hrs2] at hbytes
  exact ⟨_, hstep.trans hexec, hbytes, rfl, rfl⟩

/-- At two PCs the same address leads to areas apart from each other. -/
theorem areas_apart {pc pc' a c : Word} {n : ℕ} (hpc : pc.toNat % 4 = 0)
    (hpc' : pc'.toNat % 4 = 0) (hne : pc' ≠ pc) (hn : n ≤ 4)
    (h : ByteMemory.InArea (pc + a) n c) : ¬ ByteMemory.InArea (pc' + a) n c := by
  intro ⟨j, hj, heq⟩
  obtain ⟨i, hi, rfl⟩ := h
  have hnat := congrArg BitVec.toNat heq
  simp only [BitVec.toNat_add, BitVec.toNat_ofNat] at hnat
  have hlt := pc.isLt
  have hlt' := pc'.isLt
  have hsame : pc'.toNat = pc.toNat := by omega
  exact hne (BitVec.eq_of_toNat_eq hsame)

/-- Storing at another PC makes no difference when both places hold the bytes already. -/
theorem write_iff (op : StoreOp) (m : ByteMemory.Bytes 32) (a v : Word) {pc : Word}
    (hpc : pc.toNat % 4 = 0) :
    op.write m (pc + a) v = op.write m a v ↔
      pc = 0 ∨ ByteMemory.Holds m a (op.bytes v) ∧ ByteMemory.Holds m (pc + a) (op.bytes v) := by
  by_cases hzero : pc = 0
  · simp [hzero]
  · have hwidth := op.width_le
    rw [or_iff_right hzero, op.write_eq, op.write_eq, and_comm]
    refine ByteMemory.writeBytes_eq_iff (by rw [op.length_bytes]; omega) m ?_
    intro c hc
    rw [op.length_bytes] at hc ⊢
    rw [← BitVec.zero_add a]
    exact areas_apart hpc rfl (fun heq => hzero heq.symm) hwidth hc

theorem stores_iff {s : State} {m m' : ByteMemory.Bytes 32} (h : Stores s m) :
    Stores s m' ↔ m = m' := by
  obtain ⟨s', hstep, hbytes, hreg, hpc⟩ := h
  constructor
  · intro ⟨s'', hstep', hbytes', _⟩
    rw [hstep] at hstep'
    cases hstep'
    exact hbytes.symm.trans hbytes'
  · intro heq
    exact ⟨s', hstep, hbytes.trans heq, hreg, hpc⟩

/-! ## Loads of what was stored -/

/-- `s₂` executes a load after the store of `s`, with the same width, base and offset. -/
structure ReadsBack (s s₂ : State) (op : StoreOp) (load : LoadOp) (rs1 rs2 rd base : Register)
    (imm : BitVec 12) : Prop where
  store : Fetches s (op.encode rs1 rs2 imm)
  aligned : (address s rs1 imm).toNat % op.width = 0
  width : load.width = op.width
  load : Fetches s₂ (load.encode rd base imm)
  base : s₂.reg base = s.reg rs1
  mem : ∃ s', iteration s = .ok s' ∧ s₂.mem.bytes = s'.mem.bytes

/-- A sign that is to be extended is zero. -/
def Plain (op : LoadOp) (v : Word) : Prop :=
  match op with
  | .lb => (v.extractLsb' 0 8).msb = false
  | .lh => (v.extractLsb' 0 16).msb = false
  | _ => True

theorem loaded_extend_iff {op : StoreOp} {load : LoadOp} (hwidth : load.width = op.width)
    (m : ByteMemory.Bytes 32) (b v : Word) :
    loaded load m b = load.extend v ↔ ByteMemory.Holds m b (op.bytes v) ∧ Plain load v := by
  cases op with
  | sb =>
    have hbyte : ByteMemory.Holds m b (StoreOp.sb.bytes v) ↔ m b = v.extractLsb' 0 8 := by
      simp [StoreOp.bytes, ByteMemory.Holds]
    rw [hbyte]
    cases load
    case lb => exact BitField.setWidth_eq_signExtend_iff _ _ (by decide)
    case lbu => exact (setWidth_inj (by decide) _ _).trans (and_iff_left trivial).symm
    all_goals cases hwidth
  | sh =>
    rw [StoreOp.bytes, ByteMemory.holds_halfBytes]
    cases load
    case lh => exact BitField.setWidth_eq_signExtend_iff _ _ (by decide)
    case lhu => exact (setWidth_inj (by decide) _ _).trans (and_iff_left trivial).symm
    all_goals cases hwidth
  | sw =>
    rw [StoreOp.bytes, ByteMemory.holds_wordBytes]
    cases load
    case lw => exact (and_iff_left trivial).symm
    all_goals cases hwidth

/-- The stored bytes are at another PC's place only if they were there before. -/
theorem holds_write_iff (op : StoreOp) (m : ByteMemory.Bytes 32) (a v : Word) {pc pc' : Word}
    (hpc : pc.toNat % 4 = 0) (hpc' : pc'.toNat % 4 = 0) :
    ByteMemory.Holds (op.write m (pc + a) v) (pc' + a) (op.bytes v) ↔
      pc' = pc ∨ ByteMemory.Holds m (pc' + a) (op.bytes v) := by
  have hwidth := op.width_le
  rw [op.write_eq]
  by_cases hsame : pc' = pc
  · rw [hsame]
    refine iff_of_true (ByteMemory.holds_writeBytes ?_ m _) (Or.inl rfl)
    rw [op.length_bytes]
    omega
  · have hkept : ∀ c, ByteMemory.InArea (pc' + a) (op.bytes v).length c →
        ByteMemory.writeBytes m (pc + a) (op.bytes v) c = m c := by
      intro c hc
      apply ByteMemory.writeBytes_other
      rw [op.length_bytes] at hc ⊢
      exact areas_apart hpc' hpc (Ne.symm hsame) hwidth hc
    rw [or_iff_right hsame]
    constructor
    · intro h
      exact h.congr fun c hc => (hkept c hc).symm
    · intro h
      exact h.congr hkept

/-- Loads, stores and loads of what was stored do what RV32I defines exactly when adding
the PC makes no difference and no sign has to be extended. -/
theorem loads_stores_iff (s : State) (rs1 : Register) (imm : BitVec 12) :
    (∀ (op : LoadOp) (rd : Register), Fetches s (op.encode rd rs1 imm) →
      (address s rs1 imm).toNat % op.width = 0 →
      (Computes s rd (op.value s.mem.bytes (address s rs1 imm)) ↔
        LoadRight op s.mem.bytes (address s rs1 imm) (s.pc + address s rs1 imm))) ∧
    (∀ (op : StoreOp) (rs2 : Register), Fetches s (op.encode rs1 rs2 imm) →
      (address s rs1 imm).toNat % op.width = 0 →
      (Stores s (op.write s.mem.bytes (address s rs1 imm) (s.reg rs2)) ↔
        s.pc = 0 ∨ ByteMemory.Holds s.mem.bytes (address s rs1 imm) (op.bytes (s.reg rs2)) ∧
          ByteMemory.Holds s.mem.bytes (s.pc + address s rs1 imm) (op.bytes (s.reg rs2)))) ∧
    ∀ (op : StoreOp) (load : LoadOp) (rs2 rd base : Register) (s₂ : State),
      ReadsBack s s₂ op load rs1 rs2 rd base imm →
      (Computes s₂ rd (load.extend (s.reg rs2)) ↔
        (s₂.pc = s.pc ∨
          ByteMemory.Holds s.mem.bytes (s₂.pc + address s rs1 imm) (op.bytes (s.reg rs2))) ∧
        Plain load (s.reg rs2)) := by
  refine ⟨?_, ?_, ?_⟩
  · intro op rd hfetch haligned
    obtain ⟨-, hrd, -⟩ := decode_formatI s rd rs1 op.funct3 load_mem imm
    obtain ⟨st, hstep, hreg, hpc⟩ := iteration_load hfetch haligned
    rw [computes_iff hstep hreg hpc hrd, Except.ok.injEq, Option.some.injEq]
    exact loaded_iff op _ _ _
  · intro op rs2 hfetch haligned
    rw [stores_iff (iteration_store hfetch haligned)]
    exact write_iff op _ _ _ hfetch.aligned
  · intro op load rs2 rd base s₂ h
    have haddress : address s₂ base imm = address s rs1 imm := by
      rw [address, address, h.base]
    have haligned : (address s₂ base imm).toNat % load.width = 0 := by
      rw [haddress, h.width]
      exact h.aligned
    obtain ⟨-, hrd, -⟩ := decode_formatI s₂ rd base load.funct3 load_mem imm
    obtain ⟨st, hstep, hreg, hpc⟩ := iteration_load h.load haligned
    obtain ⟨s', hrun, hmem⟩ := h.mem
    obtain ⟨s'', hrun', hbytes, -⟩ := iteration_store h.store h.aligned
    rw [hrun] at hrun'
    cases hrun'
    rw [computes_iff hstep hreg hpc hrd, Except.ok.injEq, Option.some.injEq, haddress, hmem, hbytes,
      loaded_extend_iff h.width, holds_write_iff op _ _ _ h.store.aligned h.load.aligned]

/-- Two instructions from address 0 on, with the same value in every register. -/
def pair (v first second : Word) : State :=
  { start ((SimMemory.memoryCreate.setCell 0 first).setCell 4 second) 0 0 with reg := fun _ => v }

/-- Two instructions, 0x140 in register 1, a value in the others and its copy at 0x144. -/
def copied (value first second : Word) : State :=
  { start (((SimMemory.memoryCreate.setCell 0 first).setCell 4 second).setCell 0x144 value) 0 0 with
    reg := fun r => if r = 1 then 0x140 else value }

/-- Two bytes are stored at 0x140. The load at PC 4 finds the same two at 0x144. -/
theorem loads_stores_iff_copied :
    ∃ s s₂ : State, s = copied 0x12345678 (StoreOp.sh.encode 1 2 0) (LoadOp.lh.encode 3 1 0) ∧
      ReadsBack s s₂ .sh .lh 1 2 3 1 0 ∧ s₂.pc = 4 ∧
      Stores s (StoreOp.sh.write s.mem.bytes 0x140 0x12345678) ∧
      Computes s₂ 3 (LoadOp.lh.value s₂.mem.bytes 0x140) ∧
      LoadOp.lh.value s₂.mem.bytes 0x140 = 0x5678 ∧
      Computes s₂ 3 (LoadOp.lh.extend 0x12345678) := by
  let s := copied 0x12345678 (StoreOp.sh.encode 1 2 0) (LoadOp.lh.encode 3 1 0)
  have hstore : Fetches s (StoreOp.sh.encode 1 2 0) := ⟨rfl, by decide⟩
  obtain ⟨s₂, hrun, hbytes, hreg, hpc⟩ := iteration_store hstore (by decide)
  have hpc₂ : s₂.pc = 4 := hpc
  have hbase : s₂.reg 1 = 0x140 := congrFun hreg 1
  have hfetch : Fetches s₂ (LoadOp.lh.encode 3 1 0) := by
    refine ⟨?_, ?_⟩
    · rw [hpc₂]
      rfl
    · rw [hbytes, hpc₂]
      decide
  have haddress : address s₂ 1 0 = 0x140 := by
    rw [address, hbase]
    rfl
  have hback : ReadsBack s s₂ .sh .lh 1 2 3 1 0 :=
    ⟨hstore, by decide, rfl, hfetch, hbase, s₂, hrun, rfl⟩
  refine ⟨s, s₂, rfl, hback, hpc₂, ?_, ?_, ?_, ?_⟩
  · exact ((loads_stores_iff s 1 0).2.1 .sh 2 hstore (by decide)).mpr (Or.inl rfl)
  · have hload := (loads_stores_iff s₂ 1 0).1 .lh 3 hfetch (by rw [haddress]; decide)
    rw [haddress, hpc₂, hbytes] at hload
    rw [hbytes]
    exact hload.mpr ⟨by decide, by decide⟩
  · rw [hbytes]
    decide
  · have hread := (loads_stores_iff s 1 0).2.2 .sh .lh 2 3 1 s₂ hback
    rw [hpc₂] at hread
    have hplain : ((s.reg 2).extractLsb' 0 16).msb = false := by decide
    exact hread.mpr ⟨Or.inr ⟨by decide, by decide, trivial⟩, hplain⟩

/-- At PC 4, `lw x3, 0(x1)` with zero in x1 reads itself, and `lb` of a byte 0x83 is positive. -/
theorem loads_stores_wrong :
    (∃ s', iteration { pair 0 0 (LoadOp.lw.encode 3 1 0) with pc := 4 } = .ok s' ∧
        s'.reg 3 = LoadOp.lw.encode 3 1 0) ∧
      (∃ s', iteration (pair 0 (LoadOp.lb.encode 3 1 0) 0) = .ok s' ∧ s'.reg 3 = 0x83) ∧
      (∃ s', iteration { pair 7 0 (StoreOp.sb.encode 1 2 0) with pc := 4 } = .ok s' ∧
        s'.mem.bytes 7 = 0 ∧ s'.mem.bytes 11 = 7) ∧
      ¬∀ (s : State) (rs1 : Register) (imm : BitVec 12),
        (∀ (op : LoadOp) (rd : Register), Fetches s (op.encode rd rs1 imm) →
          (address s rs1 imm).toNat % op.width = 0 →
          Computes s rd (op.value s.mem.bytes (address s rs1 imm))) ∧
        (∀ (op : StoreOp) (rs2 : Register), Fetches s (op.encode rs1 rs2 imm) →
          (address s rs1 imm).toNat % op.width = 0 →
          Stores s (op.write s.mem.bytes (address s rs1 imm) (s.reg rs2))) ∧
        ∀ (op : StoreOp) (load : LoadOp) (rs2 rd base : Register) (s₂ : State),
          ReadsBack s s₂ op load rs1 rs2 rd base imm → Computes s₂ rd (load.extend (s.reg rs2)) := by
  refine ⟨⟨_, rfl, by decide⟩, ⟨_, rfl, by decide⟩, ⟨_, rfl, by decide, by decide⟩, ?_⟩
  intro hall
  have hfetch : Fetches (pair 0 (LoadOp.lb.encode 3 1 0) 0) (LoadOp.lb.encode 3 1 0) :=
    ⟨rfl, by decide⟩
  obtain ⟨s', hstep, hreg, -⟩ := (hall _ 1 0).1 .lb 3 hfetch (Nat.mod_one _)
  have hrun : ∃ s'', iteration (pair 0 (LoadOp.lb.encode 3 1 0) 0) = .ok s'' ∧ s''.reg 3 = 0x83 :=
    ⟨_, rfl, by decide⟩
  obtain ⟨s'', hstep', hvalue⟩ := hrun
  rw [hstep] at hstep'
  cases hstep'
  rw [hreg] at hvalue
  exact absurd hvalue (by decide)

end CompSys.Simulate
