import CompSys.SimMemory

/-!
# The simulated memory is a flat byte array

Every access of `memory.c` acts on `SimMemory.bytes` as the flat little-endian
memory does, whatever its width and lane. Runs of accesses follow by induction.
-/
namespace CompSys.SimMemory

/-! ## Writes -/

theorem bytes_memoryWrB (mem : SimMemory) (addr data : Word) :
    (mem.memoryWrB addr data).bytes = ByteMemory.writeB mem.bytes addr (data.extractLsb' 0 8) := by
  have hreplace : mem.memoryWrB addr data =
      mem.setCell addr (BitField.replace (mem.cell addr) (8 * (addr.toNat % 4)) (8 * 1) data) := by
    have hlane : addr.toNat % 4 = 0 ∨ addr.toNat % 4 = 1 ∨ addr.toNat % 4 = 2 ∨
        addr.toNat % 4 = 3 := by omega
    rw [memoryWrB, lane_toNat]
    rcases hlane with h | h | h | h <;> rw [h] <;> simp [BitField.replace, BitField.mask]
  funext b
  rw [hreplace, bytes_replace, ByteMemory.writeB]
  by_cases hb : b = addr
  · subst hb
    rw [if_pos (by omega), Function.update_self, Nat.sub_self]
  · have hne : b.toNat ≠ addr.toNat := fun h => hb (BitVec.eq_of_toNat_eq h)
    rw [if_neg (by omega), Function.update_of_ne hb]

theorem bytes_memoryWrH (mem : SimMemory) (addr data : Word) (haligned : addr.toNat % 2 = 0) :
    ∃ mem', mem.memoryWrH addr data = some mem' ∧
      mem'.bytes = ByteMemory.writeH mem.bytes addr (data.extractLsb' 0 16) := by
  have hreplace : mem.memoryWrH addr data =
      some (mem.setCell addr
        (BitField.replace (mem.cell addr) (8 * (addr.toNat % 4)) (8 * 2) data)) := by
    rw [memoryWrH, if_neg (not_not_intro ((half_aligned_iff addr).mpr haligned))]
    by_cases hlow : addr &&& 2#32 = 0
    · have h : addr.toNat % 4 = 0 := by
        have := (low_half_iff addr).mp hlow
        omega
      rw [if_pos hlow, h]
      simp [BitField.replace, BitField.mask]
    · have h : addr.toNat % 4 = 2 := by
        have := mt (low_half_iff addr).mpr hlow
        omega
      have hmask : (0x0000ffff#32) = BitField.mask 32 16 := by decide
      rw [if_neg hlow, h, hmask, BitField.replace_top _ _ _ 16 (by decide)]
  refine ⟨_, hreplace, ?_⟩
  have hnext : (addr + 1#32).toNat = addr.toNat + 1 := toNat_add_lane addr 1 (by omega)
  funext b
  rw [bytes_replace, ByteMemory.writeH]
  by_cases h₁ : b = addr + 1#32
  · have hlane : b.toNat = addr.toNat + 1 := by rw [h₁, hnext]
    have hoffset : b.toNat % 4 - addr.toNat % 4 = 1 := by omega
    rw [if_pos (by omega), hoffset, h₁, ByteMemory.writeB_self, BitVec.extractLsb'_extractLsb'_of_le (by decide)]
  rw [ByteMemory.writeB_other _ _ h₁]
  by_cases h₀ : b = addr
  · rw [if_pos (by rw [h₀]; omega), h₀, Nat.sub_self, ByteMemory.writeB_self,
      BitVec.extractLsb'_extractLsb'_of_le (by decide)]
  have hne₀ : b.toNat ≠ addr.toNat := fun h => h₀ (BitVec.eq_of_toNat_eq h)
  have hne₁ : b.toNat ≠ addr.toNat + 1 := fun h => h₁ (BitVec.eq_of_toNat_eq (h.trans hnext.symm))
  rw [if_neg (by omega), ByteMemory.writeB_other _ _ h₀]

theorem bytes_memoryWrW (mem : SimMemory) (addr data : Word) (haligned : addr.toNat % 4 = 0) :
    ∃ mem', mem.memoryWrW addr data = some mem' ∧
      mem'.bytes = ByteMemory.writeW mem.bytes addr data := by
  have hreplace : mem.memoryWrW addr data =
      some (mem.setCell addr (BitField.replace (mem.cell addr) (8 * 0) (8 * 4) data)) := by
    rw [memoryWrW, if_neg (not_not_intro ((word_aligned_iff addr).mpr haligned))]
    exact congrArg (fun v => some (mem.setCell addr v)) (BitField.replace_whole _ _).symm
  refine ⟨_, hreplace, ?_⟩
  have hone : (addr + 1#32).toNat = addr.toNat + 1 := toNat_add_lane addr 1 (by omega)
  have htwo : (addr + 2#32).toNat = addr.toNat + 2 := toNat_add_lane addr 2 (by omega)
  have hthree : (addr + 2#32 + 1#32).toNat = addr.toNat + 3 := by
    rw [BitVec.add_assoc]
    exact toNat_add_lane addr 3 (by omega)
  funext b
  rw [bytes_replace, ByteMemory.writeW, ByteMemory.writeH, ByteMemory.writeH]
  by_cases h₃ : b = addr + 2#32 + 1#32
  · have hlane : b.toNat = addr.toNat + 3 := by rw [h₃, hthree]
    have hoffset : b.toNat % 4 - 0 = 3 := by omega
    rw [if_pos (by omega), hoffset, h₃, ByteMemory.writeB_self,
      BitField.extract_extract _ _ _ _ _ (by decide)]
  rw [ByteMemory.writeB_other _ _ h₃]
  by_cases h₂ : b = addr + 2#32
  · have hlane : b.toNat = addr.toNat + 2 := by rw [h₂, htwo]
    have hoffset : b.toNat % 4 - 0 = 2 := by omega
    rw [if_pos (by omega), hoffset, h₂, ByteMemory.writeB_self,
      BitField.extract_extract _ _ _ _ _ (by decide)]
  rw [ByteMemory.writeB_other _ _ h₂]
  by_cases h₁ : b = addr + 1#32
  · have hlane : b.toNat = addr.toNat + 1 := by rw [h₁, hone]
    have hoffset : b.toNat % 4 - 0 = 1 := by omega
    rw [if_pos (by omega), hoffset, h₁, ByteMemory.writeB_self,
      BitVec.extractLsb'_extractLsb'_of_le (by decide)]
  rw [ByteMemory.writeB_other _ _ h₁]
  by_cases h₀ : b = addr
  · have hoffset : addr.toNat % 4 - 0 = 0 := by omega
    rw [if_pos (by rw [h₀]; omega), h₀, hoffset, ByteMemory.writeB_self, BitVec.extractLsb'_extractLsb'_of_le (by decide)]
  have hne₀ : b.toNat ≠ addr.toNat := fun h => h₀ (BitVec.eq_of_toNat_eq h)
  have hne₁ : b.toNat ≠ addr.toNat + 1 := fun h => h₁ (BitVec.eq_of_toNat_eq (h.trans hone.symm))
  have hne₂ : b.toNat ≠ addr.toNat + 2 := fun h => h₂ (BitVec.eq_of_toNat_eq (h.trans htwo.symm))
  have hne₃ : b.toNat ≠ addr.toNat + 3 := fun h => h₃ (BitVec.eq_of_toNat_eq (h.trans hthree.symm))
  rw [if_neg (by omega), ByteMemory.writeB_other _ _ h₀]

/-! ## Reads -/

theorem memoryRdB_eq (mem : SimMemory) (addr : Word) :
    mem.memoryRdB addr = ((mem.bytes addr).setWidth 32, mem.getPage addr) := by
  have hmask : (0xff#32) = BitField.mask 32 8 := by decide
  have hlane : addr.toNat % 4 = 0 ∨ addr.toNat % 4 = 1 ∨ addr.toNat % 4 = 2 ∨
      addr.toNat % 4 = 3 := by omega
  rw [memoryRdB, lane_toNat, bytes, hmask]
  rcases hlane with h | h | h | h <;> rw [h]
  · exact congrArg (·, mem.getPage addr) (BitField.and_mask _ _ (by decide))
  · exact congrArg (·, mem.getPage addr) (BitField.sshiftRight_and_mask _ _ _ (by decide))
  · exact congrArg (·, mem.getPage addr) (BitField.sshiftRight_and_mask _ _ _ (by decide))
  · exact congrArg (·, mem.getPage addr) (BitField.sshiftRight_and_mask _ _ _ (by decide))

theorem memoryRdH_eq (mem : SimMemory) (addr : Word) (haligned : addr.toNat % 2 = 0) :
    mem.memoryRdH addr =
      some ((ByteMemory.readH mem.bytes addr).setWidth 32, mem.getPage addr) := by
  have hmask : (0xffff#32) = BitField.mask 32 16 := by decide
  have hread : ByteMemory.readH mem.bytes addr =
      (mem.cell addr).extractLsb' (8 * (addr.toNat % 4)) 16 := by
    rw [ByteMemory.readH, bytes_add_lane mem addr 1 (by omega), bytes,
      BitVec.extractLsb'_append_extractLsb'_eq_extractLsb' (by omega)]
  rw [memoryRdH, if_neg (not_not_intro ((half_aligned_iff addr).mpr haligned)), hread, hmask]
  by_cases hlow : addr &&& 2#32 = 0
  · have h : addr.toNat % 4 = 0 := by
      have := (low_half_iff addr).mp hlow
      omega
    rw [if_pos hlow, h, BitField.and_mask _ _ (by decide)]
  · have h : addr.toNat % 4 = 2 := by
      have := mt (low_half_iff addr).mpr hlow
      omega
    rw [if_neg hlow, h, BitField.sshiftRight_and_mask _ _ _ (by decide)]

theorem memoryRdW_eq (mem : SimMemory) (addr : Word) (haligned : addr.toNat % 4 = 0) :
    mem.memoryRdW addr = some (ByteMemory.readW mem.bytes addr, mem.getPage addr) := by
  have hthree : addr + 2#32 + 1#32 = addr + 3#32 := by
    rw [BitVec.add_assoc]
    rfl
  have hread : ByteMemory.readW mem.bytes addr = mem.cell addr := by
    rw [ByteMemory.readW, ByteMemory.readH, ByteMemory.readH, hthree,
      bytes_add_lane mem addr 1 (by omega), bytes_add_lane mem addr 2 (by omega),
      bytes_add_lane mem addr 3 (by omega), bytes, haligned,
      BitVec.extractLsb'_append_extractLsb'_eq_extractLsb' (by omega),
      BitVec.extractLsb'_append_extractLsb'_eq_extractLsb' (by omega)]
    exact (BitVec.extractLsb'_append_extractLsb'_eq_extractLsb' (by omega)).trans
      BitVec.extractLsb'_eq_self
  rw [memoryRdW, if_neg (not_not_intro ((word_aligned_iff addr).mpr haligned)), hread]

/-- A word that was stored is read back. -/
theorem memoryRdW_setCell (mem : SimMemory) (addr data : Word) (haligned : addr.toNat % 4 = 0) :
    (mem.setCell addr data).memoryRdW addr =
      some (data, (mem.setCell addr data).getPage addr) := by
  rw [memoryRdW, if_neg (not_not_intro ((word_aligned_iff addr).mpr haligned)), cell_setCell,
    if_pos rfl]

/-! ## Runs -/

/-- A call on the memory. -/
inductive Access where
  | wrB (addr data : Word)
  | wrH (addr data : Word)
  | wrW (addr data : Word)
  | rdB (addr : Word)
  | rdH (addr : Word)
  | rdW (addr : Word)
deriving DecidableEq

namespace Access

/-- The calls on which the program does not exit. -/
def Aligned : Access → Prop
  | wrB _ _ | rdB _ => True
  | wrH addr _ | rdH addr => addr.toNat % 2 = 0
  | wrW addr _ | rdW addr => addr.toNat % 4 = 0

instance (access : Access) : Decidable access.Aligned := by
  cases access <;> unfold Aligned <;> infer_instance

/-- The addresses of the bytes a call writes. -/
def written : Access → List Word
  | wrB addr _ => [addr]
  | wrH addr _ => [addr, addr + 1]
  | wrW addr _ => [addr, addr + 1, addr + 2, addr + 3]
  | _ => []

/-- The call on the memory of `memory.c`: the memory after it, and the value it returns. -/
def perform (mem : SimMemory) : Access → Option (SimMemory × Option Word)
  | wrB addr data => some (mem.memoryWrB addr data, none)
  | wrH addr data => (mem.memoryWrH addr data).map fun mem' => (mem', none)
  | wrW addr data => (mem.memoryWrW addr data).map fun mem' => (mem', none)
  | rdB addr => some ((mem.memoryRdB addr).2, some (mem.memoryRdB addr).1)
  | rdH addr => (mem.memoryRdH addr).map fun r => (r.2, some r.1)
  | rdW addr => (mem.memoryRdW addr).map fun r => (r.2, some r.1)

/-- The call on a flat array of bytes. -/
def performFlat (m : ByteMemory.Bytes 32) : Access → ByteMemory.Bytes 32 × Option Word
  | wrB addr data => (ByteMemory.writeB m addr (data.extractLsb' 0 8), none)
  | wrH addr data => (ByteMemory.writeH m addr (data.extractLsb' 0 16), none)
  | wrW addr data => (ByteMemory.writeW m addr data, none)
  | rdB addr => (m, some ((m addr).setWidth 32))
  | rdH addr => (m, some ((ByteMemory.readH m addr).setWidth 32))
  | rdW addr => (m, some (ByteMemory.readW m addr))

theorem perform_flat (mem : SimMemory) (access : Access) (h : access.Aligned) :
    ∃ mem', perform mem access = some (mem', (performFlat mem.bytes access).2) ∧
      mem'.bytes = (performFlat mem.bytes access).1 := by
  cases access with
  | wrB addr data => exact ⟨_, rfl, bytes_memoryWrB mem addr data⟩
  | wrH addr data =>
      obtain ⟨mem', hwrite, hbytes⟩ := bytes_memoryWrH mem addr data h
      exact ⟨mem', by simp [perform, performFlat, hwrite], hbytes⟩
  | wrW addr data =>
      obtain ⟨mem', hwrite, hbytes⟩ := bytes_memoryWrW mem addr data h
      exact ⟨mem', by simp [perform, performFlat, hwrite], hbytes⟩
  | rdB addr =>
      refine ⟨mem.getPage addr, ?_, bytes_getPage mem addr⟩
      rw [perform, memoryRdB_eq]
      rfl
  | rdH addr =>
      refine ⟨mem.getPage addr, ?_, bytes_getPage mem addr⟩
      rw [perform, memoryRdH_eq mem addr h]
      rfl
  | rdW addr =>
      refine ⟨mem.getPage addr, ?_, bytes_getPage mem addr⟩
      rw [perform, memoryRdW_eq mem addr h]
      rfl

/-- A byte that a call does not write keeps its value. -/
theorem performFlat_other (m : ByteMemory.Bytes 32) (access : Access) (b : Word)
    (h : b ∉ access.written) : (performFlat m access).1 b = m b := by
  cases access with
  | wrB addr data =>
      simp only [written, List.mem_singleton] at h
      exact ByteMemory.writeB_other m _ h
  | wrH addr data =>
      simp only [written, List.mem_cons, List.not_mem_nil, or_false, not_or] at h
      exact ByteMemory.writeH_other m _ h.1 h.2
  | wrW addr data =>
      simp only [written, List.mem_cons, List.not_mem_nil, or_false, not_or] at h
      have hthree : addr + 2#32 + 1#32 = addr + 3#32 := by
        rw [BitVec.add_assoc]
        rfl
      exact ByteMemory.writeW_other m _ h.1 h.2.1 h.2.2.1 (by rw [hthree]; exact h.2.2.2)
  | rdB addr => rfl
  | rdH addr => rfl
  | rdW addr => rfl

end Access

/-- A sequence of calls, with the values they return. -/
def run (mem : SimMemory) : List Access → Option (SimMemory × List (Option Word))
  | [] => some (mem, [])
  | access :: rest => do
      let (mem₁, value) ← Access.perform mem access
      let (mem₂, values) ← run mem₁ rest
      return (mem₂, value :: values)

def runFlat (m : ByteMemory.Bytes 32) : List Access → ByteMemory.Bytes 32 × List (Option Word)
  | [] => (m, [])
  | access :: rest =>
      let next := Access.performFlat m access
      let last := runFlat next.1 rest
      (last.1, next.2 :: last.2)

/-- Started on equal bytes, the two memories return the same values and end on equal bytes. -/
theorem run_flat (accesses : List Access) :
    ∀ mem : SimMemory, (∀ access ∈ accesses, access.Aligned) →
      ∃ mem', run mem accesses = some (mem', (runFlat mem.bytes accesses).2) ∧
        mem'.bytes = (runFlat mem.bytes accesses).1 := by
  induction accesses with
  | nil =>
      intro mem _
      exact ⟨mem, rfl, rfl⟩
  | cons access rest ih =>
      intro mem h
      obtain ⟨mem₁, hfirst, hbytes₁⟩ := Access.perform_flat mem access (h access List.mem_cons_self)
      obtain ⟨mem₂, hrest, hbytes₂⟩ := ih mem₁ (fun x hx => h x (List.mem_cons_of_mem _ hx))
      refine ⟨mem₂, ?_, ?_⟩
      · rw [hbytes₁] at hrest
        simp [run, runFlat, hfirst, hrest]
      · rw [hbytes₂, hbytes₁]
        rfl

/-- The memory behaves as a byte array that is zero at first, and no further call
changes a byte outside those it writes. -/
theorem refines_byte_array (accesses : List Access) (h : ∀ access ∈ accesses, access.Aligned) :
    ∃ mem, run memoryCreate accesses = some (mem, (runFlat (fun _ => 0) accesses).2) ∧
      ∀ (access : Access) (mem' : SimMemory) (value : Option Word), access.Aligned →
        Access.perform mem access = some (mem', value) →
        ∀ b, b ∉ access.written → (mem'.memoryRdB b).1 = (mem.memoryRdB b).1 := by
  obtain ⟨mem, hrun, hbytes⟩ := run_flat accesses memoryCreate h
  rw [bytes_memoryCreate] at hrun
  refine ⟨mem, hrun, ?_⟩
  intro access mem' value haligned hperform b hb
  obtain ⟨mem₁, hperform₁, hbytes₁⟩ := Access.perform_flat mem access haligned
  have hmem : mem₁ = mem' := by
    rw [hperform₁] at hperform
    exact (Prod.mk.inj (Option.some.inj hperform)).1
  have hsame : mem'.bytes b = mem.bytes b := by
    rw [← hmem, hbytes₁, Access.performFlat_other _ _ _ hb]
  rw [memoryRdB_eq, memoryRdB_eq, hsame]

/-- Overlapping writes of all three widths, read back whole, next to a byte of another page. -/
theorem refines_byte_array_overlapping :
    (∀ access ∈ [Access.wrW 0x0001fffc (-2), .wrH 0x0001fffe 0x1234, .wrB 0x0001ffff (-1),
      .wrB 0x00020000 7, .rdW 0x0001fffc, .rdB 0x00020001], access.Aligned) ∧
    ∃ mem, run memoryCreate [.wrW 0x0001fffc (-2), .wrH 0x0001fffe 0x1234, .wrB 0x0001ffff (-1),
        .wrB 0x00020000 7, .rdW 0x0001fffc, .rdB 0x00020001] =
      some (mem, [none, none, none, none, some 0xff34fffe, some 0]) := by
  have haligned : ∀ access ∈ [Access.wrW 0x0001fffc (-2), .wrH 0x0001fffe 0x1234,
      .wrB 0x0001ffff (-1), .wrB 0x00020000 7, .rdW 0x0001fffc, .rdB 0x00020001],
      access.Aligned := by decide
  obtain ⟨mem, hrun, -⟩ := refines_byte_array _ haligned
  refine ⟨haligned, mem, ?_⟩
  rw [hrun]
  rfl

end CompSys.SimMemory
