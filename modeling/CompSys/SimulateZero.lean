import CompSys.SimulateOutcome

/-!
# Register x0 of the simulator

`simulate` writes every destination register alike, x0 included. It stays zero exactly
while every operation that names it as its destination has operands for which the result
is zero.
-/
namespace CompSys.Simulate

/-- A register is written exactly when an operation is selected, and with zero exactly
when the operation vanishes. -/
def Effect (s : State) (ins : Instruction) (s' : State) : Prop :=
  match operation ins with
  | some op => ∃ v, s'.reg = Function.update s.reg ins.rd v ∧ (v = 0 ↔ op.Vanishes s ins)
  | none => s'.reg = s.reg

theorem Effect.kept {s s' : State} {ins : Instruction} (hop : operation ins = none)
    (hreg : s'.reg = s.reg) : Effect s ins s' := by
  rw [Effect, hop]
  exact hreg

theorem Outcome.effect {s s' : State} {ins : Instruction} (h : Outcome s ins s') :
    Effect s ins s' := by
  cases h with
  | written op v hsel hv hreg =>
    rw [Effect, hsel]
    exact ⟨v, hreg, hv⟩
  | stored op hop hf hreg => exact .kept (by simp [operation, hop]) hreg
  | branched op hop hf hreg => exact .kept (by simp [operation, hop]) hreg
  | kept hno hpc hreg =>
    have hnone : operation ins = none := by
      cases hsel : operation ins with
      | none => rfl
      | some op => exact absurd (.inl ⟨op, hsel⟩) hno
    exact .kept hnone hreg

/-! ## Runs -/

/-- Every instruction that names x0 as a source finds zero there. -/
structure HardWired (s : State) : Prop where
  zero : s.reg 0 = 0
  rs1 : ∀ inst, regIndex inst 15 = 0 → rs1 s inst = 0
  rs2 : ∀ inst, regIndex inst 20 = 0 → rs2 s inst = 0

theorem hardWired_iff (s : State) : HardWired s ↔ s.reg 0 = 0 := by
  constructor
  · intro h
    exact h.zero
  · intro h
    exact ⟨h, fun inst hi => by rw [Simulate.rs1, hi, h], fun inst hi => by rw [Simulate.rs2, hi, h]⟩

/-- The instruction at the PC discards a result that is zero, or discards nothing. -/
def Harmless (s : State) : Prop :=
  ∀ inst mem op, s.mem.memoryRdW s.pc = some (inst, mem) → rd inst = 0 →
    operation (decode s inst) = some op → op.Vanishes s (decode s inst)

theorem iteration_zero_iff (s s' : State) (hs : s.reg 0 = 0) (h : iteration s = .ok s') :
    s'.reg 0 = 0 ↔ Harmless s := by
  obtain ⟨inst, mem, hread, houtcome⟩ := iteration_outcome h
  have heffect := houtcome.effect
  have hharmless : Harmless s ↔ (rd inst = 0 → ∀ op, operation (decode s inst) = some op →
      op.Vanishes s (decode s inst)) := by
    constructor
    · intro hall hrd op hop
      exact hall inst mem op hread hrd hop
    · intro hall inst' mem' op hread' hrd hop
      rw [hread] at hread'
      cases hread'
      exact hall hrd op hop
  rw [hharmless]
  unfold Effect at heffect
  split at heffect
  case h_1 op hop =>
    obtain ⟨v, hreg, hv⟩ := heffect
    rw [hreg, hop]
    by_cases hrd : rd inst = 0
    · have hindex : (decode s inst).rd = 0 := hrd
      rw [hindex, Function.update_self, hv]
      simp [hrd]
    · have hindex : (0 : BitVec 5) ≠ (decode s inst).rd := fun h0 => hrd h0.symm
      rw [Function.update_of_ne hindex]
      exact iff_of_true hs fun h0 => absurd h0 hrd
  case h_2 hop =>
    rw [heffect]
    exact iff_of_true hs fun _ op hsel => absurd (hop.symm.trans hsel) (by simp)

theorem simulate_zero_iff (s : State) (n : Nat) (hs : s.reg 0 = 0) :
    (∀ k s', k ≤ n → simulate k s = .ok s' → s'.reg 0 = 0) ↔
      ∀ k s₁ s₂, k < n → simulate k s = .ok s₁ → iteration s₁ = .ok s₂ → Harmless s₁ := by
  have hnext : ∀ k s₁ s₂, simulate k s = .ok s₁ → iteration s₁ = .ok s₂ →
      simulate (k + 1) s = .ok s₂ := by
    intro k s₁ s₂ hrun hstep
    rw [simulate, hrun]
    exact hstep
  constructor
  · intro hall k s₁ s₂ hk hrun hstep
    have hbefore := hall k s₁ (Nat.le_of_lt hk) hrun
    have hafter := hall (k + 1) s₂ hk (hnext k s₁ s₂ hrun hstep)
    exact (iteration_zero_iff s₁ s₂ hbefore hstep).mp hafter
  · intro hall k
    induction k with
    | zero =>
        intro s' _ hrun
        cases hrun
        exact hs
    | succ k ih =>
        intro s' hk hrun
        rw [simulate] at hrun
        cases hprev : simulate k s with
        | error stop =>
            rw [hprev] at hrun
            cases hrun
        | ok s₁ =>
            rw [hprev] at hrun
            have hbefore := ih s₁ (Nat.le_of_succ_le hk) hprev
            exact (iteration_zero_iff s₁ s' hbefore hrun).mpr (hall k s₁ s' hk hprev hrun)

/-- In a run from zeroed registers, x0 reads zero in every state up to the `n`-th exactly
when no executed instruction writes a nonzero result to x0. -/
theorem x0_hardWired_iff (mem : SimMemory) (startAddr immediate : Word) (n : Nat) :
    (∀ k s', k ≤ n → simulate k (start mem startAddr immediate) = .ok s' → HardWired s') ↔
      ∀ k s₁ s₂, k < n → simulate k (start mem startAddr immediate) = .ok s₁ →
        iteration s₁ = .ok s₂ → Harmless s₁ := by
  have hzero := simulate_zero_iff (start mem startAddr immediate) n rfl
  constructor
  · intro hall
    exact hzero.mp fun k s' hk hrun => (hall k s' hk hrun).zero
  · intro hall k s' hk hrun
    exact (hardWired_iff s').mpr (hzero.mpr hall k s' hk hrun)

/-- `addi x0, x0, 5`: the word 0x00500013 at address 0. -/
def addiX0 : SimMemory := SimMemory.memoryCreate.setCell 0 0x00500013

theorem x0_not_hardWired :
    ¬∀ mem startAddr immediate n s',
      simulate n (start mem startAddr immediate) = .ok s' → HardWired s' := by
  intro hall
  have hrun : ∃ s', simulate 1 (start addiX0 0 0) = .ok s' ∧ s'.reg 0 = 5 := ⟨_, rfl, by decide⟩
  obtain ⟨s', hs', hfive⟩ := hrun
  have hzero := (hall addiX0 0 0 1 s' hs').zero
  rw [hfive] at hzero
  exact absurd hzero (by decide)

end CompSys.Simulate
