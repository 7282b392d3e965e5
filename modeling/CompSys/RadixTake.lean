import CompSys.RadixHeap

/-!
# Taking from the radix tree in the heap, and releasing it

`take_numbers_2` fills the buffer with what `Tree.take` gives and releases
exactly the nodes of the tree that is gone; `release_tree` releases them all.
-/
namespace CompSys.Radix

open Heap (NULL)

/-! ## A counter -/

/-- `takeCount` takes as many as the counter holds and the buffer has room for. -/
theorem takeCount_spec (value : Word) (count capacity : Int) (ns : List Int)
    (hcount : Fields ns count) : ∀ (fuel : Nat) (s : Store) (buffer : List Word),
      room buffer capacity < fuel → Nodes s ns →
      ∃ s', takeCount value count capacity fuel s buffer =
          some (s', buffer ++ List.replicate (min (room buffer capacity) (s.int count).toNat) value) ∧
        Nodes s' ns ∧
        s'.int count =
          s.int count - BitVec.ofNat 32 (min (room buffer capacity) (s.int count).toNat) ∧
        ∀ a, a ≠ count → s'.ptr a = s.ptr a := by
  intro fuel
  induction fuel with
  | zero =>
      intro s buffer hfuel
      exact absurd hfuel (Nat.not_lt_zero _)
  | succ fuel ih =>
      intro s buffer hfuel h
      rw [takeCount]
      by_cases hmore : (buffer.length : Int) < capacity ∧ s.int count ≠ 0
      · rw [if_pos hmore]
        have hroom : room buffer capacity = room (buffer ++ [value]) capacity + 1 := by
          simp only [room, List.length_append, List.length_singleton]
          omega
        have hne : (s.int count).toNat ≠ 0 := by
          intro hzero
          exact hmore.2 (BitVec.eq_of_toNat_eq hzero)
        have hdec : (s.int count).toNat = (s.int count - 1).toNat + 1 := by
          have hlt := (s.int count).isLt
          rw [BitVec.toNat_sub, show (1 : Word).toNat = 1 from rfl]
          omega
        obtain ⟨s', hrun, hnodes, hrest, hframe⟩ :=
          ih (s.storeInt count (s.int count - 1)) (buffer ++ [value]) (by omega)
            (h.storeInt hcount _)
        rw [Store.int_storeInt_self] at hrun hrest
        refine ⟨s', ?_, hnodes, ?_, ?_⟩
        · rw [hrun, hroom, hdec, Nat.add_min_add_right, List.append_assoc, List.singleton_append,
            List.replicate_succ]
        · rw [hrest, hroom, hdec, Nat.add_min_add_right, BitVec.ofNat_add]
          rw [BitVec.sub_sub, BitVec.add_comm]
          rfl
        · intro a ha
          rw [hframe a ha, Store.ptr_storeInt_of_ne _ _ ha]
      · have hnone : min (room buffer capacity) (s.int count).toNat = 0 := by
          by_cases hzero : s.int count = 0
          · simp [hzero]
          · have : room buffer capacity = 0 := by
              simp only [room]
              have := not_and_or.mp hmore
              simp only [hzero, ne_eq, not_false_eq_true, not_true_eq_false, or_false] at this
              omega
            simp [this]
        rw [if_neg hmore, hnone]
        exact ⟨s, by simp, h, by simp, fun a _ => rfl⟩

theorem room_append (buffer taken : List Word) (capacity : Int) :
    room (buffer ++ taken) capacity = room buffer capacity - taken.length := by
  simp only [room, List.length_append]
  omega

/-! ## A node that became empty -/

theorem Nodes.drop {s : Store} {p parent : Int} {rest : List Int} (h : Nodes s (p :: rest))
    (hparent : Fields rest parent) :
    ∃ s₁, s.release p = some s₁ ∧ Subtree (s₁.store parent NULL) .nil parent [] rest ∧
      Frame s (s₁.store parent NULL) parent rest := by
  obtain ⟨s₁, hrun, hnodes, -, hframe⟩ := h.release
  refine ⟨s₁, hrun, ⟨hnodes.store hparent NULL, ⟨Store.ptr_store_self _ _ _, rfl⟩, hparent⟩, ?_⟩
  intro a ha hne
  rw [Store.ptr_store_of_ne _ _ hne, hframe a (ha.mono fun x hx => List.mem_cons_of_mem p hx)]

theorem bit_ne_one {l : Nat} (hl : 1 ≤ l) (hl' : l ≤ 30) : bit l ≠ 1 := by
  intro h
  have hlt := one_lt_bit hl hl'
  rw [h] at hlt
  exact absurd hlt (by decide)

/-! ## Taking -/

/-- Both counters of a leaf, and its removal when they are empty. -/
theorem takeNumbers2_leaf {s : Store} {m c₀ c₁ : Word} {parent : Int} {ns rest : List Int}
    (h : Subtree s (.leaf m c₀ c₁) parent ns rest) (capacity : Int) (fuel : Nat)
    (buffer : List Word) :
    ∃ s' ns', takeNumbers2 capacity (fuel + 1) s parent buffer =
        some (s', buffer ++ Tree.leafTaken (room buffer capacity) m c₀ c₁) ∧
      Subtree s' (Tree.leafRest (room buffer capacity) m c₀ c₁) parent ns' rest ∧
      Frame s s' parent rest := by
  obtain ⟨hp, rfl, hbit, hnumber, hzero, hone⟩ := h.represents
  have hfield : ∀ i, 0 ≤ i → i < 16 → Fields ([s.ptr parent] ++ rest) (s.ptr parent + i) := by
    intro i hi hi'
    exact Or.inr ⟨s.ptr parent, List.mem_cons_self, by omega, by omega⟩
  have hseparate : ∀ a, Fields rest a → a < s.ptr parent ∨ s.ptr parent + 16 ≤ a := by
    intro a ha
    exact h.nodes.apart.separate List.mem_cons_self ha
  obtain ⟨s₁, hrun₁, hnodes₁, hzero₁, hframe₁⟩ :=
    takeCount_spec (m &&& ~~~1) (s.ptr parent + 8) capacity _ (hfield 8 (by decide) (by decide))
      (room buffer capacity + 1) s buffer (by omega) h.nodes
  rw [hzero] at hrun₁ hzero₁
  have hone₁ : s₁.int (s.ptr parent + 12) = c₁ := by
    rw [Store.int_eq, hframe₁ _ (by omega), ← Store.int_eq, hone]
  obtain ⟨s₂, hrun₂, hnodes₂, hone₂, hframe₂⟩ :=
    takeCount_spec (m ||| 1) (s.ptr parent + 12) capacity _ (hfield 12 (by decide) (by decide))
      (room (buffer ++ List.replicate (min (room buffer capacity) c₀.toNat) (m &&& ~~~1)) capacity + 1)
      s₁ _ (Nat.lt_succ_self _) hnodes₁
  rw [hone₁] at hrun₂ hone₂
  have hroom : room (buffer ++ List.replicate (min (room buffer capacity) c₀.toNat) (m &&& ~~~1))
      capacity = room buffer capacity - c₀.toNat := by
    rw [room_append, List.length_replicate]
    omega
  rw [hroom] at hrun₂ hone₂
  have hzero₂ : s₂.int (s.ptr parent + 8) =
      c₀ - BitVec.ofNat 32 (min (room buffer capacity) c₀.toNat) := by
    rw [Store.int_eq, hframe₂ _ (by omega), ← Store.int_eq, hzero₁]
  have hsame : ∀ a, a ≠ s.ptr parent + 8 → a ≠ s.ptr parent + 12 → s₂.ptr a = s.ptr a := by
    intro a h8 h12
    rw [hframe₂ a h12, hframe₁ a h8]
  have hrest : ∀ a, Fields rest a → s₂.ptr a = s.ptr a := by
    intro a ha
    have := hseparate a ha
    exact hsame a (by omega) (by omega)
  have hleaf : s.int (s.ptr parent) = 1 := hbit
  rw [takeNumbers2]
  simp only [hp, hleaf, hnumber, hrun₁, hroom, hrun₂, hzero₂, hone₂, Option.bind_eq_bind,
    Option.bind_some, ↓reduceIte, Tree.leafRest, Tree.leafTaken, List.append_assoc]
  split
  case isTrue hempty =>
    obtain ⟨s₃, hrelease, hsub, hframe⟩ := hnodes₂.drop h.parent
    refine ⟨s₃.store parent NULL, [], ?_, hsub, ?_⟩
    · rw [hrelease]
      rfl
    · intro a ha hne
      rw [hframe a ha hne, hrest a ha]
  case isFalse hmore =>
    refine ⟨s₂, [s.ptr parent], rfl, ⟨hnodes₂, ?_, h.parent⟩, fun a ha _ => hrest a ha⟩
    rw [hrest parent h.parent]
    refine ⟨hp, rfl, ?_, ?_, hzero₂, hone₂⟩
    · rw [Store.int_eq, hsame _ (by omega) (by omega), ← Store.int_eq, hbit]
    · rw [Store.int_eq, hsame _ (by omega) (by omega), ← Store.int_eq, hnumber]

/-- `take_numbers_2` on the heap is `Tree.take`; the fuel exceeds the level. -/
theorem takeNumbers2_spec (capacity : Int) (t : Tree) :
    ∀ {fuel : Nat} {s : Store} {parent : Int} {k : Nat} {ns rest : List Int} (buffer : List Word),
      k < fuel → k ≤ 30 → t.Bounded k → Subtree s t parent ns rest →
      ∃ s' ns', takeNumbers2 capacity fuel s parent buffer =
          some (s', buffer ++ (t.take (room buffer capacity)).1) ∧
        Subtree s' (t.take (room buffer capacity)).2 parent ns' rest ∧ Frame s s' parent rest := by
  induction t with
  | nil =>
      intro fuel s parent k ns rest buffer hfuel _ _ h
      obtain ⟨fuel, rfl⟩ := Nat.exists_eq_succ_of_ne_zero (Nat.ne_of_gt (Nat.zero_lt_of_lt hfuel))
      refine ⟨s, ns, ?_, h, fun a _ _ => rfl⟩
      rw [takeNumbers2]
      simp [h.represents.1, Tree.take]
  | leaf m c₀ c₁ =>
      intro fuel s parent k ns rest buffer hfuel _ _ h
      obtain ⟨fuel, rfl⟩ := Nat.exists_eq_succ_of_ne_zero (Nat.ne_of_gt (Nat.zero_lt_of_lt hfuel))
      exact takeNumbers2_leaf h capacity fuel buffer
  | node l m z o ihz iho =>
      intro fuel s parent k ns rest buffer hfuel hk ht h
      obtain ⟨hl, hlk, hbz, hbo⟩ := ht
      obtain ⟨fuel, rfl⟩ := Nat.exists_eq_succ_of_ne_zero (Nat.ne_of_gt (Nat.zero_lt_of_lt hfuel))
      have hdeeper : l - 1 < fuel := by omega
      obtain ⟨hp, hbit, hnumber, nz, no, rfl, hz, ho⟩ := h.represents
      have hinterior : s.int (s.ptr parent) ≠ 1 := by
        rw [hbit]
        exact bit_ne_one hl (by omega)
      have hsubz := Subtree.side h.nodes hz (i := 8) (by decide) (by decide)
      obtain ⟨s₁, nz', hrun₁, hsubz', hframe₁⟩ := ihz buffer hdeeper (by omega) hbz hsubz
      obtain ⟨hnodes₁, hbit₁, hnumber₁, ho₁, hrest₁⟩ :=
        hsubz.rejoin hsubz' hframe₁ ho (Or.inl ⟨rfl, rfl⟩)
      have hnodes₁' : Nodes s₁ (s.ptr parent :: (no ++ nz') ++ rest) :=
        hnodes₁.perm ((List.perm_append_comm.cons _).append_right rest)
      have hsubo := Subtree.side hnodes₁' ho₁ (i := 12) (by decide) (by decide)
      obtain ⟨s₂, no', hrun₂, hsubo', hframe₂⟩ :=
        iho (buffer ++ (z.take (room buffer capacity)).1) hdeeper (by omega) hbo hsubo
      obtain ⟨hnodes₂, hbit₂, hnumber₂, hz₂, hrest₂⟩ :=
        hsubo.rejoin hsubo' hframe₂ hsubz'.represents (Or.inr ⟨rfl, rfl⟩)
      have hrest : ∀ a, Fields rest a → s₂.ptr a = s.ptr a := by
        intro a ha
        rw [hrest₂ a ha, hrest₁ a ha]
      rw [room_append] at hrun₂ hsubo'
      rw [takeNumbers2]
      simp only [hp, hinterior, hrun₁, hrun₂, hz₂.eq_null_iff, hsubo'.represents.eq_null_iff,
        Option.bind_eq_bind, Option.bind_some, ↓reduceIte, Tree.take, List.append_assoc]
      split
      case isTrue hempty =>
        have hnz : nz' = [] := by
          have := hz₂
          rw [hempty.1] at this
          exact this.2
        have hno : no' = [] := by
          have := hsubo'.represents
          rw [hempty.2] at this
          exact this.2
        rw [hnz, hno] at hnodes₂
        obtain ⟨s₃, hrelease, hsub, hframe⟩ := Nodes.drop hnodes₂ h.parent
        refine ⟨s₃.store parent NULL, [], ?_, hsub, ?_⟩
        · rw [hrelease]
          rfl
        · intro a ha hne
          rw [hframe a ha hne, hrest a ha]
      case isFalse hmore =>
        refine ⟨s₂, s.ptr parent :: (nz' ++ no'), rfl, ⟨?_, ?_, h.parent⟩, fun a ha _ => hrest a ha⟩
        · exact hnodes₂.perm ((List.perm_append_comm.cons _).append_right rest)
        · rw [hrest parent h.parent]
          exact ⟨hp, by rw [hbit₂, hbit₁, hbit], by rw [hnumber₂, hnumber₁, hnumber], nz', no', rfl,
            hz₂, hsubo'.represents⟩

end CompSys.Radix
