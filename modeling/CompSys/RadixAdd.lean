import CompSys.RadixHeap

/-!
# Adding to the radix tree in the heap

`add_number` on the representation of a tree: its loops end, and the nodes it
leaves represent the tree that `Tree.add` gives.
-/
namespace CompSys.Radix

open Heap (NULL)

/-! ## Injecting a node -/

/-- The injected node with the old subtree at offset `i` and a new leaf at offset `j`. -/
theorem inject_fields {s s₁ : Store} {t : Tree} {parent q : Int} {ns rest : List Int}
    (h : Subtree s t parent ns rest) (hnodes : Nodes s₁ (q :: (ns ++ rest)))
    (hframe : ∀ a, Fields (ns ++ rest) a → s₁.ptr a = s.ptr a) (bitPos number : Word) {i j : Int}
    (hij : i = 8 ∧ j = 12 ∨ i = 12 ∧ j = 8) :
    ∃ leaf s₂, createLeaf ((((s₁.storeInt q bitPos).storeInt (q + 4) number).store parent q).store
        (q + i) (s.ptr parent)) number = some (leaf, s₂) ∧
      Nodes (s₂.store (q + j) leaf) (leaf :: q :: (ns ++ rest)) ∧
      (s₂.store (q + j) leaf).int q = bitPos ∧ (s₂.store (q + j) leaf).int (q + 4) = number ∧
      (s₂.store (q + j) leaf).ptr (q + i) = s.ptr parent ∧
      (s₂.store (q + j) leaf).ptr (q + j) = leaf ∧ (s₂.store (q + j) leaf).ptr parent = q ∧
      Represents (s₂.store (q + j) leaf) t (s.ptr parent) ns ∧
      Represents (s₂.store (q + j) leaf) (.single number) leaf [leaf] ∧
      Frame s (s₂.store (q + j) leaf) parent rest := by
  have hfield : ∀ i, 0 ≤ i → i < 16 → Fields (q :: (ns ++ rest)) (q + i) := by
    intro i hi hi'
    exact Or.inr ⟨q, List.mem_cons_self, by omega, by omega⟩
  have hq : Fields (q :: (ns ++ rest)) q := by simpa using hfield 0 (by decide) (by decide)
  have hparent : Fields (ns ++ rest) parent :=
    h.parent.mono fun x hx => List.mem_append_right ns hx
  have hparent' : Fields (q :: (ns ++ rest)) parent :=
    hparent.mono fun x hx => List.mem_cons_of_mem q hx
  have hout := hnodes.apart.outside hparent
  have hwritten := (((hnodes.storeInt hq bitPos).storeInt
    (hfield 4 (by decide) (by decide)) number).store hparent' q).store
    (hfield i (by omega) (by omega)) (s.ptr parent)
  obtain ⟨leaf, s₂, hrun, hnodes₂, hleaf, hframe₂⟩ := createLeaf_spec hwritten number
  have hleafOut := hnodes₂.apart.outside (hfield j (by omega) (by omega))
  have hsame : ∀ a, Fields (ns ++ rest) a → a ≠ parent →
      (s₂.store (q + j) leaf).ptr a = s.ptr a := by
    intro a ha hne
    have haOut := hnodes.apart.outside ha
    rw [Store.ptr_store_of_ne _ _ (by omega),
      hframe₂ a (ha.mono fun x hx => List.mem_cons_of_mem q hx),
      Store.ptr_store_of_ne _ _ (by omega), Store.ptr_store_of_ne _ _ hne,
      Store.ptr_storeInt_of_ne _ _ (by omega), Store.ptr_storeInt_of_ne _ _ (by omega),
      hframe a ha]
  refine ⟨leaf, s₂, hrun, ?_, ?_, ?_, ?_, ?_, ?_, ?_, ?_, ?_⟩
  · exact hnodes₂.store ((hfield j (by omega) (by omega)).mono
      fun x hx => List.mem_cons_of_mem leaf hx) leaf
  · rw [Store.int_store_of_ne _ _ (by omega), Store.int_eq, hframe₂ q hq, ← Store.int_eq,
      Store.int_store_of_ne _ _ (by omega), Store.int_store_of_ne _ _ (by omega),
      Store.int_storeInt_of_ne _ _ (by omega), Store.int_storeInt_self]
  · rw [Store.int_store_of_ne _ _ (by omega), Store.int_eq,
      hframe₂ _ (hfield 4 (by decide) (by decide)), ← Store.int_eq,
      Store.int_store_of_ne _ _ (by omega), Store.int_store_of_ne _ _ (by omega),
      Store.int_storeInt_self]
  · rw [Store.ptr_store_of_ne _ _ (by omega), hframe₂ _ (hfield i (by omega) (by omega)),
      Store.ptr_store_self]
  · rw [Store.ptr_store_self]
  · rw [Store.ptr_store_of_ne _ _ (by omega), hframe₂ parent hparent',
      Store.ptr_store_of_ne _ _ (by omega), Store.ptr_store_self]
  · refine h.represents.congr fun x hx a hle hlt => hsame a ?_ ?_
    · exact Or.inr ⟨x, List.mem_append_left rest hx, hle, hlt⟩
    · have := h.nodes.apart.separate hx h.parent
      omega
  · refine hleaf.congr fun x hx a hle hlt => Store.ptr_store_of_ne _ _ ?_
    simp only [List.mem_singleton] at hx
    omega
  · intro a ha hne
    exact hsame a (ha.mono fun x hx => List.mem_append_right ns hx) hne

theorem inject_spec {s : Store} {t : Tree} {parent : Int} {ns rest : List Int}
    (h : Subtree s t parent ns rest) {level j : Nat} {diff number : Word} (hj : j < 32)
    (hfind : findBit diff 32 (bit level) = some (bit j)) :
    ∃ s' ns', inject s parent (s.ptr parent) (bit level) diff number = some s' ∧
      Subtree s' (.branch j number t) parent ns' rest ∧ Frame s s' parent rest := by
  obtain ⟨q, s₁, hrun, hq, hnodes, -, hframe⟩ := h.nodes.allocate
  have hand : number &&& bit j = 0 ↔ number.getLsbD j = false := by
    rw [BitVec.and_comm, bit_and_eq_zero j hj]
  by_cases hbit : number.getLsbD j
  · obtain ⟨leaf, s₂, hleafRun, hnodes₂, hint, hnumber, hold, hnew, hparent, ht, hleaf, hframe₂⟩ :=
      inject_fields h hnodes hframe (bit j) number (i := 8) (j := 12) (Or.inl ⟨rfl, rfl⟩)
    have hne : ¬number &&& bit j = 0 := by
      rw [hand, hbit]
      decide
    have hperm : (leaf :: q :: (ns ++ rest)).Perm ((q :: (ns ++ [leaf])) ++ rest) := by
      refine (List.Perm.swap q leaf _).trans ?_
      rw [List.cons_append, List.append_assoc]
      exact List.perm_middle.symm.cons q
    refine ⟨s₂.store (q + 12) leaf, q :: (ns ++ [leaf]), ?_, ⟨hnodes₂.perm hperm, ?_, h.parent⟩,
      hframe₂⟩
    · simp only [inject, hfind, hrun, Option.bind_eq_bind, Option.bind_some, if_neg hne, hleafRun]
      rfl
    · rw [hparent, Tree.branch, if_pos hbit]
      exact ⟨hq, hint, hnumber, ns, [leaf], rfl, by rw [hold]; exact ht, by rw [hnew]; exact hleaf⟩
  · obtain ⟨leaf, s₂, hleafRun, hnodes₂, hint, hnumber, hold, hnew, hparent, ht, hleaf, hframe₂⟩ :=
      inject_fields h hnodes hframe (bit j) number (i := 12) (j := 8) (Or.inr ⟨rfl, rfl⟩)
    have hzero : number &&& bit j = 0 := hand.mpr (by simpa using hbit)
    refine ⟨s₂.store (q + 8) leaf, q :: ([leaf] ++ ns),
      ?_, ⟨hnodes₂.perm (List.Perm.swap q leaf _), ?_, h.parent⟩, hframe₂⟩
    · simp only [inject, hfind, hrun, Option.bind_eq_bind, Option.bind_some, if_pos hzero, hleafRun]
      rfl
    · rw [hparent, Tree.branch, if_neg hbit]
      exact ⟨hq, hint, hnumber, [leaf], ns, rfl, by rw [hnew]; exact hleaf, by rw [hold]; exact ht⟩

/-! ## Adding -/

/-- What a turn of the loop finds: the state, `parent` and `bit_pos`. -/
structure Turn where
  store : Store
  parent : Int
  bitPos : Word

/-- The body of the loop with its step: the call returns, or the test is made again. -/
def body (number : Word) (turn : Turn) : Option Store ⊕ Turn :=
  let s := turn.store
  let nptr := s.ptr turn.parent
  if nptr = NULL then
    .inl do
      let (leaf, s) ← createLeaf s number
      return s.store turn.parent leaf
  else
    let nodeBit := s.int nptr
    let above := nodeBit.toInt < turn.bitPos.toInt
    let diff := if above then bitRange turn.bitPos nodeBit &&& (number ^^^ s.int (nptr + 4)) else 0
    if diff ≠ 0 then .inl (inject s turn.parent nptr turn.bitPos diff number)
    else
      let bitPos := if above then nodeBit else turn.bitPos
      if bitPos.toInt > 1 then
        let child := if bitPos &&& number ≠ 0 then nptr + 12 else nptr + 8
        .inr ⟨s, child, bitPos.sshiftRight 1⟩
      else
        let count := if number &&& 1 ≠ 0 then nptr + 12 else nptr + 8
        .inr ⟨s.storeInt count (s.int count + 1), turn.parent, bitPos.sshiftRight 1⟩

theorem addLoop_body (number : Word) (fuel : Nat) (s : Store) (parent : Int) (bitPos : Word) :
    addLoop number (fuel + 1) s parent bitPos =
      if bitPos.toInt < 1 then some s
      else match body number ⟨s, parent, bitPos⟩ with
        | .inl result => result
        | .inr next => addLoop number fuel next.store next.parent next.bitPos := by
  simp only [addLoop, body]
  split_ifs <;> rfl

theorem not_bit_lt_one {k : Nat} (hk : k ≤ 30) : ¬(bit k).toInt < 1 := by
  rw [bit_toInt k hk]
  have : (0 : Int) < 2 ^ k := Int.pow_pos (by decide)
  omega

theorem bit_lt_bit {k l : Nat} (hk : k ≤ 30) (hl : l ≤ 30) :
    (bit l).toInt < (bit k).toInt ↔ l < k := by
  rw [bit_toInt k hk, bit_toInt l hl]
  exact pow_lt_pow_iff_right₀ (by decide)

/-- A turn at a node: inject, descend or count. -/
theorem body_node {s : Store} {parent : Int} {k l : Nat} {m : Word} (number : Word)
    (hk : k ≤ 30) (hl : l ≤ k) (hp : s.ptr parent ≠ NULL) (hbit : s.int (s.ptr parent) = bit l)
    (hnumber : s.int (s.ptr parent + 4) = m) :
    body number ⟨s, parent, bit k⟩ =
      if difference k l number m ≠ 0 then
        .inl (inject s parent (s.ptr parent) (bit k) (difference k l number m) number)
      else if 0 < l then
        .inr ⟨s, if number.getLsbD l then s.ptr parent + 12 else s.ptr parent + 8, bit (l - 1)⟩
      else
        let count := if number &&& 1 ≠ 0 then s.ptr parent + 12 else s.ptr parent + 8
        .inr ⟨s.storeInt count (s.int count + 1), parent, 0⟩ := by
  have habove : (bit l).toInt < (bit k).toInt ↔ l < k := bit_lt_bit hk (by omega)
  have hlast : (if l < k then bit l else bit k) = bit l := by
    split
    · rfl
    · have heq : k = l := by omega
      rw [heq]
  have hdeeper : 1 < (bit l).toInt ↔ 0 < l := by
    constructor
    · intro h
      by_contra hnot
      have hzero : l = 0 := by omega
      rw [hzero] at h
      exact absurd h (by decide)
    · intro h
      exact one_lt_bit h (by omega)
  rw [body]
  simp only [hp, hbit, hnumber, habove, hlast, gt_iff_lt, hdeeper, ↓reduceIte]
  rw [← difference]
  by_cases hdiff : difference k l number m ≠ 0
  · rw [if_pos hdiff, if_pos hdiff]
  · rw [if_neg hdiff, if_neg hdiff]
    by_cases hzero : 0 < l
    · have hside : (bit l &&& number ≠ 0) ↔ number.getLsbD l := by
        rw [ne_eq, bit_and_eq_zero l (by omega)]
        simp
      have hshift : (bit l).sshiftRight 1 = bit (l - 1) := by
        have := bit_shift (l - 1) (by omega)
        rwa [Nat.sub_add_cancel hzero] at this
      simp only [if_pos hzero, hside, hshift]
    · have hshift : (bit l).sshiftRight 1 = 0 := by
        have hl : l = 0 := by omega
        rw [hl]
        decide
      simp only [if_neg hzero, hshift]

theorem addLoop_node {s : Store} {parent : Int} {k l : Nat} {m : Word} (number : Word) (fuel : Nat)
    (hk : k ≤ 30) (hl : l ≤ k) (hp : s.ptr parent ≠ NULL) (hbit : s.int (s.ptr parent) = bit l)
    (hnumber : s.int (s.ptr parent + 4) = m) :
    addLoop number (fuel + 1) s parent (bit k) =
      if difference k l number m ≠ 0 then
        inject s parent (s.ptr parent) (bit k) (difference k l number m) number
      else if 0 < l then
        addLoop number fuel s
          (if number.getLsbD l then s.ptr parent + 12 else s.ptr parent + 8) (bit (l - 1))
      else
        let count := if number &&& 1 ≠ 0 then s.ptr parent + 12 else s.ptr parent + 8
        addLoop number fuel (s.storeInt count (s.int count + 1)) parent 0 := by
  rw [addLoop_body, if_neg (not_bit_lt_one hk), body_node number hk hl hp hbit hnumber]
  by_cases hdiff : difference k l number m ≠ 0
  · rw [if_pos hdiff, if_pos hdiff]
  · rw [if_neg hdiff, if_neg hdiff]
    by_cases hzero : 0 < l
    · rw [if_pos hzero, if_pos hzero]
    · rw [if_neg hzero, if_neg hzero]

theorem addLoop_zero (number : Word) (fuel : Nat) (s : Store) (parent : Int) :
    addLoop number (fuel + 1) s parent 0 = some s := by
  rw [addLoop, if_pos (by decide)]

/-- A counter of a leaf incremented: at offset 8 or 12 according to the lowest bit. -/
theorem Subtree.count {s : Store} {m c₀ c₁ : Word} {parent : Int} {ns rest : List Int}
    (h : Subtree s (.leaf m c₀ c₁) parent ns rest) {c₀' c₁' v : Word} {i : Int}
    (hi : i = 8 ∧ c₀' = v ∧ c₁' = c₁ ∨ i = 12 ∧ c₀' = c₀ ∧ c₁' = v) :
    Subtree (s.storeInt (s.ptr parent + i) v) (.leaf m c₀' c₁') parent ns rest ∧
      Frame s (s.storeInt (s.ptr parent + i) v) parent rest := by
  obtain ⟨hp, rfl, hbit, hnumber, hzero, hone⟩ := h.represents
  have hseparate : ∀ a, Fields rest a → a ≠ s.ptr parent + i := by
    intro a ha
    have := h.nodes.apart.separate List.mem_cons_self ha
    omega
  have hfield : Fields ([s.ptr parent] ++ rest) (s.ptr parent + i) :=
    Or.inr ⟨s.ptr parent, List.mem_cons_self, by omega, by omega⟩
  refine ⟨⟨h.nodes.storeInt hfield v, ?_, h.parent⟩, ?_⟩
  · rw [Store.ptr_storeInt_of_ne _ _ (hseparate parent h.parent)]
    refine ⟨hp, rfl, ?_, ?_, ?_, ?_⟩
    · rw [Store.int_storeInt_of_ne _ _ (by omega), hbit]
    · rw [Store.int_storeInt_of_ne _ _ (by omega), hnumber]
    · rcases hi with ⟨rfl, rfl, rfl⟩ | ⟨rfl, rfl, rfl⟩
      · rw [Store.int_storeInt_self]
      · rw [Store.int_storeInt_of_ne _ _ (by omega), hzero]
    · rcases hi with ⟨rfl, rfl, rfl⟩ | ⟨rfl, rfl, rfl⟩
      · rw [Store.int_storeInt_of_ne _ _ (by omega), hone]
      · rw [Store.int_storeInt_self]
  · intro a ha _
    exact Store.ptr_storeInt_of_ne _ _ (hseparate a ha)

/-- `add_number` on the heap is `Tree.add`. The induction is on the tree below `parent`,
whose nodes are the only ones that change. -/
theorem addLoop_spec (number : Word) (t : Tree) :
    ∀ {fuel : Nat} {s : Store} {parent : Int} {k : Nat} {ns rest : List Int},
      k + 1 < fuel → k ≤ 30 → t.Bounded k → Subtree s t parent ns rest →
      ∃ s' ns', addLoop number fuel s parent (bit k) = some s' ∧
        Subtree s' (t.add number k) parent ns' rest ∧ Frame s s' parent rest := by
  induction t with
  | nil =>
      intro fuel s parent k ns rest hfuel hk _ h
      obtain ⟨fuel, rfl⟩ := Nat.exists_eq_succ_of_ne_zero (Nat.ne_of_gt (Nat.zero_lt_of_lt hfuel))
      obtain ⟨hnull, rfl⟩ := h.represents
      obtain ⟨leaf, s₁, hrun, hnodes, hleaf, hframe⟩ := createLeaf_spec h.nodes number
      have hout := hnodes.apart.outside h.parent
      refine ⟨s₁.store parent leaf, [leaf], ?_, ⟨?_, ?_, h.parent⟩, ?_⟩
      · rw [addLoop, if_neg (not_bit_lt_one hk)]
        simp only [hnull, hrun, ↓reduceIte]
        rfl
      · exact hnodes.store (h.parent.mono fun x hx => List.mem_cons_of_mem leaf hx) leaf
      · rw [Store.ptr_store_self]
        refine hleaf.congr fun q hq a hle hlt => Store.ptr_store_of_ne _ _ ?_
        simp only [List.mem_singleton] at hq
        omega
      · intro a ha hne
        rw [Store.ptr_store_of_ne _ _ hne, hframe a ha]
  | leaf m c₀ c₁ =>
      intro fuel s parent k ns rest hfuel hk _ h
      obtain ⟨fuel, rfl⟩ := Nat.exists_eq_succ_of_ne_zero (Nat.ne_of_gt (Nat.zero_lt_of_lt hfuel))
      obtain ⟨fuel, rfl⟩ := Nat.exists_eq_succ_of_ne_zero (show fuel ≠ 0 by omega)
      obtain ⟨hp, -, hbit, hnumber, hzero, hone⟩ := h.represents
      rw [addLoop_node number _ hk (Nat.zero_le k) hp hbit hnumber, Tree.add]
      by_cases hdiff : difference k 0 number m ≠ 0
      · have htop := topBit_difference hk hdiff
        rw [if_pos hdiff, if_pos hdiff]
        exact inject_spec h (by omega) htop.2.2.2
      · rw [if_neg hdiff, if_neg hdiff, if_neg (Nat.lt_irrefl 0)]
        by_cases hodd : number &&& 1 ≠ 0
        · simp only [if_pos hodd, hone, addLoop_zero]
          obtain ⟨hsub, hframe⟩ := h.count (v := c₁ + 1) (i := 12) (Or.inr ⟨rfl, rfl, rfl⟩)
          exact ⟨_, ns, rfl, hsub, hframe⟩
        · simp only [if_neg hodd, hzero, addLoop_zero]
          obtain ⟨hsub, hframe⟩ := h.count (v := c₀ + 1) (i := 8) (Or.inl ⟨rfl, rfl, rfl⟩)
          exact ⟨_, ns, rfl, hsub, hframe⟩
  | node l m z o ihz iho =>
      intro fuel s parent k ns rest hfuel hk ht h
      obtain ⟨hl, hlk, hbz, hbo⟩ := ht
      obtain ⟨fuel, rfl⟩ := Nat.exists_eq_succ_of_ne_zero (Nat.ne_of_gt (Nat.zero_lt_of_lt hfuel))
      obtain ⟨hp, hbit, hnumber, nz, no, rfl, hz, ho⟩ := h.represents
      rw [addLoop_node number _ hk hlk hp hbit hnumber, Tree.add]
      by_cases hdiff : difference k l number m ≠ 0
      · have htop := topBit_difference hk hdiff
        rw [if_pos hdiff, if_pos hdiff]
        exact inject_spec h (by omega) htop.2.2.2
      · have hdeeper : l - 1 + 1 < fuel := by omega
        rw [if_neg hdiff, if_neg hdiff, if_pos (show 0 < l from hl)]
        by_cases hside : number.getLsbD l
        · rw [if_pos hside, if_pos hside]
          have hnodes : Nodes s (s.ptr parent :: (no ++ nz) ++ rest) :=
            h.nodes.perm ((List.perm_append_comm.cons _).append_right rest)
          have hsub := Subtree.side hnodes ho (i := 12) (by decide) (by decide)
          obtain ⟨s', no', hrun, hsub', hframe⟩ := iho hdeeper (by omega) hbo hsub
          obtain ⟨hnodes', hbit', hnumber', hz', hrest⟩ :=
            hsub.rejoin hsub' hframe hz (Or.inr ⟨rfl, rfl⟩)
          refine ⟨s', s.ptr parent :: (nz ++ no'), hrun, ⟨?_, ?_, h.parent⟩, fun a ha _ => hrest a ha⟩
          · exact hnodes'.perm ((List.perm_append_comm.cons _).append_right rest)
          · rw [hrest parent h.parent]
            exact ⟨hp, by rw [hbit', hbit], by rw [hnumber', hnumber], nz, no', rfl, hz',
              hsub'.represents⟩
        · rw [if_neg hside, if_neg hside]
          have hsub := Subtree.side h.nodes hz (i := 8) (by decide) (by decide)
          obtain ⟨s', nz', hrun, hsub', hframe⟩ := ihz hdeeper (by omega) hbz hsub
          obtain ⟨hnodes', hbit', hnumber', ho', hrest⟩ :=
            hsub.rejoin hsub' hframe ho (Or.inl ⟨rfl, rfl⟩)
          refine ⟨s', s.ptr parent :: (nz' ++ no), hrun, ⟨hnodes', ?_, h.parent⟩,
            fun a ha _ => hrest a ha⟩
          rw [hrest parent h.parent]
          exact ⟨hp, by rw [hbit', hbit], by rw [hnumber', hnumber], nz', no, rfl,
            hsub'.represents, ho'⟩

end CompSys.Radix
