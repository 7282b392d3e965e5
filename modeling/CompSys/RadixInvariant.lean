import CompSys.RadixMain

/-!
# What the operations of the radix tree keep

The invariant in terms of the numbers that are held: bit positions decrease, what is held
below a node agrees with it above its bit and is parted by it, and nothing in the tree is
empty. `add_number` and `take_numbers` are judged on every tree that meets it, however it
came to be.
-/
namespace CompSys.Radix

open Heap (NULL)
open SmallestFirst (smallest rest)

namespace Tree

/-- No leaf without numbers and no interior node without children. -/
def Full : Tree → Prop
  | nil => True
  | leaf _ c₀ c₁ => c₀ ≠ 0 ∨ c₁ ≠ 0
  | node _ _ z o => (z ≠ nil ∨ o ≠ nil) ∧ Full z ∧ Full o

/-- The radix invariant, with levels from `k` down for bit positions. -/
def Valid : Nat → Tree → Prop
  | _, nil => True
  | _, leaf _ c₀ c₁ => c₀ ≠ 0 ∨ c₁ ≠ 0
  | k, node l m z o =>
    1 ≤ l ∧ l ≤ k ∧ (z ≠ nil ∨ o ≠ nil) ∧
      (∀ v ∈ z.toList, Agree l v m ∧ v.getLsbD l = false) ∧
      (∀ v ∈ o.toList, Agree l v m ∧ v.getLsbD l = true) ∧
      Valid (l - 1) z ∧ Valid (l - 1) o

/-! ## The invariant on numbers held and on numbers stored -/

theorem Valid.bounded {t : Tree} : ∀ {k : Nat}, t.Valid k → t.Bounded k := by
  induction t with
  | nil => intros; trivial
  | leaf m c₀ c₁ => intros; trivial
  | node l m z o ihz iho =>
      intro k h
      obtain ⟨hl, hlk, -, -, -, hz, ho⟩ := h
      exact ⟨hl, hlk, ihz hz, iho ho⟩

theorem Valid.full {t : Tree} : ∀ {k : Nat}, t.Valid k → t.Full := by
  induction t with
  | nil => intros; trivial
  | leaf m c₀ c₁ =>
      intro k h
      exact h
  | node l m z o ihz iho =>
      intro k h
      obtain ⟨-, -, hchild, -, -, hz, ho⟩ := h
      exact ⟨hchild, ihz hz, iho ho⟩

theorem Full.exists_held {t : Tree} (h : t.Full) (hne : t ≠ nil) : ∃ v, v ∈ t.toList := by
  induction t with
  | nil => exact absurd rfl hne
  | leaf m c₀ c₁ =>
      have hpos : ∀ c : Word, c ≠ 0 → c.toNat ≠ 0 := by
        intro c hc hzero
        exact hc (BitVec.eq_of_toNat_eq hzero)
      rcases h with hc | hc
      · exact ⟨m &&& ~~~1, List.mem_append_left _ (List.mem_replicate.mpr ⟨hpos c₀ hc, rfl⟩)⟩
      · exact ⟨m ||| 1, List.mem_append_right _ (List.mem_replicate.mpr ⟨hpos c₁ hc, rfl⟩)⟩
  | node l m z o ihz iho =>
      obtain ⟨hchild | hchild, hz, ho⟩ := h
      · obtain ⟨v, hv⟩ := ihz hz hchild
        exact ⟨v, List.mem_append_left _ hv⟩
      · obtain ⟨v, hv⟩ := iho ho hchild
        exact ⟨v, List.mem_append_right _ hv⟩

/-- What holds above a level of all numbers held holds of all numbers stored. -/
theorem Valid.stored {t : Tree} : ∀ {k i : Nat} {b : Bool}, t.Valid k → k < i →
    (∀ v ∈ t.toList, v.getLsbD i = b) → ∀ x ∈ t.numbers, x.getLsbD i = b := by
  induction t with
  | nil =>
      intro k i b _ _ _ x hx
      cases hx
  | leaf m c₀ c₁ =>
      intro k i b h hi hheld x hx
      obtain ⟨v, hv⟩ := Full.exists_held (t := leaf m c₀ c₁) h (by simp)
      obtain ⟨y, hy, hagree⟩ := mem_toList hv
      rw [numbers, List.mem_singleton] at hx hy
      rw [hx, ← hy, ← hagree i (by omega), hheld v hv]
  | node l m z o ihz iho =>
      intro k i b h hi hheld x hx
      have hfull := h.full
      obtain ⟨hl, hlk, hchild, hzeros, hones, hz, ho⟩ := h
      simp only [numbers, List.mem_cons, List.mem_append] at hx
      rcases hx with rfl | hx | hx
      · obtain ⟨v, hv⟩ := hfull.exists_held (by simp)
        have hagree : Agree l v x := by
          rcases List.mem_append.mp hv with hzero | hone
          · exact (hzeros v hzero).1
          · exact (hones v hone).1
        rw [← hagree i (by omega), hheld v hv]
      · exact ihz hz (by omega) (fun v hv => hheld v (List.mem_append_left _ hv)) x hx
      · exact iho ho (by omega) (fun v hv => hheld v (List.mem_append_right _ hv)) x hx

theorem Valid.side {t : Tree} {k l : Nat} {m : Word} {b : Bool} (h : t.Valid k) (hk : k < l)
    (hheld : ∀ v ∈ t.toList, Agree l v m ∧ v.getLsbD l = b) : Side l m b t := by
  intro x hx
  refine ⟨?_, h.stored hk (fun v hv => (hheld v hv).2) x hx⟩
  intro i hi
  exact h.stored (by omega) (fun v hv => (hheld v hv).1 i hi) x hx

theorem Valid.ordered {t : Tree} : ∀ {k : Nat}, t.Valid k → t.Ordered := by
  induction t with
  | nil => intros; trivial
  | leaf m c₀ c₁ => intros; trivial
  | node l m z o ihz iho =>
      intro k h
      obtain ⟨hl, -, -, hzeros, hones, hz, ho⟩ := h
      exact ⟨hz.side (by omega) hzeros, ho.side (by omega) hones, ihz hz, iho ho⟩

theorem valid_iff {t : Tree} : ∀ {k : Nat}, t.Valid k ↔ t.Bounded k ∧ t.Ordered ∧ t.Full := by
  induction t with
  | nil => simp [Valid, Bounded, Ordered, Full]
  | leaf m c₀ c₁ => simp [Valid, Bounded, Ordered, Full]
  | node l m z o ihz iho =>
      intro k
      constructor
      · intro h
        exact ⟨h.bounded, h.ordered, h.full⟩
      · intro ⟨⟨hl, hlk, hbz, hbo⟩, ⟨hz, ho, hoz, hoo⟩, hchild, hfz, hfo⟩
        exact ⟨hl, hlk, hchild, fun v hv => hz.held hl hv, fun v hv => ho.held hl hv,
          ihz.mpr ⟨hbz, hoz, hfz⟩, iho.mpr ⟨hbo, hoo, hfo⟩⟩

/-! ## Nothing becomes empty -/

theorem single_full (number : Word) : (single number).Full := by
  by_cases heven : number &&& 1 = 0
  · left
    rw [if_pos heven]
    decide
  · right
    exact heven

theorem branch_full (level : Nat) (number : Word) {t : Tree} (ht : t.Full) :
    (branch level number t).Full := by
  have hne : single number ≠ nil := by simp [single]
  unfold branch
  split
  · exact ⟨.inr hne, ht, single_full number⟩
  · exact ⟨.inl hne, single_full number, ht⟩

theorem branch_ne_nil (level : Nat) (number : Word) (t : Tree) : branch level number t ≠ nil := by
  unfold branch
  split <;> simp

theorem add_ne_nil (number : Word) (k : Nat) (t : Tree) : t.add number k ≠ nil := by
  cases t with
  | nil => simp [add, single]
  | leaf m c₀ c₁ =>
      unfold add
      split
      · exact branch_ne_nil _ _ _
      · split <;> simp
  | node l m z o =>
      unfold add
      split
      · exact branch_ne_nil _ _ _
      · split <;> simp

/-- A counter that counts one more number than is held has not come back to zero. -/
theorem succ_ne_zero_of_toNat {c : Word} (h : c.toNat + 1 < 2 ^ 32) : c + 1 ≠ 0 := by
  intro hzero
  have hnat := congrArg BitVec.toNat hzero
  rw [BitVec.toNat_add, show (1 : Word).toNat = 1 from rfl, show (0 : Word).toNat = 0 from rfl] at hnat
  omega

theorem add_full (number : Word) (t : Tree) : ∀ {k : Nat}, k ≤ 30 → t.Bounded k → t.Ordered →
    (∀ x ∈ t.numbers, Agree k x number) → t.toList.count number + 1 < 2 ^ 32 → t.Full →
    (t.add number k).Full := by
  induction t with
  | nil =>
      intro k _ _ _ _ _ _
      exact single_full number
  | leaf m c₀ c₁ =>
      intro k hk _ _ hagree hcount hfull
      have hm : Agree k number m := (hagree m (List.mem_singleton.mpr rfl)).symm
      unfold add
      split
      case isTrue => exact branch_full _ _ hfull
      case isFalse hdiff =>
        have hnm : Agree 0 number m := hm.of_difference hk (by simpa using hdiff)
        rw [toList, List.count_append] at hcount
        split
        case isTrue hodd =>
          rw [ne_eq, and_one_eq_zero, Bool.not_eq_false] at hodd
          have hset := eq_set_low hnm hodd
          rw [hset, List.count_replicate_self] at hcount
          exact .inr (succ_ne_zero_of_toNat (by omega))
        case isFalse heven =>
          have hclear := eq_clear_low hnm ((and_one_eq_zero number).mp (not_not.mp heven))
          rw [hclear, List.count_replicate_self] at hcount
          exact .inl (succ_ne_zero_of_toNat (by omega))
  | node l m z o ihz iho =>
      intro k hk ht h hagree hcount hfull
      obtain ⟨hl, hlk, hbz, hbo⟩ := ht
      obtain ⟨hchild, hfz, hfo⟩ := hfull
      have hm : Agree k number m := (hagree m List.mem_cons_self).symm
      rw [toList, List.count_append] at hcount
      unfold add
      split
      case isTrue => exact branch_full _ _ ⟨hchild, hfz, hfo⟩
      case isFalse hdiff =>
        have hnm : Agree l number m := hm.of_difference hk (by simpa using hdiff)
        obtain ⟨hz, ho, hoz, hoo⟩ := h
        split
        case isTrue hbit =>
          exact ⟨.inr (add_ne_nil _ _ _), hfz,
            iho (by omega) hbo hoo (ho.deeper hnm hbit) (by omega) hfo⟩
        case isFalse hbit =>
          have hbit' : number.getLsbD l = false := by simpa using hbit
          exact ⟨.inl (add_ne_nil _ _ _),
            ihz (by omega) hbz hoz (hz.deeper hnm hbit') (by omega) hfz, hfo⟩

theorem take_full (t : Tree) : ∀ n, t.Full → (t.take n).2.Full := by
  induction t with
  | nil =>
      intro n _
      trivial
  | leaf m c₀ c₁ =>
      intro n _
      simp only [take, leafRest]
      split
      case isTrue => trivial
      case isFalse hsome =>
        rw [not_and_or] at hsome
        exact hsome
  | node l m z o ihz iho =>
      intro n h
      simp only [take]
      split
      case isTrue => trivial
      case isFalse hsome =>
        rw [not_and_or] at hsome
        exact ⟨hsome, ihz n h.2.1, iho _ h.2.2⟩

/-- The numbers of a tree have one sign, as positions end at `1 << 30`. -/
theorem Valid.sign {t : Tree} (h : t.Valid 30) : ∃ b, ∀ v ∈ t.toList, v.getLsbD 31 = b := by
  cases t with
  | nil => exact ⟨false, fun v hv => absurd hv List.not_mem_nil⟩
  | leaf m c₀ c₁ =>
      refine ⟨m.getLsbD 31, fun v hv => ?_⟩
      obtain ⟨x, hx, hagree⟩ := mem_toList hv
      rw [hagree 31 (by decide), List.mem_singleton.mp hx]
  | node l m z o =>
      obtain ⟨-, hlk, -, hzeros, hones, -, -⟩ := h
      refine ⟨m.getLsbD 31, fun v hv => ?_⟩
      rcases List.mem_append.mp hv with hzero | hone
      · exact (hzeros v hzero).1 31 (by omega)
      · exact (hones v hone).1 31 (by omega)

/-- Read from left to right, a valid tree is in ascending order as ints. -/
theorem Valid.ascending {t : Tree} (h : t.Valid 30) :
    (t.toList.map BitVec.toInt).Pairwise (· ≤ ·) := by
  obtain ⟨b, hsign⟩ := h.sign
  rw [List.pairwise_map]
  refine (Tree.sorted h.bounded h.ordered).imp_of_mem ?_
  intro v w hv hw hle
  have hmsb : v.msb = w.msb := by
    rw [BitVec.msb_eq_getLsbD_last, BitVec.msb_eq_getLsbD_last]
    exact (hsign v hv).trans (hsign w hw).symm
  rw [BitVec.toInt_eq_msb_cond, BitVec.toInt_eq_msb_cond, hmsb]
  split <;> omega

theorem Valid.add {t : Tree} (h : t.Valid 30) {number : Word} (hnumber : 0 ≤ number.toInt)
    (hheld : ∀ v ∈ t.toList, 0 ≤ v.toInt) (hcount : t.toList.count number + 1 < 2 ^ 32) :
    (t.add number 30).Valid 30 ∧ (t.add number 30).toList.Perm (number :: t.toList) := by
  have hstored := h.stored (i := 31) (b := false) (by decide)
    fun v hv => nonneg_of_toInt (hheld v hv).not_gt
  have hagree : ∀ x ∈ t.numbers, Agree 30 x number := by
    intro x hx i hi
    by_cases hlast : i = 31
    · rw [hlast, hstored x hx, nonneg_of_toInt hnumber.not_gt]
    · rw [BitVec.getLsbD_of_ge x i (by omega), BitVec.getLsbD_of_ge number i (by omega)]
  obtain ⟨hbounded, hordered, hfull⟩ := valid_iff.mp h
  refine ⟨valid_iff.mpr ⟨t.add_bounded number 30 (by decide) hbounded, ?_, ?_⟩, ?_⟩
  · exact t.add_ordered number (by decide) hbounded hordered hagree
  · exact t.add_full number (by decide) hbounded hordered hagree hcount hfull
  · exact t.add_toList number (by decide) hbounded hordered hagree hcount

theorem Valid.take {t : Tree} {k : Nat} (h : t.Valid k) (n : Nat) : (t.take n).2.Valid k := by
  obtain ⟨hbounded, hordered, hfull⟩ := valid_iff.mp h
  exact valid_iff.mpr ⟨t.take_bounded n k hbounded, t.take_ordered n hordered, t.take_full n hfull⟩

end Tree

/-! ## Adding to any tree -/

/-- `add_number` on a tree of numbers that are not negative ends and inserts its number, as
long as the counter of the number can count one more. The heap stays below 2^32. -/
theorem add_number_inserts (s : Store) (t : Tree) (ns : List Int) (number : Word)
    (hs : Holds s t ns) (ht : t.Valid 30) (hheld : ∀ v ∈ t.toList, 0 ≤ v.toInt)
    (hnumber : 0 ≤ number.toInt) (hcount : t.toList.count number + 1 < 2 ^ 32) :
    ∃ s' t' ns', addNumber s number = some s' ∧ Holds s' t' ns' ∧ t'.Valid 30 ∧
      (t'.toList : Multiset Word) = number ::ₘ (t.toList : Multiset Word) := by
  obtain ⟨s', ns', hrun, hs'⟩ := hs.addNumber number
  obtain ⟨hvalid, hperm⟩ := ht.add hnumber hheld hcount
  refine ⟨s', _, ns', hrun, hs', hvalid, ?_⟩
  rw [Multiset.cons_coe, Multiset.coe_eq_coe]
  exact hperm

/-- The heap as the program finds it. -/
def emptyHeap : Heap := ⟨fun _ => 0, 0, false, fun _ => 0⟩

theorem add_number_inserts_second : ∃ s' t' ns' s, addNumber (start emptyHeap) 6 = some s ∧
    addNumber s 5 = some s' ∧ Holds s' t' ns' ∧ t'.Valid 30 ∧
      (t'.toList : Multiset Word) = (5 ::ₘ {6} : Multiset Word) := by
  obtain ⟨s, ns, hrun, hs⟩ := (start_holds emptyHeap).addNumber 6
  have hheld : (Tree.nil.add 6 30).toList = [6] := by decide
  obtain ⟨s', t', ns', hrun', hs', hvalid, htoList⟩ :=
    add_number_inserts s _ ns 5 hs (.inl (by decide))
      (by rw [hheld]; exact List.forall_mem_singleton.mpr (by decide)) (by decide)
      (by rw [hheld, List.count_singleton]; decide)
  rw [hheld] at htoList
  exact ⟨s', t', ns', s, hrun, hrun', hs', hvalid, htoList⟩

/-- A heap holds at most one tree. -/
theorem Represents.unique {s : Store} {t : Tree} : ∀ {t' : Tree} {p : Int} {k k' : Nat}
    {ns ns' : List Int}, k ≤ 30 → k' ≤ 30 → t.Bounded k → t'.Bounded k' →
      Represents s t p ns → Represents s t' p ns' → t = t' := by
  have hzero : ∀ l, 1 ≤ l → l ≤ 30 → bit 0 ≠ bit l := by
    intro l hl hl' heq
    have hlt := one_lt_bit hl hl'
    rw [← heq] at hlt
    exact absurd hlt (by decide)
  have hinj : ∀ l l', l ≤ 30 → l' ≤ 30 → bit l = bit l' → l = l' := by
    intro l l' hl hl' heq
    have hint := congrArg BitVec.toInt heq
    rw [bit_toInt l hl, bit_toInt l' hl'] at hint
    exact Nat.pow_right_injective (le_refl 2) (by exact_mod_cast hint)
  induction t with
  | nil =>
      intro t' p k k' ns ns' _ _ _ _ h h'
      exact (h'.eq_null_iff.mp h.1).symm
  | leaf m c₀ c₁ =>
      intro t' p k k' ns ns' _ hk' _ ht' h h'
      obtain ⟨hp, -, hbit, hnumber, hc₀, hc₁⟩ := h
      cases t' with
      | nil => exact absurd h'.1 hp
      | leaf m' c₀' c₁' =>
          obtain ⟨-, -, -, hnumber', hc₀', hc₁'⟩ := h'
          rw [← hnumber, ← hc₀, ← hc₁, hnumber', hc₀', hc₁']
      | node l m' z o => exact absurd (hbit.symm.trans h'.2.1) (hzero l ht'.1 (ht'.2.1.trans hk'))
  | node l m z o ihz iho =>
      intro t' p k k' ns ns' hk hk' ht ht' h h'
      obtain ⟨hp, hbit, hnumber, nz, no, -, hz, ho⟩ := h
      obtain ⟨hl, hlk, hbz, hbo⟩ := ht
      cases t' with
      | nil => exact absurd h'.1 hp
      | leaf m' c₀ c₁ =>
          exact absurd (h'.2.2.1.symm.trans hbit) (hzero l hl (hlk.trans hk))
      | node l' m' z' o' =>
          obtain ⟨-, hbit', hnumber', nz', no', -, hz', ho'⟩ := h'
          obtain ⟨-, hlk', hbz', hbo'⟩ := ht'
          have hlevel := hinj l l' (by omega) (by omega) (hbit.symm.trans hbit')
          rw [hlevel, ← hnumber, hnumber', ihz (by omega) (by omega) hbz hbz' hz hz',
            iho (by omega) (by omega) hbo hbo' ho ho']

/-- A leaf with any counter for its even number, in some heap. -/
theorem exists_leaf (m c : Word) (hm : m.getLsbD 0 = false) :
    ∃ s ns, Holds s (.leaf m c 0) ns := by
  obtain ⟨s, ns, -, hs⟩ := (start_holds emptyHeap).addNumber m
  have heven : m &&& 1 = 0 := (Tree.and_one_eq_zero m).mpr hm
  have hleaf : Tree.nil.add m 30 = .leaf m 1 0 := by
    rw [Tree.add, Tree.single, if_pos heven, heven]
  rw [hleaf] at hs
  have hset : (8 : Int) = 8 ∧ c = c ∧ (0 : Word) = 0 ∨ (8 : Int) = 12 ∧ c = 1 ∧ (0 : Word) = c :=
    .inl ⟨rfl, rfl, rfl⟩
  exact ⟨_, ns, (hs.subtree.count hset).1, trivial⟩

/-- Without the bound a full counter comes back to zero, and beside negative numbers the
number is counted under another one. -/
theorem add_number_miscounts :
    ¬(∀ (s : Store) (t : Tree) (ns : List Int) (number : Word), Holds s t ns → t.Valid 30 →
        (∀ v ∈ t.toList, 0 ≤ v.toInt) → 0 ≤ number.toInt →
        ∃ s' t' ns', addNumber s number = some s' ∧ Holds s' t' ns' ∧ t'.Valid 30 ∧
          (t'.toList : Multiset Word) = number ::ₘ (t.toList : Multiset Word)) ∧
    ¬(∀ (s : Store) (t : Tree) (ns : List Int) (number : Word), Holds s t ns → t.Valid 30 →
        t.toList.count number + 1 < 2 ^ 32 → 0 ≤ number.toInt →
        ∃ s' t' ns', addNumber s number = some s' ∧ Holds s' t' ns' ∧ t'.Valid 30 ∧
          (t'.toList : Multiset Word) = number ::ₘ (t.toList : Multiset Word)) := by
  have hunique : ∀ {s s' s'' : Store} {t t' : Tree} {number : Word} {ns ns' : List Int},
      addNumber s number = some s' → addNumber s number = some s'' → Holds s' t ns →
        Holds s'' t' ns' → t = t' := by
    intro s s' s'' t t' number ns ns' hrun hrun' h h'
    cases hrun.symm.trans hrun'
    exact Represents.unique (le_refl 30) (le_refl 30) h.bounded h'.bounded h.subtree.represents
      h'.subtree.represents
  constructor
  · intro hclaim
    obtain ⟨s, ns, hs⟩ := exists_leaf 0 (-1) rfl
    have hzeros : ∀ v ∈ (Tree.leaf 0 (-1) 0).toList, 0 ≤ v.toInt := by
      intro v hv
      rcases List.mem_append.mp hv with hzero | hone
      · rw [(List.mem_replicate.mp hzero).2]
        decide
      · cases hone
    obtain ⟨s', t', ns', hrun, hs', hvalid, -⟩ :=
      hclaim s _ ns 0 hs (.inl (by decide)) hzeros (by decide)
    obtain ⟨s'', ns'', hrun', hs''⟩ := hs.addNumber 0
    have hwrapped : (Tree.leaf 0 (-1) 0).add 0 30 = .leaf 0 0 0 := by
      rw [add_zero_leaf]
      rfl
    have htree := (hunique hrun hrun' hs' hs'').trans hwrapped
    rw [htree] at hvalid
    rcases hvalid with hc | hc <;> exact hc rfl
  · intro hclaim
    obtain ⟨s, ns, hs⟩ := exists_leaf (-2) 1 rfl
    obtain ⟨s', t', ns', hrun, hs', -, htoList⟩ :=
      hclaim s _ ns 0x7FFFFFFE hs (.inl (by decide)) (by decide) (by decide)
    obtain ⟨s'', ns'', hrun', hs''⟩ := hs.addNumber 0x7FFFFFFE
    rw [hunique hrun hrun' hs' hs''] at htoList
    have hnew : (0x7FFFFFFE : Word) ∈ ((Tree.leaf (-2) 1 0).add 0x7FFFFFFE 30).toList := by
      rw [← Multiset.mem_coe, htoList]
      exact Multiset.mem_cons_self _ _
    exact absurd hnew (by decide)

end CompSys.Radix
