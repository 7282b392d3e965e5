import CompSys.RadixTree
import Mathlib.Data.Nat.Bitwise
import Mathlib.Data.List.Sort

/-!
# The radix tree as a sorted list

Numbers below a node agree with it above its level and are told apart by the
bit of its level, so that the tree read from left to right is sorted. Adding
inserts one number, and taking removes a prefix.
-/
namespace CompSys.Radix

/-- The same bits above a level. -/
def Agree (level : Nat) (x y : Word) : Prop := ∀ i, level < i → x.getLsbD i = y.getLsbD i

theorem Agree.symm {l : Nat} {x y : Word} (h : Agree l x y) : Agree l y x :=
  fun i hi => (h i hi).symm

theorem Agree.trans {l : Nat} {x y z : Word} (h : Agree l x y) (h' : Agree l y z) : Agree l x z :=
  fun i hi => (h i hi).trans (h' i hi)

theorem Agree.mono {l l' : Nat} {x y : Word} (h : Agree l x y) (hle : l ≤ l') : Agree l' x y :=
  fun i hi => h i (Nat.lt_of_le_of_lt hle hi)

/-- The first bit in which two numbers differ orders them. -/
theorem Agree.lt {l : Nat} {x y : Word} (h : Agree l x y) (hx : x.getLsbD l = false)
    (hy : y.getLsbD l = true) : x.toNat < y.toNat :=
  Nat.lt_of_testBit l hx hy fun i hi => h i hi

/-- A node whose number differs nowhere in between agrees with the number. -/
theorem Agree.of_difference {k l : Nat} {x y : Word} (hk : k ≤ 30) (h : Agree k x y)
    (hdiff : difference k l x y = 0) : Agree l x y := by
  intro i hi
  by_cases hik : i ≤ k
  · exact difference_eq_zero hk hdiff hi hik
  · exact h i (by omega)

/-- Above the located bit there is no difference. -/
theorem Agree.topBit {k l : Nat} {x y : Word} (hk : k ≤ 30) (h : Agree k x y) (hl : l ≤ k)
    (hdiff : difference k l x y ≠ 0) : Agree (topBit (difference k l x y) k) x y := by
  intro i hi
  by_cases hik : i ≤ k
  · by_contra hne
    have htop := topBit_difference hk hdiff
    have hset : (difference k l x y).getLsbD i = true := by
      rw [difference, if_pos (by omega), BitVec.getLsbD_and,
        getLsbD_bitRange k l i hk (by omega) (by omega), BitVec.getLsbD_xor]
      have hli : l < i := by omega
      simp only [hli, hik, decide_true, Bool.and_self, Bool.true_and]
      cases hx : x.getLsbD i <;> cases hy : y.getLsbD i <;> simp_all
    have := (topBit_set hik hset).1
    omega
  · exact h i (by omega)

namespace Tree

/-- The numbers stored in the nodes. -/
def numbers : Tree → List Word
  | nil => []
  | leaf m _ _ => [m]
  | node _ m z o => m :: (z.numbers ++ o.numbers)

/-- The numbers held, from left to right. -/
def toList : Tree → List Word
  | nil => []
  | leaf m c₀ c₁ => List.replicate c₀.toNat (m &&& ~~~1) ++ List.replicate c₁.toNat (m ||| 1)
  | node _ _ z o => z.toList ++ o.toList

/-- On a side of a node the numbers agree with it above its level and have the side's bit. -/
def Side (level : Nat) (m : Word) (b : Bool) (t : Tree) : Prop :=
  ∀ x ∈ t.numbers, Agree level x m ∧ x.getLsbD level = b

def Ordered : Tree → Prop
  | nil => True
  | leaf _ _ _ => True
  | node l m z o => Side l m false z ∧ Side l m true o ∧ Ordered z ∧ Ordered o

/-! ## Sortedness -/

theorem getLsbD_one (i : Nat) : (1 : Word).getLsbD i = decide (i = 0) := by
  have hone : (1 : Word) = 1#32 := rfl
  rw [hone, BitVec.getLsbD_one]
  simp

theorem clear_low (m : Word) : Agree 0 (m &&& ~~~1) m ∧ (m &&& ~~~1).getLsbD 0 = false := by
  constructor
  · intro i hi
    rw [BitVec.getLsbD_and, BitVec.getLsbD_not, getLsbD_one]
    by_cases hlt : i < 32
    · simp [hlt, Nat.ne_of_gt hi]
    · simp [hlt, BitVec.getLsbD_of_ge m i (by omega)]
  · rw [BitVec.getLsbD_and, BitVec.getLsbD_not, getLsbD_one]
    simp

theorem set_low (m : Word) : Agree 0 (m ||| 1) m ∧ (m ||| 1).getLsbD 0 = true := by
  constructor
  · intro i hi
    rw [BitVec.getLsbD_or, getLsbD_one]
    simp [Nat.ne_of_gt hi]
  · rw [BitVec.getLsbD_or, getLsbD_one]
    simp

/-- The test of the program on the lowest bit. -/
theorem and_one_eq_zero (m : Word) : m &&& 1 = 0 ↔ m.getLsbD 0 = false := by
  have hone : (1 : Word) = bit 0 := rfl
  rw [BitVec.and_comm, hone]
  exact bit_and_eq_zero 0 (by decide) m

/-- A number is told by its bits above the lowest and the lowest. -/
theorem eq_of_agree {x y : Word} (h : Agree 0 x y) (hlow : x.getLsbD 0 = y.getLsbD 0) : x = y := by
  apply BitVec.eq_of_getLsbD_eq
  intro i hi
  by_cases hzero : i = 0
  · rw [hzero, hlow]
  · exact h i (by omega)

theorem eq_clear_low {n m : Word} (h : Agree 0 n m) (hlow : n.getLsbD 0 = false) :
    m &&& ~~~1 = n :=
  eq_of_agree ((clear_low m).1.trans h.symm) ((clear_low m).2.trans hlow.symm)

theorem eq_set_low {n m : Word} (h : Agree 0 n m) (hlow : n.getLsbD 0 = true) : m ||| 1 = n :=
  eq_of_agree ((set_low m).1.trans h.symm) ((set_low m).2.trans hlow.symm)

/-- A held number agrees with the stored number of its leaf above the lowest bit. -/
theorem mem_toList {t : Tree} {v : Word} (hv : v ∈ t.toList) : ∃ x ∈ t.numbers, Agree 0 v x := by
  induction t with
  | nil => cases hv
  | leaf m c₀ c₁ =>
      refine ⟨m, List.mem_singleton.mpr rfl, ?_⟩
      rcases List.mem_append.mp hv with hzero | hone
      · rw [(List.mem_replicate.mp hzero).2]
        exact (clear_low m).1
      · rw [(List.mem_replicate.mp hone).2]
        exact (set_low m).1
  | node l m z o ihz iho =>
      rcases List.mem_append.mp hv with hzero | hone
      · obtain ⟨x, hx, hagree⟩ := ihz hzero
        exact ⟨x, List.mem_cons_of_mem m (List.mem_append_left _ hx), hagree⟩
      · obtain ⟨x, hx, hagree⟩ := iho hone
        exact ⟨x, List.mem_cons_of_mem m (List.mem_append_right _ hx), hagree⟩

theorem Side.held {l : Nat} {m v : Word} {b : Bool} {t : Tree} (h : Side l m b t) (hl : 1 ≤ l)
    (hv : v ∈ t.toList) : Agree l v m ∧ v.getLsbD l = b := by
  obtain ⟨x, hx, hagree⟩ := mem_toList hv
  have hside := h x hx
  exact ⟨(hagree.mono (Nat.zero_le l)).trans hside.1, (hagree l hl).trans hside.2⟩

/-- On the side of a number, what is stored agrees with it one level further down. -/
theorem Side.deeper {l : Nat} {m number : Word} {b : Bool} {t : Tree} (h : Side l m b t)
    (hnm : Agree l number m) (hb : number.getLsbD l = b) :
    ∀ x ∈ t.numbers, Agree (l - 1) x number := by
  intro x hx i hi
  have hside := h x hx
  by_cases hil : i = l
  · rw [hil, hside.2, hb]
  · exact (hside.1.trans hnm.symm) i (by omega)

/-- Read from left to right, an ordered tree is sorted. -/
theorem sorted {t : Tree} : ∀ {k : Nat}, t.Bounded k → t.Ordered →
    t.toList.Pairwise fun x y => x.toNat ≤ y.toNat := by
  induction t with
  | nil =>
      intro k _ _
      exact List.Pairwise.nil
  | leaf m c₀ c₁ =>
      intro k _ _
      refine List.pairwise_append.mpr ⟨?_, ?_, ?_⟩
      · exact List.pairwise_replicate.mpr (Or.inr (Nat.le_refl _))
      · exact List.pairwise_replicate.mpr (Or.inr (Nat.le_refl _))
      · intro x hx y hy
        rw [(List.mem_replicate.mp hx).2, (List.mem_replicate.mp hy).2]
        have hzero := clear_low m
        have hone := set_low m
        exact Nat.le_of_lt ((hzero.1.trans hone.1.symm).lt hzero.2 hone.2)
  | node l m z o ihz iho =>
      intro k ht h
      obtain ⟨hl, hlk, hbz, hbo⟩ := ht
      obtain ⟨hz, ho, hoz, hoo⟩ := h
      refine List.pairwise_append.mpr ⟨ihz hbz hoz, iho hbo hoo, ?_⟩
      intro x hx y hy
      have hzero := hz.held hl hx
      have hone := ho.held hl hy
      exact Nat.le_of_lt ((hzero.1.trans hone.1.symm).lt hzero.2 hone.2)

/-! ## Adding -/

theorem single_numbers (number : Word) : (single number).numbers = [number] := rfl

theorem single_toList (number : Word) : (single number).toList = [number] := by
  have hagree : Agree 0 number number := fun _ _ => rfl
  unfold single toList
  cases hlow : number.getLsbD 0 with
  | false =>
      have hzero := (and_one_eq_zero number).mpr hlow
      rw [hzero, eq_clear_low hagree hlow]
      rfl
  | true =>
      have hone : number &&& 1 = 1 := by
        apply BitVec.eq_of_getLsbD_eq
        intro i hi
        rw [BitVec.getLsbD_and, getLsbD_one]
        by_cases hzero : i = 0
        · simp [hzero, hlow]
        · simp [hzero]
      rw [hone, eq_set_low hagree hlow]
      rfl

theorem branch_numbers {j : Nat} {number x : Word} {t : Tree}
    (hx : x ∈ (branch j number t).numbers) : x = number ∨ x ∈ t.numbers := by
  unfold branch at hx
  split at hx <;> simp only [numbers, single_numbers, List.mem_cons, List.mem_append,
    List.not_mem_nil, or_false] at hx <;> tauto

theorem branch_toList (j : Nat) (number : Word) (t : Tree) :
    (branch j number t).toList.Perm (number :: t.toList) := by
  unfold branch
  split
  · rw [toList, single_toList]
    exact List.perm_append_singleton number t.toList
  · rw [toList, single_toList]
    exact List.Perm.refl _

/-- The old subtree and the new leaf on the two sides of an injected node. -/
theorem branch_ordered {j : Nat} {number : Word} {t : Tree} (ht : t.Ordered)
    (h : ∀ x ∈ t.numbers, Agree j x number ∧ x.getLsbD j ≠ number.getLsbD j) :
    (branch j number t).Ordered := by
  have hnew : ∀ b, number.getLsbD j = b → Side j number b (single number) := by
    intro b hb x hx
    rw [single_numbers, List.mem_singleton] at hx
    rw [hx]
    exact ⟨fun _ _ => rfl, hb⟩
  unfold branch
  split
  case isTrue hbit =>
    refine ⟨?_, hnew true hbit, ht, trivial⟩
    intro x hx
    have hside := h x hx
    rw [hbit] at hside
    exact ⟨hside.1, by simpa using hside.2⟩
  case isFalse hbit =>
    have hbit' : number.getLsbD j = false := by simpa using hbit
    refine ⟨hnew false hbit', ?_, trivial, ht⟩
    intro x hx
    have hside := h x hx
    rw [hbit'] at hside
    exact ⟨hside.1, by simpa using hside.2⟩

theorem add_numbers {number x : Word} (t : Tree) : ∀ {k : Nat},
    x ∈ (t.add number k).numbers → x = number ∨ x ∈ t.numbers := by
  induction t with
  | nil =>
      intro k hx
      exact Or.inl (List.mem_singleton.mp hx)
  | leaf m c₀ c₁ =>
      intro k hx
      unfold add at hx
      split at hx
      · exact branch_numbers hx
      · split at hx <;> exact Or.inr hx
  | node l m z o ihz iho =>
      intro k hx
      unfold add at hx
      split at hx
      · exact branch_numbers hx
      · split at hx <;> simp only [numbers, List.mem_cons, List.mem_append] at hx ⊢
        · rcases hx with hx | hx | hx
          · exact Or.inr (Or.inl hx)
          · exact Or.inr (Or.inr (Or.inl hx))
          · rcases iho hx with hx | hx
            · exact Or.inl hx
            · exact Or.inr (Or.inr (Or.inr hx))
        · rcases hx with hx | hx | hx
          · exact Or.inr (Or.inl hx)
          · rcases ihz hx with hx | hx
            · exact Or.inl hx
            · exact Or.inr (Or.inr (Or.inl hx))
          · exact Or.inr (Or.inr (Or.inr hx))

/-- All numbers of a node agree with it above its level. -/
theorem Ordered.agree {l : Nat} {m x : Word} {z o : Tree} (h : (node l m z o).Ordered)
    (hx : x ∈ (node l m z o).numbers) : Agree l x m := by
  simp only [numbers, List.mem_cons, List.mem_append] at hx
  rcases hx with rfl | hx | hx
  · exact fun _ _ => rfl
  · exact (h.1 x hx).1
  · exact (h.2.1 x hx).1

theorem add_ordered (number : Word) (t : Tree) : ∀ {k : Nat}, k ≤ 30 → t.Bounded k → t.Ordered →
    (∀ x ∈ t.numbers, Agree k x number) → (t.add number k).Ordered := by
  induction t with
  | nil =>
      intro k _ _ _ _
      trivial
  | leaf m c₀ c₁ =>
      intro k hk _ _ hagree
      have hm : Agree k number m := (hagree m (List.mem_singleton.mpr rfl)).symm
      unfold add
      split
      case isTrue hdiff =>
        have htop := topBit_difference hk hdiff
        refine branch_ordered trivial ?_
        intro x hx
        rw [numbers, List.mem_singleton] at hx
        rw [hx]
        exact ⟨(hm.topBit hk (Nat.zero_le k) hdiff).symm, htop.2.2.1.symm⟩
      case isFalse => split <;> trivial
  | node l m z o ihz iho =>
      intro k hk ht h hagree
      obtain ⟨hl, hlk, hbz, hbo⟩ := ht
      have hm : Agree k number m := (hagree m List.mem_cons_self).symm
      unfold add
      split
      case isTrue hdiff =>
        have htop := topBit_difference hk hdiff
        refine branch_ordered h ?_
        intro x hx
        have hxm := h.agree hx
        refine ⟨(hxm.mono (Nat.le_of_lt htop.1)).trans (hm.topBit hk hlk hdiff).symm, ?_⟩
        rw [hxm _ htop.1]
        exact htop.2.2.1.symm
      case isFalse hdiff =>
        have hzero : difference k l number m = 0 := by simpa using hdiff
        have hnm : Agree l number m := hm.of_difference hk hzero
        obtain ⟨hz, ho, hoz, hoo⟩ := h
        have hside : ∀ (b : Bool) (u : Tree), number.getLsbD l = b → Side l m b u →
            Side l m b (u.add number (l - 1)) := by
          intro b u hb hu x hx
          rcases add_numbers u hx with rfl | hx
          · exact ⟨hnm, hb⟩
          · exact hu x hx
        split
        case isTrue hbit =>
          exact ⟨hz, hside true o hbit ho, hoz, iho (by omega) hbo hoo (ho.deeper hnm hbit)⟩
        case isFalse hbit =>
          have hbit' : number.getLsbD l = false := by simpa using hbit
          exact ⟨hside false z hbit' hz, ho, ihz (by omega) hbz hoz (hz.deeper hnm hbit'), hoo⟩

/-- Adding inserts the number once, as long as its counter does not overflow. -/
theorem add_toList (number : Word) (t : Tree) : ∀ {k : Nat}, k ≤ 30 → t.Bounded k → t.Ordered →
    (∀ x ∈ t.numbers, Agree k x number) → t.toList.count number + 1 < 2 ^ 32 →
    (t.add number k).toList.Perm (number :: t.toList) := by
  induction t with
  | nil =>
      intro k _ _ _ _ _
      rw [add, single_toList]
      exact List.Perm.refl _
  | leaf m c₀ c₁ =>
      intro k hk _ _ hagree hcount
      have hm : Agree k number m := (hagree m (List.mem_singleton.mpr rfl)).symm
      unfold add
      split
      case isTrue => exact branch_toList _ _ _
      case isFalse hdiff =>
        have hzero : difference k 0 number m = 0 := by simpa using hdiff
        have hnm : Agree 0 number m := hm.of_difference hk hzero
        have hlow : number &&& 1 ≠ 0 ↔ number.getLsbD 0 = true := by
          rw [ne_eq, and_one_eq_zero]
          simp
        split
        case isTrue hodd =>
          have hset := eq_set_low hnm (hlow.mp hodd)
          have hc : (c₁ + 1).toNat = c₁.toNat + 1 := by
            rw [toList, List.count_append, hset, List.count_replicate_self] at hcount
            rw [BitVec.toNat_add, show (1 : Word).toNat = 1 from rfl]
            omega
          rw [toList, toList, hc, hset, List.replicate_succ]
          exact List.perm_middle
        case isFalse heven =>
          have hclear := eq_clear_low hnm (by simpa using mt hlow.mpr heven)
          have hc : (c₀ + 1).toNat = c₀.toNat + 1 := by
            rw [toList, List.count_append, hclear, List.count_replicate_self] at hcount
            rw [BitVec.toNat_add, show (1 : Word).toNat = 1 from rfl]
            omega
          rw [toList, toList, hc, hclear, List.replicate_succ, List.cons_append]
  | node l m z o ihz iho =>
      intro k hk ht h hagree hcount
      obtain ⟨hl, hlk, hbz, hbo⟩ := ht
      have hm : Agree k number m := (hagree m List.mem_cons_self).symm
      rw [toList, List.count_append] at hcount
      unfold add
      split
      case isTrue => exact branch_toList _ _ _
      case isFalse hdiff =>
        have hzero : difference k l number m = 0 := by simpa using hdiff
        have hnm : Agree l number m := hm.of_difference hk hzero
        obtain ⟨hz, ho, hoz, hoo⟩ := h
        split
        case isTrue hbit =>
          have hone := iho (by omega) hbo hoo (ho.deeper hnm hbit) (by omega)
          exact (hone.append_left z.toList).trans List.perm_middle
        case isFalse hbit =>
          have hbit' : number.getLsbD l = false := by simpa using hbit
          have hzeros := ihz (by omega) hbz hoz (hz.deeper hnm hbit') (by omega)
          exact hzeros.append_right o.toList

/-! ## Taking -/

theorem take_numbers {x : Word} (t : Tree) : ∀ {n : Nat}, x ∈ (t.take n).2.numbers →
    x ∈ t.numbers := by
  induction t with
  | nil =>
      intro n hx
      exact hx
  | leaf m c₀ c₁ =>
      intro n hx
      simp only [take, leafRest] at hx
      split at hx
      · cases hx
      · exact hx
  | node l m z o ihz iho =>
      intro n hx
      simp only [take] at hx
      split at hx
      · cases hx
      · simp only [numbers, List.mem_cons, List.mem_append] at hx ⊢
        rcases hx with hx | hx | hx
        · exact Or.inl hx
        · exact Or.inr (Or.inl (ihz hx))
        · exact Or.inr (Or.inr (iho hx))

theorem Side.take {l : Nat} {m : Word} {b : Bool} {t : Tree} (h : Side l m b t) (n : Nat) :
    Side l m b (t.take n).2 :=
  fun x hx => h x (take_numbers t hx)

theorem take_ordered (t : Tree) : ∀ n, t.Ordered → (t.take n).2.Ordered := by
  induction t with
  | nil =>
      intro n _
      trivial
  | leaf m c₀ c₁ =>
      intro n _
      simp only [take, leafRest]
      split <;> trivial
  | node l m z o ihz iho =>
      intro n h
      obtain ⟨hz, ho, hoz, hoo⟩ := h
      simp only [take]
      split
      · trivial
      · exact ⟨hz.take n, ho.take _, ihz n hoz, iho _ hoo⟩

/-- A counter that gives up at most what it holds does not wrap. -/
theorem toNat_sub_min (c : Word) (n : Nat) :
    (c - BitVec.ofNat 32 (min n c.toNat)).toNat = c.toNat - min n c.toNat := by
  have hlt := c.isLt
  rw [BitVec.toNat_sub, BitVec.toNat_ofNat]
  omega

theorem leafTaken_eq (n : Nat) (m c₀ c₁ : Word) :
    leafTaken n m c₀ c₁ = (leaf m c₀ c₁).toList.take n := by
  rw [leafTaken, toList, List.take_append, List.take_replicate, List.take_replicate,
    List.length_replicate]

theorem leafRest_toList (n : Nat) (m c₀ c₁ : Word) :
    (leafRest n m c₀ c₁).toList = (leaf m c₀ c₁).toList.drop n := by
  have hc₀ := toNat_sub_min c₀ n
  have hc₁ := toNat_sub_min c₁ (n - c₀.toNat)
  rw [toList, List.drop_append, List.drop_replicate, List.drop_replicate, List.length_replicate]
  simp only [leafRest]
  split
  case isTrue hempty =>
    rw [hempty.1] at hc₀
    rw [hempty.2] at hc₁
    have hz : c₀.toNat - n = 0 := by
      have : (0 : Word).toNat = 0 := rfl
      omega
    have ho : c₁.toNat - (n - c₀.toNat) = 0 := by
      have : (0 : Word).toNat = 0 := rfl
      omega
    rw [hz, ho]
    rfl
  case isFalse =>
    have hmin : ∀ a b : Nat, a - min b a = a - b := by omega
    rw [toList, hc₀, hc₁, hmin, hmin]

/-- Taking removes a prefix of the numbers held. -/
theorem take_toList (t : Tree) : ∀ n,
    (t.take n).1 = t.toList.take n ∧ (t.take n).2.toList = t.toList.drop n := by
  induction t with
  | nil =>
      intro n
      exact ⟨List.take_nil.symm, List.drop_nil.symm⟩
  | leaf m c₀ c₁ =>
      intro n
      exact ⟨leafTaken_eq n m c₀ c₁, leafRest_toList n m c₀ c₁⟩
  | node l m z o ihz iho =>
      intro n
      obtain ⟨hzeros, hz⟩ := ihz n
      have hlen : n - (z.take n).1.length = n - z.toList.length := by
        rw [hzeros, List.length_take]
        omega
      obtain ⟨hones, ho⟩ := iho (n - (z.take n).1.length)
      rw [hlen] at hones ho
      simp only [take, toList, List.take_append, List.drop_append, hlen]
      refine ⟨by rw [hzeros, hones], ?_⟩
      rw [← hz, ← ho]
      split
      case isTrue hempty =>
        rw [hempty.1, hempty.2]
        rfl
      case isFalse => rfl

end Tree

end CompSys.Radix
