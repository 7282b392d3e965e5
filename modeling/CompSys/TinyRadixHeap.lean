import CompSys.Heap32
import CompSys.RadixInvariant
import CompSys.TinyRadix
import Mathlib.Data.Int.ConditionallyCompleteOrder

/-!
# The tree of A5 in its heap

What `add_number` and `print_numbers` do to the nodes of a tree, and how far they take `free_space`:
each node is the first block of a chunk of its own.
-/
namespace CompSys.TinyRadix

open Heap (NULL Below Grows)
open Radix (TREE heapStart bit)

/-! ## Nodes -/

/-- The words below the heap and the fields of the nodes `ns`. -/
def Cell (ns : List Int) (a : Int) : Prop := a < heapStart ∨ ∃ q ∈ ns, q ≤ a ∧ a < q + 12

theorem Cell.mono {ns ns' : List Int} {a : Int} (h : Cell ns a) (hsub : ∀ q ∈ ns, q ∈ ns') :
    Cell ns' a := by
  rcases h with hbelow | ⟨q, hq, hin⟩
  · exact .inl hbelow
  · exact .inr ⟨q, hsub q hq, hin⟩

/-- Nodes of 12 bytes that lie apart in the part of the heap that is in use. -/
structure Nodes (h : Heap) (ns : List Int) : Prop where
  initialized : h.initialized = false
  space : heapStart ≤ h.freeSpace
  inside : ∀ p ∈ ns, heapStart < p ∧ p + 12 ≤ h.freeSpace
  apart : ns.Pairwise fun p q => p + 12 ≤ q ∨ q + 12 ≤ p

namespace Nodes

variable {h : Heap} {ns ns' : List Int}

theorem perm (hn : Nodes h ns) (hperm : ns.Perm ns') : Nodes h ns' :=
  ⟨hn.initialized, hn.space, fun p hp => hn.inside p (hperm.mem_iff.mpr hp),
    (hperm.pairwise_iff fun hpq => Or.symm hpq).mp hn.apart⟩

theorem store (hn : Nodes h ns) (a v : Int) : Nodes (h.store a v) ns :=
  ⟨hn.initialized, hn.space, hn.inside, hn.apart⟩

theorem storeInt (hn : Nodes h ns) (a : Int) (v : Word) : Nodes (h.storeInt a v) ns :=
  hn.store a v.toInt

theorem cell_lt (hn : Nodes h ns) {a : Int} (ha : Cell ns a) : a < h.freeSpace := by
  have hspace := hn.space
  rcases ha with hbelow | ⟨q, hq, hle, hlt⟩
  · omega
  · have hinside := hn.inside q hq
    omega

/-- A field of other nodes lies outside a node. -/
theorem outside {p a : Int} (hn : Nodes h (p :: ns)) (ha : Cell ns a) : a < p ∨ p + 12 ≤ a := by
  have hinside := hn.inside p List.mem_cons_self
  rcases ha with hbelow | ⟨q, hq, hle, hlt⟩
  · omega
  · have hpq := (List.pairwise_cons.mp hn.apart).1 q hq
    omega

end Nodes

theorem mem_store_of_ne {h : Heap} {a b v : Int} (hne : b ≠ a) : (h.store a v).mem b = h.mem b :=
  Function.update_of_ne hne _ _

theorem mem_store_self (h : Heap) (a v : Int) : (h.store a v).mem a = v := Function.update_self _ _ _

theorem loadInt_storeInt_self (h : Heap) (a : Int) (v : Word) : (h.storeInt a v).loadInt a = v := by
  rw [Heap.loadInt, Heap.storeInt, mem_store_self, BitVec.ofInt_toInt]

theorem loadInt_congr {h h' : Heap} {a : Int} (hsame : h'.mem a = h.mem a) :
    h'.loadInt a = h.loadInt a := by
  rw [Heap.loadInt, Heap.loadInt, hsame]

theorem loadInt_storeInt_of_ne {h : Heap} {a b : Int} (v : Word) (hne : b ≠ a) :
    (h.storeInt a v).loadInt b = h.loadInt b := loadInt_congr (mem_store_of_ne hne)

/-- A new node, linked from a word outside it. -/
theorem createNode_spec {h : Heap} {ns : List Int} {parent : Int} (hn : Nodes h ns)
    (hparent : Cell ns parent) (b : Nat) :
    ∃ p h', createNode h parent b = some (p, h') ∧ p ≠ NULL ∧ Nodes h' (p :: ns) ∧
      h'.mem parent = p ∧ h'.loadInt p = BitVec.ofNat 32 b ∧ h'.mem (p + 4) = NULL ∧
      h'.mem (p + 8) = NULL ∧ ∀ a, Cell ns a → a ≠ parent → h'.mem a = h.mem a := by
  have hspace := hn.space
  have hstart : heapStart = 33554432 := rfl
  have hwell : TinyRiscv.WellFormed h.freeSpace h [] :=
    TinyRiscv.wellFormed_nil hn.initialized (by omega)
  obtain ⟨p, h₁, hrun, hmem, ⟨hnot, -⟩ | ⟨-, hp, hnull, hspace₁, hwell₁⟩⟩ :=
    TinyRiscv.allocate_spec hwell nodeSize (by decide)
  · exact absurd (by decide) hnot
  have hgrow : h₁.freeSpace = h.freeSpace + 160 := hspace₁
  refine ⟨p, _, by rw [createNode, hrun]; rfl, hnull, ?_, ?_, ?_, ?_, ?_, ?_⟩
  · refine ⟨hwell₁.1, ?_, ?_, ?_⟩
    · show heapStart ≤ h₁.freeSpace
      omega
    · intro q hq
      show heapStart < q ∧ q + 12 ≤ h₁.freeSpace
      rcases List.mem_cons.mp hq with rfl | hq
      · omega
      · have hinside := hn.inside q hq
        omega
    · refine List.pairwise_cons.mpr ⟨?_, hn.apart⟩
      intro q hq
      have hinside := hn.inside q hq
      omega
  · have hlt := hn.cell_lt hparent
    rw [mem_store_of_ne (by omega), mem_store_of_ne (by omega), Heap.storeInt,
      mem_store_of_ne (by omega), mem_store_self]
  · rw [loadInt_congr (mem_store_of_ne (by omega)), loadInt_congr (mem_store_of_ne (by omega)),
      loadInt_storeInt_self]
  · rw [mem_store_of_ne (by omega), mem_store_self]
  · rw [mem_store_self]
  · intro a ha hne
    have hlt := hn.cell_lt ha
    rw [mem_store_of_ne (by omega), mem_store_of_ne (by omega), Heap.storeInt,
      mem_store_of_ne (by omega), mem_store_of_ne hne, hmem a hlt]

/-! ## Representation -/

/-- The pointer `p` leads to the tree of a bit position, held by exactly the nodes listed. -/
def Represents (h : Heap) : Nat → Trie → Int → List Int → Prop
  | _, .nil, p, ns => p = NULL ∧ ns = []
  | 0, .leaf c₀ c₁, p, ns => p ≠ NULL ∧ ns = [p] ∧ h.loadInt p = 0 ∧
      h.loadInt (p + 4) = c₀ ∧ h.loadInt (p + 8) = c₁
  | b + 1, .node z o, p, ns => p ≠ NULL ∧ h.loadInt p = BitVec.ofNat 32 (b + 1) ∧
      ∃ nz no, ns = p :: (nz ++ no) ∧ Represents h b z (h.mem (p + 4)) nz ∧
        Represents h b o (h.mem (p + 8)) no
  | _, _, _, _ => False

theorem represents_nil (h : Heap) (b : Nat) : Represents h b .nil NULL [] := by
  cases b <;> exact ⟨rfl, rfl⟩

theorem Represents.of_nil {h : Heap} {b : Nat} {p : Int} {ns : List Int}
    (hr : Represents h b .nil p ns) : p = NULL ∧ ns = [] := by
  cases b <;> exact hr

theorem Represents.eq_nil {h : Heap} {b : Nat} {t : Trie} {ns : List Int}
    (hr : Represents h b t NULL ns) : t = .nil := by
  cases t with
  | nil => rfl
  | leaf c₀ c₁ =>
      cases b with
      | zero => exact absurd rfl hr.1
      | succ b => exact hr.elim
  | node z o =>
      cases b with
      | zero => exact hr.elim
      | succ b => exact absurd rfl hr.1

theorem Represents.congr {h h' : Heap} (b : Nat) : ∀ {t : Trie} {p : Int} {ns : List Int},
    Represents h b t p ns → (∀ q ∈ ns, ∀ a, q ≤ a → a < q + 12 → h'.mem a = h.mem a) →
    Represents h' b t p ns := by
  induction b with
  | zero =>
      intro t p ns hr hsame
      cases t with
      | nil => exact hr
      | leaf c₀ c₁ =>
          obtain ⟨hp, rfl, hbit, hzero, hone⟩ := hr
          have hint : ∀ i, 0 ≤ i → i < 12 → h'.loadInt (p + i) = h.loadInt (p + i) := by
            intro i hi hi'
            exact loadInt_congr (hsame p List.mem_cons_self _ (by omega) (by omega))
          have hint₀ := hint 0 (by decide) (by decide)
          rw [Int.add_zero] at hint₀
          exact ⟨hp, rfl, hint₀.trans hbit, (hint 4 (by decide) (by decide)).trans hzero,
            (hint 8 (by decide) (by decide)).trans hone⟩
      | node z o => exact hr.elim
  | succ b ih =>
      intro t p ns hr hsame
      cases t with
      | nil => exact hr
      | leaf c₀ c₁ => exact hr.elim
      | node z o =>
          obtain ⟨hp, hbit, nz, no, rfl, hz, ho⟩ := hr
          have hptr : ∀ i, 0 ≤ i → i < 12 → h'.mem (p + i) = h.mem (p + i) := by
            intro i hi hi'
            exact hsame p List.mem_cons_self _ (by omega) (by omega)
          have hptr₀ := hptr 0 (by decide) (by decide)
          rw [Int.add_zero] at hptr₀
          refine ⟨hp, (loadInt_congr hptr₀).trans hbit, nz, no, rfl, ?_, ?_⟩
          · rw [hptr 4 (by decide) (by decide)]
            exact ih hz fun q hq => hsame q (by simp [hq])
          · rw [hptr 8 (by decide) (by decide)]
            exact ih ho fun q hq => hsame q (by simp [hq])

/-! ## Adding a number -/

/-- An absent tree counts as a leaf without numbers or a node without subtrees. -/
def Trie.ensure : Nat → Trie → Trie
  | 0, .nil => .leaf 0 0
  | _ + 1, .nil => .node .nil .nil
  | _, t => t

theorem Trie.add_ensure (number : Word) (b : Nat) (t : Trie) :
    (t.ensure b).add number b = t.add number b := by
  cases t <;> cases b <;> rfl

theorem getNode_spec {h : Heap} {t : Trie} {parent : Int} {ns rest : List Int} (b : Nat)
    (hr : Represents h b t (h.mem parent) ns) (hn : Nodes h (ns ++ rest))
    (hparent : Cell rest parent) :
    ∃ p h' ns', getNode h parent b = some (p, h') ∧ p ≠ NULL ∧
      Represents h' b (t.ensure b) p ns' ∧ h'.mem parent = p ∧ Nodes h' (ns' ++ rest) ∧
      ∀ a, Cell rest a → a ≠ parent → h'.mem a = h.mem a := by
  rw [getNode]
  by_cases hnull : h.mem parent = NULL
  · rw [hnull] at hr
    have ht := hr.eq_nil
    subst ht
    obtain ⟨-, rfl⟩ := hr.of_nil
    rw [List.nil_append] at hn
    obtain ⟨p, h', hrun, hp, hn', hlink, hbit, hzero, hone, hframe⟩ := createNode_spec hn hparent b
    refine ⟨p, h', [p], by rw [if_pos hnull, hrun], hp, ?_, hlink, hn', hframe⟩
    cases b with
    | zero =>
        refine ⟨hp, rfl, hbit, ?_, ?_⟩
        · rw [Heap.loadInt, hzero]
          rfl
        · rw [Heap.loadInt, hone]
          rfl
    | succ b =>
        refine ⟨hp, hbit, [], [], rfl, ?_, ?_⟩
        · rw [hzero]
          exact represents_nil h' b
        · rw [hone]
          exact represents_nil h' b
  · refine ⟨h.mem parent, h, ns, if_neg hnull, hnull, ?_, rfl, hn, fun _ _ _ => rfl⟩
    cases t with
    | nil => exact absurd hr.of_nil.1 hnull
    | leaf c₀ c₁ => cases b <;> exact hr
    | node z o => cases b <;> exact hr

/-- After a step below the field at offset `i` of a node, the rest is as it was. -/
theorem Represents.rejoin {h h' : Heap} {b : Nat} {u : Trie} {p i j : Int} {nt nu rest : List Int}
    (hn : Nodes h (p :: (nt ++ nu) ++ rest)) (hu : Represents h b u (h.mem (p + j)) nu)
    (hij : i = 4 ∧ j = 8 ∨ i = 8 ∧ j = 4)
    (hframe : ∀ a, Cell (p :: (nu ++ rest)) a → a ≠ p + i → h'.mem a = h.mem a) :
    h'.mem p = h.mem p ∧ Represents h' b u (h'.mem (p + j)) nu ∧
      ∀ a, Cell rest a → h'.mem a = h.mem a := by
  rw [List.cons_append] at hn
  have hfield : ∀ k, 0 ≤ k → k < 12 → k ≠ i → h'.mem (p + k) = h.mem (p + k) := by
    intro k hk hk' hne
    exact hframe _ (.inr ⟨p, List.mem_cons_self, by omega, by omega⟩) (by omega)
  have hsame : ∀ a, Cell (nu ++ rest) a → h'.mem a = h.mem a := by
    intro a ha
    have hout := hn.outside (ha.mono fun q hq => by
      rcases List.mem_append.mp hq with hq | hq
      · simp [hq]
      · simp [hq])
    exact hframe a (ha.mono fun q hq => List.mem_cons_of_mem p hq) (by omega)
  refine ⟨?_, ?_, fun a ha => hsame a (ha.mono fun q hq => List.mem_append_right nu hq)⟩
  · have hzero := hfield 0 (by decide) (by decide) (by omega)
    rwa [Int.add_zero] at hzero
  · rw [hfield j (by omega) (by omega) (by omega)]
    refine hu.congr b fun q hq a hle hlt => hsame a ?_
    exact .inr ⟨q, List.mem_append_left rest hq, hle, hlt⟩

theorem shift_and_eq_zero {b : Nat} (hb : b ≤ 30) (number : Word) :
    (1#32 <<< b) &&& number ≠ 0 ↔ number.getLsbD b = true := by
  have hbit := Radix.bit_and_eq_zero b (by omega) number
  have hone : bit b = 1#32 <<< b := rfl
  rw [← hone, Ne, hbit]
  simp

/-- A counter of a leaf incremented: at offset 4 or 8. -/
theorem Represents.count {h : Heap} {c₀ c₁ c₀' c₁' v : Word} {p i : Int} {rest : List Int}
    (hr : Represents h 0 (.leaf c₀ c₁) p [p]) (hn : Nodes h (p :: rest))
    (hi : i = 4 ∧ c₀' = v ∧ c₁' = c₁ ∨ i = 8 ∧ c₀' = c₀ ∧ c₁' = v) :
    Represents (h.storeInt (p + i) v) 0 (.leaf c₀' c₁') p [p] ∧
      ∀ a, Cell rest a → (h.storeInt (p + i) v).mem a = h.mem a := by
  obtain ⟨hp, -, hbit, hzero, hone⟩ := hr
  obtain ⟨rfl, rfl, rfl⟩ | ⟨rfl, rfl, rfl⟩ := hi
  · refine ⟨⟨hp, rfl, ?_, loadInt_storeInt_self _ _ _, ?_⟩, ?_⟩
    · rw [loadInt_storeInt_of_ne _ (by omega), hbit]
    · rw [loadInt_storeInt_of_ne _ (by omega), hone]
    · intro a ha
      have hout := hn.outside ha
      exact mem_store_of_ne (by omega)
  · refine ⟨⟨hp, rfl, ?_, ?_, loadInt_storeInt_self _ _ _⟩, ?_⟩
    · rw [loadInt_storeInt_of_ne _ (by omega), hbit]
    · rw [loadInt_storeInt_of_ne _ (by omega), hzero]
    · intro a ha
      have hout := hn.outside ha
      exact mem_store_of_ne (by omega)

theorem node_perm (p : Int) (nz no rest : List Int) :
    (p :: (nz ++ no) ++ rest).Perm (nz ++ p :: (no ++ rest)) := by
  rw [List.cons_append, List.append_assoc]
  exact List.perm_middle.symm

/-- The last turn of the loop, at a leaf. -/
theorem addLoop_leaf (number : Word) {h : Heap} {t : Trie} {parent : Int} {ns : List Int}
    (rest : List Int) (hr : Represents h 0 t (h.mem parent) ns) (hn : Nodes h (ns ++ rest))
    (hparent : Cell rest parent) :
    ∃ h' ns', addLoop number 0 h parent = some h' ∧
      Represents h' 0 (t.add number 0) (h'.mem parent) ns' ∧ Nodes h' (ns' ++ rest) ∧
      ∀ a, Cell rest a → a ≠ parent → h'.mem a = h.mem a := by
  obtain ⟨p, h₁, ns₁, hget, hp, hr₁, hlink, hn₁, hframe⟩ := getNode_spec 0 hr hn hparent
  rw [← Trie.add_ensure]
  have hlow := Radix.Tree.and_one_eq_zero number
  generalize t.ensure 0 = t₁ at hr₁ ⊢
  cases t₁ with
  | nil => exact absurd hr₁.of_nil.1 hp
  | node z o => exact hr₁.elim
  | leaf c₀ c₁ =>
      have hfields := hr₁
      obtain ⟨-, rfl, -, hzero, hone⟩ := hfields
      rw [List.singleton_append] at hn₁
      rw [Trie.add, Trie.count, addLoop, hget]
      cases hnumber : number.getLsbD 0 with
      | false =>
          have heven : ¬(number &&& 1 ≠ 0) := not_not_intro (hlow.mpr hnumber)
          obtain ⟨hleaf, hout⟩ := hr₁.count (v := c₀ + 1) hn₁ (.inl ⟨rfl, rfl, rfl⟩)
          refine ⟨_, [p], ?_, ?_, hn₁.storeInt (p + 4) (c₀ + 1), ?_⟩
          · simp only [Option.bind_eq_bind, Option.bind_some, if_neg heven, hzero]
            rfl
          · rw [hout parent hparent, hlink, if_neg (by decide)]
            exact hleaf
          · intro a ha hne
            rw [hout a ha, hframe a ha hne]
      | true =>
          have hodd : number &&& 1 ≠ 0 := by
            intro heq
            rw [hlow.mp heq] at hnumber
            cases hnumber
          obtain ⟨hleaf, hout⟩ := hr₁.count (v := c₁ + 1) hn₁ (.inr ⟨rfl, rfl, rfl⟩)
          refine ⟨_, [p], ?_, ?_, hn₁.storeInt (p + 8) (c₁ + 1), ?_⟩
          · simp only [Option.bind_eq_bind, Option.bind_some, if_pos hodd, hone]
            rfl
          · rw [hout parent hparent, hlink, if_pos rfl]
            exact hleaf
          · intro a ha hne
            rw [hout a ha, hframe a ha hne]

/-- The induction is on the bit position, down the path of the number. -/
theorem addLoop_spec (number : Word) (b : Nat) : ∀ {h : Heap} {t : Trie} {parent : Int}
    {ns : List Int} (rest : List Int), b ≤ 30 → Represents h b t (h.mem parent) ns →
      Nodes h (ns ++ rest) → Cell rest parent →
      ∃ h' ns', addLoop number b h parent = some h' ∧
        Represents h' b (t.add number b) (h'.mem parent) ns' ∧ Nodes h' (ns' ++ rest) ∧
        ∀ a, Cell rest a → a ≠ parent → h'.mem a = h.mem a := by
  induction b with
  | zero =>
      intro h t parent ns rest _ hr hn hparent
      exact addLoop_leaf number rest hr hn hparent
  | succ b ih =>
      intro h t parent ns rest hb hr hn hparent
      obtain ⟨p, h₁, ns₁, hget, hp, hr₁, hlink, hn₁, hframe⟩ :=
        getNode_spec (b + 1) hr hn hparent
      rw [← Trie.add_ensure]
      generalize t.ensure (b + 1) = t₁ at hr₁ ⊢
      cases t₁ with
      | nil => exact absurd hr₁.of_nil.1 hp
      | leaf c₀ c₁ => exact hr₁.elim
      | node z o =>
          obtain ⟨-, hbit, nz, no, rfl, hz, ho⟩ := hr₁
          have hside := shift_and_eq_zero hb number
          rw [Trie.add, addLoop, hget]
          cases hnumber : number.getLsbD (b + 1) with
          | false =>
              have hzero : ¬((1#32 <<< (b + 1)) &&& number ≠ 0) := by
                rw [hside, hnumber]
                decide
              obtain ⟨h', nz', hrun, hz', hn', hframe'⟩ :=
                ih (p :: (no ++ rest)) (by omega) hz (hn₁.perm (node_perm p nz no rest))
                  (.inr ⟨p, List.mem_cons_self, by omega, by omega⟩)
              obtain ⟨hsame, ho', hrest⟩ := ho.rejoin hn₁ (.inl ⟨rfl, rfl⟩) hframe'
              refine ⟨h', p :: (nz' ++ no), ?_, ?_, hn'.perm (node_perm p nz' no rest).symm, ?_⟩
              · simp only [Option.bind_eq_bind, Option.bind_some, if_neg hzero]
                exact hrun
              · rw [hrest parent hparent, hlink, if_neg (by decide)]
                exact ⟨hp, (loadInt_congr hsame).trans hbit, nz', no, rfl, hz', ho'⟩
              · intro a ha hne
                rw [hrest a ha, hframe a ha hne]
          | true =>
              have hone : (1#32 <<< (b + 1)) &&& number ≠ 0 := hside.mpr hnumber
              have hn₂ : Nodes h₁ (p :: (no ++ nz) ++ rest) := hn₁.perm (by
                exact ((List.perm_append_comm).cons p).append_right rest)
              obtain ⟨h', no', hrun, ho', hn', hframe'⟩ :=
                ih (p :: (nz ++ rest)) (by omega) ho (hn₂.perm (node_perm p no nz rest))
                  (.inr ⟨p, List.mem_cons_self, by omega, by omega⟩)
              obtain ⟨hsame, hz', hrest⟩ := hz.rejoin hn₂ (.inr ⟨rfl, rfl⟩) hframe'
              refine ⟨h', p :: (nz ++ no'), ?_, ?_, hn'.perm ?_, ?_⟩
              · simp only [Option.bind_eq_bind, Option.bind_some, if_pos hone]
                exact hrun
              · rw [hrest parent hparent, hlink, if_pos rfl]
                exact ⟨hp, (loadInt_congr hsame).trans hbit, nz, no', rfl, hz', ho'⟩
              · exact (node_perm p no' nz rest).symm.trans
                  ((List.perm_append_comm.cons p).append_right rest)
              · intro a ha hne
                rw [hrest a ha, hframe a ha hne]

/-! ## Printing -/

theorem printNumbers2_spec {h : Heap} (b : Nat) : ∀ {t : Trie} {p : Int} {ns : List Int}
    (fuel : Nat) (higherBits : Word), b ≤ 30 → b < fuel → Represents h b t p ns →
      printNumbers2 h fuel p higherBits = some (t.printed higherBits) := by
  induction b with
  | zero =>
      intro t p ns fuel higherBits _ hfuel hr
      obtain ⟨fuel, rfl⟩ := Nat.exists_eq_succ_of_ne_zero (Nat.ne_of_gt hfuel)
      cases t with
      | nil =>
          rw [printNumbers2, if_pos hr.of_nil.1]
          rfl
      | leaf c₀ c₁ =>
          obtain ⟨hp, -, hbit, hzero, hone⟩ := hr
          rw [printNumbers2, if_neg hp, if_pos hbit, hzero, hone]
          rfl
      | node z o => exact hr.elim
  | succ b ih =>
      intro t p ns fuel higherBits hb hfuel hr
      obtain ⟨fuel, rfl⟩ := Nat.exists_eq_succ_of_ne_zero (Nat.ne_of_gt (Nat.zero_lt_of_lt hfuel))
      cases t with
      | nil =>
          rw [printNumbers2, if_pos hr.of_nil.1]
          rfl
      | leaf c₀ c₁ => exact hr.elim
      | node z o =>
          obtain ⟨hp, hbit, nz, no, -, hz, ho⟩ := hr
          have hpos : BitVec.ofNat 32 (b + 1) ≠ 0 := by
            intro heq
            have hnat := congrArg BitVec.toNat heq
            rw [BitVec.toNat_ofNat, Nat.mod_eq_of_lt (by omega)] at hnat
            exact Nat.succ_ne_zero b hnat
          rw [printNumbers2, if_neg hp, hbit, if_neg hpos, ih fuel _ (by omega) (by omega) hz,
            ih fuel _ (by omega) (by omega) ho]
          rfl

/-! ## Runs -/

/-- The heap of the program between two calls. -/
structure Holds (h : Heap) (t : Trie) (ns : List Int) : Prop where
  represents : Represents h MAX_BITS t (h.mem TREE) ns
  nodes : Nodes h ns

theorem start_holds (h : Heap) : Holds (start h) .nil [] := by
  refine ⟨?_, rfl, le_refl _, fun p hp => absurd hp List.not_mem_nil, .nil⟩
  have htree : (start h).mem TREE = NULL := mem_store_self h TREE NULL
  rw [htree]
  exact represents_nil _ _

theorem Holds.addNumber {h : Heap} {t : Trie} {ns : List Int} (hh : Holds h t ns)
    (number : Word) :
    ∃ h' ns', addNumber h number = some h' ∧ Holds h' (t.add number MAX_BITS) ns' := by
  have hns : ns ++ [] = ns := List.append_nil ns
  obtain ⟨h', ns', hrun, hr', hn', -⟩ :=
    addLoop_spec number MAX_BITS [] (le_refl _) hh.represents (by rw [hns]; exact hh.nodes)
      (.inl (by decide))
  rw [List.append_nil] at hn'
  exact ⟨h', ns', hrun, hr', hn'⟩

theorem Holds.printNumbers {h : Heap} {t : Trie} {ns : List Int} (hh : Holds h t ns) :
    printNumbers h = some (t.printed 0) :=
  printNumbers2_spec MAX_BITS 32 0 (le_refl _) (by decide) hh.represents

/-- The tree of the program prints the numbers of a list, none of them `2 ^ 31` times. -/
structure Prints (h : Heap) (t : Trie) (ns : List Int) (numbers : List Word) : Prop where
  holds : Holds h t ns
  valid : t.Valid MAX_BITS
  printed : (t.printed 0).Perm numbers

theorem start_prints (h : Heap) : Prints (start h) .nil [] [] :=
  ⟨start_holds h, Trie.valid_nil _, List.Perm.refl _⟩

theorem Prints.addNumber {h : Heap} {t : Trie} {ns : List Int} {numbers : List Word}
    (hp : Prints h t ns numbers) {number : Word} (hnumber : number.getLsbD 31 = false)
    (hcount : numbers.count number + 1 < 2 ^ 31) :
    ∃ h' t' ns', TinyRadix.addNumber h number = some h' ∧ Prints h' t' ns' (number :: numbers) := by
  obtain ⟨h', ns', hrun, hholds⟩ := hp.holds.addNumber number
  have hroom : (t.printed 0).count (Trie.value number MAX_BITS 0) + 1 < 2 ^ 31 := by
    rw [Trie.value_eq hnumber, hp.printed.count_eq]
    exact hcount
  obtain ⟨hvalid, hperm⟩ := Trie.add_printed number MAX_BITS 0 hp.valid hroom
  rw [Trie.value_eq hnumber] at hperm
  exact ⟨h', _, ns', hrun, hholds, hvalid, hperm.trans (hp.printed.cons number)⟩

/-- All numbers, after those that were added before. -/
theorem Prints.run (numbers : List Word) : ∀ {h : Heap} {t : Trie} {ns : List Int}
    {before : List Word}, Prints h t ns before → (∀ v ∈ numbers, v.getLsbD 31 = false) →
      (∀ v, (numbers ++ before).count v < 2 ^ 31) →
      ∃ h' t' ns', numbers.foldlM TinyRadix.addNumber h = some h' ∧
        Prints h' t' ns' (numbers.reverse ++ before) := by
  induction numbers with
  | nil =>
      intro h t ns before hp _ _
      exact ⟨h, t, ns, rfl, hp⟩
  | cons number numbers ih =>
      intro h t ns before hp hnonneg hcount
      have hnumber := hcount number
      rw [List.cons_append, List.count_cons_self, List.count_append] at hnumber
      obtain ⟨h₁, t₁, ns₁, hstep, hp₁⟩ :=
        hp.addNumber (hnonneg number List.mem_cons_self) (by omega)
      obtain ⟨h', t', ns', hrun, hp'⟩ :=
        ih hp₁ (fun v hv => hnonneg v (List.mem_cons_of_mem number hv)) (by
          intro v
          rw [List.perm_middle.count_eq]
          exact hcount v)
      refine ⟨h', t', ns', ?_, ?_⟩
      · rw [List.foldlM_cons, hstep]
        exact hrun
      · rw [List.reverse_cons, List.append_assoc]
        exact hp'

/-- The same number again and again. -/
theorem Holds.zeros (n : Nat) : ∀ {h : Heap} {c : Word} {ns : List Int},
    Holds h (Trie.zeros c MAX_BITS) ns →
    ∃ h' ns', (List.replicate n 0).foldlM TinyRadix.addNumber h = some h' ∧
      Holds h' (Trie.zeros (c + BitVec.ofNat 32 n) MAX_BITS) ns' := by
  induction n with
  | zero =>
      intro h c ns hh
      refine ⟨h, ns, rfl, ?_⟩
      rw [show c + BitVec.ofNat 32 0 = c by simp]
      exact hh
  | succ n ih =>
      intro h c ns hh
      obtain ⟨h₁, ns₁, hstep, hh₁⟩ := hh.addNumber 0
      rw [Trie.add_zeros] at hh₁
      obtain ⟨h', ns', hrun, hh'⟩ := ih hh₁
      refine ⟨h', ns', ?_, ?_⟩
      · rw [List.replicate_succ, List.foldlM_cons, hstep]
        exact hrun
      · have hsum : c + BitVec.ofNat 32 (n + 1) = c + 1 + BitVec.ofNat 32 n := by
          rw [BitVec.ofNat_add, BitVec.add_comm (BitVec.ofNat 32 n), BitVec.add_assoc]
          rfl
        rw [hsum]
        exact hh'

/-! ## How far the heap goes -/

/-- A number as far as the heap stays below 2^32. -/
def addNumber32 (h : Heap) (number : Word) : Option Heap :=
  (addNumber h number).filter fun h' => Below h'

/-- The heap that the numbers need ends below 2^32. -/
def HeapFits (h : Heap) (numbers : List Word) : Prop :=
  ∀ h', numbers.foldlM addNumber (start h) = some h' → Below h'

theorem clearHeaders_freeSpace (h : Heap) : (TinyRiscv.clearHeaders h).freeSpace = h.freeSpace := by
  rw [TinyRiscv.clearHeaders]
  split <;> rfl

/-- A chunk of nodes takes 160 bytes. -/
theorem allocate_grows {h h' : Heap} {p : Int} (hrun : TinyRiscv.allocate h nodeSize = some (p, h')) :
    Grows 160 h h' := by
  have hclear := clearHeaders_freeSpace h
  have hone : ¬nodeSize.toInt < 1 := by decide
  have hbig : ¬Heap.numSize (Heap.blockSize nodeSize) ≥ Heap.NUM_SIZES := by decide
  have hnonneg : ¬Heap.numSize (Heap.blockSize nodeSize) < 0 := by decide
  have hchunk : (Heap.chunkSize (Heap.blockSize nodeSize)).toInt = 160 := by decide
  unfold TinyRiscv.allocate at hrun
  simp only [if_neg hone, if_neg hbig, if_neg hnonneg] at hrun
  have hgrows := Heap.taken_grows hchunk (by decide) hrun
  rw [Grows, hclear] at hgrows
  exact hgrows

theorem getNode_grows {h h' : Heap} {parent p : Int} {b : Nat}
    (hrun : getNode h parent b = some (p, h')) : Grows 160 h h' := by
  rw [getNode] at hrun
  split at hrun
  case isTrue =>
    obtain ⟨⟨q, h₁⟩, hallocate, hrest⟩ := Option.bind_eq_some_iff.mp hrun
    cases hrest
    have hgrows := allocate_grows hallocate
    exact hgrows
  case isFalse =>
    cases hrun
    exact (Grows.refl h).mono (by decide)

theorem addLoop_grows {number : Word} (b : Nat) : ∀ {h h' : Heap} {parent : Int},
    addLoop number b h parent = some h' → Grows (160 * (b + 1)) h h' := by
  induction b with
  | zero =>
      intro h h' parent hrun
      obtain ⟨⟨p, h₁⟩, hget, hrest⟩ := Option.bind_eq_some_iff.mp hrun
      cases hrest
      have hgrows := getNode_grows hget
      exact hgrows
  | succ b ih =>
      intro h h' parent hrun
      obtain ⟨⟨p, h₁⟩, hget, hrest⟩ := Option.bind_eq_some_iff.mp hrun
      refine ((getNode_grows hget).trans (ih hrest)).mono ?_
      push_cast
      omega

theorem addNumber_grows {h h' : Heap} {number : Word} (hrun : addNumber h number = some h') :
    Grows 4960 h h' := addLoop_grows MAX_BITS hrun

theorem foldlM_grows (numbers : List Word) : ∀ {h h' : Heap},
    numbers.foldlM addNumber h = some h' → Grows (4960 * numbers.length) h h' := by
  induction numbers with
  | nil =>
      intro h h' hrun
      cases hrun
      exact .refl h
  | cons number numbers ih =>
      intro h h' hrun
      obtain ⟨h₁, hstep, hrest⟩ := Transition.run_cons.mp hrun
      refine ((addNumber_grows hstep).trans (ih hrest)).mono ?_
      rw [List.length_cons]
      push_cast
      omega

/-- So many numbers fit, whatever they are. -/
theorem HeapFits.of_length (h : Heap) {numbers : List Word} (hlength : numbers.length ≤ 859155) :
    HeapFits h numbers := by
  intro h' hrun
  obtain ⟨-, hup⟩ := foldlM_grows numbers hrun
  have hstart : (start h).freeSpace = 33554432 := rfl
  rw [Below]
  omega

/-- The heap never goes back, so that numbers which fit are below 2^32 all the time. -/
theorem HeapFits.run32 {h h' : Heap} {numbers : List Word} (hfits : HeapFits h numbers)
    (hrun : numbers.foldlM addNumber (start h) = some h') :
    numbers.foldlM addNumber32 (start h) = some h' :=
  Transition.run_filter (I := fun _ => True) Below
    (fun _ _ _ _ hstep => ⟨trivial, (addNumber_grows hstep).below⟩) trivial hrun (hfits h' hrun)

end CompSys.TinyRadix
