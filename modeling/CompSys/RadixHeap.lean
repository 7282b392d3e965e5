import CompSys.HeapClient
import CompSys.RadixTree

/-!
# The radix tree in the heap

A tree is represented by the nodes that hold it. Each operation of `radix.c`
takes the representation of a tree to the representation of the tree that the
operation on values gives, and leaves every other live node alone.
-/
namespace CompSys.Radix

open Heap

/-! ## Nodes as live blocks -/

def blocks (ns : List Int) : Live := ns.map fun p => (p, nodeSize)

theorem mem_blocks {ns : List Int} {p : Int} {size : Word} :
    (p, size) ∈ blocks ns ↔ p ∈ ns ∧ size = nodeSize := by
  simp [blocks, eq_comm]

theorem map_fst_blocks (ns : List Int) : (blocks ns).map Prod.fst = ns := by
  rw [blocks, List.map_map]
  exact List.map_id ns

/-- The words below the heap and the fields of the nodes `ns`. -/
def Fields (ns : List Int) (a : Int) : Prop := a < heapStart ∨ ∃ q ∈ ns, q ≤ a ∧ a < q + 16

theorem owned_blocks {ns : List Int} {a : Int} :
    Owned heapStart (blocks ns) a ↔ Fields ns a := by
  have hsize : nodeSize.toInt = 16 := by decide
  constructor
  · rintro (hbelow | ⟨p, size, hp, hle, hlt⟩)
    · exact Or.inl hbelow
    · obtain ⟨hin, rfl⟩ := mem_blocks.mp hp
      rw [hsize] at hlt
      exact Or.inr ⟨p, hin, hle, hlt⟩
  · rintro (hbelow | ⟨q, hq, hle, hlt⟩)
    · exact Or.inl hbelow
    · refine Or.inr ⟨q, nodeSize, mem_blocks.mpr ⟨hq, rfl⟩, hle, ?_⟩
      rw [hsize]
      exact hlt

theorem Fields.mono {ns ns' : List Int} {a : Int} (h : Fields ns a) (hsub : ∀ q ∈ ns, q ∈ ns') :
    Fields ns' a := by
  rcases h with hbelow | ⟨q, hq, hin⟩
  · exact Or.inl hbelow
  · exact Or.inr ⟨q, hsub q hq, hin⟩

/-- Nothing was released that was not live. -/
def ReleasesLive : List HeapEvent → Prop
  | [] => True
  | .allocated _ _ :: events => ReleasesLive events
  | .released p :: events => p ∈ (Store.live events).map Prod.fst ∧ ReleasesLive events

/-- The live blocks of the heap are the nodes `ns`. -/
structure Nodes (s : Store) (ns : List Int) : Prop where
  wellFormed : WellFormed heapStart s.heap (Store.live s.events)
  live : (Store.live s.events).Perm (blocks ns)
  releases : ReleasesLive s.events

/-- Distinct nodes of 16 bytes, above the start of the heap. -/
structure Apart (ns : List Int) : Prop where
  nodup : ns.Nodup
  above : ∀ p ∈ ns, heapStart < p
  apart : ∀ p ∈ ns, ∀ q ∈ ns, p ≠ q → p + 16 ≤ q ∨ q + 16 ≤ p

namespace Nodes

variable {s : Store} {ns : List Int}

theorem perm {ns' : List Int} (h : Nodes s ns) (hperm : ns.Perm ns') : Nodes s ns' :=
  ⟨h.wellFormed, h.live.trans (hperm.map _), h.releases⟩

theorem apart (h : Nodes s ns) : Apart ns := by
  have hw := h.wellFormed.perm h.live
  obtain ⟨layout, hs⟩ := hw
  have hsize : nodeSize.toInt = 16 := by decide
  constructor
  case nodup =>
    have hnodup := hs.live_nodup
    rwa [map_fst_blocks] at hnodup
  case above =>
    intro p hp
    obtain ⟨n, hn⟩ := hs.holds p nodeSize (mem_blocks.mpr ⟨hp, rfl⟩)
    have hcarved := hs.carved _ n hn.cls
    omega
  case apart =>
    intro p hp q hq hne
    obtain ⟨n, hn⟩ := hs.holds p nodeSize (mem_blocks.mpr ⟨hp, rfl⟩)
    obtain ⟨n', hn'⟩ := hs.holds q nodeSize (mem_blocks.mpr ⟨hq, rfl⟩)
    have happart := hs.apart_or_eq hn.cls hn'.cls
    have hfits := hn.fits
    have hfits' := hn'.fits
    omega

/-- Writing a field, or below the heap. -/
theorem store (h : Nodes s ns) {a : Int} (ha : Fields ns a) (v : Int) : Nodes (s.store a v) ns := by
  have hw := write_spec (h.wellFormed.perm h.live) (owned_blocks.mpr ha) v
  exact ⟨hw.perm h.live.symm, h.live, h.releases⟩

theorem allocate (h : Nodes s ns) :
    ∃ p s', s.allocate nodeSize = some (p, s') ∧ p ≠ NULL ∧ Nodes s' (p :: ns) ∧
      s'.events = .allocated p nodeSize :: s.events ∧
      ∀ a, Fields ns a → s'.ptr a = s.ptr a := by
  obtain ⟨p, s', hrun, hw, hframe, hnull | hnew⟩ :=
    allocate_wellFormed h.wellFormed nodeSize (by decide)
  · exact absurd (by decide) hnull.2.2
  · refine ⟨p, s', hrun, hnew.1, ⟨hw, ?_, ?_⟩, hnew.2, ?_⟩
    · rw [hnew.2, Store.live]
      exact h.live.cons (p, nodeSize)
    · rw [hnew.2, ReleasesLive]
      exact h.releases
    · intro a ha
      apply hframe
      rcases owned_blocks.mpr ha with hbelow | ⟨q, size, hq, hin⟩
      · exact Or.inl hbelow
      · exact Or.inr ⟨q, size, h.live.mem_iff.mpr hq, hin⟩

theorem release {p : Int} (h : Nodes s (p :: ns)) :
    ∃ s', s.release p = some s' ∧ Nodes s' ns ∧ s'.events = .released p :: s.events ∧
      ∀ a, Fields (p :: ns) a → s'.ptr a = s.ptr a := by
  have hin : p ∈ (Store.live s.events).map Prod.fst := by
    have hblock : (p, nodeSize) ∈ Store.live s.events :=
      h.live.mem_iff.mpr (mem_blocks.mpr ⟨List.mem_cons_self, rfl⟩)
    exact List.mem_map_of_mem hblock
  obtain ⟨s', hrun, hw, hevents, hframe⟩ := release_wellFormed h.wellFormed hin
  refine ⟨s', hrun, ⟨hw, ?_, by rw [hevents]; exact ⟨hin, h.releases⟩⟩, hevents, ?_⟩
  · have hnodup := h.wellFormed.choose_spec.live_nodup
    have hns : (p :: ns).Nodup := h.apart.nodup
    rw [List.nodup_cons] at hns
    have hblocks : (blocks ns).Nodup := hns.2.map fun q q' heq => (Prod.mk.inj heq).1
    rw [hevents, Store.live]
    refine (List.perm_ext_iff_of_nodup ((hnodup.of_map _).sublist List.eraseP_sublist) hblocks).mpr ?_
    rintro ⟨q, size⟩
    rw [mem_eraseP_key hnodup, h.live.mem_iff, mem_blocks, mem_blocks, List.mem_cons]
    constructor
    · rintro ⟨⟨rfl | hq, hsize⟩, hne⟩
      · exact absurd rfl hne
      · exact ⟨hq, hsize⟩
    · rintro ⟨hq, hsize⟩
      refine ⟨⟨Or.inr hq, hsize⟩, ?_⟩
      rintro rfl
      exact hns.1 hq
  · intro a ha
    apply hframe
    rcases owned_blocks.mpr ha with hbelow | ⟨q, size, hq, hin⟩
    · exact Or.inl hbelow
    · exact Or.inr ⟨q, size, h.live.mem_iff.mpr hq, hin⟩

theorem storeInt (h : Nodes s ns) {a : Int} (ha : Fields ns a) (v : Word) :
    Nodes (s.storeInt a v) ns := h.store ha v.toInt

end Nodes

/-- A field of other nodes lies outside a node. -/
theorem Apart.outside {p a : Int} {ns : List Int} (h : Apart (p :: ns)) (ha : Fields ns a) :
    a < p ∨ p + 16 ≤ a := by
  have habove := h.above p List.mem_cons_self
  rcases ha with hbelow | ⟨q, hq, hle, hlt⟩
  · omega
  · have hne : p ≠ q := by
      rintro rfl
      exact (List.nodup_cons.mp h.nodup).1 hq
    have := h.apart p List.mem_cons_self q (List.mem_cons_of_mem p hq) hne
    omega

theorem Apart.separate {q a : Int} {ns rest : List Int} (h : Apart (ns ++ rest)) (hq : q ∈ ns)
    (ha : Fields rest a) : a < q ∨ q + 16 ≤ a := by
  have habove := h.above q (List.mem_append_left rest hq)
  rcases ha with hbelow | ⟨r, hr, hle, hlt⟩
  · omega
  · have hne : q ≠ r := by
      rintro rfl
      exact (List.nodup_append.mp h.nodup).2.2 q hq q hr rfl
    have := h.apart q (List.mem_append_left rest hq) r (List.mem_append_right ns hr) hne
    omega

/-! ## Representation -/

/-- The pointer `p` leads to the tree, held by exactly the nodes listed. -/
def Represents (s : Store) : Tree → Int → List Int → Prop
  | .nil, p, ns => p = NULL ∧ ns = []
  | .leaf m c₀ c₁, p, ns => p ≠ NULL ∧ ns = [p] ∧ s.int p = bit 0 ∧ s.int (p + 4) = m ∧
      s.int (p + 8) = c₀ ∧ s.int (p + 12) = c₁
  | .node l m z o, p, ns => p ≠ NULL ∧ s.int p = bit l ∧ s.int (p + 4) = m ∧
      ∃ nz no, ns = p :: (nz ++ no) ∧ Represents s z (s.ptr (p + 8)) nz ∧
        Represents s o (s.ptr (p + 12)) no

theorem Represents.congr {s s' : Store} {t : Tree} : ∀ {p : Int} {ns : List Int},
    Represents s t p ns → (∀ q ∈ ns, ∀ a, q ≤ a → a < q + 16 → s'.ptr a = s.ptr a) →
    Represents s' t p ns := by
  induction t with
  | nil =>
      intro p ns h _
      exact h
  | leaf m c₀ c₁ =>
      intro p ns h hsame
      obtain ⟨hp, rfl, hbit, hnumber, hzero, hone⟩ := h
      have hint : ∀ i, 0 ≤ i → i < 16 → s'.int (p + i) = s.int (p + i) := by
        intro i hi hi'
        rw [Store.int_eq, Store.int_eq, hsame p List.mem_cons_self _ (by omega) (by omega)]
      refine ⟨hp, rfl, ?_, ?_, ?_, ?_⟩
      · simpa [hbit] using hint 0 (by decide) (by decide)
      · rw [hint 4 (by decide) (by decide), hnumber]
      · rw [hint 8 (by decide) (by decide), hzero]
      · rw [hint 12 (by decide) (by decide), hone]
  | node l m z o ihz iho =>
      intro p ns h hsame
      obtain ⟨hp, hbit, hnumber, nz, no, rfl, hz, ho⟩ := h
      have hptr : ∀ i, 0 ≤ i → i < 16 → s'.ptr (p + i) = s.ptr (p + i) := by
        intro i hi hi'
        exact hsame p List.mem_cons_self _ (by omega) (by omega)
      have hint : ∀ i, 0 ≤ i → i < 16 → s'.int (p + i) = s.int (p + i) := by
        intro i hi hi'
        rw [Store.int_eq, Store.int_eq, hptr i hi hi']
      refine ⟨hp, ?_, ?_, nz, no, rfl, ?_, ?_⟩
      · simpa [hbit] using hint 0 (by decide) (by decide)
      · rw [hint 4 (by decide) (by decide), hnumber]
      · rw [hptr 8 (by decide) (by decide)]
        exact ihz hz fun q hq => hsame q (by simp [hq])
      · rw [hptr 12 (by decide) (by decide)]
        exact iho ho fun q hq => hsame q (by simp [hq])

theorem Represents.eq_null_iff {s : Store} {t : Tree} {p : Int} {ns : List Int}
    (h : Represents s t p ns) : p = NULL ↔ t = .nil := by
  cases t with
  | nil => simp [h.1]
  | leaf m c₀ c₁ => simp [h.1]
  | node l m z o => simp [h.1]

/-- The word at `parent`, which belongs to the other live nodes `rest` or is `tree`, leads
to the tree held by `ns`. -/
structure Subtree (s : Store) (t : Tree) (parent : Int) (ns rest : List Int) : Prop where
  nodes : Nodes s (ns ++ rest)
  represents : Represents s t (s.ptr parent) ns
  parent : Fields rest parent

/-- Nothing outside the subtree changed but the pointer to it. -/
def Frame (s s' : Store) (parent : Int) (rest : List Int) : Prop :=
  ∀ a, Fields rest a → a ≠ parent → s'.ptr a = s.ptr a

/-! ## Creating a leaf -/

theorem createLeaf_spec {s : Store} {ns : List Int} (h : Nodes s ns) (number : Word) :
    ∃ p s', createLeaf s number = some (p, s') ∧ Nodes s' (p :: ns) ∧
      Represents s' (.single number) p [p] ∧ ∀ a, Fields ns a → s'.ptr a = s.ptr a := by
  obtain ⟨p, s₁, hrun, hp, hnodes, -, hframe⟩ := h.allocate
  have hfield : ∀ i, 0 ≤ i → i < 16 → Fields (p :: ns) (p + i) := by
    intro i hi hi'
    exact Or.inr ⟨p, List.mem_cons_self, by omega, by omega⟩
  refine ⟨p, _, by rw [createLeaf, hrun]; rfl, ?_, ?_, ?_⟩
  · have hbit : Fields (p :: ns) p := by simpa using hfield 0 (by decide) (by decide)
    exact (((hnodes.storeInt hbit _).storeInt (hfield 4 (by decide) (by decide)) _).storeInt
      (hfield 8 (by decide) (by decide)) _).storeInt (hfield 12 (by decide) (by decide)) _
  · refine ⟨hp, rfl, ?_, ?_, ?_, ?_⟩
    · rw [Store.int_storeInt_of_ne _ _ (by omega), Store.int_storeInt_of_ne _ _ (by omega),
        Store.int_storeInt_of_ne _ _ (by omega), Store.int_storeInt_self]
      rfl
    · rw [Store.int_storeInt_of_ne _ _ (by omega), Store.int_storeInt_of_ne _ _ (by omega),
        Store.int_storeInt_self]
    · rw [Store.int_storeInt_of_ne _ _ (by omega), Store.int_storeInt_self]
    · rw [Store.int_storeInt_self]
  · intro a ha
    have hout := hnodes.apart.outside ha
    rw [Store.ptr_storeInt_of_ne _ _ (by omega), Store.ptr_storeInt_of_ne _ _ (by omega),
      Store.ptr_storeInt_of_ne _ _ (by omega), Store.ptr_storeInt_of_ne _ _ (by omega), hframe a ha]

/-! ## Descending into a node -/

/-- The subtree at a side of a node, with the node and its other side among the rest. -/
theorem Subtree.side {s : Store} {t : Tree} {p i : Int} {nt nu rest : List Int}
    (hnodes : Nodes s (p :: (nt ++ nu) ++ rest)) (ht : Represents s t (s.ptr (p + i)) nt)
    (hi : 0 ≤ i) (hi' : i < 16) :
    Subtree s t (p + i) nt (p :: (nu ++ rest)) := by
  refine ⟨hnodes.perm ?_, ht, Or.inr ⟨p, List.mem_cons_self, by omega, by omega⟩⟩
  rw [List.cons_append, List.append_assoc]
  exact List.perm_middle.symm

/-- After an operation on the side at offset `i`, the rest of the node is as it was. -/
theorem Subtree.rejoin {s s' : Store} {t t' u : Tree} {p i j : Int} {nt nt' nu rest : List Int}
    (h : Subtree s t (p + i) nt (p :: (nu ++ rest)))
    (h' : Subtree s' t' (p + i) nt' (p :: (nu ++ rest)))
    (hframe : Frame s s' (p + i) (p :: (nu ++ rest)))
    (hu : Represents s u (s.ptr (p + j)) nu) (hij : i = 8 ∧ j = 12 ∨ i = 12 ∧ j = 8) :
    Nodes s' (p :: (nt' ++ nu) ++ rest) ∧ s'.int p = s.int p ∧ s'.int (p + 4) = s.int (p + 4) ∧
      Represents s' u (s'.ptr (p + j)) nu ∧ ∀ a, Fields rest a → s'.ptr a = s.ptr a := by
  have hnodes : Nodes s (p :: (nu ++ rest) ++ nt) := h.nodes.perm List.perm_append_comm
  have hapart := hnodes.apart
  rw [List.cons_append] at hapart
  have hsame : ∀ a, Fields (nu ++ rest) a → s'.ptr a = s.ptr a := by
    intro a ha
    have hout := hapart.outside (ha.mono fun x hx => List.mem_append_left nt hx)
    exact hframe a (ha.mono fun x hx => List.mem_cons_of_mem p hx) (by omega)
  have hnode : ∀ k, 0 ≤ k → k < 16 → k ≠ i → s'.ptr (p + k) = s.ptr (p + k) := by
    intro k hk hk' hne
    exact hframe _ (Or.inr ⟨p, List.mem_cons_self, by omega, by omega⟩) (by omega)
  refine ⟨h'.nodes.perm ?_, ?_, ?_, ?_, ?_⟩
  · rw [List.cons_append, List.append_assoc]
    exact List.perm_middle
  · have hbit := hnode 0 (by decide) (by decide) (by omega)
    rw [Store.int_eq, Store.int_eq]
    simpa using congrArg (BitVec.ofInt 32) hbit
  · rw [Store.int_eq, Store.int_eq, hnode 4 (by decide) (by decide) (by omega)]
  · rw [hnode j (by omega) (by omega) (by omega)]
    refine hu.congr fun q hq a hle hlt => hsame a ?_
    exact Or.inr ⟨q, List.mem_append_left rest hq, hle, hlt⟩
  · intro a ha
    exact hsame a (ha.mono fun x hx => List.mem_append_right nu hx)

end CompSys.Radix
