import CompSys.RadixAdd
import CompSys.RadixTake

/-!
# Ownership of the nodes of the radix tree

The nodes that can be reached from `tree` are the live blocks of the heap, each
at the end of one path. `release_tree` releases each of them once.
-/
namespace CompSys.Radix

open Heap (NULL)

/-! ## Releasing the tree -/

theorem releaseTree_spec (t : Tree) :
    ∀ {fuel : Nat} {s : Store} {p : Int} {k : Nat} {ns rest : List Int},
      k < fuel → k ≤ 30 → t.Bounded k → Nodes s (ns ++ rest) → Represents s t p ns →
      ∃ (s' : Store) (released : List Int), releaseTree fuel s p = some s' ∧
        s'.events = released.map HeapEvent.released ++ s.events ∧ released.Perm ns ∧
        Nodes s' rest ∧ ∀ a, Fields rest a → s'.ptr a = s.ptr a := by
  induction t with
  | nil =>
      intro fuel s p k ns rest hfuel _ _ hnodes h
      obtain ⟨fuel, rfl⟩ := Nat.exists_eq_succ_of_ne_zero (Nat.ne_of_gt (Nat.zero_lt_of_lt hfuel))
      obtain ⟨rfl, rfl⟩ := h
      exact ⟨s, [], by simp [releaseTree], rfl, List.Perm.refl [], hnodes, fun a _ => rfl⟩
  | leaf m c₀ c₁ =>
      intro fuel s p k ns rest hfuel _ _ hnodes h
      obtain ⟨fuel, rfl⟩ := Nat.exists_eq_succ_of_ne_zero (Nat.ne_of_gt (Nat.zero_lt_of_lt hfuel))
      obtain ⟨hp, rfl, hbit, -⟩ := h
      have hleaf : ¬(s.int p).toInt > 1 := by
        rw [hbit]
        decide
      obtain ⟨s', hrun, hnodes', hevents, hframe⟩ := Nodes.release hnodes
      refine ⟨s', [p], ?_, hevents, List.Perm.refl [p], hnodes', ?_⟩
      · rw [releaseTree]
        simp only [ne_eq, hp, not_false_eq_true, hleaf, ↓reduceIte]
        exact hrun
      · intro a ha
        exact hframe a (ha.mono fun x hx => List.mem_cons_of_mem p hx)
  | node l m z o ihz iho =>
      intro fuel s p k ns rest hfuel hk ht hnodes h
      obtain ⟨hl, hlk, hbz, hbo⟩ := ht
      obtain ⟨fuel, rfl⟩ := Nat.exists_eq_succ_of_ne_zero (Nat.ne_of_gt (Nat.zero_lt_of_lt hfuel))
      have hdeeper : l - 1 < fuel := by omega
      obtain ⟨hp, hbit, -, nz, no, rfl, hz, ho⟩ := h
      have hinterior : (s.int p).toInt > 1 := by
        rw [hbit]
        exact one_lt_bit hl (by omega)
      have hsub := Subtree.side hnodes hz (i := 8) (by decide) (by decide)
      obtain ⟨s₁, rz, hrun₁, hevents₁, hperm₁, hnodes₁, hframe₁⟩ :=
        ihz hdeeper (by omega) hbz hsub.nodes hz
      have hone : s₁.ptr (p + 12) = s.ptr (p + 12) :=
        hframe₁ _ (Or.inr ⟨p, List.mem_cons_self, by omega, by omega⟩)
      have ho₁ : Represents s₁ o (s₁.ptr (p + 12)) no := by
        rw [hone]
        refine ho.congr fun q hq a hle hlt => hframe₁ a ?_
        exact Or.inr ⟨q, List.mem_cons_of_mem p (List.mem_append_left rest hq), hle, hlt⟩
      obtain ⟨s₂, ro, hrun₂, hevents₂, hperm₂, hnodes₂, hframe₂⟩ :=
        iho hdeeper (by omega) hbo (hnodes₁.perm List.perm_middle.symm) ho₁
      obtain ⟨s₃, hrun₃, hnodes₃, hevents₃, hframe₃⟩ := hnodes₂.release
      refine ⟨s₃, p :: (ro ++ rz), ?_, ?_, ?_, hnodes₃, ?_⟩
      · rw [releaseTree]
        simp only [ne_eq, hp, not_false_eq_true, hinterior, hrun₁, hrun₂, Option.bind_eq_bind,
          Option.bind_some, ↓reduceIte]
        exact hrun₃
      · rw [hevents₃, hevents₂, hevents₁]
        simp
      · exact ((hperm₂.append hperm₁).trans List.perm_append_comm).cons p
      · intro a ha
        have hcons : Fields (p :: rest) a := ha.mono fun x hx => List.mem_cons_of_mem p hx
        have hall : Fields (p :: (no ++ rest)) a := by
          refine ha.mono fun x hx => List.mem_cons_of_mem p (List.mem_append_right no hx)
        rw [hframe₃ a hcons, hframe₂ a hcons, hframe₁ a hall]

/-! ## Paths -/

/-- Following the path from the node at `q`, one side at a time, ends at the node `p`. -/
def Leads (s : Store) : Int → List Bool → Int → Prop
  | q, [], p => q ≠ NULL ∧ p = q
  | q, one :: path, p => q ≠ NULL ∧ (s.int q).toInt > 1 ∧
      Leads s (s.ptr (if one then q + 12 else q + 8)) path p

/-- The nodes that hold a tree are those some path leads to. -/
theorem Represents.mem_iff {s : Store} {t : Tree} {p : Int} : ∀ {k : Nat} {q : Int} {ns : List Int},
    k ≤ 30 → t.Bounded k → Represents s t q ns → (p ∈ ns ↔ ∃ path, Leads s q path p) := by
  induction t with
  | nil =>
      intro k q ns _ _ h
      obtain ⟨rfl, rfl⟩ := h
      constructor
      · intro hp
        cases hp
      · rintro ⟨path, hpath⟩
        cases path with
        | nil => exact absurd rfl hpath.1
        | cons one path => exact absurd rfl hpath.1
  | leaf m c₀ c₁ =>
      intro k q ns _ _ h
      obtain ⟨hq, rfl, hbit, -⟩ := h
      have hleaf : ¬(s.int q).toInt > 1 := by
        rw [hbit]
        decide
      constructor
      · intro hp
        exact ⟨[], hq, List.mem_singleton.mp hp⟩
      · rintro ⟨path, hpath⟩
        cases path with
        | nil => exact List.mem_singleton.mpr hpath.2
        | cons one path => exact absurd hpath.2.1 hleaf
  | node l m z o ihz iho =>
      intro k q ns hk ht h
      obtain ⟨hl, hlk, hbz, hbo⟩ := ht
      obtain ⟨hq, hbit, -, nz, no, rfl, hz, ho⟩ := h
      have hinterior : (s.int q).toInt > 1 := by
        rw [hbit]
        exact one_lt_bit hl (by omega)
      have hzero := ihz (by omega) hbz hz
      have hone := iho (by omega) hbo ho
      rw [List.mem_cons, List.mem_append, hzero, hone]
      constructor
      · rintro (rfl | ⟨path, hpath⟩ | ⟨path, hpath⟩)
        · exact ⟨[], hq, rfl⟩
        · exact ⟨false :: path, hq, hinterior, hpath⟩
        · exact ⟨true :: path, hq, hinterior, hpath⟩
      · rintro ⟨path, hpath⟩
        cases path with
        | nil => exact Or.inl hpath.2
        | cons one path =>
            cases one with
            | false => exact Or.inr (Or.inl ⟨path, hpath.2.2⟩)
            | true => exact Or.inr (Or.inr ⟨path, hpath.2.2⟩)

/-- Two paths to one node are the same: the sides of a node share no node. -/
theorem Represents.path_unique {s : Store} {t : Tree} {p : Int} :
    ∀ {k : Nat} {q : Int} {ns : List Int}, k ≤ 30 → t.Bounded k → Represents s t q ns → ns.Nodup →
      ∀ path path', Leads s q path p → Leads s q path' p → path = path' := by
  induction t with
  | nil =>
      intro k q ns _ _ h _ path path' hpath _
      cases path with
      | nil => exact absurd h.1 hpath.1
      | cons one path => exact absurd h.1 hpath.1
  | leaf m c₀ c₁ =>
      intro k q ns _ _ h _ path path' hpath hpath'
      obtain ⟨hq, rfl, hbit, -⟩ := h
      have hleaf : ¬(s.int q).toInt > 1 := by
        rw [hbit]
        decide
      cases path with
      | cons one path => exact absurd hpath.2.1 hleaf
      | nil =>
          cases path' with
          | cons one path' => exact absurd hpath'.2.1 hleaf
          | nil => rfl
  | node l m z o ihz iho =>
      intro k q ns hk ht h hnodup path path' hpath hpath'
      obtain ⟨hl, hlk, hbz, hbo⟩ := ht
      obtain ⟨hq, hbit, -, nz, no, rfl, hz, ho⟩ := h
      obtain ⟨hnotin, hsides⟩ := List.nodup_cons.mp hnodup
      obtain ⟨hnz, hno, hdisjoint⟩ := List.nodup_append.mp hsides
      have hzero := Represents.mem_iff (p := p) (by omega) hbz hz
      have hone := Represents.mem_iff (p := p) (by omega) hbo ho
      -- the side a nonempty path takes decides which nodes it can end at
      have hside : ∀ one path, Leads s q (one :: path) p → if one then p ∈ no else p ∈ nz := by
        intro one path h
        cases one with
        | false => exact hzero.mpr ⟨path, h.2.2⟩
        | true => exact hone.mpr ⟨path, h.2.2⟩
      have hroot : ∀ one path, Leads s q (one :: path) p → p ≠ q := by
        intro one path h heq
        have hin := hside one path h
        rw [heq] at hin
        cases one with
        | false => exact hnotin (List.mem_append_left no hin)
        | true => exact hnotin (List.mem_append_right nz hin)
      cases path with
      | nil =>
          cases path' with
          | nil => rfl
          | cons one path' => exact absurd hpath.2 (hroot one path' hpath')
      | cons one path =>
          cases path' with
          | nil => exact absurd hpath'.2 (hroot one path hpath)
          | cons one' path' =>
              have hin := hside one path hpath
              have hin' := hside one' path' hpath'
              cases one <;> cases one'
              · rw [ihz (by omega) hbz hz hnz path path' hpath.2.2 hpath'.2.2]
              · exact absurd rfl (hdisjoint p hin p hin')
              · exact absurd rfl (hdisjoint p hin' p hin)
              · rw [iho (by omega) hbo ho hno path path' hpath.2.2 hpath'.2.2]

/-! ## Runs -/

inductive TreeCall where
  | addNumber (number : Word)
  | takeNumbers (maxNums : Word)
deriving DecidableEq

def call (s : Store) : TreeCall → Option Store
  | .addNumber number => addNumber s number
  | .takeNumbers maxNums => (takeNumbers s maxNums).map Prod.fst

/-- Between calls the nodes that hold the tree are all the live blocks there are. -/
structure Holds (s : Store) (t : Tree) (ns : List Int) : Prop where
  subtree : Subtree s t TREE ns []
  bounded : t.Bounded 30

theorem start_holds (h : Heap) : Holds (start h) .nil [] := by
  refine ⟨⟨⟨?_, List.Perm.refl [], trivial⟩, ⟨?_, rfl⟩, Or.inl (by decide)⟩, trivial⟩
  · exact Heap.initHeap_wellFormed _ (by decide)
  · simp [start, Store.ptr, Heap.initHeap, Heap.store]

theorem Holds.addNumber {s : Store} {t : Tree} {ns : List Int} (h : Holds s t ns) (number : Word) :
    ∃ s' ns', addNumber s number = some s' ∧ Holds s' (t.add number 30) ns' := by
  have hmax : MAX_BITS = bit 30 := by decide
  have hfuel : 30 + 1 < 32 := by decide
  obtain ⟨s', ns', hrun, hsub, -⟩ :=
    addLoop_spec number t hfuel (by decide) h.bounded h.subtree
  refine ⟨s', ns', ?_, hsub, t.add_bounded number 30 (by decide) h.bounded⟩
  rw [Radix.addNumber, hmax, hrun]

theorem Holds.takeNumbers {s : Store} {t : Tree} {ns : List Int} (h : Holds s t ns)
    (maxNums : Word) :
    ∃ s' ns', takeNumbers s maxNums = some (s', (t.take maxNums.toInt.toNat).1) ∧
      Holds s' (t.take maxNums.toInt.toNat).2 ns' := by
  have hfuel : 30 < 32 := by decide
  have hroom : room [] maxNums.toInt = maxNums.toInt.toNat := by simp [room]
  obtain ⟨s', ns', hrun, hsub, -⟩ :=
    takeNumbers2_spec maxNums.toInt t [] hfuel (by decide) h.bounded h.subtree
  rw [hroom] at hrun hsub
  exact ⟨s', ns', hrun, hsub, t.take_bounded _ 30 h.bounded⟩

theorem Holds.call {s : Store} {t : Tree} {ns : List Int} (h : Holds s t ns) (c : TreeCall) :
    ∃ s' t' ns', call s c = some s' ∧ Holds s' t' ns' := by
  cases c with
  | addNumber number =>
      obtain ⟨s', ns', hrun, h'⟩ := h.addNumber number
      exact ⟨s', _, ns', hrun, h'⟩
  | takeNumbers maxNums =>
      obtain ⟨s', ns', hrun, h'⟩ := h.takeNumbers maxNums
      exact ⟨s', _, ns', by rw [Radix.call, hrun]; rfl, h'⟩

theorem run_holds (calls : List TreeCall) : ∀ {s : Store} {t : Tree} {ns : List Int},
    Holds s t ns → ∃ s' t' ns', calls.foldlM call s = some s' ∧ Holds s' t' ns' := by
  induction calls with
  | nil =>
      intro s t ns h
      exact ⟨s, t, ns, rfl, h⟩
  | cons c calls ih =>
      intro s t ns h
      obtain ⟨s₁, t₁, ns₁, hcall, h₁⟩ := h.call c
      obtain ⟨s₂, t₂, ns₂, hrun, h₂⟩ := ih h₁
      refine ⟨s₂, t₂, ns₂, ?_, h₂⟩
      rw [List.foldlM_cons, hcall]
      exact hrun

theorem Holds.live {s : Store} {t : Tree} {ns : List Int} (h : Holds s t ns) :
    ((Store.live s.events).map Prod.fst).Perm ns := by
  have hperm := h.subtree.nodes.live.map Prod.fst
  rwa [List.append_nil, map_fst_blocks] at hperm

/-- The live blocks are the nodes of the tree, each at the end of exactly one path, nothing was
released that was not live, and `release_tree` releases each once and leaves none. -/
structure NoLeak (s : Store) : Prop where
  nodup : ((Store.live s.events).map Prod.fst).Nodup
  reached : ∀ p, p ∈ (Store.live s.events).map Prod.fst ↔ ∃ path, Leads s (s.ptr TREE) path p
  unique : ∀ p path path', Leads s (s.ptr TREE) path p → Leads s (s.ptr TREE) path' p → path = path'
  releases : ReleasesLive s.events
  released : ∃ (s' : Store) (released : List Int), releaseTree 32 s (s.ptr TREE) = some s' ∧
    s'.events = released.map HeapEvent.released ++ s.events ∧
    released.Perm ((Store.live s.events).map Prod.fst) ∧ ReleasesLive s'.events ∧
    Store.live s'.events = []

theorem Holds.noLeak {s : Store} {t : Tree} {ns : List Int} (hs : Holds s t ns) : NoLeak s := by
  have hlive := hs.live
  have hnodup : ns.Nodup := by
    have hall := hs.subtree.nodes.apart.nodup
    rwa [List.append_nil] at hall
  have hrep := hs.subtree.represents
  have hfuel : 30 < 32 := by decide
  obtain ⟨s', released, hrelease, hevents, hperm, hnodes, -⟩ :=
    releaseTree_spec t hfuel (by decide) hs.bounded hs.subtree.nodes hrep
  refine ⟨hlive.nodup_iff.mpr hnodup, ?_, ?_, hs.subtree.nodes.releases, s', released,
    hrelease, hevents, hperm.trans hlive.symm, hnodes.releases, ?_⟩
  · intro p
    rw [hlive.mem_iff]
    exact hrep.mem_iff (by decide) hs.bounded
  · intro p path path'
    exact hrep.path_unique (by decide) hs.bounded hnodup path path'
  · exact hnodes.live.eq_nil

end CompSys.Radix
