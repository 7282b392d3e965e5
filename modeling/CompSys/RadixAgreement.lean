import CompSys.RadixFull
import CompSys.TinyRadixHeap

/-!
# The radix sorters of A5 and A6

Both sorters on the same numbers, each on its heap, which ends below 2^32. The trees have different
shapes; what they hold is the same multiset, and both give it in ascending order.
-/
namespace CompSys.Radix

open SmallestFirst (smallest rest)

/-! ## Taking everything -/

/-- Calls of `take_numbers`, each with a buffer and its room. The caller reads as many places of the
buffer as the call returns. -/
def takeAll : List (Word × Word) → Store → Option (Store × List Word)
  | [], s => some (s, [])
  | (buffer, maxNums) :: calls, s => do
    let (s, count, writes) ← takeNumbers32 s buffer maxNums
    let (s, more) ← takeAll calls s
    return (s, (writes.map Prod.snd).take count.toInt.toNat ++ more)

/-- The buffers end below 2^32 and have room for less than 2^29 numbers each. -/
def Buffers (calls : List (Word × Word)) : Prop :=
  ∀ call ∈ calls, call.1.toNat + 4 * call.2.toNat < 2 ^ 32 ∧ call.2.toNat < 2 ^ 29

/-- The numbers that there is room for. -/
def totalRoom (calls : List (Word × Word)) : Nat := (calls.map fun call => call.2.toNat).sum

theorem map_snd_placed (buffer : Word) (numbers : List Word) :
    (placed buffer numbers).map Prod.snd = numbers := by
  refine List.ext_getElem? fun i => ?_
  rw [List.getElem?_map, placed, List.getElem?_mapIdx]
  cases numbers[i]? <;> rfl

/-- What one call gives to its caller. -/
theorem Keeps.takeNumbers32 {s : Store} {t : Tree} {ns : List Int} {held : Multiset Int}
    (h : Keeps s t ns held) {buffer maxNums : Word}
    (hend : buffer.toNat + 4 * maxNums.toNat < 2 ^ 32) (hfew : maxNums.toNat < 2 ^ 29) :
    ∃ s' t' ns' count writes, takeNumbers32 s buffer maxNums = some (s', count, writes) ∧
      ((writes.map Prod.snd).take count.toInt.toNat).map BitVec.toInt = smallest maxNums.toNat held ∧
      Keeps s' t' ns' (rest maxNums.toNat held) := by
  have hroom : (roomAt buffer maxNums).toNat = maxNums.toNat := by
    rw [roomAt_eq hend]
    rfl
  obtain ⟨s', ns', hrun, hholds, -⟩ := h.holds.takeNumbers32 buffer maxNums
  rw [hroom] at hrun hholds
  obtain ⟨htaken, hkeeps⟩ := h.take hholds
  have hlength : (t.take maxNums.toNat).1.length < 2 ^ 29 := by
    rw [(t.take_toList maxNums.toNat).1, List.length_take]
    omega
  rw [returned_eq hlength] at hrun
  refine ⟨s', _, ns', _, _, hrun, ?_, hkeeps⟩
  rw [toInt_ofNat_small (by omega), map_snd_placed, Int.toNat_natCast, List.take_length, htaken]

theorem Keeps.takeAll (calls : List (Word × Word)) : ∀ {s : Store} {t : Tree} {ns : List Int}
    {held : Multiset Int}, Keeps s t ns held → Buffers calls →
      ∃ s' taken, Radix.takeAll calls s = some (s', taken) ∧
        taken.map BitVec.toInt = smallest (totalRoom calls) held := by
  induction calls with
  | nil =>
      intro s t ns held _ _
      exact ⟨s, [], rfl, List.take_zero.symm⟩
  | cons call calls ih =>
      obtain ⟨buffer, maxNums⟩ := call
      intro s t ns held h hbuffers
      obtain ⟨hend, hfew⟩ := hbuffers (buffer, maxNums) List.mem_cons_self
      obtain ⟨s₁, t₁, ns₁, count, writes, htake, htaken, h₁⟩ := h.takeNumbers32 hend hfew
      obtain ⟨s₂, more, hrun, hmore⟩ :=
        ih h₁ fun call hcall => hbuffers call (List.mem_cons_of_mem _ hcall)
      refine ⟨s₂, (writes.map Prod.snd).take count.toInt.toNat ++ more, ?_, ?_⟩
      · rw [Radix.takeAll, htake]
        simp only [Option.bind_eq_bind, Option.bind_some, hrun]
        rfl
      · have htotal : totalRoom ((buffer, maxNums) :: calls) = maxNums.toNat + totalRoom calls := by
          rw [totalRoom, List.map_cons, List.sum_cons, totalRoom]
        rw [List.map_append, htaken, hmore, htotal, SmallestFirst.smallest_add]

/-- All numbers, where the heap that they need ends below 2^32. -/
theorem Keeps.run32 {h : Heap} {numbers : List Word} (hbit : ∀ v ∈ numbers, v.getLsbD 31 = false)
    (hcount : ∀ v, numbers.count v < 2 ^ 32)
    (hfits : CallsFit (start h) (numbers.map .addNumber)) :
    ∃ s t ns, (numbers.map .addNumber).foldlM call32 (start h) = some s ∧
      Keeps s t ns (numbers.map BitVec.toInt : List Int) := by
  have hempty : Keeps (start h) .nil [] (([] : List Word).map BitVec.toInt : List Int) :=
    start_keeps h
  obtain ⟨s, t, ns, hrun, hkeeps⟩ := hempty.run numbers hbit (by rwa [List.append_nil])
  rw [List.append_nil, Multiset.coe_eq_coe.mpr ((List.reverse_perm numbers).map BitVec.toInt)]
    at hkeeps
  obtain ⟨s', -, -, hrun', -⟩ := (start_holds h).run32 hfits
  obtain ⟨hcalls, -⟩ :=
    Transition.run_of_filter (fun s : Store => Heap.Below s.heap) (start_below h) hrun'
  rw [List.foldlM_map] at hcalls
  cases hrun.symm.trans hcalls
  exact ⟨s, t, ns, hrun', hkeeps⟩

end CompSys.Radix

namespace CompSys.TinyRadix

open Radix (CallsFit call32 Buffers totalRoom)

/-! ## The same numbers -/

/-- What A5 prints is ascending, and it is the numbers. -/
theorem Prints.sorted {h : Heap} {t : Trie} {ns : List Int} {numbers : List Word}
    (hp : Prints h t ns numbers) (hbit : ∀ v ∈ numbers, v.getLsbD 31 = false) :
    (t.printed 0).map BitVec.toInt = Multiset.sort (numbers.map BitVec.toInt : Multiset Int) := by
  have hnat : ∀ v ∈ t.printed 0, v.toInt = v.toNat := by
    intro v hv
    exact Radix.toInt_of_nonneg (hbit v (hp.printed.mem_iff.mp hv))
  have hascending : ((t.printed 0).map BitVec.toInt).Pairwise (· ≤ ·) := by
    rw [List.pairwise_map]
    refine (Trie.printed_ascending MAX_BITS hp.valid (by decide)).imp_of_mem ?_
    intro v w hv hw hle
    rw [hnat v hv, hnat w hw]
    exact Int.ofNat_le.mpr hle
  rw [← Multiset.coe_eq_coe.mpr (hp.printed.map BitVec.toInt), SmallestFirst.sort_coe hascending]

/-- What A5 prints is what A6 takes in batches, the numbers in ascending order, as long as no number
comes 2 ^ 31 times and both heaps end below 2^32. -/
theorem radix_trees_agree (h h' : Heap) (numbers : List Word) (calls : List (Word × Word))
    (hnonneg : ∀ v ∈ numbers, 0 ≤ v.toInt) (hcount : ∀ v, numbers.count v < 2 ^ 31)
    (hheap : HeapFits h numbers) (hheap' : CallsFit (Radix.start h') (numbers.map .addNumber))
    (hbuffers : Buffers calls) (hroom : numbers.length ≤ totalRoom calls) :
    ∃ printing printed taking s taken,
      numbers.foldlM addNumber32 (start h) = some printing ∧
      printNumbers printing = some printed ∧
      (numbers.map .addNumber).foldlM call32 (Radix.start h') = some taking ∧
      Radix.takeAll calls taking = some (s, taken) ∧ printed = taken ∧
      printed.map BitVec.toInt = Multiset.sort (numbers.map BitVec.toInt : Multiset Int) := by
  have hbit : ∀ v ∈ numbers, v.getLsbD 31 = false :=
    fun v hv => Radix.nonneg_of_toInt (Int.not_lt.mpr (hnonneg v hv))
  obtain ⟨printing, t, ns, hrun, hp⟩ :=
    (start_prints h).run numbers hbit (by rwa [List.append_nil])
  obtain ⟨taking, t', ns', hrun', hk⟩ := Radix.Keeps.run32 hbit
    (fun v => Nat.lt_trans (hcount v) (by decide)) hheap'
  obtain ⟨s, taken, htake, htaken⟩ := hk.takeAll calls hbuffers
  rw [List.append_nil] at hp
  have hprinted := hp.sorted fun v hv => hbit v (List.mem_reverse.mp hv)
  rw [Multiset.coe_eq_coe.mpr ((List.reverse_perm numbers).map BitVec.toInt)] at hprinted
  have hall : taken.map BitVec.toInt = Multiset.sort (numbers.map BitVec.toInt : Multiset Int) := by
    rw [htaken, SmallestFirst.smallest, List.take_of_length_le]
    simpa using hroom
  refine ⟨printing, t.printed 0, taking, s, taken,
    hheap.run32 hrun, hp.holds.printNumbers, hrun', htake, ?_,
    hprinted⟩
  have hinj : Function.Injective (BitVec.toInt : Word → Int) := fun _ _ => BitVec.eq_of_toInt_eq
  exact List.map_injective_iff.mpr hinj (hprinted.trans hall.symm)

theorem radix_trees_agree_three : ∃ printing taking s,
    [6, 5, 6].foldlM addNumber32 (start Radix.emptyHeap) = some printing ∧
    printNumbers printing = some [5, 6, 6] ∧
    [.addNumber 6, .addNumber 5, .addNumber 6].foldlM call32 (Radix.start Radix.emptyHeap) =
      some taking ∧
    Radix.takeAll [(0x20000, 2), (0x20000, 2)] taking = some (s, [5, 6, 6]) := by
  have hnonneg : ∀ v ∈ ([6, 5, 6] : List Word), 0 ≤ v.toInt := by
    intro v hv
    simp only [List.mem_cons, List.not_mem_nil, or_false] at hv
    rcases hv with rfl | rfl | rfl <;> decide
  have hcount : ∀ v : Word, [6, 5, 6].count v < 2 ^ 31 := by
    intro v
    exact Nat.lt_of_le_of_lt List.count_le_length (by decide)
  have hbuffers : Buffers [(0x20000, 2), (0x20000, 2)] := by
    intro call hcall
    have hsame : call = (0x20000, 2) := by simpa using hcall
    rw [hsame]
    decide
  obtain ⟨printing, printed, taking, s, taken, hrun, hprint, hrun', htake, rfl, hsorted⟩ :=
    radix_trees_agree Radix.emptyHeap Radix.emptyHeap [6, 5, 6] [(0x20000, 2), (0x20000, 2)] hnonneg
      hcount (.of_length _ (by decide)) (.of_length _ (by decide)) hbuffers (by decide)
  have hperm : (([6, 5, 6] : List Word).map BitVec.toInt).Perm [5, 6, 6] := by decide
  rw [Multiset.coe_eq_coe.mpr hperm, SmallestFirst.sort_coe (by decide)] at hsorted
  have hprinted : printed = [5, 6, 6] :=
    List.map_injective_iff.mpr (fun _ _ => BitVec.eq_of_toInt_eq) hsorted
  rw [hprinted] at hprint htake
  exact ⟨printing, taking, s, hrun, hprint, hrun', htake⟩

/-- A number that is added `2 ^ 31` times is printed no more, while A6 still has it. And the nodes
of 2 ^ 29 numbers, none of them twice, find no place in the heap of A6. -/
theorem radix_trees_differ :
    (∃ printing taking s,
      (List.replicate (2 ^ 31) 0).foldlM addNumber (start Radix.emptyHeap) = some printing ∧
      printNumbers printing = some [] ∧
      (List.replicate (2 ^ 31) 0).foldlM Radix.addNumber (Radix.start Radix.emptyHeap) =
        some taking ∧
      Radix.takeAll [(0x20000, 1)] taking = some (s, [0])) ∧
    ∀ taking, ((Radix.firstNumbers (2 ^ 29)).map .addNumber).foldlM call32
      (Radix.start Radix.emptyHeap) ≠ some taking := by
  refine ⟨?_, Radix.foldlM_firstNumbers (by decide) (by decide)⟩
  have hsplit : List.replicate (2 ^ 31) (0 : Word) = 0 :: List.replicate (2 ^ 31 - 1) 0 :=
    List.replicate_succ
  obtain ⟨h₁, ns₁, hstep, hh₁⟩ := (start_holds Radix.emptyHeap).addNumber 0
  rw [Trie.add_nil_zeros] at hh₁
  obtain ⟨h', ns', hrun, hh'⟩ := hh₁.zeros (2 ^ 31 - 1)
  have hprint := hh'.printNumbers
  have hfull : printCount (1 + BitVec.ofNat 32 (2 ^ 31 - 1)) 0 = [] := by decide
  rw [Trie.zeros_printed, hfull] at hprint
  have hzero : ∀ v ∈ List.replicate (2 ^ 31) (0 : Word), v = 0 :=
    fun v hv => List.eq_of_mem_replicate hv
  have hcount : ∀ v, (List.replicate (2 ^ 31) (0 : Word) ++ []).count v < 2 ^ 32 := by
    intro v
    rw [List.append_nil]
    refine Nat.lt_of_le_of_lt List.count_le_length ?_
    rw [List.length_replicate]
    decide
  obtain ⟨taking, t, ns, hrun', hk⟩ := (Radix.start_keeps Radix.emptyHeap).run
    (List.replicate (2 ^ 31) 0) (fun v hv => by rw [hzero v hv]; rfl) hcount
  obtain ⟨s, taken, htake, htaken⟩ := hk.takeAll [(0x20000, 1)]
    (List.forall_mem_singleton.mpr (by decide))
  have htotal : totalRoom [(0x20000, 1)] = 1 := by decide
  rw [List.append_nil, List.reverse_replicate, List.map_replicate, htotal,
    SmallestFirst.smallest_coe (List.pairwise_replicate.mpr (.inr (le_refl _))),
    List.take_replicate, show min 1 (2 ^ 31) = 1 by decide] at htaken
  have hone : taken = [0] :=
    List.map_injective_iff.mpr (fun _ _ => BitVec.eq_of_toInt_eq) htaken
  rw [hone] at htake
  refine ⟨h', taking, s, ?_, hprint, hrun', htake⟩
  rw [hsplit, List.foldlM_cons, hstep]
  exact hrun

end CompSys.TinyRadix
