import CompSys.RadixBuffer
import Mathlib.Data.Finset.Card

/-!
# The radix sorter until its heap is full

Each number that is held beside the others takes its part of the heap, so that there are calls, and
inputs of the program, whose nodes find no place below 2^32. All that do leak nothing.
-/
namespace CompSys.Radix

open Heap (NULL Below Grows)

/-! ## Calls below the end of the addresses -/

inductive ProgramCall where
  | addNumber (number : Word)
  | takeNumbers (buffer maxNums : Word)

def callAt (s : Store) : ProgramCall → Option Store
  | .addNumber number => addNumber s number
  | .takeNumbers buffer maxNums => (takeNumbers32 s buffer maxNums).map Prod.fst

/-- A call as far as the heap stays below 2^32. -/
def call32 (s : Store) (c : ProgramCall) : Option Store :=
  (callAt s c).filter fun s' => Below s'.heap

/-- The heap that the calls need ends below 2^32. -/
def CallsFit (s : Store) (calls : List ProgramCall) : Prop :=
  ∀ s', calls.foldlM callAt s = some s' → Below s'.heap

theorem Holds.callAt {s : Store} {t : Tree} {ns : List Int} (h : Holds s t ns) (c : ProgramCall) :
    ∃ s' t' ns', callAt s c = some s' ∧ Holds s' t' ns' ∧ Grows 480 s.heap s'.heap := by
  cases c with
  | addNumber number =>
    obtain ⟨s', ns', hrun, h'⟩ := h.addNumber number
    exact ⟨s', _, ns', hrun, h', addNumber_grows hrun⟩
  | takeNumbers buffer maxNums =>
    obtain ⟨s', ns', hrun, h', hgrows⟩ := h.takeNumbers32 buffer maxNums
    exact ⟨s', _, ns', by rw [Radix.callAt, hrun]; rfl, h', hgrows.mono (by decide)⟩

theorem Holds.run (calls : List ProgramCall) : ∀ {s : Store} {t : Tree} {ns : List Int},
    Holds s t ns → ∃ s' t' ns', calls.foldlM Radix.callAt s = some s' ∧ Holds s' t' ns' ∧
      Grows (480 * calls.length) s.heap s'.heap := by
  induction calls with
  | nil =>
    intro s t ns h
    exact ⟨s, t, ns, rfl, h, .refl s.heap⟩
  | cons c calls ih =>
    intro s t ns h
    obtain ⟨s₁, t₁, ns₁, hcall, h₁, hgrows₁⟩ := h.callAt c
    obtain ⟨s₂, t₂, ns₂, hrun, h₂, hgrows₂⟩ := ih h₁
    refine ⟨s₂, t₂, ns₂, Transition.run_cons.mpr ⟨s₁, hcall, hrun⟩, h₂,
      (hgrows₁.trans hgrows₂).mono ?_⟩
    rw [List.length_cons]
    push_cast
    omega

theorem start_below (h : Heap) : Below (start h).heap := by
  have hstart : (start h).heap.freeSpace = 33554432 := rfl
  rw [Below, hstart]
  decide

/-- So many calls fit, whatever they are. -/
theorem CallsFit.of_length (h : Heap) {calls : List ProgramCall} (hlength : calls.length ≤ 8877942) :
    CallsFit (start h) calls := by
  intro s hrun
  obtain ⟨s', t, ns, hrun', -, -, hup⟩ := (start_holds h).run calls
  cases hrun.symm.trans hrun'
  have hstart : (start h).heap.freeSpace = 33554432 := rfl
  rw [Below]
  omega

/-- The heap never goes back, so that calls which fit are below 2^32 all the time. -/
theorem Holds.run32 {calls : List ProgramCall} {s : Store} {t : Tree} {ns : List Int}
    (h : Holds s t ns) (hfits : CallsFit s calls) :
    ∃ s' t' ns', calls.foldlM call32 s = some s' ∧ Holds s' t' ns' := by
  obtain ⟨s', t', ns', hrun, h', -⟩ := h.run calls
  have hstep : ∀ s c s', (∃ t ns, Holds s t ns) → Radix.callAt s c = some s' →
      (∃ t ns, Holds s' t ns) ∧ (Below s'.heap → Below s.heap) := by
    rintro s c s' ⟨t, ns, h⟩ hcall
    obtain ⟨s₁, t₁, ns₁, hcall₁, h₁, hgrows⟩ := h.callAt c
    cases hcall.symm.trans hcall₁
    exact ⟨⟨t₁, ns₁, h₁⟩, hgrows.below⟩
  refine ⟨s', t', ns', ?_, h'⟩
  exact Transition.run_filter (fun s : Store => Below s.heap) hstep ⟨t, ns, h⟩ hrun (hfits s' hrun)

/-- After any calls whose heap fits, the live blocks are the nodes of the tree, each at the end of
exactly one path, nothing was released that was not live, and `release_tree` releases each once. -/
theorem no_leak_no_double_free (h : Heap) (calls : List ProgramCall)
    (hfits : CallsFit (start h) calls) :
    ∃ s, calls.foldlM call32 (start h) = some s ∧ NoLeak s := by
  obtain ⟨s, t, ns, hrun, hs⟩ := (start_holds h).run32 hfits
  exact ⟨s, hrun, hs.noLeak⟩

theorem no_leak_no_double_free_seven : ∃ s,
    [.addNumber 5, .addNumber 3, .takeNumbers 0x20000 1, .addNumber 5, .addNumber 900,
      .takeNumbers 0x20000 100, .addNumber 7].foldlM call32 (start emptyHeap) = some s ∧
    NoLeak s :=
  no_leak_no_double_free emptyHeap _ (.of_length emptyHeap (by decide))

/-! ## The room that numbers take -/

/-- A leaf holds two numbers at the most. -/
theorem Represents.card_le {s : Store} {t : Tree} : ∀ {p : Int} {ns : List Int},
    Represents s t p ns → t.toList.toFinset.card ≤ 2 * ns.length := by
  induction t with
  | nil =>
    intro p ns _
    exact Nat.zero_le _
  | leaf m c₀ c₁ =>
    intro p ns h
    obtain ⟨-, rfl, -⟩ := h
    have hsub : (Tree.leaf m c₀ c₁).toList.toFinset ⊆ {m &&& ~~~1, m ||| 1} := by
      intro v hv
      rw [Finset.mem_insert, Finset.mem_singleton]
      rcases List.mem_append.mp (List.mem_toFinset.mp hv) with hzero | hone
      · exact .inl (List.mem_replicate.mp hzero).2
      · exact .inr (List.mem_replicate.mp hone).2
    exact (Finset.card_le_card hsub).trans Finset.card_le_two
  | node l m z o ihz iho =>
    intro p ns h
    obtain ⟨-, -, -, nz, no, rfl, hz, ho⟩ := h
    have hunion := Finset.card_union_le z.toList.toFinset o.toList.toFinset
    have hzeros := ihz hz
    have hones := iho ho
    rw [Tree.toList, List.toFinset_append, List.length_cons, List.length_append]
    omega

/-- The blocks of nodes lie apart, each with 24 bytes of its own. -/
theorem Nodes.length_le {s : Store} {ns : List Int} (h : Nodes s ns) :
    24 * (ns.length : Int) ≤ s.heap.freeSpace - heapStart + 24 := by
  obtain ⟨layout, hs⟩ := h.wellFormed.perm h.live
  have hsize : nodeSize.toInt = 16 := by decide
  have hblock : ∀ p ∈ ns, ∃ n, layout.cls (p - 4) = some n ∧ 3 ≤ n := by
    intro p hp
    obtain ⟨n, hn⟩ := hs.holds p nodeSize (mem_blocks.mpr ⟨hp, rfl⟩)
    have hfits := hn.fits
    exact ⟨n, hn.cls, by omega⟩
  have hin : ∀ p ∈ ns, heapStart ≤ p - 4 ∧ p + 20 ≤ s.heap.freeSpace := by
    intro p hp
    obtain ⟨n, hcls, hn⟩ := hblock p hp
    have hcarved := hs.carved _ n hcls
    omega
  have hapart : ∀ p ∈ ns, ∀ q ∈ ns, p ≠ q → p + 24 ≤ q ∨ q + 24 ≤ p := by
    intro p hp q hq hne
    obtain ⟨n, hcls, hn⟩ := hblock p hp
    obtain ⟨n', hcls', hn'⟩ := hblock q hq
    have happart := hs.apart_or_eq hcls hcls'
    omega
  -- each block has its own among the pieces of 24 bytes that the heap is cut into
  have hnodup : (ns.map fun p => ((p - 4 - heapStart) / 24).toNat).Nodup := by
    refine h.apart.nodup.map_on ?_
    intro p hp q hq heq
    by_contra hne
    have hp' := hin p hp
    have hq' := hin q hq
    have hpq := hapart p hp q hq hne
    omega
  have hsub : (ns.map fun p => ((p - 4 - heapStart) / 24).toNat) ⊆
      List.range ((s.heap.freeSpace - heapStart) / 24 + 1).toNat := by
    intro i hi
    obtain ⟨p, hp, rfl⟩ := List.mem_map.mp hi
    have hp' := hin p hp
    rw [List.mem_range]
    omega
  have hle := (List.subperm_of_subset hnodup hsub).length_le
  have hspace := hs.start_le
  rw [List.length_map, List.length_range] at hle
  omega

/-- Distinct numbers need 12 bytes each. -/
theorem Keeps.room {s : Store} {t : Tree} {ns : List Int} {numbers : List Word}
    (h : Keeps s t ns (numbers.map BitVec.toInt : List Int)) (hnodup : numbers.Nodup) :
    12 * (numbers.length : Int) ≤ s.heap.freeSpace - heapStart + 24 := by
  have hinj : Function.Injective (BitVec.toInt : Word → Int) := fun _ _ => BitVec.eq_of_toInt_eq
  have hperm : t.toList.Perm numbers :=
    (List.map_perm_map_iff hinj).mp (Multiset.coe_eq_coe.mp h.held)
  have hcard := h.holds.subtree.represents.card_le
  rw [List.toFinset_eq_of_perm _ _ hperm, List.toFinset_card_of_nodup hnodup] at hcard
  have hnodes := h.holds.subtree.nodes.length_le
  rw [List.append_nil] at hnodes
  omega

/-- The numbers from 0 on. -/
def firstNumbers (n : Nat) : List Word := (List.range n).map (BitVec.ofNat 32)

theorem length_firstNumbers (n : Nat) : (firstNumbers n).length = n := by
  rw [firstNumbers, List.length_map, List.length_range]

theorem firstNumbers_nodup {n : Nat} (hn : n ≤ 2 ^ 31) : (firstNumbers n).Nodup := by
  refine List.nodup_range.map_on ?_
  intro i hi j hj heq
  have hnat := congrArg BitVec.toNat heq
  rw [List.mem_range] at hi hj
  rw [BitVec.toNat_ofNat, BitVec.toNat_ofNat] at hnat
  omega

theorem firstNumbers_nonneg {n : Nat} (hn : n ≤ 2 ^ 31) : ∀ v ∈ firstNumbers n, 0 ≤ v.toInt := by
  intro v hv
  obtain ⟨i, hi, rfl⟩ := List.mem_map.mp hv
  rw [List.mem_range] at hi
  rw [toInt_ofNat_small (by omega)]
  omega

/-- When all of them are held the heap has passed 2^32. -/
theorem firstNumbers_full {h : Heap} {n : Nat} (hmany : 355117741 ≤ n) (hn : n ≤ 2 ^ 31) :
    ∃ s, (firstNumbers n).foldlM addNumber (start h) = some s ∧ ¬Below s.heap := by
  have hnonneg := firstNumbers_nonneg hn
  have hnodup := firstNumbers_nodup hn
  have hempty : Keeps (start h) .nil [] (([] : List Word).map BitVec.toInt : List Int) :=
    start_keeps h
  have hcount : ∀ v, (firstNumbers n ++ []).count v < 2 ^ 32 := by
    intro v
    have hle := List.count_le_length (a := v) (l := firstNumbers n)
    rw [length_firstNumbers] at hle
    rw [List.append_nil]
    omega
  obtain ⟨s, t, ns, hrun, hkeeps⟩ := hempty.run (firstNumbers n)
    (fun v hv => nonneg_of_toInt (hnonneg v hv).not_gt) hcount
  rw [List.append_nil] at hkeeps
  have hroom := hkeeps.room (List.nodup_reverse.mpr hnodup)
  have hstart : heapStart = 33554432 := rfl
  rw [List.length_reverse, length_firstNumbers] at hroom
  refine ⟨s, hrun, ?_⟩
  rw [Below]
  omega

theorem foldlM_firstNumbers {h : Heap} {n : Nat} (hmany : 355117741 ≤ n) (hn : n ≤ 2 ^ 31)
    (s : Store) : ((firstNumbers n).map .addNumber).foldlM call32 (start h) ≠ some s := by
  intro hrun
  obtain ⟨s', hfull, hover⟩ := firstNumbers_full (h := h) hmany hn
  obtain ⟨hrun, hbelow⟩ :=
    Transition.run_of_filter (fun s : Store => Below s.heap) (start_below h) hrun
  rw [List.foldlM_map] at hrun
  cases hfull.symm.trans hrun
  exact hover hbelow

/-- The nodes of the numbers below 2 ^ 29 find no place. -/
theorem no_leak_needs_room :
    ¬∀ (h : Heap) (calls : List ProgramCall),
      (∀ number, .addNumber number ∈ calls → 0 ≤ number.toInt) →
      ∃ s, calls.foldlM call32 (start h) = some s ∧ NoLeak s := by
  intro hclaim
  obtain ⟨n, hmany, hn⟩ : ∃ n : Nat, 355117741 ≤ n ∧ n ≤ 2 ^ 31 := ⟨2 ^ 29, by decide⟩
  have hnonneg : ∀ number,
      .addNumber number ∈ (firstNumbers n).map ProgramCall.addNumber → 0 ≤ number.toInt := by
    intro number hin
    obtain ⟨v, hv, heq⟩ := List.mem_map.mp hin
    injection heq with heq
    rw [← heq]
    exact firstNumbers_nonneg hn v hv
  obtain ⟨s, hrun, -⟩ := hclaim emptyHeap ((firstNumbers n).map .addNumber) hnonneg
  exact foldlM_firstNumbers hmany hn s hrun

/-! ## What the program cannot hold -/

theorem foldlM_nonneg {write : WriteIntBuffer} (numbers : List Word) : ∀ {s s' : Store}
    {out : List Word}, (∀ v ∈ numbers, 0 ≤ v.toInt) → numbers.foldlM addNumber s = some s' →
      numbers.foldlM (processNumber write) (s, out) = some (s', out) := by
  induction numbers with
  | nil =>
    intro s s' out _ hrun
    cases hrun
    rfl
  | cons number numbers ih =>
    intro s s' out hnonneg hrun
    obtain ⟨s₁, hadd, hrest⟩ := Transition.run_cons.mp hrun
    have hstep : processNumber write (s, out) number = some (s₁, out) := by
      rw [processNumber, if_neg (hnonneg number List.mem_cons_self).not_gt, hadd]
      rfl
    exact Transition.run_cons.mpr
      ⟨(s₁, out), hstep, ih (fun v hv => hnonneg v (List.mem_cons_of_mem number hv)) hrest⟩

/-- The program that stays below 2^32 was there when it had read everything. -/
theorem below_of_main32 {write : WriteIntBuffer} {h : Heap} {chunks : List (List Word)} {s s' : Store}
    {out out' : List Word} (hchunks : Chunks chunks)
    (hread : chunks.flatten.foldlM (processNumber write) (start h, []) = some (s, out))
    (hmain : main32 write h chunks = some (s', out')) : Below s.heap := by
  obtain ⟨hmain, hbelow⟩ := Option.filter_eq_some_iff.mp hmain
  obtain ⟨⟨s₁, out₁⟩, hloop, hmain⟩ := Option.bind_eq_some_iff.mp hmain
  obtain ⟨s₂, hrelease, hresult⟩ := Option.bind_eq_some_iff.mp hmain
  cases hresult
  rw [readLoop_eq chunks _ hchunks, hread] at hloop
  cases hloop
  exact (releaseTree_grows 32 hrelease).below (of_decide_eq_true hbelow)

/-- After 2 ^ 32 zeros the counter is zero again and the request is answered with nothing, where the
reference outputs a zero. And the nodes of 2 ^ 29 numbers, none of them twice, find no place. -/
theorem main_overflows :
    (¬∀ (write : WriteIntBuffer) (h : Heap) (chunks : List (List Word)), WritesAll write →
      Chunks chunks → Negatable chunks.flatten → ∃ s out, main write h chunks = some (s, out) ∧
        out.map BitVec.toInt = (Reference.run 0 (chunks.flatten.map BitVec.toInt)).2) ∧
    ¬∀ (write : WriteIntBuffer) (h : Heap) (chunks : List (List Word)), WritesAll write →
      Chunks chunks → Negatable chunks.flatten → CountersFit chunks.flatten →
      ∃ s out, main32 write h chunks = some (s, out) ∧
        out.map BitVec.toInt = (Reference.run 0 (chunks.flatten.map BitVec.toInt)).2 := by
  have hwrite : WritesAll fun _ size => size := fun _ _ => rfl
  constructor
  · intro hclaim
    obtain ⟨n, hwraps⟩ : ∃ n, 1 + BitVec.ofNat 32 n = 0 := ⟨2 ^ 32 - 1, by decide⟩
    obtain ⟨s, out, hmain, hout⟩ := hclaim _ emptyHeap
      (zerosThenTake (n + 1)) hwrite (zerosThenTake_chunks _) (zerosThenTake_negatable _)
    obtain ⟨s', hmain'⟩ := zerosThenTake_main hwrite emptyHeap hwraps
    rw [hmain'] at hmain
    rw [zerosThenTake_reference] at hout
    have hnone : out = [] := by
      injection hmain with hpair
      injection hpair with _ hempty
      exact hempty.symm
    rw [hnone] at hout
    cases hout
  · intro hclaim
    obtain ⟨n, hmany, hn⟩ : ∃ n : Nat, 355117741 ≤ n ∧ n ≤ 2 ^ 31 := ⟨2 ^ 29, by decide⟩
    obtain ⟨s, hfull, hover⟩ := firstNumbers_full (h := emptyHeap) hmany hn
    have hflat : ((firstNumbers n).map fun v => [v]).flatten = firstNumbers n := by
      rw [← List.flatMap_def, List.flatMap_singleton']
    have hchunks : Chunks ((firstNumbers n).map fun v => [v]) := by
      intro numbers hnumbers
      obtain ⟨v, -, rfl⟩ := List.mem_map.mp hnumbers
      exact ⟨Nat.one_pos, (by decide : 1 ≤ 100)⟩
    have hnonneg := firstNumbers_nonneg hn
    have hread : (firstNumbers n).foldlM (processNumber fun _ size => size)
        (start emptyHeap, []) = some (s, []) := foldlM_nonneg (firstNumbers n) hnonneg hfull
    rw [← hflat] at hread
    obtain ⟨s', out, hmain, -⟩ := hclaim _ emptyHeap _ hwrite hchunks
      (by
        rw [hflat]
        intro v hv
        have := hnonneg v hv
        omega)
      (.of_length (by
        rw [hflat, length_firstNumbers]
        omega))
    exact hover (below_of_main32 hchunks hread hmain)

end CompSys.Radix
