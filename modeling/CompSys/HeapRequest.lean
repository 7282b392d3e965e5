import CompSys.HeapReuse

/-!
# Requests to the small-block allocator

What `allocate` does with a request of any 32-bit size in a state that a client can reach. The
size field and the alignment are added before the size is compared, and the sum of a size close
to 2^31 is negative.
-/
namespace CompSys.Heap

open IntrusiveList Transition

/-- The size with its size field, up to the next multiple of the block size step. -/
def roundedUp (size : Word) : Int := (size.toInt + 4 + 7) / 8 * 8

/-- A request that gets NULL leaves the free lists and `free_space` as they were. -/
structure Refused (s s' : Store) (p : Int) : Prop where
  null : p = NULL
  events : s'.events = s.events
  mem : s'.heap.mem = s.heap.mem
  headers : ∀ num, s'.heap.header num = s.heap.header num
  freeSpace : s'.heap.freeSpace = s.heap.freeSpace

/-- A request that is served from the list of its index: only this list changes, and the block
is large enough and apart from all others. -/
structure Granted (heapStart : Int) (s s' : Store) (size : Word) (p : Int) : Prop where
  nonnull : p ≠ NULL
  events : s'.events = .allocated p size :: s.events
  index_pos : 1 ≤ numSize (blockSize size)
  index_lt : numSize (blockSize size) < NUM_SIZES
  others : ∀ num, num ≠ numSize (blockSize size) → ∃ free,
    Chain NULL s.heap.mem (s.heap.header num) free ∧
    Chain NULL s'.heap.mem (s'.heap.header num) free
  enough : size.toInt ≤ usable s'.heap p
  safe : Safe heapStart s'.heap (Store.live s'.events)

/-- The call returns, with NULL exactly for the sizes that no list has. -/
def Handled (heapStart : Int) (s : Store) (size : Word) : Prop :=
  ∃ p s', s.allocate size = some (p, s') ∧
    (Refused s s' p ∨ Granted heapStart s s' size p) ∧
    (p = NULL ↔ size.toInt < 1 ∨ 4096 ≤ roundedUp size)

theorem not_served_iff (size : Word) :
    ¬Served size ↔ size.toInt < 1 ∨ 4096 ≤ roundedUp size := by
  have hsizes : NUM_SIZES = 512 := rfl
  unfold Served sizeClass roundedUp
  omega

theorem Served.numSize_eq {size : Word} (h : Served size) :
    numSize (blockSize size) = sizeClass size :=
  Heap.numSize_eq (blockSize_toInt size h.1 h.max)

theorem reachable_exact {h : Heap} {heapStart : Int} (hpos : 0 < heapStart) {s : Store}
    (hs : Reachable (clientSystem h heapStart) s) :
    ∃ layout, Exact heapStart layout s.heap (Store.live s.events) := by
  refine hs.invariant
    (I := fun s => ∃ layout, Exact heapStart layout s.heap (Store.live s.events)) ?_ ?_
  · rintro s rfl
    obtain ⟨layout, he, -⟩ := initHeap_exact h hpos
    exact ⟨layout, he⟩
  · rintro s t - ⟨layout, he⟩ ⟨call, hcall⟩
    obtain ⟨layout', he', -⟩ := he.step hcall
    exact ⟨layout', he'⟩

/-- A block that was taken from the list of its class, carved or not. -/
theorem Exact.granted {heapStart : Int} {layout layout₁ : Layout} {s : Store} {h' : Heap}
    {size : Word} {p : Int} (he : Exact heapStart layout s.heap (Store.live s.events))
    (he' : Exact heapStart (layout₁.take (sizeClass size)) h'
      ((p, size) :: Store.live s.events))
    (hserved : Served size) (hnull : p ≠ NULL)
    (hfree : ∀ num, num ≠ sizeClass size → layout₁.free num = layout.free num) :
    Granted heapStart s ⟨h', .allocated p size :: s.events⟩ size p := by
  have hsafe := WellFormed.safe ⟨_, he'.sound⟩
  refine ⟨hnull, rfl, ?_, ?_, ?_, (hsafe.fits p size (List.mem_cons_self ..)).2, hsafe⟩
  · rw [hserved.numSize_eq]
    exact hserved.sizeClass_pos
  · rw [hserved.numSize_eq]
    exact hserved.2
  · intro num hnum
    rw [hserved.numSize_eq] at hnum
    have hchain := he'.sound.chain num
    rw [Layout.take_free_of_ne _ hnum, hfree num hnum] at hchain
    exact ⟨layout.free num, he.sound.chain num, hchain⟩

theorem Exact.handled {heapStart : Int} {layout : Layout} {s : Store}
    (he : Exact heapStart layout s.heap (Store.live s.events)) {size : Word}
    (hmax : size.toInt ≤ 2 ^ 31 - 12) : Handled heapStart s size := by
  by_cases hserved : Served size
  · have hiff : ∀ {p : Int}, p ≠ NULL → (p = NULL ↔ size.toInt < 1 ∨ 4096 ≤ roundedUp size) := by
      intro p hnull
      rw [← not_served_iff]
      exact iff_of_false hnull (not_not_intro hserved)
    obtain ⟨h', layout', live', he', heffect⟩ := he.allocate size hmax
    cases heffect with
    | refused hnot => exact absurd hserved hnot
    | reused _ _ hrun hnull _ =>
      refine ⟨_, _, ?_, .inr (he.granted he' hserved hnull fun _ _ => rfl), hiff hnull⟩
      simp [Store.allocate, hrun, hnull]
    | carved _ _ hextends hrun hnull _ =>
      refine ⟨_, _, ?_, .inr (he.granted he' hserved hnull hextends.free), hiff hnull⟩
      simp [Store.allocate, hrun, hnull]
  · rcases allocate_cases he.sound size hmax with ⟨-, hrun⟩ | ⟨hyes, -⟩
    · have hheader : ∀ num, s.heap.clearHeaders.header num = s.heap.header num := by
        intro num
        rw [header, if_pos (clearHeaders_initialized s.heap), clearHeaders_header]
      exact ⟨NULL, ⟨s.heap.clearHeaders, s.events⟩, by simp [Store.allocate, hrun],
        .inl ⟨rfl, rfl, clearHeaders_mem s.heap, hheader, clearHeaders_freeSpace s.heap⟩,
        iff_of_true rfl ((not_served_iff size).mp hserved)⟩
    · exact absurd hyes hserved

/-- A request is handled exactly if its size can be rounded up within an int. What a chunk then takes
stays below 2^32. -/
theorem handled_iff (h : Heap) (heapStart : Int) (hpos : 0 < heapStart) (s : Store)
    (hs : Reachable (clientSystem h heapStart) s) (size : Word) :
    Handled heapStart s size ↔ size.toInt ≤ 2 ^ 31 - 12 := by
  constructor
  · rintro ⟨p, s', hrun, -⟩
    by_contra hbig
    rw [Store.allocate, allocate_huge s.heap (by omega)] at hrun
    cases hrun
  · obtain ⟨layout, he⟩ := reachable_exact hpos hs
    exact he.handled

/-- The largest size that is handled, after a block was carved and released. -/
theorem handled_iff_largest :
    ∃ s : Store, s.events = [.released 33554436, .allocated 33554436 16] ∧
      Handled 33554432 s 2147483636 := by
  obtain ⟨s, hevents, hs⟩ : ∃ s : Store,
      s.events = [.released 33554436, .allocated 33554436 16] ∧
      Reachable (clientSystem ⟨fun _ => 0, 0, false, fun _ => 0⟩ 33554432) s :=
    ⟨_, rfl, reachable_of_run [.allocate 16, .release 33554436] (.start rfl) rfl⟩
  exact ⟨s, hevents, (handled_iff _ 33554432 (by decide) s hs 2147483636).mpr (by decide)⟩

/-- `allocate(INT_MAX)` on a new heap computes a negative index. -/
theorem not_handled_intMax :
    ∃ s : Store, Reachable (clientSystem ⟨fun _ => 0, 0, false, fun _ => 0⟩ 33554432) s ∧
      numSize (blockSize 2147483647) < 0 ∧ s.allocate 2147483647 = none ∧
      ¬Handled 33554432 s 2147483647 := by
  have hrun : (clientStart ⟨fun _ => 0, 0, false, fun _ => 0⟩ 33554432).allocate 2147483647 =
      none := by
    rw [Store.allocate, allocate_huge _ (by decide)]
    rfl
  refine ⟨_, .start rfl, by decide, hrun, ?_⟩
  rintro ⟨p, s', hsome, -⟩
  rw [hrun] at hsome
  cases hsome

end CompSys.Heap
