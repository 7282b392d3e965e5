import CompSys.HeapSound

/-!
# Clients of the small-block allocator

A client allocates, releases what is live and writes inside its live blocks, in
any order and without end. In every state it can reach, the live blocks and
the free lists keep apart.
-/
namespace CompSys.Heap

open IntrusiveList Transition

inductive ClientCall where
  | allocate (size : Word)
  | release (p : Int)
  | write (a v : Int)
deriving DecidableEq

/-- `write` replaces one word, which covers a write of any of its bytes. -/
def clientStep (s : Store) : ClientCall → Option Store
  | .allocate size =>
    if size.toInt ≤ 2 ^ 31 - 12 then (s.allocate size).map Prod.snd else none
  | .release p =>
    if p ∈ (Store.live s.events).map Prod.fst then s.release p else none
  | .write a v =>
    if ∃ block ∈ Store.live s.events,
        block.1 ≤ a ∧ a < block.1 + block.2.toInt ∧ (a - block.1) % 4 = 0 then
      some (s.store a v)
    else none

/-- `init_heap` on a heap in any state, and no call yet. -/
def clientStart (h : Heap) (heapStart : Int) : Store :=
  { heap := h.initHeap heapStart, events := [] }

def clientSystem (h : Heap) (heapStart : Int) : System Store :=
  ofStep (clientStart h heapStart) clientStep

/-! ## The invariant of runs -/

theorem allocate_wellFormed {heapStart : Int} {s : Store}
    (hw : WellFormed heapStart s.heap (Store.live s.events)) (size : Word)
    (hmax : size.toInt ≤ 2 ^ 31 - 12) :
    ∃ p s', s.allocate size = some (p, s') ∧
      WellFormed heapStart s'.heap (Store.live s'.events) ∧
      (∀ a, Owned heapStart (Store.live s.events) a → s'.heap.mem a = s.heap.mem a) ∧
      (p = NULL ∧ s'.events = s.events ∧
          ¬(1 ≤ size.toInt ∧ (size.toInt + 11) / 8 < NUM_SIZES) ∨
        p ≠ NULL ∧ s'.events = .allocated p size :: s.events) := by
  obtain ⟨p, h', hrun, hframe, hnull | hnew⟩ := allocate_spec hw size hmax
  · obtain ⟨rfl, hw', hsize⟩ := hnull
    exact ⟨NULL, ⟨h', s.events⟩, by simp [Store.allocate, hrun], hw', hframe,
      Or.inl ⟨rfl, rfl, hsize⟩⟩
  · obtain ⟨hp, hw', -⟩ := hnew
    exact ⟨p, ⟨h', .allocated p size :: s.events⟩, by simp [Store.allocate, hrun, hp], hw', hframe,
      Or.inr ⟨hp, rfl⟩⟩

theorem release_wellFormed {heapStart : Int} {s : Store}
    (hw : WellFormed heapStart s.heap (Store.live s.events)) {p : Int}
    (hp : p ∈ (Store.live s.events).map Prod.fst) :
    ∃ s', s.release p = some s' ∧ WellFormed heapStart s'.heap (Store.live s'.events) ∧
      s'.events = .released p :: s.events ∧
      ∀ a, Owned heapStart (Store.live s.events) a → s'.heap.mem a = s.heap.mem a := by
  obtain ⟨h', hrun, hw', hframe⟩ := release_spec hw hp
  exact ⟨⟨h', .released p :: s.events⟩, by simp [Store.release, hrun], hw', rfl, hframe⟩

theorem clientStep_wellFormed {heapStart : Int} {s s' : Store} {call : ClientCall}
    (hw : WellFormed heapStart s.heap (Store.live s.events)) (h : clientStep s call = some s') :
    WellFormed heapStart s'.heap (Store.live s'.events) := by
  cases call with
  | allocate size =>
      rw [clientStep] at h
      split at h
      case isTrue hmax =>
        obtain ⟨p, s₁, hrun, hw₁, -⟩ := allocate_wellFormed hw size hmax
        rw [hrun] at h
        cases h
        exact hw₁
      case isFalse => cases h
  | release p =>
      rw [clientStep] at h
      split at h
      case isTrue hp =>
        obtain ⟨s₁, hrun, hw₁, -⟩ := release_wellFormed hw hp
        rw [hrun] at h
        cases h
        exact hw₁
      case isFalse => cases h
  | write a v =>
      rw [clientStep] at h
      split at h
      case isTrue hin =>
        cases h
        obtain ⟨⟨p, size⟩, hp, hle, hlt, -⟩ := hin
        exact write_spec hw (Or.inr ⟨p, size, hp, hle, hlt⟩) v
      case isFalse => cases h

theorem reachable_wellFormed {h : Heap} {heapStart : Int} (hpos : 0 < heapStart) {s : Store}
    (hs : Reachable (clientSystem h heapStart) s) :
    WellFormed heapStart s.heap (Store.live s.events) := by
  refine hs.invariant (I := fun s => WellFormed heapStart s.heap (Store.live s.events)) ?_ ?_
  · rintro s rfl
    exact initHeap_wellFormed h hpos
  · rintro s t - hw ⟨call, hcall⟩
    exact clientStep_wellFormed hw hcall

/-! ## What a client sees -/

/-- The bytes of a live block behind its size field, as the size field gives them. -/
def usable (h : Heap) (p : Int) : Int := (h.loadInt (p - 4)).toInt - 4

/-- Live blocks are apart from each other, from every size field and link, and from
the free lists. -/
structure Safe (heapStart : Int) (h : Heap) (live : Live) : Prop where
  fits : ∀ p size, (p, size) ∈ live → 1 ≤ size.toInt ∧ size.toInt ≤ usable h p
  inside : ∀ p size, (p, size) ∈ live → heapStart ≤ p - 4 ∧ p + usable h p ≤ h.freeSpace
  disjoint : live.Pairwise fun x y =>
    x.1 + usable h x.1 ≤ y.1 ∨ y.1 + usable h y.1 ≤ x.1
  fields : ∀ p size q size', (p, size) ∈ live → (q, size') ∈ live →
    q ≤ p ∨ p + usable h p ≤ q - 4
  lists : ∃ free : Int → List Int,
    (∀ num, 0 ≤ num → num < NUM_SIZES → Chain NULL h.mem (h.header num) (free num)) ∧
    (∀ num, (free num).Nodup) ∧
    (∀ num num', num ≠ num' → (free num).Disjoint (free num')) ∧
    ∀ p size, (p, size) ∈ live → ∀ num, p - 4 ∉ free num ∧
      ∀ b ∈ free num, b + 4 ≤ p ∨ p + usable h p ≤ b

theorem Holds.usable {heapStart : Int} {layout : Layout} {h : Heap} {live : Live} {p num : Int}
    {size : Word} (hs : Sound heapStart layout h live) (hn : Holds layout h p size num) :
    usable h p = 8 * num - 4 := by
  have hcarved := hs.carved _ num hn.cls
  have hsizes : NUM_SIZES = 512 := rfl
  rw [Heap.usable, loadInt, hn.field, BitVec.toInt_ofInt, Int.bmod_eq_of_le (by omega) (by omega)]

/-- Two carved blocks are the same or apart. -/
theorem Sound.apart_or_eq {heapStart : Int} {layout : Layout} {h : Heap} {live : Live}
    (hs : Sound heapStart layout h live) {b num b' num' : Int} (hb : layout.cls b = some num)
    (hb' : layout.cls b' = some num') :
    b = b' ∨ b + 8 * num ≤ b' ∨ b' + 8 * num' ≤ b := by
  have hleft := hs.apart b num b' num' hb hb'
  have hright := hs.apart b' num' b num hb' hb
  omega

theorem WellFormed.safe {heapStart : Int} {h : Heap} {live : Live}
    (hw : WellFormed heapStart h live) : Safe heapStart h live := by
  obtain ⟨layout, hs⟩ := hw
  constructor
  case fits =>
    intro p size hp
    obtain ⟨n, hn⟩ := hs.holds p size hp
    have hfits := hn.fits
    rw [hn.usable hs]
    exact ⟨hn.size_pos, by omega⟩
  case inside =>
    intro p size hp
    obtain ⟨n, hn⟩ := hs.holds p size hp
    have hcarved := hs.carved _ n hn.cls
    rw [hn.usable hs]
    omega
  case disjoint =>
    have hnodup := List.pairwise_map.mp hs.live_nodup
    refine hnodup.imp_of_mem ?_
    rintro ⟨p, size⟩ ⟨q, size'⟩ hp hq hne
    obtain ⟨n, hn⟩ := hs.holds p size hp
    obtain ⟨n', hn'⟩ := hs.holds q size' hq
    have happart := hs.apart_or_eq hn.cls hn'.cls
    have hne' : p ≠ q := hne
    simp only [hn.usable hs, hn'.usable hs]
    omega
  case fields =>
    intro p size q size' hp hq
    obtain ⟨n, hn⟩ := hs.holds p size hp
    obtain ⟨n', hn'⟩ := hs.holds q size' hq
    have happart := hs.apart_or_eq hn.cls hn'.cls
    have hcarved := hs.carved _ n' hn'.cls
    rw [hn.usable hs]
    omega
  case lists =>
    refine ⟨layout.free, fun num _ _ => hs.chain num, hs.free_nodup, ?_, ?_⟩
    · intro num num' hne b hb hb'
      have hcls := hs.free_cls num b hb
      rw [hs.free_cls num' b hb'] at hcls
      exact hne (Option.some.inj hcls).symm
    · intro p size hp num
      obtain ⟨n, hn⟩ := hs.holds p size hp
      have hnot : p - 4 ∉ layout.free num := by
        intro hin
        have hcls := hs.free_cls num _ hin
        rw [hn.cls] at hcls
        exact hn.not_free (by rw [Option.some.inj hcls]; exact hin)
      refine ⟨hnot, ?_⟩
      intro b hb
      have hcls := hs.free_cls num b hb
      have happart := hs.apart_or_eq hn.cls hcls
      have hcarved := hs.carved b num hcls
      have hne : b ≠ p - 4 := fun heq => hnot (heq ▸ hb)
      rw [hn.usable hs]
      omega

/-- Every call of a client returns, and after any number of calls the live blocks are safe. -/
theorem live_blocks_safe (h : Heap) (heapStart : Int) (hpos : 0 < heapStart) (s : Store)
    (hs : Reachable (clientSystem h heapStart) s) :
    Safe heapStart s.heap (Store.live s.events) ∧
      (∀ size : Word, size.toInt ≤ 2 ^ 31 - 12 → (s.allocate size).isSome) ∧
      ∀ p, p ∈ (Store.live s.events).map Prod.fst → (s.release p).isSome := by
  have hw := reachable_wellFormed hpos hs
  refine ⟨hw.safe, ?_, ?_⟩
  · intro size hmax
    obtain ⟨p, s', hrun, -⟩ := allocate_wellFormed hw size hmax
    rw [hrun]
    rfl
  · intro p hp
    obtain ⟨s', hrun, -⟩ := release_wellFormed hw hp
    rw [hrun]
    rfl

/-- Two blocks of one chunk, the first of them released again. -/
theorem live_blocks_safe_two_blocks :
    ∃ s : Store, Store.live s.events = [(33554460, 16)] ∧
      Safe 33554432 s.heap (Store.live s.events) := by
  obtain ⟨s, hevents, hs⟩ : ∃ s : Store,
      s.events = [.released 33554436, .allocated 33554460 16, .allocated 33554436 16] ∧
      Reachable (clientSystem ⟨fun _ => 0, 0, false, fun _ => 0⟩ 33554432) s :=
    ⟨_, rfl, reachable_of_run
      [.allocate 16, .write 33554440 7, .allocate 16, .release 33554436] (.start rfl) rfl⟩
  have hlive : Store.live s.events = [(33554460, 16)] := by
    rw [hevents]
    decide
  exact ⟨s, hlive, (live_blocks_safe _ 33554432 (by decide) s hs).1⟩

end CompSys.Heap
