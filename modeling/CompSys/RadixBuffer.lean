import CompSys.RadixInvariant

/-!
# Taking numbers through the caller's buffer

`take_numbers` with the pointers of the program: the place where the next number goes and the end of
the buffer are 32-bit addresses, and the count that is returned is their difference. While the
buffer lies below 2^32 this fills a list with room for as many numbers. The buffer is apart from the
tree.
-/
namespace CompSys.Radix

open Heap (NULL Grows)
open SmallestFirst (smallest rest)

/-! ## The program -/

/-- The numbers that were written, with their addresses. -/
abbrev Writes := List (Word × Word)

/-- `while (buffer < end && count) { *buffer++ = value; count--; }`. The fuel exceeds the counter. -/
def takeCount32 (value : Word) (count : Int) (bufferEnd : Word) :
    Nat → Store → Word → Writes → Option (Store × Word × Writes)
  | 0, _, _, _ => none
  | fuel + 1, s, buffer, writes =>
    if buffer < bufferEnd ∧ s.int count ≠ 0 then
      takeCount32 value count bufferEnd fuel (s.storeInt count (s.int count - 1)) (buffer + 4)
        (writes ++ [(buffer, value)])
    else some (s, buffer, writes)

/-- The fuel bounds the depth of the tree. -/
def takeNumbers2At (bufferEnd : Word) :
    Nat → Store → Int → Word → Writes → Option (Store × Word × Writes)
  | 0, _, _, _, _ => none
  | fuel + 1, s, parent, buffer, writes =>
    let nptr := s.ptr parent
    if nptr = NULL then some (s, buffer, writes)
    else if s.int nptr = 1 then do
      let number := s.int (nptr + 4)
      let (s, buffer, writes) ← takeCount32 (number &&& ~~~1) (nptr + 8) bufferEnd
        ((s.int (nptr + 8)).toNat + 1) s buffer writes
      let (s, buffer, writes) ← takeCount32 (number ||| 1) (nptr + 12) bufferEnd
        ((s.int (nptr + 12)).toNat + 1) s buffer writes
      if s.int (nptr + 8) = 0 ∧ s.int (nptr + 12) = 0 then
        let s ← s.release nptr
        return (s.store parent NULL, buffer, writes)
      else return (s, buffer, writes)
    else do
      let (s, buffer, writes) ← takeNumbers2At bufferEnd fuel s (nptr + 8) buffer writes
      let (s, buffer, writes) ← takeNumbers2At bufferEnd fuel s (nptr + 12) buffer writes
      if s.ptr (nptr + 8) = NULL ∧ s.ptr (nptr + 12) = NULL then
        let s ← s.release nptr
        return (s.store parent NULL, buffer, writes)
      else return (s, buffer, writes)

/-- The result of the call and what it wrote. -/
def takeNumbers32 (s : Store) (buffer maxNums : Word) : Option (Store × Word × Writes) := do
  let (s, next, writes) ← takeNumbers2At (buffer + 4 * maxNums) 32 s TREE buffer []
  return (s, (next - buffer).sshiftRight 2, writes)

/-! ## A buffer as a list -/

/-- The numbers at consecutive places from an address on. -/
def placed (buffer : Word) (numbers : List Word) : Writes :=
  numbers.mapIdx fun i number => (buffer + BitVec.ofNat 32 (4 * i), number)

/-- Where the number goes that comes after so many. -/
def place (buffer : Word) (numbers : List Word) : Word :=
  buffer + BitVec.ofNat 32 (4 * numbers.length)

theorem placed_append (buffer : Word) (numbers : List Word) (number : Word) :
    placed buffer (numbers ++ [number]) =
      placed buffer numbers ++ [(place buffer numbers, number)] := by
  rw [placed, List.mapIdx_append]
  simp [placed, place]

theorem place_append (buffer : Word) (numbers : List Word) (number : Word) :
    place buffer (numbers ++ [number]) = place buffer numbers + 4 := by
  rw [place, place, List.length_append, List.length_singleton, Nat.mul_add, BitVec.ofNat_add,
    BitVec.add_assoc]
  rfl

/-- The end of a buffer with room for so many numbers, a negative room where it has come round. -/
def EndsAt (buffer bufferEnd : Word) (capacity : Int) : Prop :=
  (bufferEnd.toNat : Int) = buffer.toNat + 4 * capacity

section Simulation

variable {buffer bufferEnd : Word} {capacity : Int}

theorem EndsAt.toNat_place (h : EndsAt buffer bufferEnd capacity) {numbers : List Word}
    (hin : numbers.length ≤ capacity.toNat) :
    (place buffer numbers).toNat = buffer.toNat + 4 * numbers.length := by
  have hlt := bufferEnd.isLt
  have hstart := buffer.isLt
  rw [EndsAt] at h
  rw [place, BitVec.toNat_add, BitVec.toNat_ofNat]
  omega

theorem EndsAt.lt_iff (h : EndsAt buffer bufferEnd capacity) {numbers : List Word}
    (hin : numbers.length ≤ capacity.toNat) :
    place buffer numbers < bufferEnd ↔ (numbers.length : Int) < capacity := by
  rw [BitVec.lt_def, h.toNat_place hin]
  rw [EndsAt] at h
  omega

/-- The induction is on the fuel of the list; that of the pointers exceeds the counter. -/
theorem takeCount32_eq (hend : EndsAt buffer bufferEnd capacity) {value : Word} {count : Int}
    (fuel : Nat) : ∀ {fuel' : Nat} {s s' : Store} {numbers numbers' : List Word},
      numbers.length ≤ capacity.toNat → (s.int count).toNat < fuel' →
      takeCount value count capacity fuel s numbers = some (s', numbers') →
      takeCount32 value count bufferEnd fuel' s (place buffer numbers) (placed buffer numbers) =
          some (s', place buffer numbers', placed buffer numbers') ∧
        numbers'.length ≤ capacity.toNat := by
  induction fuel with
  | zero =>
    intro fuel' s s' numbers numbers' _ _ hrun
    cases hrun
  | succ fuel ih =>
    intro fuel' s s' numbers numbers' hin hfuel hrun
    obtain ⟨fuel', rfl⟩ := Nat.exists_eq_succ_of_ne_zero (Nat.ne_of_gt (Nat.zero_lt_of_lt hfuel))
    rw [takeCount] at hrun
    rw [takeCount32]
    split at hrun
    case isTrue hmore =>
      have hlength : (numbers ++ [value]).length ≤ capacity.toNat := by
        rw [List.length_append, List.length_singleton]
        omega
      have hdown : ((s.storeInt count (s.int count - 1)).int count).toNat < fuel' := by
        have hlt := (s.int count).isLt
        have hne : (s.int count).toNat ≠ 0 := fun hzero => hmore.2 (BitVec.eq_of_toNat_eq hzero)
        rw [Store.int_storeInt_self, BitVec.toNat_sub, show (1 : Word).toNat = 1 from rfl]
        omega
      rw [if_pos ⟨(hend.lt_iff hin).mpr hmore.1, hmore.2⟩, ← place_append buffer numbers value,
        ← placed_append]
      exact ih hlength hdown hrun
    case isFalse hdone =>
      cases hrun
      rw [if_neg (mt (And.imp_left (hend.lt_iff hin).mp) hdone)]
      exact ⟨rfl, hin⟩

theorem takeNumbers2At_eq (hend : EndsAt buffer bufferEnd capacity) (fuel : Nat) :
    ∀ {s s' : Store} {parent : Int} {numbers numbers' : List Word},
      numbers.length ≤ capacity.toNat →
      takeNumbers2 capacity fuel s parent numbers = some (s', numbers') →
      takeNumbers2At bufferEnd fuel s parent (place buffer numbers) (placed buffer numbers) =
          some (s', place buffer numbers', placed buffer numbers') ∧
        numbers'.length ≤ capacity.toNat := by
  induction fuel with
  | zero =>
    intro s s' parent numbers numbers' _ hrun
    cases hrun
  | succ fuel ih =>
    intro s s' parent numbers numbers' hin hrun
    have hdrop : ∀ {s₁ : Store} {numbers₁ : List Word} {p : Int} {c : Prop} [Decidable c],
        (if c then (s₁.release p).bind fun s => some (s.store parent NULL, numbers₁)
          else some (s₁, numbers₁)) = some (s', numbers') →
        (if c then (s₁.release p).bind fun s =>
            some (s.store parent NULL, place buffer numbers₁, placed buffer numbers₁)
          else some (s₁, place buffer numbers₁, placed buffer numbers₁)) =
          some (s', place buffer numbers', placed buffer numbers') ∧ numbers₁ = numbers' := by
      intro s₁ numbers₁ p c _ hrun
      split at hrun
      case isTrue hc =>
        obtain ⟨s₂, hrelease, hs'⟩ := Option.bind_eq_some_iff.mp hrun
        cases hs'
        rw [if_pos hc, hrelease]
        exact ⟨rfl, rfl⟩
      case isFalse hc =>
        cases hrun
        exact ⟨if_neg hc, rfl⟩
    simp only [takeNumbers2] at hrun
    simp only [takeNumbers2At]
    split at hrun
    case isTrue hnull =>
      cases hrun
      rw [if_pos hnull]
      exact ⟨rfl, hin⟩
    case isFalse hnode =>
      rw [if_neg hnode]
      split at hrun
      case isTrue hleaf =>
        obtain ⟨⟨s₁, numbers₁⟩, hzeros, hrun⟩ := Option.bind_eq_some_iff.mp hrun
        obtain ⟨⟨s₂, numbers₂⟩, hones, hrun⟩ := Option.bind_eq_some_iff.mp hrun
        obtain ⟨hzeros', hin₁⟩ := takeCount32_eq hend _ hin (Nat.lt_succ_self _) hzeros
        obtain ⟨hones', hin₂⟩ := takeCount32_eq hend _ hin₁ (Nat.lt_succ_self _) hones
        obtain ⟨hdrop', rfl⟩ := hdrop hrun
        rw [if_pos hleaf, hzeros', Option.bind_eq_bind, Option.bind_some]
        dsimp only
        rw [hones']
        exact ⟨hdrop', hin₂⟩
      case isFalse hinterior =>
        obtain ⟨⟨s₁, numbers₁⟩, hzeros, hrun⟩ := Option.bind_eq_some_iff.mp hrun
        obtain ⟨⟨s₂, numbers₂⟩, hones, hrun⟩ := Option.bind_eq_some_iff.mp hrun
        obtain ⟨hzeros', hin₁⟩ := ih hin hzeros
        obtain ⟨hones', hin₂⟩ := ih hin₁ hones
        obtain ⟨hdrop', rfl⟩ := hdrop hrun
        rw [if_neg hinterior, hzeros', Option.bind_eq_bind, Option.bind_some]
        dsimp only
        rw [hones']
        exact ⟨hdrop', hin₂⟩

end Simulation

/-- The room of a call. The end of the buffer is computed modulo 2^32. -/
def roomAt (buffer maxNums : Word) : Int :=
  (((buffer + 4 * maxNums).toNat : Int) - buffer.toNat) / 4

theorem endsAt_roomAt (buffer maxNums : Word) :
    EndsAt buffer (buffer + 4 * maxNums) (roomAt buffer maxNums) := by
  rw [EndsAt, roomAt, BitVec.toNat_add, BitVec.toNat_mul, show (4 : Word).toNat = 4 from rfl]
  omega

/-- Below 2^32 the room is what the caller says. -/
theorem roomAt_eq {buffer maxNums : Word} (hend : buffer.toNat + 4 * maxNums.toNat < 2 ^ 32) :
    roomAt buffer maxNums = maxNums.toNat := by
  rw [roomAt, BitVec.toNat_add, BitVec.toNat_mul, show (4 : Word).toNat = 4 from rfl]
  omega

/-- Taking through a buffer is taking with its room. -/
theorem Holds.takeNumbers32 {s : Store} {t : Tree} {ns : List Int} (h : Holds s t ns)
    (buffer maxNums : Word) :
    ∃ s' ns', takeNumbers32 s buffer maxNums =
        some (s', (BitVec.ofNat 32 (4 * (t.take (roomAt buffer maxNums).toNat).1.length)).sshiftRight 2,
          placed buffer (t.take (roomAt buffer maxNums).toNat).1) ∧
      Holds s' (t.take (roomAt buffer maxNums).toNat).2 ns' ∧ Grows 0 s.heap s'.heap := by
  have hfuel : 30 < 32 := by decide
  have hroom : room [] (roomAt buffer maxNums) = (roomAt buffer maxNums).toNat := by simp [room]
  have hplace : place buffer [] = buffer := BitVec.add_zero buffer
  obtain ⟨s', ns', hrun, hsub, -⟩ :=
    takeNumbers2_spec (roomAt buffer maxNums) t [] hfuel (by decide) h.bounded h.subtree
  rw [hroom, List.nil_append] at hrun
  rw [hroom] at hsub
  obtain ⟨hrun', -⟩ := takeNumbers2At_eq (endsAt_roomAt buffer maxNums) 32 (Nat.zero_le _) hrun
  rw [hplace] at hrun'
  change takeNumbers2At _ 32 s TREE buffer [] = _ at hrun'
  refine ⟨s', ns', ?_, ⟨hsub, t.take_bounded _ 30 h.bounded⟩, takeNumbers2_grows 32 hrun⟩
  rw [Radix.takeNumbers32, hrun', Option.bind_eq_bind, Option.bind_some]
  dsimp only
  rw [place, BitVec.add_comm, BitVec.add_sub_cancel]
  rfl

/-- The count that is returned is right below 2^29 numbers. -/
theorem returned_eq {n : Nat} (hn : n < 2 ^ 29) :
    (BitVec.ofNat 32 (4 * n)).sshiftRight 2 = BitVec.ofNat 32 n := by
  have hnat : (BitVec.ofNat 32 (4 * n)).toNat = 4 * n := by
    rw [BitVec.toNat_ofNat]
    omega
  have hmsb : (BitVec.ofNat 32 (4 * n)).msb = false := by
    rw [BitVec.msb_eq_false_iff_two_mul_lt, hnat]
    omega
  rw [BitVec.sshiftRight_eq_of_msb_false hmsb]
  apply BitVec.eq_of_toNat_eq
  rw [BitVec.toNat_ushiftRight, hnat, BitVec.toNat_ofNat, Nat.shiftRight_eq_div_pow]
  omega

/-! ## Taking from any tree -/

/-- The numbers go to consecutive places of the buffer. -/
theorem placed_inside {buffer : Word} {numbers : List Word} {n : Nat}
    (hend : buffer.toNat + 4 * n < 2 ^ 32) (hlength : numbers.length ≤ n) :
    ∀ write ∈ placed buffer numbers,
      buffer.toNat ≤ write.1.toNat ∧ write.1.toNat + 4 ≤ buffer.toNat + 4 * n := by
  intro write hwrite
  obtain ⟨i, hi, rfl⟩ := List.mem_mapIdx.mp hwrite
  have hplace : (buffer + BitVec.ofNat 32 (4 * i)).toNat = buffer.toNat + 4 * i := by
    rw [BitVec.toNat_add, BitVec.toNat_ofNat]
    omega
  rw [hplace]
  omega

/-- `take_numbers` writes the smallest numbers to consecutive places in ascending order, as many as
the buffer has room for or as there are, and returns how many; the others stay. The buffer ends
below 2^32, and less than 2^29 numbers are taken. -/
theorem take_numbers_smallest (s : Store) (t : Tree) (ns : List Int) (buffer maxNums : Word)
    (hs : Holds s t ns) (ht : t.Valid 30) (hend : buffer.toNat + 4 * maxNums.toNat < 2 ^ 32)
    (hfew : min maxNums.toNat t.toList.length < 2 ^ 29) :
    ∃ s' t' ns' taken,
      takeNumbers32 s buffer maxNums =
        some (s', BitVec.ofNat 32 taken.length, placed buffer taken) ∧
      taken.length = min maxNums.toNat t.toList.length ∧
      (BitVec.ofNat 32 taken.length).toInt = taken.length ∧
      (∀ write ∈ placed buffer taken, buffer.toNat ≤ write.1.toNat ∧
        write.1.toNat + 4 ≤ buffer.toNat + 4 * maxNums.toNat) ∧
      (taken.map BitVec.toInt).Pairwise (· ≤ ·) ∧
      taken.map BitVec.toInt = smallest maxNums.toNat (t.toList.map BitVec.toInt : Multiset Int) ∧
      Holds s' t' ns' ∧ t'.Valid 30 ∧
      (t'.toList.map BitVec.toInt : Multiset Int) =
        rest maxNums.toNat (t.toList.map BitVec.toInt : Multiset Int) := by
  have hroom : (roomAt buffer maxNums).toNat = maxNums.toNat := by
    rw [roomAt_eq hend]
    rfl
  obtain ⟨s', ns', hrun, hs', -⟩ := hs.takeNumbers32 buffer maxNums
  rw [hroom] at hrun hs'
  obtain ⟨htaken, hleft⟩ := t.take_toList maxNums.toNat
  have hascending := ht.ascending
  have hlength : (t.take maxNums.toNat).1.length = min maxNums.toNat t.toList.length := by
    rw [htaken, List.length_take]
  rw [returned_eq (by omega)] at hrun
  refine ⟨s', _, ns', _, hrun, hlength, toInt_ofNat_small (by omega), ?_, ?_, ?_, hs', ht.take _, ?_⟩
  · exact placed_inside hend (by omega)
  · rw [htaken, List.map_take]
    exact hascending.sublist (List.take_sublist _ _)
  · rw [SmallestFirst.smallest_coe hascending, htaken, List.map_take]
  · rw [SmallestFirst.rest_coe hascending, hleft, List.map_drop]

/-- The tree that the program builds of numbers that are not negative. -/
theorem exists_holding (numbers : List Word) : (∀ v ∈ numbers, 0 ≤ v.toInt) →
    numbers.length < 2 ^ 32 →
    ∃ s t ns, numbers.foldlM addNumber (start emptyHeap) = some s ∧ Holds s t ns ∧
      t.Valid 30 ∧ t.toList.Perm numbers := by
  induction numbers using List.reverseRecOn with
  | nil =>
    intro _ _
    exact ⟨_, .nil, [], rfl, start_holds emptyHeap, trivial, .refl []⟩
  | append_singleton numbers number ih =>
    intro hnonneg hlength
    rw [List.length_append, List.length_singleton] at hlength
    obtain ⟨s, t, ns, hrun, hs, ht, hperm⟩ :=
      ih (fun v hv => hnonneg v (List.mem_append_left _ hv)) (by omega)
    obtain ⟨s', ns', hadd, hs'⟩ := hs.addNumber number
    have hheld : ∀ v ∈ t.toList, 0 ≤ v.toInt :=
      fun v hv => hnonneg v (List.mem_append_left _ (hperm.mem_iff.mp hv))
    have hcount : t.toList.count number + 1 < 2 ^ 32 := by
      have hle := t.toList.count_le_length (a := number)
      rw [hperm.length_eq] at hle
      omega
    obtain ⟨hvalid, hadded⟩ := ht.add (hnonneg number (by simp)) hheld hcount
    refine ⟨s', _, ns', ?_, hs', hvalid, ?_⟩
    · rw [List.foldlM_append, hrun]
      exact Transition.run_cons.mpr ⟨s', hadd, rfl⟩
    · exact (hadded.trans (hperm.cons number)).trans (List.perm_append_singleton _ _).symm

/-- Room for three of five numbers: the leaf of 4 and 5 is left with one of them. -/
theorem take_numbers_smallest_three : ∃ s s' t' ns',
    [4, 900, 5, 4, 5].foldlM addNumber (start emptyHeap) = some s ∧
    takeNumbers32 s 0x20000 3 = some (s', 3, [(0x20000, 4), (0x20004, 4), (0x20008, 5)]) ∧
    Holds s' t' ns' ∧ t'.Valid 30 ∧
      (t'.toList.map BitVec.toInt : Multiset Int) = ([5, 900] : List Int) := by
  have hnonneg : ∀ v ∈ ([4, 900, 5, 4, 5] : List Word), 0 ≤ v.toInt := by
    intro v hv
    simp only [List.mem_cons, List.not_mem_nil, or_false] at hv
    rcases hv with rfl | rfl | rfl | rfl | rfl <;> decide
  obtain ⟨s, t, ns, hrun, hs, ht, hperm⟩ := exists_holding [4, 900, 5, 4, 5] hnonneg (by decide)
  have hheld : (t.toList.map BitVec.toInt : Multiset Int) = ([4, 4, 5, 5, 900] : List Int) := by
    have hsorted : (([4, 900, 5, 4, 5] : List Word).map BitVec.toInt).Perm [4, 4, 5, 5, 900] := by
      decide
    exact Multiset.coe_eq_coe.mpr ((hperm.map BitVec.toInt).trans hsorted)
  have hlength : t.toList.length = 5 := hperm.length_eq
  obtain ⟨s', t', ns', taken, htake, -, -, -, -, hsmallest, hs', ht', hrest⟩ :=
    take_numbers_smallest s t ns 0x20000 3 hs ht (by decide) (by rw [hlength]; decide)
  rw [hheld, SmallestFirst.smallest_coe (by decide)] at hsmallest
  rw [hheld, SmallestFirst.rest_coe (by decide)] at hrest
  have htaken : taken = [4, 4, 5] :=
    List.map_injective_iff.mpr (fun _ _ => BitVec.eq_of_toInt_eq) hsmallest
  rw [htaken] at htake
  exact ⟨s, s', t', ns', hrun, htake, hs', ht', hrest⟩

/-- With room for INT_MAX numbers the end of the buffer comes round and nothing is taken, and of
2 ^ 29 numbers the count that is returned is negative. -/
theorem take_numbers_wraps :
    ¬(∀ (s : Store) (t : Tree) (ns : List Int) (buffer maxNums : Word), Holds s t ns →
        t.Valid 30 → 0 ≤ maxNums.toInt → min maxNums.toNat t.toList.length < 2 ^ 29 →
        ∃ s' taken, takeNumbers32 s buffer maxNums =
            some (s', BitVec.ofNat 32 taken.length, placed buffer taken) ∧
          taken.length = min maxNums.toNat t.toList.length) ∧
    ¬(∀ (s : Store) (t : Tree) (ns : List Int) (buffer maxNums : Word), Holds s t ns →
        t.Valid 30 → 0 ≤ maxNums.toInt → buffer.toNat + 4 * maxNums.toNat < 2 ^ 32 →
        ∃ s' taken, takeNumbers32 s buffer maxNums =
            some (s', BitVec.ofNat 32 taken.length, placed buffer taken) ∧
          taken.length = min maxNums.toNat t.toList.length) := by
  constructor
  · intro hclaim
    obtain ⟨s, ns, hs⟩ := exists_leaf 0 1 rfl
    have hheld : (Tree.leaf 0 1 0).toList = [0] := by decide
    obtain ⟨s', taken, hrun, hlength⟩ := hclaim s _ ns 0x20000 0x7FFFFFFF hs (.inl (by decide))
      (by decide) (by rw [hheld]; decide)
    obtain ⟨s'', ns'', hrun', -⟩ := hs.takeNumbers32 0x20000 0x7FFFFFFF
    have hnone : ((Tree.leaf 0 1 0).take (roomAt 0x20000 0x7FFFFFFF).toNat).1 = [] := by decide
    rw [hnone, hrun, Option.some.injEq, Prod.mk.injEq, Prod.mk.injEq] at hrun'
    have htaken : (placed 0x20000 taken).length = 0 := by
      rw [hrun'.2.2]
      rfl
    rw [placed, List.length_mapIdx, hlength, hheld] at htaken
    exact absurd htaken (by decide)
  · intro hclaim
    obtain ⟨s, ns, hs⟩ := exists_leaf 0 0x20000000 rfl
    have hheld : (Tree.leaf 0 0x20000000 0).toList.length = 536870912 := by
      rw [Tree.toList, List.length_append, List.length_replicate, List.length_replicate]
      rfl
    obtain ⟨s', taken, hrun, hlength⟩ := hclaim s _ ns 0x20000 0x20000000 hs (.inl (by decide))
      (by decide) (by decide)
    obtain ⟨s'', ns'', hrun', -⟩ := hs.takeNumbers32 0x20000 0x20000000
    have hroom : (roomAt 0x20000 0x20000000).toNat = 536870912 := by decide
    have hall : ((Tree.leaf 0 0x20000000 0).take 536870912).1.length = 536870912 := by
      rw [(Tree.take_toList _ _).1, List.length_take, hheld]
      rfl
    rw [hroom, hall, hrun, Option.some.injEq, Prod.mk.injEq, Prod.mk.injEq, hlength, hheld] at hrun'
    exact absurd hrun'.2.1 (by decide)

end CompSys.Radix
