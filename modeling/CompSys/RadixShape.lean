import CompSys.RadixOwnership

/-!
# The shape of the radix tree

Bit positions decrease along every path, which bounds the paths and the turns of `add_number`,
and a differing bit lies between the position of a node and the current one.
-/
namespace CompSys.Radix

open Heap (NULL)

/-! ## Paths -/

theorem Represents.length_path {s : Store} {t : Tree} {p : Int} :
    ∀ {k : Nat} {q : Int} {ns : List Int} {path : List Bool}, k ≤ 30 → t.Bounded k →
      Represents s t q ns → Leads s q path p → path.length ≤ k := by
  induction t with
  | nil =>
      intro k q ns path _ _ h hpath
      cases path with
      | nil => exact absurd h.1 hpath.1
      | cons one path => exact absurd h.1 hpath.1
  | leaf m c₀ c₁ =>
      intro k q ns path _ _ h hpath
      obtain ⟨-, -, hbit, -⟩ := h
      cases path with
      | nil => exact Nat.zero_le k
      | cons one path =>
          have hinterior := hpath.2.1
          rw [hbit] at hinterior
          exact absurd hinterior (by decide)
  | node l m z o ihz iho =>
      intro k q ns path hk ht h hpath
      obtain ⟨hl, hlk, hbz, hbo⟩ := ht
      obtain ⟨-, -, -, nz, no, -, hz, ho⟩ := h
      cases path with
      | nil => exact Nat.zero_le k
      | cons one path =>
          have hdeeper : path.length ≤ l - 1 := by
            cases one with
            | false => exact ihz (by omega) hbz hz hpath.2.2
            | true => exact iho (by omega) hbo ho hpath.2.2
          rw [List.length_cons]
          omega

/-! ## Turns of the loop -/

/-- The turns of the loop, each as its body finds it. -/
def turns (number : Word) : Nat → Turn → List Turn
  | 0, _ => []
  | fuel + 1, turn =>
    if turn.bitPos.toInt < 1 then []
    else turn :: match body number turn with
      | .inl _ => []
      | .inr next => turns number fuel next

/-- Where the number differs from that of a found node, the inner loop stops at one set bit,
above the node's position and not above the current one. -/
def Located (number : Word) (turn : Turn) : Prop :=
  let nptr := turn.store.ptr turn.parent
  let nodeBit := turn.store.int nptr
  let diff := bitRange turn.bitPos nodeBit &&& (number ^^^ turn.store.int (nptr + 4))
  nptr ≠ NULL → nodeBit.toInt < turn.bitPos.toInt → diff ≠ 0 →
    ∃ level, findBit diff 32 turn.bitPos = some (bit level) ∧ bit level &&& diff ≠ 0 ∧
      nodeBit.toInt < (bit level).toInt ∧ (bit level).toInt ≤ turn.bitPos.toInt

theorem turns_zero (number : Word) (fuel : Nat) (s : Store) (parent : Int) :
    turns number fuel ⟨s, parent, 0⟩ = [] := by
  cases fuel with
  | zero => rfl
  | succ fuel => rw [turns, if_pos (show (0 : Word).toInt < 1 by decide)]

theorem turns_bit {k : Nat} (hk : k ≤ 30) (number : Word) (fuel : Nat) (s : Store) (parent : Int) :
    turns number (fuel + 1) ⟨s, parent, bit k⟩ =
      ⟨s, parent, bit k⟩ :: match body number ⟨s, parent, bit k⟩ with
        | .inl _ => []
        | .inr next => turns number fuel next := by
  rw [turns, if_neg (not_bit_lt_one hk)]

theorem located_nil {s : Store} {parent : Int} (number bitPos : Word)
    (hnull : s.ptr parent = NULL) : Located number ⟨s, parent, bitPos⟩ :=
  fun hp => absurd hnull hp

theorem located_node {s : Store} {parent : Int} {k l : Nat} {m : Word} (number : Word)
    (hk : k ≤ 30) (hl : l ≤ k) (hbit : s.int (s.ptr parent) = bit l)
    (hnumber : s.int (s.ptr parent + 4) = m) : Located number ⟨s, parent, bit k⟩ := by
  unfold Located
  simp only [hbit, hnumber]
  intro _ habove hne
  have hdiff : bitRange (bit k) (bit l) &&& (number ^^^ m) = difference k l number m := by
    rw [difference, if_pos ((bit_lt_bit hk (by omega)).mp habove)]
  rw [hdiff] at hne ⊢
  obtain ⟨hlow, hhigh, -, hfind⟩ := topBit_difference hk hne
  obtain ⟨i, hset⟩ := exists_getLsbD hne
  have htop := (topBit_set (getLsbD_difference hk hset).2.1 hset).2
  refine ⟨topBit (difference k l number m) k, hfind, ?_, ?_, ?_⟩
  · rw [ne_eq, bit_and_eq_zero _ (by omega), htop]
    decide
  · exact (bit_lt_bit (by omega) (by omega)).mpr hlow
  · rw [bit_toInt k hk, bit_toInt _ (by omega)]
    exact pow_le_pow_right₀ (by decide) hhigh

/-- The induction is on the tree below `parent`, which no turn but the last changes. -/
theorem Represents.turns {s : Store} (number : Word) {t : Tree} :
    ∀ (fuel : Nat) {k : Nat} {parent : Int} {ns : List Int}, k ≤ 30 → t.Bounded k →
      Represents s t (s.ptr parent) ns →
      (turns number fuel ⟨s, parent, bit k⟩).length ≤ k + 1 ∧
        ∀ turn ∈ turns number fuel ⟨s, parent, bit k⟩, Located number turn := by
  -- a turn and those after it
  have hcons : ∀ {k n : Nat} {turn : Turn} {later : List Turn}, later.length ≤ n → n ≤ k →
      Located number turn → (∀ turn ∈ later, Located number turn) →
      (turn :: later).length ≤ k + 1 ∧ ∀ turn' ∈ turn :: later, Located number turn' := by
    intro k n turn later hlength hn hturn hlater
    refine ⟨?_, List.forall_mem_cons.mpr ⟨hturn, hlater⟩⟩
    rw [List.length_cons]
    omega
  have hlast : ∀ {k : Nat} {turn : Turn}, Located number turn →
      [turn].length ≤ k + 1 ∧ ∀ turn' ∈ [turn], Located number turn' := by
    intro k turn hturn
    exact hcons (Nat.zero_le 0) (Nat.zero_le k) hturn fun _ h => absurd h List.not_mem_nil
  induction t with
  | nil =>
      intro fuel k parent ns hk _ h
      have hnull : s.ptr parent = NULL := h.1
      cases fuel with
      | zero => exact ⟨Nat.zero_le _, fun _ h => absurd h List.not_mem_nil⟩
      | succ fuel =>
          rw [turns_bit hk, body]
          simp only [hnull, ↓reduceIte]
          exact hlast (located_nil number (bit k) hnull)
  | leaf m c₀ c₁ =>
      intro fuel k parent ns hk _ h
      obtain ⟨hp, -, hbit, hnumber, -⟩ := h
      have hlocated := located_node number hk (Nat.zero_le k) hbit hnumber
      cases fuel with
      | zero => exact ⟨Nat.zero_le _, fun _ h => absurd h List.not_mem_nil⟩
      | succ fuel =>
          rw [turns_bit hk, body_node number hk (Nat.zero_le k) hp hbit hnumber]
          by_cases hdiff : difference k 0 number m ≠ 0
          · rw [if_pos hdiff]
            exact hlast hlocated
          · rw [if_neg hdiff, if_neg (Nat.lt_irrefl 0)]
            simp only [turns_zero]
            exact hlast hlocated
  | node l m z o ihz iho =>
      intro fuel k parent ns hk ht h
      obtain ⟨hl, hlk, hbz, hbo⟩ := ht
      obtain ⟨hp, hbit, hnumber, nz, no, -, hz, ho⟩ := h
      have hlocated := located_node number hk hlk hbit hnumber
      cases fuel with
      | zero => exact ⟨Nat.zero_le _, fun _ h => absurd h List.not_mem_nil⟩
      | succ fuel =>
          rw [turns_bit hk, body_node number hk hlk hp hbit hnumber]
          by_cases hdiff : difference k l number m ≠ 0
          · rw [if_pos hdiff]
            exact hlast hlocated
          · rw [if_neg hdiff, if_pos (show 0 < l from hl)]
            by_cases hside : number.getLsbD l
            · rw [if_pos hside]
              obtain ⟨hlength, hlater⟩ := iho fuel (by omega) hbo ho
              exact hcons hlength (by omega) hlocated hlater
            · rw [if_neg hside]
              obtain ⟨hlength, hlater⟩ := ihz fuel (by omega) hbz hz
              exact hcons hlength (by omega) hlocated hlater

/-! ## Masks -/

/-- Both subtractions of `higher_bits` stay within an int. -/
theorem higherBits_exact {k : Nat} (hk : k ≤ 30) :
    (0 - bit k).toInt = 0 - (bit k).toInt ∧
      (higherBits (bit k)).toInt = 0 - (bit k).toInt - (bit k).toInt := by
  have hall : ∀ k : Fin 31, (0 - bit k).toInt = 0 - (bit k).toInt ∧
      (higherBits (bit k)).toInt = 0 - (bit k).toInt - (bit k).toInt := by decide
  exact hall ⟨k, by omega⟩

/-- After any calls every path has at most 31 nodes, and `add_number` returns after at most 31
turns, in each of which a differing bit is located. The masks for this are exact. The heap stays
below 2^32. -/
theorem radix_shape (h : Heap) (calls : List TreeCall) :
    (∃ s, calls.foldlM call (start h) = some s ∧
      (∀ path p, Leads s (s.ptr TREE) path p → path.length + 1 ≤ 31) ∧
      ∀ number, (∃ s', addNumber s number = some s') ∧
        ∀ fuel, (turns number fuel ⟨s, TREE, MAX_BITS⟩).length ≤ 31 ∧
          ∀ turn ∈ turns number fuel ⟨s, TREE, MAX_BITS⟩, Located number turn) ∧
    ∀ high low, high ≤ 30 → low < high →
      (∀ i < 32, (bitRange (bit high) (bit low)).getLsbD i = decide (low < i ∧ i ≤ high)) ∧
      ∀ level ∈ [high, low], (0 - bit level).toInt = 0 - (bit level).toInt ∧
        (higherBits (bit level)).toInt = 0 - (bit level).toInt - (bit level).toInt := by
  constructor
  · obtain ⟨s, t, ns, hrun, hs⟩ := run_holds calls (start_holds h)
    have hrep := hs.subtree.represents
    refine ⟨s, hrun, fun path p hpath => ?_, fun number => ⟨?_, fun fuel => ?_⟩⟩
    · have hlength := hrep.length_path (by decide) hs.bounded hpath
      omega
    · obtain ⟨s', -, hadd, -⟩ := hs.addNumber number
      exact ⟨s', hadd⟩
    · rw [show MAX_BITS = bit 30 by decide]
      exact hrep.turns number fuel (by decide) hs.bounded
  · intro high low hhigh hlow
    constructor
    · intro i hi
      rw [getLsbD_bitRange high low i hhigh (by omega) hi, Bool.decide_and]
    · intro level hlevel
      simp only [List.mem_cons, List.not_mem_nil, or_false] at hlevel
      exact higherBits_exact (by omega)

end CompSys.Radix
