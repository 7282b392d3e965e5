import CompSys.KdTree
import CompSys.KdTreeArray

/-!
# The order in the k-d tree

The comparison functions of `coord_query_kdtree.c` return a difference of coordinates as
an `int`: less than 1 apart, two records compare equal, and `2 ^ 31` or more apart, the
conversion is not defined. What any sort by them may make of an array is a relation between
ranges and trees.
-/
namespace CompSys.KdTreeOrder

open IdQuery KdTree HalvedTree
open KdTreeArray (Node Fields points chosen mkKdtree dereference)

/-- The coordinate on an axis. -/
def coordinate (axis : ℕ) (r : Record) : ℚ := if axis = 0 then r.lon else r.lat

/-- Nothing left of a node is larger on its axis, and nothing right of it smaller. -/
def Ordered : Node Record → Prop
  | .nil => True
  | .node x left right =>
    (∀ r ∈ points left, coordinate x.axis r ≤ coordinate x.axis x.point) ∧
    (∀ r ∈ points right, coordinate x.axis x.point ≤ coordinate x.axis r) ∧
    Ordered left ∧ Ordered right

/-- Whichever records of the range are compared, the difference is converted to an `int`. -/
def Fits (axis : ℕ) (range : List Record) : Prop :=
  ∀ p ∈ range, ∀ q ∈ range, (convert (coordinate axis p - coordinate axis q)).isSome

/-- The sort for each node compares within `int`. Its range has the records of the subtree. -/
def Within : Node Record → Prop
  | .nil => True
  | .node x left right =>
    Fits x.axis (points left ++ x.point :: points right) ∧ Within left ∧ Within right

/-- The sort returns a permutation that is in order by its comparison function, if that is
defined on the range. -/
def Sorts (qsort : KdTreeArray.Qsort Record) : Prop :=
  ∀ base axis range, Fits axis range →
    (qsort.sort base (KdTreeArray.comparator compX compY axis) range).Pairwise
      fun p q => KdTreeArray.comparator compX compY axis p q ≤ 0

/-- The construction compares within `int`, and the tree that it leaves is ordered. -/
def TreeOrdered (qsort : KdTreeArray.Qsort Record) (rs : List Record) : Prop :=
  ∃ t, dereference (mkKdtree qsort compX compY rs).2 (mkKdtree qsort compX compY rs).1 = some t ∧
    Within t ∧ Ordered t

/-! ## Sorting by differences -/

theorem truncate_neg (x : ℚ) : truncate (-x) = -truncate x := by
  rw [truncate, truncate, Rat.num_neg_eq_neg_num, Rat.den_neg_eq_den, Int.neg_tdiv]

/-- Rounding towards zero does not take a number to a positive bound. -/
theorem truncate_lt (x : ℚ) {n : ℕ} (hn : 0 < n) : truncate x < n ↔ x < n := by
  have hden : (0 : ℤ) < x.den := by exact_mod_cast x.den_pos
  have hlt : x < n ↔ x.num < n * x.den := by
    rw [Rat.lt_iff]
    simp
  rw [hlt, truncate]
  rcases le_or_gt 0 x.num with hnonneg | hneg
  · rw [Int.tdiv_eq_ediv_of_nonneg hnonneg, Int.ediv_lt_iff_lt_mul hden]
  · have hflip : 0 ≤ (-x.num).tdiv x.den := Int.tdiv_nonneg (by omega) hden.le
    have hpos : (0 : ℤ) < n * x.den := by positivity
    rw [Int.neg_tdiv] at hflip
    omega

/-- Numbers below 1 are rounded to 0, or to something negative. -/
theorem truncate_nonpos (x : ℚ) : truncate x ≤ 0 ↔ x < 1 := by
  have hlt := truncate_lt x one_pos
  rw [Nat.cast_one, Nat.cast_one] at hlt
  rw [← hlt]
  omega

/-- Records may stand in an order if the first is less than 1 larger. -/
theorem comparator_nonpos (axis : ℕ) (p q : Record) :
    KdTreeArray.comparator compX compY axis p q ≤ 0 ↔ coordinate axis p < coordinate axis q + 1 := by
  unfold KdTreeArray.comparator coordinate
  split
  · rw [compX, truncate_nonpos, sub_lt_iff_lt_add']
  · rw [compY, truncate_nonpos, sub_lt_iff_lt_add']

theorem convert_isSome (x : ℚ) :
    (convert x).isSome ↔ truncate (-x) ≤ 2147483648 ∧ x < 2147483648 := by
  have hlt := truncate_lt x (n := 2147483648) (by decide)
  push_cast at hlt
  unfold convert
  rw [truncate_neg, ← hlt]
  split
  case isTrue h => simp; omega
  case isFalse h => simp; omega

/-- Coordinates that are less than `2 ^ 31` apart are compared within `int`. -/
theorem fits_iff {axis : ℕ} {range : List Record} : Fits axis range ↔
    ∀ p ∈ range, ∀ q ∈ range, |coordinate axis p - coordinate axis q| < 2147483648 := by
  constructor
  · intro h p hp q hq
    have hless := ((convert_isSome _).mp (h p hp q hq)).2
    have hback := ((convert_isSome _).mp (h q hq p hp)).2
    rw [abs_lt]
    constructor <;> linarith
  · intro h p hp q hq
    obtain ⟨hlow, hhigh⟩ := abs_lt.mp (h p hp q hq)
    have hneg := truncate_lt (-(coordinate axis p - coordinate axis q)) (n := 2147483648) (by decide)
    push_cast at hneg
    have hback := hneg.mpr (by linarith)
    exact (convert_isSome _).mpr ⟨hback.le, hhigh⟩

theorem Fits.perm {axis : ℕ} {range range' : List Record} (h : Fits axis range)
    (hperm : range.Perm range') : Fits axis range' := by
  intro p hp q hq
  exact h p (hperm.mem_iff.mpr hp) q (hperm.mem_iff.mpr hq)

/-- A range by the exact coordinates. -/
def exactSort (axis : ℕ) (rs : List Record) : List Record :=
  rs.insertionSort fun p q => coordinate axis p ≤ coordinate axis q

theorem exactSort_perm (axis : ℕ) (rs : List Record) : (exactSort axis rs).Perm rs :=
  List.perm_insertionSort _ rs

theorem exactSort_sorted (axis : ℕ) (rs : List Record) :
    (exactSort axis rs).Pairwise fun p q => coordinate axis p ≤ coordinate axis q := by
  have htotal : Std.Total fun p q : Record => coordinate axis p ≤ coordinate axis q :=
    ⟨fun p q => le_total _ _⟩
  have htrans : IsTrans Record fun p q => coordinate axis p ≤ coordinate axis q :=
    ⟨fun p q r => le_trans⟩
  exact List.pairwise_insertionSort _ rs

/-! ## What a construction may return -/

/-- The trees that the construction may make of a range at a depth, whatever permutation in
order each sort returns. -/
inductive Generates : ℕ → List Record → Node Record → Prop where
  | null {depth} : Generates depth [] .nil
  | node {depth rs before point right leftTree rightTree}
      (perm : (before ++ point :: right).Perm rs)
      (sorted : (before ++ point :: right).Pairwise fun p q =>
        KdTreeArray.comparator compX compY (depth % 2) p q ≤ 0)
      (middle : before.length = rs.length / 2)
      (left_tree : Generates (depth + 1) before leftTree)
      (right_tree : Generates (depth + 1) right rightTree) :
    Generates depth rs (.node ⟨point, depth % 2⟩ leftTree rightTree)

theorem Generates.points_perm {depth : ℕ} {rs : List Record} {t : Node Record}
    (h : Generates depth rs t) : (points t).Perm rs := by
  induction h with
  | null => exact List.Perm.nil
  | @node depth rs before point right leftTree rightTree perm _ _ _ _ ihLeft ihRight =>
    rw [KdTreeArray.points_node]
    exact (ihLeft.append (ihRight.cons point)).trans perm

theorem Generates.fits {depth : ℕ} {rs : List Record} {t : Node Record}
    (h : Generates depth rs t) (hwithin : Within t) : Fits (depth % 2) rs := by
  have hpoints := h.points_perm
  cases h with
  | null =>
    intro p hp
    cases hp
  | node => exact hwithin.1.perm (KdTreeArray.points_node _ _ _ ▸ hpoints)

/-- Only the records of a range matter, not their order. -/
theorem Generates.of_perm {depth : ℕ} {rs rs' : List Record} {t : Node Record}
    (h : Generates depth rs t) (hperm : rs.Perm rs') : Generates depth rs' t := by
  cases h with
  | null => rw [← hperm.nil_eq]; exact .null
  | node perm sorted middle left_tree right_tree =>
    rw [hperm.length_eq] at middle
    exact .node (perm.trans hperm) sorted middle left_tree right_tree

/-- A node for a record in the middle, if nothing before it is 1 or more larger than what
comes after. -/
theorem generates_node {depth : ℕ} {rs before right : List Record} {point : Record}
    {leftTree rightTree : Node Record} (hperm : (before ++ point :: right).Perm rs)
    (hmiddle : before.length = rs.length / 2)
    (hbefore : ∀ p ∈ before, coordinate (depth % 2) p < coordinate (depth % 2) point + 1)
    (hright : ∀ q ∈ right, coordinate (depth % 2) point < coordinate (depth % 2) q + 1)
    (hcross : ∀ p ∈ before, ∀ q ∈ right, coordinate (depth % 2) p < coordinate (depth % 2) q + 1)
    (hleftTree : Generates (depth + 1) before leftTree)
    (hrightTree : Generates (depth + 1) right rightTree) :
    Generates depth rs (.node ⟨point, depth % 2⟩ leftTree rightTree) := by
  have hleft := exactSort_perm (depth % 2) before
  have hmore := exactSort_perm (depth % 2) right
  have hloose : ∀ l, (exactSort (depth % 2) l).Pairwise fun p q =>
      coordinate (depth % 2) p < coordinate (depth % 2) q + 1 := by
    intro l
    apply (exactSort_sorted (depth % 2) l).imp
    intro p q hle
    linarith
  refine .node ((hleft.append (hmore.cons point)).trans hperm) ?_ (hleft.length_eq.trans hmiddle)
    (hleftTree.of_perm hleft.symm) (hrightTree.of_perm hmore.symm)
  simp only [comparator_nonpos, List.pairwise_append, List.pairwise_cons, List.forall_mem_cons]
  refine ⟨hloose before, ⟨fun q hq => hright q (hmore.mem_iff.mp hq), hloose right⟩, ?_⟩
  intro p hp
  exact ⟨hbefore p (hleft.mem_iff.mp hp),
    fun q hq => hcross p (hleft.mem_iff.mp hp) q (hmore.mem_iff.mp hq)⟩

/-- Every range has a record that stands in its middle in the exact order. -/
structure Parts (axis : ℕ) (rs before : List Record) (point : Record) (right : List Record) :
    Prop where
  perm : (before ++ point :: right).Perm rs
  middle : before.length = rs.length / 2
  below : ∀ r ∈ before, coordinate axis r ≤ coordinate axis point
  above : ∀ r ∈ right, coordinate axis point ≤ coordinate axis r

theorem exists_parts (axis : ℕ) {rs : List Record} (h : rs ≠ []) :
    ∃ before point right, Parts axis rs before point right := by
  have hperm := exactSort_perm axis rs
  have hsorted := exactSort_sorted axis rs
  have hlength := hperm.length_eq
  have hpos := List.length_pos_of_ne_nil h
  have hmiddle : rs.length / 2 < (exactSort axis rs).length := by omega
  have hsplit : (exactSort axis rs).take (rs.length / 2) ++ (exactSort axis rs)[rs.length / 2] ::
      (exactSort axis rs).drop (rs.length / 2 + 1) = exactSort axis rs := by
    rw [List.getElem_cons_drop, List.take_append_drop]
  rw [← hsplit, List.pairwise_append, List.pairwise_cons] at hsorted
  obtain ⟨-, ⟨habove, -⟩, hbelow⟩ := hsorted
  refine ⟨_, _, _, ⟨by rw [hsplit]; exact hperm, ?_, ?_, habove⟩⟩
  · rw [List.length_take]
    omega
  · intro r hr
    exact hbelow r hr _ List.mem_cons_self

theorem Parts.lengths {axis : ℕ} {rs before right : List Record} {point : Record}
    (h : Parts axis rs before point right) : before.length < rs.length ∧ right.length < rs.length := by
  have hlength := h.perm.length_eq
  rw [List.length_append, List.length_cons] at hlength
  omega

theorem exists_tree (depth : ℕ) (rs : List Record) : ∃ t, Generates depth rs t := by
  induction hn : rs.length using Nat.strongRecOn generalizing depth rs with
  | ind n ih =>
    by_cases hempty : rs = []
    · rw [hempty]
      exact ⟨.nil, .null⟩
    · obtain ⟨before, point, right, hparts⟩ := exists_parts (depth % 2) hempty
      obtain ⟨hbefore, hright⟩ := hparts.lengths
      obtain ⟨leftTree, hleftTree⟩ := ih before.length (by omega) (depth + 1) before rfl
      obtain ⟨rightTree, hrightTree⟩ := ih right.length (by omega) (depth + 1) right rfl
      refine ⟨_, generates_node hparts.perm hparts.middle ?_ ?_ ?_ hleftTree hrightTree⟩
      · intro p hp
        linarith [hparts.below p hp]
      · intro q hq
        linarith [hparts.above q hq]
      · intro p hp q hq
        linarith [hparts.below p hp, hparts.above q hq]

/-! ## When every tree is ordered -/

/-- The records of a range are compared within `int`. In the exact order, none of them is less
than 1 away from the one in the middle without having its coordinate, and so on in the ranges
before and after it. -/
inductive Clear : ℕ → List Record → Prop where
  | intro {depth rs}
      (fits : Fits (depth % 2) rs)
      (apart : ∀ before point right, Parts (depth % 2) rs before point right → ∀ r ∈ rs,
        coordinate (depth % 2) r = coordinate (depth % 2) point ∨
          1 ≤ |coordinate (depth % 2) r - coordinate (depth % 2) point|)
      (left : ∀ before point right, Parts (depth % 2) rs before point right →
        Clear (depth + 1) before)
      (right : ∀ before point right, Parts (depth % 2) rs before point right →
        Clear (depth + 1) right) :
    Clear depth rs

/-- A record that is larger than the one in the middle by less than 1 can take its place. -/
theorem unordered_above {depth : ℕ} {rs before right : List Record} {point u : Record}
    (h : Parts (depth % 2) rs before point right) (hu : u ∈ right)
    (hlarger : coordinate (depth % 2) point < coordinate (depth % 2) u)
    (hnear : coordinate (depth % 2) u < coordinate (depth % 2) point + 1) :
    ∃ t, Generates depth rs t ∧ ¬ Ordered t := by
  obtain ⟨leftTree, hleftTree⟩ := exists_tree (depth + 1) before
  obtain ⟨rightTree, hrightTree⟩ := exists_tree (depth + 1) (point :: right.erase u)
  have hmore : ∀ q ∈ point :: right.erase u, coordinate (depth % 2) point ≤ coordinate (depth % 2) q := by
    rw [List.forall_mem_cons]
    exact ⟨le_rfl, fun q hq => h.above q (List.mem_of_mem_erase hq)⟩
  refine ⟨.node ⟨u, depth % 2⟩ leftTree rightTree, ?_, ?_⟩
  · refine generates_node ?_ h.middle ?_ ?_ ?_ hleftTree hrightTree
    · refine List.Perm.trans (List.Perm.append_left before ?_) h.perm
      exact (List.Perm.swap point u (right.erase u)).trans
        ((List.perm_cons_erase hu).symm.cons point)
    · intro p hp
      linarith [h.below p hp]
    · intro q hq
      linarith [hmore q hq]
    · intro p hp q hq
      linarith [h.below p hp, hmore q hq]
  · intro ⟨_, hright, _, _⟩
    have hle := hright point (hrightTree.points_perm.mem_iff.mpr List.mem_cons_self)
    exact absurd hle hlarger.not_ge

/-- So can one that is smaller by less than 1. -/
theorem unordered_below {depth : ℕ} {rs before right : List Record} {point u : Record}
    (h : Parts (depth % 2) rs before point right) (hu : u ∈ before)
    (hsmaller : coordinate (depth % 2) u < coordinate (depth % 2) point)
    (hnear : coordinate (depth % 2) point < coordinate (depth % 2) u + 1) :
    ∃ t, Generates depth rs t ∧ ¬ Ordered t := by
  obtain ⟨leftTree, hleftTree⟩ := exists_tree (depth + 1) (point :: before.erase u)
  obtain ⟨rightTree, hrightTree⟩ := exists_tree (depth + 1) right
  have hfewer : ∀ p ∈ point :: before.erase u, coordinate (depth % 2) p ≤ coordinate (depth % 2) point := by
    rw [List.forall_mem_cons]
    exact ⟨le_rfl, fun p hp => h.below p (List.mem_of_mem_erase hp)⟩
  refine ⟨.node ⟨u, depth % 2⟩ leftTree rightTree, ?_, ?_⟩
  · refine generates_node ?_ ?_ ?_ ?_ ?_ hleftTree hrightTree
    · have hback : (before.erase u ++ u :: right).Perm (before ++ right) :=
        List.perm_middle.trans ((List.perm_cons_erase hu).symm.append_right right)
      exact ((hback.cons point).trans List.perm_middle.symm).trans h.perm
    · rw [← h.middle, List.length_cons, List.length_erase_of_mem hu]
      have hpos := List.length_pos_of_mem hu
      omega
    · intro p hp
      linarith [hfewer p hp]
    · intro q hq
      linarith [h.above q hq]
    · intro p hp q hq
      linarith [hfewer p hp, h.above q hq]
  · intro ⟨hleft, _, _, _⟩
    have hle := hleft point (hleftTree.points_perm.mem_iff.mpr List.mem_cons_self)
    exact absurd hle hsmaller.not_ge

/-- If all trees of a range are ordered, the range is clear. -/
theorem clear_of_ordered (depth : ℕ) (rs : List Record)
    (h : ∀ t, Generates depth rs t → Within t ∧ Ordered t) : Clear depth rs := by
  induction hn : rs.length using Nat.strongRecOn generalizing depth rs with
  | ind n ih =>
    have hnode : ∀ before point right, Parts (depth % 2) rs before point right →
        ∀ leftTree rightTree, Generates (depth + 1) before leftTree →
          Generates (depth + 1) right rightTree →
            (Within leftTree ∧ Ordered leftTree) ∧ Within rightTree ∧ Ordered rightTree := by
      intro before point right hparts leftTree rightTree hleft hright
      obtain ⟨hwithin, htree⟩ := h _ (generates_node hparts.perm hparts.middle
        (fun p hp => by linarith [hparts.below p hp]) (fun q hq => by linarith [hparts.above q hq])
        (fun p hp q hq => by linarith [hparts.below p hp, hparts.above q hq]) hleft hright)
      exact ⟨⟨hwithin.2.1, htree.2.2.1⟩, hwithin.2.2, htree.2.2.2⟩
    refine .intro ?_ ?_ ?_ ?_
    · obtain ⟨t, ht⟩ := exists_tree depth rs
      exact ht.fits (h t ht).1
    · intro before point right hparts u hu
      by_contra hclose
      rw [not_or, not_le, abs_lt] at hclose
      obtain ⟨hne, hlow, hhigh⟩ := hclose
      have hunordered : ∃ t, Generates depth rs t ∧ ¬ Ordered t := by
        rw [← hparts.perm.mem_iff, List.mem_append, List.mem_cons] at hu
        rcases hu with hu | rfl | hu
        · exact unordered_below hparts hu (lt_of_le_of_ne (hparts.below u hu) hne) (by linarith)
        · exact absurd rfl hne
        · exact unordered_above hparts hu (lt_of_le_of_ne (hparts.above u hu) (Ne.symm hne))
            (by linarith)
      obtain ⟨t, ht, hnot⟩ := hunordered
      exact hnot (h t ht).2
    · intro before point right hparts
      obtain ⟨rightTree, hright⟩ := exists_tree (depth + 1) right
      refine ih before.length (by have := hparts.lengths; omega) (depth + 1) before ?_ rfl
      intro t ht
      exact (hnode before point right hparts t rightTree ht hright).1
    · intro before point right hparts
      obtain ⟨leftTree, hleft⟩ := exists_tree (depth + 1) before
      refine ih right.length (by have := hparts.lengths; omega) (depth + 1) right ?_ rfl
      intro t ht
      exact (hnode before point right hparts leftTree t hleft ht).2

/-- If what is up to the middle of one order of a range has a property, and nothing behind the
middle of another order has it, the middle of the other order has it. -/
theorem middle_of_front {before right before' right' : List Record} {point point' : Record}
    (h : (before ++ point :: right).Perm (before' ++ point' :: right'))
    (hlength : before'.length ≤ before.length) (p : Record → Prop) [DecidablePred p]
    (hfront : ∀ r ∈ before, p r) (hpoint : p point) (hbehind : ∀ r ∈ right', ¬ p r) :
    p point' := by
  by_contra hpoint'
  have hcount := h.countP_eq fun r => decide (p r)
  have hall : before.countP (fun r => decide (p r)) = before.length := by
    rw [List.countP_eq_length]
    simpa using hfront
  have hnone : right'.countP (fun r => decide (p r)) = 0 := by
    rw [List.countP_eq_zero]
    simpa using hbehind
  have hmost : before'.countP (fun r => decide (p r)) ≤ before'.length := List.countP_le_length
  rw [List.countP_append, List.countP_append, List.countP_cons, List.countP_cons, hall, hnone,
    if_pos (decide_eq_true hpoint), if_neg (by simpa using hpoint')] at hcount
  omega

theorem perm_swap_sides (before right : List Record) (point : Record) :
    (right ++ point :: before).Perm (before ++ point :: right) :=
  List.perm_middle.trans ((List.perm_append_comm.cons point).trans List.perm_middle.symm)

/-- In a clear range every order that a sort may choose is exact at the middle. -/
theorem parts_of_sorted {axis : ℕ} {rs before right : List Record} {point : Record}
    (hperm : (before ++ point :: right).Perm rs) (hmiddle : before.length = rs.length / 2)
    (hbefore : ∀ p ∈ before, coordinate axis p < coordinate axis point + 1)
    (hright : ∀ q ∈ right, coordinate axis point < coordinate axis q + 1)
    (hapart : ∀ before' point' right', Parts axis rs before' point' right' → ∀ r ∈ rs,
      coordinate axis r = coordinate axis point' ∨
        1 ≤ |coordinate axis r - coordinate axis point'|) :
    Parts axis rs before point right := by
  have hne : rs ≠ [] := by
    rintro rfl
    exact absurd hperm.eq_nil (by simp)
  obtain ⟨before', point', right', hparts⟩ := exists_parts axis hne
  have hclear : ∀ r ∈ rs, coordinate axis r ≤ coordinate axis point' - 1 ∨
      coordinate axis r = coordinate axis point' ∨ coordinate axis point' + 1 ≤ coordinate axis r := by
    intro r hr
    obtain heq | hfar := hapart before' point' right' hparts r hr
    · exact .inr (.inl heq)
    · obtain hle | hle := le_abs.mp hfar
      · exact .inr (.inr (by linarith))
      · exact .inl (by linarith)
  have hmem : ∀ r, r ∈ before ∨ r = point ∨ r ∈ right → r ∈ rs := by
    intro r hr
    rw [← hperm.mem_iff, List.mem_append, List.mem_cons]
    exact hr
  have hlength := hperm.length_eq
  have hlength' := hparts.perm.length_eq
  have hmiddle' := hparts.middle
  rw [List.length_append, List.length_cons] at hlength hlength'
  have hpoint : coordinate axis point = coordinate axis point' := by
    have hsame := hperm.trans hparts.perm.symm
    obtain hlow | heq | hhigh := hclear point (hmem point (.inr (.inl rfl)))
    · -- too many records would be smaller than the one in the middle
      have hsmaller := middle_of_front hsame (by omega)
        (fun r => coordinate axis r < coordinate axis point')
        (fun r hr => by linarith [hbefore r hr]) (by linarith)
        (fun r hr => (hparts.above r hr).not_gt)
      exact absurd hsmaller (lt_irrefl _)
    · exact heq
    · -- too many records would be larger
      have hsides := (perm_swap_sides before right point).trans
        (hsame.trans (perm_swap_sides right' before' point'))
      have hlarger := middle_of_front hsides (by omega)
        (fun r => coordinate axis point' < coordinate axis r)
        (fun r hr => by linarith [hright r hr]) (by linarith)
        (fun r hr => (hparts.below r hr).not_gt)
      exact absurd hlarger (lt_irrefl _)
  refine ⟨hperm, hmiddle, ?_, ?_⟩
  · intro p hp
    obtain hlow | heq | hhigh := hclear p (hmem p (.inl hp))
    · linarith
    · linarith
    · linarith [hbefore p hp]
  · intro q hq
    obtain hlow | heq | hhigh := hclear q (hmem q (.inr (.inr hq)))
    · linarith [hright q hq]
    · linarith
    · linarith

/-- All trees of a clear range are ordered. -/
theorem ordered_of_clear {depth : ℕ} {rs : List Record} {t : Node Record}
    (hclear : Clear depth rs) (h : Generates depth rs t) : Within t ∧ Ordered t := by
  induction h with
  | null => exact ⟨trivial, trivial⟩
  | @node depth rs before point right leftTree rightTree perm sorted middle hleft hright
      ihLeft ihRight =>
    obtain ⟨fits, apart, left, more⟩ := hclear
    simp only [comparator_nonpos, List.pairwise_append, List.pairwise_cons] at sorted
    obtain ⟨-, ⟨hafter, -⟩, hbefore⟩ := sorted
    have hparts : Parts (depth % 2) rs before point right :=
      parts_of_sorted perm middle (fun p hp => hbefore p hp point List.mem_cons_self) hafter apart
    obtain ⟨hwithinLeft, horderedLeft⟩ := ihLeft (left before point right hparts)
    obtain ⟨hwithinRight, horderedRight⟩ := ihRight (more before point right hparts)
    have hpoints := (hleft.points_perm.append (hright.points_perm.cons point)).trans perm
    refine ⟨⟨fits.perm hpoints.symm, hwithinLeft, hwithinRight⟩, ?_, ?_, horderedLeft,
      horderedRight⟩
    · intro r hr
      exact hparts.below r (hleft.points_perm.mem_iff.mp hr)
    · intro r hr
      exact hparts.above r (hright.points_perm.mem_iff.mp hr)

/-- Records whose coordinates are equal or at least 1 apart, and less than `2 ^ 31`, make every
range clear. -/
theorem clear_of_spaced (depth : ℕ) (rs : List Record)
    (h : ∀ axis, ∀ p ∈ rs, ∀ q ∈ rs, coordinate axis p = coordinate axis q ∨
      1 ≤ |coordinate axis p - coordinate axis q|)
    (hclose : ∀ axis, ∀ p ∈ rs, ∀ q ∈ rs,
      |coordinate axis p - coordinate axis q| < 2147483648) : Clear depth rs := by
  induction hn : rs.length using Nat.strongRecOn generalizing depth rs with
  | ind n ih =>
    have hmem : ∀ {before point right}, Parts (depth % 2) rs before point right →
        (∀ r ∈ before, r ∈ rs) ∧ point ∈ rs ∧ ∀ r ∈ right, r ∈ rs := by
      intro before point right hparts
      simp only [← hparts.perm.mem_iff, List.mem_append, List.mem_cons]
      exact ⟨fun _ hr => .inl hr, .inr (.inl trivial), fun _ hr => .inr (.inr hr)⟩
    refine .intro ?_ ?_ ?_ ?_
    · exact fits_iff.mpr (hclose (depth % 2))
    · intro before point right hparts r hr
      exact h (depth % 2) r hr point (hmem hparts).2.1
    · intro before point right hparts
      have hin := (hmem hparts).1
      refine ih before.length (by have := hparts.lengths; omega) (depth + 1) before ?_ ?_ rfl
      · intro axis p hp q hq
        exact h axis p (hin p hp) q (hin q hq)
      · intro axis p hp q hq
        exact hclose axis p (hin p hp) q (hin q hq)
    · intro before point right hparts
      have hin := (hmem hparts).2.2
      refine ih right.length (by have := hparts.lengths; omega) (depth + 1) right ?_ ?_ rfl
      · intro axis p hp q hq
        exact h axis p (hin p hp) q (hin q hq)
      · intro axis p hp q hq
        exact hclose axis p (hin p hp) q (hin q hq)

/-! ## The sorts behind the trees -/

/-- In a clear range every sort has its comparisons defined, down to the last node. -/
theorem chosen_generates {qsort : KdTreeArray.Qsort Record} (h : Sorts qsort) (rs : List Record)
    (base depth : ℕ) (hclear : Clear depth rs) :
    Generates depth rs (chosen qsort compX compY rs base depth) := by
  induction rs, base, depth using KdTreeArray.range_induction qsort compX compY with
  | nil base depth =>
    rw [KdTreeArray.chosen_nil]
    exact .null
  | node range base depth before point right _ hsort hbefore _ ihLeft ihRight =>
    rw [KdTreeArray.chosen_node hsort hbefore]
    obtain ⟨fits, apart, left, more⟩ := hclear
    have hperm := qsort.perm base (KdTreeArray.comparator compX compY (depth % 2)) range
    have hsorted := h base (depth % 2) range fits
    rw [hsort] at hperm hsorted
    have hloose := hsorted
    simp only [comparator_nonpos, List.pairwise_append, List.pairwise_cons] at hloose
    obtain ⟨-, ⟨hafter, -⟩, hfront⟩ := hloose
    have hparts : Parts (depth % 2) range before point right :=
      parts_of_sorted hperm hbefore (fun p hp => hfront p hp point List.mem_cons_self) hafter apart
    exact .node hperm hsorted hbefore (ihLeft (left before point right hparts))
      (ihRight (more before point right hparts))

/-- The choice depends on what the sort does with ranges inside of the range only. -/
theorem chosen_congr {qsort qsort' : KdTreeArray.Qsort Record} (rs : List Record) (base depth : ℕ)
    (h : ∀ base' cmp range, base ≤ base' → base' < base + rs.length → range.length ≤ rs.length →
      qsort.sort base' cmp range = qsort'.sort base' cmp range) :
    chosen qsort compX compY rs base depth = chosen qsort' compX compY rs base depth := by
  induction rs, base, depth using KdTreeArray.range_induction qsort compX compY with
  | nil base depth => rw [KdTreeArray.chosen_nil, KdTreeArray.chosen_nil]
  | node range base depth before point right hne hsort hbefore hright ihLeft ihRight =>
    have hpos := List.length_pos_of_ne_nil hne
    have hsame := h base (KdTreeArray.comparator compX compY (depth % 2)) range le_rfl (by omega) le_rfl
    rw [KdTreeArray.chosen_node hsort hbefore, KdTreeArray.chosen_node (hsame ▸ hsort) hbefore]
    rw [ihLeft fun base' cmp range' hle hlt hlen => h base' cmp range' hle (by omega) (by omega),
      ihRight fun base' cmp range' hle hlt hlen => h base' cmp range' (by omega) (by omega) (by omega)]

theorem comparator_pos {axis : ℕ} (h : axis ≠ 0) :
    KdTreeArray.comparator compX compY axis = KdTreeArray.comparator compX compY 1 :=
  (if_neg h).trans (if_neg one_ne_zero).symm

theorem exactSort_nonpos (axis : ℕ) (rs : List Record) :
    (exactSort axis rs).Pairwise fun p q => KdTreeArray.comparator compX compY axis p q ≤ 0 := by
  apply (exactSort_sorted axis rs).imp
  intro p q hle
  rw [comparator_nonpos]
  linarith

/-- The exact order is one that a sort may return. -/
theorem exists_sorts : ∃ qsort, Sorts qsort := by
  classical
  let sort (_ : ℕ) (cmp : Record → Record → ℤ) (range : List Record) : List Record :=
    if cmp = KdTreeArray.comparator compX compY 0 then exactSort 0 range else exactSort 1 range
  have hperm : ∀ base cmp range, (sort base cmp range).Perm range := by
    intro base cmp range
    simp only [sort]
    split <;> exact exactSort_perm _ range
  refine ⟨⟨sort, hperm⟩, ?_⟩
  intro base axis range _
  simp only [sort]
  split
  case isTrue hcmp =>
    rw [hcmp]
    exact exactSort_nonpos 0 range
  case isFalse hcmp =>
    have haxis : axis ≠ 0 := by
      rintro rfl
      exact hcmp rfl
    rw [comparator_pos haxis]
    exact exactSort_nonpos 1 range

/-- A sort that returns one order for one range, and does as two others do with what lies
left and right of a place. -/
theorem exists_joined (base place : ℕ) {depth : ℕ} {rs sorted : List Record}
    {leftSort rightSort : KdTreeArray.Qsort Record} (hperm : sorted.Perm rs)
    (hsorted : sorted.Pairwise fun p q => KdTreeArray.comparator compX compY (depth % 2) p q ≤ 0)
    (hleft : Sorts leftSort) (hright : Sorts rightSort) :
    ∃ qsort, Sorts qsort ∧
      qsort.sort base (KdTreeArray.comparator compX compY (depth % 2)) rs = sorted ∧
      (∀ base' cmp range, range.length < rs.length → base' < place →
        qsort.sort base' cmp range = leftSort.sort base' cmp range) ∧
      ∀ base' cmp range, range.length < rs.length → place ≤ base' →
        qsort.sort base' cmp range = rightSort.sort base' cmp range := by
  classical
  let sort (base' : ℕ) (cmp : Record → Record → ℤ) (range : List Record) : List Record :=
    if base' = base ∧ cmp = KdTreeArray.comparator compX compY (depth % 2) ∧ range = rs then sorted
    else if base' < place then leftSort.sort base' cmp range
    else rightSort.sort base' cmp range
  have hsort : ∀ base' cmp range, (sort base' cmp range).Perm range := by
    intro base' cmp range
    simp only [sort]
    split_ifs with hsame
    · rw [hsame.2.2]
      exact hperm
    · exact leftSort.perm base' cmp range
    · exact rightSort.perm base' cmp range
  have hother : ∀ range : List Record, range.length < rs.length → range ≠ rs := by
    rintro range hlt rfl
    exact absurd hlt (lt_irrefl _)
  refine ⟨⟨sort, hsort⟩, ?_, if_pos ⟨rfl, rfl, rfl⟩, ?_, ?_⟩
  · intro base' axis range hfits
    simp only [sort]
    split_ifs with hsame
    · rw [hsame.2.1]
      exact hsorted
    · exact hleft base' axis range hfits
    · exact hright base' axis range hfits
  · intro base' cmp range hlt hplace
    have hne := hother range hlt
    simp only [sort, hne, and_false, if_false, if_pos hplace]
  · intro base' cmp range hlt hplace
    have hne := hother range hlt
    simp only [sort, hne, and_false, if_false, if_neg hplace.not_gt]

/-- Every tree of the relation is made by some sort. -/
theorem exists_qsort {depth : ℕ} {rs : List Record} {t : Node Record} (h : Generates depth rs t)
    (base : ℕ) : ∃ qsort, Sorts qsort ∧ chosen qsort compX compY rs base depth = t := by
  induction h generalizing base with
  | null =>
    obtain ⟨qsort, hsorts⟩ := exists_sorts
    exact ⟨qsort, hsorts, KdTreeArray.chosen_nil base _⟩
  | @node depth rs before point right leftTree rightTree perm sorted middle _ _ ihLeft ihRight =>
    obtain ⟨leftSort, hleft, hleftTree⟩ := ihLeft base
    obtain ⟨rightSort, hright, hrightTree⟩ := ihRight (base + before.length + 1)
    obtain ⟨qsort, hsorts, hsort, hlow, hhigh⟩ :=
      exists_joined base (base + before.length + 1) perm sorted hleft hright
    have hlength := perm.length_eq
    rw [List.length_append, List.length_cons] at hlength
    refine ⟨qsort, hsorts, ?_⟩
    rw [KdTreeArray.chosen_node hsort middle]
    have hleftSame := chosen_congr before base (depth + 1)
      fun base' cmp range _ hlt hlen => hlow base' cmp range (by omega) (by omega)
    have hrightSame := chosen_congr right (base + before.length + 1) (depth + 1)
      fun base' cmp range hle _ hlen => hhigh base' cmp range (by omega) hle
    rw [hleftSame, hrightSame, hleftTree, hrightTree]

theorem treeOrdered_iff (qsort : KdTreeArray.Qsort Record) (rs : List Record) :
    TreeOrdered qsort rs ↔ Within (chosen qsort compX compY rs 0 0) ∧
      Ordered (chosen qsort compX compY rs 0 0) := by
  unfold TreeOrdered
  rw [KdTreeArray.dereference_mkKdtree]
  simp

/-- Whatever the sort makes of records that compare equal, the construction compares within
`int` and the tree is ordered exactly if the array is clear. -/
theorem tree_ordered_iff (rs : List Record) :
    (∀ qsort, Sorts qsort → TreeOrdered qsort rs) ↔ Clear 0 rs := by
  simp only [treeOrdered_iff]
  constructor
  · intro h
    refine clear_of_ordered 0 rs fun t ht => ?_
    obtain ⟨qsort, hsorts, rfl⟩ := exists_qsort ht 0
    exact h qsort hsorts
  · intro h qsort hsorts
    exact ordered_of_clear h (chosen_generates hsorts rs 0 0 h)

/-- Two records half a degree apart compare equal, so that the larger one may stay first. -/
theorem tree_unordered :
    ¬ ∀ qsort, Sorts qsort → TreeOrdered qsort [⟨1, 1 / 2, 0⟩, ⟨2, 0, 0⟩] := by
  intro hclaim
  have hclear := clear_of_ordered 0 _ fun t ht => by
    obtain ⟨qsort, hsorts, rfl⟩ := exists_qsort ht 0
    exact (treeOrdered_iff qsort _).mp (hclaim qsort hsorts)
  have hparts : Parts 0 [⟨1, 1 / 2, 0⟩, ⟨2, 0, 0⟩] [⟨2, 0, 0⟩] ⟨1, 1 / 2, 0⟩ [] := by
    refine ⟨List.Perm.swap _ _ _, rfl, ?_, by simp⟩
    intro r hr
    rw [List.mem_singleton.mp hr]
    simp [coordinate]
  obtain ⟨-, apart, -, -⟩ := hclear
  have hapart := apart _ _ _ hparts ⟨2, 0, 0⟩ (by simp)
  norm_num [coordinate, abs_lt] at hapart

/-! ## The tree of the queries -/

/-- A sort that does not look at where its range lies. -/
def ofQsort (qsort : IdQuery.Qsort) : KdTreeArray.Qsort Record where
  sort _ := qsort.sort
  perm _ := qsort.perm

def toTree : Node Record → KdTree.Tree
  | .nil => .null
  | .node x left right => .node x.point x.axis (toTree left) (toTree right)

theorem toTree_chosen (qsort : IdQuery.Qsort) (rs : List Record) (base depth : ℕ) :
    toTree (chosen (ofQsort qsort) compX compY rs base depth) = generateTree qsort rs depth := by
  induction rs, base, depth using KdTreeArray.range_induction (ofQsort qsort) compX compY with
  | nil base depth =>
    rw [KdTreeArray.chosen_nil, generateTree_nil]
    rfl
  | node range base depth before point right _ hsort hbefore _ ihLeft ihRight =>
    rw [KdTreeArray.chosen_node hsort hbefore, generateTree_node hsort hbefore, ← ihLeft, ← ihRight]
    rfl

/-- The walk of the queries sees the tree that the construction leaves in the array. -/
theorem mkKdtree_refines (qsort : IdQuery.Qsort) (rs : List Record) :
    (dereference (mkKdtree (ofQsort qsort) compX compY rs).2
      (mkKdtree (ofQsort qsort) compX compY rs).1).map toTree = some (KdTree.mkKdtree qsort rs) := by
  rw [KdTreeArray.dereference_mkKdtree, Option.map_some, toTree_chosen]
  rfl

end CompSys.KdTreeOrder
