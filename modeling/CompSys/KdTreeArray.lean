import CompSys.HalvedTree

/-!
# The construction of the k-d tree in its array

`generate_tree` of `coord_query_kdtree.c` with its nodes as it makes them: a node points
into the one array that all calls sort, and its two calls go on with the ranges before
and after the slot that it points to.
-/
namespace CompSys.KdTreeArray

open HalvedTree

universe u

variable {α : Type u}

/-- The fields of `struct node` other than its children. -/
structure Fields (α : Type u) where
  point : α
  axis : ℕ

/-- The empty tree is NULL. -/
abbrev Node (α : Type u) := BinaryTree (Fields α)

/-- The sort of the standard library, of which nothing is assumed but that it permutes the
elements of its range. What it does with them may depend on where they are. -/
structure Qsort (α : Type u) where
  sort : ℕ → (α → α → ℤ) → List α → List α
  perm : ∀ base cmp range, (sort base cmp range).Perm range

/-- `qsort(rs + base, n, sizeof(*rs), cmp)`. -/
def sortRange (qsort : Qsort α) (cmp : α → α → ℤ) (rs : List α) (base n : ℕ) : List α :=
  rs.take base ++ qsort.sort base cmp ((rs.drop base).take n) ++ rs.drop (base + n)

variable (qsort : Qsort α) (compX compY : α → α → ℤ)

/-- The comparison function of a level. -/
def comparator (axis : ℕ) : α → α → ℤ := if axis = 0 then compX else compY

/-- The call for the range of `n` elements from `base` on: the node that it returns, whose
point is a place in the array, and the array at its end. -/
def generateTree (rs : List α) (base depth n : ℕ) : Node ℕ × List α :=
  if n = 0 then (.nil, rs)
  else
    let axis := depth % 2
    let sorted := sortRange qsort (comparator compX compY axis) rs base n
    let left := generateTree sorted base (depth + 1) (n / 2)
    let right := generateTree left.2 (base + n / 2 + 1) (depth + 1) (n - n / 2 - 1)
    (.node ⟨base + n / 2, axis⟩ left.1 right.1, right.2)
termination_by n

def mkKdtree (rs : List α) : Node ℕ × List α := generateTree qsort compX compY rs 0 0 rs.length

/-- The tree as one sees it through its pointers into the array. -/
def dereference (rs : List α) : Node ℕ → Option (Node α)
  | .nil => some .nil
  | .node x left right =>
    match rs[x.point]?, dereference rs left, dereference rs right with
    | some point, some left, some right => some (.node ⟨point, x.axis⟩ left right)
    | _, _, _ => none

/-- The same tree with the records themselves, as the nodes take them when they are made. -/
def chosen (range : List α) (base depth : ℕ) : Node α :=
  match hright : (qsort.sort base (comparator compX compY (depth % 2)) range).drop
      (range.length / 2) with
  | [] => .nil
  | point :: right =>
    .node ⟨point, depth % 2⟩
      (chosen ((qsort.sort base (comparator compX compY (depth % 2)) range).take
        (range.length / 2)) base (depth + 1))
      (chosen right (base + range.length / 2 + 1) (depth + 1))
termination_by range.length
decreasing_by
  all_goals
    have hlength := (qsort.perm base (comparator compX compY (depth % 2)) range).length_eq
    have hdrop := congrArg List.length hright
    rw [List.length_drop, List.length_cons] at hdrop
  · rw [List.length_take]
    omega
  · omega

section Choice

variable {qsort compX compY}

theorem chosen_nil (base depth : ℕ) : chosen qsort compX compY [] base depth = .nil := by
  have hsort : qsort.sort base (comparator compX compY (depth % 2)) [] = [] :=
    (qsort.perm base _ []).eq_nil
  rw [chosen]
  split
  case h_1 => rfl
  case h_2 point right hcons => rw [hsort, List.drop_nil] at hcons; cases hcons

theorem chosen_node {range before right : List α} {base depth : ℕ} {point : α}
    (hsort : qsort.sort base (comparator compX compY (depth % 2)) range = before ++ point :: right)
    (hlength : before.length = range.length / 2) :
    chosen qsort compX compY range base depth = .node ⟨point, depth % 2⟩
      (chosen qsort compX compY before base (depth + 1))
      (chosen qsort compX compY right (base + before.length + 1) (depth + 1)) := by
  have htake : (qsort.sort base (comparator compX compY (depth % 2)) range).take
      (range.length / 2) = before := by
    rw [hsort, ← hlength, List.take_left']
    rfl
  have hdrop : (qsort.sort base (comparator compX compY (depth % 2)) range).drop
      (range.length / 2) = point :: right := by
    rw [hsort, ← hlength, List.drop_left']
    rfl
  rw [chosen]
  split
  case h_1 hnil => rw [hdrop] at hnil; cases hnil
  case h_2 point' right' hcons =>
    rw [hdrop] at hcons
    cases hcons
    rw [htake, ← hlength]

/-- The sorted range has a record in its middle. -/
theorem sort_splits (qsort : Qsort α) (base : ℕ) (cmp : α → α → ℤ) {range : List α}
    (h : range ≠ []) :
    ∃ before point right, qsort.sort base cmp range = before ++ point :: right ∧
      before.length = range.length / 2 ∧ right.length = range.length - range.length / 2 - 1 := by
  have hlength := (qsort.perm base cmp range).length_eq
  have hpos := List.length_pos_of_ne_nil h
  have hmiddle : range.length / 2 < (qsort.sort base cmp range).length := by omega
  refine ⟨(qsort.sort base cmp range).take (range.length / 2), (qsort.sort base cmp range)[range.length / 2],
    (qsort.sort base cmp range).drop (range.length / 2 + 1), ?_, ?_, ?_⟩
  · rw [List.getElem_cons_drop, List.take_append_drop]
  · rw [List.length_take]
    omega
  · rw [List.length_drop]
    omega

end Choice

/-- An induction over the ranges of the calls: what holds of the two sides of the record in
the middle holds of the range. -/
theorem range_induction {motive : List α → ℕ → ℕ → Prop}
    (nil : ∀ base depth, motive [] base depth)
    (node : ∀ range base depth before point right, range ≠ [] →
      qsort.sort base (comparator compX compY (depth % 2)) range = before ++ point :: right →
      before.length = range.length / 2 → right.length = range.length - range.length / 2 - 1 →
      motive before base (depth + 1) → motive right (base + before.length + 1) (depth + 1) →
      motive range base depth)
    (range : List α) (base depth : ℕ) : motive range base depth := by
  induction hn : range.length using Nat.strongRecOn generalizing range base depth with
  | ind n ih =>
    by_cases hempty : range = []
    · rw [hempty]
      exact nil base depth
    · have hpos := List.length_pos_of_ne_nil hempty
      obtain ⟨before, point, right, hsort, hbefore, hright⟩ :=
        sort_splits qsort base (comparator compX compY (depth % 2)) hempty
      exact node range base depth before point right hempty hsort hbefore hright
        (ih before.length (by omega) before base (depth + 1) rfl)
        (ih right.length (by omega) right (base + before.length + 1) (depth + 1) rfl)

section Construction

/-- The points of a tree from left to right. -/
def points (t : Node α) : List α := (inorder t).map Fields.point

theorem points_node (x : Fields α) (left right : Node α) :
    points (.node x left right) = points left ++ x.point :: points right := by
  rw [points, inorder, List.map_append, List.map_cons]
  rfl

/-- The tree holds the records of its range. -/
theorem points_chosen (range : List α) (base depth : ℕ) :
    (points (chosen qsort compX compY range base depth)).Perm range := by
  induction range, base, depth using range_induction qsort compX compY with
  | nil base depth =>
    rw [chosen_nil]
    exact List.Perm.nil
  | node range base depth before point right _ hsort hbefore hright ihLeft ihRight =>
    rw [chosen_node hsort hbefore, points_node]
    have hsorted := qsort.perm base (comparator compX compY (depth % 2)) range
    rw [hsort] at hsorted
    exact (ihLeft.append (ihRight.cons point)).trans hsorted

theorem halved_chosen (range : List α) (base depth : ℕ) :
    Halved range.length (chosen qsort compX compY range base depth) := by
  induction range, base, depth using range_induction qsort compX compY with
  | nil base depth =>
    rw [chosen_nil]
    exact .nil
  | node range base depth before point right hne hsort hbefore hright ihLeft ihRight =>
    rw [chosen_node hsort hbefore]
    refine .node (List.length_pos_of_ne_nil hne) ?_ ?_
    · rw [← hbefore]
      exact ihLeft
    · rw [← hright]
      exact ihRight

theorem axes_chosen (range : List α) (base depth : ℕ) :
    AtDepth (fun depth x => x.axis = depth % 2) depth
      (chosen qsort compX compY range base depth) := by
  induction range, base, depth using range_induction qsort compX compY with
  | nil base depth =>
    rw [chosen_nil]
    trivial
  | node range base depth before point right _ hsort hbefore _ ihLeft ihRight =>
    rw [chosen_node hsort hbefore]
    exact ⟨rfl, ihLeft, ihRight⟩

/-- The places of the points, the first one being at this place. -/
def places (base : ℕ) (t : Node α) : Node ℕ := number (fun i x => ⟨i, x.axis⟩) base t

theorem places_node (base : ℕ) (x : Fields α) (left right : Node α) :
    places base (.node x left right) =
      .node ⟨base + left.numNodes, x.axis⟩ (places base left)
        (places (base + left.numNodes + 1) right) :=
  rfl

theorem sortRange_eq (qsort : Qsort α) (cmp : α → α → ℤ) (before range after : List α) :
    sortRange qsort cmp (before ++ range ++ after) before.length range.length =
      before ++ qsort.sort before.length cmp range ++ after := by
  have htake : (before ++ range ++ after).take before.length = before := by
    rw [List.append_assoc, List.take_left]
  have hrange : ((before ++ range ++ after).drop before.length).take range.length = range := by
    rw [List.append_assoc, List.drop_left, List.take_left]
  have hdrop : (before ++ range ++ after).drop (before.length + range.length) = after := by
    rw [← List.length_append, List.drop_left]
  rw [sortRange, htake, hrange, hdrop]

/-- A call makes the nodes for its choice and leaves the array around its range alone; in
its range it leaves the points from left to right. -/
theorem generateTree_eq (range : List α) (base depth : ℕ) :
    ∀ outside after, outside.length = base →
      generateTree qsort compX compY (outside ++ range ++ after) base depth range.length =
        (places base (chosen qsort compX compY range base depth),
          outside ++ points (chosen qsort compX compY range base depth) ++ after) := by
  induction range, base, depth using range_induction qsort compX compY with
  | nil base depth =>
    intro outside after _
    rw [generateTree, chosen_nil]
    rfl
  | node range base depth before point right hne hsort hbefore hright ihLeft ihRight =>
    rintro outside after rfl
    have hpos := List.length_pos_of_ne_nil hne
    have hsize := (halved_chosen qsort compX compY before outside.length (depth + 1)).numNodes
    have hpoints := (points_chosen qsort compX compY before outside.length (depth + 1)).length_eq
    rw [chosen_node hsort hbefore, places_node, points_node, hsize]
    generalize chosen qsort compX compY before outside.length (depth + 1) = left at *
    generalize chosen qsort compX compY right (outside.length + before.length + 1) (depth + 1) =
      more at *
    have hleft := ihLeft outside (point :: right ++ after) rfl
    have hmore := ihRight (outside ++ points left ++ [point]) after (by simp [hpoints]; omega)
    rw [generateTree, if_neg hpos.ne']
    simp only [sortRange_eq, hsort]
    have hsorted : outside ++ (before ++ point :: right) ++ after =
        outside ++ before ++ (point :: right ++ after) := by simp
    have hresort : outside ++ points left ++ (point :: right ++ after) =
        outside ++ points left ++ [point] ++ right ++ after := by simp
    rw [hsorted, ← hright, ← hbefore, hleft]
    simp only [hresort, hmore]
    simp

/-- The whole array at once. -/
theorem mkKdtree_eq (rs : List α) :
    mkKdtree qsort compX compY rs =
      (places 0 (chosen qsort compX compY rs 0 0), points (chosen qsort compX compY rs 0 0)) := by
  have hcall := generateTree_eq qsort compX compY rs 0 0 [] [] rfl
  rw [List.nil_append, List.append_nil] at hcall
  rw [mkKdtree, hcall, List.nil_append, List.append_nil]

theorem dereference_of_map {rs : List α} {t : Node α} {t' : Node ℕ}
    (h : t'.map (fun x => (rs[x.point]?, x.axis)) = t.map fun x => (some x.point, x.axis)) :
    dereference rs t' = some t := by
  induction t generalizing t' with
  | nil =>
    cases t' with
    | nil => rfl
    | node x left right => cases h
  | node y left right ihLeft ihRight =>
    cases t' with
    | nil => cases h
    | node x left' right' =>
      simp only [BinaryTree.map, BinaryTree.node.injEq, Prod.mk.injEq] at h
      obtain ⟨⟨hpoint, haxis⟩, hleft, hright⟩ := h
      rw [dereference, hpoint, ihLeft hleft, ihRight hright, haxis]

/-- At its place the final array holds the record that a node has taken. -/
theorem dereference_places (t : Node α) : dereference (points t) (places 0 t) = some t := by
  apply dereference_of_map
  apply number_read
  intro i x hx
  rw [Nat.zero_add, points, List.getElem?_map, hx]
  rfl

/-- Through its pointers the tree is the one of the records that were taken. -/
theorem dereference_mkKdtree (rs : List α) :
    dereference (mkKdtree qsort compX compY rs).2 (mkKdtree qsort compX compY rs).1 =
      some (chosen qsort compX compY rs 0 0) := by
  rw [mkKdtree_eq]
  exact dereference_places _

theorem points_places (base : ℕ) (t : Node α) :
    points (places base t) = List.range' base t.numNodes := by
  rw [points, places, inorder_number, List.map_zipWith]
  apply List.ext_getElem
  · simp
  · intro i _ _
    simp

/-- An array is what is before a range, the range, and what is after it. -/
theorem split_range {rs : List α} {base n : ℕ} (h : base + n ≤ rs.length) :
    ∃ outside range after, rs = outside ++ range ++ after ∧ outside.length = base ∧
      range.length = n := by
  refine ⟨rs.take base, (rs.drop base).take n, (rs.drop base).drop n, ?_, ?_, ?_⟩
  · rw [List.append_assoc, List.take_append_drop, List.take_append_drop]
  · rw [List.length_take]
    omega
  · rw [List.length_take, List.length_drop]
    omega

/-- What the sorting of a range has put under its node is still there when the calls for the
two sides have returned. -/
theorem generateTree_keeps_point {rs : List α} {base n : ℕ} (depth : ℕ) (hn : 0 < n)
    (h : base + n ≤ rs.length) :
    (generateTree qsort compX compY rs base depth n).2[base + n / 2]? =
      (sortRange qsort (comparator compX compY (depth % 2)) rs base n)[base + n / 2]? := by
  obtain ⟨outside, range, after, rfl, rfl, rfl⟩ := split_range h
  have hne : range ≠ [] := List.ne_nil_of_length_pos hn
  obtain ⟨before, point, right, hsort, hbefore, -⟩ :=
    sort_splits qsort outside.length (comparator compX compY (depth % 2)) hne
  have hlength := (points_chosen qsort compX compY before outside.length (depth + 1)).length_eq
  have hread : ∀ left more : List α, left.length = before.length →
      (outside ++ (left ++ point :: more) ++ after)[outside.length + range.length / 2]? =
        some point := by
    intro left more hleft
    rw [List.append_assoc, List.getElem?_append_right (by omega), List.append_assoc,
      List.getElem?_append_right (by omega)]
    have hzero : outside.length + range.length / 2 - outside.length - left.length = 0 := by omega
    rw [hzero]
    rfl
  rw [generateTree_eq qsort compX compY range outside.length depth outside after rfl, sortRange_eq,
    hsort, chosen_node hsort hbefore, points_node]
  simp only
  rw [hread _ _ hlength, hread before right rfl]

end Construction

/-- The construction puts every slot of the array under exactly one node, in a balanced tree
with alternating axes. The array is permuted; no call changes the record under its node
after its own sorting, and in the end every node has the record that it has taken when it
was made. -/
theorem kdtree_balanced (qsort : Qsort α) (compX compY : α → α → ℤ) (rs : List α) :
    (mkKdtree qsort compX compY rs).1.numNodes = rs.length ∧
    (mkKdtree qsort compX compY rs).2.Perm rs ∧
    points (mkKdtree qsort compX compY rs).1 = List.range rs.length ∧
    AtDepth (fun depth x => x.axis = depth % 2) 0 (mkKdtree qsort compX compY rs).1 ∧
    (rs ≠ [] → (mkKdtree qsort compX compY rs).1.height = Nat.log 2 rs.length + 1) ∧
    (∀ array base depth n, 0 < n → base + n ≤ array.length →
      (generateTree qsort compX compY array base depth n).2[base + n / 2]? =
        (sortRange qsort (comparator compX compY (depth % 2)) array base n)[base + n / 2]?) ∧
    dereference (mkKdtree qsort compX compY rs).2 (mkKdtree qsort compX compY rs).1 =
      some (chosen qsort compX compY rs 0 0) := by
  rw [mkKdtree_eq]
  have hhalved := halved_chosen qsort compX compY rs 0 0
  refine ⟨?_, points_chosen qsort compX compY rs 0 0, ?_, ?_, ?_, ?_, dereference_places _⟩
  · rw [places, numNodes_number, hhalved.numNodes]
  · rw [points_places, hhalved.numNodes, List.range_eq_range']
  · exact (axes_chosen qsort compX compY rs 0 0).number fun _ _ _ h => h
  · intro hne
    exact (hhalved.number _ 0).height (List.length_pos_of_ne_nil hne)
  · intro array base depth n hn h
    exact generateTree_keeps_point qsort compX compY depth hn h

end CompSys.KdTreeArray
