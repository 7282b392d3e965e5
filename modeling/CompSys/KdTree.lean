import Mathlib.Algebra.Order.Ring.Rat
import Mathlib.Tactic.Linarith
import CompSys.IdQuery

/-!
# Queries by coordinates

`coord_query_naive.c` and `coord_query_kdtree.c`: the nearest record by a scan and by
a walk down a k-d tree. Coordinates are exact, and distances are compared by their
squares. The walk starts with whatever the allocated result record holds.
-/
namespace CompSys.KdTree

open IdQuery

/-- The square of the distance from a record to the query. -/
def distance (r : Record) (lon lat : ℚ) : ℚ := (r.lon - lon) ^ 2 + (r.lat - lat) ^ 2

/-- The loop of the scan: the closest record so far and its distance. -/
def naiveLoop (lon lat : ℚ) : List Record → Record → ℚ → Record
  | [], closest, _ => closest
  | r :: rs, closest, closestDistance =>
    if distance r lon lat < closestDistance then naiveLoop lon lat rs r (distance r lon lat)
    else naiveLoop lon lat rs closest closestDistance

/-- There is no result for an array without a first record. -/
def lookupNaive (rs : List Record) (lon lat : ℚ) : Option Record :=
  match rs with
  | [] => none
  | first :: rest => some (naiveLoop lon lat rest first (distance first lon lat))

/-- The conversion of a `double` to an `int` rounds towards zero. What it gives where the
rounded number is no `int` is not defined: see `convert`. -/
def truncate (x : ℚ) : ℤ := x.num.tdiv x.den

/-- The conversion where it is defined. -/
def convert (x : ℚ) : Option ℤ :=
  if -2 ^ 31 ≤ truncate x ∧ truncate x < 2 ^ 31 then some (truncate x) else none

def compX (p q : Record) : ℤ := truncate (p.lon - q.lon)

def compY (p q : Record) : ℤ := truncate (p.lat - q.lat)

inductive Tree where
  | null
  | node (point : Record) (axis : ℕ) (left right : Tree)

/-- The comparison function of a level of the tree. -/
def comparator (axis : ℕ) : Record → Record → ℤ := if axis = 0 then compX else compY

/-- A node takes the record in the middle of the sorted array, and the records before
and after it go to its two sides. -/
def generateTree (qsort : Qsort) (rs : List Record) (depth : ℕ) : Tree :=
  match hright : (qsort.sort (comparator (depth % 2)) rs).drop (rs.length / 2) with
  | [] => .null
  | point :: right =>
    .node point (depth % 2)
      (generateTree qsort ((qsort.sort (comparator (depth % 2)) rs).take (rs.length / 2))
        (depth + 1))
      (generateTree qsort right (depth + 1))
termination_by rs.length
decreasing_by
  all_goals
    have hlength := (qsort.perm (comparator (depth % 2)) rs).length_eq
    have hdrop := congrArg List.length hright
    rw [List.length_drop, List.length_cons] at hdrop
  · rw [List.length_take]
    omega
  · omega

def mkKdtree (qsort : Qsort) (rs : List Record) : Tree := generateTree qsort rs 0

/-- The far side is only an alternative to the near one, and the radius is taken from
the node. -/
def kdtreeWalk : Tree → ℚ → ℚ → Record → Record
  | .null, _, _, closest => closest
  | .node point axis left right, lon, lat, closest =>
    let closest := if distance point lon lat < distance closest lon lat then point else closest
    if point.lat = lat ∧ point.lon = lon then point
    else
      let diff := if axis = 0 then point.lon - lon else point.lat - lat
      let radius := distance point lon lat
      if 0 ≤ diff ∨ diff ^ 2 < radius then kdtreeWalk left lon lat closest
      else if diff ≤ 0 ∨ diff ^ 2 < radius then kdtreeWalk right lon lat closest
      else closest

/-- `allocated` is what the new result record holds. -/
def lookupKdtree (node : Tree) (lon lat : ℚ) (allocated : Record) : Record :=
  kdtreeWalk node lon lat allocated

section Naive

def Nearest (rs : List Record) (lon lat : ℚ) (r : Record) : Prop :=
  ∀ r' ∈ rs, distance r lon lat ≤ distance r' lon lat

theorem naiveLoop_nearest (lon lat : ℚ) (rs : List Record) (closest : Record) :
    Nearest (closest :: rs) lon lat (naiveLoop lon lat rs closest (distance closest lon lat)) ∧
      naiveLoop lon lat rs closest (distance closest lon lat) ∈ closest :: rs := by
  induction rs generalizing closest with
  | nil =>
    refine ⟨fun r' hr' => ?_, List.mem_cons_self⟩
    rw [List.mem_singleton.mp hr']
    exact le_rfl
  | cons r rs ih =>
    unfold naiveLoop
    split
    case isTrue hless =>
      obtain ⟨hnear, hmem⟩ := ih r
      refine ⟨fun r' hr' => ?_, List.mem_cons_of_mem _ hmem⟩
      rcases List.mem_cons.mp hr' with heq | hrest
      · rw [heq]
        exact (hnear r List.mem_cons_self).trans hless.le
      · exact hnear r' hrest
    case isFalse hge =>
      obtain ⟨hnear, hmem⟩ := ih closest
      have hclosest := hnear closest List.mem_cons_self
      constructor
      · intro r' hr'
        rcases List.mem_cons.mp hr' with heq | hrest
        · rw [heq]
          exact hclosest
        · rcases List.mem_cons.mp hrest with heq | hrest'
          · rw [heq]
            exact hclosest.trans (le_of_not_gt hge)
          · exact hnear r' (List.mem_cons_of_mem _ hrest')
      · rcases List.mem_cons.mp hmem with heq | hrest
        · rw [heq]
          exact List.mem_cons_self
        · exact List.mem_cons_of_mem _ (List.mem_cons_of_mem _ hrest)

/-- The scan finds a nearest record of every array that is not empty. -/
theorem lookupNaive_nearest {rs : List Record} {lon lat : ℚ} {r : Record}
    (h : lookupNaive rs lon lat = some r) : Nearest rs lon lat r ∧ r ∈ rs := by
  cases rs with
  | nil => cases h
  | cons first rest =>
    cases h
    exact naiveLoop_nearest lon lat rest first

end Naive

section Tree

inductive Tree.Contains : Tree → Record → Prop where
  | point (point axis left right) : Contains (.node point axis left right) point
  | left {left r} (point axis right) : Contains left r → Contains (.node point axis left right) r
  | right {right r} (point axis left) : Contains right r → Contains (.node point axis left right) r

/-- The record in the middle of the sorted array parts the others. -/
theorem generateTree_node {qsort : Qsort} {rs before right : List Record} {depth : ℕ}
    {point : Record} (hsort : qsort.sort (comparator (depth % 2)) rs = before ++ point :: right)
    (hlength : before.length = rs.length / 2) :
    generateTree qsort rs depth = .node point (depth % 2)
      (generateTree qsort before (depth + 1)) (generateTree qsort right (depth + 1)) := by
  have htake : (qsort.sort (comparator (depth % 2)) rs).take (rs.length / 2) = before := by
    rw [hsort, ← hlength, List.take_left']
    rfl
  have hdrop : (qsort.sort (comparator (depth % 2)) rs).drop (rs.length / 2) = point :: right := by
    rw [hsort, ← hlength, List.drop_left']
    rfl
  rw [generateTree]
  split
  case h_1 hnil => rw [hdrop] at hnil; cases hnil
  case h_2 point' right' hcons =>
    rw [hdrop] at hcons
    cases hcons
    rw [htake]

theorem generateTree_nil (qsort : Qsort) (depth : ℕ) : generateTree qsort [] depth = .null := by
  have hsort : qsort.sort (comparator (depth % 2)) [] = [] := (qsort.perm _ []).eq_nil
  rw [generateTree]
  split
  case h_1 => rfl
  case h_2 point right hcons => rw [hsort] at hcons; cases hcons

/-- The tree is built from the records of the array. -/
theorem generateTree_contains (qsort : Qsort) (rs : List Record) (depth : ℕ) (r : Record) :
    (generateTree qsort rs depth).Contains r → r ∈ rs := by
  induction rs, depth using generateTree.induct qsort with
  | case1 rs depth hright =>
    intro h
    unfold generateTree at h
    split at h
    · cases h
    case h_2 point right hcons => rw [hright] at hcons; cases hcons
  | case2 rs depth point right hright ihLeft ihRight =>
    intro h
    unfold generateTree at h
    split at h
    · cases h
    case h_2 point' right' hcons =>
      rw [hright] at hcons
      cases hcons
      have hsorted : ∀ r, r ∈ qsort.sort (comparator (depth % 2)) rs → r ∈ rs :=
        fun r => (qsort.perm _ rs).mem_iff.mp
      have hback : ∀ r ∈ point :: right, r ∈ rs :=
        fun r hr => hsorted r (List.mem_of_mem_drop (hright ▸ hr))
      cases h with
      | point => exact hback _ List.mem_cons_self
      | left _ _ _ hleft => exact hsorted r (List.mem_of_mem_take (ihLeft hleft))
      | right _ _ _ hmore => exact hback r (List.mem_cons_of_mem _ (ihRight hmore))

/-- Below this node the walk goes to the right: the node and the query are on a line
along the node's axis, the node coming first. -/
def TurnsRight (lon lat : ℚ) (point : Record) (axis : ℕ) : Prop :=
  if axis = 0 then point.lat = lat ∧ point.lon < lon else point.lon = lon ∧ point.lat < lat

instance (lon lat : ℚ) (point : Record) (axis : ℕ) : Decidable (TurnsRight lon lat point axis) := by
  unfold TurnsRight
  infer_instance

/-- The record stands where every node above it has it on the side that the query's
position selects there. -/
inductive OnRoute (lon lat : ℚ) : Tree → Record → Prop where
  | point (point axis left right) : OnRoute lon lat (.node point axis left right) point
  | left {point axis left r} (right) : ¬ TurnsRight lon lat point axis → OnRoute lon lat left r →
      OnRoute lon lat (.node point axis left right) r
  | right {point axis right r} (left) : TurnsRight lon lat point axis → OnRoute lon lat right r →
      OnRoute lon lat (.node point axis left right) r

theorem OnRoute.contains {lon lat : ℚ} {t : Tree} {r : Record} (h : OnRoute lon lat t r) :
    t.Contains r := by
  induction h with
  | point point axis left right => exact .point point axis left right
  | left right _ _ ih => exact .left _ _ right ih
  | right left _ _ ih => exact .right _ _ left ih

end Tree

section Walk

variable (lon lat : ℚ)

theorem distance_nonneg (r : Record) : 0 ≤ distance r lon lat := by
  unfold distance
  positivity

theorem distance_eq_zero (r : Record) :
    distance r lon lat = 0 ↔ r.lat = lat ∧ r.lon = lon := by
  unfold distance
  constructor
  · intro h
    have hlon : (r.lon - lon) ^ 2 = 0 := by nlinarith [sq_nonneg (r.lon - lon), sq_nonneg (r.lat - lat)]
    have hlat : (r.lat - lat) ^ 2 = 0 := by nlinarith [sq_nonneg (r.lon - lon), sq_nonneg (r.lat - lat)]
    exact ⟨sub_eq_zero.mp (pow_eq_zero_iff two_ne_zero |>.mp hlat),
      sub_eq_zero.mp (pow_eq_zero_iff two_ne_zero |>.mp hlon)⟩
  · intro ⟨hlat, hlon⟩
    rw [hlat, hlon, sub_self, sub_self]
    norm_num

/-- The walk turns left unless the node is on the query's line and before it. -/
theorem turn_iff (point : Record) (axis : ℕ) :
    (0 ≤ (if axis = 0 then point.lon - lon else point.lat - lat) ∨
      (if axis = 0 then point.lon - lon else point.lat - lat) ^ 2 < distance point lon lat) ↔
      ¬ TurnsRight lon lat point axis := by
  unfold TurnsRight distance
  split
  case isTrue =>
    rw [not_and_or, not_lt, sub_nonneg, lt_add_iff_pos_right, sq_pos_iff, sub_ne_zero, or_comm]
  case isFalse =>
    rw [not_and_or, not_lt, sub_nonneg, lt_add_iff_pos_left, sq_pos_iff, sub_ne_zero, or_comm]

/-- The better one of a node's record and the closest so far. -/
def closer (point closest : Record) : Record :=
  if distance point lon lat < distance closest lon lat then point else closest

theorem closer_le (point closest : Record) :
    distance (closer lon lat point closest) lon lat ≤ distance point lon lat ∧
      distance (closer lon lat point closest) lon lat ≤ distance closest lon lat := by
  unfold closer
  split
  case isTrue h => exact ⟨le_rfl, h.le⟩
  case isFalse h => exact ⟨le_of_not_gt h, le_rfl⟩

/-- What a node does: it ends the walk, or turns left or right. -/
theorem kdtreeWalk_node (point : Record) (axis : ℕ) (left right : Tree) (closest : Record) :
    kdtreeWalk (.node point axis left right) lon lat closest =
      if distance point lon lat = 0 then point
      else if TurnsRight lon lat point axis then
        kdtreeWalk right lon lat (closer lon lat point closest)
      else kdtreeWalk left lon lat (closer lon lat point closest) := by
  rw [kdtreeWalk]
  simp only [turn_iff, distance_eq_zero]
  split
  · rfl
  · by_cases hturn : TurnsRight lon lat point axis
    · have hleft := mt (turn_iff lon lat point axis).mp (not_not_intro hturn)
      have hdiff := (not_or.mp hleft).1
      rw [if_neg (not_not_intro hturn), if_pos (.inl (le_of_not_ge hdiff)), if_pos hturn]
      rfl
    · rw [if_pos hturn, if_neg hturn]
      rfl

/-- The result is at least as near as what the walk started with and as every record on
the route. -/
theorem walk_le (t : Tree) (closest : Record) :
    distance (kdtreeWalk t lon lat closest) lon lat ≤ distance closest lon lat ∧
      ∀ r, OnRoute lon lat t r →
        distance (kdtreeWalk t lon lat closest) lon lat ≤ distance r lon lat := by
  induction t generalizing closest with
  | null => exact ⟨le_rfl, fun r hr => by cases hr⟩
  | node point axis left right ihLeft ihRight =>
    obtain ⟨hpoint, hclosest⟩ := closer_le lon lat point closest
    rw [kdtreeWalk_node]
    split
    case isTrue hzero =>
      rw [hzero]
      exact ⟨distance_nonneg lon lat closest, fun r _ => distance_nonneg lon lat r⟩
    case isFalse =>
      split
      case isTrue hturn =>
        obtain ⟨hle, hroute⟩ := ihRight (closer lon lat point closest)
        refine ⟨hle.trans hclosest, fun r hr => ?_⟩
        cases hr with
        | point => exact hle.trans hpoint
        | left _ hnot => exact absurd hturn hnot
        | right _ _ hright => exact hroute r hright
      case isFalse hturn =>
        obtain ⟨hle, hroute⟩ := ihLeft (closer lon lat point closest)
        refine ⟨hle.trans hclosest, fun r hr => ?_⟩
        cases hr with
        | point => exact hle.trans hpoint
        | left _ _ hleft => exact hroute r hleft
        | right _ hyes => exact absurd hyes hturn

/-- The result is what the walk started with or a record on the route. -/
theorem walk_mem (t : Tree) (closest : Record) :
    kdtreeWalk t lon lat closest = closest ∨ OnRoute lon lat t (kdtreeWalk t lon lat closest) := by
  induction t generalizing closest with
  | null => exact .inl rfl
  | node point axis left right ihLeft ihRight =>
    have hcloser : closer lon lat point closest = point ∨ closer lon lat point closest = closest := by
      unfold closer
      split
      · exact .inl rfl
      · exact .inr rfl
    rw [kdtreeWalk_node]
    split
    case isTrue => exact .inr (.point point axis left right)
    case isFalse =>
      split
      case isTrue hturn =>
        rcases ihRight (closer lon lat point closest) with hsame | hroute
        · rcases hcloser with heq | heq
          · rw [hsame, heq]
            exact .inr (.point point axis left right)
          · exact .inl (hsame.trans heq)
        · exact .inr (.right left hturn hroute)
      case isFalse hturn =>
        rcases ihLeft (closer lon lat point closest) with hsame | hroute
        · rcases hcloser with heq | heq
          · rw [hsame, heq]
            exact .inr (.point point axis left right)
          · exact .inl (hsame.trans heq)
        · exact .inr (.left right hturn hroute)

/-- A record of the route that is at the query's place is taken, whatever the walk
started with. -/
theorem walk_exact (t : Tree) (closest : Record) {r : Record} (hr : OnRoute lon lat t r)
    (hzero : distance r lon lat = 0) : OnRoute lon lat t (kdtreeWalk t lon lat closest) := by
  induction hr generalizing closest with
  | point point axis left right =>
    rw [kdtreeWalk_node, if_pos hzero]
    exact .point point axis left right
  | @left point axis left r right hturn _ ih =>
    rw [kdtreeWalk_node]
    split
    · exact .point point axis left right
    · exact .left right hturn (ih _ hzero)
  | @right point axis right r left hturn _ ih =>
    rw [kdtreeWalk_node]
    split
    · exact .point point axis left right
    · exact .right left hturn (ih _ hzero)

/-- Without a nearer record on the route, the walk returns what it started with. -/
theorem walk_unchanged (t : Tree) (closest : Record)
    (h : ∀ r, OnRoute lon lat t r →
      distance closest lon lat ≤ distance r lon lat ∧ distance r lon lat ≠ 0) :
    kdtreeWalk t lon lat closest = closest := by
  induction t with
  | null => rfl
  | node point axis left right ihLeft ihRight =>
    obtain ⟨hle, hzero⟩ := h point (.point point axis left right)
    have hcloser : closer lon lat point closest = closest := if_neg hle.not_gt
    rw [kdtreeWalk_node, if_neg hzero, hcloser]
    split
    case isTrue hturn => exact ihRight fun r hr => h r (.right left hturn hr)
    case isFalse hturn => exact ihLeft fun r hr => h r (.left right hturn hr)

end Walk

section Lookup

/-- The lookup returns a record of the array that is as near as the one of the scan. -/
def LookupCorrect (qsort : Qsort) (rs : List Record) (lon lat : ℚ) (allocated : Record) : Prop :=
  ∃ naive, lookupNaive rs lon lat = some naive ∧
    lookupKdtree (mkKdtree qsort rs) lon lat allocated ∈ rs ∧
    distance (lookupKdtree (mkKdtree qsort rs) lon lat allocated) lon lat =
      distance naive lon lat

theorem lookupCorrect_iff_nearest (qsort : Qsort) (rs : List Record) (lon lat : ℚ)
    (allocated : Record) :
    LookupCorrect qsort rs lon lat allocated ↔
      lookupKdtree (mkKdtree qsort rs) lon lat allocated ∈ rs ∧
        Nearest rs lon lat (lookupKdtree (mkKdtree qsort rs) lon lat allocated) := by
  constructor
  · intro ⟨naive, hnaive, hmem, heq⟩
    obtain ⟨hnear, -⟩ := lookupNaive_nearest hnaive
    exact ⟨hmem, fun r hr => heq.trans_le (hnear r hr)⟩
  · intro ⟨hmem, hnear⟩
    cases hnaive : lookupNaive rs lon lat with
    | none =>
      cases rs with
      | nil => cases hmem
      | cons first rest => cases hnaive
    | some naive =>
      obtain ⟨hnear', hmem'⟩ := lookupNaive_nearest hnaive
      exact ⟨naive, hnaive, hmem, le_antisymm (hnear naive hmem') (hnear' _ hmem)⟩

/-- The lookup is correct exactly if a nearest record stands on the query's route and
beats the record that was allocated, or is at the query's place, or if the allocated
record happened to be a nearest one of the array. -/
theorem lookup_kdtree_iff (qsort : Qsort) (rs : List Record) (lon lat : ℚ) (allocated : Record) :
    LookupCorrect qsort rs lon lat allocated ↔
      (∃ r, OnRoute lon lat (mkKdtree qsort rs) r ∧ Nearest rs lon lat r ∧
        (distance r lon lat < distance allocated lon lat ∨ distance r lon lat = 0)) ∨
      (allocated ∈ rs ∧ Nearest rs lon lat allocated) := by
  rw [lookupCorrect_iff_nearest]
  have hcontains : ∀ r, OnRoute lon lat (mkKdtree qsort rs) r → r ∈ rs :=
    fun r hr => generateTree_contains qsort rs 0 r hr.contains
  obtain ⟨hle, hroute⟩ := walk_le lon lat (mkKdtree qsort rs) allocated
  unfold lookupKdtree
  constructor
  · intro ⟨hmem, hnear⟩
    by_cases hbeats : ∃ r, OnRoute lon lat (mkKdtree qsort rs) r ∧
        (distance r lon lat < distance allocated lon lat ∨ distance r lon lat = 0)
    · obtain ⟨r, hr, hcase⟩ := hbeats
      have hres := hroute r hr
      rcases hcase with hless | hzero
      · rcases walk_mem lon lat (mkKdtree qsort rs) allocated with hsame | hon
        · rw [hsame] at hres
          exact absurd hless hres.not_gt
        · exact .inl ⟨_, hon, hnear, .inl (hres.trans_lt hless)⟩
      · have hon := walk_exact lon lat (mkKdtree qsort rs) allocated hr hzero
        have hres' := distance_nonneg lon lat (kdtreeWalk (mkKdtree qsort rs) lon lat allocated)
        exact .inl ⟨_, hon, hnear, .inr (le_antisymm (hzero ▸ hres) hres')⟩
    · have hkept : kdtreeWalk (mkKdtree qsort rs) lon lat allocated = allocated := by
        apply walk_unchanged
        intro r hr
        constructor
        · exact le_of_not_gt fun hless => hbeats ⟨r, hr, .inl hless⟩
        · exact fun hzero => hbeats ⟨r, hr, .inr hzero⟩
      rw [hkept] at hmem hnear
      exact .inr ⟨hmem, hnear⟩
  · rintro (⟨r, hr, hnear, hcase⟩ | ⟨hmem, hnear⟩)
    · have hon : OnRoute lon lat (mkKdtree qsort rs)
          (kdtreeWalk (mkKdtree qsort rs) lon lat allocated) := by
        rcases hcase with hless | hzero
        · rcases walk_mem lon lat (mkKdtree qsort rs) allocated with hsame | hon
          · have hres := hroute r hr
            rw [hsame] at hres
            exact absurd hless hres.not_gt
          · exact hon
        · exact walk_exact lon lat (mkKdtree qsort rs) allocated hr hzero
      exact ⟨hcontains _ hon, fun r' hr' => (hroute r hr).trans (hnear r' hr')⟩
    · refine ⟨?_, fun r' hr' => hle.trans (hnear r' hr')⟩
      rcases walk_mem lon lat (mkKdtree qsort rs) allocated with hsame | hon
      · rw [hsame]
        exact hmem
      · exact hcontains _ hon

/-- An allocated record at the query's place that is no record of the array, and a
nearest record on the far side of the root. -/
theorem lookup_kdtree_wrong :
    ¬ LookupCorrect allowedQsort [⟨1, 1, 0⟩] 1 1 ⟨9, 1, 1⟩ ∧
      ¬ LookupCorrect allowedQsort [⟨1, 0, 0⟩, ⟨2, 1, 1⟩, ⟨3, 2, 2⟩] 2 2 ⟨9, 100, 100⟩ := by
  have hone : mkKdtree allowedQsort [⟨1, 1, 0⟩] = .node ⟨1, 1, 0⟩ 0 .null .null := by
    have hsort : allowedQsort.sort (comparator (0 % 2)) [⟨1, 1, 0⟩] = [] ++ [⟨1, 1, 0⟩] := by
      decide +kernel
    rw [mkKdtree, generateTree_node hsort rfl]
    simp only [generateTree_nil, Nat.zero_mod]
  have hthree : mkKdtree allowedQsort [⟨1, 0, 0⟩, ⟨2, 1, 1⟩, ⟨3, 2, 2⟩] =
      .node ⟨2, 1, 1⟩ 0 (.node ⟨1, 0, 0⟩ 1 .null .null) (.node ⟨3, 2, 2⟩ 1 .null .null) := by
    have hsort : allowedQsort.sort (comparator (0 % 2)) [⟨1, 0, 0⟩, ⟨2, 1, 1⟩, ⟨3, 2, 2⟩] =
        [⟨1, 0, 0⟩] ++ ⟨2, 1, 1⟩ :: [⟨3, 2, 2⟩] := by decide +kernel
    have hleft : allowedQsort.sort (comparator ((0 + 1) % 2)) [⟨1, 0, 0⟩] =
        [] ++ [⟨1, 0, 0⟩] := by decide +kernel
    have hright : allowedQsort.sort (comparator ((0 + 1) % 2)) [⟨3, 2, 2⟩] =
        [] ++ [⟨3, 2, 2⟩] := by decide +kernel
    rw [mkKdtree, generateTree_node hsort rfl, generateTree_node hleft rfl,
      generateTree_node hright rfl]
    simp only [generateTree_nil, Nat.zero_mod, Nat.zero_add, Nat.one_mod]
  constructor
  · intro ⟨naive, _, hmem, _⟩
    rw [hone] at hmem
    exact absurd hmem (by decide +kernel)
  · intro ⟨naive, hnaive, _, heq⟩
    have hscan : lookupNaive [⟨1, 0, 0⟩, ⟨2, 1, 1⟩, ⟨3, 2, 2⟩] 2 2 = some ⟨3, 2, 2⟩ := by
      decide +kernel
    rw [hscan] at hnaive
    cases hnaive
    rw [hthree] at heq
    exact absurd heq (by decide +kernel)

end Lookup

end CompSys.KdTree
