import Mathlib.Algebra.Ring.Nat
import Mathlib.Data.List.Sort
import Mathlib.Data.Rat.Defs
import CompSys.Bisection

/-!
# Queries by identifier

`id_query_naive.c`, `id_query_indexed.c` and `id_query_binsort.c`: two scans and a
binary search over records that `qsort` has put in order. Every read of an array
shows when it is outside of it.
-/
namespace CompSys.IdQuery

open Bisection

/-- The fields of a place record that queries look at. -/
structure Record where
  osmId : Int64
  lon : ℚ
  lat : ℚ
  deriving DecidableEq

structure OutOfBounds where
  index : ℤ
  deriving DecidableEq, Repr

/-- `xs[i]`. -/
def readAt {α : Type} (xs : List α) (i : ℤ) : Except OutOfBounds α :=
  if i < 0 then .error ⟨i⟩
  else
    match xs[i.toNat]? with
    | some x => .ok x
    | none => .error ⟨i⟩

/-- The loop of the two scans: the first element with the identifier. -/
def scanFrom {α : Type} (xs : List α) (n : ℕ) (osmId : α → Int64) (needle : Int64) (i : ℕ) :
    Except OutOfBounds (Option α) :=
  if i < n then
    match readAt xs i with
    | .error e => .error e
    | .ok x => if osmId x = needle then .ok (some x) else scanFrom xs n osmId needle (i + 1)
  else .ok none
termination_by n - i

structure NaiveData where
  rs : List Record
  n : ℕ

def mkNaive (rs : List Record) : NaiveData := ⟨rs, rs.length⟩

def lookupNaive (data : NaiveData) (needle : Int64) : Except OutOfBounds (Option Record) :=
  scanFrom data.rs data.n Record.osmId needle 0

structure IndexRecord where
  osmId : Int64
  record : Record

structure IndexedData where
  irs : List IndexRecord
  n : ℕ

def mkIndexed (rs : List Record) : IndexedData := ⟨rs.map fun r => ⟨r.osmId, r⟩, rs.length⟩

def lookupIndexed (data : IndexedData) (needle : Int64) : Except OutOfBounds (Option Record) :=
  (scanFrom data.irs data.n IndexRecord.osmId needle 0).map fun found =>
    found.map IndexRecord.record

/-- The difference of two 64-bit identifiers, narrowed to the `int` that is returned. -/
def comp (p q : Record) : ℤ := (p.osmId - q.osmId).toInt32.toInt

/-- What `qsort` asks of a comparison function on the elements of its array. -/
structure Consistent (cmp : Record → Record → ℤ) (rs : List Record) : Prop where
  antisymm : ∀ p ∈ rs, ∀ q ∈ rs, (cmp p q < 0 ↔ 0 < cmp q p)
  trans : ∀ p ∈ rs, ∀ q ∈ rs, ∀ r ∈ rs, cmp p q ≤ 0 → cmp q r ≤ 0 → cmp p r ≤ 0

/-- The sort of the standard library: it moves the elements, into order if the
comparison function is consistent on them. -/
structure Qsort where
  sort : (Record → Record → ℤ) → List Record → List Record
  perm : ∀ cmp rs, (sort cmp rs).Perm rs
  sorted : ∀ cmp rs, Consistent cmp rs → (sort cmp rs).Pairwise fun p q => cmp p q ≤ 0

structure BinsortData where
  rs : List Record
  n : ℤ

def mkBinsort (qsort : Qsort) (rs : List Record) : BinsortData := ⟨qsort.sort comp rs, rs.length⟩

/-- `low + (high - low) / 2`, the division rounding towards zero. -/
def middle (low high : ℤ) : ℤ := low + (high - low).tdiv 2

theorem middle_eq {low high : ℤ} (h : low ≤ high) : middle low high = low + (high - low) / 2 := by
  have hnonneg : 0 ≤ high - low := by omega
  rw [middle, Int.tdiv_eq_ediv_of_nonneg hnonneg]

/-- The `while` loop. The element in the middle is read before the bounds are
compared. -/
def searchLoop (data : BinsortData) (needle : Int64) (low high : ℤ) :
    Except OutOfBounds (Option Record) :=
  match readAt data.rs (middle low high) with
  | .error e => .error e
  | .ok r =>
    if r.osmId = needle then .ok (some r)
    else if high < low then .ok none
    else if needle < r.osmId then searchLoop data needle low (middle low high - 1)
    else searchLoop data needle (middle low high + 1) high
termination_by (high + 1 - low).toNat
decreasing_by
  all_goals
    have hle : low ≤ high := by omega
    have hmid := middle_eq hle
    omega

def lookupBinsort (data : BinsortData) (needle : Int64) : Except OutOfBounds (Option Record) :=
  searchLoop data needle 0 (data.n - 1)

section Scans

theorem readAt_lt {α : Type} {xs : List α} {i : ℕ} (h : i < xs.length) :
    readAt xs i = .ok xs[i] := by
  unfold readAt
  have hnot : ¬ (i : ℤ) < 0 := by omega
  rw [if_neg hnot, Int.toNat_natCast, List.getElem?_eq_getElem h]

theorem readAt_ge {α : Type} {xs : List α} {i : ℕ} (h : xs.length ≤ i) :
    readAt xs i = .error ⟨i⟩ := by
  unfold readAt
  have hnot : ¬ (i : ℤ) < 0 := by omega
  rw [if_neg hnot, Int.toNat_natCast, List.getElem?_eq_none h]

/-- A scan stays inside its array and finds the first element with the identifier. -/
theorem scanFrom_eq {α : Type} (xs : List α) (osmId : α → Int64) (needle : Int64) (i : ℕ) :
    scanFrom xs xs.length osmId needle i =
      .ok ((xs.drop i).find? fun x => osmId x = needle) := by
  induction hn : xs.length - i generalizing i with
  | zero =>
    have hge : xs.length ≤ i := by omega
    rw [scanFrom, if_neg hge.not_gt, List.drop_eq_nil_of_le hge, List.find?_nil]
  | succ n ih =>
    have hlt : i < xs.length := by omega
    have hrest := ih (i + 1) (by omega)
    rw [scanFrom, if_pos hlt, readAt_lt hlt, List.drop_eq_getElem_cons hlt, List.find?_cons]
    by_cases hid : osmId xs[i] = needle
    · simp only [hid, if_true, decide_true]
    · simp only [hid, if_false, decide_false, hrest]

theorem lookupNaive_eq (rs : List Record) (needle : Int64) :
    lookupNaive (mkNaive rs) needle = .ok (rs.find? fun r => r.osmId = needle) :=
  scanFrom_eq rs Record.osmId needle 0

theorem lookupIndexed_eq (rs : List Record) (needle : Int64) :
    lookupIndexed (mkIndexed rs) needle = .ok (rs.find? fun r => r.osmId = needle) := by
  have hscan := scanFrom_eq (mkIndexed rs).irs IndexRecord.osmId needle 0
  have hlength : (mkIndexed rs).irs.length = (mkIndexed rs).n := List.length_map _
  rw [hlength] at hscan
  unfold lookupIndexed
  rw [hscan]
  simp only [Except.map, mkIndexed, List.drop_zero, List.find?_map, Option.map_map]
  congr 1
  exact congrFun Option.map_id _

end Scans

section Search

/-- The identifier at a position of the array. -/
def idAt (rs : List Record) (i : ℕ) : ℤ := ((rs[i]?).map fun r => r.osmId.toInt).getD 0

theorem idAt_lt {rs : List Record} {i : ℕ} (h : i < rs.length) :
    idAt rs i = rs[i].osmId.toInt := by
  simp [idAt, h]

theorem middle_natCast {lo hi : ℕ} (h : lo < hi) : middle lo (hi - 1 : ℤ) = Bisection.midpoint lo hi := by
  have hle : (lo : ℤ) ≤ hi - 1 := by omega
  rw [middle_eq hle, Bisection.midpoint]
  omega

/-- The loop is a binary search that reads the element at the gap where it ends. -/
theorem searchLoop_eq (rs : List Record) (n : ℤ) (needle : Int64) {lo hi : ℕ} (hle : lo ≤ hi)
    (hhi : hi ≤ rs.length) (hnext : hi < rs.length → needle.toInt < idAt rs hi) :
    searchLoop ⟨rs, n⟩ needle lo (hi - 1) =
      match bisect (idAt rs) needle.toInt lo hi with
      | .hit k => .ok rs[k]?
      | .gap k => if k < rs.length then .ok none else .error ⟨k⟩ := by
  induction lo, hi using bisect.induct (idAt rs) needle.toInt with
  | case1 lo hi hlt heq =>
    obtain ⟨-, hmid⟩ := midpoint_mem hlt
    have hin : midpoint lo hi < rs.length := by omega
    rw [idAt_lt hin, Int64.toInt_inj] at heq
    rw [searchLoop, middle_natCast hlt, readAt_lt hin, bisect, if_pos hlt, idAt_lt hin]
    simp only [heq, if_true, List.getElem?_eq_getElem hin]
  | case2 lo hi hlt hne hless ih =>
    obtain ⟨hmid, hmid'⟩ := midpoint_mem hlt
    have hin : midpoint lo hi < rs.length := by omega
    have hrest := ih hmid (by omega) fun _ => hless
    rw [bisect, if_pos hlt, if_neg hne, if_pos hless, ← hrest]
    rw [idAt_lt hin] at hne hless
    rw [Int64.toInt_inj] at hne
    have horder : ¬ (hi - 1 : ℤ) < lo := by omega
    rw [searchLoop, middle_natCast hlt, readAt_lt hin]
    simp only [if_neg hne, if_neg horder, if_pos (Int64.lt_iff_toInt_lt.mpr hless)]
  | case3 lo hi hlt hne hless ih =>
    obtain ⟨hmid, hmid'⟩ := midpoint_mem hlt
    have hin : midpoint lo hi < rs.length := by omega
    have hrest := ih hmid' hhi hnext
    rw [bisect, if_pos hlt, if_neg hne, if_neg hless, ← hrest]
    rw [idAt_lt hin] at hne hless
    rw [Int64.toInt_inj] at hne
    have horder : ¬ (hi - 1 : ℤ) < lo := by omega
    have hright : ¬ needle < rs[midpoint lo hi].osmId :=
      fun hlt' => hless (Int64.lt_iff_toInt_lt.mp hlt')
    rw [searchLoop, middle_natCast hlt, readAt_lt hin]
    simp only [if_neg hne, if_neg horder, if_neg hright]
    rfl
  | case4 lo hi hge =>
    have heq : lo = hi := by omega
    subst heq
    have hmid : middle lo (lo - 1 : ℤ) = lo := by
      have hdiff : (lo - 1 : ℤ) - lo = -1 := by omega
      rw [middle, hdiff]
      exact Int.add_zero _
    have hexit : (lo - 1 : ℤ) < lo := by omega
    rw [searchLoop, bisect, if_neg hge, hmid]
    rcases Nat.lt_or_ge lo rs.length with hin | hout
    · have hkey := hnext hin
      rw [idAt_lt hin] at hkey
      have hne : ¬ rs[lo].osmId = needle := by
        intro heq
        rw [heq] at hkey
        exact absurd hkey (lt_irrefl _)
      rw [readAt_lt hin]
      simp only [if_neg hne, if_pos hexit, if_pos hin]
    · rw [readAt_ge hout]
      simp only [if_neg hout.not_gt]

theorem lookup_eq (rs : List Record) (needle : Int64) :
    lookupBinsort ⟨rs, rs.length⟩ needle =
      match bisect (idAt rs) needle.toInt 0 rs.length with
      | .hit k => .ok rs[k]?
      | .gap k => if k < rs.length then .ok none else .error ⟨k⟩ :=
  searchLoop_eq rs rs.length needle (Nat.zero_le rs.length) le_rfl
    fun hlt => absurd hlt (lt_irrefl rs.length)

end Search

section Lookup

/-- Some stored identifier is not below the needle. -/
def Covered (rs : List Record) (needle : Int64) : Prop := ∃ r ∈ rs, needle ≤ r.osmId

/-- The array is in the order of the identifiers. -/
def Ascending (rs : List Record) : Prop := rs.Pairwise fun p q => p.osmId ≤ q.osmId

/-- The search reads inside the array only, and reports a record with the identifier
if one is stored. -/
def SearchFinds (rs : List Record) (needle : Int64) : Prop :=
  ∃ found, lookupBinsort ⟨rs, rs.length⟩ needle = .ok found ∧
    (∀ r, found = some r → r ∈ rs ∧ r.osmId = needle) ∧
    ((∃ r ∈ rs, r.osmId = needle) → found ≠ none)

variable {rs : List Record} {needle : Int64}

theorem idAt_mem {i : ℕ} (h : i < rs.length) : ∃ r ∈ rs, idAt rs i = r.osmId.toInt :=
  ⟨rs[i], List.getElem_mem h, idAt_lt h⟩

/-- An array whose elements are in order two by two is in order throughout. -/
theorem sortedOn_idAt (h : rs.Pairwise fun p q => p.osmId.toInt ≤ q.osmId.toInt) :
    SortedOn (idAt rs) 0 rs.length := by
  intro i j _ hij hj
  rcases Nat.lt_or_eq_of_le hij with hlt | heq
  · have hi : i < rs.length := by omega
    rw [idAt_lt hi, idAt_lt hj]
    exact List.pairwise_iff_getElem.mp h i j hi hj hlt
  · rw [heq]

theorem Ascending.sortedOn (h : Ascending rs) : SortedOn (idAt rs) 0 rs.length :=
  sortedOn_idAt (h.imp Int64.le_iff_toInt_le.mp)

/-- With a needle above all identifiers the search ends behind the array. -/
theorem lookup_of_not_covered (h : ¬ Covered rs needle) :
    lookupBinsort ⟨rs, rs.length⟩ needle = .error ⟨rs.length⟩ := by
  have hbelow : ∀ k, 0 ≤ k → k < rs.length → idAt rs k < needle.toInt := by
    intro k _ hk
    obtain ⟨r, hr, hid⟩ := idAt_mem hk
    rw [hid]
    by_contra hge
    exact h ⟨r, hr, Int64.le_iff_toInt_le.mpr (by omega)⟩
  rw [lookup_eq, bisect_above (idAt rs) needle.toInt (Nat.zero_le _) hbelow]
  exact if_neg (lt_irrefl rs.length)

/-- A covered needle makes the search end inside a sorted array. -/
theorem gap_inside (h : SortedOn (idAt rs) 0 rs.length) (hcovered : Covered rs needle) {k : ℕ}
    (hland : bisect (idAt rs) needle.toInt 0 rs.length = .gap k) : k < rs.length := by
  obtain ⟨-, hk, -⟩ := bisect_gap _ _ (Nat.zero_le _) hland
  rcases Nat.lt_or_eq_of_le hk with hlt | heq
  · exact hlt
  · -- the covering record stands at or before the last position, which is not below it
    obtain ⟨r, hr, hle⟩ := hcovered
    obtain ⟨p, hp, hpr⟩ := List.mem_iff_getElem.mp hr
    rw [heq] at hland
    have hend := bisect_end _ _ (by omega) hland
    have hlast := h p (rs.length - 1) (Nat.zero_le p) (by omega) (by omega)
    rw [idAt_lt hp, hpr] at hlast
    have hle' := Int64.le_iff_toInt_le.mp hle
    omega

theorem search_of_covered (h : SortedOn (idAt rs) 0 rs.length) (hcovered : Covered rs needle) :
    SearchFinds rs needle := by
  have hlookup := lookup_eq rs needle
  cases hland : bisect (idAt rs) needle.toInt 0 rs.length with
  | hit k =>
    obtain ⟨-, hk, hkey⟩ := bisect_hit _ _ hland
    rw [idAt_lt hk, Int64.toInt_inj] at hkey
    simp only [hland, List.getElem?_eq_getElem hk] at hlookup
    refine ⟨some rs[k], hlookup, ?_, fun _ => by simp⟩
    intro r hr
    cases hr
    exact ⟨List.getElem_mem hk, hkey⟩
  | gap k =>
    simp only [hland, if_pos (gap_inside h hcovered hland)] at hlookup
    refine ⟨none, hlookup, by simp, ?_⟩
    intro ⟨r, hr, hid⟩
    obtain ⟨p, hp, hpr⟩ := List.mem_iff_getElem.mp hr
    have hkey : idAt rs p = needle.toInt := by rw [idAt_lt hp, hpr, hid]
    obtain ⟨k', hhit⟩ := bisect_finds h (Nat.zero_le p) hp hkey
    rw [hhit] at hland
    cases hland

/-- In an array in order the search does what it is for exactly if the needle is not above
all identifiers. -/
theorem search_finds_iff (rs : List Record) (needle : Int64) (h : Ascending rs) :
    SearchFinds rs needle ↔ Covered rs needle := by
  constructor
  · intro ⟨found, hok, _⟩
    by_contra hcovered
    rw [lookup_of_not_covered hcovered] at hok
    cases hok
  · exact search_of_covered h.sortedOn

/-- In five records the loop goes right for 9, and right and left again for 7, which is
missing. -/
theorem search_finds_nine :
    SearchFinds [⟨2, 0, 0⟩, ⟨3, 1, 0⟩, ⟨5, 0, 1⟩, ⟨9, 1, 1⟩, ⟨40, 2, 0⟩] 9 ∧
      SearchFinds [⟨2, 0, 0⟩, ⟨3, 1, 0⟩, ⟨5, 0, 1⟩, ⟨9, 1, 1⟩, ⟨40, 2, 0⟩] 7 := by
  have hascending : Ascending [⟨2, 0, 0⟩, ⟨3, 1, 0⟩, ⟨5, 0, 1⟩, ⟨9, 1, 1⟩, ⟨40, 2, 0⟩] := by
    unfold Ascending
    decide
  have hcovered : ∀ needle : Int64, needle ≤ 40 →
      Covered [⟨2, 0, 0⟩, ⟨3, 1, 0⟩, ⟨5, 0, 1⟩, ⟨9, 1, 1⟩, ⟨40, 2, 0⟩] needle := by
    intro needle hle
    exact ⟨⟨40, 2, 0⟩, by simp, hle⟩
  constructor
  · exact (search_finds_iff _ 9 hascending).mpr (hcovered 9 (by decide))
  · exact (search_finds_iff _ 7 hascending).mpr (hcovered 7 (by decide))

/-- A needle above the only identifier, and any needle in an empty array: the element
behind the end is read. -/
theorem search_leaves_array :
    (Ascending [⟨5, 0, 0⟩] ∧ lookupBinsort ⟨[⟨5, 0, 0⟩], 1⟩ 7 = .error ⟨1⟩ ∧
      ¬ SearchFinds [⟨5, 0, 0⟩] 7) ∧
    Ascending [] ∧ lookupBinsort ⟨[], 0⟩ 7 = .error ⟨0⟩ ∧ ¬ SearchFinds [] 7 := by
  have hone : ¬ Covered [⟨5, 0, 0⟩] 7 := by
    intro ⟨r, hr, hle⟩
    cases List.mem_singleton.mp hr
    exact absurd hle (by decide)
  have hempty : ¬ Covered [] 7 := fun ⟨_, hr, _⟩ => absurd hr List.not_mem_nil
  refine ⟨⟨List.pairwise_singleton _ _, lookup_of_not_covered hone, ?_⟩, List.Pairwise.nil,
    lookup_of_not_covered hempty, ?_⟩
  · intro ⟨found, hok, _⟩
    rw [lookup_of_not_covered hone] at hok
    cases hok
  · intro ⟨found, hok, _⟩
    rw [lookup_of_not_covered hempty] at hok
    cases hok

end Lookup

section Order

/-- The comparison function has every two records in the order of their identifiers. -/
def OrdersById (rs : List Record) : Prop :=
  ∀ p ∈ rs, ∀ q ∈ rs, p.osmId < q.osmId → comp p q < 0 ∧ 0 < comp q p

theorem comp_eq (p q : Record) :
    comp p q = (p.osmId.toInt - q.osmId.toInt).bmod (2 ^ 32) := by
  unfold comp
  rw [Int64.toInt_toInt32, Int64.toInt_sub]
  exact Int.bmod_bmod_of_dvd ⟨4294967296, rfl⟩

/-- Identifiers that are less than `2 ^ 31` apart are in order. -/
theorem ordersById_of_close {rs : List Record}
    (h : ∀ p ∈ rs, ∀ q ∈ rs, q.osmId.toInt - p.osmId.toInt < 2147483648) : OrdersById rs := by
  intro p hp q hq hlt
  have hclose := h p hp q hq
  have hless := Int64.lt_iff_toInt_lt.mp hlt
  have hnarrow : (p.osmId.toInt - q.osmId.toInt).bmod (2 ^ 32) =
      p.osmId.toInt - q.osmId.toInt := Int.bmod_eq_of_le (by omega) (by omega)
  have hnarrow' : (q.osmId.toInt - p.osmId.toInt).bmod (2 ^ 32) =
      q.osmId.toInt - p.osmId.toInt := Int.bmod_eq_of_le (by omega) (by omega)
  rw [comp_eq, comp_eq, hnarrow, hnarrow']
  omega

theorem comp_same {p q : Record} (h : p.osmId = q.osmId) : comp p q = 0 := by
  rw [comp_eq, h, Int.sub_self]
  rfl

theorem OrdersById.comp_nonpos {rs : List Record} (h : OrdersById rs) {p q : Record}
    (hp : p ∈ rs) (hq : q ∈ rs) : comp p q ≤ 0 ↔ p.osmId.toInt ≤ q.osmId.toInt := by
  rcases lt_trichotomy p.osmId.toInt q.osmId.toInt with hlt | heq | hgt
  · have hneg := (h p hp q hq (Int64.lt_iff_toInt_lt.mpr hlt)).1
    omega
  · rw [comp_same (Int64.toInt_inj.mp heq)]
    omega
  · have hpos := (h q hq p hp (Int64.lt_iff_toInt_lt.mpr hgt)).2
    omega

theorem OrdersById.consistent {rs : List Record} (h : OrdersById rs) : Consistent comp rs where
  antisymm := by
    intro p hp q hq
    rcases lt_trichotomy p.osmId.toInt q.osmId.toInt with hlt | heq | hgt
    · have hsigns := h p hp q hq (Int64.lt_iff_toInt_lt.mpr hlt)
      omega
    · have hid := Int64.toInt_inj.mp heq
      rw [comp_same hid, comp_same hid.symm]
    · have hsigns := h q hq p hp (Int64.lt_iff_toInt_lt.mpr hgt)
      omega
  trans := by
    intro p hp q hq r hr hpq hqr
    rw [h.comp_nonpos hp hq] at hpq
    rw [h.comp_nonpos hq hr] at hqr
    rw [h.comp_nonpos hp hr]
    omega

end Order

section Sorting

instance (cmp : Record → Record → ℤ) (rs : List Record) : Decidable (Consistent cmp rs) :=
  decidable_of_iff
    ((∀ p ∈ rs, ∀ q ∈ rs, (cmp p q < 0 ↔ 0 < cmp q p)) ∧
      ∀ p ∈ rs, ∀ q ∈ rs, ∀ r ∈ rs, cmp p q ≤ 0 → cmp q r ≤ 0 → cmp p r ≤ 0)
    ⟨fun h => ⟨h.1, h.2⟩, fun h => ⟨h.antisymm, h.trans⟩⟩

/-- An order that a sort may choose: with a consistent comparison function, larger
identifiers first among the elements that it calls equal, and otherwise larger
identifiers first altogether. -/
def Allowed (cmp : Record → Record → ℤ) (rs : List Record) (p q : Record) : Prop :=
  if Consistent cmp rs then cmp p q < 0 ∨ (cmp p q = 0 ∧ q.osmId.toInt ≤ p.osmId.toInt)
  else q.osmId.toInt ≤ p.osmId.toInt

instance (cmp : Record → Record → ℤ) (rs : List Record) (p q : Record) :
    Decidable (Allowed cmp rs p q) := by
  unfold Allowed
  infer_instance

theorem allowed_total (cmp : Record → Record → ℤ) {rs : List Record} {p q : Record}
    (hp : p ∈ rs) (hq : q ∈ rs) : Allowed cmp rs p q ∨ Allowed cmp rs q p := by
  unfold Allowed
  split
  case isTrue h =>
    have hpq := h.antisymm p hp q hq
    have hqp := h.antisymm q hq p hp
    omega
  case isFalse => omega

theorem allowed_trans (cmp : Record → Record → ℤ) {rs : List Record} {p q r : Record}
    (hp : p ∈ rs) (hq : q ∈ rs) (hr : r ∈ rs) (hpq : Allowed cmp rs p q)
    (hqr : Allowed cmp rs q r) : Allowed cmp rs p r := by
  unfold Allowed at hpq hqr ⊢
  split
  case isTrue h =>
    rw [if_pos h] at hpq hqr
    have hle := h.trans p hp q hq r hr (by omega) (by omega)
    have hback := h.trans r hr p hp q hq
    have hback' := h.trans q hq r hr p hp
    have hpr := h.antisymm p hp r hr
    have hrp := h.antisymm r hr p hp
    have hqp := h.antisymm q hq p hp
    have hpq' := h.antisymm p hp q hq
    have hrq := h.antisymm r hr q hq
    have hqr' := h.antisymm q hq r hr
    omega
  case isFalse h =>
    rw [if_neg h] at hpq hqr
    omega

/-- Elements that may stand in both orders have the same identifier. -/
theorem allowed_antisymm (cmp : Record → Record → ℤ) {rs : List Record} {p q : Record}
    (hp : p ∈ rs) (hq : q ∈ rs) (hpq : Allowed cmp rs p q) (hqp : Allowed cmp rs q p) :
    p.osmId.toInt = q.osmId.toInt := by
  unfold Allowed at hpq hqp
  split at hpq
  case isTrue h =>
    rw [if_pos h] at hqp
    have hsign := h.antisymm p hp q hq
    have hsign' := h.antisymm q hq p hp
    omega
  case isFalse h =>
    rw [if_neg h] at hqp
    omega

/-- An insertion sort by the allowed order. -/
def allowedSort (cmp : Record → Record → ℤ) (rs : List Record) : List Record :=
  (rs.attach.insertionSort fun p q => Allowed cmp rs p.val q.val).map Subtype.val

theorem allowedSort_perm (cmp : Record → Record → ℤ) (rs : List Record) :
    (allowedSort cmp rs).Perm rs := by
  have hperm := (List.perm_insertionSort (fun p q : { r // r ∈ rs } => Allowed cmp rs p.val q.val)
    rs.attach).map Subtype.val
  rwa [List.attach_map_subtype_val] at hperm

theorem allowedSort_sorted (cmp : Record → Record → ℤ) (rs : List Record) :
    (allowedSort cmp rs).Pairwise (Allowed cmp rs) := by
  have htotal : Std.Total fun p q : { r // r ∈ rs } => Allowed cmp rs p.val q.val :=
    ⟨fun p q => allowed_total cmp p.property q.property⟩
  have htrans : IsTrans { r // r ∈ rs } fun p q => Allowed cmp rs p.val q.val :=
    ⟨fun p q r => allowed_trans cmp p.property q.property r.property⟩
  exact List.pairwise_map.mpr (List.pairwise_insertionSort _ rs.attach)

def allowedQsort : Qsort where
  sort := allowedSort
  perm := allowedSort_perm
  sorted := by
    intro cmp rs h
    apply (allowedSort_sorted cmp rs).imp
    intro p q hpq
    rw [Allowed, if_pos h] at hpq
    omega

end Sorting

section Agreement

/-- All three queries stay inside their arrays, and all report nothing or a record with
the identifier. -/
def QueriesAgree (qsort : Qsort) (rs : List Record) (needle : Int64) : Prop :=
  ∃ naive indexed binsort,
    lookupNaive (mkNaive rs) needle = .ok naive ∧
    lookupIndexed (mkIndexed rs) needle = .ok indexed ∧
    lookupBinsort (mkBinsort qsort rs) needle = .ok binsort ∧
    ((naive = none ∧ indexed = none ∧ binsort = none) ∨
      ∃ r r' r'', naive = some r ∧ indexed = some r' ∧ binsort = some r'' ∧
        r.osmId = needle ∧ r'.osmId = needle ∧ r''.osmId = needle)

variable {qsort : Qsort} {rs : List Record} {needle : Int64}

theorem find_absent (h : ∀ r ∈ rs, r.osmId ≠ needle) :
    (rs.find? fun r => r.osmId = needle) = none := by
  apply List.find?_eq_none.mpr
  intro r hr
  simpa using h r hr

theorem find_stored {r : Record} (hr : r ∈ rs) (hid : r.osmId = needle) :
    ∃ r', (rs.find? fun r => r.osmId = needle) = some r' ∧ r'.osmId = needle := by
  cases hfind : rs.find? fun r => r.osmId = needle with
  | none =>
    have hnot := List.find?_eq_none.mp hfind r hr
    simp [hid] at hnot
  | some r' =>
    have hid' := List.find?_some hfind
    exact ⟨r', rfl, of_decide_eq_true hid'⟩

/-- The search runs on the sorted array and has its length. -/
theorem mkBinsort_eq (qsort : Qsort) (rs : List Record) :
    mkBinsort qsort rs = ⟨qsort.sort comp rs, (qsort.sort comp rs).length⟩ := by
  rw [mkBinsort, (qsort.perm comp rs).length_eq]

theorem covered_sort (qsort : Qsort) : Covered (qsort.sort comp rs) needle ↔ Covered rs needle := by
  simp only [Covered, (qsort.perm comp rs).mem_iff]

/-- Nothing is promised for a needle above all identifiers: the search reads past the
array. -/
theorem not_agree_of_not_covered (qsort : Qsort) (h : ¬ Covered rs needle) :
    ¬ QueriesAgree qsort rs needle := by
  intro ⟨_, _, binsort, _, _, hok, _⟩
  rw [mkBinsort_eq, lookup_of_not_covered (mt (covered_sort qsort).mp h)] at hok
  cases hok

/-- Sorted by identifier, the array gives the search what the scans find. -/
theorem agree_of_ordersById (qsort : Qsort) (h : OrdersById rs) (hcovered : Covered rs needle) :
    QueriesAgree qsort rs needle := by
  have hperm := qsort.perm comp rs
  have hsorted : (qsort.sort comp rs).Pairwise fun p q => p.osmId.toInt ≤ q.osmId.toInt := by
    apply (qsort.sorted comp rs h.consistent).imp_of_mem
    intro p q hp hq hpq
    exact (h.comp_nonpos (hperm.mem_iff.mp hp) (hperm.mem_iff.mp hq)).mp hpq
  obtain ⟨found, hlookup, hsome, hstored⟩ :=
    search_of_covered (sortedOn_idAt hsorted) ((covered_sort qsort).mpr hcovered)
  rw [← mkBinsort_eq] at hlookup
  cases found with
  | some r'' =>
    obtain ⟨hr, hid⟩ := hsome r'' rfl
    obtain ⟨r', hfind, hid'⟩ := find_stored (hperm.mem_iff.mp hr) hid
    refine ⟨_, _, _, lookupNaive_eq rs needle, lookupIndexed_eq rs needle, hlookup, ?_⟩
    exact .inr ⟨r', r', r'', hfind, hfind, rfl, hid', hid', hid⟩
  | none =>
    have hnone := find_absent fun r hr hid => hstored ⟨r, hperm.mem_iff.mpr hr, hid⟩ rfl
    exact ⟨none, none, none, (lookupNaive_eq rs needle).trans (congrArg _ hnone),
      (lookupIndexed_eq rs needle).trans (congrArg _ hnone), hlookup, .inl ⟨rfl, rfl, rfl⟩⟩

/-- A query for a stored identifier that agrees has hit. -/
theorem hit_of_agree {r : Record} (hr : r ∈ rs) (h : QueriesAgree qsort rs r.osmId) :
    ∃ k, bisect (idAt (qsort.sort comp rs)) r.osmId.toInt 0 rs.length = .hit k := by
  obtain ⟨naive, indexed, binsort, hnaive, -, hbinsort, hagree⟩ := h
  rw [mkBinsort_eq, lookup_eq, (qsort.perm comp rs).length_eq] at hbinsort
  cases hland : bisect (idAt (qsort.sort comp rs)) r.osmId.toInt 0 rs.length with
  | hit k => exact ⟨k, rfl⟩
  | gap k =>
    rw [hland] at hbinsort
    obtain ⟨r', hfind, -⟩ := find_stored hr rfl
    rw [lookupNaive_eq, hfind] at hnaive
    cases hnaive
    rcases hagree with ⟨hnone, -⟩ | ⟨_, _, _, -, -, hsome, -⟩
    · cases hnone
    · rw [hsome] at hbinsort
      simp only at hbinsort
      split at hbinsort <;> cases hbinsort

theorem allowedSort_mem {i : ℕ} (hi : i < (allowedSort comp rs).length) :
    (allowedSort comp rs)[i] ∈ rs :=
  (allowedSort_perm comp rs).mem_iff.mp (List.getElem_mem hi)

theorem allowedSort_allowed {i j : ℕ} (hi : i < (allowedSort comp rs).length)
    (hj : j < (allowedSort comp rs).length) (hij : i ≤ j) :
    Allowed comp rs (allowedSort comp rs)[i] (allowedSort comp rs)[j] := by
  rcases Nat.lt_or_eq_of_le hij with hlt | heq
  · exact List.pairwise_iff_getElem.mp (allowedSort_sorted comp rs) i j hi hj hlt
  · subst heq
    rcases allowed_total comp (allowedSort_mem hi) (allowedSort_mem hi) with h | h <;> exact h

theorem allowed_congr {p q q' : Record} (h : q.osmId = q'.osmId) :
    Allowed comp rs p q ↔ Allowed comp rs p q' := by
  have hcomp : comp p q = comp p q' := by rw [comp_eq, comp_eq, h]
  unfold Allowed
  rw [hcomp, h]

/-- Equal identifiers stand next to each other. -/
theorem allowedSort_grouped (rs : List Record) :
    Grouped (idAt (allowedSort comp rs)) rs.length := by
  intro i j k hij hjk hk heq
  have hlength := (allowedSort_perm comp rs).length_eq
  have hi' : i < (allowedSort comp rs).length := by omega
  have hj' : j < (allowedSort comp rs).length := by omega
  have hk' : k < (allowedSort comp rs).length := by omega
  rw [idAt_lt hi', idAt_lt hk', Int64.toInt_inj] at heq
  rw [idAt_lt hi', idAt_lt hj']
  have hback := (allowed_congr heq).mpr (allowedSort_allowed hj' hk' hjk)
  exact (allowed_antisymm comp (allowedSort_mem hi') (allowedSort_mem hj')
    (allowedSort_allowed hi' hj' hij) hback).symm

/-- Where the comparison function does not order by identifier, a sort may leave the
array so that the search misses a stored record. -/
theorem ordersById_of_agree
    (h : ∀ needle, Covered rs needle → QueriesAgree allowedQsort rs needle) : OrdersById rs := by
  have hperm := allowedSort_perm comp rs
  have hlength := hperm.length_eq
  intro p hp q hq hlt
  have hless := Int64.lt_iff_toInt_lt.mp hlt
  by_contra hwrong
  have hnot : ¬ Allowed comp rs p q := by
    unfold Allowed
    split
    case isTrue hcons =>
      have hsign := hcons.antisymm p hp q hq
      omega
    case isFalse => omega
  obtain ⟨j, hj, hjp⟩ := List.mem_iff_getElem.mp (hperm.mem_iff.mpr hp)
  obtain ⟨i, hi, hiq⟩ := List.mem_iff_getElem.mp (hperm.mem_iff.mpr hq)
  have hij : i < j := by
    by_contra hge
    have hback := allowedSort_allowed hj hi (by omega)
    rw [hjp, hiq] at hback
    exact hnot hback
  have hinv : idAt (allowedSort comp rs) j < idAt (allowedSort comp rs) i := by
    rw [idAt_lt hi, idAt_lt hj, hjp, hiq]
    exact hless
  obtain ⟨k, hhit⟩ := hit_of_agree hq (h q.osmId ⟨q, hq, Int64.le_refl q.osmId⟩)
  obtain ⟨k', hhit'⟩ := hit_of_agree hp (h p.osmId ⟨p, hp, Int64.le_refl p.osmId⟩)
  rw [← hiq, ← idAt_lt hi] at hhit
  rw [← hjp, ← idAt_lt hj] at hhit'
  exact bisect_misses (allowedSort_grouped rs) hij hinv (Nat.zero_le i) (by omega) le_rfl hhit hhit'

/-- The queries agree, with every sort, for the needles that some stored identifier
covers exactly if the comparison function orders the array by identifier, and for no
other needle. -/
theorem queries_agree_iff (rs : List Record) :
    ((∀ needle, Covered rs needle → ∀ qsort, QueriesAgree qsort rs needle) ↔ OrdersById rs) ∧
      ∀ needle qsort, QueriesAgree qsort rs needle → Covered rs needle := by
  constructor
  · constructor
    · intro h
      exact ordersById_of_agree fun needle hcovered => h needle hcovered allowedQsort
    · intro h needle hcovered qsort
      exact agree_of_ordersById qsort h hcovered
  · intro needle qsort h
    by_contra hcovered
    exact not_agree_of_not_covered qsort hcovered h

/-- A needle above the only identifier, and a pair of identifiers `2 ^ 31` apart, the
smaller of which is not found. -/
theorem queries_disagree :
    ¬ QueriesAgree allowedQsort [⟨5, 0, 0⟩] 7 ∧
      ¬ QueriesAgree allowedQsort [⟨1, 0, 0⟩, ⟨2147483654, 0, 0⟩] 1 := by
  constructor
  · apply not_agree_of_not_covered
    intro ⟨r, hr, hle⟩
    have heq : r = ⟨5, 0, 0⟩ := List.mem_singleton.mp hr
    subst heq
    exact absurd hle (by decide)
  · intro h
    have hsort : allowedSort comp [⟨1, 0, 0⟩, ⟨2147483654, 0, 0⟩] =
        [⟨2147483654, 0, 0⟩, ⟨1, 0, 0⟩] := by decide
    obtain ⟨k, hhit⟩ := hit_of_agree List.mem_cons_self h
    have hgap : bisect (idAt [⟨2147483654, 0, 0⟩, ⟨1, 0, 0⟩]) 1 0 2 = .gap 0 := by
      have hfirst : idAt [⟨2147483654, 0, 0⟩, ⟨1, 0, 0⟩] (midpoint 0 2) = 2147483654 := by decide
      have hempty : bisect (idAt [⟨2147483654, 0, 0⟩, ⟨1, 0, 0⟩]) 1 0 (midpoint 0 2) = .gap 0 := by
        rw [bisect]
        rfl
      rw [bisect, hfirst, hempty]
      rfl
    have hcontra : Landing.gap 0 = .hit k := by
      rw [← hgap, ← hsort]
      exact hhit
    cases hcontra

end Agreement

end CompSys.IdQuery
