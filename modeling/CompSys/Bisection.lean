import Mathlib.Order.Basic
import Mathlib.Order.Lattice

/-!
# Binary search

A binary search over a window `[lo, hi)` of keys, as what it finds: a position that
holds the key, or the gap where it gives up. Nothing is assumed of the keys, so that
the search can also be asked about on a sequence that is not sorted.
-/
namespace CompSys.Bisection

variable {κ : Type*} [LinearOrder κ]

inductive Landing where
  | hit (position : ℕ)
  | gap (position : ℕ)
  deriving DecidableEq, Repr

def midpoint (lo hi : ℕ) : ℕ := lo + (hi - 1 - lo) / 2

def bisect (key : ℕ → κ) (x : κ) (lo hi : ℕ) : Landing :=
  if lo < hi then
    if key (midpoint lo hi) = x then .hit (midpoint lo hi)
    else if x < key (midpoint lo hi) then bisect key x lo (midpoint lo hi)
    else bisect key x (midpoint lo hi + 1) hi
  else .gap lo
termination_by hi - lo
decreasing_by all_goals unfold midpoint; omega

theorem midpoint_mem {lo hi : ℕ} (h : lo < hi) : lo ≤ midpoint lo hi ∧ midpoint lo hi < hi := by
  unfold midpoint
  omega

section Any

variable (key : ℕ → κ) (x : κ)

/-- A hit lies in the window and holds the key. -/
theorem bisect_hit {lo hi k : ℕ} (h : bisect key x lo hi = .hit k) :
    lo ≤ k ∧ k < hi ∧ key k = x := by
  induction lo, hi using bisect.induct key x with
  | case1 lo hi hlt heq =>
    rw [bisect, if_pos hlt, if_pos heq] at h
    cases h
    obtain ⟨hle, hmid⟩ := midpoint_mem hlt
    exact ⟨hle, hmid, heq⟩
  | case2 lo hi hlt hne hless ih =>
    rw [bisect, if_pos hlt, if_neg hne, if_pos hless] at h
    obtain ⟨-, hmid⟩ := midpoint_mem hlt
    obtain ⟨hlo, hk, hkey⟩ := ih h
    exact ⟨hlo, by omega, hkey⟩
  | case3 lo hi hlt hne hless ih =>
    rw [bisect, if_pos hlt, if_neg hne, if_neg hless] at h
    obtain ⟨hmid, -⟩ := midpoint_mem hlt
    obtain ⟨hlo, hk, hkey⟩ := ih h
    exact ⟨by omega, hk, hkey⟩
  | case4 lo hi hge =>
    rw [bisect, if_neg hge] at h
    cases h

/-- A gap lies in the window or at its end, and the key right of it is larger. -/
theorem bisect_gap {lo hi k : ℕ} (hle : lo ≤ hi) (h : bisect key x lo hi = .gap k) :
    lo ≤ k ∧ k ≤ hi ∧ (k < hi → x < key k) := by
  induction lo, hi using bisect.induct key x with
  | case1 lo hi hlt heq =>
    rw [bisect, if_pos hlt, if_pos heq] at h
    cases h
  | case2 lo hi hlt hne hless ih =>
    rw [bisect, if_pos hlt, if_neg hne, if_pos hless] at h
    obtain ⟨hmid, hmid'⟩ := midpoint_mem hlt
    obtain ⟨hlo, hk, hkey⟩ := ih hmid h
    refine ⟨hlo, by omega, fun _ => ?_⟩
    rcases Nat.lt_or_eq_of_le hk with hk' | hk'
    · exact hkey hk'
    · rw [hk']
      exact hless
  | case3 lo hi hlt hne hless ih =>
    rw [bisect, if_pos hlt, if_neg hne, if_neg hless] at h
    obtain ⟨hmid, hmid'⟩ := midpoint_mem hlt
    obtain ⟨hlo, hk, hkey⟩ := ih hmid' h
    exact ⟨by omega, hk, hkey⟩
  | case4 lo hi hge =>
    rw [bisect, if_neg hge] at h
    cases h
    exact ⟨Nat.le_refl _, hle, fun hlt => absurd hlt hge⟩

/-- A search that gives up at the end of its window has last seen a smaller key there. -/
theorem bisect_end {lo hi : ℕ} (hlt : lo < hi) (h : bisect key x lo hi = .gap hi) :
    key (hi - 1) < x := by
  induction lo, hi using bisect.induct key x with
  | case1 lo hi hlt' heq =>
    rw [bisect, if_pos hlt', if_pos heq] at h
    cases h
  | case2 lo hi hlt' hne hless ih =>
    rw [bisect, if_pos hlt', if_neg hne, if_pos hless] at h
    obtain ⟨hmid, hmid'⟩ := midpoint_mem hlt'
    obtain ⟨-, hk, -⟩ := bisect_gap key x hmid h
    omega
  | case3 lo hi hlt' hne hless ih =>
    rw [bisect, if_pos hlt', if_neg hne, if_neg hless] at h
    rcases Nat.lt_or_ge (midpoint lo hi + 1) hi with hmore | hlast
    · exact ih hmore h
    · obtain ⟨-, hmid⟩ := midpoint_mem hlt'
      have hend : hi - 1 = midpoint lo hi := by omega
      rw [hend]
      exact lt_of_le_of_ne (le_of_not_gt hless) hne
  | case4 lo hi hge => exact absurd hlt hge

/-- The search runs off the end of its window when every key is smaller. -/
theorem bisect_above {lo hi : ℕ} (hle : lo ≤ hi) (hall : ∀ k, lo ≤ k → k < hi → key k < x) :
    bisect key x lo hi = .gap hi := by
  induction lo, hi using bisect.induct key x with
  | case1 lo hi hlt heq =>
    obtain ⟨hmid, hmid'⟩ := midpoint_mem hlt
    exact absurd heq (hall _ hmid hmid').ne
  | case2 lo hi hlt hne hless ih =>
    obtain ⟨hmid, hmid'⟩ := midpoint_mem hlt
    exact absurd hless (hall _ hmid hmid').not_gt
  | case3 lo hi hlt hne hless ih =>
    obtain ⟨hmid, hmid'⟩ := midpoint_mem hlt
    rw [bisect, if_pos hlt, if_neg hne, if_neg hless]
    apply ih
    · exact hmid'
    · intro k hk hk'
      exact hall k (by omega) hk'
  | case4 lo hi hge =>
    have heq : lo = hi := by omega
    rw [bisect, if_neg hge, heq]

end Any

section Sorted

/-- The keys of the window do not decrease. -/
def SortedOn (key : ℕ → κ) (lo hi : ℕ) : Prop :=
  ∀ i j, lo ≤ i → i ≤ j → j < hi → key i ≤ key j

/-- A key that occurs in a sorted window is found. -/
theorem bisect_finds {key : ℕ → κ} {x : κ} {lo hi k : ℕ} (h : SortedOn key lo hi)
    (hlo : lo ≤ k) (hhi : k < hi) (hk : key k = x) : ∃ k', bisect key x lo hi = .hit k' := by
  induction lo, hi using bisect.induct key x with
  | case1 lo hi hlt heq => exact ⟨midpoint lo hi, by rw [bisect, if_pos hlt, if_pos heq]⟩
  | case2 lo hi hlt hne hless ih =>
    obtain ⟨hmid, hmid'⟩ := midpoint_mem hlt
    have hkmid : k < midpoint lo hi := by
      by_contra hge
      have hle := h (midpoint lo hi) k hmid (by omega) hhi
      rw [hk] at hle
      exact absurd hless hle.not_gt
    rw [bisect, if_pos hlt, if_neg hne, if_pos hless]
    exact ih (fun i j hi hij hj => h i j hi hij (by omega)) hlo hkmid
  | case3 lo hi hlt hne hless ih =>
    obtain ⟨hmid, hmid'⟩ := midpoint_mem hlt
    have hkmid : midpoint lo hi < k := by
      by_contra hge
      have hle := h k (midpoint lo hi) hlo (by omega) hmid'
      rw [hk] at hle
      exact hne (le_antisymm (le_of_not_gt hless) hle)
    rw [bisect, if_pos hlt, if_neg hne, if_neg hless]
    exact ih (fun i j hi hij hj => h i j (by omega) hij hj) (by omega) hhi
  | case4 lo hi hge => omega

/-- Positions with equal keys have only equal keys between them. -/
def Grouped (key : ℕ → κ) (n : ℕ) : Prop :=
  ∀ i j k, i ≤ j → j ≤ k → k < n → key i = key k → key j = key i

/-- Where a search that hits has gone from its first midpoint. -/
theorem bisect_hit_cases {key : ℕ → κ} {x : κ} {lo hi k : ℕ} (hlt : lo < hi)
    (h : bisect key x lo hi = .hit k) :
    key (midpoint lo hi) = x ∨
      (x < key (midpoint lo hi) ∧ bisect key x lo (midpoint lo hi) = .hit k) ∨
      (key (midpoint lo hi) < x ∧ bisect key x (midpoint lo hi + 1) hi = .hit k) := by
  rw [bisect, if_pos hlt] at h
  split at h
  case isTrue heq => exact .inl heq
  case isFalse hne =>
    split at h
    case isTrue hless => exact .inr (.inl ⟨hless, h⟩)
    case isFalse hless => exact .inr (.inr ⟨lt_of_le_of_ne (le_of_not_gt hless) hne, h⟩)

/-- In a grouped sequence the search for a key that also stands right of the midpoint
does not go left. -/
theorem not_left {key : ℕ → κ} {x : κ} {n lo hi k p : ℕ} (hgrouped : Grouped key n)
    (hlt : lo < hi) (hp : midpoint lo hi ≤ p) (hn : p < n) (hkey : key p = x)
    (h : bisect key x lo hi = .hit k) : key (midpoint lo hi) ≤ x := by
  rcases bisect_hit_cases hlt h with heq | ⟨hless, hleft⟩ | ⟨hmore, -⟩
  · exact heq.le
  · obtain ⟨-, hk, hkx⟩ := bisect_hit key x hleft
    have hmid := hgrouped k (midpoint lo hi) p (Nat.le_of_lt hk) hp hn (hkx.trans hkey.symm)
    exact (hmid.trans hkx).le
  · exact hmore.le

/-- In a grouped sequence the search for a key that also stands left of the midpoint
does not go right. -/
theorem not_right {key : ℕ → κ} {x : κ} {n lo hi k p : ℕ} (hgrouped : Grouped key n)
    (hlt : lo < hi) (hhi : hi ≤ n) (hp : p ≤ midpoint lo hi) (hkey : key p = x)
    (h : bisect key x lo hi = .hit k) : x ≤ key (midpoint lo hi) := by
  rcases bisect_hit_cases hlt h with heq | ⟨hless, -⟩ | ⟨hmore, hright⟩
  · exact heq.ge
  · exact hless.le
  · obtain ⟨hk, hk', hkx⟩ := bisect_hit key x hright
    have hmid := hgrouped p (midpoint lo hi) k hp (by omega) (by omega) (hkey.trans hkx.symm)
    exact (hmid.trans hkey).ge

/-- In a grouped sequence a search misses one of two keys that stand in the wrong order. -/
theorem bisect_misses {key : ℕ → κ} {n : ℕ} (hgrouped : Grouped key n) {i j : ℕ} (hij : i < j)
    (hinv : key j < key i) {lo hi : ℕ} (hlo : lo ≤ i) (hhi : j < hi) (hn : hi ≤ n) {k k' : ℕ}
    (hi' : bisect key (key i) lo hi = .hit k) (hj' : bisect key (key j) lo hi = .hit k') :
    False := by
  induction hsize : hi - lo using Nat.strongRecOn generalizing lo hi with
  | ind size ih =>
    have hlt : lo < hi := by omega
    obtain ⟨hmid, hmid'⟩ := midpoint_mem hlt
    rcases Nat.lt_or_ge (midpoint lo hi) i with hbelow | hge
    · -- both stand right of the midpoint, and both searches go there
      have hxle := not_left hgrouped hlt (Nat.le_of_lt hbelow) (by omega) rfl hi'
      have hyle := not_left hgrouped hlt (by omega) (by omega) rfl hj'
      have hyne : key (midpoint lo hi) ≠ key j := by
        intro heq
        have hbetween := hgrouped (midpoint lo hi) i j (Nat.le_of_lt hbelow) (Nat.le_of_lt hij) (by omega) heq
        exact hinv.ne (heq.symm.trans hbetween.symm)
      have hylt := lt_of_le_of_ne hyle hyne
      have hxlt := hylt.trans hinv
      rw [bisect, if_pos hlt, if_neg hxlt.ne, if_neg hxlt.not_gt] at hi'
      rw [bisect, if_pos hlt, if_neg hylt.ne, if_neg hylt.not_gt] at hj'
      exact ih (hi - (midpoint lo hi + 1)) (by omega) (by omega) hhi hn hi' hj' rfl
    · rcases Nat.lt_or_ge j (midpoint lo hi) with habove | hle
      · -- both stand left of the midpoint
        have hxle := not_right hgrouped hlt hn (by omega) rfl hi'
        have hyle := not_right hgrouped hlt hn (Nat.le_of_lt habove) rfl hj'
        have hxne : key i ≠ key (midpoint lo hi) := by
          intro heq
          have hbetween := hgrouped i j (midpoint lo hi) (Nat.le_of_lt hij) (Nat.le_of_lt habove) (by omega) heq
          exact hinv.ne hbetween
        have hxlt := lt_of_le_of_ne hxle hxne
        have hylt := hinv.trans hxlt
        rw [bisect, if_pos hlt, if_neg hxlt.ne', if_pos hxlt] at hi'
        rw [bisect, if_pos hlt, if_neg hylt.ne', if_pos hylt] at hj'
        exact ih (midpoint lo hi - lo) (by omega) hlo habove (by omega) hi' hj' rfl
      · -- the midpoint parts them, and would have to be on both sides of its key
        have hx := not_right hgrouped hlt hn hge rfl hi'
        have hy := not_left hgrouped hlt hle (by omega) rfl hj'
        exact absurd hinv (hx.trans hy).not_gt

end Sorted

end CompSys.Bisection
