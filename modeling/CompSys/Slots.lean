import Mathlib.Data.List.Perm.Basic
import Mathlib.Data.List.Nodup
import Mathlib.Data.List.Range

/-!
# Numbered values put into slots

A row of empty slots into which values are put by their numbers. Values with
different numbers may come in any order, and the slots are full when all
numbers have come.
-/
namespace CompSys.Slots

universe u

variable {α : Type u}

/-- Each value is put into the slot of its number. -/
def fill (slots : List (Option α)) (values : List (Nat × α)) : List (Option α) :=
  values.foldl (fun slots v => slots.set v.1 (some v.2)) slots

theorem fill_concat (slots : List (Option α)) (values : List (Nat × α)) (v : Nat × α) :
    fill slots (values ++ [v]) = (fill slots values).set v.1 (some v.2) := by
  rw [fill, List.foldl_append]
  rfl

@[simp] theorem length_fill (slots : List (Option α)) (values : List (Nat × α)) :
    (fill slots values).length = slots.length := by
  induction values generalizing slots with
  | nil => rfl
  | cons v values ih =>
      have hset := ih (slots.set v.1 (some v.2))
      rwa [List.length_set] at hset

/-- A slot without a value keeps what it holds. -/
theorem getElem?_fill_of_not_mem {i : Nat} (values : List (Nat × α)) :
    ∀ slots : List (Option α), i ∉ values.map Prod.fst → (fill slots values)[i]? = slots[i]? := by
  induction values with
  | nil =>
      intro slots _
      rfl
  | cons v values ih =>
      intro slots hi
      rw [List.map_cons, List.mem_cons, not_or] at hi
      have hset := ih (slots.set v.1 (some v.2)) hi.2
      rw [List.getElem?_set_ne (Ne.symm hi.1)] at hset
      exact hset

/-- The order of values with different numbers does not matter. -/
theorem fill_perm {values values' : List (Nat × α)} (h : values.Perm values')
    (hnodup : (values.map Prod.fst).Nodup) (slots : List (Option α)) :
    fill slots values = fill slots values' := by
  apply h.foldl_eq'
  intro v hv w hw slots
  by_cases hvw : v = w
  · rw [hvw]
  · have hne : v.1 ≠ w.1 := by
      intro heq
      exact hvw (List.inj_on_of_nodup_map hnodup hv hw heq)
    exact List.set_comm _ _ hne

/-- Values numbered from a start on fill the slots from there on. -/
theorem fill_range' (values : List (Nat × α)) : ∀ (filled : List (Option α)),
    values.map Prod.fst = List.range' filled.length values.length →
      fill (filled ++ List.replicate values.length none) values =
        filled ++ values.map fun v => some v.2 := by
  induction values with
  | nil =>
      intro filled _
      rfl
  | cons v values ih =>
      intro filled hnum
      rw [List.map_cons, List.length_cons, List.range'_succ] at hnum
      injection hnum with hfirst hrest
      have hstep : (filled ++ List.replicate (values.length + 1) none).set v.1 (some v.2) =
          (filled ++ [some v.2]) ++ List.replicate values.length none := by
        rw [hfirst, List.set_append_right _ _ (Nat.le_refl _), Nat.sub_self, List.replicate_succ,
          List.set_cons_zero, List.append_assoc, List.singleton_append]
      have hnext := ih (filled ++ [some v.2]) (by rw [hrest, List.length_append]; rfl)
      rw [← hstep, List.append_assoc] at hnext
      exact hnext

/-- All values are in place when all numbers have come, in whatever order. -/
theorem fill_all {values values' : List (Nat × α)} {n : Nat} (h : values.Perm values')
    (hnum : values'.map Prod.fst = List.range n) :
    fill (List.replicate n none) values = values'.map fun v => some v.2 := by
  have hlen : values'.length = n := by
    rw [← List.length_map Prod.fst, hnum, List.length_range]
  have hnodup : (values.map Prod.fst).Nodup := by
    rw [(h.map Prod.fst).nodup_iff, hnum]
    exact List.nodup_range
  rw [fill_perm h hnodup, ← hlen]
  exact fill_range' values' [] (by rw [hnum, ← hlen, List.range_eq_range']; rfl)

/-- Each new number takes one of the empty slots. -/
theorem count_none_fill [BEq α] [LawfulBEq α] {n : Nat} (values : List (Nat × α)) :
    (values.map Prod.fst).Nodup → (∀ v ∈ values, v.1 < n) →
      (fill (List.replicate n none) values).count none = n - values.length := by
  induction values using List.reverseRecOn with
  | nil =>
      intro _ _
      rw [fill, List.foldl_nil, List.count_replicate_self]
      rfl
  | append_singleton values v ih =>
      intro hnodup hlt
      rw [List.map_append, List.nodup_append] at hnodup
      obtain ⟨hvalues, -, hdisjoint⟩ := hnodup
      have hcount := ih hvalues fun w hw => hlt w (List.mem_append_left [v] hw)
      have hv : v.1 < (fill (List.replicate n (none : Option α)) values).length := by
        rw [length_fill, List.length_replicate]
        exact hlt v (List.mem_append_right values List.mem_cons_self)
      have hnew : v.1 ∉ values.map Prod.fst :=
        fun hmem => hdisjoint v.1 hmem v.1 List.mem_cons_self rfl
      have hempty := getElem?_fill_of_not_mem values (List.replicate n none) hnew
      rw [List.getElem?_eq_getElem hv, List.getElem?_replicate] at hempty
      rw [length_fill, List.length_replicate] at hv
      rw [if_pos hv] at hempty
      rw [fill_concat, List.count_set (by simpa using hv), Option.some.inj hempty, hcount,
        List.length_append, List.length_singleton]
      simp only [BEq.rfl, ↓reduceIte]
      have hnone : (some v.2 == (none : Option α)) = false := rfl
      rw [hnone, if_neg Bool.false_ne_true]
      omega

/-! ## Numbers that come more than once -/

/-- The value that has come last for a number. -/
def lastOf (values : List (Nat × α)) (i : Nat) : Option α :=
  (values.reverse.find? fun v => v.1 = i).map Prod.snd

theorem lastOf_concat (values : List (Nat × α)) (v : Nat × α) (i : Nat) :
    lastOf (values ++ [v]) i = if v.1 = i then some v.2 else lastOf values i := by
  rw [lastOf, List.reverse_concat, List.find?_cons]
  by_cases hi : v.1 = i
  · simp [hi]
  · simp [hi, lastOf]

theorem lastOf_eq_none {values : List (Nat × α)} {i : Nat} :
    lastOf values i = none ↔ ∀ v ∈ values, v.1 ≠ i := by
  simp [lastOf]

/-- Each slot holds the value that has come last for it. -/
theorem fill_empty (n : Nat) (values : List (Nat × α)) :
    fill (List.replicate n none) values = (List.range n).map (lastOf values) := by
  induction values using List.reverseRecOn with
  | nil =>
      have hnone : lastOf ([] : List (Nat × α)) = fun _ => none := rfl
      rw [fill, List.foldl_nil, hnone, List.map_const', List.length_range]
  | append_singleton values v ih =>
      rw [fill_concat, ih]
      apply List.ext_getElem
      · simp
      · intro i _ _
        rw [List.getElem_set]
        simp [lastOf_concat]

theorem fill_full_iff [BEq α] [LawfulBEq α] {n : Nat} {values : List (Nat × α)} :
    (fill (List.replicate n none) values).count none = 0 ↔ ∀ i < n, ∃ v ∈ values, v.1 = i := by
  rw [fill_empty, List.count_eq_zero, List.mem_map]
  simp [lastOf_eq_none]

end CompSys.Slots
