import Mathlib.Logic.Function.Basic
import Mathlib.Data.List.Basic

/-!
# Open addressing

A table of slots, each empty or holding a key with its value. A key may only be
stored in one of its probes, and is searched among them. Whatever the probes are,
the table represents a finite map as long as every key is within reach of its
probes and is stored once.
-/
namespace CompSys.Probing

variable {ι κ ν : Type*}

abbrev Slots (ι κ ν : Type*) := ι → Option (κ × ν)

/-- What a table has to satisfy for its probes to find everything in it. -/
structure Placed (probes : κ → List ι) (slots : Slots ι κ ν) : Prop where
  within : ∀ i key value, slots i = some (key, value) → i ∈ probes key
  unique : ∀ i j key value value',
    slots i = some (key, value) → slots j = some (key, value') → i = j

/-- The map that the table stands for. -/
def Stores (slots : Slots ι κ ν) (key : κ) (value : ν) : Prop :=
  ∃ i, slots i = some (key, value)

def Absent (slots : Slots ι κ ν) (key : κ) : Prop := ∀ value, ¬ Stores slots key value

def empty : Slots ι κ ν := fun _ => none

theorem empty_absent (key : κ) : Absent (empty : Slots ι κ ν) key := by
  intro value ⟨i, hi⟩
  cases hi

theorem empty_placed (probes : κ → List ι) : Placed probes (empty : Slots ι κ ν) where
  within _ _ _ h := by cases h
  unique _ _ _ _ _ h := by cases h

def findFree (probes : κ → List ι) (slots : Slots ι κ ν) (key : κ) : Option ι :=
  (probes key).find? fun i => (slots i).isNone

theorem findFree_some {probes : κ → List ι} {slots : Slots ι κ ν} {key : κ} {i : ι}
    (h : findFree probes slots key = some i) : i ∈ probes key ∧ slots i = none := by
  obtain ⟨hfree, before, rest, hprobes, -⟩ := List.find?_eq_some_iff_append.mp h
  have hmem : i ∈ probes key := hprobes ▸ List.mem_append_right before List.mem_cons_self
  exact ⟨hmem, Option.isNone_iff_eq_none.mp hfree⟩

/-- A free slot at the head of the probes is taken. -/
theorem findFree_head {probes : κ → List ι} {slots : Slots ι κ ν} {key : κ} {i : ι}
    (hhead : (probes key).head? = some i) (hi : slots i = none) :
    findFree probes slots key = some i := by
  obtain ⟨rest, hrest⟩ := List.head?_eq_some_iff.mp hhead
  simp [findFree, hrest, hi]

section Find

variable [DecidableEq κ]

def holdsKey (slots : Slots ι κ ν) (key : κ) (i : ι) : Bool :=
  (slots i).any fun entry => entry.1 = key

def findKey (probes : κ → List ι) (slots : Slots ι κ ν) (key : κ) : Option ι :=
  (probes key).find? (holdsKey slots key)

theorem holdsKey_eq_true (slots : Slots ι κ ν) (key : κ) (i : ι) :
    holdsKey slots key i = true ↔ ∃ value, slots i = some (key, value) := by
  unfold holdsKey
  cases hslot : slots i with
  | none => simp
  | some entry =>
    obtain ⟨key', value⟩ := entry
    simp

/-- A slot that is found holds the key. -/
theorem findKey_some {probes : κ → List ι} {slots : Slots ι κ ν} {key : κ} {i : ι}
    (h : findKey probes slots key = some i) : ∃ value, slots i = some (key, value) := by
  have hi : holdsKey slots key i = true := List.find?_some h
  exact (holdsKey_eq_true slots key i).mp hi

/-- The search meets the one slot that holds the key. -/
theorem findKey_eq {probes : κ → List ι} {slots : Slots ι κ ν} (h : Placed probes slots)
    {key : κ} {value : ν} {i : ι} (hi : slots i = some (key, value)) :
    findKey probes slots key = some i := by
  cases hfind : findKey probes slots key with
  | none =>
    have hnone := List.find?_eq_none.mp hfind i (h.within i key value hi)
    have hholds := (holdsKey_eq_true slots key i).mpr ⟨value, hi⟩
    exact absurd hholds hnone
  | some j =>
    obtain ⟨value', hj⟩ := findKey_some hfind
    rw [h.unique j i key value' value hj hi]

/-- The search fails only for a key that no slot holds. -/
theorem findKey_none {probes : κ → List ι} {slots : Slots ι κ ν} (h : Placed probes slots)
    {key : κ} : findKey probes slots key = none ↔ Absent slots key := by
  constructor
  · intro hnone value ⟨i, hi⟩
    rw [findKey_eq h hi] at hnone
    cases hnone
  · intro habsent
    cases hfind : findKey probes slots key with
    | none => rfl
    | some i =>
      obtain ⟨value, hi⟩ := findKey_some hfind
      exact absurd ⟨i, hi⟩ (habsent value)

end Find

section Write

variable [DecidableEq ι]

/-- Storing a key in one of its probes, free or its own, keeps the table searchable. -/
theorem Placed.write {probes : κ → List ι} {slots : Slots ι κ ν} (h : Placed probes slots)
    {key : κ} {value : ν} {i : ι} (hi : i ∈ probes key)
    (honly : ∀ j value', slots j = some (key, value') → j = i) :
    Placed probes (Function.update slots i (some (key, value))) where
  within := by
    intro j key' value' hj
    by_cases hji : j = i
    · subst hji
      rw [Function.update_self] at hj
      cases hj
      exact hi
    · rw [Function.update_of_ne hji] at hj
      exact h.within j key' value' hj
  unique := by
    intro j j' key' value' value'' hj hj'
    by_cases hji : j = i <;> by_cases hji' : j' = i
    · rw [hji, hji']
    · subst hji
      rw [Function.update_self] at hj
      rw [Function.update_of_ne hji'] at hj'
      cases hj
      exact (honly j' value'' hj').symm
    · subst hji'
      rw [Function.update_self] at hj'
      rw [Function.update_of_ne hji] at hj
      cases hj'
      exact honly j value' hj
    · rw [Function.update_of_ne hji] at hj
      rw [Function.update_of_ne hji'] at hj'
      exact h.unique j j' key' value' value'' hj hj'

/-- The written key has the new value, and the other keys keep theirs. -/
theorem stores_write [DecidableEq κ] {slots : Slots ι κ ν} {key : κ} (value : ν) {i : ι}
    (honly : ∀ j value', slots j = some (key, value') → j = i)
    (hown : ∀ key' value', slots i = some (key', value') → key' = key) (key' : κ) (value' : ν) :
    Stores (Function.update slots i (some (key, value))) key' value' ↔
      if key' = key then value' = value else Stores slots key' value' := by
  split
  case isTrue hkey =>
    subst hkey
    constructor
    · intro ⟨j, hj⟩
      by_cases hji : j = i
      · subst hji
        rw [Function.update_self] at hj
        cases hj
        rfl
      · rw [Function.update_of_ne hji] at hj
        exact absurd (honly j value' hj) hji
    · intro hvalue
      subst hvalue
      exact ⟨i, Function.update_self i _ slots⟩
  case isFalse hkey =>
    constructor
    · intro ⟨j, hj⟩
      by_cases hji : j = i
      · subst hji
        rw [Function.update_self] at hj
        cases hj
        exact absurd rfl hkey
      · rw [Function.update_of_ne hji] at hj
        exact ⟨j, hj⟩
    · intro ⟨j, hj⟩
      have hji : j ≠ i := by
        intro heq
        subst heq
        exact hkey (hown key' value' hj)
      exact ⟨j, by rw [Function.update_of_ne hji]; exact hj⟩

end Write

/-- Every key sits in the first one of its probes. -/
def AtHome (home : κ → ι) (slots : Slots ι κ ν) : Prop :=
  ∀ i key value, slots i = some (key, value) → i = home key

theorem empty_atHome (home : κ → ι) : AtHome home (empty : Slots ι κ ν) := by
  intro i key value h
  cases h

section Rehash

variable [DecidableEq ι]

/-- The entries go one after the other to the first free one of their probes, until
one finds none. -/
def insertAll (probes : κ → List ι) : List (κ × ν) → Slots ι κ ν → Option (Slots ι κ ν)
  | [], slots => some slots
  | (key, value) :: entries, slots =>
    match findFree probes slots key with
    | none => none
    | some i => insertAll probes entries (Function.update slots i (some (key, value)))

/-- What has been stored when all entries found a place is what was there before and
the entries. -/
theorem insertAll_some [DecidableEq κ] {probes : κ → List ι} (entries : List (κ × ν))
    {slots slots' : Slots ι κ ν} (h : Placed probes slots)
    (hnodup : (entries.map Prod.fst).Nodup)
    (habsent : ∀ key ∈ entries.map Prod.fst, Absent slots key)
    (hrun : insertAll probes entries slots = some slots') :
    Placed probes slots' ∧
      ∀ key value, Stores slots' key value ↔ Stores slots key value ∨ (key, value) ∈ entries := by
  induction entries generalizing slots with
  | nil =>
    cases hrun
    exact ⟨h, fun key value => by simp⟩
  | cons entry entries ih =>
    obtain ⟨key, value⟩ := entry
    rw [List.map_cons, List.nodup_cons] at hnodup
    obtain ⟨hfresh, hrest⟩ := hnodup
    unfold insertAll at hrun
    split at hrun
    case h_1 => cases hrun
    case h_2 i hfree =>
      obtain ⟨hi, hnone⟩ := findFree_some hfree
      have hkey : Absent slots key := habsent key List.mem_cons_self
      have honly : ∀ j value', slots j = some (key, value') → j = i :=
        fun j value' hj => absurd ⟨j, hj⟩ (hkey value')
      have hown : ∀ key' value', slots i = some (key', value') → key' = key :=
        fun key' value' hslot => by rw [hnone] at hslot; cases hslot
      have hstores := stores_write value honly hown
      have hplaced : Placed probes (Function.update slots i (some (key, value))) :=
        h.write hi honly
      have habsent' : ∀ key' ∈ entries.map Prod.fst,
          Absent (Function.update slots i (some (key, value))) key' := by
        intro key' hmem value' hstored
        have hne : key' ≠ key := by
          intro heq
          exact hfresh (heq ▸ hmem)
        rw [hstores key' value', if_neg hne] at hstored
        exact habsent key' (List.mem_cons_of_mem _ hmem) value' hstored
      obtain ⟨hplaced', hall⟩ := ih hplaced hrest habsent' hrun
      refine ⟨hplaced', fun key' value' => ?_⟩
      rw [hall key' value', hstores key' value', List.mem_cons, Prod.mk.injEq]
      by_cases hk : key' = key
      · have hno : ¬ Stores slots key' value' := hk ▸ hkey value'
        simp [hk, hk ▸ hno]
      · simp [hk]

/-- No entry fails to find a place when no two keys have the same first probe. -/
theorem insertAll_home {probes : κ → List ι} {home : κ → ι}
    (hhome : ∀ key, (probes key).head? = some (home key)) (keys : List κ)
    (hinj : ∀ key ∈ keys, ∀ key' ∈ keys, home key = home key' → key = key')
    (entries : List (κ × ν)) {slots : Slots ι κ ν} (h : AtHome home slots)
    (hentries : ∀ key ∈ entries.map Prod.fst, key ∈ keys)
    (hslots : ∀ key value, Stores slots key value → key ∈ keys)
    (hnodup : (entries.map Prod.fst).Nodup)
    (habsent : ∀ key ∈ entries.map Prod.fst, Absent slots key) :
    ∃ slots', insertAll probes entries slots = some slots' ∧ AtHome home slots' := by
  induction entries generalizing slots with
  | nil => exact ⟨slots, rfl, h⟩
  | cons entry entries ih =>
    obtain ⟨key, value⟩ := entry
    rw [List.map_cons, List.nodup_cons] at hnodup
    obtain ⟨hfresh, hrest⟩ := hnodup
    have hkey : key ∈ keys := hentries key List.mem_cons_self
    have hfree : slots (home key) = none := by
      cases hslot : slots (home key) with
      | none => rfl
      | some stored =>
        obtain ⟨key', value'⟩ := stored
        have hsame := h (home key) key' value' hslot
        have heq := hinj key hkey key' (hslots key' value' ⟨_, hslot⟩) hsame
        subst heq
        exact absurd ⟨_, hslot⟩ (habsent key List.mem_cons_self value')
    rw [insertAll, findFree_head (hhome key) hfree]
    have hupdated : ∀ j key' value',
        Function.update slots (home key) (some (key, value)) j = some (key', value') →
          (j = home key ∧ key' = key) ∨ slots j = some (key', value') := by
      intro j key' value' hj
      by_cases hjh : j = home key
      · subst hjh
        rw [Function.update_self] at hj
        cases hj
        exact .inl ⟨rfl, rfl⟩
      · rw [Function.update_of_ne hjh] at hj
        exact .inr hj
    apply ih
    · intro j key' value' hj
      rcases hupdated j key' value' hj with ⟨hjh, hk⟩ | hslot
      · rw [hjh, hk]
      · exact h j key' value' hslot
    · exact fun key' hmem => hentries key' (List.mem_cons_of_mem _ hmem)
    · intro key' value' ⟨j, hj⟩
      rcases hupdated j key' value' hj with ⟨-, hk⟩ | hslot
      · exact hk ▸ hkey
      · exact hslots key' value' ⟨j, hslot⟩
    · exact hrest
    · intro key' hmem value' ⟨j, hj⟩
      rcases hupdated j key' value' hj with ⟨-, hk⟩ | hslot
      · exact hfresh (hk ▸ hmem)
      · exact habsent key' (List.mem_cons_of_mem _ hmem) value' ⟨j, hslot⟩

end Rehash

end CompSys.Probing
