import Mathlib.Data.Set.Function

/-!
# Check, then act

Parties claim keys of a table: each checks that its key has no value and stores its own
value in a step of its own later. The table stays exclusive as long as no key is claimed
while another claim of it is pending; otherwise two parties will have stored theirs.
-/
namespace CompSys.CheckThenAct

universe u v w

variable {τ : Type u} {κ : Type v} {β : Type w}

/-- The values of the keys, the parties that have checked, and those that have stored. -/
@[ext]
structure Table (τ : Type u) (κ : Type v) (β : Type w) where
  entries : κ → Option β
  pending : Set τ
  settled : Set τ

inductive Act (τ : Type u) where
  | claim (t : τ)
  | settle (t : τ)

variable (key : τ → κ) (value : τ → β)

/-- No other claim of the key is pending. -/
def Unclaimed (T : Table τ κ β) : Act τ → Prop
  | .claim t => key t ∉ key '' T.pending
  | .settle _ => True

/-- Different parties have different keys, and what a party has stored is there. -/
structure Exclusive (T : Table τ κ β) : Prop where
  absent : ∀ t ∈ T.pending, T.entries (key t) = none
  alone : Set.InjOn key T.pending
  stored : ∀ t ∈ T.settled, T.entries (key t) = some (value t)
  once : Set.InjOn key T.settled

variable {key value}

theorem Exclusive.key_ne {T : Table τ κ β} (h : Exclusive key value T) {t u : τ}
    (ht : t ∈ T.pending) (hu : u ∈ T.settled) : key t ≠ key u := by
  intro heq
  have habsent := h.absent t ht
  rw [heq, h.stored u hu] at habsent
  cases habsent

theorem Exclusive.claim {T : Table τ κ β} (h : Exclusive key value T) {t : τ}
    (habsent : T.entries (key t) = none) (hunclaimed : key t ∉ key '' T.pending) :
    Exclusive key value { T with pending := insert t T.pending } where
  absent := by
    intro u hu
    rcases Set.mem_insert_iff.mp hu with rfl | hu
    · exact habsent
    · exact h.absent u hu
  alone := by
    by_cases ht : t ∈ T.pending
    case pos =>
      rw [Set.insert_eq_of_mem ht]
      exact h.alone
    case neg => exact (Set.injOn_insert ht).mpr ⟨h.alone, hunclaimed⟩
  stored := h.stored
  once := h.once

section Steps

variable [DecidableEq κ]

variable (key value) in
/-- A party may check only an absent key, and it stores its value whatever is there by then. -/
inductive Step (T : Table τ κ β) : Act τ → Table τ κ β → Prop where
  | claim (t : τ) (absent : T.entries (key t) = none) :
      Step T (.claim t) { T with pending := insert t T.pending }
  | settle (t : τ) (claimed : t ∈ T.pending) :
      Step T (.settle t) ⟨Function.update T.entries (key t) (some (value t)), T.pending \ {t},
        insert t T.settled⟩

theorem Exclusive.settle {T : Table τ κ β} (h : Exclusive key value T) {t : τ}
    (ht : t ∈ T.pending) :
    Exclusive key value ⟨Function.update T.entries (key t) (some (value t)), T.pending \ {t},
      insert t T.settled⟩ where
  absent := by
    intro u ⟨hu, hne⟩
    have hkey : key u ≠ key t := by
      intro heq
      exact hne (h.alone hu ht heq)
    simp only [Function.update_of_ne hkey]
    exact h.absent u hu
  alone := h.alone.mono Set.sdiff_subset
  stored := by
    intro u hu
    rcases Set.mem_insert_iff.mp hu with rfl | hu
    · exact Function.update_self _ _ _
    · simp only [Function.update_of_ne (Ne.symm (h.key_ne ht hu))]
      exact h.stored u hu
  once := by
    have hnew : t ∉ T.settled := by
      intro hmem
      exact h.key_ne ht hmem rfl
    refine (Set.injOn_insert hnew).mpr ⟨h.once, ?_⟩
    rintro ⟨u, hu, heq⟩
    exact h.key_ne ht hu heq.symm

theorem Exclusive.step {T T' : Table τ κ β} {a : Act τ} (h : Exclusive key value T)
    (hunclaimed : Unclaimed key T a) (hstep : Step key value T a T') : Exclusive key value T' := by
  cases hstep with
  | claim t habsent => exact h.claim habsent hunclaimed
  | settle t claimed => exact h.settle claimed

theorem Step.absent {T T' : Table τ κ β} {t : τ} (h : Step key value T (.claim t) T') :
    T.entries (key t) = none := by
  cases h with
  | claim _ absent => exact absent

/-- A party that has checked will stay on its way. -/
theorem Step.engaged {T T' : Table τ κ β} {a : Act τ} (h : Step key value T a T') :
    T.pending ∪ T.settled ⊆ T'.pending ∪ T'.settled := by
  intro u hu
  cases h with
  | claim t absent => exact Set.union_subset_union_left _ (Set.subset_insert t _) hu
  | settle t claimed =>
    by_cases heq : u = t
    · exact .inr (.inl heq)
    · exact hu.imp (fun hpending => ⟨hpending, heq⟩) fun hsettled => .inr hsettled

/-- Two parties that are on their way with one key. -/
def Clash (key : τ → κ) (T : Table τ κ β) : Prop :=
  ¬Set.InjOn key (T.pending ∪ T.settled)

theorem Clash.step {T T' : Table τ κ β} {a : Act τ} (h : Clash key T)
    (hstep : Step key value T a T') : Clash key T' :=
  fun hinj => h (hinj.mono hstep.engaged)

/-- A claim by another party while one is pending. -/
theorem Step.clash {T T' : Table τ κ β} {a : Act τ} (hstep : Step key value T a T')
    (hnew : ∀ t, a = .claim t → t ∉ T.pending) (hclaimed : ¬Unclaimed key T a) : Clash key T' := by
  cases hstep with
  | claim t absent =>
    obtain ⟨u, hu, heq⟩ := not_not.mp hclaimed
    intro hinj
    have hsame : u = t :=
      hinj (.inl (Set.mem_insert_of_mem t hu)) (.inl (Set.mem_insert t _)) heq
    exact hnew t rfl (hsame ▸ hu)
  | settle t claimed => exact absurd trivial hclaimed

end Steps

end CompSys.CheckThenAct
