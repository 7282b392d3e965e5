import Mathlib.Logic.Relation

/-!
# Transition systems and reachable states

Every concurrent or long-running component of this development is a set of
initial states and a step relation. An invariant is proved once for the start
and once for a step.
-/
namespace CompSys.Transition

universe u v

variable {σ : Type u}

structure System (σ : Type u) where
  start : σ → Prop
  next : σ → σ → Prop

def Reachable (S : System σ) (s : σ) : Prop :=
  ∃ s₀, S.start s₀ ∧ Relation.ReflTransGen S.next s₀ s

namespace Reachable

variable {S : System σ} {s t : σ}

theorem start (h : S.start s) : Reachable S s := ⟨s, h, .refl⟩

theorem step (h : Reachable S s) (hn : S.next s t) : Reachable S t := by
  obtain ⟨s₀, h₀, hs⟩ := h
  exact ⟨s₀, h₀, hs.tail hn⟩

/-- An invariant of the reachable states; the step may use reachability, so an
invariant already proved can strengthen a later one. -/
theorem invariant {I : σ → Prop} (hstart : ∀ s, S.start s → I s)
    (hstep : ∀ s t, Reachable S s → I s → S.next s t → I t)
    (h : Reachable S s) : I s := by
  obtain ⟨s₀, h₀, hs⟩ := h
  induction hs with
  | refl => exact hstart s₀ h₀
  | tail hs hn ih => exact hstep _ _ ⟨s₀, h₀, hs⟩ ih hn

end Reachable

/-- The system of a step function: `none` where the label is not enabled. -/
def ofStep {l : Type v} (initial : σ) (step : σ → l → Option σ) : System σ where
  start s := s = initial
  next s t := ∃ a, step s a = some t

theorem reachable_of_run {l : Type v} {step : σ → l → Option σ} (labels : List l) {s₀ s t : σ}
    (hs : Reachable (ofStep s₀ step) s) (h : labels.foldlM step s = some t) :
    Reachable (ofStep s₀ step) t := by
  induction labels generalizing s with
  | nil =>
    cases h
    exact hs
  | cons a labels ih =>
    rw [List.foldlM_cons, Option.bind_eq_bind, Option.bind_eq_some_iff] at h
    obtain ⟨s', hs', hrest⟩ := h
    exact ih (hs.step ⟨a, hs'⟩) hrest

/-! ## Runs that keep to a guard -/

section Guard

variable {l : Type v} {step : σ → l → Option σ} {guard : σ → l → Prop}

/-- Every label of the run meets its guard where it is taken. -/
def Respects (step : σ → l → Option σ) (guard : σ → l → Prop) : σ → List l → Prop
  | _, [] => True
  | s, a :: labels => guard s a ∧ ∀ t, step s a = some t → Respects step guard t labels

theorem run_cons {s t : σ} {a : l} {labels : List l} :
    (a :: labels).foldlM step s = some t ↔ ∃ s', step s a = some s' ∧ labels.foldlM step s' = some t := by
  rw [List.foldlM_cons, Option.bind_eq_bind, Option.bind_eq_some_iff]

theorem Respects.cons {a : l} {labels : List l} {s t : σ} (hstep : step s a = some t)
    (hguard : guard s a) (h : Respects step guard t labels) :
    Respects step guard s (a :: labels) := by
  refine ⟨hguard, ?_⟩
  intro t' ht'
  cases hstep.symm.trans ht'
  exact h

theorem respects_of_forall (h : ∀ s a, guard s a) (labels : List l) (s : σ) :
    Respects step guard s labels := by
  induction labels generalizing s with
  | nil => trivial
  | cons a labels ih => exact ⟨h s a, fun t _ => ih t⟩

/-- Whether a run keeps to a guard can be computed along it. -/
instance decidableRespects [∀ s a, Decidable (guard s a)] (s : σ) :
    (labels : List l) → Decidable (Respects step guard s labels)
  | [] => .isTrue trivial
  | a :: labels =>
    match hstep : step s a with
    | none => decidable_of_iff (guard s a)
        ⟨fun h => ⟨h, fun t ht => by cases hstep.symm.trans ht⟩, And.left⟩
    | some t =>
      have := decidableRespects t labels
      decidable_of_iff (guard s a ∧ Respects step guard t labels)
        ⟨fun h => .cons hstep h.1 h.2, fun h => ⟨h.1, h.2 t hstep⟩⟩

/-- A run that keeps to a guard keeps to every guard that follows from it there. -/
theorem Respects.weaken {guard' : σ → l → Prop} {I : σ → Prop} {labels : List l} {s : σ}
    (hstep : ∀ s a t, I s → guard s a → step s a = some t → I t)
    (hguard : ∀ s a, I s → guard s a → guard' s a) (hs : I s)
    (h : Respects step guard s labels) : Respects step guard' s labels := by
  induction labels generalizing s with
  | nil => trivial
  | cons a labels ih =>
    refine ⟨hguard s a hs h.1, ?_⟩
    intro t ht
    exact ih (hstep s a t hs h.1 ht) (h.2 t ht)

theorem Respects.of_append {labels more : List l} {s t : σ}
    (h : Respects step guard s (labels ++ more)) (hrun : labels.foldlM step s = some t) :
    Respects step guard s labels ∧ Respects step guard t more := by
  induction labels generalizing s with
  | nil =>
    cases hrun
    exact ⟨trivial, h⟩
  | cons a labels ih =>
    obtain ⟨s', hs', hrest⟩ := run_cons.mp hrun
    obtain ⟨hlabels, hmore⟩ := ih (h.2 s' hs') hrest
    exact ⟨.cons hs' h.1 hlabels, hmore⟩

/-- What every guarded step keeps holds after a run that keeps to the guard. -/
theorem Respects.invariant {I : σ → Prop} {labels : List l} {s t : σ}
    (hstep : ∀ s a t, I s → guard s a → step s a = some t → I t) (hs : I s)
    (h : Respects step guard s labels) (hrun : labels.foldlM step s = some t) : I t := by
  induction labels generalizing s with
  | nil =>
    cases hrun
    exact hs
  | cons a labels ih =>
    obtain ⟨s', hs', hrest⟩ := run_cons.mp hrun
    exact ih (hstep s a s' hs h.1 hs') (h.2 s' hs') hrest

theorem run_invariant {I : σ → Prop} {labels : List l} {s t : σ}
    (hstep : ∀ s a t, I s → step s a = some t → I t) (hs : I s)
    (hrun : labels.foldlM step s = some t) : I t := by
  induction labels generalizing s with
  | nil =>
    cases hrun
    exact hs
  | cons a labels ih =>
    obtain ⟨s', hs', hrest⟩ := run_cons.mp hrun
    exact ih (hstep s a s' hs hs') hrest

/-- A run that does not keep to the guard takes a label against it. -/
theorem exists_of_not_respects {labels : List l} {s t : σ} (h : ¬Respects step guard s labels)
    (hrun : labels.foldlM step s = some t) :
    ∃ before a after s₁ s₂, labels = before ++ a :: after ∧ before.foldlM step s = some s₁ ∧
      ¬guard s₁ a ∧ step s₁ a = some s₂ ∧ after.foldlM step s₂ = some t := by
  induction labels generalizing s with
  | nil => exact absurd trivial h
  | cons a labels ih =>
    obtain ⟨s', hs', hrest⟩ := run_cons.mp hrun
    by_cases hguard : guard s a
    case pos =>
      have hlater : ¬Respects step guard s' labels := by
        intro hlater
        refine h ⟨hguard, ?_⟩
        intro t' ht'
        cases hs'.symm.trans ht'
        exact hlater
      obtain ⟨before, b, after, s₁, s₂, heq, hbefore, hagainst, hstep, hafter⟩ := ih hlater hrest
      exact ⟨a :: before, b, after, s₁, s₂, by rw [heq]; rfl, run_cons.mpr ⟨s', hs', hbefore⟩,
        hagainst, hstep, hafter⟩
    case neg => exact ⟨[], a, labels, s, s', rfl, rfl, hguard, hs', hrest⟩

end Guard

/-! ## Runs within a bound -/

section Bound

variable {l : Type v} {step : σ → l → Option σ} {I : σ → Prop} (within : σ → Prop) {labels : List l}
  {s t : σ}

/-- Where no step leads back into the bound, a run that ends within it began there. -/
theorem within_of_run (hstep : ∀ s a t, I s → step s a = some t → I t ∧ (within t → within s))
    (hs : I s) (hrun : labels.foldlM step s = some t) (ht : within t) : within s := by
  induction labels generalizing s with
  | nil =>
    cases hrun
    exact ht
  | cons a labels ih =>
    obtain ⟨s', hs', hrest⟩ := run_cons.mp hrun
    obtain ⟨hinv, hback⟩ := hstep s a s' hs hs'
    exact hback (ih hinv hrest)

/-- It stayed there all the time. -/
theorem run_filter [DecidablePred within]
    (hstep : ∀ s a t, I s → step s a = some t → I t ∧ (within t → within s)) (hs : I s)
    (hrun : labels.foldlM step s = some t) (ht : within t) :
    labels.foldlM (fun s a => (step s a).filter fun t => within t) s = some t := by
  induction labels generalizing s with
  | nil => exact hrun
  | cons a labels ih =>
    obtain ⟨s', hs', hrest⟩ := run_cons.mp hrun
    have hinv := (hstep s a s' hs hs').1
    have hwithin := within_of_run within hstep hinv hrest ht
    refine run_cons.mpr ⟨s', ?_, ih hinv hrest⟩
    exact Option.filter_eq_some_iff.mpr ⟨hs', decide_eq_true hwithin⟩

theorem run_of_filter [DecidablePred within] (hs : within s)
    (hrun : labels.foldlM (fun s a => (step s a).filter fun t => within t) s = some t) :
    labels.foldlM step s = some t ∧ within t := by
  induction labels generalizing s with
  | nil =>
    cases hrun
    exact ⟨rfl, hs⟩
  | cons a labels ih =>
    obtain ⟨s', hs', hrest⟩ := run_cons.mp hrun
    obtain ⟨hs', hwithin⟩ := Option.filter_eq_some_iff.mp hs'
    obtain ⟨hrun', ht⟩ := ih (of_decide_eq_true hwithin) hrest
    exact ⟨run_cons.mpr ⟨s', hs', hrun'⟩, ht⟩

end Bound

/-! ## Runs that come to an end -/

/-- Free steps take the rank up by one at most and all others take it down, so that there are
only so many others in a run. -/
theorem length_le_of_rank {l : Type v} {step : σ → l → Option σ} {rank : σ → Nat} {free : l → Bool}
    {I : σ → Prop} (hkeep : ∀ s a t, I s → step s a = some t → I t)
    (hfree : ∀ s a t, I s → step s a = some t → free a = true → rank t ≤ rank s + 1)
    (hdown : ∀ s a t, I s → step s a = some t → free a = false → rank t < rank s)
    {labels : List l} {s t : σ} (hs : I s) (hrun : labels.foldlM step s = some t) :
    labels.length + rank t ≤ rank s + 2 * labels.countP free := by
  induction labels generalizing s with
  | nil =>
    cases hrun
    simp
  | cons a labels ih =>
    obtain ⟨s', hs', hrest⟩ := run_cons.mp hrun
    have hih := ih (hkeep s a s' hs hs') hrest
    rw [List.length_cons, List.countP_cons]
    cases ha : free a with
    | true =>
      have hstep := hfree s a s' hs hs' ha
      simp only [if_true]
      omega
    | false =>
      have hstep := hdown s a s' hs hs' ha
      simp only [Bool.false_eq_true, if_false]
      omega

end CompSys.Transition
