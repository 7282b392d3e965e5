import CompSys.Heap32
import CompSys.Radix

/-!
# The radix sorter and the end of the addresses

How far each function of `radix.c` takes `free_space`: it never goes back, so that a run which ends
below 2^32 was below it all the time, where `allocate` is that of 32-bit pointers (`allocate32_eq`).
A run that goes further has no result here.
-/
namespace CompSys.Radix

open Heap (NULL Grows)

/-! ## The allocator -/

/-- A chunk of nodes takes 240 bytes. -/
theorem allocate_grows {s s' : Store} {p : Int} (h : s.allocate nodeSize = some (p, s')) :
    Grows 240 s.heap s'.heap := by
  obtain ⟨⟨q, h'⟩, hrun, hs'⟩ := Option.bind_eq_some_iff.mp h
  cases hs'
  have hclear := Heap.clearHeaders_freeSpace s.heap
  have hone : ¬nodeSize.toInt < 1 := by decide
  have hbig : ¬Heap.numSize (Heap.blockSize nodeSize) ≥ Heap.NUM_SIZES := by decide
  have hnonneg : ¬Heap.numSize (Heap.blockSize nodeSize) < 0 := by decide
  have hchunk : (Heap.chunkSize (Heap.blockSize nodeSize)).toInt = 240 := by decide
  unfold Heap.allocate at hrun
  simp only [if_neg hone, if_neg hbig, if_neg hnonneg] at hrun
  have hgrows := Heap.taken_grows hchunk (by decide) hrun
  rw [Grows, hclear] at hgrows
  exact hgrows

theorem release_grows {s s' : Store} {p : Int} (h : s.release p = some s') :
    Grows 0 s.heap s'.heap := by
  obtain ⟨h', hrun, hs'⟩ := Option.bind_eq_some_iff.mp h
  cases hs'
  rw [Heap.release] at hrun
  split at hrun <;> cases hrun
  exact Grows.refl s.heap

/-! ## Adding -/

theorem createLeaf_grows {s s' : Store} {p : Int} {number : Word}
    (h : createLeaf s number = some (p, s')) : Grows 240 s.heap s'.heap := by
  obtain ⟨⟨q, s₁⟩, hrun, hs'⟩ := Option.bind_eq_some_iff.mp h
  cases hs'
  have hgrows := allocate_grows hrun
  exact hgrows

theorem inject_grows {s s' : Store} {parent nptr : Int} {bitPos diff number : Word}
    (h : inject s parent nptr bitPos diff number = some s') : Grows 480 s.heap s'.heap := by
  obtain ⟨bitPos', -, h⟩ := Option.bind_eq_some_iff.mp h
  obtain ⟨⟨q, s₁⟩, hrun, h⟩ := Option.bind_eq_some_iff.mp h
  have hnode := allocate_grows hrun
  dsimp only at h
  split at h
  case isTrue =>
    obtain ⟨⟨leaf, s₂⟩, hleaf, hs'⟩ := Option.bind_eq_some_iff.mp h
    cases hs'
    have hmore := createLeaf_grows hleaf
    change Grows 240 s₁.heap s₂.heap at hmore
    exact hnode.trans hmore
  case isFalse =>
    obtain ⟨⟨leaf, s₂⟩, hleaf, hs'⟩ := Option.bind_eq_some_iff.mp h
    cases hs'
    have hmore := createLeaf_grows hleaf
    change Grows 240 s₁.heap s₂.heap at hmore
    exact hnode.trans hmore

theorem addLoop_grows {number : Word} (fuel : Nat) : ∀ {s s' : Store} {parent : Int} {bitPos : Word},
    addLoop number fuel s parent bitPos = some s' → Grows 480 s.heap s'.heap := by
  induction fuel with
  | zero =>
    intro s s' parent bitPos h
    cases h
  | succ fuel ih =>
    intro s s' parent bitPos h
    rw [addLoop] at h
    dsimp only at h
    generalize (if (s.int (s.ptr parent)).toInt < bitPos.toInt then
      bitRange bitPos (s.int (s.ptr parent)) &&& (number ^^^ s.int (s.ptr parent + 4))
      else 0 : Word) = diff at h
    generalize (if (s.int (s.ptr parent)).toInt < bitPos.toInt then s.int (s.ptr parent)
      else bitPos) = next at h
    split at h
    case isTrue =>
      cases h
      exact (Grows.refl s.heap).mono (by decide)
    case isFalse =>
      split at h
      case isTrue =>
        obtain ⟨⟨leaf, s₁⟩, hleaf, hs'⟩ := Option.bind_eq_some_iff.mp h
        cases hs'
        have hgrows := (createLeaf_grows hleaf).mono (show (240 : Int) ≤ 480 by decide)
        exact hgrows
      case isFalse =>
        split at h
        case isTrue => exact inject_grows h
        case isFalse =>
          split at h
          case isTrue => exact ih h
          case isFalse =>
            have hgrows := ih h
            exact hgrows

theorem addNumber_grows {s s' : Store} {number : Word} (h : addNumber s number = some s') :
    Grows 480 s.heap s'.heap := addLoop_grows 32 h

/-! ## Taking and releasing -/

theorem takeCount_grows {value : Word} {count capacity : Int} (fuel : Nat) : ∀ {s s' : Store}
    {buffer buffer' : List Word},
    takeCount value count capacity fuel s buffer = some (s', buffer') → Grows 0 s.heap s'.heap := by
  induction fuel with
  | zero =>
    intro s s' buffer buffer' h
    cases h
  | succ fuel ih =>
    intro s s' buffer buffer' h
    rw [takeCount] at h
    split at h
    case isTrue =>
      have hgrows := ih h
      exact hgrows
    case isFalse =>
      cases h
      exact .refl s.heap

theorem takeNumbers2_grows {capacity : Int} (fuel : Nat) : ∀ {s s' : Store} {parent : Int}
    {buffer buffer' : List Word},
    takeNumbers2 capacity fuel s parent buffer = some (s', buffer') →
      Grows 0 s.heap s'.heap := by
  induction fuel with
  | zero =>
    intro s s' parent buffer buffer' h
    cases h
  | succ fuel ih =>
    intro s s' parent buffer buffer' h
    -- the node is released behind both sides or both counters
    have hrest : ∀ {s₁ s₂ : Store} {buffer₂ : List Word} {p : Int} {c : Prop} [Decidable c],
        Grows 0 s.heap s₁.heap →
        (if c then (s₁.release p).bind fun s => some (s.store parent NULL, buffer₂)
          else some (s₁, buffer₂)) = some (s₂, buffer') → Grows 0 s.heap s₂.heap := by
      intro s₁ s₂ buffer₂ p c _ hgrows h
      split at h
      case isTrue =>
        obtain ⟨s₃, hrelease, hs₂⟩ := Option.bind_eq_some_iff.mp h
        cases hs₂
        have hboth := hgrows.trans (release_grows hrelease)
        exact hboth
      case isFalse =>
        cases h
        exact hgrows
    simp only [takeNumbers2] at h
    split at h
    case isTrue =>
      cases h
      exact .refl s.heap
    case isFalse =>
      split at h
      case isTrue =>
        obtain ⟨⟨s₁, buffer₁⟩, hzeros, h⟩ := Option.bind_eq_some_iff.mp h
        obtain ⟨⟨s₂, buffer₂⟩, hones, h⟩ := Option.bind_eq_some_iff.mp h
        exact hrest ((takeCount_grows _ hzeros).trans (takeCount_grows _ hones)) h
      case isFalse =>
        obtain ⟨⟨s₁, buffer₁⟩, hzeros, h⟩ := Option.bind_eq_some_iff.mp h
        obtain ⟨⟨s₂, buffer₂⟩, hones, h⟩ := Option.bind_eq_some_iff.mp h
        exact hrest ((ih hzeros).trans (ih hones)) h

theorem takeNumbers_grows {s s' : Store} {maxNums : Word} {taken : List Word}
    (h : takeNumbers s maxNums = some (s', taken)) : Grows 0 s.heap s'.heap :=
  takeNumbers2_grows 32 h

theorem releaseTree_grows (fuel : Nat) : ∀ {s s' : Store} {tree : Int},
    releaseTree fuel s tree = some s' → Grows 0 s.heap s'.heap := by
  induction fuel with
  | zero =>
    intro s s' tree h
    cases h
  | succ fuel ih =>
    intro s s' tree h
    simp only [releaseTree] at h
    split at h
    case isTrue =>
      split at h
      case isTrue =>
        obtain ⟨s₁, hzeros, h⟩ := Option.bind_eq_some_iff.mp h
        obtain ⟨s₂, hones, hrelease⟩ := Option.bind_eq_some_iff.mp h
        exact ((ih hzeros).trans (ih hones)).trans (release_grows hrelease)
      case isFalse => exact release_grows h
    case isFalse =>
      cases h
      exact .refl s.heap

end CompSys.Radix
