import Mathlib.Logic.Function.Basic

/-!
# Linked lists threaded through a memory

Each element is the address of its own link, as in a free list kept inside the
free blocks. The list in the memory is related to a Lean list of addresses.
-/
namespace CompSys.IntrusiveList

variable {α : Type} (null : α)

/-- From `p` the links in `mem` lead through exactly `xs` and end in `null`. -/
def Chain (mem : α → α) : α → List α → Prop
  | p, [] => p = null
  | p, x :: xs => p = x ∧ x ≠ null ∧ Chain mem (mem x) xs

variable {null}

/-- A chain depends on the links of its own elements alone. -/
theorem Chain.congr {mem mem' : α → α} {xs : List α} (hsame : ∀ x ∈ xs, mem' x = mem x) :
    ∀ {p : α}, Chain null mem p xs → Chain null mem' p xs := by
  induction xs with
  | nil =>
      intro p h
      exact h
  | cons x xs ih =>
      intro p h
      obtain ⟨hp, hx, hrest⟩ := h
      have hlink : mem' x = mem x := hsame x List.mem_cons_self
      refine ⟨hp, hx, ?_⟩
      rw [hlink]
      exact ih (fun y hy => hsame y (List.mem_cons_of_mem x hy)) hrest

theorem Chain.eq_nil {mem : α → α} {xs : List α} (h : Chain null mem null xs) : xs = [] := by
  cases xs with
  | nil => rfl
  | cons x xs => exact absurd h.1.symm h.2.1

/-- A chain that starts at an element has it as its head. -/
theorem Chain.exists_cons {mem : α → α} {p : α} {xs : List α} (h : Chain null mem p xs)
    (hp : p ≠ null) : ∃ rest, xs = p :: rest ∧ Chain null mem (mem p) rest := by
  cases xs with
  | nil => exact absurd h hp
  | cons x rest =>
      obtain ⟨rfl, _, hrest⟩ := h
      exact ⟨rest, rfl, hrest⟩

/-- Linking a new element in front of a chain that does not use its cell. -/
theorem Chain.push [DecidableEq α] {mem : α → α} {p x : α} {xs : List α} (h : Chain null mem p xs)
    (hx : x ≠ null) (hfresh : x ∉ xs) : Chain null (Function.update mem x p) x (x :: xs) := by
  refine ⟨rfl, hx, ?_⟩
  rw [Function.update_self]
  apply h.congr
  intro y hy
  have hne : y ≠ x := fun hyx => hfresh (hyx ▸ hy)
  rw [Function.update_of_ne hne]

end CompSys.IntrusiveList
