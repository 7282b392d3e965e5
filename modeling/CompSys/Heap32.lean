import CompSys.HeapReuse
import CompSys.Transition

/-!
# The small-block allocator on 32-bit addresses

`allocate` and `release` with the pointers of the program, which come round at 2^32. While no chunk
reaches that far, they do what the allocator without an upper end does. A chunk that reaches further
is divided into no block at all or into blocks that are in use.
-/
namespace CompSys

namespace Heap

open IntrusiveList Transition

/-- An address as a pointer of 32 bits. -/
def pointer (a : Int) : Int := a % 2 ^ 32

theorem pointer_eq {a : Int} (hpos : 0 ≤ a) (hlt : a < 2 ^ 32) : pointer a = a :=
  Int.emod_eq_of_lt hpos hlt

/-- After 2 ^ 32 rounds `end_chunk` has been everywhere it comes to, and the loop does not end. -/
def splitChunk32 (size : Word) (chunk : Int) : Nat → Int → Heap → Option Heap
  | 0, _, _ => none
  | fuel + 1, endChunk, h =>
    if endChunk ≥ chunk then
      splitChunk32 size chunk fuel (pointer (endChunk - size.toInt))
        (h.link (numSize size) endChunk)
    else some h

def allocateChunk32 (h : Heap) (size : Word) : Option Heap :=
  let chunk := h.freeSpace
  let endChunk := pointer (chunk + (chunkSize size).toInt)
  splitChunk32 size chunk (2 ^ 32) (pointer (endChunk - size.toInt))
    { h with freeSpace := endChunk }

def unlink32 (h : Heap) (size : Word) : Int × Heap :=
  let block := h.smallBlockHeaders (numSize size)
  (pointer (block + 4),
    (h.setHeader (numSize size) (pointer (h.mem block))).storeInt block size)

def allocate32 (h : Heap) (size : Word) : Option (Int × Heap) :=
  let h := h.clearHeaders
  if size.toInt < 1 then some (NULL, h)
  else
    let size := blockSize size
    if numSize size ≥ NUM_SIZES then some (NULL, h)
    else if numSize size < 0 then none
    else if h.smallBlockHeaders (numSize size) = NULL then do
      let h ← h.allocateChunk32 size
      return h.unlink32 size
    else some (h.unlink32 size)

def release32 (h : Heap) (memory : Int) : Option Heap :=
  let chunk := pointer (memory - 4)
  let num := numSize (h.loadInt chunk)
  if 0 ≤ num ∧ num < NUM_SIZES then some (h.link num chunk) else none

/-! ## Below the end of the addresses -/

theorem splitChunk32_eq {size : Word} {chunk : Int} (hstart : size.toInt ≤ chunk)
    (hsize : 0 ≤ size.toInt) (fuel : Nat) : ∀ {fuel' : Nat} {endChunk : Int} {h h' : Heap},
      fuel ≤ fuel' → endChunk < 2 ^ 32 → splitChunk size chunk fuel endChunk h = some h' →
      splitChunk32 size chunk fuel' endChunk h = some h' := by
  induction fuel with
  | zero =>
    intro fuel' endChunk h h' _ _ hrun
    cases hrun
  | succ fuel ih =>
    intro fuel' endChunk h h' hfuel hlt hrun
    obtain ⟨fuel', rfl⟩ := Nat.exists_eq_succ_of_ne_zero (Nat.ne_of_gt (Nat.zero_lt_of_lt hfuel))
    rw [splitChunk] at hrun
    rw [splitChunk32]
    split at hrun
    case isTrue hmore =>
      rw [if_pos hmore, pointer_eq (by omega) (by omega)]
      exact ih (Nat.le_of_succ_le_succ hfuel) (by omega) hrun
    case isFalse hdone => rwa [if_neg hdone]

section Sound

variable {heapStart num : Int} {layout : Layout} {h : Heap} {live : Live} {size : Word}

theorem allocateChunk32_eq (hs : Sound heapStart layout h live) (hstart : 4096 ≤ heapStart)
    (hinit : h.initialized = true) (hsize : size.toInt = 8 * num) (hpos : 1 ≤ num)
    (hlt : num < NUM_SIZES)
    (hend : h.freeSpace + blocksPerChunk (8 * num) * (8 * num) < 2 ^ 32) :
    h.allocateChunk32 size = h.allocateChunk size := by
  obtain ⟨h', hrun, -⟩ := allocateChunk_split hs hinit hsize hpos hlt
  obtain ⟨hchunk, -⟩ := chunkSize_toInt hsize hpos hlt
  have hsizes : NUM_SIZES = 512 := rfl
  have hle := hs.start_le
  have hnonneg : 0 ≤ (blocksPerChunk (8 * num) : Int) * (8 * num) := by positivity
  have hfuel := BitVec.isLt (chunkSize size)
  rw [hrun]
  rw [allocateChunk] at hrun
  rw [allocateChunk32]
  rw [hchunk] at hrun ⊢
  rw [pointer_eq (a := h.freeSpace + _) (by omega) hend, pointer_eq (by omega) (by omega)]
  exact splitChunk32_eq (by omega) (by omega) _ (by omega) (by omega) hrun

theorem unlink32_eq (hs : Sound heapStart layout h live) (hinit : h.initialized = true)
    (hsize : size.toInt = 8 * num) (hhead : h.header num ≠ NULL) (hend : h.freeSpace < 2 ^ 32) :
    h.unlink32 size = h.unlink size := by
  have hstart := hs.start_pos
  obtain ⟨rest, hfree, hchain⟩ := (hs.chain num).exists_cons hhead
  have hin : ∀ b ∈ layout.free num, heapStart ≤ b ∧ b + 8 ≤ h.freeSpace := by
    intro b hb
    have hcarved := hs.carved b num (hs.free_cls num b hb)
    omega
  have hblock := hin _ (by rw [hfree]; exact List.mem_cons_self)
  have hnext : 0 ≤ h.mem (h.header num) ∧ h.mem (h.header num) < 2 ^ 32 := by
    cases rest with
    | nil =>
      have hlast : h.mem (h.header num) = NULL := hchain
      rw [hlast, NULL]
      omega
    | cons c rest =>
      have hnext := hin c (by rw [hfree]; exact List.mem_cons_of_mem _ List.mem_cons_self)
      rw [hchain.1]
      omega
  have hheader : h.smallBlockHeaders (numSize size) = h.header num := by
    rw [numSize_eq hsize, header, if_pos hinit]
  rw [unlink32, unlink, hheader, pointer_eq (by omega) (by omega),
    pointer_eq hnext.1 hnext.2]

/-- A call that leaves `free_space` below 2^32. -/
theorem allocate32_eq (hs : Sound heapStart layout h live) (hstart : 4096 ≤ heapStart)
    (hmax : size.toInt ≤ 2 ^ 31 - 12) {p : Int} {h' : Heap} (hrun : h.allocate size = some (p, h'))
    (hend : h'.freeSpace < 2 ^ 32) : h.allocate32 size = some (p, h') := by
  have hclear := hs.clearHeaders
  have hinit := clearHeaders_initialized h
  rw [← hrun]
  unfold allocate32
  unfold allocate at hrun ⊢
  by_cases hpos : size.toInt < 1
  case pos => rw [if_pos hpos, if_pos hpos]
  case neg =>
    have hsize : (blockSize size).toInt = 8 * sizeClass size := blockSize_toInt size (by omega) hmax
    have hnum := numSize_eq hsize
    have hone : 1 ≤ sizeClass size := by
      unfold sizeClass
      omega
    simp only [if_neg hpos] at hrun ⊢
    split at hrun
    case isTrue hbig => rw [if_pos hbig, if_pos hbig]
    case isFalse hbig =>
      have hnonneg : ¬numSize (blockSize size) < 0 := by omega
      rw [if_neg hnonneg] at hrun
      rw [if_neg hbig, if_neg hbig, if_neg hnonneg, if_neg hnonneg]
      split at hrun
      case isTrue hempty =>
        obtain ⟨h₁, hchunk, ⟨layout₁, hs₁, -⟩, hinit₁, hhead, hspace, -⟩ :=
          allocateChunk_split hclear hinit hsize hone (by omega)
        rw [hchunk] at hrun
        cases hrun
        have hspace₁ : h₁.freeSpace < 2 ^ 32 := hend
        have hstart₁ := hs.start_le
        have hhead₁ : h₁.header (sizeClass size) ≠ NULL := by
          rw [hhead, clearHeaders_freeSpace, NULL]
          omega
        rw [if_pos hempty, if_pos hempty, allocateChunk32_eq hclear hstart hinit hsize hone
          (by omega) (by omega), hchunk]
        simp only [Option.bind_eq_bind, Option.bind_some, Option.pure_def,
          unlink32_eq hs₁ hinit₁ hsize hhead₁ hspace₁]
      case isFalse hfull =>
        cases hrun
        have hhead : h.clearHeaders.header (sizeClass size) ≠ NULL := by
          rwa [header, if_pos hinit, ← hnum]
        rw [if_neg hfull, if_neg hfull, unlink32_eq hclear hinit hsize hhead hend]

theorem release32_eq (hs : Sound heapStart layout h live) (hend : h.freeSpace < 2 ^ 32) {p : Int}
    (hp : p ∈ live.map Prod.fst) : h.release32 p = h.release p := by
  obtain ⟨⟨p, request⟩, hmem, rfl⟩ := List.mem_map.mp hp
  obtain ⟨num, hholds⟩ := hs.holds p request hmem
  have hcarved := hs.carved _ num hholds.cls
  have hstart := hs.start_pos
  rw [release32, release, pointer_eq (by omega) (by omega)]

end Sound

/-- The heap ends below 2^32. -/
def Below (h : Heap) : Prop := h.freeSpace < 2 ^ 32

instance decidableBelow : DecidablePred Below := fun _ => inferInstanceAs (Decidable (_ < _))

/-- `free_space` advances by at most `n` bytes. -/
def Grows (n : Int) (h h' : Heap) : Prop :=
  h.freeSpace ≤ h'.freeSpace ∧ h'.freeSpace ≤ h.freeSpace + n

theorem Grows.refl (h : Heap) : Grows 0 h h := ⟨Int.le_refl _, by omega⟩

theorem Grows.trans {n m : Int} {h h' h'' : Heap} (hfirst : Grows n h h') (hrest : Grows m h' h'') :
    Grows (n + m) h h'' := by
  obtain ⟨hle, hup⟩ := hfirst
  obtain ⟨hle', hup'⟩ := hrest
  exact ⟨by omega, by omega⟩

theorem Grows.mono {n m : Int} {h h' : Heap} (hgrows : Grows n h h') (hnm : n ≤ m) : Grows m h h' :=
  ⟨hgrows.1, by have := hgrows.2; omega⟩

theorem Grows.below {n : Int} {h h' : Heap} (hgrows : Grows n h h') (hbelow : Below h') : Below h :=
  Int.lt_of_le_of_lt hgrows.1 hbelow

theorem splitChunk_freeSpace {size : Word} {chunk : Int} (fuel : Nat) : ∀ {endChunk : Int}
    {h h' : Heap}, splitChunk size chunk fuel endChunk h = some h' → h'.freeSpace = h.freeSpace := by
  induction fuel with
  | zero =>
    intro endChunk h h' hrun
    cases hrun
  | succ fuel ih =>
    intro endChunk h h' hrun
    rw [splitChunk] at hrun
    split at hrun
    case isTrue =>
      have hspace := ih hrun
      exact hspace
    case isFalse =>
      cases hrun
      rfl

/-- A block is taken from its list or from a new chunk. -/
theorem taken_grows {h h' : Heap} {size : Word} {p n : Int} (hchunk : (chunkSize size).toInt = n)
    (hn : 0 ≤ n)
    (hrun : (if h.smallBlockHeaders (numSize size) = NULL then do
        let h ← h.allocateChunk size
        return h.unlink size
      else some (h.unlink size)) = some (p, h')) : Grows n h h' := by
  split at hrun
  case isTrue =>
    obtain ⟨h₁, hsplit, hrest⟩ := Option.bind_eq_some_iff.mp hrun
    cases hrest
    have hspace := splitChunk_freeSpace _ hsplit
    rw [hchunk] at hspace
    change h₁.freeSpace = h.freeSpace + n at hspace
    show h.freeSpace ≤ h₁.freeSpace ∧ h₁.freeSpace ≤ h.freeSpace + n
    constructor <;> omega
  case isFalse =>
    cases hrun
    exact (Grows.refl h).mono hn

theorem allocate32_huge (h : Heap) {size : Word} (hbig : 2 ^ 31 - 12 < size.toInt) :
    h.allocate32 size = none := by
  have hneg := numSize_neg hbig
  have hsizes : NUM_SIZES = 512 := rfl
  unfold allocate32
  rw [if_neg (by omega), if_neg (by omega), if_pos hneg]

end Heap

namespace Store

def allocate32 (s : Store) (size : Word) : Option (Int × Store) := do
  let (p, heap) ← s.heap.allocate32 size
  let events := if p = Heap.NULL then s.events else .allocated p size :: s.events
  return (p, { heap := heap, events := events })

def release32 (s : Store) (p : Int) : Option Store := do
  let heap ← s.heap.release32 p
  return { heap := heap, events := .released p :: s.events }

end Store

namespace Heap

open Transition

/-! ## Clients -/

def clientStep32 (s : Store) : ClientCall → Option Store
  | .allocate size => (s.allocate32 size).map Prod.snd
  | .release p =>
    if p ∈ (Store.live s.events).map Prod.fst then s.release32 p else none
  | .write a v =>
    if ∃ block ∈ Store.live s.events,
        block.1 ≤ a ∧ a < block.1 + block.2.toInt ∧ (a - block.1) % 4 = 0 then
      some (s.store a v)
    else none

/-- The call carves no chunk that reaches 2^32. -/
def InRange (s : Store) : ClientCall → Prop
  | .allocate size => Served size → s.heap.header (sizeClass size) = NULL →
      s.heap.freeSpace + blocksPerChunk (8 * sizeClass size) * (8 * sizeClass size) < 2 ^ 32
  | _ => True

instance decidableInRange (s : Store) : (call : ClientCall) → Decidable (InRange s call)
  | .allocate size => inferInstanceAs (Decidable (Served size → _ → _))
  | .release _ | .write _ _ => .isTrue trivial

/-- An exact heap that ends below 2^32 and starts above the size of a block. -/
structure Exact32 (heapStart : Int) (layout : Layout) (s : Store) : Prop where
  exact : Exact heapStart layout s.heap (Store.live s.events)
  low : 4096 ≤ heapStart
  high : s.heap.freeSpace < 2 ^ 32

theorem Effect.below {heapStart : Int} {layout layout' : Layout} {s s' : Store} {call : ClientCall}
    (heffect : Effect layout s.heap (Store.live s.events) call layout' s'.heap
      (Store.live s'.events))
    (he : Exact32 heapStart layout s) (hrange : InRange s call) : s'.heap.freeSpace < 2 ^ 32 := by
  have hhigh := he.high
  generalize s'.heap = h', Store.live s'.events = live' at heffect ⊢
  cases heffect with
  | refused _ _ hspace | reused _ _ _ _ hspace | released _ _ hspace => rwa [hspace]
  | written => exact hhigh
  | @carved size _ _ hserved hfree _ _ _ hspace =>
    have hchain := he.exact.sound.chain (sizeClass size)
    rw [hfree] at hchain
    rw [hspace]
    exact hrange hserved hchain

/-- Below 2^32 the calls of a client are those on a heap without an end. -/
theorem Exact32.step_eq {heapStart : Int} {layout : Layout} {s : Store} {call : ClientCall}
    (he : Exact32 heapStart layout s) (hrange : InRange s call) :
    clientStep32 s call = clientStep s call := by
  cases call with
  | allocate size =>
    rw [clientStep_allocate, clientStep32]
    by_cases hmax : size.toInt ≤ 2 ^ 31 - 12
    case pos =>
      obtain ⟨p, s', hrun, -⟩ := allocate_wellFormed ⟨layout, he.exact.sound⟩ size hmax
      have hstep : clientStep s (.allocate size) = some s' := by
        rw [clientStep_allocate, hrun]
        rfl
      obtain ⟨layout', -, heffect⟩ := he.exact.step hstep
      have hhigh := heffect.below he hrange
      obtain ⟨⟨q, h'⟩, hallocate, hs'⟩ := Option.bind_eq_some_iff.mp hrun
      cases hs'
      rw [Store.allocate32, Store.allocate, hallocate,
        allocate32_eq he.exact.sound he.low hmax hallocate hhigh]
    case neg =>
      rw [Store.allocate32, Store.allocate, allocate_huge _ (by omega), allocate32_huge _ (by omega)]
  | release p =>
    rw [clientStep32, clientStep]
    split
    case isTrue hp => rw [Store.release32, Store.release, release32_eq he.exact.sound he.high hp]
    case isFalse => rfl
  | write a v => rfl

theorem Exact32.step {heapStart : Int} {layout : Layout} {s s' : Store} {call : ClientCall}
    (he : Exact32 heapStart layout s) (hrange : InRange s call)
    (hstep : clientStep32 s call = some s') :
    ∃ layout', Exact32 heapStart layout' s' ∧
      Effect layout s.heap (Store.live s.events) call layout' s'.heap (Store.live s'.events) := by
  rw [he.step_eq hrange] at hstep
  obtain ⟨layout', hexact, heffect⟩ := he.exact.step hstep
  exact ⟨layout', ⟨hexact, he.low, heffect.below he hrange⟩, heffect⟩

/-! ## Runs -/

/-- The bytes that a run carves from `free_space` for one class. -/
def carved (num : Int) : Store → List ClientCall → Int
  | _, [] => 0
  | s, call :: calls =>
    match clientStep32 s call with
    | none => 0
    | some s' =>
      (if call.class? = some num then pointer (s'.heap.freeSpace - s.heap.freeSpace) else 0) +
        carved num s' calls

/-- At no moment of the run has the class more than `most` live blocks. -/
def LiveAtMost (num : Int) (most : Nat) (s : Store) (calls : List ClientCall) : Prop :=
  ∀ before s', before <+: calls → before.foldlM clientStep32 s = some s' →
    liveCount num (Store.live s'.events) ≤ most

theorem LiveAtMost.tail {num : Int} {most : Nat} {s s₁ : Store} {call : ClientCall}
    {calls : List ClientCall} (h : LiveAtMost num most s (call :: calls))
    (hstep : clientStep32 s call = some s₁) : LiveAtMost num most s₁ calls := by
  intro before s' hprefix hrun
  exact h (call :: before) s' (List.cons_prefix_cons.mpr ⟨rfl, hprefix⟩)
    (Transition.run_cons.mpr ⟨s₁, hstep, hrun⟩)

/-- The number of chunks that hold so many blocks. -/
def chunksFor (num : Int) (most : Nat) : Nat :=
  (most + blocksPerChunk (8 * num) - 1) / blocksPerChunk (8 * num)

theorem succ_le_chunksFor {num : Int} {most k : Nat} (hpos : 1 ≤ num)
    (h : k * blocksPerChunk (8 * num) + 1 ≤ most) : k + 1 ≤ chunksFor num most := by
  have hten := ten_le_blocksPerChunk hpos
  rw [chunksFor, Nat.le_div_iff_mul_le (by omega), Nat.succ_mul]
  omega

/-- The induction is on the calls; `k` chunks were carved before. -/
theorem carved_eq {heapStart num : Int} {most : Nat} (hpos : 1 ≤ num) (calls : List ClientCall) :
    ∀ {s s' : Store} {layout : Layout} {k : Nat}, Exact32 heapStart layout s →
      (layout.free num).length + liveCount num (Store.live s.events) =
        k * blocksPerChunk (8 * num) →
      k ≤ chunksFor num most → LiveAtMost num most s calls →
      Respects clientStep32 InRange s calls → calls.foldlM clientStep32 s = some s' →
      ∃ chunks, k + chunks ≤ chunksFor num most ∧
        carved num s calls = chunks * (blocksPerChunk (8 * num) * (8 * num)) := by
  induction calls with
  | nil =>
    intro s s' layout k _ _ hk _ _ _
    exact ⟨0, hk, by simp [carved]⟩
  | cons call calls ih =>
    intro s s' layout k he hcount hk hmost hrange hrun
    obtain ⟨s₁, hstep, hrest⟩ := run_cons.mp hrun
    obtain ⟨layout₁, he₁, heffect⟩ := he.step hrange.1 hstep
    have hmost₁ := hmost.tail hstep
    have hrange₁ := hrange.2 s₁ hstep
    rcases heffect.count he.exact hcount with ⟨hclass, -, hspace, hlive, hcount₁⟩ | ⟨hspace, hcount₁⟩
    · have hle := hmost₁ [] s₁ List.nil_prefix rfl
      rw [hlive] at hle
      obtain ⟨chunks, hchunks, hcarved⟩ :=
        ih he₁ hcount₁ (succ_le_chunksFor hpos hle) hmost₁ hrange₁ hrest
      have hnonneg : 0 ≤ (blocksPerChunk (8 * num) : Int) * (8 * num) := by positivity
      have hlow := he.low
      have hstart := he.exact.sound.start_le
      have hhigh := he₁.high
      refine ⟨chunks + 1, by omega, ?_⟩
      simp only [carved, hstep, hclass, if_true, hspace, hcarved]
      rw [add_sub_cancel_left, pointer_eq hnonneg (by omega)]
      push_cast
      ring
    · obtain ⟨chunks, hchunks, hcarved⟩ := ih he₁ hcount₁ hk hmost₁ hrange₁ hrest
      refine ⟨chunks, hchunks, ?_⟩
      simp only [carved, hstep, hcarved]
      split
      case isTrue hclass =>
        rw [hspace hclass, Int.sub_self]
        exact Int.zero_add _
      case isFalse => exact Int.zero_add _

/-- While nothing is allocated from a class, its list keeps a released block in front. -/
theorem recycled_run {heapStart num : Int} (between : List ClientCall) :
    ∀ {s s' : Store} {layout : Layout} {calls : List ClientCall}, Exact32 heapStart layout s →
      Recycled num layout calls → (∀ call ∈ between, call.class? ≠ some num) →
      Respects clientStep32 InRange s between → between.foldlM clientStep32 s = some s' →
      ∃ layout', Exact32 heapStart layout' s' ∧ Recycled num layout' (calls ++ between) := by
  induction between with
  | nil =>
    intro s s' layout calls he hrecycled _ _ hrun
    cases hrun
    rw [List.append_nil]
    exact ⟨layout, he, hrecycled⟩
  | cons call between ih =>
    intro s s' layout calls he hrecycled hclass hrange hrun
    obtain ⟨s₁, hstep, hrest⟩ := run_cons.mp hrun
    obtain ⟨layout₁, he₁, heffect⟩ := he.step hrange.1 hstep
    have hrecycled₁ := heffect.recycled (hclass call List.mem_cons_self) hrecycled
    have hlater := ih he₁ hrecycled₁
      (fun later hlater => hclass later (List.mem_cons_of_mem _ hlater)) (hrange.2 s₁ hstep) hrest
    rw [List.append_assoc] at hlater
    exact hlater

theorem initHeap_exact32 (h : Heap) {heapStart : Int} (hlow : 4096 ≤ heapStart)
    (hhigh : heapStart < 2 ^ 32) :
    ∃ layout, Exact32 heapStart layout (clientStart h heapStart) ∧ ∀ num, layout.free num = [] := by
  obtain ⟨layout, hexact, hnil⟩ := initHeap_exact h (show 0 < heapStart by omega)
  exact ⟨layout, ⟨hexact, hlow, hhigh⟩, hnil⟩

theorem run_exact32 {heapStart : Int} {calls : List ClientCall} {s s' : Store}
    (hstart : ∃ layout, Exact32 heapStart layout s)
    (hrange : Respects clientStep32 InRange s calls)
    (hrun : calls.foldlM clientStep32 s = some s') : ∃ layout, Exact32 heapStart layout s' := by
  refine hrange.invariant (I := fun s => ∃ layout, Exact32 heapStart layout s) ?_ hstart hrun
  rintro s call s' ⟨layout, he⟩ hcall hstep
  obtain ⟨layout', he', -⟩ := he.step hcall hstep
  exact ⟨layout', he'⟩

/-- While no chunk reaches 2^32, a class never takes more chunks than its live blocks fill at their
most, and after a release a released block is the next one to be allocated. -/
theorem allocator_reuses (h : Heap) (heapStart : Int) (hlow : 4096 ≤ heapStart)
    (hhigh : heapStart < 2 ^ 32) (calls : List ClientCall) (s : Store)
    (hrange : Respects clientStep32 InRange (clientStart h heapStart) calls)
    (hrun : calls.foldlM clientStep32 (clientStart h heapStart) = some s) :
    (∀ num most, 1 ≤ num → LiveAtMost num most (clientStart h heapStart) calls →
      carved num (clientStart h heapStart) calls ≤
        chunksFor num most * blocksPerChunk (8 * num) * (8 * num)) ∧
    (∀ p request between s', (p, request) ∈ Store.live s.events →
      Respects clientStep32 InRange s (ClientCall.release p :: between) →
      (ClientCall.release p :: between).foldlM clientStep32 s = some s' →
      (∀ call ∈ between, call.class? ≠ some (sizeClass request)) →
      ∀ size : Word, Served size → sizeClass size = sizeClass request →
        ∃ q s'', s'.allocate32 size = some (q, s'') ∧ .release q ∈ .release p :: between ∧
          s''.heap.freeSpace = s'.heap.freeSpace) := by
  obtain ⟨layout₀, he₀, hnil⟩ := initHeap_exact32 h hlow hhigh
  constructor
  · intro num most hnum hmost
    have hcount : (layout₀.free num).length +
        liveCount num (Store.live (clientStart h heapStart).events) =
          0 * blocksPerChunk (8 * num) := by
      rw [hnil num, Nat.zero_mul]
      rfl
    obtain ⟨chunks, hchunks, hcarved⟩ :=
      carved_eq hnum calls he₀ hcount (Nat.zero_le _) hmost hrange hrun
    rw [hcarved, mul_assoc]
    apply Int.mul_le_mul_of_nonneg_right
    · omega
    · positivity
  · intro p request between s' hlive hrange' hbetween hclass size hserved hsize
    obtain ⟨layout, he⟩ := run_exact32 ⟨layout₀, he₀⟩ hrange hrun
    obtain ⟨s₁, hstep, hrest⟩ := run_cons.mp hbetween
    obtain ⟨layout₁, he₁, heffect⟩ := he.step hrange'.1 hstep
    have hrecycled : Recycled (sizeClass request) layout₁ [.release p] := by
      generalize s₁.heap = h₁, Store.live s₁.events = live₁ at heffect
      cases heffect with
      | @released _ request' _ hlive' =>
        have hsame : sizeClass request' = sizeClass request := by
          have hcls := he.exact.cls p request' hlive'
          rw [he.exact.cls p request hlive] at hcls
          exact (Option.some.inj hcls).symm
        rw [hsame]
        exact ⟨p, _, List.mem_singleton_self _, layout.put_free (sizeClass request) (p - 4)⟩
    obtain ⟨layout', he', q, rest, hq, hfree⟩ :=
      recycled_run between he₁ hrecycled hclass (hrange'.2 s₁ hstep) hrest
    rw [← hsize] at hfree
    obtain ⟨h'', layout'', live'', -, heffect'⟩ := he'.exact.allocate size hserved.max
    cases heffect' with
    | refused hnot => exact absurd hserved hnot
    | reused _ hfree' hallocate hnull hspace =>
      rw [hfree] at hfree'
      cases hfree'
      have hhigh' := he'.high
      have hallocate32 := allocate32_eq he'.exact.sound hlow hserved.max hallocate (by omega)
      rw [Int.sub_add_cancel] at hallocate32 hnull
      refine ⟨q, ⟨h'', .allocated q size :: s'.events⟩, ?_, hq, hspace⟩
      simp [Store.allocate32, hallocate32, hnull]
    | carved _ hnil' =>
      rw [hfree] at hnil'
      cases hnil'

theorem length_live_le (events : List HeapEvent) : (Store.live events).length ≤ events.length := by
  induction events with
  | nil => exact Nat.le_refl _
  | cons event events ih =>
    cases event with
    | allocated p size => exact Nat.succ_le_succ ih
    | released p => exact Nat.le_succ_of_le (List.eraseP_sublist.length_le.trans ih)

theorem length_events_step {s s' : Store} {call : ClientCall}
    (h : clientStep32 s call = some s') : s'.events.length ≤ s.events.length + 1 := by
  cases call with
  | allocate size =>
    obtain ⟨⟨p, s₁⟩, hrun, rfl⟩ := Option.map_eq_some_iff.mp h
    obtain ⟨⟨q, h'⟩, -, hs₁⟩ := Option.bind_eq_some_iff.mp hrun
    cases hs₁
    dsimp only
    split
    · exact Nat.le_succ _
    · exact Nat.le_refl _
  | release p =>
    obtain ⟨-, hrun⟩ := Option.ite_none_right_eq_some.mp h
    obtain ⟨h', -, hs'⟩ := Option.bind_eq_some_iff.mp hrun
    cases hs'
    exact Nat.le_refl _
  | write a v =>
    obtain ⟨-, hs'⟩ := Option.ite_none_right_eq_some.mp h
    cases hs'
    exact Nat.le_succ _

/-- There are never more live blocks than calls. -/
theorem liveAtMost_length (num : Int) (h : Heap) (heapStart : Int) (calls : List ClientCall) :
    LiveAtMost num calls.length (clientStart h heapStart) calls := by
  have hevents : ∀ (before : List ClientCall) {s s' : Store},
      before.foldlM clientStep32 s = some s' →
      s'.events.length ≤ s.events.length + before.length := by
    intro before
    induction before with
    | nil =>
      intro s s' hrun
      cases hrun
      exact Nat.le_refl _
    | cons call before ih =>
      intro s s' hrun
      obtain ⟨s₁, hstep, hrest⟩ := run_cons.mp hrun
      have hone := length_events_step hstep
      have hmore := ih hrest
      rw [List.length_cons]
      omega
  intro before s hprefix hrun
  have hcount : liveCount num (Store.live s.events) ≤ (Store.live s.events).length :=
    List.countP_le_length
  have hlive := length_live_le s.events
  have hlength := hevents before hrun
  have hle := hprefix.length_le
  rw [clientStart, List.length_nil] at hlength
  omega

/-- Eleven blocks take two chunks, and the first one comes back behind a call of another class. -/
theorem allocator_reuses_eleven : ∃ s s' q s'',
    (List.replicate 11 (.allocate 16)).foldlM clientStep32
      (clientStart ⟨fun _ => 0, 0, false, fun _ => 0⟩ 33554432) = some s ∧
    [.release 33554436, .allocate 100].foldlM clientStep32 s = some s' ∧
    s'.allocate32 20 = some (q, s'') ∧ q = 33554436 ∧
    s''.heap.freeSpace = s'.heap.freeSpace ∧
    carved 3 (clientStart ⟨fun _ => 0, 0, false, fun _ => 0⟩ 33554432)
      (List.replicate 11 (.allocate 16)) ≤ 480 := by
  have hrange : Respects clientStep32 InRange
      (clientStart ⟨fun _ => 0, 0, false, fun _ => 0⟩ 33554432)
      (List.replicate 11 (.allocate 16) ++ [.release 33554436, .allocate 100]) := by
    decide +kernel
  have hlive : ((List.replicate 11 (.allocate 16)).foldlM clientStep32
      (clientStart ⟨fun _ => 0, 0, false, fun _ => 0⟩ 33554432)).map
        (fun s => decide ((33554436, 16) ∈ Store.live s.events)) = some true := by
    decide +kernel
  have hbetween : ((List.replicate 11 (.allocate 16)).foldlM clientStep32
      (clientStart ⟨fun _ => 0, 0, false, fun _ => 0⟩ 33554432)).map
        (fun s => ([.release 33554436, .allocate 100].foldlM clientStep32 s).isSome) =
          some true := by
    decide +kernel
  obtain ⟨s, hrun, hlive⟩ := Option.map_eq_some_iff.mp hlive
  rw [hrun, Option.map_some, Option.some.injEq] at hbetween
  obtain ⟨s', hrun'⟩ := Option.isSome_iff_exists.mp hbetween
  obtain ⟨hrange, hrange'⟩ := hrange.of_append hrun
  obtain ⟨hcarved, hreused⟩ :=
    allocator_reuses _ 33554432 (by decide) (by decide) (List.replicate 11 (.allocate 16)) s hrange
      hrun
  have hclass : ∀ call ∈ [ClientCall.allocate 100], call.class? ≠ some (sizeClass 16) := by decide
  obtain ⟨q, s'', hallocate, hq, hspace⟩ :=
    hreused 33554436 16 [.allocate 100] s' (of_decide_eq_true hlive) hrange' hrun' hclass 20
      (by decide) (by decide)
  refine ⟨s, s', q, s'', hrun, hrun', hallocate, ?_, hspace,
    hcarved 3 11 (by decide) (liveAtMost_length 3 _ _ _)⟩
  simpa using hq

/-! ## Past the end of the addresses -/

theorem carved_append {num : Int} {calls more : List ClientCall} : ∀ {s s' : Store},
    calls.foldlM clientStep32 s = some s' →
    carved num s (calls ++ more) = carved num s calls + carved num s' more := by
  induction calls with
  | nil =>
    intro s s' hrun
    cases hrun
    exact (Int.zero_add _).symm
  | cons call calls ih =>
    intro s s' hrun
    obtain ⟨s₁, hstep, hrest⟩ := run_cons.mp hrun
    simp only [List.cons_append, carved, hstep, ih hrest, Int.add_assoc]

/-- A heap with `n` blocks of one class and nothing else, in as many chunks as they need. -/
structure Filled (heapStart num : Int) (h : Heap) (n : Nat) (layout : Layout) (k : Nat)
    (s : Store) : Prop where
  exact : Exact32 heapStart layout s
  live : liveCount num (Store.live s.events) = n
  count : (layout.free num).length + n = k * blocksPerChunk (8 * num)
  few : k * blocksPerChunk (8 * num) < n + blocksPerChunk (8 * num)
  space : s.heap.freeSpace = heapStart + k * (blocksPerChunk (8 * num) * (8 * num))
  mem : s.heap.mem 0 = h.mem 0

/-- The words below the heap are as they were. -/
theorem Exact32.frame {heapStart : Int} {layout : Layout} {s s' : Store} {size : Word}
    (he : Exact32 heapStart layout s) (hrange : InRange s (.allocate size))
    (hmax : size.toInt ≤ 2 ^ 31 - 12) (hstep : clientStep32 s (.allocate size) = some s') {a : Int}
    (ha : a < heapStart) : s'.heap.mem a = s.heap.mem a := by
  obtain ⟨p, s₁, hrun, -, hframe, -⟩ := allocate_wellFormed ⟨layout, he.exact.sound⟩ size hmax
  rw [he.step_eq hrange, clientStep_allocate, hrun] at hstep
  cases hstep
  exact hframe a (.inl ha)

theorem Filled.allocate {heapStart : Int} {h : Heap} {n k : Nat} {layout : Layout} {s : Store}
    {size : Word} (hf : Filled heapStart (sizeClass size) h n layout k s) (hserved : Served size)
    (hroom : n = k * blocksPerChunk (8 * sizeClass size) → heapStart +
      (k + 1) * (blocksPerChunk (8 * sizeClass size) * (8 * sizeClass size)) < 2 ^ 32) :
    ∃ s' layout' k', clientStep32 s (.allocate size) = some s' ∧
      Filled heapStart (sizeClass size) h (n + 1) layout' k' s' ∧
      pointer (s'.heap.freeSpace - s.heap.freeSpace) =
        (k' - k) * (blocksPerChunk (8 * sizeClass size) * (8 * sizeClass size)) := by
  have hspace := hf.space
  have hcount := hf.count
  have hfew := hf.few
  have hclass : (ClientCall.allocate size).class? = some (sizeClass size) := if_pos hserved
  have hrange : InRange s (.allocate size) := by
    intro _ hhead
    have hchain := hf.exact.exact.sound.chain (sizeClass size)
    rw [hhead] at hchain
    rw [hchain.eq_nil, List.length_nil, Nat.zero_add] at hcount
    have hmore := hroom hcount
    rw [Int.add_mul, Int.one_mul] at hmore
    omega
  obtain ⟨p, s', hallocate, -⟩ :=
    allocate_wellFormed ⟨layout, hf.exact.exact.sound⟩ size hserved.max
  have hstep : clientStep32 s (.allocate size) = some s' := by
    rw [hf.exact.step_eq hrange, clientStep_allocate, hallocate]
    rfl
  obtain ⟨layout', he', heffect⟩ := hf.exact.step hrange hstep
  have hlive := heffect.liveCount_eq hclass
  rw [hf.live] at hlive
  have hmem := (hf.exact.frame hrange hserved.max hstep (a := 0) (by have := hf.exact.low; omega))
  have hnonneg : 0 ≤ (blocksPerChunk (8 * sizeClass size) : Int) * (8 * sizeClass size) := by
    have := hserved.sizeClass_pos
    positivity
  have hstart := hf.exact.exact.sound.start_le
  have hlow := hf.exact.low
  have hhigh := he'.high
  rcases heffect.count hf.exact.exact (hf.live.symm ▸ hcount) with
    ⟨-, hfree, hspace', hlive', hcount'⟩ | ⟨hspace', hcount'⟩
  · rw [hfree, List.length_nil, Nat.zero_add] at hcount
    rw [hlive] at hcount'
    refine ⟨s', layout', k + 1, hstep, ⟨he', hlive, hcount', ?_, ?_, hmem.trans hf.mem⟩, ?_⟩
    · rw [Nat.succ_mul]
      omega
    · rw [hspace', hspace]
      push_cast
      ring
    · rw [hspace', add_sub_cancel_left, pointer_eq hnonneg (by omega)]
      push_cast
      ring
  · rw [hlive] at hcount'
    refine ⟨s', layout', k, hstep, ⟨he', hlive, hcount', by omega, ?_, hmem.trans hf.mem⟩, ?_⟩
    · rw [hspace' hclass, hspace]
    · rw [hspace' hclass, Int.sub_self, Int.sub_self, Int.zero_mul]
      rfl

/-- The induction is on the number of calls, as long as their chunks fit. -/
theorem filled_run (h : Heap) (heapStart : Int) {size : Word} (chunks : Nat)
    (hserved : Served size) (hlow : 4096 ≤ heapStart)
    (hroom : heapStart + chunks * (blocksPerChunk (8 * sizeClass size) * (8 * sizeClass size)) <
      2 ^ 32) (n : Nat) : n ≤ chunks * blocksPerChunk (8 * sizeClass size) →
    ∃ s layout k,
      (List.replicate n (.allocate size)).foldlM clientStep32 (clientStart h heapStart) = some s ∧
      Filled heapStart (sizeClass size) h n layout k s ∧
      carved (sizeClass size) (clientStart h heapStart) (List.replicate n (.allocate size)) =
        k * (blocksPerChunk (8 * sizeClass size) * (8 * sizeClass size)) := by
  have hpos := hserved.sizeClass_pos
  have hten := ten_le_blocksPerChunk hpos
  have hnonneg : 0 ≤ (blocksPerChunk (8 * sizeClass size) : Int) * (8 * sizeClass size) := by
    positivity
  induction n with
  | zero =>
    intro _
    have hall : 0 ≤ (chunks : Int) *
        (blocksPerChunk (8 * sizeClass size) * (8 * sizeClass size)) := by positivity
    obtain ⟨layout, he, hnil⟩ := initHeap_exact32 h hlow (by omega)
    refine ⟨_, layout, 0, rfl, ⟨he, rfl, ?_, by omega, ?_, rfl⟩, ?_⟩
    · rw [hnil, Nat.zero_mul]
      rfl
    · rw [Nat.cast_zero, Int.zero_mul, Int.add_zero]
      rfl
    · rw [Nat.cast_zero, Int.zero_mul]
      rfl
  | succ n ih =>
    intro hn
    obtain ⟨s, layout, k, hrun, hf, hcarved⟩ := ih (by omega)
    have hnext : n = k * blocksPerChunk (8 * sizeClass size) → heapStart +
        (k + 1) * (blocksPerChunk (8 * sizeClass size) * (8 * sizeClass size)) < 2 ^ 32 := by
      intro hfull
      have hk : k + 1 ≤ chunks := by
        by_contra hover
        have hmul := Nat.mul_le_mul_right (blocksPerChunk (8 * sizeClass size))
          (Nat.le_of_lt_succ (Nat.lt_of_not_ge hover))
        omega
      have hle := Int.mul_le_mul_of_nonneg_right (Int.ofNat_le.mpr hk) hnonneg
      push_cast at hle
      omega
    obtain ⟨s', layout', k', hstep, hf', hdiff⟩ := hf.allocate hserved hnext
    have hclass : (ClientCall.allocate size).class? = some (sizeClass size) := if_pos hserved
    refine ⟨s', layout', k', ?_, hf', ?_⟩
    · rw [List.replicate_succ', List.foldlM_append, hrun]
      exact run_cons.mpr ⟨s', hstep, rfl⟩
    · rw [List.replicate_succ', carved_append hrun, hcarved]
      simp only [carved, hstep, if_pos hclass, hdiff]
      ring

theorem Filled.full {heapStart num : Int} {h : Heap} {n k chunks : Nat} {layout : Layout} {s : Store}
    (hf : Filled heapStart num h n layout k s) (hpos : 1 ≤ num) (hsome : 0 < n)
    (hn : n = chunks * blocksPerChunk (8 * num)) :
    k = chunks ∧ s.heap.initialized = true ∧ s.heap.smallBlockHeaders num = NULL := by
  have hten := ten_le_blocksPerChunk hpos
  have hcount := hf.count
  have hfew := hf.few
  have hle : chunks ≤ k := by
    apply Nat.le_of_mul_le_mul_right (c := blocksPerChunk (8 * num)) _ (by omega)
    omega
  have hlt : k < chunks + 1 := by
    apply Nat.lt_of_mul_lt_mul_right (a := blocksPerChunk (8 * num))
    rw [Nat.succ_mul]
    omega
  have hk : k = chunks := by omega
  have hinit : s.heap.initialized = true := by
    by_contra hnot
    have hnone := hf.exact.exact.sound.uninitialized (Bool.eq_false_iff.mpr hnot)
    have hlive := hf.live
    rw [hnone] at hlive
    exact absurd hlive.symm (Nat.ne_of_gt hsome)
  refine ⟨hk, hinit, ?_⟩
  have hchain := hf.exact.exact.sound.chain num
  rw [hk, ← hn] at hcount
  rw [List.eq_nil_of_length_eq_zero (by omega : (layout.free num).length = 0), header,
    if_pos hinit] at hchain
  exact hchain

theorem splitChunk32_done {size : Word} {chunk endChunk : Int} {h : Heap} {fuel : Nat}
    (hfuel : 0 < fuel) (hend : endChunk < chunk) :
    splitChunk32 size chunk fuel endChunk h = some h := by
  obtain ⟨fuel, rfl⟩ := Nat.exists_eq_succ_of_ne_zero (Nat.ne_of_gt hfuel)
  rw [splitChunk32, if_neg (by omega)]

/-- A chunk that passes 2^32 by a block or more is divided into no block. -/
theorem allocateChunk32_past {h : Heap} {size : Word} {num : Int} (hsize : size.toInt = 8 * num)
    (hpos : 1 ≤ num) (hlt : num < NUM_SIZES) (hhigh : h.freeSpace < 2 ^ 32)
    (hpast : 2 ^ 32 + 8 * num ≤ h.freeSpace + blocksPerChunk (8 * num) * (8 * num)) :
    h.allocateChunk32 size = some { h with
      freeSpace := h.freeSpace + blocksPerChunk (8 * num) * (8 * num) - 2 ^ 32 } := by
  obtain ⟨hchunk, -⟩ := chunkSize_toInt hsize hpos hlt
  have hword := BitVec.toInt_lt (x := chunkSize size)
  have hend : pointer (h.freeSpace + blocksPerChunk (8 * num) * (8 * num)) =
      h.freeSpace + blocksPerChunk (8 * num) * (8 * num) - 2 ^ 32 := by
    rw [pointer, ← Int.sub_emod_right, Int.emod_eq_of_lt (by omega) (by omega)]
  rw [allocateChunk32, hchunk, hend, pointer_eq (by omega) (by omega)]
  exact splitChunk32_done (by decide) (by omega)

/-- A chunk that starts behind the size of a block and does not come round is divided. -/
theorem splitChunk32_ends {size : Word} {chunk : Int} (hpos : 0 < size.toInt)
    (hstart : size.toInt ≤ chunk) (k : Nat) : ∀ {fuel : Nat} {endChunk : Int} {h : Heap},
      k < fuel → endChunk < chunk + k * size.toInt → endChunk < 2 ^ 32 →
      ∃ h', splitChunk32 size chunk fuel endChunk h = some h' ∧ h'.freeSpace = h.freeSpace := by
  induction k with
  | zero =>
    intro fuel endChunk h hfuel hend _
    rw [Nat.cast_zero, Int.zero_mul] at hend
    exact ⟨h, splitChunk32_done hfuel (by omega), rfl⟩
  | succ k ih =>
    intro fuel endChunk h hfuel hend hlt
    obtain ⟨fuel, rfl⟩ := Nat.exists_eq_succ_of_ne_zero (Nat.ne_of_gt (Nat.zero_lt_of_lt hfuel))
    rw [splitChunk32]
    split
    case isTrue hmore =>
      rw [Nat.cast_succ, Int.add_mul, Int.one_mul] at hend
      rw [pointer_eq (by omega) (by omega)]
      exact ih (by omega) (by omega) (by omega)
    case isFalse => exact ⟨h, rfl, rfl⟩

/-- A call that finds its list empty goes on with what the chunk leaves. -/
theorem clientStep32_empty {s : Store} {h₁ : Heap} {size : Word}
    (hinit : s.heap.initialized = true) (hserved : Served size)
    (hhead : s.heap.smallBlockHeaders (sizeClass size) = NULL)
    (hchunk : s.heap.allocateChunk32 (blockSize size) = some h₁) :
    ∃ events, clientStep32 s (.allocate size) =
      some ⟨(h₁.unlink32 (blockSize size)).2, events⟩ := by
  have hsize := blockSize_toInt size hserved.1 hserved.max
  have hnum : numSize (blockSize size) = sizeClass size := numSize_eq hsize
  have hone := hserved.1
  have hlt := hserved.2
  have hpos := hserved.sizeClass_pos
  have hclear : s.heap.clearHeaders = s.heap := by rw [clearHeaders, if_pos hinit]
  have hallocate : s.heap.allocate32 size = some (h₁.unlink32 (blockSize size)) := by
    unfold allocate32
    rw [hclear, if_neg (by omega)]
    simp only [hnum, hhead, hchunk, if_neg (by omega : ¬sizeClass size ≥ NUM_SIZES),
      if_neg (by omega : ¬sizeClass size < 0), ↓reduceIte]
    rfl
  exact ⟨_, by rw [clientStep32, Store.allocate32, hallocate]; rfl⟩

theorem unlink32_head (h : Heap) {size : Word} {num : Int} (hsize : size.toInt = 8 * num) :
    (h.unlink32 size).2.smallBlockHeaders num = pointer (h.mem (h.smallBlockHeaders num)) := by
  simp [unlink32, setHeader, storeInt, store, numSize_eq hsize]

/-- A store whose list of a class is empty. -/
structure Emptied (num : Int) (s : Store) : Prop where
  initialized : s.heap.initialized = true
  head : s.heap.smallBlockHeaders num = NULL

/-- The call that passes 2^32 leaves the list as empty as it was. -/
theorem Emptied.past {s : Store} (size : Word) (hs : Emptied (sizeClass size) s)
    (hserved : Served size) (hmem : s.heap.mem 0 = NULL) (hhigh : s.heap.freeSpace < 2 ^ 32)
    (hpast : 2 ^ 32 + 8 * sizeClass size ≤
      s.heap.freeSpace + blocksPerChunk (8 * sizeClass size) * (8 * sizeClass size)) :
    ∃ s', clientStep32 s (.allocate size) = some s' ∧ Emptied (sizeClass size) s' ∧
      s'.heap.freeSpace = s.heap.freeSpace +
        blocksPerChunk (8 * sizeClass size) * (8 * sizeClass size) - 2 ^ 32 := by
  have hsize : (blockSize size).toInt = 8 * sizeClass size :=
    blockSize_toInt size hserved.1 hserved.max
  have hchunk := allocateChunk32_past hsize hserved.sizeClass_pos hserved.2 hhigh hpast
  obtain ⟨events, hstep⟩ := clientStep32_empty hs.initialized hserved hs.head hchunk
  refine ⟨_, hstep, ⟨hs.initialized, ?_⟩, rfl⟩
  refine (unlink32_head _ hsize).trans ?_
  show pointer (s.heap.mem (s.heap.smallBlockHeaders (sizeClass size))) = NULL
  rw [hs.head, NULL, hmem]
  rfl

theorem Emptied.divide {s : Store} {size : Word} (hs : Emptied (sizeClass size) s)
    (hserved : Served size) (hlow : 8 * sizeClass size ≤ s.heap.freeSpace)
    (hroom : s.heap.freeSpace + blocksPerChunk (8 * sizeClass size) * (8 * sizeClass size) <
      2 ^ 32) :
    ∃ s', clientStep32 s (.allocate size) = some s' ∧ s'.heap.freeSpace =
      s.heap.freeSpace + blocksPerChunk (8 * sizeClass size) * (8 * sizeClass size) := by
  have hpos := hserved.sizeClass_pos
  have hsize : (blockSize size).toInt = 8 * sizeClass size :=
    blockSize_toInt size hserved.1 hserved.max
  obtain ⟨hchunk, hfuel⟩ := chunkSize_toInt hsize hpos hserved.2
  have hword := BitVec.isLt (chunkSize (blockSize size))
  have hnonneg : 0 ≤ (blocksPerChunk (8 * sizeClass size) : Int) * (8 * sizeClass size) := by
    positivity
  have hten := ten_le_blocksPerChunk hpos
  obtain ⟨h₁, hsplit, hspace⟩ : ∃ h₁, s.heap.allocateChunk32 (blockSize size) = some h₁ ∧
      h₁.freeSpace =
        s.heap.freeSpace + blocksPerChunk (8 * sizeClass size) * (8 * sizeClass size) := by
    rw [allocateChunk32, hchunk, pointer_eq (a := s.heap.freeSpace + _) (by omega) hroom]
    have hfirst : 0 ≤ s.heap.freeSpace +
        blocksPerChunk (8 * sizeClass size) * (8 * sizeClass size) - (blockSize size).toInt := by
      omega
    rw [pointer_eq hfirst (by omega)]
    exact splitChunk32_ends (by omega) (by omega) (blocksPerChunk (8 * sizeClass size)) (by omega)
      (by rw [hsize]; omega) (by omega)
  obtain ⟨events, hstep⟩ := clientStep32_empty hs.initialized hserved hs.head hsplit
  exact ⟨_, hstep, hspace⟩

/-- Behind this many blocks of 4080 bytes the next chunk passes 2^32. -/
def toTheEnd : Nat := 1044460

/-- The chunk that passes 2^32 gives no block, so that the call behind it takes another one. -/
theorem allocator_wraps : ¬∀ (h : Heap) (calls : List ClientCall) (s : Store),
    calls.foldlM clientStep32 (clientStart h 33554432) = some s →
    ∀ num most, 1 ≤ num → LiveAtMost num most (clientStart h 33554432) calls →
      carved num (clientStart h 33554432) calls ≤
        chunksFor num most * blocksPerChunk (8 * num) * (8 * num) := by
  intro hclaim
  have hserved : Served 4076 := by decide
  have hnum : sizeClass 4076 = 510 := by decide
  have hten : blocksPerChunk (8 * 510) = 10 := by decide
  have hclass : (ClientCall.allocate 4076).class? = some 510 := by decide
  obtain ⟨s, layout, k, hrun, hf, hcarved⟩ :=
    filled_run ⟨fun _ => 0, 0, false, fun _ => 0⟩ 33554432 104446 hserved (by decide)
      (by rw [hnum, hten]; decide) toTheEnd (by rw [hnum, hten]; decide)
  rw [hnum] at hf hcarved
  obtain ⟨rfl, hinit, hhead⟩ := hf.full (by decide) (by decide)
    (by rw [hten, toTheEnd] : toTheEnd = 104446 * blocksPerChunk (8 * 510))
  have hspace := hf.space
  rw [hten] at hspace hcarved
  obtain ⟨s₁, hstep₁, hempty₁, hspace₁⟩ := Emptied.past 4076
    (hnum ▸ ⟨hinit, hhead⟩) hserved hf.mem (by rw [hspace]; decide)
    (by rw [hspace, hnum, hten]; decide)
  rw [hspace, hnum, hten] at hspace₁
  obtain ⟨s₂, hstep₂, hspace₂⟩ := hempty₁.divide hserved (by rw [hspace₁, hnum]; decide)
    (by rw [hspace₁, hnum, hten]; decide)
  rw [hspace₁, hnum, hten] at hspace₂
  have hrest : [.allocate 4076, .allocate 4076].foldlM clientStep32 s = some s₂ :=
    run_cons.mpr ⟨s₁, hstep₁, run_cons.mpr ⟨s₂, hstep₂, rfl⟩⟩
  have hle := hclaim _ (List.replicate toTheEnd (.allocate 4076) ++
    [.allocate 4076, .allocate 4076]) s₂ (by rw [List.foldlM_append, hrun]; exact hrest) 510 _
    (by decide) (liveAtMost_length 510 _ _ _)
  rw [carved_append hrun, hcarved] at hle
  simp only [carved, hstep₁, hstep₂, if_pos hclass, hspace₁, hspace₂, hspace] at hle
  revert hle
  rw [List.length_append, List.length_replicate]
  decide

end Heap

end CompSys
