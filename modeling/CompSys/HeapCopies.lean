import CompSys.HeapReuse

/-!
# The two copies of the small-block allocator

`tiny_riscv/lib.c` of A5 has the allocator of A6 but for one word: `allocate` does not set
`initialized`, so that every call clears the free lists and carves a chunk. Addresses are those of
`Heap`: both copies stay below 2^32.
-/
namespace CompSys

namespace TinyRiscv

open Heap

def clearHeaders (h : Heap) : Heap :=
  if h.initialized then h
  else { h with initialized := false, smallBlockHeaders := fun _ => NULL }

def allocate (h : Heap) (size : Word) : Option (Int × Heap) :=
  let h := clearHeaders h
  if size.toInt < 1 then some (NULL, h)
  else
    let size := blockSize size
    if numSize size ≥ NUM_SIZES then some (NULL, h)
    else if numSize size < 0 then none
    else if h.smallBlockHeaders (numSize size) = NULL then do
      let h ← h.allocateChunk size
      return h.unlink size
    else some (h.unlink size)

end TinyRiscv

namespace Heap

/-! ## Lost blocks -/

/-- The heap with empty free lists. -/
def emptied (h : Heap) : Heap := { h with initialized := true, smallBlockHeaders := fun _ => NULL }

/-- A sound heap stays sound when its free blocks are lost, and some live ones with them. -/
theorem WellFormed.lost {heapStart : Int} {h : Heap} {live live' : Live}
    (hw : WellFormed heapStart h live) (hsub : live'.Sublist live) :
    ∃ layout, Sound heapStart layout h.emptied live' ∧
      ∀ b num, layout.cls b = some num → b + 4 ∈ live'.map Prod.fst := by
  obtain ⟨layout, hs⟩ := hw
  let lost : Layout :=
    ⟨fun b => if b + 4 ∈ live'.map Prod.fst then layout.cls b else none, fun _ => []⟩
  have hcls : ∀ {b num}, lost.cls b = some num →
      b + 4 ∈ live'.map Prod.fst ∧ layout.cls b = some num := by
    intro b num h
    simp only [lost] at h
    split at h
    case isTrue hlive => exact ⟨hlive, h⟩
    case isFalse => cases h
  refine ⟨lost, ⟨hs.start_pos, hs.start_le, fun b num h => hs.carved b num (hcls h).2,
    fun b num b' num' h h' => hs.apart b num b' num' (hcls h).2 (hcls h').2, fun _ => rfl,
    fun _ _ hb => absurd hb List.not_mem_nil, fun _ => List.nodup_nil, ?_,
    hs.live_nodup.sublist (hsub.map Prod.fst), fun b num h => .inr (hcls h).1,
    fun h => by cases h⟩, fun b num h => (hcls h).1⟩
  intro p size hp
  obtain ⟨num, hn⟩ := hs.holds p size (hsub.subset hp)
  have hlive : p - 4 + 4 ∈ live'.map Prod.fst := by
    rw [Int.sub_add_cancel]
    exact List.mem_map_of_mem hp
  exact ⟨num, (if_pos hlive).trans hn.cls, hn.field, hn.size_pos, hn.fits, List.not_mem_nil⟩

theorem WellFormed.emptied {heapStart : Int} {h : Heap} {live : Live}
    (hw : WellFormed heapStart h live) : WellFormed heapStart h.emptied live := by
  obtain ⟨layout, hs, -⟩ := hw.lost (List.Sublist.refl live)
  exact ⟨layout, hs⟩

theorem splitChunk_initialized (size : Word) (chunk : Int) (b : Bool) (fuel : Nat) :
    ∀ (endChunk : Int) (h : Heap),
      splitChunk size chunk fuel endChunk { h with initialized := b } =
        (splitChunk size chunk fuel endChunk h).map fun h' => { h' with initialized := b } := by
  induction fuel with
  | zero =>
      intro endChunk h
      rfl
  | succ fuel ih =>
      intro endChunk h
      rw [splitChunk, splitChunk]
      split
      case isTrue => exact ih _ (h.link (numSize size) endChunk)
      case isFalse => rfl

end Heap

namespace TinyRiscv

open Heap

theorem clearHeaders_eq {h : Heap} (hinit : h.initialized = false) :
    clearHeaders h = { h.emptied with initialized := false } := by
  rw [clearHeaders, hinit]
  rfl

/-- The A5 copy allocates like the A6 copy from empty free lists. -/
theorem allocate_eq {h : Heap} (hinit : h.initialized = false) (size : Word) :
    allocate h size =
      (h.emptied.allocate size).map fun r => (r.1, { r.2 with initialized := false }) := by
  have hchunk : ∀ blockSize : Word, allocateChunk { h.emptied with initialized := false } blockSize =
      (h.emptied.allocateChunk blockSize).map fun h' => { h' with initialized := false } :=
    fun blockSize => splitChunk_initialized blockSize _ false _ _
      { h.emptied with freeSpace := h.freeSpace + (chunkSize blockSize).toInt }
  have hclear : h.emptied.clearHeaders = h.emptied := rfl
  rw [allocate, Heap.allocate, clearHeaders_eq hinit, hclear]
  simp only [hchunk]
  split
  · rfl
  · split
    · rfl
    · split
      · rfl
      · split
        · cases h.emptied.allocateChunk (blockSize size) <;> rfl
        · rfl

/-- The heap of the A5 copy between two calls. -/
def WellFormed (heapStart : Int) (h : Heap) (live : Live) : Prop :=
  h.initialized = false ∧ Heap.WellFormed heapStart h.emptied live

theorem initHeap_wellFormed (h : Heap) {heapStart : Int} (hpos : 0 < heapStart) :
    WellFormed heapStart (h.initHeap heapStart) [] :=
  ⟨rfl, (Heap.initHeap_wellFormed h hpos).emptied⟩

/-- What is below free space is of no concern to the A5 copy. -/
theorem wellFormed_nil {h : Heap} (hinit : h.initialized = false) (hpos : 0 < h.freeSpace) :
    WellFormed h.freeSpace h [] := by
  have hempty := Heap.WellFormed.emptied (Heap.initHeap_wellFormed h hpos)
  exact ⟨hinit, hempty⟩

/-- Each block that the A5 copy returns is the first of a new chunk. -/
theorem allocate_spec {heapStart : Int} {h : Heap} {live : Live}
    (hw : WellFormed heapStart h live) (size : Word) (hmax : size.toInt ≤ 2 ^ 31 - 12) :
    ∃ p h', allocate h size = some (p, h') ∧ (∀ a, a < h.freeSpace → h'.mem a = h.mem a) ∧
      (¬Served size ∧ p = NULL ∧ h'.freeSpace = h.freeSpace ∧ WellFormed heapStart h' live ∨
        Served size ∧ p = h.freeSpace + 4 ∧ p ≠ NULL ∧
          h'.freeSpace = h.freeSpace +
            blocksPerChunk (8 * sizeClass size) * (8 * sizeClass size) ∧
          WellFormed heapStart h' ((p, size) :: live)) := by
  obtain ⟨hinit, layout, hs⟩ := hw
  rcases allocate_cases hs size hmax with ⟨hnot, hrun⟩ | ⟨hserved, h₁, layout₁, hrun, hs₁,
    hinit₁, hhead₁, hmem₁, ⟨hhead, -⟩ | ⟨-, hnew, hspace, -⟩⟩
  · refine ⟨NULL, { h.emptied with initialized := false }, ?_, fun _ _ => rfl,
      .inl ⟨hnot, rfl, rfl, rfl, layout, hs⟩⟩
    rw [allocate_eq hinit, hrun]
    rfl
  · exact absurd rfl hhead
  · have hsize : (blockSize size).toInt = 8 * sizeClass size :=
      blockSize_toInt size hserved.1 hmax
    have hfits : size.toInt + 4 ≤ 8 * sizeClass size := by
      unfold sizeClass
      omega
    obtain ⟨-, hunlink⟩ := hs₁.unlink hinit₁ hsize hserved.1 hfits hhead₁
    have hblock := unlink_block hinit₁ hsize
    rw [hnew] at hblock
    have hstart := hs.start_pos
    have hle := hs.start_le
    refine ⟨(h₁.unlink (blockSize size)).1,
      { (h₁.unlink (blockSize size)).2 with initialized := false }, ?_, ?_,
      .inr ⟨hserved, hblock, ?_, hspace, rfl, ?_⟩⟩
    · rw [allocate_eq hinit, hrun]
      rfl
    · intro a ha
      have ha' : a < h.emptied.freeSpace := ha
      exact (unlink_mem (by omega)).trans (hmem₁ a ha)
    · rw [NULL]
      omega
    · have hlost : Heap.WellFormed heapStart (h₁.unlink (blockSize size)).2.emptied
          (((h₁.unlink (blockSize size)).1, size) :: live) := WellFormed.emptied ⟨_, hunlink⟩
      exact hlost

/-- A block that the A5 copy gets back is lost. -/
theorem release_spec {heapStart : Int} {h : Heap} {live : Live} (hw : WellFormed heapStart h live)
    {p : Int} {size : Word} (hp : (p, size) ∈ live) :
    ∃ h', h.release p = some h' ∧ h'.freeSpace = h.freeSpace ∧
      WellFormed heapStart h' (live.eraseP fun block => block.1 == p) := by
  obtain ⟨hinit, layout, hs⟩ := hw
  obtain ⟨num, -, hrun, -⟩ := hs.release hp
  have hfield : ∀ a, h.emptied.loadInt a = h.loadInt a := fun _ => rfl
  simp only [Heap.release, hfield] at hrun ⊢
  split at hrun
  case isTrue hindex =>
    obtain ⟨layout', hs', hcls⟩ := Heap.WellFormed.lost ⟨layout, hs⟩
      (List.eraseP_sublist (p := fun block : Int × Word => block.1 == p))
    refine ⟨_, if_pos hindex, rfl, hinit, layout', hs'.write ?_ _⟩
    rintro b num' hb rfl
    obtain ⟨block, hblock, heq⟩ := List.mem_map.mp (hcls _ num' hb)
    rw [Int.sub_add_cancel] at heq
    exact ((mem_eraseP_key hs.live_nodup).mp hblock).2 heq
  case isFalse => cases hrun

theorem write_spec {heapStart : Int} {h : Heap} {live : Live} (hw : WellFormed heapStart h live)
    {a : Int} (ha : Owned heapStart live a) (v : Int) : WellFormed heapStart (h.store a v) live :=
  ⟨hw.1, Heap.write_spec hw.2 ha v⟩

theorem allocate_huge {h : Heap} (hinit : h.initialized = false) {size : Word}
    (hbig : 2 ^ 31 - 12 < size.toInt) : allocate h size = none := by
  rw [allocate_eq hinit, Heap.allocate_huge _ hbig]
  rfl

end TinyRiscv

namespace Heap

/-! ## One client on both copies -/

/-- A client names a block by the number of the call that returned it. -/
inductive ClientOp where
  | allocate (size : Word)
  | release (i : Nat)
  | write (i : Nat) (offset v : Int)
deriving DecidableEq

def ClientOp.class? : ClientOp → Option Int
  | .allocate size => if Served size then some (sizeClass size) else none
  | _ => none

/-- The classes that the operations allocate from. -/
def classes : List ClientOp → List Int
  | [] => []
  | op :: ops => op.class?.toList ++ classes ops

/-- `addresses` has what each `allocate` returned, `held` the blocks that are not released. -/
structure Client where
  heap : Heap
  addresses : List Int
  held : List (Nat × Word)

namespace Client

def start (h : Heap) (heapStart : Int) : Client := ⟨h.initHeap heapStart, [], []⟩

def address (c : Client) (i : Nat) : Int := c.addresses.getD i NULL

def step (allocate : Heap → Word → Option (Int × Heap)) (c : Client) : ClientOp → Option Client
  | .allocate size => do
    let (p, heap) ← allocate c.heap size
    let held := if p = NULL then c.held else (c.addresses.length, size) :: c.held
    return { heap := heap, addresses := c.addresses ++ [p], held := held }
  | .release i =>
    if i ∈ c.held.map Prod.fst then do
      let heap ← c.heap.release (c.address i)
      return { c with heap := heap, held := c.held.eraseP fun block => block.1 == i }
    else none
  | .write i offset v =>
    if ∃ block ∈ c.held, block.1 = i ∧ 0 ≤ offset ∧ offset < block.2.toInt ∧ offset % 4 = 0 then
      some { c with heap := c.heap.store (c.address i + offset) v }
    else none

/-- The blocks held, by their addresses. -/
def live (c : Client) : Live := c.held.map fun block => (c.address block.1, block.2)

theorem live_allocated (c : Client) (h : Heap) (p : Int) (size : Word)
    (hheld : ∀ block ∈ c.held, block.1 < c.addresses.length) :
    live ⟨h, c.addresses ++ [p], (c.addresses.length, size) :: c.held⟩ = (p, size) :: c.live := by
  have haddress : ∀ block ∈ c.held,
      (c.addresses ++ [p]).getD block.1 NULL = c.addresses.getD block.1 NULL := by
    intro block hblock
    rw [List.getD_append _ _ _ _ (hheld block hblock)]
  simp only [live, address, List.map_cons, List.cons.injEq, Prod.mk.injEq, and_true]
  refine ⟨by simp, List.map_congr_left ?_⟩
  intro block hblock
  rw [haddress block hblock]

theorem live_refused (c : Client) (h : Heap) (p : Int)
    (hheld : ∀ block ∈ c.held, block.1 < c.addresses.length) :
    live ⟨h, c.addresses ++ [p], c.held⟩ = c.live := by
  apply List.map_congr_left
  intro block hblock
  simp only [address]
  rw [List.getD_append _ _ _ _ (hheld block hblock)]

/-- Blocks with distinct addresses are the same by number and by address. -/
theorem live_released (c : Client) (h : Heap) {i : Nat} (hnodup : (c.live.map Prod.fst).Nodup)
    (hi : i ∈ c.held.map Prod.fst) :
    live ⟨h, c.addresses, c.held.eraseP fun block => block.1 == i⟩ =
      c.live.eraseP fun block => block.1 == c.address i := by
  obtain ⟨heap, addresses, held⟩ := c
  simp only [live, address] at *
  induction held with
  | nil => rfl
  | cons block held ih =>
      rw [List.map_cons, List.map_cons, List.nodup_cons] at hnodup
      by_cases hblock : block.1 = i
      · rw [List.eraseP_cons_of_pos (by simpa using hblock), List.map_cons,
          List.eraseP_cons_of_pos (by simp [hblock])]
      · have hin : i ∈ held.map Prod.fst := by
          rcases List.mem_cons.mp hi with heq | hin
          · exact absurd heq.symm hblock
          · exact hin
        have hne : addresses.getD block.1 NULL ≠ addresses.getD i NULL := by
          intro heq
          obtain ⟨other, hother, rfl⟩ := List.mem_map.mp hin
          exact hnodup.1 (List.mem_map.mpr ⟨_, List.mem_map_of_mem hother, heq.symm⟩)
        rw [List.eraseP_cons_of_neg (by simpa using hblock), List.map_cons, List.map_cons,
          List.eraseP_cons_of_neg (by simpa using hne), ih hnodup.2 hin]

theorem mem_live {c : Client} {i : Nat} {size : Word} (h : (i, size) ∈ c.held) :
    (c.address i, size) ∈ c.live := List.mem_map.mpr ⟨_, h, rfl⟩

end Client

/-! ## Accounts of the A6 copy -/

/-- After allocations from the classes `done`: a class has chunks if it was allocated from, and
no more live blocks than allocations. -/
def Accounts (layout : Layout) (live : Live) (done : List Int) : Prop :=
  ∀ num, ∃ k, (layout.free num).length + liveCount num live = k * blocksPerChunk (8 * num) ∧
    liveCount num live ≤ done.count num ∧ (num ∈ done ↔ 1 ≤ k)

theorem Effect.accounts {heapStart : Int} {layout layout' : Layout} {h h' : Heap}
    {live live' : Live} {call : ClientCall} {done : List Int}
    (heffect : Effect layout h live call layout' h' live') (he : Exact heapStart layout h live)
    (ha : Accounts layout live done) : Accounts layout' live' (call.class?.toList ++ done) := by
  intro num
  obtain ⟨k, hcount, hle, hdone⟩ := ha num
  rcases heffect.count he hcount with ⟨hclass, hfree, -, hlive, hcount'⟩ | ⟨-, hcount'⟩
  · have heq := heffect.liveCount_eq hclass
    refine ⟨k + 1, hcount', ?_, ?_⟩
    · rw [hclass, Option.toList_some, List.singleton_append, List.count_cons_self]
      omega
    · rw [hclass]
      simp
  · refine ⟨k, hcount', ?_⟩
    by_cases hclass : call.class? = some num
    · have heq := heffect.liveCount_eq hclass
      rw [hclass, Option.toList_some, List.singleton_append, List.count_cons_self]
      refine ⟨by omega, ?_⟩
      have hpos : k ≠ 0 := by
        rintro rfl
        omega
      simp
      omega
    · have hle' := heffect.liveCount_le hclass
      have hcons : ∀ other, call.class? = some other → other ≠ num := by
        rintro other hother rfl
        exact hclass hother
      cases hother : call.class? with
      | none => exact ⟨by simp; omega, by simpa using hdone⟩
      | some other =>
        have hne := hcons other hother
        rw [Option.toList_some, List.singleton_append, List.count_cons_of_ne hne]
        refine ⟨by omega, ?_⟩
        rw [← hdone]
        simp [Ne.symm hne]

/-! ## Both copies in step -/

/-- The same operations on both copies, with allocations from the classes `done`. -/
structure Lockstep (heapStart : Int) (done : List Int) (c c' : Client) : Prop where
  held : c'.held = c.held
  length : c'.addresses.length = c.addresses.length
  bound : ∀ block ∈ c.held, block.1 < c.addresses.length
  accounts : ∃ layout, Exact heapStart layout c.heap c.live ∧ Accounts layout c.live done
  lost : TinyRiscv.WellFormed heapStart c'.heap c'.live
  same : done.Nodup → c'.addresses = c.addresses ∧ c'.heap.freeSpace = c.heap.freeSpace
  more : ¬done.Nodup → c.heap.freeSpace < c'.heap.freeSpace

theorem start_lockstep (h : Heap) {heapStart : Int} (hpos : 0 < heapStart) :
    Lockstep heapStart [] (Client.start h heapStart) (Client.start h heapStart) where
  held := rfl
  length := rfl
  bound := fun block hblock => absurd hblock List.not_mem_nil
  accounts := by
    obtain ⟨layout, he, hfree⟩ := initHeap_exact h hpos
    refine ⟨layout, he, fun num => ⟨0, ?_, Nat.zero_le _, by simp⟩⟩
    rw [hfree num, Nat.zero_mul]
    rfl
  lost := TinyRiscv.initHeap_wellFormed h hpos
  same := fun _ => ⟨rfl, rfl⟩
  more := fun hnot => absurd List.nodup_nil hnot

section Step

variable {heapStart : Int} {done : List Int} {c c' : Client}

theorem Lockstep.nodup (hl : Lockstep heapStart done c c') :
    (c.live.map Prod.fst).Nodup ∧ (c'.live.map Prod.fst).Nodup := by
  obtain ⟨layout, he, -⟩ := hl.accounts
  obtain ⟨-, layout', hs⟩ := hl.lost
  exact ⟨he.sound.live_nodup, hs.live_nodup⟩

theorem Client.step_allocate {allocate : Heap → Word → Option (Int × Heap)} {c : Client}
    {size : Word} {p : Int} {h : Heap} (hrun : allocate c.heap size = some (p, h)) :
    c.step allocate (.allocate size) = some ⟨h, c.addresses ++ [p],
      if p = NULL then c.held else (c.addresses.length, size) :: c.held⟩ := by
  simp [Client.step, hrun]

/-- Both copies return a block. -/
theorem Lockstep.allocated (hl : Lockstep heapStart done c c') {size : Word} (hserved : Served size)
    {p p' : Int} {h h' : Heap} (hrun : c.heap.allocate size = some (p, h)) (hnull : p ≠ NULL)
    (hrun' : TinyRiscv.allocate c'.heap size = some (p', h')) (hnull' : p' ≠ NULL)
    (haccounts : ∃ layout, Exact heapStart layout h ((p, size) :: c.live) ∧
      Accounts layout ((p, size) :: c.live) (sizeClass size :: done))
    (hlost : TinyRiscv.WellFormed heapStart h' ((p', size) :: c'.live))
    (hsame : (sizeClass size :: done).Nodup → p' = p ∧ h'.freeSpace = h.freeSpace)
    (hmore : ¬(sizeClass size :: done).Nodup → h.freeSpace < h'.freeSpace) :
    ∃ d d', c.step Heap.allocate (.allocate size) = some d ∧
      c'.step TinyRiscv.allocate (.allocate size) = some d' ∧
      Lockstep heapStart ((ClientOp.allocate size).class?.toList ++ done) d d' := by
  have hclass : (ClientOp.allocate size).class?.toList ++ done = sizeClass size :: done := by
    rw [ClientOp.class?, if_pos hserved]
    rfl
  have hbound' : ∀ block ∈ c'.held, block.1 < c'.addresses.length := by
    rw [hl.held, hl.length]
    exact hl.bound
  refine ⟨_, _, Client.step_allocate hrun, Client.step_allocate hrun', ?_⟩
  rw [hclass, if_neg hnull, if_neg hnull']
  constructor
  case held => simp [hl.held, hl.length]
  case length => simp [hl.length]
  case bound =>
    intro block hblock
    rw [List.length_append]
    rcases List.mem_cons.mp hblock with rfl | hold
    · exact Nat.lt_succ_self _
    · exact Nat.lt_succ_of_lt (hl.bound block hold)
  case accounts =>
    rw [Client.live_allocated c h p size hl.bound]
    exact haccounts
  case lost =>
    rw [Client.live_allocated c' h' p' size hbound']
    exact hlost
  case same =>
    intro hnodup
    obtain ⟨hp, hspace⟩ := hsame hnodup
    refine ⟨?_, hspace⟩
    rw [hp, (hl.same (List.nodup_cons.mp hnodup).2).1]
  case more => exact hmore

/-- Both copies return NULL. -/
theorem Lockstep.refused (hl : Lockstep heapStart done c c') {size : Word}
    (hserved : ¬Served size) {h h' : Heap} (hrun : c.heap.allocate size = some (NULL, h))
    (hrun' : TinyRiscv.allocate c'.heap size = some (NULL, h'))
    (hspace : h.freeSpace = c.heap.freeSpace) (hspace' : h'.freeSpace = c'.heap.freeSpace)
    (haccounts : ∃ layout, Exact heapStart layout h c.live ∧ Accounts layout c.live done)
    (hlost : TinyRiscv.WellFormed heapStart h' c'.live) :
    ∃ d d', c.step Heap.allocate (.allocate size) = some d ∧
      c'.step TinyRiscv.allocate (.allocate size) = some d' ∧
      Lockstep heapStart ((ClientOp.allocate size).class?.toList ++ done) d d' := by
  have hclass : (ClientOp.allocate size).class?.toList ++ done = done := by
    rw [ClientOp.class?, if_neg hserved]
    rfl
  have hbound' : ∀ block ∈ c'.held, block.1 < c'.addresses.length := by
    rw [hl.held, hl.length]
    exact hl.bound
  refine ⟨_, _, Client.step_allocate hrun, Client.step_allocate hrun', ?_⟩
  rw [hclass, if_pos rfl, if_pos rfl]
  constructor
  case held => exact hl.held
  case length => simp [hl.length]
  case bound =>
    intro block hblock
    rw [List.length_append]
    exact Nat.lt_succ_of_lt (hl.bound block hblock)
  case accounts =>
    rw [Client.live_refused c h NULL hl.bound]
    exact haccounts
  case lost =>
    rw [Client.live_refused c' h' NULL hbound']
    exact hlost
  case same =>
    intro hnodup
    obtain ⟨haddresses, hsame⟩ := hl.same hnodup
    exact ⟨by rw [haddresses], by rw [hspace, hspace', hsame]⟩
  case more =>
    intro hnot
    rw [hspace, hspace']
    exact hl.more hnot

/-- The A6 copy reuses a block, or carves the first chunk of the class, or the copies are apart
already. -/
theorem Lockstep.allocate (hl : Lockstep heapStart done c c') (size : Word) :
    (c.step Heap.allocate (.allocate size) = none ∧
      c'.step TinyRiscv.allocate (.allocate size) = none) ∨
    ∃ d d', c.step Heap.allocate (.allocate size) = some d ∧
      c'.step TinyRiscv.allocate (.allocate size) = some d' ∧
      Lockstep heapStart ((ClientOp.allocate size).class?.toList ++ done) d d' := by
  by_cases hmax : size.toInt ≤ 2 ^ 31 - 12
  · right
    obtain ⟨layout, he, ha⟩ := hl.accounts
    obtain ⟨h, layout₁, live₁, he₁, heffect⟩ := he.allocate size hmax
    have ha₁ := heffect.accounts he ha
    obtain ⟨p', h', hrun', -, hcopy⟩ := TinyRiscv.allocate_spec hl.lost size hmax
    obtain ⟨k, hcount, hle, hdone⟩ := ha (sizeClass size)
    rcases hcopy with ⟨hnot, rfl, hspace', hlost⟩ | ⟨hserved, hp', hnull', hspace', hlost⟩
    · simp only [ClientCall.class?, if_neg hnot, Option.toList_none, List.nil_append] at ha₁
      cases heffect with
      | refused _ hrun hspace =>
        exact hl.refused hnot hrun hrun' hspace hspace' ⟨layout, he₁, ha₁⟩ hlost
      | reused hserved => exact absurd hserved hnot
      | carved hserved => exact absurd hserved hnot
    · have hten := ten_le_blocksPerChunk hserved.sizeClass_pos
      have hpos := hserved.sizeClass_pos
      have hchunk : 0 < (blocksPerChunk (8 * sizeClass size) : Int) * (8 * sizeClass size) := by
        positivity
      simp only [ClientCall.class?, if_pos hserved, Option.toList_some, List.singleton_append] at ha₁
      cases heffect with
      | refused hnot => exact absurd hserved hnot
      | reused _ hfree hrun hnull hspace =>
        have hmem : sizeClass size ∈ done := by
          rw [hfree, List.length_cons] at hcount
          rw [hdone]
          rcases Nat.eq_zero_or_pos k with rfl | hk
          · omega
          · exact hk
        refine hl.allocated hserved hrun hnull hrun' hnull' ⟨_, he₁, ha₁⟩ hlost ?_ ?_
        · intro hnodup
          exact absurd hmem (List.nodup_cons.mp hnodup).1
        · intro _
          rw [hspace, hspace']
          by_cases hnodup : done.Nodup
          · have hsame := (hl.same hnodup).2
            omega
          · have hmore := hl.more hnodup
            omega
      | carved _ hfree _ hrun hnull hspace =>
        refine hl.allocated hserved hrun hnull hrun' hnull' ⟨_, he₁, ha₁⟩ hlost ?_ ?_
        · intro hnodup
          have hsame := (hl.same (List.nodup_cons.mp hnodup).2).2
          rw [hp', hspace, hspace', hsame]
          exact ⟨rfl, rfl⟩
        · intro hnot
          rw [hspace, hspace']
          by_cases hnodup : done.Nodup
          · -- one block of the class was allocated, so that nine of its chunk are free
            have hmem : sizeClass size ∈ done := by
              by_contra hmem
              exact hnot (List.nodup_cons.mpr ⟨hmem, hnodup⟩)
            have hone := List.count_eq_one_of_mem hnodup hmem
            have hk := hdone.mp hmem
            have htimes : 1 * blocksPerChunk (8 * sizeClass size) ≤
                k * blocksPerChunk (8 * sizeClass size) := Nat.mul_le_mul_right _ hk
            rw [hfree, List.length_nil] at hcount
            omega
          · have hmore := hl.more hnodup
            omega
  · left
    have hnone := allocate_huge c.heap (lt_of_not_ge hmax)
    have hnone' := TinyRiscv.allocate_huge hl.lost.1 (lt_of_not_ge hmax)
    exact ⟨by rw [Client.step, hnone]; rfl, by rw [Client.step, hnone']; rfl⟩

theorem Lockstep.release (hl : Lockstep heapStart done c c') (i : Nat) :
    (c.step Heap.allocate (.release i) = none ∧
      c'.step TinyRiscv.allocate (.release i) = none) ∨
    ∃ d d', c.step Heap.allocate (.release i) = some d ∧
      c'.step TinyRiscv.allocate (.release i) = some d' ∧ Lockstep heapStart done d d' := by
  by_cases hi : i ∈ c.held.map Prod.fst
  · right
    have hi' : i ∈ c'.held.map Prod.fst := by
      rw [hl.held]
      exact hi
    obtain ⟨⟨i, size⟩, hheld, rfl⟩ := List.mem_map.mp hi
    have hheld' : (i, size) ∈ c'.held := by
      rw [hl.held]
      exact hheld
    obtain ⟨layout, he, ha⟩ := hl.accounts
    obtain ⟨h, layout₁, live₁, he₁, heffect⟩ := he.release (Client.mem_live hheld)
    have ha₁ := heffect.accounts he ha
    obtain ⟨h', hrun', hspace', hlost⟩ := TinyRiscv.release_spec hl.lost (Client.mem_live hheld')
    cases heffect with
    | released _ hrun hspace =>
      refine ⟨{ c with heap := h, held := c.held.eraseP fun block => block.1 == i },
        { c' with heap := h', held := c'.held.eraseP fun block => block.1 == i },
        by simp [Client.step, hi, hrun], by simp [Client.step, hi', hrun'], ?_⟩
      constructor
      case held => simp [hl.held]
      case length => exact hl.length
      case bound =>
        intro block hblock
        exact hl.bound block (List.mem_of_mem_eraseP hblock)
      case accounts =>
        rw [Client.live_released c h hl.nodup.1 hi]
        exact ⟨_, he₁, ha₁⟩
      case lost =>
        rw [Client.live_released c' h' hl.nodup.2 hi']
        exact hlost
      case same =>
        intro hnodup
        obtain ⟨haddresses, hsame⟩ := hl.same hnodup
        exact ⟨haddresses, by rw [hspace, hspace', hsame]⟩
      case more =>
        intro hnot
        rw [hspace, hspace']
        exact hl.more hnot
  · left
    refine ⟨if_neg hi, if_neg ?_⟩
    rw [hl.held]
    exact hi

theorem Lockstep.write (hl : Lockstep heapStart done c c') (i : Nat) (offset v : Int) :
    (c.step Heap.allocate (.write i offset v) = none ∧
      c'.step TinyRiscv.allocate (.write i offset v) = none) ∨
    ∃ d d', c.step Heap.allocate (.write i offset v) = some d ∧
      c'.step TinyRiscv.allocate (.write i offset v) = some d' ∧ Lockstep heapStart done d d' := by
  by_cases hin : ∃ block ∈ c.held,
      block.1 = i ∧ 0 ≤ offset ∧ offset < block.2.toInt ∧ offset % 4 = 0
  · right
    have hin' := hin
    rw [← hl.held] at hin'
    refine ⟨_, _, if_pos hin, if_pos hin', ?_⟩
    obtain ⟨⟨i, size⟩, hheld, rfl, hle, hlt, -⟩ := hin
    have hlt' : offset < size.toInt := hlt
    have hheld' : (i, size) ∈ c'.held := by
      rw [hl.held]
      exact hheld
    obtain ⟨layout, he, ha⟩ := hl.accounts
    have howned : Owned heapStart c.live (c.address i + offset) :=
      .inr ⟨c.address i, size, Client.mem_live hheld, by omega, by omega⟩
    have howned' : Owned heapStart c'.live (c'.address i + offset) :=
      .inr ⟨c'.address i, size, Client.mem_live hheld', by omega, by omega⟩
    exact ⟨hl.held, hl.length, hl.bound,
      ⟨layout, ⟨he.sound.write (he.sound.owned howned).2 v, he.cls⟩, ha⟩,
      TinyRiscv.write_spec hl.lost howned' v, hl.same, hl.more⟩
  · left
    refine ⟨if_neg hin, if_neg ?_⟩
    rw [hl.held]
    exact hin

theorem Lockstep.step (hl : Lockstep heapStart done c c') (op : ClientOp) :
    (c.step Heap.allocate op = none ∧ c'.step TinyRiscv.allocate op = none) ∨
    ∃ d d', c.step Heap.allocate op = some d ∧ c'.step TinyRiscv.allocate op = some d' ∧
      Lockstep heapStart (op.class?.toList ++ done) d d' := by
  cases op with
  | allocate size => exact hl.allocate size
  | release i => exact hl.release i
  | write i offset v => exact hl.write i offset v

end Step

/-- What a client has made of the heap after some operations. -/
def Client.run (allocate : Heap → Word → Option (Int × Heap)) (h : Heap) (heapStart : Int)
    (ops : List ClientOp) : Option Client :=
  ops.foldlM (Client.step allocate) (Client.start h heapStart)

theorem Lockstep.run {heapStart : Int} (ops : List ClientOp) :
    ∀ {done : List Int} {c c' : Client}, Lockstep heapStart done c c' →
      (ops.foldlM (Client.step Heap.allocate) c = none ∧
        ops.foldlM (Client.step TinyRiscv.allocate) c' = none) ∨
      ∃ d d', ops.foldlM (Client.step Heap.allocate) c = some d ∧
        ops.foldlM (Client.step TinyRiscv.allocate) c' = some d' ∧
        Lockstep heapStart ((classes ops).reverse ++ done) d d' := by
  induction ops with
  | nil =>
      intro done c c' hl
      exact .inr ⟨c, c', rfl, rfl, hl⟩
  | cons op ops ih =>
      intro done c c' hl
      have hclasses : (classes (op :: ops)).reverse ++ done =
          (classes ops).reverse ++ (op.class?.toList ++ done) := by
        rw [classes, List.reverse_append, List.append_assoc]
        cases op.class? <;> rfl
      rw [hclasses, List.foldlM_cons, List.foldlM_cons]
      rcases hl.step op with ⟨hnone, hnone'⟩ | ⟨d, d', hstep, hstep', hl'⟩
      · left
        rw [hnone, hnone']
        exact ⟨rfl, rfl⟩
      · rw [hstep, hstep']
        exact ih hl'

/-- Operations that one copy can make the other can make too. The copies return the same
addresses and have taken as much memory exactly if there are no two blocks of one class among
those allocated. -/
theorem copies_agree_iff (h : Heap) (heapStart : Int) (hpos : 0 < heapStart)
    (ops : List ClientOp) :
    (Client.run Heap.allocate h heapStart ops = none ∧
      Client.run TinyRiscv.allocate h heapStart ops = none) ∨
    ∃ c c', Client.run Heap.allocate h heapStart ops = some c ∧
      Client.run TinyRiscv.allocate h heapStart ops = some c' ∧
      (c'.addresses = c.addresses ∧ c'.heap.freeSpace = c.heap.freeSpace ↔
        (classes ops).Nodup) := by
  rcases (start_lockstep h hpos).run ops with hnone | ⟨c, c', hrun, hrun', hl⟩
  · exact .inl hnone
  · refine .inr ⟨c, c', hrun, hrun', ?_⟩
    rw [List.append_nil] at hl
    rw [← List.nodup_reverse]
    constructor
    · rintro ⟨-, hspace⟩
      by_contra hnot
      have hmore := hl.more hnot
      omega
    · exact hl.same

theorem copies_agree_iff_two_classes : ∃ c c',
    Client.run Heap.allocate ⟨fun _ => 0, 0, false, fun _ => 0⟩ 33554432
        [.allocate 4, .allocate 12, .release 0] = some c ∧
      Client.run TinyRiscv.allocate ⟨fun _ => 0, 0, false, fun _ => 0⟩ 33554432
        [.allocate 4, .allocate 12, .release 0] = some c' ∧
      c'.addresses = c.addresses ∧ c'.heap.freeSpace = c.heap.freeSpace := by
  rcases copies_agree_iff ⟨fun _ => 0, 0, false, fun _ => 0⟩ 33554432 (by decide)
    [.allocate 4, .allocate 12, .release 0] with ⟨hnone, -⟩ | ⟨c, c', hrun, hrun', hiff⟩
  · have hsome : (Client.run Heap.allocate ⟨fun _ => 0, 0, false, fun _ => 0⟩ 33554432
        [.allocate 4, .allocate 12, .release 0]).isSome = true := rfl
    rw [hnone] at hsome
    cases hsome
  · exact ⟨c, c', hrun, hrun', hiff.mpr (by decide)⟩

/-- The second block of a class: A6 takes it from the list, A5 from a new chunk. -/
theorem copies_differ : ∃ c c',
    Client.run Heap.allocate ⟨fun _ => 0, 0, false, fun _ => 0⟩ 33554432
        [.allocate 4, .allocate 4] = some c ∧
      Client.run TinyRiscv.allocate ⟨fun _ => 0, 0, false, fun _ => 0⟩ 33554432
        [.allocate 4, .allocate 4] = some c' ∧
      c.addresses = [33554436, 33554444] ∧ c.heap.freeSpace = 33554528 ∧
      c'.addresses = [33554436, 33554532] ∧ c'.heap.freeSpace = 33554624 := by
  refine ⟨_, _, rfl, rfl, rfl, rfl, rfl, rfl⟩

end Heap

end CompSys
