import CompSys.HeapClient

/-!
# The small-block allocator reuses memory

Every block that was carved for a class is on the free list of the class or live, so that a
chunk is carved only when all blocks of the class are live. What a call does to the division
of the heap is said once, with the address that `allocate` returns.
-/
namespace CompSys.Heap

open IntrusiveList

/-- The class that a call allocates from. -/
def ClientCall.class? : ClientCall → Option Int
  | .allocate size => if Served size then some (sizeClass size) else none
  | _ => none

theorem Served.max {size : Word} (h : Served size) : size.toInt ≤ 2 ^ 31 - 12 := by
  have hlt := h.2
  have hsizes : NUM_SIZES = 512 := rfl
  unfold sizeClass at hlt
  omega

theorem Served.sizeClass_pos {size : Word} (h : Served size) : 1 ≤ sizeClass size := by
  have hone := h.1
  unfold sizeClass
  omega

/-! ## What a call does to the division -/

theorem Layout.take_free_of_ne (layout : Layout) {num n : Int} (hn : n ≠ num) :
    (layout.take num).free n = layout.free n := Function.update_of_ne hn _ _

theorem Layout.put_free_of_ne (layout : Layout) {num n : Int} (b : Int) (hn : n ≠ num) :
    (layout.put num b).free n = layout.free n := Function.update_of_ne hn _ _

theorem Layout.put_free (layout : Layout) (num b : Int) :
    (layout.put num b).free num = b :: layout.free num := Function.update_self _ _ _

theorem Layout.take_free (layout : Layout) (num : Int) :
    (layout.take num).free num = (layout.free num).tail := Function.update_self _ _ _

/-- A sound heap in which each live block has exactly the class of its request. -/
structure Exact (heapStart : Int) (layout : Layout) (h : Heap) (live : Live) : Prop where
  sound : Sound heapStart layout h live
  cls : ∀ p request, (p, request) ∈ live → layout.cls (p - 4) = some (sizeClass request)

inductive Effect (layout : Layout) (h : Heap) (live : Live) :
    ClientCall → Layout → Heap → Live → Prop where
  | refused {size : Word} {h' : Heap} (hserved : ¬Served size)
      (hrun : h.allocate size = some (NULL, h')) (hspace : h'.freeSpace = h.freeSpace) :
      Effect layout h live (.allocate size) layout h' live
  | reused {size : Word} {h' : Heap} {b : Int} {rest : List Int} (hserved : Served size)
      (hfree : layout.free (sizeClass size) = b :: rest)
      (hrun : h.allocate size = some (b + 4, h')) (hnull : b + 4 ≠ NULL)
      (hspace : h'.freeSpace = h.freeSpace) :
      Effect layout h live (.allocate size) (layout.take (sizeClass size)) h' ((b + 4, size) :: live)
  | carved {size : Word} {h' : Heap} {layout₁ : Layout} (hserved : Served size)
      (hfree : layout.free (sizeClass size) = [])
      (hextends : layout.Extends layout₁ (sizeClass size) (blocksPerChunk (8 * sizeClass size)))
      (hrun : h.allocate size = some (h.freeSpace + 4, h')) (hnull : h.freeSpace + 4 ≠ NULL)
      (hspace : h'.freeSpace = h.freeSpace +
        blocksPerChunk (8 * sizeClass size) * (8 * sizeClass size)) :
      Effect layout h live (.allocate size) (layout₁.take (sizeClass size)) h'
        ((h.freeSpace + 4, size) :: live)
  | released {p : Int} {request : Word} {h' : Heap} (hlive : (p, request) ∈ live)
      (hrun : h.release p = some h') (hspace : h'.freeSpace = h.freeSpace) :
      Effect layout h live (.release p) (layout.put (sizeClass request) (p - 4)) h'
        (live.eraseP fun block => block.1 == p)
  | written {a v : Int} : Effect layout h live (.write a v) layout (h.store a v) live

theorem Exact.allocate {heapStart : Int} {layout : Layout} {h : Heap} {live : Live}
    (he : Exact heapStart layout h live) (size : Word) (hmax : size.toInt ≤ 2 ^ 31 - 12) :
    ∃ h' layout' live', Exact heapStart layout' h' live' ∧
      Effect layout h live (.allocate size) layout' h' live' := by
  rcases allocate_cases he.sound size hmax with ⟨hnot, hrun⟩ | ⟨hserved, h₁, layout₁, hrun, hs₁,
    hinit₁, hhead₁, -, hfrom⟩
  · exact ⟨h.clearHeaders, layout, live, ⟨he.sound.clearHeaders, he.cls⟩,
      .refused hnot hrun (clearHeaders_freeSpace h)⟩
  · have hsize : (blockSize size).toInt = 8 * sizeClass size :=
      blockSize_toInt size hserved.1 hmax
    have hfits : size.toInt + 4 ≤ 8 * sizeClass size := by
      unfold sizeClass
      omega
    obtain ⟨hcls, hunlink⟩ := hs₁.unlink hinit₁ hsize hserved.1 hfits hhead₁
    have hcls₁ : ∀ p request, (p, request) ∈ live →
        layout₁.cls (p - 4) = some (sizeClass request) := by
      intro p request hp
      rcases hfrom with ⟨-, -, rfl⟩ | ⟨-, -, -, hextends⟩
      · exact he.cls p request hp
      · exact hextends.cls _ _ (he.cls p request hp)
    have hblock := unlink_block hinit₁ hsize
    have hnull : h₁.header (sizeClass size) + 4 ≠ NULL := by
      have hcarved := hs₁.carved _ _ hcls
      have hstart := hs₁.start_pos
      rw [NULL]
      omega
    have hrun' : h.allocate size =
        some (h₁.header (sizeClass size) + 4, (h₁.unlink (blockSize size)).2) := by
      rw [hrun, ← hblock]
    rw [hblock] at hcls hunlink
    refine ⟨(h₁.unlink (blockSize size)).2, layout₁.take (sizeClass size),
      (h₁.header (sizeClass size) + 4, size) :: live, ⟨hunlink, ?_⟩, ?_⟩
    · intro p request hp
      rcases List.mem_cons.mp hp with heq | hold
      · cases heq
        exact hcls
      · exact hcls₁ p request hold
    · rcases hfrom with ⟨hhead, rfl, rfl⟩ | ⟨hhead, hnew, hspace, hextends⟩
      · obtain ⟨rest, hfree, -⟩ := (he.sound.chain (sizeClass size)).exists_cons hhead
        exact .reused hserved hfree hrun' hnull rfl
      · have hchain := he.sound.chain (sizeClass size)
        rw [hhead] at hchain
        rw [hnew] at hrun' hnull ⊢
        exact .carved hserved hchain.eq_nil hextends hrun' hnull hspace

theorem Exact.release {heapStart : Int} {layout : Layout} {h : Heap} {live : Live}
    (he : Exact heapStart layout h live) {p : Int} {request : Word} (hp : (p, request) ∈ live) :
    ∃ h' layout' live', Exact heapStart layout' h' live' ∧
      Effect layout h live (.release p) layout' h' live' := by
  obtain ⟨num, hcls, hrun, hs'⟩ := he.sound.release hp
  have hnum : num = sizeClass request := by
    have hcls' := he.cls p request hp
    rw [hcls] at hcls'
    exact Option.some.inj hcls'
  subst hnum
  refine ⟨_, _, _, ⟨hs', ?_⟩, .released hp hrun rfl⟩
  intro q request' hq
  obtain ⟨hold, hne⟩ := (mem_eraseP_key he.sound.live_nodup).mp hq
  have hne' : q - 4 ≠ p - 4 := by
    have : q ≠ p := hne
    omega
  simpa [Layout.put, Function.update_of_ne hne'] using he.cls q request' hold

/-- Every call of a client has its effect. -/
theorem Exact.step {heapStart : Int} {layout : Layout} {s s' : Store} {call : ClientCall}
    (he : Exact heapStart layout s.heap (Store.live s.events)) (h : clientStep s call = some s') :
    ∃ layout', Exact heapStart layout' s'.heap (Store.live s'.events) ∧
      Effect layout s.heap (Store.live s.events) call layout' s'.heap (Store.live s'.events) := by
  cases call with
  | allocate size =>
      rw [clientStep] at h
      split at h
      case isTrue hmax =>
        obtain ⟨h', layout', live', hexact, heffect⟩ := he.allocate size hmax
        refine ⟨layout', ?_⟩
        cases heffect with
        | refused hserved hrun hspace =>
          simp only [Store.allocate, hrun, Option.bind_eq_bind, Option.bind_some, if_true,
            Option.pure_def, Option.map_some, Option.some.injEq] at h
          cases h
          exact ⟨hexact, .refused hserved hrun hspace⟩
        | reused hserved hfree hrun hnull hspace =>
          simp only [Store.allocate, hrun, Option.bind_eq_bind, Option.bind_some, if_neg hnull,
            Option.pure_def, Option.map_some, Option.some.injEq] at h
          cases h
          exact ⟨hexact, .reused hserved hfree hrun hnull hspace⟩
        | carved hserved hfree hextends hrun hnull hspace =>
          simp only [Store.allocate, hrun, Option.bind_eq_bind, Option.bind_some, if_neg hnull,
            Option.pure_def, Option.map_some, Option.some.injEq] at h
          cases h
          exact ⟨hexact, .carved hserved hfree hextends hrun hnull hspace⟩
      case isFalse => cases h
  | release p =>
      rw [clientStep] at h
      split at h
      case isTrue hp =>
        obtain ⟨⟨p, request⟩, hmem, rfl⟩ := List.mem_map.mp hp
        obtain ⟨h', layout', live', hexact, heffect⟩ := he.release hmem
        refine ⟨layout', ?_⟩
        cases heffect with
        | released hlive hrun hspace =>
          simp only [Store.release, hrun, Option.bind_eq_bind, Option.bind_some, Option.pure_def,
            Option.some.injEq] at h
          cases h
          exact ⟨hexact, .released hlive hrun hspace⟩
      case isFalse => cases h
  | write a v =>
      rw [clientStep] at h
      split at h
      case isTrue hin =>
        cases h
        obtain ⟨⟨p, size⟩, hp, hle, hlt, -⟩ := hin
        have howned := he.sound.owned (Or.inr ⟨p, size, hp, hle, hlt⟩)
        exact ⟨layout, ⟨he.sound.write howned.2 v, he.cls⟩, .written⟩
      case isFalse => cases h

theorem initHeap_exact (h : Heap) {heapStart : Int} (hpos : 0 < heapStart) :
    ∃ layout, Exact heapStart layout (h.initHeap heapStart) [] ∧
      ∀ num, layout.free num = [] := by
  obtain ⟨layout, hs⟩ := initHeap_wellFormed h hpos
  refine ⟨layout, ⟨hs, fun p request hp => absurd hp List.not_mem_nil⟩, ?_⟩
  intro num
  exact (hs.chain num).eq_nil

/-- A larger size overflows to a negative index into `small_block_headers`. -/
theorem numSize_neg {size : Word} (hbig : 2 ^ 31 - 12 < size.toInt) :
    numSize (blockSize size) < 0 := by
  have hnegative : ∀ i : Fin 11, numSize (blockSize (BitVec.ofNat 32 (2 ^ 31 - 11 + i))) < 0 := by
    decide
  have hlt := BitVec.toInt_lt (x := size)
  have hsize : size.toNat < 2 ^ 31 := by
    have hcond := BitVec.toInt_eq_toNat_cond size
    have := size.isLt
    split at hcond <;> omega
  have htoInt := toInt_of_small hsize
  have hindex := hnegative ⟨size.toNat - (2 ^ 31 - 11), by omega⟩
  rw [show 2 ^ 31 - 11 + (size.toNat - (2 ^ 31 - 11)) = size.toNat by omega,
    BitVec.ofNat_toNat, BitVec.setWidth_eq] at hindex
  exact hindex

theorem allocate_huge (h : Heap) {size : Word} (hbig : 2 ^ 31 - 12 < size.toInt) :
    h.allocate size = none := by
  have hneg := numSize_neg hbig
  have hsizes : NUM_SIZES = 512 := rfl
  unfold Heap.allocate
  rw [if_neg (by omega), if_neg (by omega), if_pos hneg]

/-- The bound on sizes in `clientStep` excludes no call that returns. -/
theorem clientStep_allocate (s : Store) (size : Word) :
    clientStep s (.allocate size) = (s.allocate size).map Prod.snd := by
  rw [clientStep]
  split
  case isTrue => rfl
  case isFalse hbig =>
    rw [Store.allocate, allocate_huge s.heap (by omega)]
    rfl

/-! ## Accounts -/

/-- How many live blocks a class has. -/
def liveCount (num : Int) (live : Live) : Nat :=
  live.countP fun block => sizeClass block.2 == num

theorem countP_eraseP_key {α β : Type} [DecidableEq α] (f : α × β → Bool) {table : List (α × β)}
    {key : α} {value : β} (hnodup : (table.map Prod.fst).Nodup) (hmem : (key, value) ∈ table) :
    table.countP f = (table.eraseP fun x => x.1 == key).countP f +
      if f (key, value) then 1 else 0 := by
  induction table with
  | nil => cases hmem
  | cons x rest ih =>
      rw [List.map_cons, List.nodup_cons] at hnodup
      by_cases hx : x.1 = key
      · have heq : (key, value) = x := by
          rcases List.mem_cons.mp hmem with heq | hin
          · exact heq
          · exact absurd (hx ▸ List.mem_map_of_mem hin) hnodup.1
        rw [List.eraseP_cons_of_pos (by simpa using hx), List.countP_cons, heq]
      · have hin : (key, value) ∈ rest := by
          rcases List.mem_cons.mp hmem with rfl | hin
          · exact absurd rfl hx
          · exact hin
        rw [List.eraseP_cons_of_neg (by simpa using hx), List.countP_cons, List.countP_cons,
          ih hnodup.2 hin]
        omega

theorem liveCount_cons (num p : Int) (size : Word) (live : Live) :
    liveCount num ((p, size) :: live) =
      liveCount num live + if sizeClass size = num then 1 else 0 := by
  simp [liveCount, List.countP_cons]

theorem liveCount_eraseP {num p : Int} {request : Word} {live : Live}
    (hnodup : (live.map Prod.fst).Nodup) (hlive : (p, request) ∈ live) :
    liveCount num live = liveCount num (live.eraseP fun block => block.1 == p) +
      if sizeClass request = num then 1 else 0 := by
  rw [liveCount, countP_eraseP_key _ hnodup hlive, liveCount]
  simp

/-- Of the `k` chunks carved for a class every block is free or live. A further one is carved
only when all are live. -/
theorem Effect.count {heapStart num : Int} {layout layout' : Layout} {h h' : Heap}
    {live live' : Live} {call : ClientCall} {k : Nat}
    (heffect : Effect layout h live call layout' h' live') (he : Exact heapStart layout h live)
    (hcount : (layout.free num).length + liveCount num live = k * blocksPerChunk (8 * num)) :
    (call.class? = some num ∧ layout.free num = [] ∧
      h'.freeSpace = h.freeSpace + blocksPerChunk (8 * num) * (8 * num) ∧
      liveCount num live' = k * blocksPerChunk (8 * num) + 1 ∧
      (layout'.free num).length + liveCount num live' = (k + 1) * blocksPerChunk (8 * num)) ∨
    ((call.class? = some num → h'.freeSpace = h.freeSpace) ∧
      (layout'.free num).length + liveCount num live' = k * blocksPerChunk (8 * num)) := by
  cases heffect with
  | refused hserved hrun hspace => exact .inr ⟨fun _ => hspace, hcount⟩
  | @reused size _ b rest hserved hfree hrun hnull hspace =>
      right
      refine ⟨fun _ => hspace, ?_⟩
      rw [liveCount_cons]
      by_cases hnum : sizeClass size = num
      · subst hnum
        rw [hfree, List.length_cons] at hcount
        rw [Layout.take_free, hfree, List.tail_cons, if_pos rfl]
        omega
      · rw [if_neg hnum, Layout.take_free_of_ne _ (Ne.symm hnum)]
        exact hcount
  | @carved size _ layout₁ hserved hfree hextends hrun hnull hspace =>
      by_cases hnum : sizeClass size = num
      · subst hnum
        left
        have hlength := hextends.count
        have hten := ten_le_blocksPerChunk hserved.sizeClass_pos
        rw [hfree, List.length_nil] at hlength hcount
        refine ⟨if_pos hserved, hfree, hspace, ?_, ?_⟩
        · rw [liveCount_cons, if_pos rfl]
          omega
        · rw [liveCount_cons, if_pos rfl, Layout.take_free, List.length_tail, Nat.succ_mul]
          omega
      · right
        refine ⟨?_, ?_⟩
        · intro hclass
          simp only [ClientCall.class?, if_pos hserved, Option.some.injEq] at hclass
          exact absurd hclass hnum
        · rw [liveCount_cons, if_neg hnum, Layout.take_free_of_ne _ (Ne.symm hnum),
            hextends.free num (Ne.symm hnum)]
          exact hcount
  | @released p request _ hlive hrun hspace =>
      right
      refine ⟨fun _ => hspace, ?_⟩
      rw [liveCount_eraseP he.sound.live_nodup hlive] at hcount
      by_cases hnum : sizeClass request = num
      · subst hnum
        rw [if_pos rfl] at hcount
        rw [Layout.put_free, List.length_cons]
        omega
      · rw [if_neg hnum] at hcount
        rw [Layout.put_free_of_ne _ _ (Ne.symm hnum)]
        exact hcount
  | written => exact .inr ⟨fun _ => rfl, hcount⟩

theorem Effect.liveCount_eq {num : Int} {layout layout' : Layout} {h h' : Heap}
    {live live' : Live} {call : ClientCall}
    (heffect : Effect layout h live call layout' h' live') (hclass : call.class? = some num) :
    liveCount num live' = liveCount num live + 1 := by
  have hnum : ∀ {size : Word}, call = .allocate size → Served size → sizeClass size = num := by
    rintro size rfl hserved
    exact Option.some.inj ((if_pos hserved).symm.trans hclass)
  cases heffect with
  | refused hnot => exact absurd hclass (by simp [ClientCall.class?, hnot])
  | reused hserved => rw [liveCount_cons, if_pos (hnum rfl hserved)]
  | carved hserved => rw [liveCount_cons, if_pos (hnum rfl hserved)]
  | released => cases hclass
  | written => cases hclass

theorem Effect.liveCount_le {num : Int} {layout layout' : Layout} {h h' : Heap}
    {live live' : Live} {call : ClientCall}
    (heffect : Effect layout h live call layout' h' live') (hclass : call.class? ≠ some num) :
    liveCount num live' ≤ liveCount num live := by
  have hnum : ∀ {size : Word}, call = .allocate size → Served size → sizeClass size ≠ num := by
    rintro size rfl hserved rfl
    exact hclass (if_pos hserved)
  cases heffect with
  | refused => exact le_rfl
  | reused hserved => rw [liveCount_cons, if_neg (hnum rfl hserved), Nat.add_zero]
  | carved hserved => rw [liveCount_cons, if_neg (hnum rfl hserved), Nat.add_zero]
  | released => exact List.eraseP_sublist.countP_le
  | written => exact le_rfl

/-- The first free block of a class was released by one of the calls. -/
def Recycled (num : Int) (layout : Layout) (calls : List ClientCall) : Prop :=
  ∃ q rest, .release q ∈ calls ∧ layout.free num = (q - 4) :: rest

theorem Effect.recycled {num : Int} {layout layout' : Layout} {h h' : Heap} {live live' : Live}
    {call : ClientCall} (heffect : Effect layout h live call layout' h' live') (hclass : call.class? ≠ some num)
    {calls : List ClientCall} (hrecycled : Recycled num layout calls) :
    Recycled num layout' (calls ++ [call]) := by
  obtain ⟨q, rest, hq, hfree⟩ := hrecycled
  have hq' : ClientCall.release q ∈ calls ++ [call] := List.mem_append_left _ hq
  have hother : ∀ {size : Word}, call = .allocate size → Served size → num ≠ sizeClass size := by
    rintro size rfl hserved rfl
    exact hclass (if_pos hserved)
  cases heffect with
  | refused => exact ⟨q, rest, hq', hfree⟩
  | reused hserved =>
      refine ⟨q, rest, hq', ?_⟩
      rw [Layout.take_free_of_ne _ (hother rfl hserved), hfree]
  | carved hserved _ hextends =>
      refine ⟨q, rest, hq', ?_⟩
      rw [Layout.take_free_of_ne _ (hother rfl hserved), hextends.free _ (hother rfl hserved), hfree]
  | @released p request _ hlive =>
      by_cases hnum : num = sizeClass request
      · subst hnum
        exact ⟨p, _, by simp, layout.put_free (sizeClass request) (p - 4)⟩
      · refine ⟨q, rest, hq', ?_⟩
        rw [Layout.put_free_of_ne _ _ hnum, hfree]
  | written => exact ⟨q, rest, hq', hfree⟩

end CompSys.Heap
