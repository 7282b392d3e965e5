import CompSys.Heap
import CompSys.IntrusiveList
import CompSys.Transition
import Mathlib.Tactic.Ring
import Mathlib.Tactic.Positivity

/-!
# Safety of the small-block allocator

The carved region is divided into blocks of known sizes; every block is live
or on the free list of its size, and never both. The division is a ghost of
the proof: `allocate`, `release` and the writes of clients preserve it.
-/
namespace CompSys.Heap

open IntrusiveList

/-- The division of the carved region: the size class of the block that starts at an
address, and the blocks on each free list. -/
structure Layout where
  cls : Int → Option Int
  free : Int → List Int

/-- The head of a free list as the next `allocate` finds it. -/
def header (h : Heap) (num : Int) : Int :=
  if h.initialized then h.smallBlockHeaders num else NULL

/-- Live blocks: the pointers that `allocate` returned and the sizes it was asked for. -/
abbrev Live := List (Int × Word)

/-- A live block in front of which the size of its class is stored. -/
structure Holds (layout : Layout) (h : Heap) (p : Int) (size : Word) (num : Int) : Prop where
  cls : layout.cls (p - 4) = some num
  field : h.mem (p - 4) = 8 * num
  size_pos : 1 ≤ size.toInt
  fits : size.toInt + 4 ≤ 8 * num
  not_free : p - 4 ∉ layout.free num

structure Sound (heapStart : Int) (layout : Layout) (h : Heap) (live : Live) : Prop where
  start_pos : 0 < heapStart
  start_le : heapStart ≤ h.freeSpace
  carved : ∀ b num, layout.cls b = some num →
    heapStart ≤ b ∧ b + 8 * num ≤ h.freeSpace ∧ 1 ≤ num ∧ num < NUM_SIZES
  apart : ∀ b num b' num', layout.cls b = some num → layout.cls b' = some num' → b < b' →
    b + 8 * num ≤ b'
  chain : ∀ num, Chain NULL h.mem (h.header num) (layout.free num)
  free_cls : ∀ num, ∀ b ∈ layout.free num, layout.cls b = some num
  free_nodup : ∀ num, (layout.free num).Nodup
  holds : ∀ p size, (p, size) ∈ live → ∃ num, Holds layout h p size num
  live_nodup : (live.map Prod.fst).Nodup
  covered : ∀ b num, layout.cls b = some num → b ∈ layout.free num ∨ b + 4 ∈ live.map Prod.fst
  uninitialized : h.initialized = false → live = []

/-! ## Sizes -/

theorem toInt_of_small {x : Word} (h : x.toNat < 2 ^ 31) : x.toInt = x.toNat := by
  rw [BitVec.toInt_eq_toNat_cond]
  omega

theorem offset_toNat (x : Word) : (x &&& (BLOCK_SIZE_STEP - 1)).toNat = x.toNat % 8 := by
  rw [BitVec.toNat_and]
  exact Nat.and_two_pow_sub_one_eq_mod x.toNat 3

/-- The block of a request is the least multiple of 8 that holds it and the size field. -/
theorem blockSize_toInt (size : Word) (hpos : 1 ≤ size.toInt) (hmax : size.toInt ≤ 2 ^ 31 - 12) :
    (blockSize size).toInt = 8 * ((size.toInt + 11) / 8) := by
  have hlt := size.isLt
  have hsize : size.toInt = size.toNat := by
    have hcond := BitVec.toInt_eq_toNat_cond size
    split at hcond <;> omega
  have hsum : (size + 4).toNat = size.toNat + 4 := by
    rw [BitVec.toNat_add, show (4 : Word).toNat = 4 from rfl]
    omega
  have hoffset := offset_toNat (size + 4)
  have hclear := congrArg BitVec.toNat (BitField.clear_add (size + 4) (BLOCK_SIZE_STEP - 1))
  rw [BitVec.toNat_add, hoffset, hsum] at hclear
  have hclearLt := ((size + 4) &&& ~~~((size + 4) &&& (BLOCK_SIZE_STEP - 1))).isLt
  have hblock : (blockSize size).toNat = 8 * ((size.toNat + 11) / 8) := by
    unfold blockSize
    by_cases hzero : (size + 4) &&& (BLOCK_SIZE_STEP - 1) = 0
    · have hmod : (size.toNat + 4) % 8 = 0 := by
        rw [← hsum, ← hoffset, hzero]
        rfl
      simp only [hzero, ne_eq, not_true_eq_false, ↓reduceIte]
      omega
    · have hmod : (size.toNat + 4) % 8 ≠ 0 := by
        rw [← hsum, ← hoffset]
        exact fun h => hzero (BitVec.eq_of_toNat_eq h)
      simp only [ne_eq, hzero, not_false_eq_true, ↓reduceIte]
      rw [BitVec.toNat_add, show BLOCK_SIZE_STEP.toNat = 8 from rfl]
      omega
  rw [toInt_of_small (by omega)]
  omega

theorem numSize_eq {size : Word} {num : Int} (h : size.toInt = 8 * num) : numSize size = num := by
  have hstep : BLOCK_SIZE_STEP.toInt = 8 := by decide
  rw [numSize, hstep, h]
  exact Int.mul_tdiv_cancel_left num (by decide)

/-- A chunk of blocks of `size` bytes has ten blocks, or as many as fill 100 bytes. -/
def blocksPerChunk (size : Int) : Nat := if 10 * size < 100 then (100 / size).toNat else 10

/-- With the alignment to 8, only the smallest blocks come in chunks of twelve. -/
theorem ten_le_blocksPerChunk {num : Int} (hpos : 1 ≤ num) : 10 ≤ blocksPerChunk (8 * num) := by
  unfold blocksPerChunk
  split
  · have hone : num = 1 := by omega
    subst hone
    decide
  · exact Nat.le_refl 10

theorem chunkSize_toInt {size : Word} {num : Int} (h : size.toInt = 8 * num) (hpos : 1 ≤ num)
    (hlt : num < NUM_SIZES) :
    (chunkSize size).toInt = blocksPerChunk (8 * num) * (8 * num) ∧
      blocksPerChunk (8 * num) ≤ (chunkSize size).toNat := by
  have hsizes : NUM_SIZES = 512 := rfl
  have hsize : (size.toNat : Int) = 8 * num := by
    have hcond := BitVec.toInt_eq_toNat_cond size
    have := size.isLt
    split at hcond <;> omega
  by_cases hone : num = 1
  · have height : size = 8 := BitVec.eq_of_toInt_eq (by rw [h, hone]; rfl)
    subst height hone
    decide
  · have hmul : (size * 10).toNat = size.toNat * 10 := by
      rw [BitVec.toNat_mul, show (10 : Word).toNat = 10 from rfl]
      omega
    have htoInt : (size * 10).toInt = (size * 10).toNat := toInt_of_small (by omega)
    have hchunk : chunkSize size = size * 10 := by
      unfold chunkSize
      rw [if_neg]
      rw [htoInt, hmul, show MIN_ALLOCATION = 100 from rfl]
      omega
    have hten : blocksPerChunk (8 * num) = 10 := if_neg (by omega)
    rw [hchunk, htoInt, hmul, hten]
    omega

/-! ## Putting a block on its list -/

/-- The division after a block was put in front of its free list. -/
def Layout.put (layout : Layout) (num b : Int) : Layout :=
  { cls := Function.update layout.cls b (some num)
    free := Function.update layout.free num (b :: layout.free num) }

theorem Layout.put_cls {layout : Layout} {num b b' num' : Int}
    (h : (layout.put num b).cls b' = some num') :
    b' = b ∧ num' = num ∨ b' ≠ b ∧ layout.cls b' = some num' := by
  by_cases hb : b' = b
  · subst hb
    simp only [put, Function.update_self, Option.some.injEq] at h
    exact Or.inl ⟨rfl, h.symm⟩
  · simp only [put, Function.update_of_ne hb] at h
    exact Or.inr ⟨hb, h⟩

theorem Layout.mem_put_free {layout : Layout} {num b n x : Int} :
    x ∈ (layout.put num b).free n ↔ n = num ∧ x = b ∨ x ∈ layout.free n := by
  by_cases hn : n = num
  · subst hn
    simp [put]
  · simp [put, hn]

theorem link_header {h : Heap} (hinit : h.initialized = true) (num b n : Int) :
    (h.link num b).header n = if n = num then b else h.header n := by
  by_cases hn : n = num
  · subst hn
    simp [header, link, store, setHeader, hinit]
  · simp [header, link, store, setHeader, hinit, hn]

theorem link_mem {h : Heap} {num b a : Int} (ha : a ≠ b) : (h.link num b).mem a = h.mem a := by
  simp [link, store, setHeader, Function.update_of_ne ha]

/-- Both a new block and a released one become free this way: the block overlaps no other
and the remaining live blocks lie elsewhere. -/
theorem Sound.link {heapStart : Int} {layout : Layout} {h : Heap} {live : Live}
    (hs : Sound heapStart layout h live) (hinit : h.initialized = true) (num b : Int) (live' : Live)
    (hstart : heapStart ≤ b) (hend : b + 8 * num ≤ h.freeSpace) (hpos : 1 ≤ num)
    (hlt : num < NUM_SIZES)
    (hapart : ∀ b' num', layout.cls b' = some num' → b' ≠ b →
      b + 8 * num ≤ b' ∨ b' + 8 * num' ≤ b)
    (hfresh : ∀ n, b ∉ layout.free n)
    (hlive : ∀ p size, (p, size) ∈ live' → (p, size) ∈ live ∧ p - 4 ≠ b)
    (hnodup : (live'.map Prod.fst).Nodup)
    (hrest : ∀ p ∈ live.map Prod.fst, p ∈ live'.map Prod.fst ∨ p = b + 4) :
    Sound heapStart (layout.put num b) (h.link num b) live' where
  start_pos := hs.start_pos
  start_le := hs.start_le
  carved := by
    intro b' num' hcls
    rcases Layout.put_cls hcls with ⟨rfl, rfl⟩ | ⟨_, hold⟩
    · exact ⟨hstart, hend, hpos, hlt⟩
    · exact hs.carved b' num' hold
  apart := by
    intro b₁ num₁ b₂ num₂ h₁ h₂ hltb
    rcases Layout.put_cls h₁ with ⟨rfl, rfl⟩ | ⟨hne₁, hold₁⟩ <;>
      rcases Layout.put_cls h₂ with ⟨rfl, rfl⟩ | ⟨hne₂, hold₂⟩
    · omega
    · have hpos₂ := (hs.carved b₂ num₂ hold₂).2.2.1
      have := hapart b₂ num₂ hold₂ hne₂
      omega
    · have := hapart b₁ num₁ hold₁ hne₁
      omega
    · exact hs.apart b₁ num₁ b₂ num₂ hold₁ hold₂ hltb
  chain := by
    have hb : b ≠ NULL := by
      have := hs.start_pos
      rw [NULL]
      omega
    intro n
    rw [link_header hinit]
    by_cases hn : n = num
    · subst hn
      have hhead : h.header n = h.smallBlockHeaders n := by simp [header, hinit]
      have hchain := (hs.chain n).push hb (hfresh n)
      rw [hhead] at hchain
      simpa [Layout.put, Heap.link, store, setHeader] using hchain
    · have hfree : (layout.put num b).free n = layout.free n := Function.update_of_ne hn _ _
      rw [if_neg hn, hfree]
      refine (hs.chain n).congr fun x hx => link_mem ?_
      intro hxb
      exact hfresh n (hxb ▸ hx)
  free_cls := by
    intro n x hx
    rcases Layout.mem_put_free.mp hx with ⟨rfl, rfl⟩ | hold
    · simp [Layout.put]
    · have hne : x ≠ b := fun hxb => hfresh n (hxb ▸ hold)
      simpa [Layout.put, Function.update_of_ne hne] using hs.free_cls n x hold
  free_nodup := by
    intro n
    by_cases hn : n = num
    · subst hn
      simpa [Layout.put] using ⟨hfresh n, hs.free_nodup n⟩
    · simpa [Layout.put, Function.update_of_ne hn] using hs.free_nodup n
  holds := by
    intro p size hp
    obtain ⟨hmem, hne⟩ := hlive p size hp
    obtain ⟨n, hn⟩ := hs.holds p size hmem
    refine ⟨n, ?_, ?_, hn.size_pos, hn.fits, ?_⟩
    · simpa [Layout.put, Function.update_of_ne hne] using hn.cls
    · rw [link_mem hne, hn.field]
    · intro hfree
      rcases Layout.mem_put_free.mp hfree with ⟨_, hb⟩ | hold
      · exact hne hb
      · exact hn.not_free hold
  live_nodup := hnodup
  covered := by
    intro b' num' hcls
    rcases Layout.put_cls hcls with ⟨rfl, rfl⟩ | ⟨hne, hold⟩
    · exact Or.inl (Layout.mem_put_free.mpr (Or.inl ⟨rfl, rfl⟩))
    · rcases hs.covered b' num' hold with hfree | hmem
      · exact Or.inl (Layout.mem_put_free.mpr (Or.inr hfree))
      · rcases hrest _ hmem with hin | heq
        · exact Or.inr hin
        · exact absurd (by omega) hne
  uninitialized := by
    intro hfalse
    have htrue : (h.link num b).initialized = true := hinit
    rw [htrue] at hfalse
    cases hfalse

/-! ## Taking a block off its list -/

/-- The division after the first block of a list was taken. -/
def Layout.take (layout : Layout) (num : Int) : Layout :=
  { layout with free := Function.update layout.free num (layout.free num).tail }

theorem Layout.mem_take_free {layout : Layout} {num b n x : Int} {rest : List Int}
    (hnum : layout.free num = b :: rest) (hnodup : (layout.free num).Nodup) :
    x ∈ (layout.take num).free n ↔ x ∈ layout.free n ∧ ¬(n = num ∧ x = b) := by
  by_cases hn : n = num
  · subst hn
    rw [hnum, List.nodup_cons] at hnodup
    simp only [take, Function.update_self, hnum, List.tail_cons, List.mem_cons, true_and]
    constructor
    · intro hx
      exact ⟨Or.inr hx, fun hxb => hnodup.1 (hxb ▸ hx)⟩
    · rintro ⟨hxb | hx, hne⟩
      · exact absurd hxb hne
      · exact hx
  · simp [take, hn]

theorem unlink_mem {h : Heap} {size : Word} {a : Int} (ha : a + 4 ≠ (h.unlink size).1) :
    (h.unlink size).2.mem a = h.mem a := by
  have hne : a ≠ h.smallBlockHeaders (numSize size) := by
    intro heq
    exact ha (by rw [unlink, heq])
  simp [unlink, setHeader, storeInt, store, Function.update_of_ne hne]

theorem unlink_block {h : Heap} (hinit : h.initialized = true) {size : Word} {num : Int}
    (hsize : size.toInt = 8 * num) : (h.unlink size).1 = h.header num + 4 := by
  simp [unlink, numSize_eq hsize, header, hinit]

theorem unlink_header {h : Heap} (hinit : h.initialized = true) {size : Word} {num : Int}
    (hsize : size.toInt = 8 * num) (n : Int) :
    (h.unlink size).2.header n = if n = num then h.mem (h.header num) else h.header n := by
  by_cases hn : n = num
  · subst hn
    simp [unlink, header, storeInt, store, setHeader, hinit, numSize_eq hsize]
  · simp [unlink, header, storeInt, store, setHeader, hinit, numSize_eq hsize, hn]

theorem unlink_field {h : Heap} (hinit : h.initialized = true) {size : Word} {num : Int}
    (hsize : size.toInt = 8 * num) : (h.unlink size).2.mem (h.header num) = 8 * num := by
  simp [unlink, header, storeInt, store, setHeader, hinit, numSize_eq hsize, hsize]

/-- A live block is no free one. -/
theorem Sound.live_ne {heapStart : Int} {layout : Layout} {h : Heap} {live : Live}
    (hs : Sound heapStart layout h live) {num b : Int} (hb : b ∈ layout.free num) {p : Int}
    {size : Word} (hp : (p, size) ∈ live) : p - 4 ≠ b := by
  intro heq
  obtain ⟨n, hn⟩ := hs.holds p size hp
  have hcls := hn.cls
  rw [heq, hs.free_cls num b hb] at hcls
  exact hn.not_free (by rw [heq, ← Option.some.inj hcls]; exact hb)

/-- The first block of a nonempty list becomes live. -/
theorem Sound.unlink {heapStart : Int} {layout : Layout} {h : Heap} {live : Live}
    (hs : Sound heapStart layout h live) (hinit : h.initialized = true) {num : Int}
    {size request : Word} (hsize : size.toInt = 8 * num) (hpos : 1 ≤ request.toInt)
    (hfits : request.toInt + 4 ≤ 8 * num) (hhead : h.header num ≠ NULL) :
    layout.cls ((h.unlink size).1 - 4) = some num ∧
      Sound heapStart (layout.take num) (h.unlink size).2 (((h.unlink size).1, request) :: live) := by
  obtain ⟨rest, hfree, hrest⟩ := (hs.chain num).exists_cons hhead
  have hin : h.header num ∈ layout.free num := hfree ▸ List.mem_cons_self
  have hcls : layout.cls (h.header num) = some num := hs.free_cls num _ hin
  have htake : ∀ n x, x ∈ (layout.take num).free n ↔
      x ∈ layout.free n ∧ ¬(n = num ∧ x = h.header num) :=
    fun n x => Layout.mem_take_free hfree (hs.free_nodup num)
  have hnotfree : ∀ n x, x ∈ (layout.take num).free n → x ≠ h.header num := by
    intro n x hx hxb
    obtain ⟨hold, hother⟩ := (htake n x).mp hx
    have hclsn := hs.free_cls n x hold
    rw [hxb, hcls] at hclsn
    exact hother ⟨(Option.some.inj hclsn).symm, hxb⟩
  have hblock := unlink_block hinit hsize
  have hmem : ∀ a, a ≠ h.header num → (h.unlink size).2.mem a = h.mem a := by
    intro a ha
    exact unlink_mem fun heq => ha (by omega)
  have hsub : h.header num + 4 - 4 = h.header num := by omega
  rw [hblock, hsub]
  refine ⟨hcls, ?_⟩
  exact {
    start_pos := hs.start_pos
    start_le := hs.start_le
    carved := hs.carved
    apart := hs.apart
    chain := by
      intro n
      rw [unlink_header hinit hsize]
      by_cases hn : n = num
      · subst hn
        have htail : (layout.take n).free n = rest := by simp [Layout.take, hfree]
        rw [if_pos rfl, htail]
        refine hrest.congr fun x hx => hmem x (hnotfree n x ?_)
        rw [htail]
        exact hx
      · have hsame : (layout.take num).free n = layout.free n := Function.update_of_ne hn _ _
        rw [if_neg hn, hsame]
        refine (hs.chain n).congr fun x hx => hmem x (hnotfree n x ?_)
        rw [hsame]
        exact hx
    free_cls := by
      intro n x hx
      exact hs.free_cls n x ((htake n x).mp hx).1
    free_nodup := by
      intro n
      by_cases hn : n = num
      · subst hn
        simpa [Layout.take] using (hs.free_nodup n).sublist (List.tail_sublist _)
      · simpa [Layout.take, Function.update_of_ne hn] using hs.free_nodup n
    holds := by
      intro p request' hp
      rcases List.mem_cons.mp hp with heq | hold
      · cases heq
        refine ⟨num, ?_, ?_, hpos, hfits, ?_⟩
        · rw [hsub]
          exact hcls
        · rw [hsub, unlink_field hinit hsize]
        · rw [hsub]
          intro hx
          exact hnotfree num _ hx rfl
      · obtain ⟨n, hn⟩ := hs.holds p request' hold
        refine ⟨n, hn.cls, ?_, hn.size_pos, hn.fits, ?_⟩
        · rw [hmem _ (hs.live_ne hin hold), hn.field]
        · intro hx
          exact hn.not_free ((htake n _).mp hx).1
    live_nodup := by
      rw [List.map_cons, List.nodup_cons]
      refine ⟨?_, hs.live_nodup⟩
      intro hx
      obtain ⟨⟨p, request'⟩, hp, hpeq⟩ := List.mem_map.mp hx
      exact hs.live_ne hin hp (by simp only at hpeq; omega)
    covered := by
      intro b n hb
      by_cases hbnum : b = h.header num
      · exact Or.inr (by simp [hbnum])
      · rcases hs.covered b n hb with hx | hx
        · exact Or.inl ((htake n b).mpr ⟨hx, fun hboth => hbnum hboth.2⟩)
        · exact Or.inr (List.mem_cons_of_mem _ hx)
    uninitialized := by
      intro hfalse
      have htrue : (h.unlink size).2.initialized = true := hinit
      rw [htrue] at hfalse
      cases hfalse }

/-! ## Carving a chunk -/

theorem clearHeaders_mem (h : Heap) : h.clearHeaders.mem = h.mem := by
  unfold clearHeaders
  split <;> rfl

theorem clearHeaders_freeSpace (h : Heap) : h.clearHeaders.freeSpace = h.freeSpace := by
  unfold clearHeaders
  split <;> rfl

theorem clearHeaders_header (h : Heap) (num : Int) :
    h.clearHeaders.smallBlockHeaders num = h.header num := by
  unfold clearHeaders header
  split <;> rfl

theorem clearHeaders_initialized (h : Heap) : h.clearHeaders.initialized = true := by
  unfold clearHeaders
  split
  · assumption
  · rfl

theorem Sound.clearHeaders {heapStart : Int} {layout : Layout} {h : Heap} {live : Live}
    (hs : Sound heapStart layout h live) : Sound heapStart layout h.clearHeaders live := by
  have hheader : ∀ n, h.clearHeaders.header n = h.header n := by
    intro n
    rw [header, if_pos (clearHeaders_initialized h), clearHeaders_header]
  have hmem := clearHeaders_mem h
  have hfree := clearHeaders_freeSpace h
  refine ⟨hs.start_pos, by rw [hfree]; exact hs.start_le, by rw [hfree]; exact hs.carved, hs.apart,
    fun n => by rw [hheader, hmem]; exact hs.chain n, hs.free_cls, hs.free_nodup, ?_,
    hs.live_nodup, hs.covered, ?_⟩
  · intro p size hp
    obtain ⟨n, hn⟩ := hs.holds p size hp
    exact ⟨n, hn.cls, by rw [hmem]; exact hn.field, hn.size_pos, hn.fits, hn.not_free⟩
  · intro hfalse
    rw [clearHeaders_initialized] at hfalse
    cases hfalse

/-- More carved space, not divided yet. -/
theorem Sound.grow {heapStart : Int} {layout : Layout} {h : Heap} {live : Live}
    (hs : Sound heapStart layout h live) (freeSpace : Int) (hle : h.freeSpace ≤ freeSpace) :
    Sound heapStart layout { h with freeSpace := freeSpace } live := by
  have hstart := hs.start_le
  refine ⟨hs.start_pos, ?_, ?_, hs.apart, hs.chain, hs.free_cls, hs.free_nodup, ?_, hs.live_nodup,
    hs.covered, hs.uninitialized⟩
  · show heapStart ≤ freeSpace
    omega
  · intro b num hcls
    have hcarved := hs.carved b num hcls
    refine ⟨hcarved.1, ?_, hcarved.2.2⟩
    show b + 8 * num ≤ freeSpace
    omega
  · intro p size hp
    obtain ⟨n, hn⟩ := hs.holds p size hp
    exact ⟨n, hn.cls, hn.field, hn.size_pos, hn.fits, hn.not_free⟩

/-- Further blocks of one class, `k` of them on its list. -/
structure Layout.Extends (layout layout' : Layout) (num : Int) (k : Nat) : Prop where
  cls : ∀ b n, layout.cls b = some n → layout'.cls b = some n
  free : ∀ n, n ≠ num → layout'.free n = layout.free n
  count : (layout'.free num).length = (layout.free num).length + k

theorem Layout.Extends.refl (layout : Layout) (num : Int) : layout.Extends layout num 0 :=
  ⟨fun _ _ h => h, fun _ _ => rfl, rfl⟩

theorem Layout.Extends.put {layout layout' : Layout} {num b : Int} {k : Nat}
    (hnew : layout.cls b = none) (h : (layout.put num b).Extends layout' num k) :
    layout.Extends layout' num (k + 1) where
  cls := by
    intro b' n hcls
    have hne : b' ≠ b := by
      rintro rfl
      rw [hnew] at hcls
      cases hcls
    exact h.cls b' n (by simpa [Layout.put, Function.update_of_ne hne] using hcls)
  free := by
    intro n hn
    rw [h.free n hn]
    simp [Layout.put, Function.update_of_ne hn]
  count := by
    rw [h.count]
    simp [Layout.put]
    omega

/-- What the loop over a chunk leaves: the heap is sound, cells below the chunk are as they
were, and a nonempty chunk gives a nonempty list. -/
structure Split (heapStart chunk num : Int) (live : Live) (k : Nat) (h h' : Heap) : Prop where
  sound : ∃ layout, Sound heapStart layout h' live
  initialized : h'.initialized = true
  header : h'.header num = if k = 0 then h.header num else chunk
  mem : ∀ a, a < chunk → h'.mem a = h.mem a
  freeSpace : h'.freeSpace = h.freeSpace

/-- The induction is on the number `k` of blocks left; the fuel exceeds it. -/
theorem splitChunk_split {heapStart chunk num : Int} {live : Live} {size : Word}
    (hsize : size.toInt = 8 * num) (hpos : 1 ≤ num) (hlt : num < NUM_SIZES)
    (hstart : heapStart ≤ chunk) (k : Nat) :
    ∀ (fuel : Nat) (layout : Layout) (h : Heap), k < fuel → h.initialized = true →
      Sound heapStart layout h live → chunk + k * (8 * num) ≤ h.freeSpace →
      (∀ b n, layout.cls b = some n → b + 8 * n ≤ chunk ∨ chunk + k * (8 * num) ≤ b) →
      ∃ h', splitChunk size chunk fuel (chunk + k * (8 * num) - size.toInt) h = some h' ∧
        Split heapStart chunk num live k h h' ∧
        ∃ layout', Sound heapStart layout' h' live ∧ layout.Extends layout' num k := by
  induction k with
  | zero =>
      intro fuel layout h hfuel hinit hs _ _
      obtain ⟨fuel, rfl⟩ := Nat.exists_eq_succ_of_ne_zero (Nat.ne_of_gt hfuel)
      refine ⟨h, ?_, ⟨⟨layout, hs⟩, hinit, rfl, fun a _ => rfl, rfl⟩, layout, hs, .refl layout num⟩
      rw [splitChunk, if_neg (by rw [hsize]; simp; omega)]
  | succ k ih =>
      intro fuel layout h hfuel hinit hs hspace hapart
      obtain ⟨fuel, rfl⟩ := Nat.exists_eq_succ_of_ne_zero (Nat.ne_of_gt (Nat.zero_lt_of_lt hfuel))
      have hblock : chunk + ((k + 1 : Nat) : Int) * (8 * num) - size.toInt =
          chunk + k * (8 * num) := by
        rw [hsize]
        push_cast
        ring
      have hnonneg : 0 ≤ (k : Int) * (8 * num) := by positivity
      have hsum : chunk + ((k + 1 : Nat) : Int) * (8 * num) = chunk + k * (8 * num) + 8 * num := by
        push_cast
        ring
      have hnew : layout.cls (chunk + k * (8 * num)) = none := by
        apply Option.eq_none_iff_forall_ne_some.mpr
        intro n hcls
        have hcarved := hs.carved _ n hcls
        have := hapart _ n hcls
        omega
      have hfresh : ∀ n, chunk + k * (8 * num) ∉ layout.free n := by
        intro n hin
        have hcls := hs.free_cls n _ hin
        rw [hnew] at hcls
        cases hcls
      have hlink := hs.link hinit num (chunk + k * (8 * num)) live (by omega) (by omega)
        hpos hlt
        (fun b' num' hcls hne => by
          have := hapart b' num' hcls
          omega)
        hfresh
        (fun p request hp => by
          refine ⟨hp, ?_⟩
          intro heq
          obtain ⟨n, hn⟩ := hs.holds p request hp
          have hcls := hn.cls
          rw [heq, hnew] at hcls
          cases hcls)
        hs.live_nodup (fun p hp => Or.inl hp)
      obtain ⟨h', hrun, hsplit, layout', hs', hextends⟩ := ih fuel (layout.put num (chunk + k * (8 * num)))
        (h.link num (chunk + k * (8 * num))) (by omega) hinit hlink (by
        show chunk + k * (8 * num) ≤ h.freeSpace
        omega) (by
        intro b n hcls
        rcases Layout.put_cls hcls with ⟨rfl, rfl⟩ | ⟨_, hold⟩
        · exact Or.inr le_rfl
        · have := hapart b n hold
          omega)
      refine ⟨h', ?_, ⟨hsplit.sound, hsplit.initialized, ?_, ?_, ?_⟩, layout', hs', hextends.put hnew⟩
      · rw [splitChunk, if_pos (by rw [hblock]; omega), numSize_eq hsize, hblock]
        exact hrun
      · rw [hsplit.header, link_header hinit]
        by_cases hk : k = 0
        · subst hk
          simp
        · simp [hk]
      · intro a ha
        rw [hsplit.mem a ha, link_mem (by omega)]
      · exact hsplit.freeSpace

theorem allocateChunk_split {heapStart num : Int} {layout : Layout} {h : Heap} {live : Live}
    {size : Word} (hs : Sound heapStart layout h live) (hinit : h.initialized = true)
    (hsize : size.toInt = 8 * num) (hpos : 1 ≤ num) (hlt : num < NUM_SIZES) :
    ∃ h', h.allocateChunk size = some h' ∧
      (∃ layout', Sound heapStart layout' h' live ∧
        layout.Extends layout' num (blocksPerChunk (8 * num))) ∧
      h'.initialized = true ∧ h'.header num = h.freeSpace ∧
      h'.freeSpace = h.freeSpace + blocksPerChunk (8 * num) * (8 * num) ∧
      ∀ a, a < h.freeSpace → h'.mem a = h.mem a := by
  obtain ⟨hchunk, hfuel⟩ := chunkSize_toInt hsize hpos hlt
  have hk := ten_le_blocksPerChunk hpos
  generalize blocksPerChunk (8 * num) = k at hchunk hfuel hk ⊢
  have hnonneg : 0 ≤ (k : Int) * (8 * num) := by positivity
  have hgrow := hs.grow (h.freeSpace + k * (8 * num)) (by omega)
  obtain ⟨h', hrun, hsplit, layout', hs', hextends⟩ := splitChunk_split hsize hpos hlt hs.start_le k
    ((chunkSize size).toNat + 1) layout { h with freeSpace := h.freeSpace + k * (8 * num) }
    (by omega) hinit hgrow le_rfl (by
      intro b n hcls
      have := hs.carved b n hcls
      omega)
  refine ⟨h', ?_, ⟨layout', hs', hextends⟩, hsplit.initialized, ?_, hsplit.freeSpace, hsplit.mem⟩
  · rw [allocateChunk, hchunk]
    exact hrun
  · rw [hsplit.header, if_neg (by omega)]

/-! ## The calls -/

def WellFormed (heapStart : Int) (h : Heap) (live : Live) : Prop :=
  ∃ layout, Sound heapStart layout h live

/-- Cells that no call may change: those below the heap and those of the live blocks. -/
def Owned (heapStart : Int) (live : Live) (a : Int) : Prop :=
  a < heapStart ∨ ∃ p size, (p, size) ∈ live ∧ p ≤ a ∧ a < p + size.toInt

/-- An owned cell is carved or below the heap, and never the first cell of a block. -/
theorem Sound.owned {heapStart : Int} {layout : Layout} {h : Heap} {live : Live}
    (hs : Sound heapStart layout h live) {a : Int} (ha : Owned heapStart live a) :
    a < h.freeSpace ∧ ∀ b num, layout.cls b = some num → a ≠ b := by
  rcases ha with hbelow | ⟨p, size, hp, hle, hlt⟩
  · have hstart := hs.start_le
    refine ⟨by omega, ?_⟩
    intro b num hcls
    have hcarved := hs.carved b num hcls
    omega
  · obtain ⟨n, hn⟩ := hs.holds p size hp
    have hcarved := hs.carved _ n hn.cls
    have hfits := hn.fits
    refine ⟨by omega, ?_⟩
    intro b num hcls hab
    subst hab
    have := hs.apart _ n a num hn.cls hcls (by omega)
    omega

theorem WellFormed.perm {heapStart : Int} {h : Heap} {live live' : Live}
    (hw : WellFormed heapStart h live) (hperm : live.Perm live') : WellFormed heapStart h live' := by
  obtain ⟨layout, hs⟩ := hw
  refine ⟨layout, hs.start_pos, hs.start_le, hs.carved, hs.apart, hs.chain, hs.free_cls,
    hs.free_nodup, ?_, ?_, ?_, ?_⟩
  · intro p size hp
    exact hs.holds p size (hperm.mem_iff.mpr hp)
  · exact (hperm.map Prod.fst).nodup_iff.mp hs.live_nodup
  · intro b num hcls
    have hmap := (hperm.map Prod.fst).mem_iff (a := b + 4)
    rw [← hmap]
    exact hs.covered b num hcls
  · intro hfalse
    have hnil := hs.uninitialized hfalse
    subst hnil
    exact hperm.nil_eq.symm

theorem initHeap_wellFormed (h : Heap) {heapStart : Int} (hpos : 0 < heapStart) :
    WellFormed heapStart (h.initHeap heapStart) [] := by
  refine ⟨⟨fun _ => none, fun _ => []⟩, hpos, le_rfl, ?_, ?_, ?_, ?_, ?_, ?_, ?_, ?_, ?_⟩
  · intro b num hcls
    cases hcls
  · intro b num b' num' hcls
    cases hcls
  · intro num
    rfl
  · intro num b hb
    cases hb
  · intro num
    exact List.nodup_nil
  · intro p size hp
    cases hp
  · exact List.nodup_nil
  · intro b num hcls
    cases hcls
  · intro _
    rfl

/-- The class of the blocks that serve a request. -/
def sizeClass (request : Word) : Int := (request.toInt + 11) / 8

/-- The requests that some list serves. -/
def Served (request : Word) : Prop := 1 ≤ request.toInt ∧ sizeClass request < NUM_SIZES

instance (request : Word) : Decidable (Served request) := inferInstanceAs (Decidable (_ ∧ _))

theorem clearHeaders_of_header {h : Heap} {num : Int} (hhead : h.header num ≠ NULL) :
    h.clearHeaders = h := by
  unfold header at hhead
  unfold clearHeaders
  split at hhead
  case isTrue hinit => rw [if_pos hinit]
  case isFalse => exact absurd rfl hhead

/-- What `allocate` does before it unlinks a block: it returns NULL for a size that no list
serves, has nothing to do where the list has blocks, and else divides a chunk. -/
theorem allocate_cases {heapStart : Int} {layout : Layout} {h : Heap} {live : Live}
    (hs : Sound heapStart layout h live) (request : Word) (hmax : request.toInt ≤ 2 ^ 31 - 12) :
    ¬Served request ∧ h.allocate request = some (NULL, h.clearHeaders) ∨
      Served request ∧ ∃ h₁ layout₁, h.allocate request = some (h₁.unlink (blockSize request)) ∧
        Sound heapStart layout₁ h₁ live ∧ h₁.initialized = true ∧
        h₁.header (sizeClass request) ≠ NULL ∧ (∀ a, a < h.freeSpace → h₁.mem a = h.mem a) ∧
        (h.header (sizeClass request) ≠ NULL ∧ h₁ = h ∧ layout₁ = layout ∨
          h.header (sizeClass request) = NULL ∧ h₁.header (sizeClass request) = h.freeSpace ∧
            h₁.freeSpace = h.freeSpace +
              blocksPerChunk (8 * sizeClass request) * (8 * sizeClass request) ∧
            layout.Extends layout₁ (sizeClass request)
              (blocksPerChunk (8 * sizeClass request))) := by
  have hclear := hs.clearHeaders
  have hinit := clearHeaders_initialized h
  unfold allocate
  by_cases hpos : request.toInt < 1
  · left
    refine ⟨fun hserved => ?_, by simp only [hpos, ↓reduceIte]⟩
    have := hserved.1
    omega
  have hsize : (blockSize request).toInt = 8 * sizeClass request :=
    blockSize_toInt request (by omega) hmax
  have hnum := numSize_eq hsize
  have hone : 1 ≤ sizeClass request := by
    unfold sizeClass
    omega
  by_cases hbig : numSize (blockSize request) ≥ NUM_SIZES
  · left
    refine ⟨fun hserved => ?_, by simp only [hpos, hbig, ↓reduceIte]⟩
    have := hserved.2
    omega
  right
  have hnonneg : ¬numSize (blockSize request) < 0 := by omega
  have hlt : sizeClass request < NUM_SIZES := by omega
  refine ⟨⟨by omega, hlt⟩, ?_⟩
  by_cases hempty : h.clearHeaders.smallBlockHeaders (numSize (blockSize request)) = NULL
  · obtain ⟨h₁, hrun, ⟨layout₁, hs₁, hextends⟩, hinit₁, hhead, hspace, hmem⟩ :=
      allocateChunk_split hclear hinit hsize hone hlt
    rw [clearHeaders_freeSpace] at hhead hspace hmem
    refine ⟨h₁, layout₁, ?_, hs₁, hinit₁, ?_, ?_, Or.inr ⟨?_, hhead, hspace, hextends⟩⟩
    · simp only [hpos, hbig, hnonneg, hempty, hrun, ↓reduceIte]
      rfl
    · have hstart := hs.start_pos
      have hle := hs.start_le
      rw [hhead, NULL]
      omega
    · intro a ha
      rw [hmem a ha, clearHeaders_mem]
    · rw [clearHeaders_header, hnum] at hempty
      exact hempty
  · have hhead : h.header (sizeClass request) ≠ NULL := by
      rw [clearHeaders_header, hnum] at hempty
      exact hempty
    rw [clearHeaders_of_header hhead] at hempty hinit ⊢
    refine ⟨h, layout, ?_, hs, hinit, hhead, fun _ _ => rfl, Or.inl ⟨hhead, rfl, rfl⟩⟩
    simp only [hpos, hbig, hnonneg, hempty, ↓reduceIte]

/-- NULL exactly for the sizes that no list serves; else a new live block. -/
theorem allocate_spec {heapStart : Int} {h : Heap} {live : Live} (hw : WellFormed heapStart h live)
    (request : Word) (hmax : request.toInt ≤ 2 ^ 31 - 12) :
    ∃ p h', h.allocate request = some (p, h') ∧
      (∀ a, Owned heapStart live a → h'.mem a = h.mem a) ∧
      (p = NULL ∧ WellFormed heapStart h' live ∧
          ¬(1 ≤ request.toInt ∧ (request.toInt + 11) / 8 < NUM_SIZES) ∨
        p ≠ NULL ∧ WellFormed heapStart h' ((p, request) :: live) ∧
          1 ≤ request.toInt ∧ (request.toInt + 11) / 8 < NUM_SIZES) := by
  obtain ⟨layout, hs⟩ := hw
  rcases allocate_cases hs request hmax with ⟨hnot, hrun⟩ | ⟨hserved, h₁, layout₁, hrun, hs₁, hinit₁,
    hhead₁, hmem₁, hfrom⟩
  · refine ⟨NULL, h.clearHeaders, hrun, ?_, Or.inl ⟨rfl, ⟨layout, hs.clearHeaders⟩, hnot⟩⟩
    intro a _
    rw [clearHeaders_mem]
  · have hsize : (blockSize request).toInt = 8 * sizeClass request :=
      blockSize_toInt request hserved.1 hmax
    have hfits : request.toInt + 4 ≤ 8 * sizeClass request := by
      unfold sizeClass
      omega
    obtain ⟨hcls, hunlink⟩ := hs₁.unlink hinit₁ hsize hserved.1 hfits hhead₁
    refine ⟨(h₁.unlink (blockSize request)).1, (h₁.unlink (blockSize request)).2, hrun, ?_,
      Or.inr ⟨?_, ⟨_, hunlink⟩, hserved⟩⟩
    · intro a ha
      have hold := hs.owned ha
      rw [unlink_mem, hmem₁ a hold.1]
      rcases hfrom with ⟨_, rfl, rfl⟩ | ⟨_, hhead, _⟩
      · have hne := hold.2 _ _ hcls
        omega
      · have hblock := unlink_block hinit₁ hsize
        have := hold.1
        omega
    · have hcarved := hs₁.carved _ _ hcls
      have hstart := hs₁.start_pos
      rw [NULL]
      omega

/-- In a table with distinct keys, `eraseP` removes the one entry of a key. -/
theorem mem_eraseP_key {α β : Type} [DecidableEq α] {table : List (α × β)} {key : α}
    (hnodup : (table.map Prod.fst).Nodup) {entry : α × β} :
    entry ∈ table.eraseP (fun x => x.1 == key) ↔ entry ∈ table ∧ entry.1 ≠ key := by
  induction table with
  | nil => simp
  | cons x rest ih =>
      rw [List.map_cons, List.nodup_cons] at hnodup
      have htail : entry ∈ rest → entry.1 ≠ x.1 := by
        intro hin heq
        exact hnodup.1 (heq ▸ List.mem_map_of_mem hin)
      by_cases hx : x.1 = key
      · rw [List.eraseP_cons_of_pos (by simpa using hx), List.mem_cons, ← hx]
        constructor
        · intro hin
          exact ⟨Or.inr hin, htail hin⟩
        · rintro ⟨rfl | hin, hne⟩
          · exact absurd rfl hne
          · exact hin
      · rw [List.eraseP_cons_of_neg (by simpa using hx), List.mem_cons, List.mem_cons,
          ih hnodup.2]
        constructor
        · rintro (rfl | hin)
          · exact ⟨Or.inl rfl, hx⟩
          · exact ⟨Or.inr hin.1, hin.2⟩
        · rintro ⟨rfl | hin, hne⟩
          · exact Or.inl rfl
          · exact Or.inr ⟨hin, hne⟩

/-- Releasing a live block finds its size in front of it and puts it on its list. -/
theorem Sound.release {heapStart : Int} {layout : Layout} {h : Heap} {live : Live}
    (hs : Sound heapStart layout h live) {p : Int} {request : Word} (hmem : (p, request) ∈ live) :
    ∃ num, layout.cls (p - 4) = some num ∧ h.release p = some (h.link num (p - 4)) ∧
      Sound heapStart (layout.put num (p - 4)) (h.link num (p - 4))
        (live.eraseP fun block => block.1 == p) := by
  obtain ⟨num, hn⟩ := hs.holds p request hmem
  have hcarved := hs.carved _ num hn.cls
  have hsizes : NUM_SIZES = 512 := rfl
  have hfield : (h.loadInt (p - 4)).toInt = 8 * num := by
    rw [loadInt, hn.field, BitVec.toInt_ofInt]
    exact Int.bmod_eq_of_le (by omega) (by omega)
  have hnum := numSize_eq hfield
  have hinit : h.initialized = true := by
    by_contra hfalse
    have hnil := hs.uninitialized (by simpa using hfalse)
    rw [hnil] at hmem
    cases hmem
  have hnodup := hs.live_nodup
  refine ⟨num, hn.cls, ?_, ?_⟩
  · rw [Heap.release]
    simp only [hnum]
    rw [if_pos ⟨by omega, hcarved.2.2.2⟩]
  · refine hs.link hinit num (p - 4) _ hcarved.1 hcarved.2.1 hcarved.2.2.1 hcarved.2.2.2 ?_ ?_ ?_ ?_ ?_
    · intro b' num' hcls hne
      have hleft := hs.apart _ num b' num' hn.cls hcls
      have hright := hs.apart b' num' _ num hcls hn.cls
      omega
    · intro n hin
      have hcls := hs.free_cls n _ hin
      rw [hn.cls] at hcls
      exact hn.not_free (by rw [Option.some.inj hcls]; exact hin)
    · intro q request' hq
      have hq' := (mem_eraseP_key hnodup).mp hq
      refine ⟨hq'.1, ?_⟩
      have hne : q ≠ p := hq'.2
      omega
    · exact hnodup.sublist (List.Sublist.map _ List.eraseP_sublist)
    · intro q hq
      by_cases hqp : q = p
      · exact Or.inr (by omega)
      · obtain ⟨block, hblock, rfl⟩ := List.mem_map.mp hq
        exact Or.inl (List.mem_map_of_mem ((mem_eraseP_key hnodup).mpr ⟨hblock, hqp⟩))

theorem release_spec {heapStart : Int} {h : Heap} {live : Live} (hw : WellFormed heapStart h live)
    {p : Int} (hp : p ∈ live.map Prod.fst) :
    ∃ h', h.release p = some h' ∧
      WellFormed heapStart h' (live.eraseP fun block => block.1 == p) ∧
      ∀ a, Owned heapStart live a → h'.mem a = h.mem a := by
  obtain ⟨layout, hs⟩ := hw
  obtain ⟨⟨p, request⟩, hmem, rfl⟩ := List.mem_map.mp hp
  obtain ⟨num, hcls, hrun, hs'⟩ := hs.release hmem
  exact ⟨h.link num (p - 4), hrun, ⟨_, hs'⟩, fun a ha => link_mem ((hs.owned ha).2 _ num hcls)⟩

/-- A write outside the first cells of the blocks. -/
theorem Sound.write {heapStart : Int} {layout : Layout} {h : Heap} {live : Live}
    (hs : Sound heapStart layout h live) {a : Int} (ha : ∀ b num, layout.cls b = some num → a ≠ b)
    (v : Int) : Sound heapStart layout (h.store a v) live := by
  have hmem : ∀ b, a ≠ b → (h.store a v).mem b = h.mem b := by
    intro b hb
    exact Function.update_of_ne (Ne.symm hb) _ _
  refine ⟨hs.start_pos, hs.start_le, hs.carved, hs.apart, ?_, hs.free_cls, hs.free_nodup, ?_,
    hs.live_nodup, hs.covered, hs.uninitialized⟩
  · intro num
    exact (hs.chain num).congr fun x hx => hmem x (ha x num (hs.free_cls num x hx))
  · intro p size hp
    obtain ⟨n, hn⟩ := hs.holds p size hp
    exact ⟨n, hn.cls, by rw [hmem _ (ha _ n hn.cls), hn.field], hn.size_pos, hn.fits, hn.not_free⟩

/-- A client's write inside a live block. -/
theorem write_spec {heapStart : Int} {h : Heap} {live : Live} (hw : WellFormed heapStart h live)
    {a : Int} (ha : Owned heapStart live a) (v : Int) : WellFormed heapStart (h.store a v) live := by
  obtain ⟨layout, hs⟩ := hw
  exact ⟨layout, hs.write (hs.owned ha).2 v⟩

end CompSys.Heap
