import CompSys.RadixLimit
import CompSys.RadixOwnership
import CompSys.RadixSorted
import CompSys.SmallestFirst

/-!
# The radix program against a multiset

The main program of `radix.c` once its files are open: it reads numbers in
chunks, adds the non-negative ones and serves a number -N by taking N numbers in
batches of at most 100. The reference is a multiset that gives up its smallest
elements.
-/
namespace CompSys.Radix

open Heap (Below Grows)
open SmallestFirst (smallest rest)

/-! ## The program -/

/-- `write contents size` is what `write_int_buffer` returns when the output file holds
`contents`: the number of ints it has written from the start of the buffer. -/
abbrev WriteIntBuffer := List Word → Word → Word

/-- `while (to_write > 0)`. The fuel allows for one number a call; a call that writes
nothing is repeated without end. -/
def writeLoop (write : WriteIntBuffer) (outNumbers : List Word) :
    Nat → List Word → Word → Option (List Word)
  | 0, _, _ => none
  | fuel + 1, out, toWrite =>
    if toWrite.toInt > 0 then
      let written := write out toWrite
      writeLoop write outNumbers fuel (out ++ outNumbers.take written.toInt.toNat)
        (toWrite - written)
    else some out

/-- `while (limit > 0)`: take, then output up to 100 numbers at a time. -/
def takeLoop (write : WriteIntBuffer) :
    Nat → Store → List Word → Word → Option (Store × List Word)
  | 0, _, _, _ => none
  | fuel + 1, s, out, limit =>
    if limit.toInt > 0 then do
      let takeMax := if limit.toInt < 100 then limit else 100
      let (s, outNumbers) ← takeNumbers s takeMax
      let taken := BitVec.ofNat 32 outNumbers.length
      let out ← writeLoop write outNumbers (outNumbers.length + 1) out taken
      let limit := limit - taken
      if taken = 0 then return (s, out)
      else takeLoop write fuel s out limit
    else some (s, out)

/-- One number of the input. Each batch takes at least one number, or is the last. -/
def processNumber (write : WriteIntBuffer) (st : Store × List Word) (number : Word) :
    Option (Store × List Word) :=
  if number.toInt < 0 then
    let limit := -number
    takeLoop write (limit.toNat + 1) st.1 st.2 limit
  else do
    let s ← addNumber st.1 number
    return (s, st.2)

/-- `while (1)`, with what each call of `read_int_buffer` delivers. -/
def readLoop (write : WriteIntBuffer) :
    List (List Word) → Store × List Word → Option (Store × List Word)
  | [], st => some st
  | numbers :: chunks, st =>
    let read := BitVec.ofNat 32 numbers.length
    if read.toInt ≤ 0 then some st
    else do
      let st ← (numbers.take read.toInt.toNat).foldlM (processNumber write) st
      readLoop write chunks st

def main (write : WriteIntBuffer) (h : Heap) (chunks : List (List Word)) :
    Option (Store × List Word) := do
  let (s, out) ← readLoop write chunks (start h, [])
  let s ← releaseTree 32 s (s.ptr TREE)
  return (s, out)

/-- The program as far as its heap stays below 2^32. -/
def main32 (write : WriteIntBuffer) (h : Heap) (chunks : List (List Word)) :
    Option (Store × List Word) :=
  (main write h chunks).filter fun result => Below result.1.heap

/-! ## The reference -/

namespace Reference

/-- A value v ≥ 0 is inserted, a value -N takes the N smallest elements and outputs them. -/
def step (held : Multiset Int) (v : Int) : Multiset Int × List Int :=
  if v < 0 then (rest (-v).toNat held, smallest (-v).toNat held) else (v ::ₘ held, [])

/-- What is held after some input, and what was output. -/
def run : Multiset Int → List Int → Multiset Int × List Int
  | held, [] => (held, [])
  | held, v :: input =>
    let (held, out) := step held v
    let (final, outs) := run held input
    (final, out ++ outs)

end Reference

/-- At no time is a value held 2 ^ 32 times or more. -/
def CountersFit (input : List Word) : Prop :=
  ∀ before, before <+: input →
    ∀ v, (Reference.run 0 (before.map BitVec.toInt)).1.count v < 2 ^ 32

/-- The input comes in chunks that fill at most the buffer. -/
def Chunks (chunks : List (List Word)) : Prop :=
  ∀ numbers ∈ chunks, 0 < numbers.length ∧ numbers.length ≤ 100

/-- The heap that the input needs ends below 2^32. -/
def HeapFits (write : WriteIntBuffer) (h : Heap) (chunks : List (List Word)) : Prop :=
  ∀ s out, main write h chunks = some (s, out) → Below s.heap

/-- No input is the least int, whose negation overflows. -/
def Negatable (input : List Word) : Prop := ∀ v ∈ input, -2 ^ 31 < v.toInt

/-- Everything is written that is given. -/
def WritesAll (write : WriteIntBuffer) : Prop := ∀ contents size, write contents size = size

/-! ## One call -/

theorem toInt_of_nonneg {x : Word} (h : x.getLsbD 31 = false) : x.toInt = x.toNat := by
  apply BitVec.toInt_eq_toNat_of_msb
  rw [BitVec.msb_eq_getLsbD_last]
  exact h

theorem nonneg_of_toInt {x : Word} (h : ¬x.toInt < 0) : x.getLsbD 31 = false := by
  have hmsb : x.msb = false := by
    rw [BitVec.msb_eq_toInt]
    simpa using h
  rwa [BitVec.msb_eq_getLsbD_last] at hmsb

/-- The tree of the program holds the numbers of a multiset. -/
structure Keeps (s : Store) (t : Tree) (ns : List Int) (held : Multiset Int) : Prop where
  holds : Holds s t ns
  ordered : t.Ordered
  nonneg : ∀ x ∈ t.numbers, x.getLsbD 31 = false
  held : (t.toList.map BitVec.toInt : Multiset Int) = held

theorem start_keeps (h : Heap) : Keeps (start h) .nil [] 0 where
  holds := start_holds h
  ordered := trivial
  nonneg := by
    intro x hx
    cases hx
  held := rfl

theorem Keeps.sorted {s : Store} {t : Tree} {ns : List Int} {held : Multiset Int}
    (h : Keeps s t ns held) : (t.toList.map BitVec.toInt).Pairwise (· ≤ ·) := by
  have hnonneg : ∀ v ∈ t.toList, v.toInt = v.toNat := by
    intro v hv
    obtain ⟨x, hx, hagree⟩ := Tree.mem_toList hv
    apply toInt_of_nonneg
    rw [hagree 31 (by decide), h.nonneg x hx]
  rw [List.pairwise_map]
  refine (Tree.sorted h.holds.bounded h.ordered).imp_of_mem ?_
  intro v w hv hw hle
  rw [hnonneg v hv, hnonneg w hw]
  exact Int.ofNat_le.mpr hle

theorem Keeps.addNumber {s : Store} {t : Tree} {ns : List Int} {held : Multiset Int}
    (h : Keeps s t ns held) {number : Word} (hnumber : number.getLsbD 31 = false)
    (hcount : held.count number.toInt + 1 < 2 ^ 32) :
    ∃ s' ns', addNumber s number = some s' ∧
      Keeps s' (t.add number 30) ns' (number.toInt ::ₘ held) := by
  obtain ⟨s', ns', hrun, hholds⟩ := h.holds.addNumber number
  have hagree : ∀ x ∈ t.numbers, Agree 30 x number := by
    intro x hx i hi
    by_cases hlast : i = 31
    · rw [hlast, h.nonneg x hx, hnumber]
    · rw [BitVec.getLsbD_of_ge x i (by omega), BitVec.getLsbD_of_ge number i (by omega)]
  have hinj : Function.Injective (BitVec.toInt : Word → Int) := fun _ _ => BitVec.eq_of_toInt_eq
  have hfits : t.toList.count number + 1 < 2 ^ 32 := by
    rwa [← h.held, Multiset.coe_count, List.count_map_of_injective _ _ hinj] at hcount
  have hperm := t.add_toList number (by decide) h.holds.bounded h.ordered hagree hfits
  refine ⟨s', ns', hrun, hholds, ?_, ?_, ?_⟩
  · exact t.add_ordered number (by decide) h.holds.bounded h.ordered hagree
  · intro x hx
    cases t.add_numbers hx with
    | inl heq => rwa [heq]
    | inr hold => exact h.nonneg x hold
  · rw [← h.held, Multiset.cons_coe, Multiset.coe_eq_coe]
    exact hperm.map BitVec.toInt

/-- The numbers that were taken are the smallest, and the others are kept. -/
theorem Keeps.take {s s' : Store} {t : Tree} {ns ns' : List Int} {held : Multiset Int}
    (h : Keeps s t ns held) {n : Nat} (hs' : Holds s' (t.take n).2 ns') :
    (t.take n).1.map BitVec.toInt = smallest n held ∧ Keeps s' (t.take n).2 ns' (rest n held) := by
  obtain ⟨htaken, hleft⟩ := t.take_toList n
  refine ⟨?_, hs', t.take_ordered n h.ordered, fun x hx => h.nonneg x (t.take_numbers hx), ?_⟩
  · rw [← h.held, SmallestFirst.smallest_coe h.sorted, htaken, List.map_take]
  · rw [← h.held, SmallestFirst.rest_coe h.sorted, hleft, List.map_drop]

theorem Keeps.takeNumbers {s : Store} {t : Tree} {ns : List Int} {held : Multiset Int}
    (h : Keeps s t ns held) (maxNums : Word) :
    ∃ s' t' ns' taken, takeNumbers s maxNums = some (s', taken) ∧
      taken.map BitVec.toInt = smallest maxNums.toInt.toNat held ∧
      Keeps s' t' ns' (rest maxNums.toInt.toNat held) := by
  obtain ⟨s', ns', hrun, hholds⟩ := h.holds.takeNumbers maxNums
  obtain ⟨htaken, hkeeps⟩ := h.take hholds
  exact ⟨s', _, ns', _, hrun, htaken, hkeeps⟩

/-! ## Taking in batches -/

theorem toInt_ofNat_small {n : Nat} (h : n < 2 ^ 31) : (BitVec.ofNat 32 n).toInt = n := by
  have hnat : (BitVec.ofNat 32 n).toNat = n := by
    rw [BitVec.toNat_ofNat]
    omega
  rw [BitVec.toInt_eq_toNat_of_lt (by omega), hnat]

theorem writeLoop_all {write : WriteIntBuffer} (hwrite : WritesAll write)
    (outNumbers out : List Word) (hlen : outNumbers.length ≤ 100) :
    writeLoop write outNumbers (outNumbers.length + 1) out (BitVec.ofNat 32 outNumbers.length) =
      some (out ++ outNumbers) := by
  have hint : (BitVec.ofNat 32 outNumbers.length).toInt = outNumbers.length :=
    toInt_ofNat_small (by omega)
  cases outNumbers with
  | nil => simp [writeLoop]
  | cons v outNumbers =>
      have hpos : (BitVec.ofNat 32 (v :: outNumbers).length).toInt > 0 := by
        rw [hint, List.length_cons]
        omega
      have hfull := hwrite out (BitVec.ofNat 32 (v :: outNumbers).length)
      rw [writeLoop, if_pos hpos]
      simp only [hfull, hint, Int.toNat_natCast, List.take_length, BitVec.sub_self]
      rfl

/-- The size of a batch. -/
theorem takeMax_toNat {limit : Word} (h : 0 ≤ limit.toInt) :
    (if limit.toInt < 100 then limit else 100 : Word).toInt.toNat = min limit.toInt.toNat 100 := by
  have hhundred : (100 : Word).toInt = 100 := by decide
  split
  · omega
  · rw [hhundred]
    omega

theorem toInt_sub_taken (limit : Word) {n : Nat} (h : (n : Int) ≤ limit.toInt) :
    (limit - BitVec.ofNat 32 n).toInt = limit.toInt - n := by
  have hlt := BitVec.toInt_lt (x := limit)
  have htaken := toInt_ofNat_small (n := n) (by omega)
  rw [BitVec.toInt_sub, htaken]
  exact Int.bmod_eq_of_le (by omega) (by omega)

/-- One batch. It is empty only if nothing is held. -/
theorem Keeps.takeBatch {s : Store} {t : Tree} {ns : List Int} {held : Multiset Int}
    (h : Keeps s t ns held) {limit : Word} (hpos : 0 < limit.toInt) :
    ∃ s' t' ns' batch,
      Radix.takeNumbers s (if limit.toInt < 100 then limit else 100) = some (s', batch) ∧
      batch.map BitVec.toInt = smallest (min limit.toInt.toNat 100) held ∧
      Keeps s' t' ns' (rest (min limit.toInt.toNat 100) held) ∧
      batch.length = (smallest (min limit.toInt.toNat 100) held).length ∧
      batch.length ≤ min limit.toInt.toNat 100 ∧ (batch.length = 0 → held = 0) := by
  have hmax := takeMax_toNat (Int.le_of_lt hpos)
  obtain ⟨s', t', ns', batch, htake, hbatch, h'⟩ :=
    h.takeNumbers (if limit.toInt < 100 then limit else 100)
  rw [hmax] at hbatch h'
  have hlen : batch.length = (smallest (min limit.toInt.toNat 100) held).length := by
    rw [← hbatch, List.length_map]
  have hcard := SmallestFirst.length_smallest (min limit.toInt.toNat 100) held
  refine ⟨s', t', ns', batch, htake, hbatch, h', hlen, by omega, ?_⟩
  intro hempty
  apply Multiset.card_eq_zero.mp
  omega

/-- A request is served in batches as it would be at once. -/
theorem takeLoop_spec {write : WriteIntBuffer} (hwrite : WritesAll write) (fuel : Nat) :
    ∀ {s : Store} {t : Tree} {ns : List Int} {held : Multiset Int} (limit : Word)
      (out : List Word), Keeps s t ns held → 0 ≤ limit.toInt → limit.toInt < fuel →
      ∃ s' t' ns' taken, takeLoop write fuel s out limit = some (s', out ++ taken) ∧
        taken.map BitVec.toInt = smallest limit.toInt.toNat held ∧
        Keeps s' t' ns' (rest limit.toInt.toNat held) := by
  induction fuel with
  | zero =>
      intro s t ns held limit out _ _ hfuel
      omega
  | succ fuel ih =>
      intro s t ns held limit out h hlimit hfuel
      rw [takeLoop]
      by_cases hpos : limit.toInt > 0
      case neg =>
        have hzero : limit.toInt.toNat = 0 := by omega
        rw [if_neg hpos, hzero, smallest, List.take_zero]
        refine ⟨s, t, ns, [], by rw [List.append_nil], rfl, ?_⟩
        rwa [rest, smallest, List.take_zero, Multiset.coe_nil, Multiset.sub_zero]
      case pos =>
        obtain ⟨s₁, t₁, ns₁, batch, htake, hbatch, h₁, hlen, hle, hnone⟩ := h.takeBatch hpos
        have hwritten := writeLoop_all hwrite batch out (by omega)
        simp only [hpos, ↓reduceIte, htake, hwritten, Option.bind_eq_bind, Option.bind_some]
        have hzero : BitVec.ofNat 32 batch.length = 0 ↔ batch.length = 0 := by
          constructor
          · intro htaken
            have hint := toInt_ofNat_small (n := batch.length) (by omega)
            rw [htaken] at hint
            exact Int.ofNat_eq_zero.mp hint.symm
          · intro hempty
            rw [hempty]
            rfl
        by_cases hempty : batch.length = 0
        case pos =>
          have hheld := hnone hempty
          rw [if_pos (hzero.mpr hempty)]
          rw [hheld, SmallestFirst.smallest_zero] at hbatch
          rw [hheld, SmallestFirst.rest_zero] at h₁
          rw [hheld, SmallestFirst.smallest_zero, SmallestFirst.rest_zero]
          exact ⟨s₁, t₁, ns₁, batch, rfl, hbatch, h₁⟩
        case neg =>
          have hsub := toInt_sub_taken limit (n := batch.length) (by omega)
          have hleft : (limit - BitVec.ofNat 32 batch.length).toInt.toNat =
              limit.toInt.toNat - batch.length := by omega
          obtain ⟨s₂, t₂, ns₂, more, hrun, hmore, h₂⟩ :=
            ih (limit - BitVec.ofNat 32 batch.length) (out ++ batch) h₁ (by omega) (by omega)
          rw [hleft] at hmore h₂
          rw [if_neg (mt hzero.mp hempty), hrun, List.append_assoc,
            SmallestFirst.smallest_batch (Nat.min_le_left limit.toInt.toNat 100) held,
            SmallestFirst.rest_batch (Nat.min_le_left limit.toInt.toNat 100) held, ← hlen]
          refine ⟨s₂, t₂, ns₂, batch ++ more, rfl, ?_, h₂⟩
          rw [List.map_append, hbatch, hmore]

/-! ## Runs -/

/-- One number: the output is the reference's and so is what is held. -/
theorem processNumber_spec {write : WriteIntBuffer} (hwrite : WritesAll write) {s : Store}
    {t : Tree} {ns : List Int} {held : Multiset Int} (number : Word) (out : List Word)
    (h : Keeps s t ns held) (hneg : -2 ^ 31 < number.toInt)
    (hcount : ∀ v, (Reference.step held number.toInt).1.count v < 2 ^ 32) :
    ∃ s' t' ns' more, processNumber write (s, out) number = some (s', out ++ more) ∧
      more.map BitVec.toInt = (Reference.step held number.toInt).2 ∧
      Keeps s' t' ns' (Reference.step held number.toInt).1 := by
  unfold processNumber Reference.step at *
  by_cases hnumber : number.toInt < 0
  · have hlimit : (-number).toInt = -number.toInt := by
      rw [BitVec.toInt_neg]
      exact Int.bmod_eq_of_le (by omega) (by omega)
    have hfuel : (-number).toInt < ((-number).toNat + 1 : Nat) := by
      have hcond := BitVec.toInt_eq_toNat_cond (-number)
      split at hcond <;> omega
    obtain ⟨s', t', ns', taken, hrun, htaken, h'⟩ :=
      takeLoop_spec hwrite ((-number).toNat + 1) (-number) out h (by omega) hfuel
    rw [hlimit] at htaken h'
    simp only [hnumber, ↓reduceIte]
    exact ⟨s', t', ns', taken, hrun, htaken, h'⟩
  · simp only [hnumber, ↓reduceIte] at hcount ⊢
    have hfits := hcount number.toInt
    rw [Multiset.count_cons_self] at hfits
    obtain ⟨s', ns', hrun, h'⟩ := h.addNumber (nonneg_of_toInt hnumber) hfits
    refine ⟨s', _, ns', [], ?_, rfl, h'⟩
    rw [hrun, List.append_nil]
    rfl

/-- A whole input, as long as no counter overflows on the way. -/
theorem foldlM_processNumber {write : WriteIntBuffer} (hwrite : WritesAll write)
    (input : List Word) : ∀ {s : Store} {t : Tree} {ns : List Int} {held : Multiset Int}
      (out : List Word), Keeps s t ns held → Negatable input →
      (∀ before, before <+: input →
        ∀ v, (Reference.run held (before.map BitVec.toInt)).1.count v < 2 ^ 32) →
      ∃ s' t' ns' more, input.foldlM (processNumber write) (s, out) = some (s', out ++ more) ∧
        more.map BitVec.toInt = (Reference.run held (input.map BitVec.toInt)).2 ∧
        Keeps s' t' ns' (Reference.run held (input.map BitVec.toInt)).1 := by
  induction input with
  | nil =>
      intro s t ns held out h _ _
      exact ⟨s, t, ns, [], by rw [List.append_nil]; rfl, rfl, h⟩
  | cons number input ih =>
      intro s t ns held out h hneg hcount
      have hfirst := hcount [number] (List.prefix_append [number] input)
      obtain ⟨s₁, t₁, ns₁, more₁, hstep, hmore₁, h₁⟩ :=
        processNumber_spec hwrite number out h (hneg number List.mem_cons_self) hfirst
      obtain ⟨s₂, t₂, ns₂, more₂, hrun, hmore₂, h₂⟩ := ih (out ++ more₁) h₁
        (fun v hv => hneg v (List.mem_cons_of_mem number hv))
        (fun before hbefore => hcount (number :: before) (List.cons_prefix_cons.mpr ⟨rfl, hbefore⟩))
      refine ⟨s₂, t₂, ns₂, more₁ ++ more₂, ?_, ?_, h₂⟩
      · rw [List.foldlM_cons, hstep]
        rw [← List.append_assoc]
        exact hrun
      · rw [List.map_append, hmore₁, hmore₂]
        rfl

theorem Keeps.run (numbers : List Word) : ∀ {s : Store} {t : Tree} {ns : List Int}
    {before : List Word}, Keeps s t ns (before.map BitVec.toInt : List Int) →
      (∀ v ∈ numbers, v.getLsbD 31 = false) →
      (∀ v, (numbers ++ before).count v < 2 ^ 32) →
      ∃ s' t' ns', numbers.foldlM Radix.addNumber s = some s' ∧
        Keeps s' t' ns' ((numbers.reverse ++ before).map BitVec.toInt : List Int) := by
  induction numbers with
  | nil =>
      intro s t ns before h _ _
      exact ⟨s, t, ns, rfl, h⟩
  | cons number numbers ih =>
      intro s t ns before h hnonneg hcount
      have hinj : Function.Injective (BitVec.toInt : Word → Int) :=
        fun _ _ => BitVec.eq_of_toInt_eq
      have hnumber := hcount number
      rw [List.cons_append, List.count_cons_self, List.count_append] at hnumber
      have hfits : Multiset.count number.toInt (before.map BitVec.toInt : List Int) + 1 < 2 ^ 32 := by
        rw [Multiset.coe_count, List.count_map_of_injective _ _ hinj]
        omega
      obtain ⟨s₁, ns₁, hstep, h₁⟩ := h.addNumber (hnonneg number List.mem_cons_self) hfits
      have h₁' : Keeps s₁ _ ns₁ ((number :: before).map BitVec.toInt : List Int) := h₁
      obtain ⟨s', t', ns', hrun, h'⟩ :=
        ih h₁' (fun v hv => hnonneg v (List.mem_cons_of_mem number hv)) (by
          intro v
          rw [List.perm_middle.count_eq]
          exact hcount v)
      refine ⟨s', t', ns', ?_, ?_⟩
      · rw [List.foldlM_cons, hstep]
        exact hrun
      · rw [List.reverse_cons, List.append_assoc]
        exact h'

/-- Where the input is cut into chunks does not matter. -/
theorem readLoop_eq {write : WriteIntBuffer} (chunks : List (List Word)) :
    ∀ st, Chunks chunks →
      readLoop write chunks st = chunks.flatten.foldlM (processNumber write) st := by
  induction chunks with
  | nil =>
      intro st _
      rfl
  | cons numbers chunks ih =>
      intro st hchunks
      obtain ⟨hpos, hle⟩ := hchunks numbers List.mem_cons_self
      have hread : (BitVec.ofNat 32 numbers.length).toInt = numbers.length :=
        toInt_ofNat_small (by omega)
      have hcontinue : ¬(numbers.length : Int) ≤ 0 := by omega
      have hrest : Chunks chunks := fun n hn => hchunks n (List.mem_cons_of_mem numbers hn)
      rw [List.flatten_cons, List.foldlM_append, readLoop]
      simp only [hread, hcontinue, ↓reduceIte, Int.toNat_natCast, List.take_length]
      apply congrArg (numbers.foldlM (processNumber write) st).bind
      funext st'
      exact ih st' hrest

/-- After the last number the tree is released. -/
theorem main_eq {write : WriteIntBuffer} {h : Heap} {chunks : List (List Word)} {s : Store}
    {t : Tree} {ns : List Int} {out : List Word} (hchunks : Chunks chunks)
    (hrun : chunks.flatten.foldlM (processNumber write) (start h, []) = some (s, out))
    (hholds : Holds s t ns) : ∃ s', main write h chunks = some (s', out) := by
  have hfuel : 30 < 32 := by decide
  obtain ⟨s', _, hrelease, -⟩ := releaseTree_spec t hfuel (by decide) hholds.bounded
    hholds.subtree.nodes hholds.subtree.represents
  refine ⟨s', ?_⟩
  rw [main, readLoop_eq chunks _ hchunks, hrun]
  simp only [Option.bind_eq_bind, Option.bind_some, hrelease]
  rfl

/-! ## How far the heap goes -/

theorem takeLoop_grows {write : WriteIntBuffer} (fuel : Nat) : ∀ {s s' : Store}
    {out out' : List Word} {limit : Word},
    takeLoop write fuel s out limit = some (s', out') → Grows 0 s.heap s'.heap := by
  induction fuel with
  | zero =>
    intro s s' out out' limit h
    cases h
  | succ fuel ih =>
    intro s s' out out' limit h
    rw [takeLoop] at h
    split at h
    case isTrue =>
      obtain ⟨⟨s₁, outNumbers⟩, htake, h⟩ := Option.bind_eq_some_iff.mp h
      obtain ⟨out₁, -, h⟩ := Option.bind_eq_some_iff.mp h
      have hgrows := takeNumbers_grows htake
      dsimp only at h
      split at h
      case isTrue =>
        cases h
        exact hgrows
      case isFalse => exact hgrows.trans (ih h)
    case isFalse =>
      cases h
      exact .refl s.heap

theorem processNumber_grows {write : WriteIntBuffer} {st st' : Store × List Word} {number : Word}
    (h : processNumber write st number = some st') : Grows 480 st.1.heap st'.1.heap := by
  rw [processNumber] at h
  split at h
  case isTrue => exact (takeLoop_grows _ h).mono (by decide)
  case isFalse =>
    obtain ⟨s, hadd, hst'⟩ := Option.bind_eq_some_iff.mp h
    cases hst'
    exact addNumber_grows hadd

theorem foldlM_grows {write : WriteIntBuffer} (input : List Word) : ∀ {st st' : Store × List Word},
    input.foldlM (processNumber write) st = some st' →
      Grows (480 * input.length) st.1.heap st'.1.heap := by
  induction input with
  | nil =>
    intro st st' h
    cases h
    exact .refl st.1.heap
  | cons number input ih =>
    intro st st' h
    obtain ⟨st₁, hstep, hrest⟩ := Transition.run_cons.mp h
    refine ((processNumber_grows hstep).trans (ih hrest)).mono ?_
    rw [List.length_cons]
    push_cast
    omega

/-- An input of this many numbers fits, whatever they are. -/
theorem HeapFits.of_length {write : WriteIntBuffer} {h : Heap} {chunks : List (List Word)}
    (hchunks : Chunks chunks) (hlength : chunks.flatten.length ≤ 8877942) :
    HeapFits write h chunks := by
  intro s out hrun
  obtain ⟨⟨s₁, out₁⟩, hread, hrun⟩ := Option.bind_eq_some_iff.mp hrun
  obtain ⟨s₂, hrelease, hs⟩ := Option.bind_eq_some_iff.mp hrun
  cases hs
  rw [readLoop_eq chunks _ hchunks] at hread
  obtain ⟨-, hup⟩ := (foldlM_grows _ hread).trans (releaseTree_grows 32 hrelease)
  have hstart : (start h).heap.freeSpace = 33554432 := rfl
  dsimp only at hup
  rw [Below]
  omega

/-! ## The program -/

/-- The output is that of the reference, as long as no value is held 2 ^ 32 times and the heap ends
below 2^32. -/
theorem main_refines_multiset (write : WriteIntBuffer) (h : Heap) (chunks : List (List Word))
    (hwrite : WritesAll write) (hchunks : Chunks chunks) (hneg : Negatable chunks.flatten)
    (hcount : CountersFit chunks.flatten) (hheap : HeapFits write h chunks) :
    ∃ s out, main32 write h chunks = some (s, out) ∧
      out.map BitVec.toInt = (Reference.run 0 (chunks.flatten.map BitVec.toInt)).2 := by
  obtain ⟨s, t, ns, out, hrun, hout, hkeeps⟩ :=
    foldlM_processNumber hwrite chunks.flatten [] (start_keeps h) hneg hcount
  obtain ⟨s', hmain⟩ := main_eq hchunks hrun hkeeps.holds
  refine ⟨s', out, ?_, hout⟩
  exact Option.filter_eq_some_iff.mpr ⟨hmain, decide_eq_true (hheap s' out hmain)⟩

theorem Reference.card_run (input : List Int) : ∀ held,
    (Reference.run held input).1.card ≤ held.card + input.length := by
  induction input with
  | nil =>
      intro held
      exact Nat.le_refl _
  | cons v input ih =>
      intro held
      have hstep : (Reference.step held v).1.card ≤ held.card + 1 := by
        unfold Reference.step
        split
        · have hle := Multiset.card_le_card
            (Multiset.sub_le_self held (smallest (-v).toNat held : Multiset Int))
          exact Nat.le_succ_of_le hle
        · rw [Multiset.card_cons]
      have hrun := ih (Reference.step held v).1
      rw [Reference.run, List.length_cons]
      simp only
      omega

/-- No counter overflows on an input of less than 2 ^ 32 numbers. -/
theorem CountersFit.of_length {input : List Word} (h : input.length < 2 ^ 32) :
    CountersFit input := by
  intro before hbefore v
  have hcount := Multiset.count_le_card v (Reference.run 0 (before.map BitVec.toInt)).1
  have hcard := Reference.card_run (before.map BitVec.toInt) 0
  have hlen := hbefore.length_le
  rw [Multiset.card_zero, List.length_map] at hcard
  omega

theorem main_refines_multiset_batch :
    ∃ s out, main32 (fun _ size => size) ⟨fun _ => 0, 0, false, fun _ => 0⟩
        [[5, 3], [5, -2], [-7]] = some (s, out) ∧
      out.map BitVec.toInt = (Reference.run 0 [5, 3, 5, -2, -7]).2 := by
  have hchunks : Chunks [[5, 3], [5, -2], [-7]] := by
    unfold Chunks
    decide
  have hneg : Negatable [[5, 3], [5, -2], [-7]].flatten := by
    have hall : ([[5, 3], [5, -2], [-7]].flatten.all fun v : Word => -7 ≤ v.toInt) = true := by
      decide
    intro v hv
    have hle := of_decide_eq_true (List.all_eq_true.mp hall v hv)
    omega
  have hlen : [[5, 3], [5, -2], [(-7 : Word)]].flatten.length = 5 := by decide
  exact main_refines_multiset _ _ _ (fun _ _ => rfl) hchunks hneg (.of_length (by omega))
    (.of_length hchunks (by omega))

/-! ## A counter that wraps -/

theorem add_zero_leaf (c : Word) : (Tree.leaf 0 c 0).add 0 30 = .leaf 0 (c + 1) 0 := by
  have hdiff : difference 30 0 0 0 = 0 := by decide
  rw [Tree.add, hdiff]
  rfl

/-- Zeros are counted modulo 2 ^ 32. -/
theorem foldlM_zeros (write : WriteIntBuffer) (n : Nat) : ∀ {s : Store} {c : Word} {ns : List Int},
    Holds s (.leaf 0 c 0) ns →
      ∃ s' ns', (List.replicate n (0 : Word)).foldlM (processNumber write) (s, []) =
          some (s', []) ∧
        Holds s' (.leaf 0 (c + BitVec.ofNat 32 n) 0) ns' := by
  induction n with
  | zero =>
      intro s c ns h
      exact ⟨s, ns, rfl, by simpa using h⟩
  | succ n ih =>
      intro s c ns h
      obtain ⟨s₁, ns₁, hadd, h₁⟩ := h.addNumber 0
      rw [add_zero_leaf] at h₁
      obtain ⟨s₂, ns₂, hrun, h₂⟩ := ih h₁
      have hcount : c + 1 + BitVec.ofNat 32 n = c + BitVec.ofNat 32 (n + 1) := by
        rw [Nat.add_comm n 1, BitVec.ofNat_add, BitVec.add_assoc]
        rfl
      have hstep : processNumber write (s, []) 0 = some (s₁, []) := by
        rw [processNumber, if_neg (by decide), hadd]
        rfl
      rw [hcount] at h₂
      refine ⟨s₂, ns₂, ?_, h₂⟩
      rw [List.replicate_succ, List.foldlM_cons, hstep]
      exact hrun

theorem Reference.run_append (input more : List Int) : ∀ held,
    Reference.run held (input ++ more) =
      ((Reference.run (Reference.run held input).1 more).1,
        (Reference.run held input).2 ++ (Reference.run (Reference.run held input).1 more).2) := by
  induction input with
  | nil =>
      intro held
      rfl
  | cons v input ih =>
      intro held
      simp only [List.cons_append, Reference.run, ih, List.append_assoc]

theorem Reference.run_zeros (n : Nat) : ∀ held,
    Reference.run held (List.replicate n 0) = (Multiset.replicate n 0 + held, []) := by
  induction n with
  | zero =>
      intro held
      rw [Multiset.replicate_zero, zero_add]
      rfl
  | succ n ih =>
      intro held
      rw [List.replicate_succ, Reference.run, Reference.step, if_neg (by decide)]
      simp only [ih, List.nil_append, Multiset.replicate_succ, Multiset.add_cons,
        Multiset.cons_add]

/-- Zeros and a request for one number. -/
def zerosThenTake (n : Nat) : List (List Word) := List.replicate n [0] ++ [[-1]]

theorem zerosThenTake_flatten (n : Nat) :
    (zerosThenTake n).flatten = List.replicate n 0 ++ [-1] := by
  rw [zerosThenTake, List.flatten_append, List.flatten_replicate_singleton]
  rfl

theorem zerosThenTake_chunks (n : Nat) : Chunks (zerosThenTake n) := by
  intro numbers hnumbers
  cases List.mem_append.mp hnumbers with
  | inl hzero =>
      rw [(List.mem_replicate.mp hzero).2]
      decide
  | inr htake =>
      rw [List.mem_singleton.mp htake]
      decide

theorem zerosThenTake_negatable (n : Nat) : Negatable (zerosThenTake n).flatten := by
  have hzero : (0 : Word).toInt = 0 := by decide
  have htake : (-1 : Word).toInt = -1 := by decide
  intro v hv
  rw [zerosThenTake_flatten] at hv
  cases List.mem_append.mp hv with
  | inl h =>
      rw [(List.mem_replicate.mp h).2, hzero]
      omega
  | inr h =>
      rw [List.mem_singleton.mp h, htake]
      omega

theorem zerosThenTake_reference (n : Nat) :
    (Reference.run 0 ((zerosThenTake (n + 1)).flatten.map BitVec.toInt)).2 = [0] := by
  have hzero : (0 : Word).toInt = 0 := by decide
  have htake : [(-1 : Word)].map BitVec.toInt = [-1] := by decide
  have hsorted : (List.replicate (n + 1) (0 : Int)).Pairwise (· ≤ ·) :=
    List.pairwise_replicate.mpr (Or.inr (Int.le_refl 0))
  rw [zerosThenTake_flatten, List.map_append, List.map_replicate, hzero, htake,
    Reference.run_append, Reference.run_zeros, add_zero, ← Multiset.coe_replicate]
  simp only [Reference.run, Reference.step, List.nil_append, List.append_nil,
    SmallestFirst.smallest_coe hsorted]
  rfl

/-- A counter that has come back to zero is taken for an empty one. -/
theorem zerosThenTake_main {write : WriteIntBuffer} (hwrite : WritesAll write) (h : Heap) {n : Nat}
    (hn : 1 + BitVec.ofNat 32 n = 0) : ∃ s, main write h (zerosThenTake (n + 1)) = some (s, []) := by
  obtain ⟨s₁, ns₁, hadd, h₁⟩ := (start_holds h).addNumber 0
  have hleaf : Tree.nil.add 0 30 = .leaf 0 1 0 := by decide
  rw [hleaf] at h₁
  have hfirst : processNumber write (start h, []) 0 = some (s₁, []) := by
    rw [processNumber, if_neg (by decide), hadd]
    rfl
  obtain ⟨s₂, ns₂, hzeros, h₂⟩ := foldlM_zeros write n h₁
  rw [hn] at h₂
  have hkeeps : Keeps s₂ (.leaf 0 0 0) ns₂ 0 := by
    refine ⟨h₂, trivial, ?_, rfl⟩
    intro x hx
    rw [List.mem_singleton.mp hx]
    rfl
  have hstep : Reference.step 0 (-1 : Word).toInt = (0, []) := by
    rw [Reference.step, if_pos (by decide), SmallestFirst.rest_zero, SmallestFirst.smallest_zero]
  obtain ⟨s₃, t₃, ns₃, more, htake, hmore, h₃⟩ :=
    processNumber_spec hwrite (-1) [] hkeeps (by decide) (by rw [hstep]; simp)
  rw [hstep] at hmore
  rw [List.map_eq_nil_iff.mp hmore] at htake
  refine main_eq (zerosThenTake_chunks (n + 1)) ?_ h₃.holds
  rw [zerosThenTake_flatten, List.foldlM_append, List.replicate_succ, List.foldlM_cons, hfirst]
  simp only [Option.bind_eq_bind, Option.bind_some, hzeros, List.foldlM_cons, htake]
  rfl

end CompSys.Radix
