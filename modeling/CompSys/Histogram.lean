import CompSys.Workers
import Mathlib.Algebra.BigOperators.Group.List.Basic
import Mathlib.Data.BitVec
import Mathlib.Tactic.Abel

/-!
# Histograms of bits

`histogram.h` and the sequential `fhistogram.c` of A2. The counters are machine integers,
and a histogram that is merged is only moved: after any batches the counts add up to those
of the bytes that were read.
-/
namespace CompSys.Histograms

open Workers

/-- `int histogram[8]`. -/
abbrev Histogram := Fin 8 → BitVec 32

/-- The first cell. -/
instance instNeZeroEight : NeZero 8 := ⟨by decide⟩

def updateHistogram (histogram : Histogram) (byte : UInt8) : Histogram :=
  fun i => if byte.toNat &&& (1 <<< i.val) ≠ 0 then histogram i + 1 else histogram i

/-- One round of the loop in `merge_histogram`. -/
def mergeStep (histograms : Histogram × Histogram) (i : Fin 8) : Histogram × Histogram :=
  let (source, target) := histograms
  (Function.update source i 0, Function.update target i (target i + source i))

def mergeHistogram (source target : Histogram) : Histogram × Histogram :=
  (List.finRange 8).foldl mergeStep (source, target)

/-- `while (fread(&c, sizeof(c), 1, f) == 1)`, with both histograms at its end. -/
def readLoop (batch : BitVec 32) (bytes : List UInt8) (i : BitVec 32)
    (localHistogram globalHistogram : Histogram) : Histogram × Histogram :=
  match bytes with
  | [] => (localHistogram, globalHistogram)
  | c :: rest =>
    let i := i + 1
    let localHistogram := updateHistogram localHistogram c
    if i.srem batch = 0 then
      let (localHistogram, globalHistogram) := mergeHistogram localHistogram globalHistogram
      readLoop batch rest i localHistogram globalHistogram
    else readLoop batch rest i localHistogram globalHistogram

/-- A file that cannot be opened leaves the histogram alone. -/
def fhistogram (files : String → Option (List UInt8)) (path : String)
    (globalHistogram : Histogram) : Histogram :=
  match files path with
  | none => globalHistogram
  | some bytes =>
    let (localHistogram, globalHistogram) := readLoop 100000 bytes 0 0 globalHistogram
    (mergeHistogram localHistogram globalHistogram).2

/-- The global histogram when `main` returns. -/
def fhistogramMain (files : String → Option (List UInt8)) (entries : List (FtsInfo × String)) :
    Histogram :=
  entries.foldl (fun globalHistogram entry =>
    match entry.1 with
    | .directory => globalHistogram
    | .file => fhistogram files entry.2 globalHistogram
    | .other => globalHistogram) 0

/-! ## What is counted -/

def bits (byte : UInt8) : Histogram :=
  fun i => if byte.toNat &&& (1 <<< i.val) ≠ 0 then 1 else 0

def count (bytes : List UInt8) : Histogram := (bytes.map bits).sum

def fileCount (files : String → Option (List UInt8)) (path : String) : Histogram :=
  ((files path).map count).getD 0

@[simp] theorem count_nil : count [] = 0 := rfl

@[simp] theorem count_cons (c : UInt8) (rest : List UInt8) :
    count (c :: rest) = bits c + count rest := by
  simp [count]

/-- The bytes in which a bit is set. -/
def bitCount (bytes : List UInt8) (i : Fin 8) : ℕ :=
  bytes.countP fun c => c.toNat &&& (1 <<< i.val) ≠ 0

theorem count_append (bytes bytes' : List UInt8) :
    count (bytes ++ bytes') = count bytes + count bytes' := by
  simp [count]

/-- A counter is the number of these bytes, modulo `2 ^ 32`. -/
theorem count_apply (bytes : List UInt8) (i : Fin 8) :
    count bytes i = BitVec.ofNat 32 (bitCount bytes i) := by
  induction bytes with
  | nil => rfl
  | cons c rest ih =>
    have hcons : bitCount (c :: rest) i =
        bitCount rest i + if c.toNat &&& (1 <<< i.val) ≠ 0 then 1 else 0 := by
      simp [bitCount, List.countP_cons]
    rw [count_cons, Pi.add_apply, ih, hcons, BitVec.ofNat_add, add_comm, bits]
    split <;> rfl

theorem updateHistogram_eq (histogram : Histogram) (byte : UInt8) :
    updateHistogram histogram byte = histogram + bits byte := by
  funext i
  by_cases h : byte.toNat &&& (1 <<< i.val) = 0 <;> simp [updateHistogram, bits, h]

/-- The rounds for some cells move these and leave the others. -/
theorem foldl_mergeStep (cells : List (Fin 8)) (hcells : cells.Nodup)
    (source target : Histogram) :
    cells.foldl mergeStep (source, target) =
      (fun i => if i ∈ cells then 0 else source i,
        fun i => if i ∈ cells then target i + source i else target i) := by
  induction cells generalizing source target with
  | nil => simp
  | cons cell cells ih =>
    obtain ⟨hnew, hrest⟩ := List.nodup_cons.mp hcells
    rw [List.foldl_cons, mergeStep, ih hrest]
    apply Prod.ext
    · funext i
      by_cases hi : i = cell <;> simp [hi]
    · funext i
      by_cases hi : i = cell
      · simp [hi, hnew]
      · simp [hi]

theorem mergeHistogram_eq (source target : Histogram) :
    mergeHistogram source target = (0, target + source) := by
  rw [mergeHistogram, foldl_mergeStep _ (List.nodup_finRange 8)]
  apply Prod.ext <;> funext i <;> simp [List.mem_finRange]

/-- The cells before the one that a merge has come to are zero. -/
def ZeroBefore (cell : Fin 8) (histogram : Histogram) : Prop := ∀ k < cell, histogram k = 0

theorem zeroBefore_zero (histogram : Histogram) : ZeroBefore 0 histogram :=
  fun k hk => absurd hk (Fin.not_lt_zero k)

theorem ZeroBefore.next {cell : Fin 8} {histogram : Histogram} (h : ZeroBefore cell histogram)
    (hlt : cell.val + 1 < 8) :
    ZeroBefore ⟨cell.val + 1, hlt⟩ (Function.update histogram cell 0) := by
  intro k hk
  by_cases heq : k = cell
  · rw [heq, Function.update_self]
  · rw [Function.update_of_ne heq]
    apply h
    rw [Fin.lt_def] at hk ⊢
    have hne : k.val ≠ cell.val := fun hval => heq (Fin.ext hval)
    simp only at hk
    omega

/-- After the last cell nothing is left. -/
theorem ZeroBefore.last {cell : Fin 8} {histogram : Histogram} (h : ZeroBefore cell histogram)
    (hlast : ¬ cell.val + 1 < 8) : Function.update histogram cell 0 = 0 := by
  funext k
  by_cases heq : k = cell
  · rw [heq, Function.update_self]
    rfl
  · rw [Function.update_of_ne heq]
    apply h
    have hne : k.val ≠ cell.val := fun hval => heq (Fin.ext hval)
    have hk := k.isLt
    rw [Fin.lt_def]
    omega

/-- No batch size loses a count. -/
theorem readLoop_sum (batch : BitVec 32) (bytes : List UInt8) (i : BitVec 32)
    (localHistogram globalHistogram : Histogram) :
    (readLoop batch bytes i localHistogram globalHistogram).2 +
        (readLoop batch bytes i localHistogram globalHistogram).1 =
      globalHistogram + localHistogram + count bytes := by
  induction bytes generalizing i localHistogram globalHistogram with
  | nil => simp [readLoop]
  | cons c rest ih =>
    simp only [readLoop, mergeHistogram_eq]
    split
    · rw [ih, updateHistogram_eq, count_cons]
      abel
    · rw [ih, updateHistogram_eq, count_cons]
      abel

theorem fhistogram_eq (files : String → Option (List UInt8)) (path : String)
    (globalHistogram : Histogram) :
    fhistogram files path globalHistogram = globalHistogram + fileCount files path := by
  unfold fhistogram fileCount
  cases files path with
  | none => simp
  | some bytes =>
    simp only [mergeHistogram_eq, readLoop_sum]
    simp

theorem foldl_fhistogram (files : String → Option (List UInt8)) (paths : List String)
    (globalHistogram : Histogram) :
    paths.foldl (fun globalHistogram path => fhistogram files path globalHistogram)
        globalHistogram =
      globalHistogram + (paths.map (fileCount files)).sum := by
  induction paths generalizing globalHistogram with
  | nil => simp
  | cons path paths ih =>
    rw [List.foldl_cons, ih, fhistogram_eq, List.map_cons, List.sum_cons, add_assoc]

/-- The switch on `fts_info` picks the paths that the other program pushes. -/
theorem fhistogramMain_jobs (files : String → Option (List UInt8))
    (entries : List (FtsInfo × String)) :
    fhistogramMain files entries = (ftsJobs entries).foldl
      (fun globalHistogram path => fhistogram files path globalHistogram) 0 := by
  unfold fhistogramMain
  generalize (0 : Histogram) = globalHistogram
  induction entries generalizing globalHistogram with
  | nil => rfl
  | cons entry entries ih =>
    obtain ⟨info, path⟩ := entry
    cases info with
    | file => exact ih (fhistogram files path globalHistogram)
    | directory | other => exact ih globalHistogram

theorem fhistogramMain_eq (files : String → Option (List UInt8))
    (entries : List (FtsInfo × String)) :
    fhistogramMain files entries = ((ftsJobs entries).map (fileCount files)).sum := by
  rw [fhistogramMain_jobs, foldl_fhistogram, zero_add]

end CompSys.Histograms
