import CompSys.PythonText

/-!
# Telling files apart by their bytes

`CheckType` of `file.c` reads a file into memory and decides in one pass over its bytes.
The scan returns at the first byte that decides, and counts the continuation bytes that the
last header byte has announced. The length of the file goes through an `int`.
-/
namespace CompSys.FileType

inductive FileTypes where
  | empty | ascii | iso | utf | data
  deriving DecidableEq, Repr

/-- The three rules for header bytes. -/
def header (first last : UInt8) (announced : ℕ) (byte : UInt8) (byteMissing : ℕ) :
    Except FileTypes ℕ :=
  if first ≤ byte ∧ byte ≤ last then
    -- another header byte while continuation bytes are missing
    if byteMissing ≠ 0 then .error .iso else .ok announced
  else .ok byteMissing

/-- The rule for continuation bytes. -/
def continuation (byte : UInt8) (byteMissing : ℕ) : Except FileTypes ℕ :=
  if byteMissing ≠ 0 ∧ 0xA0 ≤ byte ∧ byte ≤ 0xBF then
    if byteMissing - 1 = 0 then .error .utf else .ok (byteMissing - 1)
  else .ok byteMissing

/-- The body of the `for` loop: an answer that is returned, or the counter after it. -/
def iteration (byteMissing : ℕ) (byte : UInt8) : Except FileTypes ℕ :=
  if byte = 0x0 then .error .data
  else if 0x80 ≤ byte ∧ byte ≤ 0x9F then .error .utf
  else if byteMissing = 0 ∧ 0x80 ≤ byte ∧ byte ≤ 0xBF then .error .iso
  else do
    let byteMissing ← header 0xC0 0xDF 1 byte byteMissing
    let byteMissing ← header 0xE0 0xEF 2 byte byteMissing
    let byteMissing ← header 0xF0 0xF7 3 byte byteMissing
    continuation byte byteMissing

/-- The loop over the buffer, and what follows it. -/
def scan (byteMissing : ℕ) : List UInt8 → FileTypes
  | [] => if byteMissing ≠ 0 then .iso else .ascii
  | byte :: rest =>
    match iteration byteMissing byte with
    | .error answer => answer
    | .ok byteMissing => scan byteMissing rest

/-- `int size = ftell(file)`. -/
def fileSize (file : List UInt8) : ℤ := (file.length : ℤ).bmod (2 ^ 32)

/-- For a negative size the `for` loop has no iteration: the buffer is not looked at. -/
def checkType (file : List UInt8) : FileTypes :=
  if fileSize file = 0 then .empty
  else scan 0 (file.take (fileSize file).toNat)

/-! ## The bytes that the rules tell apart -/

/-- No rule matches: ASCII without NUL, and the bytes from 0xF8 on. -/
def Skipped (b : UInt8) : Prop := (0x01 ≤ b ∧ b ≤ 0x7F) ∨ 0xF8 ≤ b

/-- Unused bytes in ISO. -/
def Unused (b : UInt8) : Prop := 0x80 ≤ b ∧ b ≤ 0x9F

/-- The continuation bytes that ISO uses too. -/
def Continues (b : UInt8) : Prop := 0xA0 ≤ b ∧ b ≤ 0xBF

/-- The number of continuation bytes that a header byte announces. -/
def announced (b : UInt8) : ℕ :=
  if 0xC0 ≤ b ∧ b ≤ 0xDF then 1
  else if 0xE0 ≤ b ∧ b ≤ 0xEF then 2
  else if 0xF0 ≤ b ∧ b ≤ 0xF7 then 3
  else 0

instance (b : UInt8) : Decidable (Skipped b) := inferInstanceAs (Decidable (_ ∨ _))
instance (b : UInt8) : Decidable (Unused b) := inferInstanceAs (Decidable (_ ∧ _))
instance (b : UInt8) : Decidable (Continues b) := inferInstanceAs (Decidable (_ ∧ _))

theorem announced_cases {b : UInt8} (h : 0 < announced b) :
    (0xC0 ≤ b ∧ b ≤ 0xDF ∧ announced b = 1) ∨ (0xE0 ≤ b ∧ b ≤ 0xEF ∧ announced b = 2) ∨
      (0xF0 ≤ b ∧ b ≤ 0xF7 ∧ announced b = 3) := by
  unfold announced at *
  split_ifs at * with h₁ h₂ h₃
  · exact .inl ⟨h₁.1, h₁.2, rfl⟩
  · exact .inr (.inl ⟨h₂.1, h₂.2, rfl⟩)
  · exact .inr (.inr ⟨h₃.1, h₃.2, rfl⟩)
  · exact absurd h (lt_irrefl 0)

theorem announced_pos {b : UInt8} : 0 < announced b ↔ 0xC0 ≤ b ∧ b ≤ 0xF7 := by
  unfold announced
  simp only [UInt8.le_iff_toNat_le, UInt8.reduceToNat]
  split_ifs <;> omega

/-- Every byte is of one kind. -/
theorem byte_kinds (b : UInt8) :
    b = 0 ∨ Skipped b ∨ Unused b ∨ Continues b ∨ 0 < announced b := by
  simp only [announced_pos, Skipped, Unused, Continues, UInt8.le_iff_toNat_le, ← UInt8.toNat_inj,
    UInt8.reduceToNat]
  omega

theorem Skipped.apart {b : UInt8} (h : Skipped b) : ¬ Continues b ∧ ¬ 0 < announced b := by
  simp only [announced_pos, Skipped, Continues, UInt8.le_iff_toNat_le, UInt8.reduceToNat] at *
  omega

theorem Unused.apart {b : UInt8} (h : Unused b) :
    ¬ Skipped b ∧ ¬ Continues b ∧ ¬ 0 < announced b := by
  simp only [announced_pos, Skipped, Unused, Continues, UInt8.le_iff_toNat_le,
    UInt8.reduceToNat] at *
  omega

theorem Continues.apart {b : UInt8} (h : Continues b) : ¬ Skipped b ∧ ¬ 0 < announced b := by
  simp only [announced_pos, Skipped, Continues, UInt8.le_iff_toNat_le, UInt8.reduceToNat] at *
  omega

theorem header_apart {b : UInt8} (h : 0 < announced b) : ¬ Skipped b ∧ ¬ Continues b := by
  simp only [announced_pos, Skipped, Continues, UInt8.le_iff_toNat_le, UInt8.reduceToNat] at *
  omega

section Iteration

variable {m : ℕ} {b : UInt8}

theorem iteration_nul (m : ℕ) : iteration m 0 = .error .data := if_pos rfl

theorem iteration_skipped (h : Skipped b) : iteration m b = .ok m := by
  simp only [iteration, header, continuation, Skipped, UInt8.le_iff_toNat_le, ← UInt8.toNat_inj,
    UInt8.reduceToNat] at *
  simp (disch := omega) only [if_neg, bind, Except.bind]

theorem iteration_unused (h : Unused b) : iteration m b = .error .utf := by
  have hne : b ≠ 0 := by
    rintro rfl
    exact absurd h (by decide)
  exact (if_neg hne).trans (if_pos h)

/-- A continuation byte is ISO if none is missing, and otherwise counts. -/
theorem iteration_continues (h : Continues b) :
    iteration m b =
      if m = 0 then .error .iso else if m = 1 then .error .utf else .ok (m - 1) := by
  simp only [iteration, header, continuation, Continues, UInt8.le_iff_toNat_le, ← UInt8.toNat_inj,
    UInt8.reduceToNat] at *
  rcases Nat.lt_trichotomy m 1 with hm | hm | hm <;>
    simp (disch := omega) only [if_neg, if_pos, bind, Except.bind]

/-- A header byte is ISO while continuation bytes are missing. -/
theorem iteration_header (h : 0 < announced b) :
    iteration m b = if m = 0 then .ok (announced b) else .error .iso := by
  rcases announced_cases h with ⟨h₁, h₂, hn⟩ | ⟨h₁, h₂, hn⟩ | ⟨h₁, h₂, hn⟩ <;>
    rcases Nat.eq_zero_or_pos m with hm | hm <;>
    simp only [hn, iteration, header, continuation, UInt8.le_iff_toNat_le, ← UInt8.toNat_inj,
      UInt8.reduceToNat] at * <;>
    simp (disch := omega) only [if_neg, if_pos, bind, Except.bind]

/-- The bytes after which the loop goes on while continuation bytes are missing. -/
theorem iteration_ok_missing {m₁ : ℕ} (hm : 0 < m) :
    iteration m b = .ok m₁ ↔ (Skipped b ∧ m₁ = m) ∨ (Continues b ∧ m₁ + 1 = m ∧ 0 < m₁) := by
  have hne : m ≠ 0 := Nat.pos_iff_ne_zero.mp hm
  rcases byte_kinds b with rfl | h | h | h | h
  · simp [iteration_nul, Skipped, Continues]
  · simp [iteration_skipped h, h, h.apart, eq_comm]
  · simp [iteration_unused h, h.apart]
  · rw [iteration_continues h, if_neg hne]
    split_ifs with hone
    · simp [h.apart]
      omega
    · simp [h, h.apart]
      omega
  · simp [iteration_header h, hne, header_apart h]

/-- The bytes after which the loop goes on while no continuation byte is missing. -/
theorem iteration_ok_zero {m₁ : ℕ} :
    iteration 0 b = .ok m₁ ↔ (Skipped b ∧ m₁ = 0) ∨ (0 < announced b ∧ m₁ = announced b) := by
  rcases byte_kinds b with rfl | h | h | h | h
  · simp [iteration_nul, Skipped, announced_pos]
  · simp [iteration_skipped h, h, h.apart.2, eq_comm]
  · simp [iteration_unused h, h.apart]
  · simp [iteration_continues h, h.apart]
  · simp [iteration_header h, h, header_apart h, eq_comm]

/-- The bytes that decide for UTF-8. -/
theorem iteration_utf : iteration m b = .error .utf ↔ Unused b ∨ (Continues b ∧ m = 1) := by
  rcases byte_kinds b with rfl | h | h | h | h
  · simp [iteration_nul, Unused, Continues]
  · have hunused : ¬ Unused b := fun hb => hb.apart.1 h
    simp [iteration_skipped h, hunused, h.apart]
  · simp [iteration_unused h, h]
  · have hunused : ¬ Unused b := fun hb => hb.apart.2.1 h
    rw [iteration_continues h]
    split_ifs with hzero hone
    · simp [hunused, hzero]
    · simp [h, hone]
    · simp [hunused, hone]
  · have hunused : ¬ Unused b := fun hb => hb.apart.2.2 h
    rw [iteration_header h]
    split_ifs <;> simp [hunused, header_apart h]

/-- Only NUL makes it data. -/
theorem iteration_data : iteration m b = .error .data ↔ b = 0 := by
  rcases byte_kinds b with rfl | h | h | h | h
  · simp [iteration_nul]
  · have hne : b ≠ 0 := by rintro rfl; exact absurd h (by decide)
    simp [iteration_skipped h, hne]
  · have hne : b ≠ 0 := by rintro rfl; exact absurd h (by decide)
    simp [iteration_unused h, hne]
  · have hne : b ≠ 0 := by rintro rfl; exact absurd h (by decide)
    rw [iteration_continues h]
    split_ifs <;> simp [hne]
  · have hne : b ≠ 0 := by rintro rfl; exact absurd h (by decide)
    rw [iteration_header h]
    split_ifs <;> simp [hne]

theorem iteration_not_ascii : iteration m b ≠ .error .ascii := by
  rcases byte_kinds b with rfl | h | h | h | h
  · simp [iteration_nul]
  · simp [iteration_skipped h]
  · simp [iteration_unused h]
  · rw [iteration_continues h]
    split_ifs <;> simp
  · rw [iteration_header h]
    split_ifs <;> simp

end Iteration

/-! ## What the loop passes over -/

section Scan

/-- The loop goes through bytes without an answer and leaves the counter so. -/
def Passes (m : ℕ) (bytes : List UInt8) (m' : ℕ) : Prop := bytes.foldlM iteration m = .ok m'

theorem passes_nil {m m' : ℕ} : Passes m [] m' ↔ m = m' := by
  simp [Passes, pure, Except.pure]

theorem passes_cons {m m' : ℕ} {b : UInt8} {rest : List UInt8} :
    Passes m (b :: rest) m' ↔ ∃ m₁, iteration m b = .ok m₁ ∧ Passes m₁ rest m' := by
  unfold Passes
  rw [List.foldlM_cons]
  cases iteration m b <;> simp [bind, Except.bind]

theorem passes_append {m m₁ m' : ℕ} {bytes rest : List UInt8} (h : Passes m bytes m₁)
    (hrest : Passes m₁ rest m') : Passes m (bytes ++ rest) m' := by
  unfold Passes at *
  rw [List.foldlM_append, h]
  exact hrest

theorem scan_append {m m' : ℕ} {bytes rest : List UInt8} (h : Passes m bytes m') :
    scan m (bytes ++ rest) = scan m' rest := by
  induction bytes generalizing m with
  | nil =>
    cases passes_nil.mp h
    rfl
  | cons b bytes ih =>
    obtain ⟨m₁, hb, hrest⟩ := passes_cons.mp h
    rw [List.cons_append, scan, hb]
    exact ih hrest

/-- The answer is given at the end, or at the byte that decides. -/
theorem scan_eq_iff {m : ℕ} {bytes : List UInt8} {answer : FileTypes} :
    scan m bytes = answer ↔
      (∃ m', Passes m bytes m' ∧ (if m' ≠ 0 then .iso else .ascii) = answer) ∨
      ∃ before b after m', bytes = before ++ b :: after ∧ Passes m before m' ∧
        iteration m' b = .error answer := by
  constructor
  · intro h
    induction bytes generalizing m with
    | nil => exact .inl ⟨m, passes_nil.mpr rfl, h⟩
    | cons b rest ih =>
      rw [scan] at h
      cases hb : iteration m b with
      | error answer' =>
        rw [hb] at h
        cases h
        exact .inr ⟨[], b, rest, m, rfl, passes_nil.mpr rfl, hb⟩
      | ok m₁ =>
        rw [hb] at h
        rcases ih h with ⟨m', hpass, hend⟩ | ⟨before, b', after, m', heq, hpass, hdecides⟩
        · exact .inl ⟨m', passes_cons.mpr ⟨m₁, hb, hpass⟩, hend⟩
        · exact .inr ⟨b :: before, b', after, m', by rw [heq]; rfl,
            passes_cons.mpr ⟨m₁, hb, hpass⟩, hdecides⟩
  · rintro (⟨m', hpass, hend⟩ | ⟨before, b, after, m', rfl, hpass, hdecides⟩)
    · rw [← hend, ← List.append_nil bytes, scan_append hpass]
      rfl
    · rw [scan_append hpass, scan, hdecides]

theorem passes_skipped {m : ℕ} {bytes : List UInt8} (h : ∀ b ∈ bytes, Skipped b) :
    Passes m bytes m := by
  induction bytes with
  | nil => exact passes_nil.mpr rfl
  | cons b rest ih =>
    rw [List.forall_mem_cons] at h
    exact passes_cons.mpr ⟨m, iteration_skipped h.1, ih h.2⟩

/-- With continuation bytes missing, only skipped bytes and fewer of those are passed. -/
theorem passes_missing {m m' : ℕ} {bytes : List UInt8} (hm : 0 < m) :
    Passes m bytes m' ↔ (∀ b ∈ bytes, Skipped b ∨ Continues b) ∧
      bytes.countP (fun b => Continues b) + m' = m ∧ 0 < m' := by
  induction bytes generalizing m with
  | nil =>
    rw [passes_nil]
    constructor
    · rintro rfl
      exact ⟨by simp, by simp, hm⟩
    · rintro ⟨-, hcount, -⟩
      simpa using hcount.symm
  | cons b rest ih =>
    simp only [passes_cons, iteration_ok_missing hm, List.forall_mem_cons, List.countP_cons,
      decide_eq_true_eq]
    constructor
    · rintro ⟨m₁, ⟨h, rfl⟩ | ⟨h, hm₁, hpos⟩, hpass⟩
      · obtain ⟨hall, hcount, hm'⟩ := (ih hm).mp hpass
        rw [if_neg h.apart.1]
        exact ⟨⟨.inl h, hall⟩, hcount, hm'⟩
      · obtain ⟨hall, hcount, hm'⟩ := (ih hpos).mp hpass
        rw [if_pos h]
        exact ⟨⟨.inr h, hall⟩, by omega, hm'⟩
    · rintro ⟨⟨h | h, hall⟩, hcount, hm'⟩
      · rw [if_neg h.apart.1] at hcount
        exact ⟨m, .inl ⟨h, rfl⟩, (ih hm).mpr ⟨hall, hcount, hm'⟩⟩
      · rw [if_pos h] at hcount
        have hpos : 0 < m - 1 := by omega
        exact ⟨m - 1, .inr ⟨h, by omega, hpos⟩, (ih hpos).mpr ⟨hall, by omega, hm'⟩⟩

/-- The bytes leave the answer open, with so many continuation bytes missing: skipped ones
only, or a header byte among them with fewer continuation bytes behind it than it
announces. -/
inductive Undecided : List UInt8 → ℕ → Prop where
  | skipped {bytes} (h : ∀ b ∈ bytes, Skipped b) : Undecided bytes 0
  | opened {before lead after missing} (skips : ∀ b ∈ before, Skipped b)
      (announces : 0 < announced lead) (follows : ∀ b ∈ after, Skipped b ∨ Continues b)
      (count : after.countP (fun b => Continues b) + missing = announced lead)
      (misses : 0 < missing) : Undecided (before ++ lead :: after) missing

theorem passes_iff {bytes : List UInt8} {m : ℕ} : Passes 0 bytes m ↔ Undecided bytes m := by
  constructor
  · intro h
    induction bytes with
    | nil =>
      cases passes_nil.mp h
      exact .skipped (by simp)
    | cons b rest ih =>
      obtain ⟨m₁, hb, hrest⟩ := passes_cons.mp h
      rcases iteration_ok_zero.mp hb with ⟨hskip, rfl⟩ | ⟨hannounced, rfl⟩
      · cases ih hrest with
        | skipped hall => exact .skipped (List.forall_mem_cons.mpr ⟨hskip, hall⟩)
        | opened skips announces follows count misses =>
          have hskips := List.forall_mem_cons.mpr ⟨hskip, skips⟩
          exact .opened hskips announces follows count misses
      · obtain ⟨hall, hcount, hpos⟩ := (passes_missing hannounced).mp hrest
        have hskips : ∀ b ∈ ([] : List UInt8), Skipped b := by simp
        exact .opened hskips hannounced hall hcount hpos
  · intro h
    cases h with
    | skipped hall => exact passes_skipped hall
    | opened skips announces follows count misses =>
      apply passes_append (passes_skipped skips)
      exact passes_cons.mpr ⟨_, iteration_ok_zero.mpr (.inr ⟨announces, rfl⟩),
        (passes_missing announces).mpr ⟨follows, count, misses⟩⟩

/-- A NUL stands behind bytes that leave the answer open. -/
def MeetsNul (bytes : List UInt8) : Prop :=
  ∃ before after m, bytes = before ++ 0 :: after ∧ Undecided before m

/-- A byte that ISO does not use, or the last missing continuation byte, stands behind bytes
that leave the answer open. -/
def MeetsUtf (bytes : List UInt8) : Prop :=
  ∃ before b after m, bytes = before ++ b :: after ∧ Undecided before m ∧
    (Unused b ∨ (Continues b ∧ m = 1))

theorem scan_data {bytes : List UInt8} : scan 0 bytes = .data ↔ MeetsNul bytes := by
  rw [scan_eq_iff]
  constructor
  · rintro (⟨m, -, hend⟩ | ⟨before, b, after, m, heq, hpass, hdecides⟩)
    · split at hend <;> cases hend
    · cases iteration_data.mp hdecides
      exact ⟨before, after, m, heq, passes_iff.mp hpass⟩
  · rintro ⟨before, after, m, heq, hopen⟩
    exact .inr ⟨before, 0, after, m, heq, passes_iff.mpr hopen, iteration_nul m⟩

theorem scan_utf {bytes : List UInt8} : scan 0 bytes = .utf ↔ MeetsUtf bytes := by
  rw [scan_eq_iff]
  constructor
  · rintro (⟨m, -, hend⟩ | ⟨before, b, after, m, heq, hpass, hdecides⟩)
    · split at hend <;> cases hend
    · exact ⟨before, b, after, m, heq, passes_iff.mp hpass, iteration_utf.mp hdecides⟩
  · rintro ⟨before, b, after, m, heq, hopen, hdecides⟩
    exact .inr ⟨before, b, after, m, heq, passes_iff.mpr hopen, iteration_utf.mpr hdecides⟩

theorem scan_ascii {bytes : List UInt8} : scan 0 bytes = .ascii ↔ ∀ b ∈ bytes, Skipped b := by
  rw [scan_eq_iff]
  constructor
  · rintro (⟨m, hpass, hend⟩ | ⟨before, b, after, m, -, -, hdecides⟩)
    · split at hend
      case isTrue => cases hend
      case isFalse hzero =>
        rw [not_not.mp hzero, passes_iff] at hpass
        cases hpass with
        | skipped h => exact h
        | opened _ _ _ _ misses => exact absurd misses (lt_irrefl 0)
    · exact absurd hdecides iteration_not_ascii
  · intro h
    exact .inl ⟨0, passes_skipped h, rfl⟩

end Scan

/-- The bytes that the loop sees. -/
def scanned (file : List UInt8) : List UInt8 := file.take (fileSize file).toNat

theorem checkType_zero {file : List UInt8} (h : fileSize file = 0) : checkType file = .empty :=
  if_pos h

theorem checkType_ne {file : List UInt8} (h : fileSize file ≠ 0) :
    checkType file = scan 0 (scanned file) := if_neg h

theorem scanned_nonpos {file : List UInt8} (h : fileSize file ≤ 0) : scanned file = [] := by
  rw [scanned, Int.toNat_of_nonpos h, List.take_zero]

/-- A file of less than 2 GiB is scanned whole. -/
theorem fileSize_small {file : List UInt8} (h : file.length < 2147483648) :
    fileSize file = file.length := by
  unfold fileSize
  exact Int.bmod_eq_of_le (by omega) (by omega)

/-- The bytes are the UTF-8 of some text. -/
def WellFormed (bytes : List UInt8) : Prop := ∃ text, PythonText.encode text = bytes

section Soundness

/-- The answers for text and the answer for data are right. -/
def Sound (file : List UInt8) : Prop :=
  (checkType file = .ascii → ∀ b ∈ file, 0x01 ≤ b ∧ b ≤ 0x7F) ∧
  (checkType file = .utf → 0 ∉ file ∧ WellFormed file) ∧
  (0 ∈ file → checkType file = .data)

/-- A NUL stands before any byte that decides for text. Or there is none: then skipped
bytes have to be ASCII, and what looks like UTF-8 has to be UTF-8. -/
def Telling (file : List UInt8) : Prop :=
  MeetsNul (scanned file) ∨
    (0 ∉ file ∧ ((∀ b ∈ scanned file, Skipped b) → ∀ b ∈ file, b ≤ 0x7F) ∧
      (MeetsUtf (scanned file) → WellFormed file))

theorem one_le {b : UInt8} (h : b ≠ 0) : 0x01 ≤ b := by
  simp only [ne_eq, ← UInt8.toNat_inj, UInt8.le_iff_toNat_le, UInt8.reduceToNat] at *
  omega

/-- When the answers are right, exactly. -/
theorem check_type_sound_iff (file : List UInt8) :
    Sound file ↔ if fileSize file = 0 then 0 ∉ file else Telling file := by
  split
  case isTrue hsize =>
    have hanswer := checkType_zero hsize
    constructor
    · intro ⟨_, _, hdata⟩ hnul
      rw [hdata hnul] at hanswer
      cases hanswer
    · intro hnul
      refine ⟨?_, ?_, fun h => absurd h hnul⟩ <;> intro htext <;> rw [htext] at hanswer <;>
        cases hanswer
  case isFalse hsize =>
    simp only [Sound, checkType_ne hsize, scan_ascii, scan_utf, scan_data]
    constructor
    · intro ⟨hascii, hutf, hdata⟩
      by_cases hnul : 0 ∈ file
      · exact .inl (hdata hnul)
      · exact .inr ⟨hnul, fun h b hb => (hascii h b hb).2, fun h => (hutf h).2⟩
    · rintro (hmeets | ⟨hnul, hascii, hutf⟩)
      · have hdata := scan_data.mpr hmeets
        refine ⟨?_, ?_, fun _ => hmeets⟩
        · intro h
          cases hdata.symm.trans (scan_ascii.mpr h)
        · intro h
          cases hdata.symm.trans (scan_utf.mpr h)
      · refine ⟨?_, fun h => ⟨hnul, hutf h⟩, fun h => absurd h hnul⟩
        intro h b hb
        refine ⟨one_le ?_, hascii h b hb⟩
        rintro rfl
        exact hnul hb

/-- A byte that no rule matches is ASCII, a stray continuation byte is UTF-8, also before a
NUL. -/
theorem check_type_unsound :
    checkType [0xFF] = .ascii ∧ ¬ Sound [0xFF] ∧
      checkType [0x80, 0x00] = .utf ∧ ¬ Sound [0x80, 0x00] := by
  have hascii : checkType [0xFF] = .ascii := by decide
  have hutf : checkType [0x80, 0x00] = .utf := by decide
  refine ⟨hascii, ?_, hutf, ?_⟩
  · intro ⟨h, _, _⟩
    exact absurd (h hascii 0xFF List.mem_cons_self) (by decide)
  · intro ⟨_, _, h⟩
    cases hutf.symm.trans (h (by decide))

end Soundness

section Completeness

open PythonText

/-- Text gets its answer. -/
def Complete (file : List UInt8) : Prop :=
  ((∀ b ∈ file, b < 0x80) → checkType file = .ascii) ∧
  (WellFormed file → (∃ b ∈ file, 0x80 ≤ b) → checkType file = .utf)

/-- A file of ASCII is not taken for an empty one. In another text the bytes that the loop
sees reach the end of the first longer character, or a byte that ISO does not use. -/
def ReadFar (file : List UInt8) : Prop :=
  ((∀ b ∈ file, b < 0x80) → fileSize file ≠ 0) ∧
  ∀ before c after, encode (String.ofList (before ++ c :: after)) = file →
    (∀ d ∈ before, d.toNat < 128) → 128 ≤ c.toNat →
      (before.length + c.utf8Size : ℤ) ≤ fileSize file ∨ ∃ b ∈ scanned file, Unused b

theorem skipped_of_ascii {b : UInt8} (hnul : b ≠ 0) (h : b < 0x80) : Skipped b := by
  simp only [ne_eq, ← UInt8.toNat_inj, UInt8.lt_iff_toNat_lt, UInt8.reduceToNat] at *
  exact .inl ⟨UInt8.le_iff_toNat_le.mpr (Nat.one_le_iff_ne_zero.mpr hnul),
    UInt8.le_iff_toNat_le.mpr (Nat.le_of_lt_succ h)⟩

theorem encode_ofList (text : List Char) :
    encode (String.ofList text) = text.flatMap String.utf8EncodeChar := by
  rw [encode, String.toList_ofList]

theorem encode_ascii {text : List Char} (h : ∀ c ∈ text, c.toNat < 128) :
    text.flatMap String.utf8EncodeChar = text.map fun c => UInt8.ofNat c.toNat := by
  induction text with
  | nil => rfl
  | cons c rest ih =>
    rw [List.forall_mem_cons] at h
    rw [List.flatMap_cons, utf8EncodeChar_ascii h.1, ih h.2]
    rfl

theorem ofNat_ascii {c : Char} (h : c.toNat < 128) : UInt8.ofNat c.toNat < 0x80 := by
  rw [UInt8.lt_iff_toNat_lt, UInt8.toNat_ofNat']
  exact (Nat.mod_le _ _).trans_lt h

/-- A header byte announces the bytes that follow it. -/
theorem announced_sequence {lead : UInt8} {tail : List UInt8} (h : Sequence lead tail) :
    announced lead = tail.length ∧ 0 < tail.length := by
  unfold announced
  simp only [UInt8.le_iff_toNat_le, UInt8.reduceToNat]
  rcases h.announces with ⟨hlo, hhi, hlen⟩ | ⟨hlo, hhi, hlen⟩ | ⟨hlo, hhi, hlen⟩ <;>
    simp (disch := omega) only [if_pos, if_neg, hlen, true_and] <;> omega

/-- While bytes between 128 and 191 follow, the answer is UTF-8 from the byte on that ISO does
not use or that is the last one missing. -/
theorem scan_tail {m : ℕ} (hm : 0 < m) {tail : List UInt8}
    (h : ∀ b ∈ tail, 0x80 ≤ b.toNat ∧ b.toNat ≤ 0xBF) (rest : List UInt8)
    (hdecides : m ≤ tail.length ∨ ∃ b ∈ tail, Unused b) : scan m (tail ++ rest) = .utf := by
  induction tail generalizing m with
  | nil => simp at hdecides; omega
  | cons b tail ih =>
    rw [List.forall_mem_cons] at h
    rw [List.cons_append, scan]
    by_cases hunused : Unused b
    · rw [iteration_unused hunused]
    · have hcontinues : Continues b := by
        simp only [Unused, Continues, UInt8.le_iff_toNat_le, UInt8.reduceToNat] at *
        omega
      rw [iteration_continues hcontinues, if_neg (Nat.pos_iff_ne_zero.mp hm)]
      by_cases hone : m = 1
      · rw [if_pos hone]
      · rw [if_neg hone]
        apply ih
        · omega
        · exact h.2
        · rcases hdecides with hlen | ⟨b', hb', hunused'⟩
          · rw [List.length_cons] at hlen
            exact .inl (by omega)
          · rcases List.mem_cons.mp hb' with rfl | hmem
            · exact absurd hunused' hunused
            · exact .inr ⟨b', hmem, hunused'⟩

/-- Cut off before that, the text is ISO. -/
theorem scan_cut {m : ℕ} {tail : List UInt8}
    (h : ∀ b ∈ tail, 0x80 ≤ b.toNat ∧ b.toNat ≤ 0xBF) (hlen : tail.length < m)
    (hnone : ∀ b ∈ tail, ¬ Unused b) : scan m tail = .iso := by
  have hcontinues : ∀ b ∈ tail, Continues b := by
    intro b hb
    have hrange := h b hb
    have hunused := hnone b hb
    simp only [Unused, Continues, UInt8.le_iff_toNat_le, UInt8.reduceToNat] at *
    omega
  have hcount : tail.countP (fun b => Continues b) = tail.length := by
    rw [List.countP_eq_length]
    simpa using hcontinues
  have hpass : Passes m tail (m - tail.length) :=
    (passes_missing (by omega)).mpr ⟨fun b hb => .inr (hcontinues b hb), by omega, by omega⟩
  exact scan_eq_iff.mpr (.inl ⟨_, hpass, if_pos (by omega)⟩)

/-- Behind a header byte the loop answers UTF-8 as soon as it has seen what the byte announces,
or a byte that ISO does not use. -/
theorem scan_sequence {lead : UInt8} {tail : List UInt8} (h : Sequence lead tail)
    (rest : List UInt8) (k : ℕ) :
    scan tail.length ((tail ++ rest).take k) = .utf ↔
      tail.length ≤ k ∨ ∃ b ∈ (tail ++ rest).take k, Unused b := by
  have hpos := (announced_sequence h).2
  rcases Nat.lt_or_ge k tail.length with hcut | hwhole
  · rw [List.take_append_of_le_length (Nat.le_of_lt hcut)]
    have htail : ∀ b ∈ tail.take k, 0x80 ≤ b.toNat ∧ b.toNat ≤ 0xBF :=
      fun b hb => h.continues b (List.mem_of_mem_take hb)
    have hfar : ¬ tail.length ≤ k := Nat.not_le.mpr hcut
    by_cases hfound : ∃ b ∈ tail.take k, Unused b
    · have hutf := scan_tail hpos htail [] (.inr hfound)
      rw [List.append_nil] at hutf
      simp only [hutf, hfound, or_true]
    · have hlen : (tail.take k).length < tail.length := by
        rw [List.length_take]
        omega
      have hiso := scan_cut htail hlen fun b hb hunused => hfound ⟨b, hb, hunused⟩
      simp only [hiso, hfound, hfar, or_false, reduceCtorEq]
  · rw [List.take_append, List.take_of_length_le hwhole]
    have hutf := scan_tail hpos h.continues (rest.take (k - tail.length)) (.inl le_rfl)
    simp only [hutf, hwhole, true_or]

/-- What the loop answers for the first bytes of a text, by its first longer character. -/
theorem scan_text {before : List Char} {c : Char} {after : List Char} {n : ℕ}
    (hbefore : ∀ d ∈ before, d.toNat < 128) (hc : 128 ≤ c.toNat)
    (hnul : 0 ∉ encode (String.ofList (before ++ c :: after))) :
    scan 0 ((encode (String.ofList (before ++ c :: after))).take n) = .utf ↔
      before.length + c.utf8Size ≤ n ∨
        ∃ b ∈ (encode (String.ofList (before ++ c :: after))).take n, Unused b := by
  obtain ⟨lead, tail, hlead, hsequence⟩ := utf8EncodeChar_sequence hc
  obtain ⟨hannounced, hpos⟩ := announced_sequence hsequence
  have hsize : c.utf8Size = tail.length + 1 := by
    rw [← String.length_utf8EncodeChar, hlead, List.length_cons]
  rw [encode_ofList, List.flatMap_append, List.flatMap_cons, hlead, encode_ascii hbefore,
    List.cons_append] at *
  generalize hbytes : (before.map fun d => UInt8.ofNat d.toNat) = ascii at *
  generalize after.flatMap String.utf8EncodeChar = rest at *
  have hskipped : ∀ b ∈ ascii, Skipped b := by
    intro b hb
    refine skipped_of_ascii ?_ ?_
    · rintro rfl
      exact hnul (List.mem_append_left _ hb)
    · rw [← hbytes, List.mem_map] at hb
      obtain ⟨d, hd, rfl⟩ := hb
      exact ofNat_ascii (hbefore d hd)
  have hlength : ascii.length = before.length := by rw [← hbytes, List.length_map]
  rcases Nat.lt_or_ge before.length n with hmore | hless
  · -- the loop gets to the header byte and sees `k` more bytes
    obtain ⟨k, rfl⟩ := Nat.exists_eq_add_of_lt hmore
    have htake : (ascii ++ lead :: (tail ++ rest)).take (before.length + k + 1) =
        ascii ++ lead :: (tail ++ rest).take k := by
      rw [← hlength, Nat.add_assoc, List.take_length_add_append, List.take_succ_cons]
    have hscan : scan 0 (ascii ++ lead :: (tail ++ rest).take k) =
        scan tail.length ((tail ++ rest).take k) := by
      rw [scan_append (passes_skipped hskipped), scan, iteration_header (by omega), if_pos rfl,
        hannounced]
    have hunused : (∃ b ∈ ascii ++ lead :: (tail ++ rest).take k, Unused b) ↔
        ∃ b ∈ (tail ++ rest).take k, Unused b := by
      constructor
      · rintro ⟨b, hb, hunused⟩
        rcases List.mem_append.mp hb with hb | hb
        · exact absurd (hskipped b hb) hunused.apart.1
        · rcases List.mem_cons.mp hb with rfl | hb
          · exact absurd (by omega) hunused.apart.2.2
          · exact ⟨b, hb, hunused⟩
      · rintro ⟨b, hb, hunused⟩
        exact ⟨b, List.mem_append_right _ (List.mem_cons_of_mem _ hb), hunused⟩
    have hfar : before.length + c.utf8Size ≤ before.length + k + 1 ↔ tail.length ≤ k := by omega
    rw [htake, hscan, hunused, hfar, scan_sequence hsequence]
  · -- the loop sees ASCII only
    rw [List.take_append_of_le_length (by omega)]
    have htake : ∀ b ∈ ascii.take n, Skipped b := fun b hb => hskipped b (List.mem_of_mem_take hb)
    have hnone : ¬ ∃ b ∈ ascii.take n, Unused b :=
      fun ⟨b, hb, hunused⟩ => hunused.apart.1 (htake b hb)
    have hfar : ¬ before.length + c.utf8Size ≤ n := by omega
    simp only [scan_ascii.mpr htake, hnone, hfar, or_false, reduceCtorEq]

theorem mem_encode_long {text : List Char} :
    (∃ b ∈ encode (String.ofList text), 0x80 ≤ b) ↔ ∃ c ∈ text, 128 ≤ c.toNat := by
  rw [encode_ofList]
  constructor
  · rintro ⟨b, hb, hlong⟩
    by_contra hascii
    have hall : ∀ c ∈ text, c.toNat < 128 := by
      intro c hc
      by_contra hge
      exact hascii ⟨c, hc, Nat.le_of_not_lt hge⟩
    rw [encode_ascii hall, List.mem_map] at hb
    obtain ⟨c, hc, rfl⟩ := hb
    exact absurd (ofNat_ascii (hall c hc)) (UInt8.not_lt.mpr hlong)
  · rintro ⟨c, hc, hlong⟩
    obtain ⟨lead, tail, hlead, hsequence⟩ := utf8EncodeChar_sequence hlong
    refine ⟨lead, List.mem_flatMap.mpr ⟨c, hc, by rw [hlead]; exact List.mem_cons_self⟩, ?_⟩
    simp only [UInt8.le_iff_toNat_le, UInt8.reduceToNat]
    rcases hsequence.announces with h | h | h <;> omega

/-- A text with a longer character has a first one. -/
theorem first_long {text : List Char} (h : ∃ c ∈ text, 128 ≤ c.toNat) :
    ∃ before c after, text = before ++ c :: after ∧ (∀ d ∈ before, d.toNat < 128) ∧
      128 ≤ c.toNat := by
  induction text with
  | nil => simp at h
  | cons c rest ih =>
    by_cases hc : 128 ≤ c.toNat
    · exact ⟨[], c, rest, rfl, by simp, hc⟩
    · obtain ⟨d, hd, hlong⟩ := h
      have hrest : ∃ c ∈ rest, 128 ≤ c.toNat := by
        rcases List.mem_cons.mp hd with rfl | hmem
        · exact absurd hlong hc
        · exact ⟨d, hmem, hlong⟩
      obtain ⟨before, c', after, heq, hbefore, hc'⟩ := ih hrest
      refine ⟨c :: before, c', after, by rw [heq]; rfl, ?_, hc'⟩
      exact List.forall_mem_cons.mpr ⟨Nat.lt_of_not_le hc, hbefore⟩


/-- A longer character ends inside of its text. -/
theorem length_before_le (before : List Char) (c : Char) (after : List Char)
    (h : ∀ d ∈ before, d.toNat < 128) :
    before.length + c.utf8Size ≤ (encode (String.ofList (before ++ c :: after))).length := by
  rw [encode_ofList, List.flatMap_append, List.flatMap_cons, encode_ascii h, List.length_append,
    List.length_append, List.length_map, String.length_utf8EncodeChar]
  omega

theorem complete_iff {file : List UInt8} (hnul : 0 ∉ file) : Complete file ↔ ReadFar file := by
  have hascii : (∀ b ∈ file, b < 0x80) → ∀ b ∈ scanned file, Skipped b := by
    intro h b hb
    have hmem := List.mem_of_mem_take hb
    exact skipped_of_ascii (fun heq => hnul (heq ▸ hmem)) (h b hmem)
  constructor
  · intro ⟨hcomplete, hutf⟩
    constructor
    · intro h hsize
      cases (checkType_zero hsize).symm.trans (hcomplete h)
    · rintro before c after rfl hbefore hc
      have hanswer := hutf ⟨_, rfl⟩ (mem_encode_long.mpr ⟨c, by simp, hc⟩)
      have hsize : fileSize (encode (String.ofList (before ++ c :: after))) ≠ 0 := by
        intro hsize
        cases (checkType_zero hsize).symm.trans hanswer
      rw [checkType_ne hsize] at hanswer
      have hpos := c.utf8Size_pos
      refine ((scan_text hbefore hc hnul).mp hanswer).imp_left ?_
      omega
  · intro ⟨hsome, hfar⟩
    constructor
    · intro h
      rw [checkType_ne (hsome h), scan_ascii.mpr (hascii h)]
    · rintro ⟨text, rfl⟩ hlong
      rw [← String.ofList_toList (s := text)] at hnul hfar hlong ⊢
      obtain ⟨before, c, after, heq, hbefore, hc⟩ := first_long (mem_encode_long.mp hlong)
      rw [heq] at hnul hfar ⊢
      have hread := hfar before c after rfl hbefore hc
      have hsize : fileSize (encode (String.ofList (before ++ c :: after))) ≠ 0 := by
        rcases hread with hle | ⟨b, hb, -⟩
        · have hpos := c.utf8Size_pos
          omega
        · intro hzero
          rw [scanned_nonpos hzero.le] at hb
          cases hb
      rw [checkType_ne hsize]
      refine (scan_text hbefore hc hnul).mpr (hread.imp_left ?_)
      omega

/-- A file of less than 2 GiB is read far enough. -/
theorem readFar_small {file : List UInt8} (hne : file ≠ []) (h : file.length < 2147483648) :
    ReadFar file := by
  have hpos := List.length_pos_of_ne_nil hne
  have hsize := fileSize_small h
  constructor
  · intro _
    omega
  · rintro before c after rfl hbefore -
    have hle := length_before_le before c after hbefore
    omega

/-- Text without NUL is recognised if it is shorter than 2 GiB, and otherwise exactly if the
bytes that are left of it reach far enough. -/
theorem check_type_complete_iff (file : List UInt8) (hne : file ≠ []) (hnul : 0 ∉ file) :
    (file.length < 2147483648 → Complete file) ∧ (Complete file ↔ ReadFar file) := by
  constructor
  · intro h
    exact (complete_iff hnul).mpr (readFar_small hne h)
  · exact complete_iff hnul

/-- The three-byte character with the bytes 0xE6, 0xA3, 0xA3 between spaces. -/
theorem check_type_complete_three :
    Complete [0x20, 0xE6, 0xA3, 0xA3, 0x20] :=
  (check_type_complete_iff [0x20, 0xE6, 0xA3, 0xA3, 0x20] (by simp) (by decide)).1 (by decide)

/-- A file that holds the letter a only is not recognised if its length is a multiple of
`2 ^ 32`. -/
theorem incomplete_of_wraps {n : ℕ} (h : (n : ℤ).bmod (2 ^ 32) = 0) :
    checkType (List.replicate n 97) = .empty ∧ ¬ Complete (List.replicate n 97) := by
  have hsize : fileSize (List.replicate n 97) = 0 := by
    unfold fileSize
    rw [List.length_replicate]
    exact h
  have hempty : checkType (List.replicate n 97) = .empty := checkType_zero hsize
  have hascii : ∀ b ∈ List.replicate n (97 : UInt8), b < 0x80 := by
    intro b hb
    rw [List.eq_of_mem_replicate hb]
    decide
  refine ⟨hempty, ?_⟩
  intro ⟨hcomplete, _⟩
  cases hempty.symm.trans (hcomplete hascii)

/-- A file of 4 GiB: its length is taken for 0. -/
theorem check_type_incomplete :
    List.replicate 4294967296 (97 : UInt8) ≠ [] ∧ 0 ∉ List.replicate 4294967296 (97 : UInt8) ∧
      checkType (List.replicate 4294967296 97) = .empty ∧
      ¬ Complete (List.replicate 4294967296 97) := by
  refine ⟨?_, ?_, incomplete_of_wraps (by decide)⟩
  · intro h
    rw [List.replicate_eq_nil_iff] at h
    omega
  · intro h
    exact absurd (List.eq_of_mem_replicate h) (by decide)

end Completeness

end CompSys.FileType
