import CompSys.CString
import Mathlib.Data.List.Induction
import Mathlib.Data.Nat.Digits.Lemmas

/-!
# Decimal numbers in the tiny library

`str_to_uns` and `uns_to_str` of `lib.c`, which A6 and `tiny_riscv` both have. A `char` has no
sign on RISC-V. The memory of a buffer is the bytes from its start to the end of the object, and
nothing outside of it may be read or written.
-/
namespace CompSys.TinyDecimal

open CString

/-! ## The program -/

/-- The loop of `str_to_uns` over what is left of the string, which has to end with a NUL. -/
def strToUnsLoop : List UInt8 → UInt32 → Option UInt32
  | [], _ => none
  | c :: str, val => if c = 0 then some val else strToUnsLoop str (val * 10 + c.toUInt32 - 48)

def strToUns : List UInt8 → Option UInt32
  | [] => none
  | c :: str => strToUnsLoop str (c.toUInt32 - 48)

/-- `memory[p] = b`. -/
def write (memory : List UInt8) (p : ℕ) (b : UInt8) : Option (List UInt8) :=
  if p < memory.length then some (memory.set p b) else none

/-- `while (val)`: the digits in reverse order, with the place behind them. -/
def produceDigits (memory : List UInt8) (ptr : ℕ) (val : UInt32) :
    Option (List UInt8 × ℕ) :=
  if val = 0 then some (memory, ptr)
  else do
    let memory ← write memory ptr (val % 10 + 48).toUInt8
    produceDigits memory (ptr + 1) (val / 10)
termination_by val.toNat
decreasing_by
  have hpos : val.toNat ≠ 0 := by simpa [← UInt32.toNat_inj] using ‹¬val = 0›
  rw [UInt32.toNat_div]
  exact Nat.div_lt_self (Nat.pos_of_ne_zero hpos) (by decide)

/-- `while (ptr > buffer)`: the two pointers move towards each other. -/
def reverseDigits (memory : List UInt8) (ptr buffer : ℕ) : Option (List UInt8) :=
  if ptr > buffer then do
    let tmp ← memory[ptr]?
    let b ← memory[buffer]?
    let memory ← write memory ptr b
    let memory ← write memory buffer tmp
    reverseDigits memory (ptr - 1) (buffer + 1)
  else some memory
termination_by ptr - buffer

/-- The memory afterwards and what is returned. There is a digit before `*ptr-- = 0`. -/
def unsToStr (buffer : List UInt8) (val : UInt32) : Option (List UInt8 × ℕ) :=
  if val = 0 then do
    let memory ← write buffer 0 48
    let memory ← write memory 1 0
    return (memory, 1)
  else do
    let (memory, ptr) ← produceDigits buffer 0 val
    let memory ← write memory ptr 0
    let memory ← reverseDigits memory (ptr - 1) 0
    return (memory, ptr - 1)

/-! ## Texts of digits -/

/-- The decimal representation of a number, without leading zeros. -/
structure IsDecimal (text : List UInt8) (n : ℕ) : Prop where
  nonempty : text ≠ []
  isdigit : ∀ b ∈ text, isdigit b = true
  leading : text.head? = some 48 → text = [48]
  value : digits text = n

def digitByte (d : ℕ) : UInt8 := UInt8.ofNat (48 + d)

def digitOf (b : UInt8) : ℕ := b.toNat - 48

theorem isdigit_iff {b : UInt8} : isdigit b = true ↔ 48 ≤ b.toNat ∧ b.toNat ≤ 57 := by
  simp [CString.isdigit, UInt8.le_iff_toNat_le]

theorem toNat_digitByte {d : ℕ} (h : d < 10) : (digitByte d).toNat = 48 + d := by
  rw [digitByte, UInt8.toNat_ofNat', Nat.mod_eq_of_lt (by omega)]

theorem digitByte_digitOf {b : UInt8} (h : isdigit b = true) : digitByte (digitOf b) = b := by
  obtain ⟨hlow, -⟩ := isdigit_iff.mp h
  rw [digitByte, digitOf, Nat.add_sub_cancel' hlow, UInt8.ofNat_toNat]

theorem digitOf_digitByte {d : ℕ} (h : d < 10) : digitOf (digitByte d) = d := by
  rw [digitOf, toNat_digitByte h, Nat.add_sub_cancel_left]

theorem isdigit_digitByte {d : ℕ} (h : d < 10) : isdigit (digitByte d) = true := by
  rw [isdigit_iff, toNat_digitByte h]
  omega

theorem digitOf_lt {b : UInt8} (h : isdigit b = true) : digitOf b < 10 := by
  have hb := isdigit_iff.mp h
  rw [digitOf]
  omega

/-- The value of a text that is all digits. -/
theorem digits_eq_ofDigits {text : List UInt8} (h : ∀ b ∈ text, isdigit b = true) :
    digits text = Nat.ofDigits 10 (text.map digitOf).reverse := by
  rw [digits, List.takeWhile_eq_self_iff.mpr h, Nat.ofDigits_eq_foldr, List.foldr_reverse,
    List.foldl_map]
  congr 1
  funext n b
  exact Nat.add_comm _ _

/-- The digits of a number, the last one first. -/
def lastFirst (n : ℕ) : List UInt8 := (Nat.digits 10 n).map digitByte

theorem isdigit_of_mem_lastFirst {n : ℕ} : ∀ b ∈ lastFirst n, isdigit b = true := by
  intro b hb
  obtain ⟨d, hd, rfl⟩ := List.mem_map.mp hb
  exact isdigit_digitByte (Nat.digits_lt_base (by decide) hd)

theorem map_digitOf_lastFirst (n : ℕ) : (lastFirst n).map digitOf = Nat.digits 10 n := by
  rw [lastFirst, List.map_map]
  refine List.map_congr_left (fun d hd => ?_) |>.trans (List.map_id _)
  exact digitOf_digitByte (Nat.digits_lt_base (by decide) hd)

theorem lastFirst_step {n : ℕ} (h : n ≠ 0) :
    lastFirst n = digitByte (n % 10) :: lastFirst (n / 10) := by
  rw [lastFirst, Nat.digits_eq_cons_digits_div (by decide) h, List.map_cons, lastFirst]

theorem isDecimal_zero : IsDecimal [48] 0 :=
  ⟨by simp, List.all_eq_true.mp rfl, fun _ => rfl, by decide⟩

theorem isDecimal_reverse {n : ℕ} (h : n ≠ 0) : IsDecimal (lastFirst n).reverse n := by
  have hne : Nat.digits 10 n ≠ [] := Nat.digits_ne_nil_iff_ne_zero.mpr h
  have hdigit : ∀ b ∈ (lastFirst n).reverse, isdigit b = true := by
    intro b hb
    exact isdigit_of_mem_lastFirst b (List.mem_reverse.mp hb)
  refine ⟨by simpa [lastFirst] using hne, hdigit, fun hlead => ?_, ?_⟩
  · -- the first digit is the last that is produced, and that one is not 0
    exfalso
    rw [List.head?_reverse, lastFirst, List.getLast?_map, List.getLast?_eq_some_getLast hne,
      Option.map_some, Option.some.injEq] at hlead
    have hlt := Nat.digits_lt_base (b := 10) (by decide) (List.getLast_mem hne)
    have hd := congrArg digitOf hlead
    rw [digitOf_digitByte hlt] at hd
    exact Nat.getLast_digit_ne_zero 10 h hd
  · rw [digits_eq_ofDigits hdigit, List.map_reverse, List.reverse_reverse, map_digitOf_lastFirst,
      Nat.ofDigits_digits]

/-- There is only one way to write a number. -/
theorem IsDecimal.unique {text : List UInt8} {n : ℕ} (h : IsDecimal text n) :
    text = if n = 0 then [48] else (lastFirst n).reverse := by
  by_cases hlead : text.head? = some 48
  · have htext := h.leading hlead
    have hn : n = 0 := by
      rw [← h.value, htext]
      decide
    rw [if_pos hn, htext]
  · have hval := (digits_eq_ofDigits h.isdigit).symm.trans h.value
    have hlast : ∀ hne : (text.map digitOf).reverse ≠ [],
        (text.map digitOf).reverse.getLast hne ≠ 0 := by
      intro hne hzero
      cases htext : text with
      | nil => exact h.nonempty htext
      | cons b rest =>
        have hb := h.isdigit b (by rw [htext]; exact List.mem_cons_self ..)
        subst htext
        rw [List.getLast_reverse, List.head_map, List.head_cons] at hzero
        have hbyte := digitByte_digitOf hb
        rw [hzero] at hbyte
        exact hlead (congrArg some hbyte.symm)
    have hdigits : Nat.digits 10 n = (text.map digitOf).reverse := by
      rw [← hval]
      refine Nat.digits_ofDigits 10 (by decide) _ (fun d hd => ?_) hlast
      obtain ⟨b, hb, rfl⟩ := List.mem_map.mp (List.mem_reverse.mp hd)
      exact digitOf_lt (h.isdigit b hb)
    have hne : n ≠ 0 := by
      rw [← Nat.digits_ne_nil_iff_ne_zero (b := 10), hdigits]
      simpa using h.nonempty
    rw [if_neg hne, lastFirst, hdigits, ← List.map_reverse, List.reverse_reverse, List.map_map]
    refine ((List.map_id _).symm.trans (List.map_congr_left fun b hb => ?_))
    exact (digitByte_digitOf (h.isdigit b hb)).symm

/-! ## Reading -/

theorem ofNat_step {b : UInt8} (h : isdigit b = true) (n : ℕ) :
    UInt32.ofNat n * 10 + b.toUInt32 - 48 = UInt32.ofNat (10 * n + (b.toNat - 48)) := by
  obtain ⟨hlow, -⟩ := isdigit_iff.mp h
  rw [← UInt32.toNat_inj, UInt32.toNat_sub, UInt32.toNat_add, UInt32.toNat_mul,
    UInt32.toNat_ofNat', UInt32.toNat_ofNat', UInt8.toNat_toUInt32]
  change (2 ^ 32 - 48 + (n % 2 ^ 32 * 10 % 2 ^ 32 + b.toNat) % 2 ^ 32) % 2 ^ 32 = _
  omega

theorem strToUnsLoop_eq {text : List UInt8} (h : ∀ b ∈ text, isdigit b = true)
    (behind : List UInt8) (n : ℕ) :
    strToUnsLoop (text ++ 0 :: behind) (UInt32.ofNat n) =
      some (UInt32.ofNat (text.foldl (fun n b => 10 * n + (b.toNat - 48)) n)) := by
  induction text generalizing n with
  | nil => rfl
  | cons b text ih =>
    have hb := h b (List.mem_cons_self ..)
    have hne : b ≠ 0 := by
      rintro rfl
      exact absurd hb (by decide)
    rw [List.cons_append, strToUnsLoop, if_neg hne, ofNat_step hb, List.foldl_cons]
    exact ih (fun c hc => h c (List.mem_cons_of_mem b hc)) _

/-- Digits are read modulo 2^32. -/
theorem strToUns_eq {text : List UInt8} (hne : text ≠ [])
    (h : ∀ b ∈ text, isdigit b = true) (behind : List UInt8) :
    strToUns (text ++ 0 :: behind) = some (UInt32.ofNat (digits text)) := by
  obtain ⟨b, text, rfl⟩ := List.exists_cons_of_ne_nil hne
  rw [digits, List.takeWhile_eq_self_iff.mpr h]
  have hstep := ofNat_step (h b (List.mem_cons_self ..)) 0
  have hzero : UInt32.ofNat 0 * 10 + b.toUInt32 - 48 = b.toUInt32 - 48 := by
    rw [show UInt32.ofNat 0 = 0 from rfl, UInt32.zero_mul, UInt32.zero_add]
  rw [List.cons_append, strToUns, ← hzero, hstep, List.foldl_cons]
  exact strToUnsLoop_eq (fun c hc => h c (List.mem_cons_of_mem b hc)) behind _

/-! ## Writing -/

theorem write_append (front : List UInt8) (old b : UInt8) (behind : List UInt8) :
    write (front ++ old :: behind) front.length b = some (front ++ b :: behind) := by
  rw [write, if_pos (by simp), List.set_append_right _ _ (Nat.le_refl _), Nat.sub_self,
    List.set_cons_zero]

/-- The digits go behind what has been written, over as many bytes of the buffer. -/
theorem produceDigits_eq (front room behind : List UInt8) (val : UInt32)
    (hroom : room.length = (lastFirst val.toNat).length) :
    produceDigits (front ++ (room ++ behind)) front.length val =
      some (front ++ lastFirst val.toNat ++ behind,
        front.length + (lastFirst val.toNat).length) := by
  induction hn : val.toNat using Nat.strong_induction_on generalizing front room val with
  | _ n ih =>
    subst hn
    rw [produceDigits]
    by_cases hval : val = 0
    · subst hval
      have hnil : room = [] := List.length_eq_zero_iff.mp hroom
      rw [if_pos rfl, hnil]
      simp [lastFirst]
    · have hpos : val.toNat ≠ 0 := by simpa [← UInt32.toNat_inj] using hval
      have hdiv : (val / 10).toNat = val.toNat / 10 := UInt32.toNat_div ..
      have hbyte : (val % 10 + 48).toUInt8 = digitByte (val.toNat % 10) := by
        rw [← UInt8.toNat_inj, toNat_digitByte (Nat.mod_lt _ (by decide)),
          UInt32.toNat_toUInt8, UInt32.toNat_add, UInt32.toNat_mod]
        change (val.toNat % 10 + 48) % 2 ^ 32 % 2 ^ 8 = _
        omega
      have hstep := lastFirst_step hpos
      rw [hstep] at hroom ⊢
      cases room with
      | nil => exact absurd hroom (by simp)
      | cons old room =>
        rw [if_neg hval, List.cons_append, write_append, Option.bind_eq_bind, Option.bind_some,
          hbyte]
        have hrest := ih (val / 10).toNat (by omega)
          (front ++ [digitByte (val.toNat % 10)]) room (val / 10)
          (by rw [hdiv]; simpa using hroom) rfl
        rw [hdiv] at hrest
        simp only [List.append_assoc, List.singleton_append, List.length_append,
          List.length_singleton] at hrest
        rw [hrest]
        simp only [List.append_assoc, List.cons_append, List.length_cons]
        rw [Nat.add_assoc, Nat.add_comm 1]

/-- What lies between the two pointers is reversed in place. -/
theorem reverseDigits_eq (front text behind : List UInt8) (ptr : ℕ)
    (hptr : ptr + 1 = front.length + text.length) :
    reverseDigits (front ++ text ++ behind) ptr front.length =
      some (front ++ text.reverse ++ behind) := by
  induction text using List.bidirectionalRec generalizing front behind ptr with
  | nil =>
    rw [reverseDigits, if_neg (by simp at hptr; omega)]
    rfl
  | singleton b =>
    rw [reverseDigits, if_neg (by simp at hptr; omega)]
    rfl
  | cons_append a text b ih =>
    simp only [List.length_cons, List.length_append, List.length_nil] at hptr
    have hlow : (front ++ a :: (text ++ [b]) ++ behind)[front.length]? = some a := by simp
    have hmem : front ++ a :: (text ++ [b]) ++ behind = front ++ a :: text ++ b :: behind := by
      simp
    have hlen : ptr = (front ++ a :: text).length := by
      simp only [List.length_append, List.length_cons]
      omega
    have hhigh : (front ++ a :: (text ++ [b]) ++ behind)[ptr]? = some b := by
      rw [hmem, hlen]
      simp
    have hfirst : write (front ++ a :: (text ++ [b]) ++ behind) ptr a =
        some (front ++ a :: (text ++ a :: behind)) := by
      rw [hmem, hlen, write_append]
      simp
    have hnext : front.length + 1 = (front ++ [b]).length := by simp
    rw [reverseDigits, if_pos (by omega)]
    simp only [hhigh, hlow, hfirst, write_append, Option.bind_eq_bind, Option.bind_some, hnext]
    have hrest := ih (front ++ [b]) (a :: behind) (ptr - 1) (by simp; omega)
    simp only [List.append_assoc, List.cons_append, List.nil_append] at hrest
    rw [hrest]
    simp

theorem length_lastFirst_le (val : UInt32) : (lastFirst val.toNat).length ≤ 10 := by
  rw [lastFirst, List.length_map, Nat.digits_length_le_iff (by decide)]
  exact Nat.lt_trans val.toNat_lt (by decide)

/-- The text of a number is written with its NUL, and nothing behind it. -/
theorem unsToStr_eq (buffer : List UInt8) (val : UInt32) {text : List UInt8}
    (htext : IsDecimal text val.toNat) (hroom : text.length < buffer.length) :
    ∃ r, unsToStr buffer val = some (text ++ 0 :: buffer.drop (text.length + 1), r) := by
  have hunique := htext.unique
  by_cases hval : val = 0
  · subst hval
    subst hunique
    match buffer, hroom with
    | a :: b :: buffer, _ => exact ⟨1, by simp [unsToStr, write]⟩
  · have hpos : val.toNat ≠ 0 := by simpa [← UInt32.toNat_inj] using hval
    rw [if_neg hpos] at hunique
    have hlen : text.length = (lastFirst val.toNat).length := by rw [hunique, List.length_reverse]
    obtain ⟨old, hold⟩ : ∃ old, old = buffer[text.length] := ⟨_, rfl⟩
    have hbuffer : buffer =
        [] ++ (buffer.take text.length ++ old :: buffer.drop (text.length + 1)) := by
      rw [hold, List.getElem_cons_drop, List.take_append_drop, List.nil_append]
    have hproduced := produceDigits_eq [] (buffer.take text.length)
      (old :: buffer.drop (text.length + 1)) val (by rw [List.length_take]; omega)
    have hreversed := reverseDigits_eq [] (lastFirst val.toNat)
      (0 :: buffer.drop (text.length + 1)) ((lastFirst val.toNat).length - 1)
      (by have := List.length_pos_of_ne_nil htext.nonempty; simp; omega)
    simp only [← hbuffer, List.nil_append, List.length_nil, Nat.zero_add] at hproduced hreversed
    refine ⟨(lastFirst val.toNat).length - 1, ?_⟩
    rw [unsToStr, if_neg hval, hproduced]
    simp only [Option.bind_eq_bind, Option.bind_some, write_append, hreversed, ← hunique]
    rfl

/-! ## There and back -/

theorem exists_isDecimal (val : UInt32) :
    ∃ text, IsDecimal text val.toNat ∧ text.length ≤ 10 := by
  by_cases hval : val.toNat = 0
  · exact ⟨[48], hval ▸ isDecimal_zero, by decide⟩
  · refine ⟨(lastFirst val.toNat).reverse, isDecimal_reverse hval, ?_⟩
    rw [List.length_reverse]
    exact length_lastFirst_le val

/-- A number is written in at most 11 bytes and is read back. Digits have their value modulo 2^32,
and those that `uns_to_str` could have written are written again. -/
theorem strToUns_unsToStr :
    (∀ (val : UInt32) (buffer : List UInt8), 11 ≤ buffer.length → ∃ text r,
      unsToStr buffer val = some (text ++ 0 :: buffer.drop (text.length + 1), r) ∧
      IsDecimal text val.toNat ∧ text.length + 1 ≤ 11 ∧
      strToUns (text ++ 0 :: buffer.drop (text.length + 1)) = some val) ∧
    (∀ text behind : List UInt8, text ≠ [] → (∀ b ∈ text, isdigit b = true) → ∃ val,
      strToUns (text ++ 0 :: behind) = some val ∧ val.toNat = digits text % 2 ^ 32) ∧
    ∀ text behind buffer : List UInt8, IsDecimal text (digits text) → digits text < 2 ^ 32 →
      11 ≤ buffer.length → ∃ val r,
      strToUns (text ++ 0 :: behind) = some val ∧
      unsToStr buffer val = some (text ++ 0 :: buffer.drop (text.length + 1), r) := by
  refine ⟨fun val buffer hroom => ?_, fun text behind hne hdigit => ?_,
    fun text behind buffer htext hlt hroom => ?_⟩
  · obtain ⟨text, htext, hlen⟩ := exists_isDecimal val
    obtain ⟨r, hwritten⟩ := unsToStr_eq buffer val htext (by omega)
    refine ⟨text, r, hwritten, htext, by omega, ?_⟩
    rw [strToUns_eq htext.nonempty htext.isdigit, htext.value, UInt32.ofNat_toNat]
  · exact ⟨_, strToUns_eq hne hdigit behind, UInt32.toNat_ofNat'⟩
  · have hval : (UInt32.ofNat (digits text)).toNat = digits text :=
      UInt32.toNat_ofNat_of_lt' hlt
    have htext' : IsDecimal text (UInt32.ofNat (digits text)).toNat := hval.symm ▸ htext
    obtain ⟨text', htext'', hlen⟩ := exists_isDecimal (UInt32.ofNat (digits text))
    have hsame : text' = text := htext''.unique.trans htext'.unique.symm
    obtain ⟨r, hwritten⟩ := unsToStr_eq buffer _ htext' (by rw [← hsame]; omega)
    exact ⟨_, r, strToUns_eq htext.nonempty htext.isdigit behind, hwritten⟩

theorem strToUns_unsToStr_305 : ∃ val r,
    strToUns ([51, 48, 53] ++ 0 :: [7]) = some val ∧
    unsToStr (List.replicate 11 9) val = some ([51, 48, 53] ++ 0 :: List.replicate 7 9, r) :=
  strToUns_unsToStr.2.2 [51, 48, 53] [7] (List.replicate 11 9)
    ⟨by decide, List.all_eq_true.mp rfl, by decide, rfl⟩ (by decide) (by decide)

end CompSys.TinyDecimal
