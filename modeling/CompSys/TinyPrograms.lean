import CompSys.PythonText
import CompSys.TinyDecimal
import Mathlib.Data.Nat.Fib.Basic
import Mathlib.Data.Nat.Prime.Basic

/-!
# Programs for the simulator

`erat.c`, `fib.c` and `echo.c` of `tiny_riscv`, over the functions of `lib.c`. What they print is a
list of bytes; what an array holds before it is written is anything, and nothing outside of it may be
read or written. An `int` that gets out of its range is undefined.
-/
namespace CompSys.TinyPrograms

open CString TinyDecimal
open PythonText (encode)

/-! ## The programs -/

/-- `print_string`: the characters up to a NUL, which there has to be. -/
def printString : List UInt8 → Option (List UInt8)
  | [] => none
  | c :: p => if c = 0 then some [] else (printString p).map (c :: ·)

/-- `inp` at the end of the input gets -1, of which a `char` keeps the last byte. -/
def inp : List UInt8 → UInt8 × List UInt8
  | [] => (255, [])
  | c :: input => (c, input)

/-- The loop of `read_string`, with the character that has been read and what is still to come. -/
def readLoop (memory : List UInt8) (buffer maxChars : ℕ) (c : UInt8) (input : List UInt8) :
    Option (List UInt8 × List UInt8) :=
  if c ≠ 10 ∧ c ≠ 13 ∧ maxChars > 1 then do
    let memory ← write memory buffer c
    readLoop memory (buffer + 1) (maxChars - 1) (inp input).1 (inp input).2
  else do
    let memory ← write memory buffer 0
    return (memory, input)
termination_by maxChars

def readString (buffer : List UInt8) (maxChars : ℕ) (input : List UInt8) :
    Option (List UInt8 × List UInt8) :=
  readLoop buffer 0 maxChars (inp input).1 (inp input).2

/-- `main` of `echo.c`: what it prints, and the input that it leaves. -/
def echo (buffer input : List UInt8) : Option (List UInt8 × List UInt8) := do
  let prompt ← printString (encode "Hej med dig - skriv noget, saa bliver jeg glad: " ++ [0])
  let (buffer, input) ← readString buffer 128 input
  let answer ← printString (encode "Du skrev: " ++ [0])
  let said ← printString buffer
  return (prompt ++ answer ++ said, input)

/-- `fib` of `fib.c`. -/
def fib (arg : UInt32) : UInt32 :=
  if arg < 2 then arg else fib (arg - 1) + fib (arg - 2)
termination_by arg.toNat
decreasing_by
  all_goals
    have hle : 2 ≤ arg.toNat := UInt32.le_iff_toNat_le.mp (UInt32.not_lt.mp ‹¬arg < 2›)
    rw [UInt32.toNat_sub_of_le _ _ (UInt32.le_iff_toNat_le.mpr (Nat.le_trans (by decide) hle))]
    exact Nat.sub_lt (by omega) (by decide)

/-- `main` of `fib.c`: what it prints and its status. The arguments are the memory from their first
characters on. -/
def fibMain (buffer : List UInt8) : List (List UInt8) → Option (List UInt8 × ℤ)
  | _ :: argument :: _ => do
    let arg ← strToUns argument
    let start ← printString (encode "fib(" ++ [0])
    let shown ← printString argument
    let middle ← printString (encode ") = " ++ [0])
    let (buffer, _) ← unsToStr buffer (fib arg)
    let result ← printString buffer
    let last ← printString (encode "\n" ++ [0])
    return (start ++ shown ++ middle ++ result ++ last, 0)
  | _ => do
    let message ← printString (encode "fib() missing arguments\n" ++ [0])
    return (message, 1)

def MAX : ℕ := 1000000

/-- `for (int i = 0; i < MAX; ++i) numbers[i] = 1` -/
def initLoop (max i : ℕ) (numbers : List UInt8) : Option (List UInt8) :=
  if i < max then do
    let numbers ← write numbers i 1
    initLoop max (i + 1) numbers
  else some numbers
termination_by max - i

/-- `for (int j = i; j < MAX; j += i) numbers[j] = 0`, where `i` is positive. -/
def strikeLoop (max i j : ℕ) (numbers : List UInt8) : Option (List UInt8) :=
  if j < max ∧ 0 < i then do
    let numbers ← write numbers j 0
    if j + i < 2 ^ 31 then strikeLoop max i (j + i) numbers else none
  else some numbers
termination_by max - j

/-- The loop over the numbers: what it prints. `buf` is new in every turn. -/
def eratLoop (max : ℕ) (buf : ℕ → List UInt8) (i : ℕ) (numbers : List UInt8) :
    Option (List UInt8) :=
  if i < max then
    match numbers[i]? with
    | none => none
    | some c =>
      if c ≠ 0 then do
        let (buf', _) ← unsToStr (buf i) (UInt32.ofNat i)
        let shown ← printString buf'
        let blank ← printString (encode " " ++ [0])
        let numbers ← strikeLoop max i i numbers
        let rest ← eratLoop max buf (i + 1) numbers
        return shown ++ blank ++ rest
      else eratLoop max buf (i + 1) numbers
  else some []
termination_by max - i

/-- `main` of `erat.c`, for any `MAX`. -/
def erat (max : ℕ) (numbers : List UInt8) (buf : ℕ → List UInt8) : Option (List UInt8) := do
  let numbers ← initLoop max 0 numbers
  let start ← printString (encode "Primtal: 1 " ++ [0])
  let primes ← eratLoop max buf 2 numbers
  let last ← printString (encode "\n" ++ [0])
  return start ++ primes ++ last

/-! ## Printing -/

/-- The decimal representation. -/
def decimalOf (n : ℕ) : List UInt8 := if n = 0 then [48] else (lastFirst n).reverse

/-- A NUL in the text ends it. -/
theorem printString_cString (text behind : List UInt8) :
    printString (text ++ 0 :: behind) = some (cString text) := by
  induction text with
  | nil => rfl
  | cons c text ih =>
    rw [List.cons_append, printString, ih]
    by_cases hc : c = 0
    · subst hc
      rfl
    · have hcons : cString (c :: text) = c :: cString text :=
        List.takeWhile_cons_of_pos (decide_eq_true hc)
      rw [if_neg hc, hcons]
      rfl

theorem printString_text {text : List UInt8} (h : 0 ∉ text) (behind : List UInt8) :
    printString (text ++ 0 :: behind) = some text := by
  have hall := cString_append h []
  rw [List.append_nil] at hall
  rw [printString_cString, hall]
  exact congrArg some (List.append_nil text)

theorem isDecimal_decimalOf (n : ℕ) : IsDecimal (decimalOf n) n := by
  unfold decimalOf
  split_ifs with hn
  · exact hn ▸ isDecimal_zero
  · exact isDecimal_reverse hn

theorem nul_not_mem_digits {text : List UInt8} (h : ∀ b ∈ text, isdigit b = true) : 0 ∉ text := by
  intro hmem
  exact absurd (h 0 hmem) (by decide)

/-- A buffer of twenty characters has room for every number. -/
theorem printString_unsToStr {buffer : List UInt8} (h : buffer.length = 20) (val : UInt32) :
    ∃ buffer' r, unsToStr buffer val = some (buffer', r) ∧
      printString buffer' = some (decimalOf val.toNat) := by
  have hdecimal := isDecimal_decimalOf val.toNat
  have hroom : (decimalOf val.toNat).length < buffer.length := by
    obtain ⟨text, htext, hlength⟩ := exists_isDecimal val
    rw [hdecimal.unique.trans htext.unique.symm]
    omega
  obtain ⟨r, hwritten⟩ := unsToStr_eq buffer val hdecimal hroom
  exact ⟨_, r, hwritten, printString_text (nul_not_mem_digits hdecimal.isdigit) _⟩

/-! ## The Fibonacci numbers -/

/-- Unsigned numbers wrap around, and so do the sums of them. -/
theorem fib_eq (n : UInt32) : fib n = UInt32.ofNat (Nat.fib n.toNat) := by
  induction n using fib.induct with
  | case1 n hsmall =>
    have hlt : n.toNat < 2 := UInt32.lt_iff_toNat_lt.mp hsmall
    rw [fib, if_pos hsmall, ← UInt32.toNat_inj, UInt32.toNat_ofNat']
    obtain h | h : n.toNat = 0 ∨ n.toNat = 1 := by omega
    · rw [h]
      rfl
    · rw [h]
      rfl
  | case2 n hlarge ih₁ ih₂ =>
    have hle : 2 ≤ n.toNat := UInt32.le_iff_toNat_le.mp (UInt32.not_lt.mp hlarge)
    obtain ⟨k, hk⟩ : ∃ k, n.toNat = k + 2 := ⟨n.toNat - 2, by omega⟩
    have hone : (n - 1).toNat = k + 1 := by
      rw [UInt32.toNat_sub_of_le _ _ (UInt32.le_iff_toNat_le.mpr (Nat.le_trans (by decide) hle))]
      exact congrArg (· - 1) hk
    have htwo : (n - 2).toNat = k := by
      rw [UInt32.toNat_sub_of_le _ _ (UInt32.not_lt.mp hlarge)]
      exact congrArg (· - 2) hk
    rw [fib, if_neg hlarge, ih₁, ih₂, hone, htwo, hk, Nat.fib_add_two,
      Nat.add_comm (Nat.fib k), UInt32.ofNat_add]

/-- The program prints the Fibonacci number of its argument, both modulo `2 ^ 32`. Without an
argument it says so. The stack is taken to have room for as many calls of `fib`, one inside the
other, as the argument says. -/
theorem fib_prints {buffer : List UInt8} (hbuffer : buffer.length = 20) :
    (∀ (name : List UInt8) (text behind : List UInt8) (more : List (List UInt8)), text ≠ [] →
      (∀ b ∈ text, isdigit b = true) →
      fibMain buffer (name :: (text ++ 0 :: behind) :: more) =
        some (encode "fib(" ++ text ++ encode ") = " ++
          decimalOf (Nat.fib (digits text % 2 ^ 32) % 2 ^ 32) ++ encode "\n", 0)) ∧
    ∀ argv : List (List UInt8), argv.length < 2 →
      fibMain buffer argv = some (encode "fib() missing arguments\n", 1) := by
  constructor
  · intro name text behind more hne hdigits
    have hstart := printString_text (by decide +kernel : 0 ∉ encode "fib(") []
    have hmiddle := printString_text (by decide +kernel : 0 ∉ encode ") = ") []
    have hlast := printString_text (by decide +kernel : 0 ∉ encode "\n") []
    have hshown := printString_text (nul_not_mem_digits hdigits) behind
    obtain ⟨buffer', r, hwritten, hresult⟩ :=
      printString_unsToStr hbuffer (fib (UInt32.ofNat (digits text)))
    rw [fib_eq, UInt32.toNat_ofNat', UInt32.toNat_ofNat'] at hresult
    rw [fib_eq, UInt32.toNat_ofNat'] at hwritten
    rw [fibMain, strToUns_eq hne hdigits]
    simp only [Option.bind_eq_bind, Option.bind_some, hstart, hshown, hmiddle, hlast, fib_eq,
      UInt32.toNat_ofNat', hwritten, hresult]
    rfl
  · intro argv hfew
    have hmessage := printString_text (by decide +kernel : 0 ∉ encode "fib() missing arguments\n") []
    match argv with
    | [] | [_] =>
      rw [fibMain, hmessage]
      · rfl
      · simp
    | _ :: _ :: _ => simp at hfew

theorem fib_prints_ten : fibMain (List.replicate 20 7) [[45, 45, 0], [49, 48, 0]] =
    some (encode "fib(10) = 55\n", 0) := by
  have hbuffer : (List.replicate 20 (7 : UInt8)).length = 20 := List.length_replicate
  refine ((fib_prints hbuffer).1 [45, 45, 0] [49, 48] [] [] (by decide)
    (List.all_eq_true.mp rfl)).trans ?_
  decide +kernel

/-! ## The sieve -/

section Sieve

/-- No prime below `i` divides the number. -/
def Left (i k : ℕ) : Prop := ∀ p < i, p.Prime → ¬p ∣ k

theorem left_two (k : ℕ) : Left 2 k := by
  intro p hp hprime
  exact absurd hprime.two_le (by omega)

/-- What is left when its turn comes is prime. -/
theorem left_self_iff {i : ℕ} (hi : 2 ≤ i) : Left i i ↔ i.Prime := by
  constructor
  · intro h
    by_contra hcomposite
    have hlt := (Nat.not_prime_iff_minFac_lt hi).mp hcomposite
    exact h i.minFac hlt (Nat.minFac_prime (by omega)) (Nat.minFac_dvd i)
  · intro hprime p hp hp' hdvd
    have hsame := (Nat.prime_dvd_prime_iff_eq hp' hprime).mp hdvd
    omega

theorem left_succ_of_prime {i : ℕ} (hi : i.Prime) (k : ℕ) :
    Left (i + 1) k ↔ Left i k ∧ ¬i ∣ k := by
  constructor
  · intro h
    exact ⟨fun p hp => h p (Nat.lt_succ_of_lt hp), h i (Nat.lt_succ_self i) hi⟩
  · intro ⟨h, hdvd⟩ p hp hprime
    rcases Nat.lt_succ_iff_lt_or_eq.mp hp with hlt | rfl
    · exact h p hlt hprime
    · exact hdvd

theorem left_succ_of_not_prime {i : ℕ} (hi : ¬i.Prime) (k : ℕ) : Left (i + 1) k ↔ Left i k := by
  constructor
  · intro h p hp
    exact h p (Nat.lt_succ_of_lt hp)
  · intro h p hp hprime
    rcases Nat.lt_succ_iff_lt_or_eq.mp hp with hlt | rfl
    · exact h p hlt hprime
    · exact absurd hprime hi

theorem initLoop_eq {max i : ℕ} {numbers : List UInt8} (hlength : numbers.length = max) :
    ∃ numbers', initLoop max i numbers = some numbers' ∧ numbers'.length = max ∧
      (∀ k < i, numbers'[k]? = numbers[k]?) ∧ ∀ k < max, i ≤ k → numbers'[k]? = some 1 := by
  induction i, numbers using initLoop.induct max with
  | case1 i numbers hlt ih =>
    rw [initLoop, if_pos hlt, write, if_pos (by omega)]
    obtain ⟨numbers', hrun, hlength', hfront, hones⟩ := ih (numbers.set i 1)
      (by rw [List.length_set, hlength])
    refine ⟨numbers', hrun, hlength', ?_, ?_⟩
    · intro k hk
      rw [hfront k (by omega), List.getElem?_set_ne (by omega)]
    · intro k hk hle
      rcases Nat.eq_or_lt_of_le hle with rfl | hlt'
      · rw [hfront i (by omega), List.getElem?_set_self (by omega)]
      · exact hones k hk hlt'
  | case2 i numbers hge =>
    rw [initLoop, if_neg hge]
    exact ⟨numbers, rfl, hlength, fun _ _ => rfl, fun k hk hle => absurd (hle.trans_lt hk) hge⟩

/-- The multiples from `j` on are struck out. -/
theorem strikeLoop_eq {max i j : ℕ} {numbers : List UInt8} (hlength : numbers.length = max)
    (hmax : max ≤ 2 ^ 30) (hi : 0 < i) (him : i < max) (hdvd : i ∣ j) :
    ∃ numbers', strikeLoop max i j numbers = some numbers' ∧ numbers'.length = max ∧
      ∀ k < max, numbers'[k]? = if j ≤ k ∧ i ∣ k then some 0 else numbers[k]? := by
  induction j, numbers using strikeLoop.induct max i with
  | case1 j numbers hcond ih =>
    obtain ⟨hlt, -⟩ := hcond
    obtain ⟨numbers', hrun, hlength', hstruck⟩ := ih (numbers.set j 0)
      (by rw [List.length_set, hlength]) ((Nat.dvd_add_right hdvd).mpr dvd_rfl)
    rw [strikeLoop, if_pos ⟨hlt, hi⟩, write, if_pos (by omega), Option.bind_eq_bind,
      Option.bind_some, if_pos (by omega)]
    refine ⟨numbers', hrun, hlength', ?_⟩
    intro k hk
    rw [hstruck k hk]
    by_cases hkj : k = j
    · subst hkj
      rw [if_neg (by omega), if_pos ⟨Nat.le_refl k, hdvd⟩, List.getElem?_set_self (by omega)]
    · rw [List.getElem?_set_ne (Ne.symm hkj)]
      refine if_congr ⟨fun h => ⟨by omega, h.2⟩, fun h => ⟨?_, h.2⟩⟩ rfl rfl
      -- between two multiples there is none
      by_contra hbetween
      have hzero := Nat.eq_zero_of_dvd_of_lt (Nat.dvd_sub h.2 hdvd) (by omega : k - j < i)
      omega
  | case2 j numbers hcond =>
    rw [strikeLoop, if_neg hcond]
    refine ⟨numbers, rfl, hlength, ?_⟩
    intro k hk
    rw [if_neg (by omega)]

/-- The numbers that are not struck out have no prime divisor below `i`. -/
structure Sifted (max i : ℕ) (numbers : List UInt8) : Prop where
  length : numbers.length = max
  left : ∀ k < max, ∃ c, numbers[k]? = some c ∧ (2 ≤ k → (c ≠ 0 ↔ Left i k))

variable {max i : ℕ} {numbers : List UInt8} {buf : ℕ → List UInt8}

theorem Sifted.strike (h : Sifted max i numbers) (hprime : i.Prime) (hmax : max ≤ 2 ^ 30)
    (him : i < max) :
    ∃ numbers', strikeLoop max i i numbers = some numbers' ∧ Sifted max (i + 1) numbers' := by
  obtain ⟨numbers', hrun, hlength, hstruck⟩ :=
    strikeLoop_eq h.length hmax hprime.pos him dvd_rfl
  refine ⟨numbers', hrun, hlength, ?_⟩
  intro k hk
  obtain ⟨c, hc, hleft⟩ := h.left k hk
  rw [hstruck k hk, hc]
  by_cases hdvd : i ≤ k ∧ i ∣ k
  · rw [if_pos hdvd]
    refine ⟨0, rfl, fun _ => iff_of_false (not_not.mpr rfl) ?_⟩
    rw [left_succ_of_prime hprime]
    exact fun hleft => hleft.2 hdvd.2
  · rw [if_neg hdvd]
    refine ⟨c, rfl, fun htwo => ?_⟩
    rw [hleft htwo, left_succ_of_prime hprime]
    refine ⟨fun hleft => ⟨hleft, fun h => hdvd ⟨Nat.le_of_dvd (by omega) h, h⟩⟩, And.left⟩

theorem Sifted.skip (h : Sifted max i numbers) (hcomposite : ¬i.Prime) :
    Sifted max (i + 1) numbers := by
  refine ⟨h.length, ?_⟩
  intro k hk
  obtain ⟨c, hc, hleft⟩ := h.left k hk
  refine ⟨c, hc, fun htwo => ?_⟩
  rw [hleft htwo, left_succ_of_not_prime hcomposite]

/-- What is printed for the primes among some numbers. -/
def shown (numbers : List ℕ) : List UInt8 :=
  (numbers.filter fun p => p.Prime).flatMap fun p => decimalOf p ++ encode " "

theorem eratLoop_eq (hbuf : ∀ i, (buf i).length = 20) (hmax : max ≤ 2 ^ 30) (hi : 2 ≤ i)
    (h : Sifted max i numbers) :
    eratLoop max buf i numbers = some (shown (List.range' i (max - i))) := by
  induction hn : max - i generalizing i numbers with
  | zero =>
    rw [eratLoop, if_neg (by omega)]
    rfl
  | succ n ih =>
    have him : i < max := by omega
    obtain ⟨c, hc, hleft⟩ := h.left i him
    have hturn : c ≠ 0 ↔ i.Prime := (hleft hi).trans (left_self_iff hi)
    rw [eratLoop, if_pos him, hc, List.range'_succ, shown, List.filter_cons]
    by_cases hprime : i.Prime
    · obtain ⟨buf', r, hwritten, hprinted⟩ := printString_unsToStr (hbuf i) (UInt32.ofNat i)
      obtain ⟨numbers', hstrike, hsifted⟩ := h.strike hprime hmax him
      have hblank := printString_text (by decide +kernel : 0 ∉ encode " ") []
      have hrest := ih (by omega) hsifted (by omega)
      rw [UInt32.toNat_ofNat_of_lt' (show i < 2 ^ 32 by omega)] at hprinted
      simp only [if_pos (hturn.mpr hprime), hwritten, hprinted, hblank, hstrike, hrest,
        Option.bind_eq_bind, Option.bind_some, hprime, decide_true, if_true, List.flatMap_cons]
      rfl
    · have hrest := ih (by omega) (h.skip hprime) (by omega)
      simp only [if_neg (mt hturn.mp hprime), hrest, hprime, decide_false, Bool.false_eq_true,
        if_false]
      rfl

theorem shown_range (max : ℕ) : shown (List.range max) = shown (List.range' 2 (max - 2)) := by
  match max with
  | 0 | 1 => decide
  | max + 2 =>
    have hsplit : List.range (max + 2) = 0 :: 1 :: List.range' 2 max := by
      rw [List.range_eq_range', List.range'_succ, List.range'_succ]
    rw [hsplit, shown, List.filter_cons_of_neg (by decide), List.filter_cons_of_neg (by decide)]
    rfl

/-- The sieve prints 1 and the primes below its bound, which may go up to `2 ^ 30`. The stack is taken
to have room for the array, a byte for each number. -/
theorem erat_prints (hmax : max ≤ 2 ^ 30) (hnumbers : numbers.length = max)
    (hbuf : ∀ i, (buf i).length = 20) :
    erat max numbers buf = some (encode "Primtal: 1 " ++
      (((List.range max).filter fun p => p.Prime).flatMap fun p => decimalOf p ++ encode " ") ++
      encode "\n") := by
  obtain ⟨ones, hinit, hlength, -, hones⟩ := initLoop_eq hnumbers (i := 0)
  have hsifted : Sifted max 2 ones := by
    refine ⟨hlength, ?_⟩
    intro k hk
    exact ⟨1, hones k hk (Nat.zero_le k), fun _ => iff_of_true (by decide) (left_two k)⟩
  have hloop := eratLoop_eq hbuf hmax (Nat.le_refl 2) hsifted
  have hstart := printString_text (by decide +kernel : 0 ∉ encode "Primtal: 1 ") []
  have hlast := printString_text (by decide +kernel : 0 ∉ encode "\n") []
  change _ = some (_ ++ shown (List.range max) ++ _)
  rw [erat, hinit, shown_range]
  simp only [Option.bind_eq_bind, Option.bind_some, hstart, hlast, hloop]
  rfl

/-- The program as it is compiled, and with a smaller bound. -/
theorem erat_prints_main :
    erat MAX (List.replicate MAX 7) (fun _ => List.replicate 20 7) =
        some (encode "Primtal: 1 " ++
          (((List.range MAX).filter fun p => p.Prime).flatMap fun p => decimalOf p ++ encode " ") ++
          encode "\n") ∧
      erat 10 (List.replicate 10 7) (fun _ => List.replicate 20 7) =
        some (encode "Primtal: 1 2 3 5 7 \n") := by
  constructor
  · exact erat_prints (by decide) List.length_replicate fun _ => List.length_replicate
  · refine (erat_prints (by decide) List.length_replicate fun _ => List.length_replicate).trans ?_
    decide +kernel

end Sieve

/-! ## Reading a line -/

section Echo

/-- The characters of the first line, at most so many, of an input with bytes 255 behind its end. -/
def firstLine (most : ℕ) (input : List UInt8) : List UInt8 :=
  ((input ++ List.replicate most 255).takeWhile fun c => c ≠ 10 ∧ c ≠ 13).take most

/-- As many bytes behind the end as can be read are as good as more of them. -/
theorem firstLine_eq {most pad : ℕ} (h : most ≤ pad) (input : List UInt8) :
    ((input ++ List.replicate pad 255).takeWhile fun c => c ≠ 10 ∧ c ≠ 13).take most =
      firstLine most input := by
  unfold firstLine
  induction most generalizing pad input with
  | zero => rw [List.take_zero, List.take_zero]
  | succ most ih =>
    obtain ⟨pad, rfl⟩ := Nat.exists_eq_add_of_le' (Nat.one_le_of_lt h)
    cases input with
    | nil =>
      have hrest := ih (Nat.le_of_succ_le_succ h) []
      rw [List.nil_append, List.nil_append] at hrest
      rw [List.nil_append, List.nil_append, List.replicate_succ, List.replicate_succ,
        List.takeWhile_cons_of_pos (by decide), List.takeWhile_cons_of_pos (by decide),
        List.take_succ_cons, List.take_succ_cons, hrest]
    | cons c input =>
      have hleft := ih (Nat.le_of_succ_le h) input
      have hright := ih (Nat.le_succ most) input
      rw [List.cons_append, List.cons_append, List.takeWhile_cons, List.takeWhile_cons]
      split
      · rw [List.take_succ_cons, List.take_succ_cons, hleft, hright]
      · rfl

theorem firstLine_succ (most : ℕ) (input : List UInt8) :
    firstLine (most + 1) input =
      if (inp input).1 ≠ 10 ∧ (inp input).1 ≠ 13 then
        (inp input).1 :: firstLine most (inp input).2
      else [] := by
  cases input with
  | nil =>
    rw [firstLine, List.nil_append, List.replicate_succ, List.takeWhile_cons_of_pos (by decide),
      List.take_succ_cons]
    rfl
  | cons c input =>
    rw [firstLine, List.cons_append, List.takeWhile_cons]
    by_cases hc : c ≠ 10 ∧ c ≠ 13
    · rw [if_pos (decide_eq_true hc), List.take_succ_cons, firstLine_eq (Nat.le_succ most)]
      exact (if_pos hc).symm
    · rw [if_neg (by simpa using hc)]
      exact (if_neg hc).symm

/-- The line goes behind what has been written, with a NUL behind it. -/
theorem readLoop_eq (front room input : List UInt8) {maxChars : ℕ} (hpos : 0 < maxChars)
    (hroom : maxChars ≤ room.length) :
    ∃ rest, readLoop (front ++ room) front.length maxChars (inp input).1 (inp input).2 =
      some (front ++ firstLine (maxChars - 1) input ++
        0 :: room.drop ((firstLine (maxChars - 1) input).length + 1), rest) := by
  induction maxChars generalizing front room input with
  | zero => exact absurd hpos (Nat.lt_irrefl 0)
  | succ most ih =>
    cases room with
    | nil => exact absurd hroom (by simp)
    | cons old room =>
      rw [Nat.add_sub_cancel, readLoop]
      rw [List.length_cons] at hroom
      have hend : write (front ++ old :: room) front.length 0 = some (front ++ 0 :: room) :=
        write_append front old 0 room
      cases most with
      | zero =>
        rw [if_neg fun h => absurd h.2.2 (Nat.lt_irrefl 1), hend]
        exact ⟨(inp input).2, by simp [firstLine]⟩
      | succ most =>
        rw [firstLine_succ]
        by_cases hc : (inp input).1 ≠ 10 ∧ (inp input).1 ≠ 13
        · obtain ⟨rest, hrun⟩ := ih (front ++ [(inp input).1]) room (inp input).2 (by omega) (by omega)
          rw [List.length_append, List.length_singleton, List.append_assoc, List.singleton_append,
            Nat.add_sub_cancel] at hrun
          rw [if_pos ⟨hc.1, hc.2, by omega⟩, if_pos hc, write_append, Option.bind_eq_bind,
            Option.bind_some, Nat.add_sub_cancel, hrun]
          exact ⟨rest, by simp⟩
        · rw [if_neg fun h => hc ⟨h.1, h.2.1⟩, if_neg hc, hend]
          exact ⟨(inp input).2, by simp⟩

/-- A line is read into a buffer with room for it, of which nothing else changes, and cut off when it
is too long; `echo` prints it up to its first NUL. -/
theorem read_string_echo :
    (∀ (buffer input : List UInt8) (maxChars : ℕ), 0 < maxChars → maxChars ≤ buffer.length →
      ∃ rest, readString buffer maxChars input =
        some (firstLine (maxChars - 1) input ++
          0 :: buffer.drop ((firstLine (maxChars - 1) input).length + 1), rest)) ∧
    ∀ buffer input : List UInt8, buffer.length = 128 →
      (echo buffer input).map Prod.fst = some (
        encode "Hej med dig - skriv noget, saa bliver jeg glad: " ++ encode "Du skrev: " ++
          cString (firstLine 127 input)) := by
  have hread : ∀ (buffer input : List UInt8) (maxChars : ℕ), 0 < maxChars →
      maxChars ≤ buffer.length → ∃ rest, readString buffer maxChars input =
        some (firstLine (maxChars - 1) input ++
          0 :: buffer.drop ((firstLine (maxChars - 1) input).length + 1), rest) := by
    intro buffer input maxChars hpos hroom
    exact readLoop_eq [] buffer input hpos hroom
  refine ⟨hread, ?_⟩
  intro buffer input hlength
  obtain ⟨rest, hline⟩ := hread buffer input 128 (by decide) (by omega)
  have hprompt := printString_text (by decide +kernel :
    0 ∉ encode "Hej med dig - skriv noget, saa bliver jeg glad: ") []
  have hanswer := printString_text (by decide +kernel : 0 ∉ encode "Du skrev: ") []
  have hsaid := printString_cString (firstLine (128 - 1) input)
    (buffer.drop ((firstLine (128 - 1) input).length + 1))
  rw [echo, hprompt, hline]
  simp only [Option.bind_eq_bind, Option.bind_some, hanswer, hsaid]
  rfl

theorem read_string_echo_hi : (echo (List.replicate 128 7) [72, 105, 10, 33]).map Prod.fst = some (
    encode "Hej med dig - skriv noget, saa bliver jeg glad: Du skrev: Hi") := by
  refine (read_string_echo.2 _ [72, 105, 10, 33] List.length_replicate).trans ?_
  decide +kernel

end Echo

end CompSys.TinyPrograms
