import CompSys.RadixInvariant

/-!
# The output loop of the radix program

`write_int_buffer` may write fewer numbers than it is asked for. The loop asks again for what
is missing, but hands over the buffer from its start.
-/
namespace CompSys.Radix

/-- Each call writes something and no more than it is asked for. -/
def WritesSome (write : WriteIntBuffer) : Prop :=
  ∀ contents size, 0 < size.toInt →
    1 ≤ (write contents size).toInt ∧ (write contents size).toInt ≤ size.toInt

/-- How many numbers the call writes that comes when the first `k` are in the file. -/
def written (write : WriteIntBuffer) (outNumbers out : List Word) (k : Nat) : Nat :=
  (write (out ++ outNumbers.take k) (BitVec.ofNat 32 (outNumbers.length - k))).toInt.toNat

/-- When the first `k` numbers are in the file, each further call finds those that it should
write also at the start of the buffer. -/
inductive InStep (write : WriteIntBuffer) (outNumbers out : List Word) : Nat → Prop where
  | done : InStep write outNumbers out outNumbers.length
  | call {k : Nat} (hk : k < outNumbers.length)
      (hsame : outNumbers.take (written write outNumbers out k) =
        (outNumbers.drop k).take (written write outNumbers out k))
      (hrest : InStep write outNumbers out (k + written write outNumbers out k)) :
      InStep write outNumbers out k

section Loop

variable {write : WriteIntBuffer} {outNumbers : List Word}

theorem written_bounds (hwrite : WritesSome write) (hlen : outNumbers.length < 2 ^ 31)
    (out : List Word) {k : Nat} (hk : k < outNumbers.length) :
    1 ≤ written write outNumbers out k ∧ written write outNumbers out k ≤ outNumbers.length - k := by
  have hsize : (BitVec.ofNat 32 (outNumbers.length - k)).toInt = (outNumbers.length - k : Nat) :=
    toInt_ofNat_small (by omega)
  have hsome := hwrite (out ++ outNumbers.take k) (BitVec.ofNat 32 (outNumbers.length - k)) (by omega)
  unfold written
  omega

/-- One call. -/
theorem writeLoop_call (hwrite : WritesSome write) (hlen : outNumbers.length < 2 ^ 31)
    (contents : List Word) (left : Nat) (hpos : 0 < left) (hleft : left ≤ outNumbers.length)
    (fuel : Nat) :
    ∃ w, 1 ≤ w ∧ w ≤ left ∧ (write contents (BitVec.ofNat 32 left)).toInt.toNat = w ∧
      writeLoop write outNumbers (fuel + 1) contents (BitVec.ofNat 32 left) =
        writeLoop write outNumbers fuel (contents ++ outNumbers.take w)
          (BitVec.ofNat 32 (left - w)) := by
  have hsize : (BitVec.ofNat 32 left).toInt = left := toInt_ofNat_small (by omega)
  have hsome := hwrite contents (BitVec.ofNat 32 left) (by omega)
  obtain ⟨w, hw⟩ : ∃ w : Nat, (write contents (BitVec.ofNat 32 left)).toInt = w :=
    ⟨_, (Int.toNat_of_nonneg (by omega)).symm⟩
  refine ⟨w, by omega, by omega, by omega, ?_⟩
  have hwritten : write contents (BitVec.ofNat 32 left) = BitVec.ofNat 32 w := by
    apply BitVec.eq_of_toInt_eq
    rw [hw, toInt_ofNat_small (by omega)]
  have hsub : BitVec.ofNat 32 left - BitVec.ofNat 32 w = BitVec.ofNat 32 (left - w) := by
    apply BitVec.eq_of_toInt_eq
    rw [toInt_sub_taken _ (by omega), hsize, toInt_ofNat_small (by omega)]
    omega
  rw [writeLoop, if_pos (by omega)]
  simp only [hwritten, hsub, toInt_ofNat_small (show w < 2 ^ 31 by omega), Int.toNat_natCast]

/-- The loop ends, and leaves as many numbers behind what is there as it was asked for. -/
theorem writeLoop_length (hwrite : WritesSome write) (hlen : outNumbers.length < 2 ^ 31)
    (fuel : Nat) : ∀ (contents : List Word) (left : Nat), left < fuel →
      left ≤ outNumbers.length →
      ∃ more, writeLoop write outNumbers fuel contents (BitVec.ofNat 32 left) =
        some (contents ++ more) ∧ more.length = left := by
  induction fuel with
  | zero =>
      intro contents left hfuel _
      omega
  | succ fuel ih =>
      intro contents left hfuel hleft
      rcases Nat.eq_zero_or_pos left with rfl | hpos
      · refine ⟨[], ?_, rfl⟩
        rw [List.append_nil]
        rfl
      · obtain ⟨w, hw, hle, -, hstep⟩ := writeLoop_call hwrite hlen contents left hpos hleft fuel
        obtain ⟨more, hrun, hmore⟩ := ih (contents ++ outNumbers.take w)
          (left - w) (by omega) (by omega)
        refine ⟨outNumbers.take w ++ more, ?_, ?_⟩
        · rw [hstep, hrun, List.append_assoc]
        · rw [List.length_append, hmore, List.length_take]
          omega

/-- The loop writes what it should from some number on exactly if it is in step there. -/
theorem writeLoop_iff (hwrite : WritesSome write) (hlen : outNumbers.length < 2 ^ 31)
    (out : List Word) (fuel : Nat) : ∀ {k : Nat}, k ≤ outNumbers.length →
      outNumbers.length - k < fuel →
      (writeLoop write outNumbers fuel (out ++ outNumbers.take k)
          (BitVec.ofNat 32 (outNumbers.length - k)) = some (out ++ outNumbers) ↔
        InStep write outNumbers out k) := by
  induction fuel with
  | zero =>
      intro k _ hfuel
      omega
  | succ fuel ih =>
      intro k hk hfuel
      rcases Nat.eq_or_lt_of_le hk with rfl | hlt
      · refine iff_of_true ?_ .done
        rw [Nat.sub_self, List.take_length]
        rfl
      · obtain ⟨w, hw, hle, hwritten, hstep⟩ := writeLoop_call hwrite hlen
          (out ++ outNumbers.take k) (outNumbers.length - k) (by omega) (by omega) fuel
        have hw' : written write outNumbers out k = w := hwritten
        rw [hstep, Nat.sub_sub]
        by_cases hsame : outNumbers.take w = (outNumbers.drop k).take w
        · have htake : outNumbers.take k ++ outNumbers.take w = outNumbers.take (k + w) := by
            rw [hsame, List.take_add]
          rw [List.append_assoc, htake, ih (by omega) (by omega)]
          constructor
          · intro hrest
            exact .call hlt (by rw [hw']; exact hsame) (by rw [hw']; exact hrest)
          · intro h
            cases h with
            | done => exact absurd hlt (Nat.lt_irrefl _)
            | call _ _ hrest =>
              rw [hw'] at hrest
              exact hrest
        · refine iff_of_false ?_ ?_
          · -- what has been written wrongly stays in the file
            intro hrun
            obtain ⟨more, hmore, -⟩ := writeLoop_length hwrite hlen fuel
              (out ++ outNumbers.take k ++ outNumbers.take w)
              (outNumbers.length - (k + w)) (by omega) (by omega)
            have heq := Option.some.inj (hmore.symm.trans hrun)
            rw [List.append_assoc, List.append_assoc] at heq
            have hall := List.append_cancel_left heq
            apply hsame
            have hdrop : ((outNumbers.take k ++ (outNumbers.take w ++ more)).drop k).take w =
                (outNumbers.drop k).take w := by rw [hall]
            rw [← hdrop, List.drop_append_of_le_length (by rw [List.length_take]; omega)]
            rw [List.drop_eq_nil_of_le (by rw [List.length_take]; omega), List.nil_append,
              List.take_append_of_le_length (by rw [List.length_take]; omega), List.take_take,
              Nat.min_self]
          · intro h
            cases h with
            | done => exact Nat.lt_irrefl _ hlt
            | call _ hsame' _ =>
              rw [hw'] at hsame'
              exact hsame hsame'

/-! ## Ascending numbers -/

theorem getElem_of_take_eq {l : List Word} {k w j : Nat} (h : l.take w = (l.drop k).take w)
    (hj : j < w) (hlen : k + j < l.length) : l[k + j] = l[j] := by
  have hget : (l.take w)[j]? = ((l.drop k).take w)[j]? := by rw [h]
  rw [List.getElem?_take_of_lt hj, List.getElem?_take_of_lt hj, List.getElem?_drop,
    List.getElem?_eq_getElem hlen, List.getElem?_eq_getElem (by omega)] at hget
  exact (Option.some.inj hget).symm

/-- A loop that is in step behind equal numbers meets only further ones. -/
theorem InStep.constant {out : List Word} (hwrite : WritesSome write)
    (hlen : outNumbers.length < 2 ^ 31) {v : Word} {k : Nat} (h : InStep write outNumbers out k)
    (hk : 0 < k) (heq : ∀ i (hi : i < outNumbers.length), i < k → outNumbers[i] = v) :
    ∀ i (hi : i < outNumbers.length), outNumbers[i] = v := by
  induction h with
  | done =>
      intro i hi
      exact heq i hi hi
  | @call k hlt hsame _ ih =>
      refine ih (by omega) ?_
      intro i
      induction i using Nat.strong_induction_on with
      | _ i ihi =>
          intro hi hik
          rcases Nat.lt_or_ge i k with hold | hnew
          · exact heq i hi hold
          · have hbounds := written_bounds hwrite hlen out hlt
            have hget := getElem_of_take_eq hsame (j := i - k) (by omega) (by omega)
            have hi' : k + (i - k) = i := by omega
            simp only [hi'] at hget
            rw [hget]
            exact ihi (i - k) (by omega) (by omega) (by omega)

/-- Among equal numbers every call is in step. -/
theorem InStep.of_constant {out : List Word} (hwrite : WritesSome write)
    (hlen : outNumbers.length < 2 ^ 31) {v : Word} (heq : ∀ x ∈ outNumbers, x = v) (n : Nat) :
    ∀ {k : Nat}, k ≤ outNumbers.length → outNumbers.length - k ≤ n →
      InStep write outNumbers out k := by
  have hreplicate : outNumbers = List.replicate outNumbers.length v :=
    List.eq_replicate_of_mem heq
  induction n with
  | zero =>
      intro k hk hn
      have hkeq : k = outNumbers.length := by omega
      rw [hkeq]
      exact .done
  | succ n ih =>
      intro k hk hn
      rcases Nat.eq_or_lt_of_le hk with rfl | hlt
      · exact .done
      · have hbounds := written_bounds hwrite hlen out hlt
        refine .call hlt ?_ (ih (by omega) (by omega))
        generalize written write outNumbers out k = w at hbounds ⊢
        rw [hreplicate, List.drop_replicate, List.take_replicate, List.take_replicate]
        congr 1
        omega

/-- Ascending numbers are all the same up to one that is the same as the first. -/
theorem eq_first_of_ascending {l : List Word} (h : (l.map BitVec.toInt).Pairwise (· ≤ ·))
    {w : Nat} (hw : w < l.length) (hsame : l[w] = l[0]) :
    ∀ i (hi : i < l.length), i < w → l[i] = l[0] := by
  have hle : ∀ i j (hi : i < l.length) (hj : j < l.length), i < j →
      l[i].toInt ≤ l[j].toInt := by
    intro i j hi hj hij
    have hpair := List.pairwise_iff_getElem.mp h i j (by simpa using hi) (by simpa using hj) hij
    simpa using hpair
  intro i hi hiw
  apply BitVec.eq_of_toInt_eq
  have hlast := hle i w hi hw hiw
  rw [hsame] at hlast
  rcases Nat.eq_zero_or_pos i with rfl | hpos
  · rfl
  · have hfirst := hle 0 i (by omega) hi hpos
    omega

/-- On ascending numbers the loop is in step exactly if its first call writes all of them, or
if they are all the same. -/
theorem inStep_ascending_iff (hwrite : WritesSome write) (hlen : outNumbers.length < 2 ^ 31)
    (out : List Word) (hascending : (outNumbers.map BitVec.toInt).Pairwise (· ≤ ·)) :
    InStep write outNumbers out 0 ↔
      written write outNumbers out 0 = outNumbers.length ∨ ∃ v, ∀ x ∈ outNumbers, x = v := by
  constructor
  · intro h
    generalize hk : 0 = k at h
    cases h with
    | done =>
      right
      exact ⟨0, fun x hx => absurd (List.length_pos_of_mem hx) (by omega)⟩
    | call hlt hsame hrest =>
      subst hk
      have hbounds := written_bounds hwrite hlen out hlt
      by_cases hfull : written write outNumbers out 0 = outNumbers.length
      · left
        exact hfull
      · right
        rw [Nat.zero_add] at hrest
        generalize written write outNumbers out 0 = w at hrest hbounds hfull
        have hw : w < outNumbers.length := by omega
        have hcall : outNumbers[w] = outNumbers[0] := by
          cases hrest with
          | done => exact absurd hw (Nat.lt_irrefl _)
          | call _ hsame' _ =>
            have hbounds' := written_bounds hwrite hlen out hw
            exact getElem_of_take_eq hsame' (j := 0) (by omega) (by omega)
        have hall := hrest.constant hwrite hlen (v := outNumbers[0]) (by omega)
          (eq_first_of_ascending hascending hw hcall)
        refine ⟨outNumbers[0], ?_⟩
        intro x hx
        obtain ⟨i, hi, rfl⟩ := List.getElem_of_mem hx
        exact hall i hi
  · rintro (hfull | ⟨v, heq⟩)
    · rcases Nat.eq_zero_or_pos outNumbers.length with hempty | hpos
      · rw [← hempty]
        exact .done
      · refine .call hpos ?_ ?_
        · rw [List.drop_zero]
        · rw [hfull, Nat.zero_add]
          exact .done
    · exact .of_constant hwrite hlen heq _ (Nat.zero_le _) (Nat.le_refl _)

end Loop

/-- The loop always ends and outputs as many numbers as were taken. They are the numbers taken
exactly if each call finds what it should write at the start of the buffer. On ascending numbers,
as `take_numbers` gives them, that is exactly if the first call writes all or all are the same. -/
theorem output_loop_iff (write : WriteIntBuffer) (outNumbers out : List Word)
    (hwrite : WritesSome write) (hlen : outNumbers.length < 2 ^ 31) :
    (∃ more, writeLoop write outNumbers (outNumbers.length + 1) out
        (BitVec.ofNat 32 outNumbers.length) = some (out ++ more) ∧
      more.length = outNumbers.length) ∧
    (writeLoop write outNumbers (outNumbers.length + 1) out
        (BitVec.ofNat 32 outNumbers.length) = some (out ++ outNumbers) ↔
      InStep write outNumbers out 0) ∧
    ((outNumbers.map BitVec.toInt).Pairwise (· ≤ ·) →
      (writeLoop write outNumbers (outNumbers.length + 1) out
          (BitVec.ofNat 32 outNumbers.length) = some (out ++ outNumbers) ↔
        written write outNumbers out 0 = outNumbers.length ∨
          ∃ v, ∀ x ∈ outNumbers, x = v)) := by
  have hiff := writeLoop_iff hwrite hlen out (outNumbers.length + 1) (k := 0) (Nat.zero_le _)
    (by omega)
  rw [List.take_zero, List.append_nil, Nat.sub_zero] at hiff
  refine ⟨writeLoop_length hwrite hlen _ out _ (by omega) (Nat.le_refl _), hiff, ?_⟩
  intro hascending
  rw [hiff, inStep_ascending_iff hwrite hlen out hascending]

theorem writesSome_one : WritesSome (fun _ _ => 1) := by
  intro _ size hsize
  simp only [show ((1 : Word).toInt) = 1 from rfl]
  omega

theorem output_loop_iff_short :
    writeLoop (fun _ _ => 1) [5, 5] 3 [] 2 = some [5, 5] ∧
      writeLoop (fun _ _ => 1) [5, 6] 3 [] 2 ≠ some [5, 6] := by
  constructor
  · refine ((output_loop_iff _ [5, 5] [] writesSome_one (by decide)).2.2
      (by decide)).mpr ?_
    right
    exact ⟨5, by simp⟩
  · intro h
    obtain hfull | ⟨v, hv⟩ := ((output_loop_iff _ [5, 6] [] writesSome_one
      (by decide)).2.2 (by decide)).mp h
    · exact absurd hfull (by decide)
    · have hfive := hv 5 (by simp)
      have hsix := hv 6 (by simp)
      exact absurd (hfive.trans hsix.symm) (by decide)

/-- 1 and 2 are added and taken again, and each call writes one number: the file has 1 twice. -/
theorem output_loop_repeats :
    WritesSome (fun _ _ => 1) ∧ writeLoop (fun _ _ => 1) [1, 2] 3 [] 2 = some [1, 1] ∧
      ∃ s, main (fun _ _ => 1) emptyHeap [[1, 2, -2]] = some (s, [1, 1]) := by
  refine ⟨writesSome_one, by decide, ?_⟩
  · have hout : (main (fun _ _ => 1) emptyHeap [[1, 2, -2]]).map Prod.snd = some [1, 1] := by
      decide +kernel
    obtain ⟨⟨s, out⟩, hrun, hsnd⟩ := Option.map_eq_some_iff.mp hout
    cases hsnd
    exact ⟨s, hrun⟩

end CompSys.Radix
