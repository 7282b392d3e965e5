import CompSys.BitField
import Mathlib.Data.BitVec
import Mathlib.Logic.Function.Basic

/-!
# Flat little-endian byte memories

A memory maps every address of `w` bits to one byte. Halfwords and words are
read and written byte by byte, least significant byte first.
-/
namespace CompSys.ByteMemory

variable {w : Nat}

abbrev Bytes (w : Nat) := BitVec w → BitVec 8

def writeB (m : Bytes w) (a : BitVec w) (d : BitVec 8) : Bytes w := Function.update m a d

def writeH (m : Bytes w) (a : BitVec w) (d : BitVec 16) : Bytes w :=
  writeB (writeB m a (d.extractLsb' 0 8)) (a + 1#w) (d.extractLsb' 8 8)

def writeW (m : Bytes w) (a : BitVec w) (d : BitVec 32) : Bytes w :=
  writeH (writeH m a (d.extractLsb' 0 16)) (a + 2#w) (d.extractLsb' 16 16)

def readH (m : Bytes w) (a : BitVec w) : BitVec 16 := m (a + 1#w) ++ m a

def readW (m : Bytes w) (a : BitVec w) : BitVec 32 := readH m (a + 2#w) ++ readH m a

theorem writeB_self (m : Bytes w) (a : BitVec w) (d : BitVec 8) : writeB m a d a = d := by
  rw [writeB, Function.update_self]

theorem writeB_other (m : Bytes w) {a b : BitVec w} (d : BitVec 8) (h : b ≠ a) :
    writeB m a d b = m b := by
  rw [writeB, Function.update_of_ne h]

theorem writeH_other (m : Bytes w) {a b : BitVec w} (d : BitVec 16)
    (h₀ : b ≠ a) (h₁ : b ≠ a + 1#w) : writeH m a d b = m b := by
  rw [writeH, writeB_other _ _ h₁, writeB_other _ _ h₀]

theorem writeW_other (m : Bytes w) {a b : BitVec w} (d : BitVec 32) (h₀ : b ≠ a)
    (h₁ : b ≠ a + 1#w) (h₂ : b ≠ a + 2#w) (h₃ : b ≠ a + 2#w + 1#w) :
    writeW m a d b = m b := by
  rw [writeW, writeH_other _ _ h₂ h₃, writeH_other _ _ h₀ h₁]

/-! ## Runs of bytes -/

/-- The bytes go to consecutive addresses, which may wrap around. -/
def writeBytes (m : Bytes w) (a : BitVec w) : List (BitVec 8) → Bytes w
  | [] => m
  | b :: rest => writeBytes (writeB m a b) (a + 1#w) rest

/-- The bytes stand at consecutive addresses. -/
def Holds (m : Bytes w) (a : BitVec w) : List (BitVec 8) → Prop
  | [] => True
  | b :: rest => m a = b ∧ Holds m (a + 1#w) rest

/-- One of the `n` addresses from `a` on. -/
def InArea (a : BitVec w) (n : ℕ) (b : BitVec w) : Prop := ∃ i < n, b = a + BitVec.ofNat w i

theorem ofNat_succ_eq (a : BitVec w) (i : ℕ) :
    a + BitVec.ofNat w (i + 1) = a + 1#w + BitVec.ofNat w i := by
  rw [BitVec.ofNat_add, BitVec.add_comm (BitVec.ofNat w i), BitVec.add_assoc]

theorem inArea_self {a : BitVec w} {n : ℕ} (h : 0 < n) : InArea a n a := ⟨0, h, by simp⟩

theorem InArea.tail {a b : BitVec w} {n : ℕ} (h : InArea (a + 1#w) n b) : InArea a (n + 1) b := by
  obtain ⟨i, hi, rfl⟩ := h
  exact ⟨i + 1, Nat.succ_lt_succ hi, (ofNat_succ_eq a i).symm⟩

/-- An area that does not wrap around is an interval of addresses. -/
theorem inArea_iff {a c : BitVec w} {n : ℕ} (h : a.toNat + n ≤ 2 ^ w) :
    InArea a n c ↔ a.toNat ≤ c.toNat ∧ c.toNat < a.toNat + n := by
  have hword (i : ℕ) (hi : i < n) : (a + BitVec.ofNat w i).toNat = a.toNat + i := by
    have hi' : i < 2 ^ w := by omega
    have hsum : a.toNat + i < 2 ^ w := by omega
    rw [BitVec.toNat_add, BitVec.toNat_ofNat, Nat.mod_eq_of_lt hi', Nat.mod_eq_of_lt hsum]
  constructor
  · intro ⟨i, hi, heq⟩
    rw [heq, hword i hi]
    omega
  · intro ⟨hle, hlt⟩
    have hi : c.toNat - a.toNat < n := by omega
    refine ⟨c.toNat - a.toNat, hi, BitVec.eq_of_toNat_eq ?_⟩
    rw [hword _ hi]
    omega

/-- The bytes after the first do not wrap around to it. -/
theorem not_inArea_tail {a : BitVec w} {n : ℕ} (h : n < 2 ^ w) : ¬ InArea (a + 1#w) n a := by
  intro ⟨i, hi, heq⟩
  rw [← ofNat_succ_eq] at heq
  have hzero := congrArg BitVec.toNat (left_eq_add.mp heq)
  have hlt : i + 1 < 2 ^ w := by omega
  rw [BitVec.toNat_ofNat, Nat.mod_eq_of_lt hlt] at hzero
  exact Nat.succ_ne_zero i hzero

theorem writeBytes_other (l : List (BitVec 8)) (m : Bytes w) {a b : BitVec w}
    (h : ¬ InArea a l.length b) : writeBytes m a l b = m b := by
  induction l generalizing m a with
  | nil => rfl
  | cons x rest ih =>
    have hne : b ≠ a := fun heq => h (heq ▸ inArea_self (Nat.succ_pos _))
    rw [writeBytes, ih _ fun hrest => h hrest.tail, writeB_other _ _ hne]

theorem Holds.congr {l : List (BitVec 8)} {m m' : Bytes w} {a : BitVec w} (h : Holds m a l)
    (hsame : ∀ b, InArea a l.length b → m' b = m b) : Holds m' a l := by
  induction l generalizing a with
  | nil => trivial
  | cons x rest ih =>
    refine ⟨(hsame a (inArea_self (Nat.succ_pos _))).trans h.1, ih h.2 ?_⟩
    exact fun b hb => hsame b hb.tail

/-- What was written is there. -/
theorem holds_writeBytes {l : List (BitVec 8)} (h : l.length ≤ 2 ^ w) (m : Bytes w)
    (a : BitVec w) : Holds (writeBytes m a l) a l := by
  induction l generalizing m a with
  | nil => trivial
  | cons x rest ih =>
    have hlt : rest.length < 2 ^ w := h
    refine ⟨?_, ih (Nat.le_of_lt hlt) _ _⟩
    rw [writeBytes, writeBytes_other _ _ (not_inArea_tail hlt), writeB_self]

/-- Writing what is there changes nothing. -/
theorem writeBytes_of_holds {l : List (BitVec 8)} {m : Bytes w} {a : BitVec w}
    (h : Holds m a l) : writeBytes m a l = m := by
  induction l generalizing a with
  | nil => rfl
  | cons x rest ih =>
    have hhead : writeB m a x = m := by
      rw [writeB, ← h.1, Function.update_eq_self]
    rw [writeBytes, hhead, ih h.2]

/-- Memories that hold the same bytes agree there. -/
theorem Holds.unique {l : List (BitVec 8)} {m m' : Bytes w} {a b : BitVec w} (h : Holds m a l)
    (h' : Holds m' a l) (hb : InArea a l.length b) : m b = m' b := by
  induction l generalizing a with
  | nil =>
    obtain ⟨i, hi, -⟩ := hb
    exact absurd hi (Nat.not_lt_zero i)
  | cons x rest ih =>
    obtain ⟨i, hi, rfl⟩ := hb
    cases i with
    | zero =>
      simp [h.1, h'.1]
    | succ i =>
      exact ih h.2 h'.2 ⟨i, Nat.lt_of_succ_lt_succ hi, ofNat_succ_eq a i⟩

/-- The bytes and what is around them determine the memory. -/
theorem eq_writeBytes_iff {l : List (BitVec 8)} (h : l.length ≤ 2 ^ w) (m m' : Bytes w)
    (a : BitVec w) :
    m' = writeBytes m a l ↔ Holds m' a l ∧ ∀ b, ¬ InArea a l.length b → m' b = m b := by
  constructor
  · intro heq
    rw [heq]
    exact ⟨holds_writeBytes h m a, fun b hb => writeBytes_other l m hb⟩
  · intro ⟨hheld, hother⟩
    funext b
    by_cases hb : InArea a l.length b
    · exact hheld.unique (holds_writeBytes h m a) hb
    · rw [hother b hb, writeBytes_other l m hb]

theorem holds_append {l l' : List (BitVec 8)} {m : Bytes w} {a : BitVec w} :
    Holds m a (l ++ l') ↔ Holds m a l ∧ Holds m (a + BitVec.ofNat w l.length) l' := by
  induction l generalizing a with
  | nil => simp [Holds]
  | cons x rest ih =>
    rw [List.cons_append, List.length_cons, ofNat_succ_eq]
    simp only [Holds, ih, and_assoc]

theorem writeBytes_append (l l' : List (BitVec 8)) (m : Bytes w) (a : BitVec w) :
    writeBytes m a (l ++ l') = writeBytes (writeBytes m a l) (a + BitVec.ofNat w l.length) l' := by
  induction l generalizing m a with
  | nil => simp [writeBytes]
  | cons x rest ih =>
    rw [List.cons_append, List.length_cons, ofNat_succ_eq]
    simp only [writeBytes, ih]

/-- The bytes behind `n` others are apart from them. -/
theorem not_inArea_behind {a c : BitVec w} {n k : ℕ} (h : n + k ≤ 2 ^ w)
    (hc : InArea (a + BitVec.ofNat w n) k c) : ¬ InArea a n c := by
  intro ⟨i, hi, heq⟩
  obtain ⟨j, hj, rfl⟩ := hc
  rw [BitVec.add_assoc, ← BitVec.ofNat_add, BitVec.add_right_inj] at heq
  have hnat := congrArg BitVec.toNat heq
  have hi' : i < 2 ^ w := by omega
  have hj' : n + j < 2 ^ w := by omega
  rw [BitVec.toNat_ofNat, BitVec.toNat_ofNat, Nat.mod_eq_of_lt hi', Nat.mod_eq_of_lt hj'] at hnat
  omega

/-- Further bytes behind those written change nothing when they are there already. -/
theorem writeBytes_append_eq_iff {l l' : List (BitVec 8)} (h : l.length + l'.length ≤ 2 ^ w)
    (m : Bytes w) (a : BitVec w) :
    writeBytes m a (l ++ l') = writeBytes m a l ↔ Holds m (a + BitVec.ofNat w l.length) l' := by
  have hkept : ∀ c, InArea (a + BitVec.ofNat w l.length) l'.length c → writeBytes m a l c = m c :=
    fun c hc => writeBytes_other l m (not_inArea_behind h hc)
  have hfits : l'.length ≤ 2 ^ w := by omega
  rw [writeBytes_append]
  constructor
  · intro heq
    have hheld := holds_writeBytes hfits (writeBytes m a l) (a + BitVec.ofNat w l.length)
    rw [heq] at hheld
    exact hheld.congr fun c hc => (hkept c hc).symm
  · intro hheld
    exact writeBytes_of_holds (hheld.congr hkept)

/-- Bytes that are written in two places apart from each other are written alike only if
both places hold them already. -/
theorem writeBytes_eq_iff {l : List (BitVec 8)} (h : l.length ≤ 2 ^ w) (m : Bytes w)
    {a b : BitVec w} (hapart : ∀ c, InArea a l.length c → ¬ InArea b l.length c) :
    writeBytes m a l = writeBytes m b l ↔ Holds m a l ∧ Holds m b l := by
  constructor
  · intro heq
    have ha := holds_writeBytes h m a
    have hb := holds_writeBytes h m b
    constructor
    · rw [heq] at ha
      exact ha.congr fun c hc => (writeBytes_other l m (hapart c hc)).symm
    · rw [← heq] at hb
      exact hb.congr fun c hc => (writeBytes_other l m fun hac => hapart c hac hc).symm
  · intro ⟨ha, hb⟩
    rw [writeBytes_of_holds ha, writeBytes_of_holds hb]

/-! ## Halfwords and words as runs of bytes -/

def halfBytes (d : BitVec 16) : List (BitVec 8) := [d.extractLsb' 0 8, d.extractLsb' 8 8]

def wordBytes (d : BitVec 32) : List (BitVec 8) :=
  [d.extractLsb' 0 8, d.extractLsb' 8 8, d.extractLsb' 16 8, d.extractLsb' 24 8]

theorem length_wordBytes (d : BitVec 32) : (wordBytes d).length = 4 := rfl

theorem writeH_eq (m : Bytes w) (a : BitVec w) (d : BitVec 16) :
    writeH m a d = writeBytes m a (halfBytes d) := rfl

theorem writeW_eq (m : Bytes w) (a : BitVec w) (d : BitVec 32) :
    writeW m a d = writeBytes m a (wordBytes d) := by
  have htwo : a + 2#w = a + 1#w + 1#w := ofNat_succ_eq a 1
  simp (disch := decide) only [writeW, writeH, writeBytes, wordBytes, htwo,
    BitField.extract_extract]

theorem holds_writeW (h : 4 ≤ 2 ^ w) (m : Bytes w) (a : BitVec w) (d : BitVec 32) :
    Holds (writeW m a d) a (wordBytes d) := by
  rw [writeW_eq]
  exact holds_writeBytes h m a

theorem holds_halfBytes (m : Bytes w) (a : BitVec w) (d : BitVec 16) :
    Holds m a (halfBytes d) ↔ readH m a = d := by
  rw [readH, BitField.append_eq_iff]
  simp only [Holds, halfBytes, and_true]
  exact and_comm

theorem holds_wordBytes (m : Bytes w) (a : BitVec w) (d : BitVec 32) :
    Holds m a (wordBytes d) ↔ readW m a = d := by
  have htwo : a + 2#w = a + 1#w + 1#w := ofNat_succ_eq a 1
  have happend : wordBytes d = halfBytes (d.extractLsb' 0 16) ++ halfBytes (d.extractLsb' 16 16) := by
    simp (disch := decide) only [wordBytes, halfBytes, BitField.extract_extract, List.cons_append,
      List.nil_append]
  rw [happend, holds_append, holds_halfBytes, holds_halfBytes, readW, BitField.append_eq_iff]
  exact and_comm

end CompSys.ByteMemory
