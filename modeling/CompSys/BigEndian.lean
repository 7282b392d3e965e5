import Mathlib.Algebra.Group.Nat.Defs
import Mathlib.Data.List.Induction

/-!
# Big-endian numbers

A number as a fixed count of bytes, most significant byte first.
-/
namespace CompSys.BigEndian

/-- The last `k` base-256 digits of a number. -/
def encode : Nat → Nat → List UInt8
  | 0, _ => []
  | k + 1, n => encode k (n / 256) ++ [UInt8.ofNat n]

def decode (bytes : List UInt8) : Nat := bytes.foldl (fun acc b => acc * 256 + b.toNat) 0

@[simp] theorem length_encode (k n : Nat) : (encode k n).length = k := by
  induction k generalizing n with
  | zero => rfl
  | succ k ih => rw [encode, List.length_append, ih, List.length_singleton]

theorem decode_concat (bytes : List UInt8) (b : UInt8) :
    decode (bytes ++ [b]) = decode bytes * 256 + b.toNat := by
  rw [decode, List.foldl_append]
  rfl

theorem decode_lt (bytes : List UInt8) : decode bytes < 256 ^ bytes.length := by
  induction bytes using List.reverseRecOn with
  | nil => exact Nat.one_pos
  | append_singleton bytes b ih =>
    have hb := b.toNat_lt
    rw [decode_concat, List.length_append, List.length_singleton, Nat.pow_succ]
    omega

/-- What fits is read back. -/
theorem decode_encode (k : Nat) : ∀ n, n < 256 ^ k → decode (encode k n) = n := by
  induction k with
  | zero =>
      intro n hn
      rw [Nat.pow_zero] at hn
      have hzero : n = 0 := by omega
      rw [hzero]
      rfl
  | succ k ih =>
      intro n hn
      have hhigh : n / 256 < 256 ^ k := by
        rw [Nat.pow_succ] at hn
        omega
      rw [encode, decode_concat, ih _ hhigh, UInt8.toNat_ofNat']
      omega

/-- The upper and the lower digits apart. -/
theorem encode_add (j k n : Nat) : encode (j + k) n = encode j (n / 256 ^ k) ++ encode k n := by
  induction k generalizing n with
  | zero => simp [encode]
  | succ k ih =>
    rw [← Nat.add_assoc, encode, encode, ih, Nat.div_div_eq_div_mul, ← Nat.pow_succ',
      List.append_assoc]

/-- What does not fit is cut off. -/
theorem encode_mod (k n : Nat) : encode k (n % 256 ^ k) = encode k n := by
  induction k generalizing n with
  | zero => rfl
  | succ k ih =>
    have hlast : UInt8.ofNat (n % 256 ^ (k + 1)) = UInt8.ofNat n := by
      apply UInt8.toNat_inj.mp
      rw [UInt8.toNat_ofNat', UInt8.toNat_ofNat', Nat.pow_succ]
      exact Nat.mod_mul_left_mod n (256 ^ k) 256
    rw [encode, encode, hlast, Nat.pow_succ, Nat.mod_mul_left_div_self, ih]

/-! ## Numbers in memory -/

inductive ByteOrder where
  | little | big
  deriving DecidableEq, Repr

def byte (x : UInt32) (i : Nat) : UInt8 := UInt8.ofNat (x.toNat / 256 ^ i)

/-- The bytes of a number in memory. -/
def ByteOrder.stored (order : ByteOrder) (x : UInt32) : List UInt8 :=
  match order with
  | .little => [byte x 0, byte x 1, byte x 2, byte x 3]
  | .big => [byte x 3, byte x 2, byte x 1, byte x 0]

/-- `htonl`: where the least significant byte comes first, the bytes change places. -/
def ByteOrder.htonl (order : ByteOrder) (x : UInt32) : UInt32 :=
  match order with
  | .little => UInt32.ofNat (decode [byte x 0, byte x 1, byte x 2, byte x 3])
  | .big => x

theorem toNat_byte (x : UInt32) (i : Nat) : (byte x i).toNat = x.toNat / 256 ^ i % 256 := by
  rw [byte, UInt8.toNat_ofNat']

theorem encode_four (x : UInt32) : encode 4 x.toNat = [byte x 3, byte x 2, byte x 1, byte x 0] := by
  simp [encode, byte, Nat.div_div_eq_div_mul]

theorem toNat_htonl_little (x : UInt32) : (ByteOrder.little.htonl x).toNat =
    (((byte x 0).toNat * 256 + (byte x 1).toNat) * 256 + (byte x 2).toNat) * 256 +
      (byte x 3).toNat := by
  have hlt : decode [byte x 0, byte x 1, byte x 2, byte x 3] < 256 ^ 4 := decode_lt _
  rw [ByteOrder.htonl, UInt32.toNat_ofNat', Nat.mod_eq_of_lt (by omega)]
  simp [decode]

/-- In either order, `htonl` puts the most significant byte first. -/
theorem stored_htonl (order : ByteOrder) (x : UInt32) :
    order.stored (order.htonl x) = encode 4 x.toNat := by
  rw [encode_four]
  cases order with
  | big => rfl
  | little =>
    have hvalue := toNat_htonl_little x
    simp only [ByteOrder.stored, List.cons.injEq, and_true, ← UInt8.toNat_inj,
      toNat_byte (ByteOrder.htonl _ _)]
    generalize byte x 0 = a at *
    generalize byte x 1 = b at *
    generalize byte x 2 = c at *
    generalize byte x 3 = d at *
    have ha := a.toNat_lt
    have hb := b.toNat_lt
    have hc := c.toNat_lt
    have hd := d.toNat_lt
    omega

end CompSys.BigEndian
