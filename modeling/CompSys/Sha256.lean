import CompSys.Sha2

/-!
# The hash function of A3 and A4

`sha256.c`, which both assignments carry, compiled without `SHA256_FAST_COPY` and with four
rounds in a turn of the loop. `burnStack` only clears what lies below the stack.
-/
namespace CompSys.Sha256

open BigEndian Sha2

/-! ## Words -/

def ROTL (x : BitVec 32) (n : Nat) : BitVec 32 := (x <<< n) ||| (x >>> (32 - n))

def ROTR (x : BitVec 32) (n : Nat) : BitVec 32 := (x >>> n) ||| (x <<< (32 - n))

def Ch (x y z : BitVec 32) : BitVec 32 := z ^^^ (x &&& (y ^^^ z))

def Maj (x y z : BitVec 32) : BitVec 32 := (x &&& (y ||| z)) ||| (y &&& z)

def SIGMA0 (x : BitVec 32) : BitVec 32 := ROTR x 2 ^^^ ROTR x 13 ^^^ ROTR x 22

def SIGMA1 (x : BitVec 32) : BitVec 32 := ROTR x 6 ^^^ ROTR x 11 ^^^ ROTR x 25

def sigma0 (x : BitVec 32) : BitVec 32 := ROTR x 7 ^^^ ROTR x 18 ^^^ x >>> 3

def sigma1 (x : BitVec 32) : BitVec 32 := ROTR x 17 ^^^ ROTR x 19 ^^^ x >>> 10

/-- `BYTESWAP`. For a big-endian machine the source asks to be compiled with `WORDS_BIGENDIAN` as 1,
and the macro does nothing. For any other machine it is not defined. -/
def byteswap (order : ByteOrder) (x : BitVec 32) : BitVec 32 :=
  match order with
  | .big => x
  | .little => (ROTR x 8 &&& 0xff00ff00) ||| (ROTL x 8 &&& 0x00ff00ff)

def byteswap64 (order : ByteOrder) (x : BitVec 64) : BitVec 64 :=
  match order with
  | .big => x
  | .little =>
    let a := (x >>> 32).setWidth 32
    let b := x.setWidth 32
    ((byteswap .little b).setWidth 64 <<< 32) ||| (byteswap .little a).setWidth 64

/-- A `uint32_t` read from its bytes in memory. -/
def load (order : ByteOrder) (bytes : List UInt8) : BitVec 32 :=
  match order with
  | .big => BitVec.ofNat 32 (decode bytes)
  | .little => BitVec.ofNat 32 (decode bytes.reverse)

/-- The bytes of a `uint64_t` in memory. -/
def store64 (order : ByteOrder) (x : BitVec 64) : List UInt8 :=
  match order with
  | .big => encode 8 x.toNat
  | .little => (encode 8 x.toNat).reverse

def K : List (BitVec 32) := [
  0x428a2f98, 0x71374491, 0xb5c0fbcf, 0xe9b5dba5,
  0x3956c25b, 0x59f111f1, 0x923f82a4, 0xab1c5ed5,
  0xd807aa98, 0x12835b01, 0x243185be, 0x550c7dc3,
  0x72be5d74, 0x80deb1fe, 0x9bdc06a7, 0xc19bf174,
  0xe49b69c1, 0xefbe4786, 0x0fc19dc6, 0x240ca1cc,
  0x2de92c6f, 0x4a7484aa, 0x5cb0a9dc, 0x76f988da,
  0x983e5152, 0xa831c66d, 0xb00327c8, 0xbf597fc7,
  0xc6e00bf3, 0xd5a79147, 0x06ca6351, 0x14292967,
  0x27b70a85, 0x2e1b2138, 0x4d2c6dfc, 0x53380d13,
  0x650a7354, 0x766a0abb, 0x81c2c92e, 0x92722c85,
  0xa2bfe8a1, 0xa81a664b, 0xc24b8b70, 0xc76c51a3,
  0xd192e819, 0xd6990624, 0xf40e3585, 0x106aa070,
  0x19a4c116, 0x1e376c08, 0x2748774c, 0x34b0bcb5,
  0x391c0cb3, 0x4ed8aa4a, 0x5b9cca4f, 0x682e6ff3,
  0x748f82ee, 0x78a5636f, 0x84c87814, 0x8cc70208,
  0x90befffa, 0xa4506ceb, 0xbef9a3f7, 0xc67178f2]

def padding : List UInt8 := 0x80 :: List.replicate 63 0

/-! ## A block -/

/-- `DO_ROUND`, with what `Kp` and `W` point to. -/
def doRound (v : Vars) (k w : BitVec 32) : Vars :=
  let t1 := v.h + SIGMA1 v.e + Ch v.e v.f v.g + k + w
  let t2 := SIGMA0 v.a + Maj v.a v.b v.c
  { h := v.g
    g := v.f
    f := v.e
    e := v.d + t1
    d := v.c
    c := v.b
    b := v.a
    a := t1 + t2 }

/-- The loop of the rounds, `i` turns before its end. -/
def roundLoop : Nat → Vars → List (BitVec 32) → List (BitVec 32) → Vars
  | i + 1, v, k₀ :: k₁ :: k₂ :: k₃ :: Kp, w₀ :: w₁ :: w₂ :: w₃ :: W =>
    roundLoop i (doRound (doRound (doRound (doRound v k₀ w₀) k₁ w₁) k₂ w₂) k₃ w₃) Kp W
  | _, v, _, _ => v

/-- The second loop on `buf`: all pointers move on by one, `W16` is the last to fall behind. -/
def extend : Nat → List (BitVec 32) → List (BitVec 32)
  | 0, buf => buf
  | i + 1, buf =>
    let W16 := buf.length - 16
    let W15 := W16 + 1
    let W7 := W16 + 9
    let W2 := W16 + 14
    extend i (buf ++ [sigma1 (buf.getD W2 0) + buf.getD W7 0 + sigma0 (buf.getD W15 0) +
      buf.getD W16 0])

/-- The words of a block in memory. -/
def words (order : ByteOrder) (bytes : List UInt8) : List (BitVec 32) :=
  (List.range 16).map fun i => load order ((bytes.drop (4 * i)).take 4)

def SHA256Guts (order : ByteOrder) (hash : Vars) (cbuf : List (BitVec 32)) : Vars :=
  let buf := extend 48 (cbuf.map (byteswap order))
  let v := roundLoop 16 hash K buf
  { a := hash.a + v.a
    b := hash.b + v.b
    c := hash.c + v.c
    d := hash.d + v.d
    e := hash.e + v.e
    f := hash.f + v.f
    g := hash.g + v.g
    h := hash.h + v.h }

/-! ## The context -/

/-- `SHA256_CTX` between two calls; the array `hash` has the fields of `Vars`, in their order. -/
structure Context where
  totalLength : BitVec 64
  hash : Vars
  buffer : List UInt8
  bufferLength : Nat
  length_buffer : buffer.length = 64
  bufferLength_lt : bufferLength < 64

/-- `memcpy (&sc->buffer.bytes[at], data, len)` with the first bytes of `data`. -/
def overwrite (buffer data : List UInt8) (start len : Nat) : List UInt8 :=
  buffer.take start ++ data.take len ++ buffer.drop (start + len)

theorem length_overwrite {buffer data : List UInt8} {start len : Nat}
    (hroom : start + len ≤ buffer.length) (hdata : len ≤ data.length) :
    (overwrite buffer data start len).length = buffer.length := by
  simp only [overwrite, List.length_append, List.length_take, List.length_drop]
  omega

/-- What is in the buffer before `sha256_init` stays there. -/
def sha256Init (buffer : List UInt8) (h : buffer.length = 64) : Context where
  totalLength := 0
  hash :=
    { a := 0x6a09e667
      b := 0xbb67ae85
      c := 0x3c6ef372
      d := 0xa54ff53a
      e := 0x510e527f
      f := 0x9b05688c
      g := 0x1f83d9ab
      h := 0x5be0cd19 }
  buffer := buffer
  bufferLength := 0
  length_buffer := h
  bufferLength_lt := by decide

/-- A turn of the loop of `sha256_update`, with the data that it leaves. -/
def updateTurn (order : ByteOrder) (sc : Context) (data : List UInt8) : Context × List UInt8 :=
  let bufferBytesLeft := 64 - sc.bufferLength
  let bytesToCopy := if data.length < bufferBytesLeft then data.length else bufferBytesLeft
  have hcopy : bytesToCopy ≤ bufferBytesLeft ∧ bytesToCopy ≤ data.length := by
    simp only [bytesToCopy]
    split <;> omega
  have hlt := sc.bufferLength_lt
  have hlength := sc.length_buffer
  let buffer := overwrite sc.buffer data sc.bufferLength bytesToCopy
  have hbuffer : buffer.length = 64 := by
    simp only [buffer]
    rw [length_overwrite (by omega) hcopy.2, hlength]
  let totalLength := sc.totalLength + BitVec.ofNat 64 (bytesToCopy * 8)
  if hfull : sc.bufferLength + bytesToCopy = 64 then
    (⟨totalLength, SHA256Guts order sc.hash (words order buffer), buffer, 0, hbuffer, by decide⟩,
      data.drop bytesToCopy)
  else
    (⟨totalLength, sc.hash, buffer, sc.bufferLength + bytesToCopy, hbuffer, by omega⟩,
      data.drop bytesToCopy)

/-- `while (len)`; a turn copies at least one byte. -/
def updateLoop (order : ByteOrder) : Nat → Context → List UInt8 → Context
  | 0, sc, _ => sc
  | turns + 1, sc, data =>
    if data = [] then sc
    else updateLoop order turns (updateTurn order sc data).1 (updateTurn order sc data).2

def sha256Update (order : ByteOrder) (sc : Context) (data : List UInt8) : Context :=
  updateLoop order data.length sc data

/-- The loop over the words of `hash`. -/
def hashBytes (hash : Vars) : List UInt8 :=
  [hash.a, hash.b, hash.c, hash.d, hash.e, hash.f, hash.g, hash.h].flatMap fun w : BitVec 32 =>
    [UInt8.ofNat (w >>> 24).toNat, UInt8.ofNat (w >>> 16).toNat, UInt8.ofNat (w >>> 8).toNat,
      UInt8.ofNat w.toNat]

def sha256Final (order : ByteOrder) (sc : Context) : List UInt8 :=
  let bytesToPad := if 64 < 120 - sc.bufferLength then 120 - sc.bufferLength - 64
    else 120 - sc.bufferLength
  let lengthPad := byteswap64 order sc.totalLength
  let sc := sha256Update order sc (padding.take bytesToPad)
  let sc := sha256Update order sc (store64 order lengthPad)
  hashBytes sc.hash

/-- `get_data_sha` for a whole hash, with what the stack holds. -/
def getDataSha (order : ByteOrder) (memory : List UInt8) (h : memory.length = 64)
    (sourcedata : List UInt8) : List UInt8 :=
  sha256Final order (sha256Update order (sha256Init memory h) sourcedata)

end CompSys.Sha256
