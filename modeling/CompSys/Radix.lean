import CompSys.Heap

/-!
# The radix sorter of A6

`radix.c` on the memory of the allocator. A pointer is the address it holds, a
`struct node**` is the address of the word it points to, and the fields of a
node lie at offsets 0, 4, 8 and 12; the last two are the union of the counters
of a leaf and the subtrees of an interior node. Counters wrap as ints do.
-/
namespace CompSys.Radix

open Heap (NULL)

/-- The address of the global `tree`, below the stack and the heap. -/
def TREE : Int := 0x11000

/-- `_start` gives the heap this address. -/
def heapStart : Int := 0x2000000

/-- `sizeof(struct node)`. -/
def nodeSize : Word := 16

def MAX_BITS : Word := 1#32 <<< 30

/-! ## Bit positions, one-hot encoded -/

def higherBits (bitPos : Word) : Word := 0 - bitPos - bitPos

def notHigherBits (bitPos : Word) : Word := ~~~higherBits bitPos

/-- The bits up to `high` and above `low`. -/
def bitRange (high low : Word) : Word := higherBits low &&& notHigherBits high

/-! ## Adding a number -/

def createLeaf (s : Store) (number : Word) : Option (Int × Store) := do
  let (nptr, s) ← s.allocate nodeSize
  let s := s.storeInt nptr 1
  let s := s.storeInt (nptr + 4) number
  let s := s.storeInt (nptr + 8) (if number &&& 1 = 0 then 1 else 0)
  let s := s.storeInt (nptr + 12) (number &&& 1)
  return (nptr, s)

/-- The inner loop, which locates the most significant differing bit. -/
def findBit (diff : Word) : Nat → Word → Option Word
  | 0, _ => none
  | fuel + 1, bitPos =>
    if bitPos &&& diff = 0 then findBit diff fuel (bitPos.sshiftRight 1) else some bitPos

/-- A node that branches at the located bit goes above the subtree at `nptr`. -/
def inject (s : Store) (parent nptr : Int) (bitPos diff number : Word) : Option Store := do
  let bitPos ← findBit diff 32 bitPos
  let (nptr2, s) ← s.allocate nodeSize
  let s := s.storeInt nptr2 bitPos
  let s := s.storeInt (nptr2 + 4) number
  let s := s.store parent nptr2
  if number &&& bitPos = 0 then
    let s := s.store (nptr2 + 12) nptr
    let (leaf, s) ← createLeaf s number
    return s.store (nptr2 + 8) leaf
  else
    let s := s.store (nptr2 + 8) nptr
    let (leaf, s) ← createLeaf s number
    return s.store (nptr2 + 12) leaf

/-- The loop of `add_number` from its test on. -/
def addLoop (number : Word) : Nat → Store → Int → Word → Option Store
  | 0, _, _, _ => none
  | fuel + 1, s, parent, bitPos =>
    if bitPos.toInt < 1 then some s
    else
      let nptr := s.ptr parent
      if nptr = NULL then do
        let (leaf, s) ← createLeaf s number
        return s.store parent leaf
      else
        let nodeBit := s.int nptr
        let above := nodeBit.toInt < bitPos.toInt
        let diff := if above then bitRange bitPos nodeBit &&& (number ^^^ s.int (nptr + 4)) else 0
        if diff ≠ 0 then inject s parent nptr bitPos diff number
        else
          let bitPos := if above then nodeBit else bitPos
          if bitPos.toInt > 1 then
            let child := if bitPos &&& number ≠ 0 then nptr + 12 else nptr + 8
            addLoop number fuel s child (bitPos.sshiftRight 1)
          else
            let count := if number &&& 1 ≠ 0 then nptr + 12 else nptr + 8
            addLoop number fuel (s.storeInt count (s.int count + 1)) parent (bitPos.sshiftRight 1)

/-- The loop runs at most once for each of the 31 bits; the last test ends it. -/
def addNumber (s : Store) (number : Word) : Option Store :=
  addLoop number 32 s TREE MAX_BITS

/-! ## Taking numbers -/

/-- `while (buffer < end && count) { *buffer++ = value; count--; }`, where the buffer is
what was written to it so far and `end` its capacity. -/
def takeCount (value : Word) (count : Int) (capacity : Int) :
    Nat → Store → List Word → Option (Store × List Word)
  | 0, _, _ => none
  | fuel + 1, s, buffer =>
    if (buffer.length : Int) < capacity ∧ s.int count ≠ 0 then
      takeCount value count capacity fuel (s.storeInt count (s.int count - 1)) (buffer ++ [value])
    else some (s, buffer)

/-- More iterations than `takeCount` has room for. -/
def room (buffer : List Word) (capacity : Int) : Nat := (capacity - buffer.length).toNat

/-- The fuel bounds the depth of the tree. -/
def takeNumbers2 (capacity : Int) :
    Nat → Store → Int → List Word → Option (Store × List Word)
  | 0, _, _, _ => none
  | fuel + 1, s, parent, buffer =>
    let nptr := s.ptr parent
    if nptr = NULL then some (s, buffer)
    else if s.int nptr = 1 then do
      let number := s.int (nptr + 4)
      let (s, buffer) ←
        takeCount (number &&& ~~~1) (nptr + 8) capacity (room buffer capacity + 1) s buffer
      let (s, buffer) ←
        takeCount (number ||| 1) (nptr + 12) capacity (room buffer capacity + 1) s buffer
      if s.int (nptr + 8) = 0 ∧ s.int (nptr + 12) = 0 then
        let s ← s.release nptr
        return (s.store parent NULL, buffer)
      else return (s, buffer)
    else do
      let (s, buffer) ← takeNumbers2 capacity fuel s (nptr + 8) buffer
      let (s, buffer) ← takeNumbers2 capacity fuel s (nptr + 12) buffer
      if s.ptr (nptr + 8) = NULL ∧ s.ptr (nptr + 12) = NULL then
        let s ← s.release nptr
        return (s.store parent NULL, buffer)
      else return (s, buffer)

/-- The numbers taken; the count that is returned is their number, as for less than 2^29 numbers.
`takeNumbers32` has the pointers into the buffer. -/
def takeNumbers (s : Store) (maxNums : Word) : Option (Store × List Word) :=
  takeNumbers2 maxNums.toInt 32 s TREE []

/-! ## Releasing the tree -/

def releaseTree : Nat → Store → Int → Option Store
  | 0, _, _ => none
  | fuel + 1, s, tree =>
    if tree ≠ NULL then do
      let s ←
        if (s.int tree).toInt > 1 then do
          let s ← releaseTree fuel s (s.ptr (tree + 8))
          releaseTree fuel s (s.ptr (tree + 12))
        else some s
      s.release tree
    else some s

/-- The program before its first call: `tree` is NULL and the heap was set up. -/
def start (h : Heap) : Store :=
  { heap := (h.store TREE NULL).initHeap heapStart, events := [] }

end CompSys.Radix
