import CompSys.BitField
import Mathlib.Logic.Function.Basic

/-!
# The small-block allocator of A6

`allocate` and `release` of `lib.c`. Addresses are integers without an upper
end, which is what the program does while its heap stays below 2^32;
`allocate32` has the pointers that come round there. A memory word holds a
pointer, or an int by its signed value. `none` is a use of
`small_block_headers` out of its bounds.
-/
namespace CompSys

abbrev Memory := Int → Int

structure Heap where
  smallBlockHeaders : Int → Int
  freeSpace : Int
  initialized : Bool
  mem : Memory

namespace Heap

def NULL : Int := 0

def MIN_ALLOCATION : Int := 100

def BLOCK_SIZE_STEP : Word := 8

/-- `SMALL_BLOCK_LIMIT / BLOCK_SIZE_STEP`. -/
def NUM_SIZES : Int := 512

/-- Reading a memory word as an int. -/
def loadInt (h : Heap) (a : Int) : Word := BitVec.ofInt 32 (h.mem a)

def store (h : Heap) (a v : Int) : Heap := { h with mem := Function.update h.mem a v }

def storeInt (h : Heap) (a : Int) (v : Word) : Heap := h.store a v.toInt

def setHeader (h : Heap) (num p : Int) : Heap :=
  { h with smallBlockHeaders := Function.update h.smallBlockHeaders num p }

def initHeap (h : Heap) (heapStart : Int) : Heap :=
  { h with initialized := false, freeSpace := heapStart }

/-- The block size for a request: the size field is added and the sum aligned. -/
def blockSize (size : Word) : Word :=
  let size := size + 4
  let offset := size &&& (BLOCK_SIZE_STEP - 1)
  if offset ≠ 0 then (size &&& ~~~offset) + BLOCK_SIZE_STEP else size

def numSize (size : Word) : Int := size.toInt.tdiv BLOCK_SIZE_STEP.toInt

/-- `*(vp*)block = *header; *header = block`. -/
def link (h : Heap) (num block : Int) : Heap :=
  (h.store block (h.smallBlockHeaders num)).setHeader num block

/-- The loop that splits a chunk into blocks, from its end downwards. -/
def splitChunk (size : Word) (chunk : Int) : Nat → Int → Heap → Option Heap
  | 0, _, _ => none
  | fuel + 1, endChunk, h =>
    if endChunk ≥ chunk then
      splitChunk size chunk fuel (endChunk - size.toInt) (h.link (numSize size) endChunk)
    else some h

/-- The bytes carved at once for blocks of `size`. -/
def chunkSize (size : Word) : Word :=
  let allocation := size * 10
  if allocation.toInt < MIN_ALLOCATION then
    let numChunks := BitVec.ofInt 32 (MIN_ALLOCATION.tdiv size.toInt)
    numChunks * size
  else allocation

def allocateChunk (h : Heap) (size : Word) : Option Heap :=
  let chunk := h.freeSpace
  let endChunk := chunk + (chunkSize size).toInt
  splitChunk size chunk ((chunkSize size).toNat + 1) (endChunk - size.toInt)
    { h with freeSpace := endChunk }

/-- `unlink`: the first block leaves its list and gets its size written in front. -/
def unlink (h : Heap) (size : Word) : Int × Heap :=
  let block := h.smallBlockHeaders (numSize size)
  (block + 4, (h.setHeader (numSize size) (h.mem block)).storeInt block size)

/-- The headers are cleared by the first call. -/
def clearHeaders (h : Heap) : Heap :=
  if h.initialized then h
  else { h with initialized := true, smallBlockHeaders := fun _ => NULL }

def allocate (h : Heap) (size : Word) : Option (Int × Heap) :=
  let h := h.clearHeaders
  if size.toInt < 1 then some (NULL, h)
  else
    let size := blockSize size
    if numSize size ≥ NUM_SIZES then some (NULL, h)
    else if numSize size < 0 then none
    else if h.smallBlockHeaders (numSize size) = NULL then do
      let h ← h.allocateChunk size
      return h.unlink size
    else some (h.unlink size)

/-- `release` finds the list by the size in front of the block. -/
def release (h : Heap) (memory : Int) : Option Heap :=
  let chunk := memory - 4
  let num := numSize (h.loadInt chunk)
  if 0 ≤ num ∧ num < NUM_SIZES then some (h.link num chunk) else none

end Heap

/-- A call on the allocator that has returned; an `allocate` that returned NULL leaves none. -/
inductive HeapEvent where
  | allocated (p : Int) (size : Word)
  | released (p : Int)
deriving DecidableEq

/-- The heap of a program, with the calls made on it so far, the latest first. -/
structure Store where
  heap : Heap
  events : List HeapEvent

namespace Store

/-- The pointers that were returned and not released since, with the sizes asked for. -/
def live : List HeapEvent → List (Int × Word)
  | [] => []
  | .allocated p size :: events => (p, size) :: live events
  | .released p :: events => (live events).eraseP fun block => block.1 == p

def allocate (s : Store) (size : Word) : Option (Int × Store) := do
  let (p, heap) ← s.heap.allocate size
  let events := if p = Heap.NULL then s.events else .allocated p size :: s.events
  return (p, { heap := heap, events := events })

def release (s : Store) (p : Int) : Option Store := do
  let heap ← s.heap.release p
  return { heap := heap, events := .released p :: s.events }

/-- Reading a word as an int and as a pointer. -/
def int (s : Store) (a : Int) : Word := s.heap.loadInt a

def ptr (s : Store) (a : Int) : Int := s.heap.mem a

def store (s : Store) (a v : Int) : Store := { s with heap := s.heap.store a v }

def storeInt (s : Store) (a : Int) (v : Word) : Store := s.store a v.toInt

theorem int_eq (s : Store) (a : Int) : s.int a = BitVec.ofInt 32 (s.ptr a) := rfl

@[simp] theorem events_store (s : Store) (a v : Int) : (s.store a v).events = s.events := rfl

@[simp] theorem events_storeInt (s : Store) (a : Int) (v : Word) :
    (s.storeInt a v).events = s.events := rfl

@[simp] theorem ptr_store_self (s : Store) (a v : Int) : (s.store a v).ptr a = v := by
  simp [ptr, store, Heap.store]

theorem ptr_store_of_ne (s : Store) {a b : Int} (v : Int) (h : b ≠ a) :
    (s.store a v).ptr b = s.ptr b := by
  simp [ptr, store, Heap.store, h]

theorem ptr_storeInt_of_ne (s : Store) {a b : Int} (v : Word) (h : b ≠ a) :
    (s.storeInt a v).ptr b = s.ptr b := s.ptr_store_of_ne v.toInt h

@[simp] theorem int_storeInt_self (s : Store) (a : Int) (v : Word) : (s.storeInt a v).int a = v := by
  rw [int_eq, storeInt, ptr_store_self, BitVec.ofInt_toInt]

theorem int_store_of_ne (s : Store) {a b : Int} (v : Int) (h : b ≠ a) :
    (s.store a v).int b = s.int b := by
  rw [int_eq, int_eq, ptr_store_of_ne s v h]

theorem int_storeInt_of_ne (s : Store) {a b : Int} (v : Word) (h : b ≠ a) :
    (s.storeInt a v).int b = s.int b := s.int_store_of_ne v.toInt h

end Store

end CompSys
