import Potatoes.Lib.Prog
import Potatoes.Mm.Heap

-- The ring buffers of the kernel (lib/ringbuffer.c).

namespace Ring

inductive Fault
  | nullDeref    -- a missing buffer is dereferenced
  | outOfBounds  -- an index lies outside of the data of a buffer
  | remByZero    -- a remainder by zero is taken
  | heapOverflow -- the end of the heap is moved beyond the last address

structure RingFifo where
  data  : Nat
  size  : Nat
  start : Nat
  end_  : Nat
  len   : Nat

-- The heap. The addresses are handed out in ascending order, `full` tells which of the allocations fail, and `wraps`
-- which of them expand the heap beyond 2^32. An address holds a `ring_fifo`, or data of a certain length.
structure Heap where
  fifo   : Nat → RingFifo
  byte   : Nat → Nat → Byte
  length : Nat → Nat
  next   : Nat
  full   : Nat → Bool
  wraps  : Nat → Bool

abbrev RingM := Prog Heap Fault

namespace Heap

def setFifo (s : Heap) (fifo : Nat) (f : RingFifo) : Heap :=
  { s with fifo := Function.update s.fifo fifo f }

def setByte (s : Heap) (data i : Nat) (b : Byte) : Heap :=
  { s with byte := Function.update s.byte data <| Function.update (s.byte data) i b }

end Heap

-- The length of a block that `mallocn` returns. If the sum of `size` and `sizeof(mm_header)` has wrapped around, the gap
-- behind the block begins in front of its first byte.
def blockLength (size : Nat) : Nat :=
  if size + Mm.headerSize < 2 ^ 32 then size else 0

def mallocn (size : Nat) : RingM (Option Nat) := do
  if (← .gets id).wraps (← .gets (·.next)) then
    .fail .heapOverflow
  else
    .act fun s => (if s.full s.next then none else some s.next,
      { s with next := s.next + 1, length := Function.update s.length s.next <| blockLength size })

-- A result of type `sint32`.
def sint32 (n : Nat) : Int :=
  Int.bmod n (2 ^ 32)

def rfClear (fifo : Nat) : RingM Unit :=
  .modify fun s => s.setFifo fifo { s.fifo fifo with start := 0, end_ := 0, len := 0 }

def rfAlloc (size : Nat) : RingM (Option Nat) := do
  match ← mallocn 20 with
  | none      => return none
  | some fifo =>
    .modify fun s => s.setFifo fifo { s.fifo fifo with size := size }
    match ← mallocn size with
    | none      => return none
    | some data =>
      .modify fun s => s.setFifo fifo { s.fifo fifo with data := data }
      rfClear fifo
      return some fifo

-- The copy of `memcpy`, which reads and writes all indices below `size`.
def memcpy (dest src size : Nat) : RingM Unit := do
  let s ← .gets id
  if s.length dest < size ∨ s.length src < size then
    .fail .outOfBounds
  else
    .modify fun s => { s with
      byte := Function.update s.byte dest fun i => if i < size then s.byte src i else s.byte dest i }

def rfCopy (fifo : Nat) : RingM Nat := do
  let size ← .gets (·.fifo fifo |>.size)
  match ← rfAlloc size with
  | none     => .fail .nullDeref
  | some ret =>
    let f ← .gets (·.fifo fifo)
    let data ← .gets (·.fifo ret |>.data)
    memcpy data f.data f.size
    .modify fun s => s.setFifo ret { s.fifo ret with start := f.start, end_ := f.end_, len := f.len }
    return ret

-- The position behind `i`.
def advance (i size : Nat) : RingM Nat :=
  if size = 0 then .fail .remByZero else return (i + 1) % 2 ^ 32 % size

-- The loop of `rf_write` over the bytes that are left.
def writeLoop (fifo : Nat) : List Byte → Nat → RingM Int
  | [],       written => return sint32 written
  | b :: buf, written => do
    let f ← .gets (·.fifo fifo)
    if f.len = f.size then
      return sint32 written
    else
      let s ← .gets id
      if s.length f.data ≤ f.end_ then
        .fail .outOfBounds
      else
        .modify fun s => s.setByte f.data f.end_ b
        let end_ ← advance f.end_ f.size
        .modify fun s => s.setFifo fifo { f with end_ := end_, len := (f.len + 1) % 2 ^ 32 }
        writeLoop fifo buf (written + 1)

-- The bytes of the buffer that are read are those up to the count.
def rfWrite (fifo : Option Nat) (buf : Option (List Byte)) : RingM Int :=
  match fifo, buf with
  | some fifo, some buf => writeLoop fifo buf 0
  | _,         _        => return -1

-- The result is the list of bytes that are stored in the buffer, besides the number of them.
def readLoop (fifo : Nat) : Nat → List Byte → RingM (Int × List Byte)
  | 0,         read => return (sint32 read.length, read)
  | count + 1, read => do
    let f ← .gets (·.fifo fifo)
    if f.len = 0 then
      return (sint32 read.length, read)
    else
      let s ← .gets id
      if s.length f.data ≤ f.start then
        .fail .outOfBounds
      else
        let b := s.byte f.data f.start
        let start ← advance f.start f.size
        .modify fun s => s.setFifo fifo { f with start := start, len := f.len - 1 }
        readLoop fifo count (read ++ [b])

-- The flag `buf` tells whether there is a buffer.
def rfRead (fifo : Option Nat) (buf : Bool) (count : Nat) : RingM (Int × List Byte) :=
  match fifo, buf with
  | some fifo, true => readLoop fifo count []
  | _,         _    => return (-1, [])

end Ring
