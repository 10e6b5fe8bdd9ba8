import Potatoes.Lib.Memory
import Potatoes.Lib.Sections

-- The heap of the kernel (mm/mm_heap.c).

namespace Mm

inductive HeapMessage
  | tooSmall                   -- `ASSERT(new_size > old_size)` fails
  | tooLarge                   -- `ASSERT((uint32)heap->start + new_size <= heap->max_addr)` fails
  | unallocated (start : Nat)  -- "ERROR: free(): attempt to free unallocated block 0x%x\n"
  deriving DecidableEq

-- The memory, and the fields of `kernel_heap`, where `stop` is its `end`.
structure Heap where
  mem     : Memory
  start   : Nat
  stop    : Nat
  maxAddr : Nat
  printed : List HeapMessage

abbrev HeapM := Prog Heap Empty

-- `sizeof(mm_header)`. The fields of a header are `prev`, `next`, the 32 bytes of `name` and `size`.
def headerSize : Nat :=
  44

def heapExpandStepSize : Nat :=
  0x100000

def kheapStart : Nat :=
  0xC0000000

def kheapInitialSize : Nat :=
  0x500000

section Fields

def loadPrev (hdr : Nat) : HeapM Nat :=
  .gets (·.mem.word hdr)

def loadNext (hdr : Nat) : HeapM Nat :=
  .gets (·.mem.word (hdr + 4))

def loadSize (hdr : Nat) : HeapM Nat :=
  .gets (·.mem.word (hdr + 40))

def storeWord (a n : Nat) : HeapM Unit :=
  .modify fun h => { h with mem := h.mem.setWord a n }

def storeByte (a : Nat) (b : Byte) : HeapM Unit :=
  .modify fun h => { h with mem := h.mem.setByte a b }

def storePrev (hdr n : Nat) : HeapM Unit :=
  storeWord hdr n

def storeNext (hdr n : Nat) : HeapM Unit :=
  storeWord (hdr + 4) n

def storeSize (hdr n : Nat) : HeapM Unit :=
  storeWord (hdr + 40) n

-- The source ends with a zero byte, which is copied until `n` bytes have been written.
def strncpy (dest : Nat) (src : List Byte) : Nat → HeapM Unit
  | 0     => .pure ()
  | n + 1 => do
    storeByte dest (src.headD 0)
    strncpy (dest + 1) (if src.headD 0 ≠ 0 then src.tail else src) n

end Fields

def print (m : HeapMessage) : HeapM Unit :=
  .modify fun h => { h with printed := h.printed ++ [m] }

-- `ASSERT` only prints a message.
def assert (c : Prop) [Decidable c] (m : HeapMessage) : HeapM Unit :=
  if c then .pure () else print m

-- The strings "start" and "end".

def startName : List Byte :=
  [115, 116, 97, 114, 116]

def endName : List Byte :=
  [101, 110, 100]

-- The address is rounded only if it is odd, because `!=` binds stronger than `&`.
def roundOdd (n : Nat) : Nat :=
  if n % 2 = 1 then (n / 0x1000 * 0x1000 + 0x1000) % 2 ^ 32 else n

def createHeap (startAddr endAddr maxAddr : Nat) : HeapM Unit := do
  let startHeader := roundOdd startAddr
  let endHeader := Memory.sub endAddr headerSize
  storeNext startHeader endHeader
  storePrev startHeader endHeader
  strncpy (startHeader + 8) startName 31
  storeSize startHeader 0
  storeNext endHeader startHeader
  storePrev endHeader startHeader
  strncpy (endHeader + 8) endName 31
  storeSize endHeader 0
  .modify fun h => { h with start := startHeader }
  .modify fun h => { h with stop := endHeader }
  .modify fun h => { h with maxAddr }

def heapGetSize : HeapM Nat := do
  let stop ← .gets (·.stop)
  let start ← .gets (·.start)
  return Memory.sub (stop + headerSize + 1) start

-- The checks of `heap_expand`, and the new size that it goes on with.
def checkSize (oldSize newSize : Nat) : HeapM Nat := do
  assert (oldSize < newSize) .tooSmall
  let newSize := roundOdd newSize
  let start ← .gets (·.start)
  let maxAddr ← .gets (·.maxAddr)
  assert ((start + newSize) % 2 ^ 32 ≤ maxAddr) .tooLarge
  return newSize

-- Modify the headers for `heap->start` and `heap->end`.
def moveEnd (newSize : Nat) : HeapM Unit := do
  let start ← .gets (·.start)
  let endAddress := (start + newSize) % 2 ^ 32
  let endHeader := Memory.sub endAddress headerSize
  let tmp ← loadPrev (← .gets (·.stop))
  storeNext tmp endHeader
  .modify fun h => { h with stop := endHeader }
  storeNext (← .gets (·.stop)) (← .gets (·.start))
  storePrev (← .gets (·.stop)) tmp
  strncpy ((← .gets (·.stop)) + 8) endName 31
  storeSize (← .gets (·.stop)) 0
  storePrev (← .gets (·.start)) (← .gets (·.stop))
  storeSize (← .gets (·.start)) 0

-- What `heap_expand` does to the headers. In between, it allocates the frames for the new part of the heap.
def heapExpand (newSize : Nat) : HeapM Unit := do
  let oldSize ← heapGetSize
  let newSize ← checkSize oldSize newSize
  moveEnd newSize

-- Set the properties of the new block.
def setProperties (newHeader nextBlock size : Nat) (name : List Byte) : HeapM Unit := do
  storePrev newHeader (← loadPrev nextBlock)
  storeNext newHeader nextBlock
  strncpy (newHeader + 8) name 31
  storeByte (newHeader + 39) 0
  storeSize newHeader size

-- Insert the new block into the linked list.
def insertBlock (newHeader nextBlock : Nat) : HeapM Unit := do
  storeNext (← loadPrev nextBlock) newHeader
  storePrev nextBlock newHeader

def heapSetupBlock (nextBlock position size : Nat) (name : List Byte) : HeapM Nat := do
  setProperties position nextBlock size name
  insertBlock position nextBlock
  return position

def heapFree (start : Nat) : HeapM Unit := do
  let this := Memory.sub start headerSize
  let prevNext ← loadNext (← loadPrev this)
  if prevNext = this then do
    let next ← loadNext this
    storeNext (← loadPrev this) next
    let prev ← loadPrev this
    storePrev (← loadNext this) prev
  else print (.unallocated start)

-- The position behind the block in front of a header.
def holePosition (hdr : Nat) : HeapM Nat := do
  let prev ← loadPrev hdr
  let size ← loadSize (← loadPrev hdr)
  return (prev + headerSize + size) % 2 ^ 32

-- The parts of `heap_mallocn` and `heap_free` at which they call another function or jump, with the values of the local
-- variables. The value of `tmp_header` is 0 until a hole has been found.
inductive HeapBlock
  | ret (ptr : Nat)
  | mallocn (size : Nat) (name : List Byte)
  | search (size : Nat) (name : List Byte) (currentBlock tmpHeader biggest : Nat)
  | found (size : Nat) (name : List Byte) (tmpHeader : Nat)
  | setup (nextBlock position size : Nat) (name : List Byte)
  | full (size : Nat) (name : List Byte)
  | expand (newSize oldSize size : Nat) (name : List Byte)
  | expanded (oldSize size : Nat) (name : List Byte)
  | free (start : Nat)
  deriving DecidableEq

namespace HeapBlock

-- One iteration of the loop that searches for the biggest hole.
def searchHole (size : Nat) (name : List Byte) (currentBlock tmpHeader biggest : Nat) : HeapM HeapBlock := do
  let stopNext ← loadNext (← .gets (·.stop))
  if currentBlock = stopNext then
    return if tmpHeader ≠ 0 then .found size name tmpHeader else .full size name
  else do
    let position ← holePosition currentBlock
    let hole := Memory.sub currentBlock position
    let next ← loadNext currentBlock
    if (size + headerSize) % 2 ^ 32 ≤ hole ∧ biggest < hole then return .search size name next currentBlock hole
    else return .search size name next tmpHeader biggest

def body : HeapBlock → HeapM HeapBlock
  | .ret ptr                                   => return .ret ptr
  | .mallocn size name                         => do
    let first ← loadNext (← .gets (·.start))
    return .search size name first 0 0
  | .search size name currentBlock tmp biggest => searchHole size name currentBlock tmp biggest
  | .found size name tmpHeader                 => do
    let position ← holePosition tmpHeader
    return .setup tmpHeader position size name
  | .setup nextBlock position size name        => do
    let newHeader ← heapSetupBlock nextBlock position size name
    return .ret ((newHeader + headerSize) % 2 ^ 32)
  | .full size name                            => do
    let oldSize ← heapGetSize
    return .expand ((oldSize + (size / heapExpandStepSize + 1) * heapExpandStepSize) % 2 ^ 32) oldSize size name
  | .expand newSize oldSize size name          => do
    heapExpand newSize
    return .expanded oldSize size name
  | .expanded oldSize size name                => do
    let newSize ← heapGetSize
    return if newSize < (oldSize + size) % 2 ^ 32 then .ret 0 else .mallocn size name
  | .free start                                => do
    heapFree start
    return .ret 0

-- The blocks that write to the headers.
def writes : HeapBlock → Bool
  | .setup ..  => true
  | .expand .. => true
  | .free ..   => true
  | _          => false

-- A process that does not execute one of the functions.
def waits : HeapBlock → Bool
  | .ret _ => true
  | _      => false

-- The calls of the functions with 32-bit arguments.
def entry : HeapBlock → Bool
  | .mallocn size _ => size < 2 ^ 32
  | .free start     => start < 2 ^ 32
  | _               => false

end HeapBlock

end Mm
