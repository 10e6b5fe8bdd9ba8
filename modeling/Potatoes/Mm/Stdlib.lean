import Potatoes.Mm.WorstFit

-- The functions of the library that allocate memory (lib/stdlib.c), with those that they call (lib/string.c).

namespace Mm

section Bytes

def loadByte (a : Nat) : HeapM Byte :=
  .gets (·.mem.byte a)

def memset (dest : Nat) (value : Byte) : Nat → HeapM Unit
  | 0         => .pure ()
  | count + 1 => do
    storeByte dest value
    memset (dest + 1) value count

def bzero (dest count : Nat) : HeapM Unit :=
  memset dest 0 count

def memcpy (dest src : Nat) : Nat → HeapM Unit
  | 0         => .pure ()
  | count + 1 => do
    storeByte dest (← loadByte src)
    memcpy (dest + 1) (src + 1) count

end Bytes

-- The characters of the name in a header that `strncpy` can copy into another one.
def loadName (hdr : Nat) : HeapM (List Byte) :=
  .gets fun h => (List.range 31).map fun i => h.mem.byte (hdr + 8 + i)

-- The string "memmove".
def memmoveName : List Byte :=
  [109, 101, 109, 109, 111, 118, 101]

-- Where `heap_mallocn` returns to. The call of `memmove` is the one in `realloc`.
inductive Caller
  | mallocn
  | callocn (n size : Nat)
  | realloc (pointer : Nat)
  | memmove (dest src count : Nat)

-- The points that the calls pass through.
inductive LibPoint
  | mallocn (size : Nat) (name : List Byte)
  | callocn (n size : Nat) (name : List Byte)
  | realloc (pointer size : Nat)
  | heap (p : Point) (caller : Caller)
  | ret (ptr : Nat)

namespace LibPoint

-- What follows when `heap_mallocn` has returned.
def resume (ptr : Nat) : Caller → HeapM LibPoint
  | .mallocn                => return ret ptr
  | .callocn n size         =>
    if ptr = 0 then return ret 0
    else do
      bzero ptr (n * size % 2 ^ 32)
      return ret ptr
  | .realloc pointer        =>
    if ptr = 0 then return ret 0
    else do
      let count ← loadSize (Memory.sub pointer headerSize)
      return heap (.block <| .mallocn count memmoveName) (.memmove ptr pointer count)
  | .memmove dest src count => do
    memcpy ptr src count
    memcpy dest ptr count
    heapFree ptr
    heapFree src
    return ret dest

def body : LibPoint → KernelM LibPoint
  | mallocn size name              => return heap (.block <| .mallocn size name) .mallocn
  | callocn n size name            => return heap (.block <| .mallocn (n * size % 2 ^ 32) name) (.callocn n size)
  | realloc pointer size           => do
    let hdr := Memory.sub pointer headerSize
    let next ← onHeap <| loadNext hdr
    if (pointer + size) % 2 ^ 32 ≤ next then do
      onHeap <| storeSize hdr size
      return ret pointer
    else do
      let name ← onHeap <| loadName hdr
      return heap (.block <| .mallocn size name) (.realloc pointer)
  | heap (.block (.ret ptr)) caller => onHeap <| resume ptr caller
  | heap p caller                   => do
    let p ← p.body
    return heap p caller
  | ret ptr                         => return ret ptr

end LibPoint

end Mm
