import Mathlib
import Potatoes.Lib.Prog

-- The Brainfuck interpreter (apps/brainfuck_interpreter.c) and its device (pm/dev_brainfuck.c).

namespace Bf

inductive Fault
  | outOfBounds  -- an index lies outside of the tape, of the buffer, or of `loop_marks`
  | nullDeref    -- the missing buffer is read
  | diverges     -- a loop or the recursion has used up its bound
  deriving DecidableEq

structure Buffer where
  size : Nat
  char : Int → Char

-- The pointer `bf_ptr` is relative to `bf_start`, and the tape has `maxlength` cells.
structure State where
  maxlength      : Nat
  bfStart        : Int → UInt8
  bfPtr          : Int
  bfBuffer       : Option Buffer
  bfBufOffset    : Int
  bfBufPosition  : Int
  -- The beginning (0) and the end (1) of the loop at each depth.
  loopMarks      : Int → Int → Int
  jumpover       : Bool
  storeLock      : Bool
  loopdepth      : Int
  temploopdepth  : Int
  storeLockLevel : Int
  -- The bytes that the heap areas have when they are handed out, and how many have been handed out.
  fresh          : Nat → Int → UInt8
  mallocs        : Nat
  -- The bytes that the file descriptor 2 delivers, and how many have been read.
  input          : Nat → UInt8
  consumed       : Nat
  -- The bytes written to the file descriptor 1.
  output         : List UInt8

abbrev BfM := Prog State Fault

def maxloopdepth : Int := 50

def malloc : BfM (Int → UInt8) :=
  .act fun s => (s.fresh s.mallocs, { s with mallocs := s.mallocs + 1 })

-- The interpreter once `init_bf` has allocated and cleared its tape.
def initBf (fresh : Nat → Int → UInt8) (input : Nat → UInt8) : State where
  maxlength      := 10000
  bfStart i      := if 0 ≤ i ∧ i < 10000 then 0 else fresh 0 i
  bfPtr          := 0
  bfBuffer       := none
  bfBufOffset    := 0
  bfBufPosition  := -1
  loopMarks _ _  := 0
  jumpover       := false
  storeLock      := false
  loopdepth      := 0
  temploopdepth  := 0
  storeLockLevel := 0
  fresh          := fresh
  mallocs        := 1
  input          := input
  consumed       := 0
  output         := []

def resetBf : BfM Unit := do
  .modify fun s => { s with
    maxlength      := 10000
    bfBuffer       := none
    bfBufOffset    := 0
    bfBufPosition  := -1
    loopdepth      := 0
    temploopdepth  := 0
    storeLockLevel := 0
    storeLock      := false }
  let area ← malloc
  .modify fun s => { s with
    bfStart  := fun i => if 0 ≤ i ∧ i < s.maxlength then 0 else area i
    bfPtr    := 0
    jumpover := false }

-- The memory accesses of the interpreter.

def cell : BfM UInt8 := do
  let s ← .gets id
  if 0 ≤ s.bfPtr ∧ s.bfPtr < s.maxlength then
    return s.bfStart s.bfPtr
  else
    .fail .outOfBounds

def setCell (v : UInt8) : BfM Unit := do
  let s ← .gets id
  if 0 ≤ s.bfPtr ∧ s.bfPtr < s.maxlength then
    .modify fun s => { s with bfStart := Function.update s.bfStart s.bfPtr v }
  else
    .fail .outOfBounds

def getMark (i j : Int) : BfM Int := do
  if 0 ≤ i ∧ i < maxloopdepth then
    .gets (·.loopMarks i j)
  else
    .fail .outOfBounds

def setMark (i j v : Int) : BfM Unit := do
  if 0 ≤ i ∧ i < maxloopdepth then
    .modify fun s => { s with loopMarks := Function.update s.loopMarks i <| Function.update (s.loopMarks i) j v }
  else
    .fail .outOfBounds

def getBuffer (i : Int) : BfM Char := do
  match ← .gets (·.bfBuffer) with
  | none   => .fail .nullDeref
  | some b =>
    if 0 ≤ i ∧ i < b.size then
      return b.char i
    else
      .fail .outOfBounds

-- The parts of `interpret_bf`.

def State.record (s : State) (b : Buffer) (ch : Char) : State :=
  { s with
    bfBuffer      := some { b with char := Function.update b.char s.bfBufOffset ch }
    bfBufOffset   := s.bfBufOffset + 1
    bfBufPosition := s.bfBufPosition + 1 }

def record (ch : Char) : BfM Unit := do
  let s ← .gets id
  match s.storeLock, s.bfBuffer with
  | false, some b =>
    if 0 ≤ s.bfBufOffset ∧ s.bfBufOffset < b.size then
      .modify (·.record b ch)
    else
      .fail .outOfBounds
  | _, _ => return ()

def jumpOver (ch : Char) : BfM Unit :=
  .modify fun s =>
    if ch = ']' ∧ s.loopdepth = s.temploopdepth then
      { s with jumpover := false, loopdepth := s.loopdepth - 1, temploopdepth := 0 }
    else if ch = '[' then
      { s with loopdepth := s.loopdepth + 1 }
    else if ch = ']' then
      { s with loopdepth := s.loopdepth - 1 }
    else s

def openLoop : BfM Unit := do
  .modify fun s => { s with loopdepth := s.loopdepth + 1 }
  if (← cell) = 0 then
    .modify fun s => { s with jumpover := true, temploopdepth := s.loopdepth }
  else
    let s ← .gets id
    match s.bfBuffer with
    | none =>
      let area ← malloc
      .modify fun s => { s with bfBuffer := some ⟨s.maxlength, fun i => Char.ofUInt8 (area i)⟩ }
    | some _ => setMark s.loopdepth 0 (s.bfBufPosition + 1)

-- The characters of the buffer from `start` on are interpreted again.
def replay (interpret : Char → BfM Unit) (start : Int) : Nat → BfM Unit
  | 0     => return ()
  | n + 1 => do
    interpret (← getBuffer start)
    .modify fun s => { s with bfBufPosition := start + 1 }
    replay interpret (start + 1) n

def State.lock (s : State) : State :=
  { s with
    storeLock      := true
    storeLockLevel := if s.storeLockLevel = 0 then s.loopdepth else s.storeLockLevel }

def repeatLoop (interpret : Char → BfM Unit) : Nat → BfM Unit
  | 0        => .fail .diverges
  | fuel + 1 => do
    if (← cell) = 0 then
      return ()
    else
      .modify State.lock
      let depth ← .gets (·.loopdepth)
      let start ← getMark depth 0
      .modify fun s => { s with bfBufPosition := start }
      let stop ← getMark depth 1
      replay interpret start (stop - start).toNat
      repeatLoop interpret fuel

def State.unlock (s : State) : State :=
  if s.loopdepth = s.storeLockLevel then { s with storeLock := false, storeLockLevel := 0 } else s

def State.leave (s : State) : State :=
  if s.loopdepth - 1 = 0 ∧ s.bfBuffer.isSome then
    { s with loopdepth := s.loopdepth - 1, bfBuffer := none, bfBufOffset := 0, bfBufPosition := -1 }
  else
    { s with loopdepth := s.loopdepth - 1 }

def closeLoop (interpret : Char → BfM Unit) (fuel : Nat) : BfM Unit := do
  let s ← .gets id
  setMark s.loopdepth 1 s.bfBufPosition
  repeatLoop interpret fuel
  .modify State.unlock
  .modify State.leave

-- The device of the file descriptor 2 is polled until it delivers a byte.
def read : BfM UInt8 :=
  .act fun s => (s.input s.consumed, { s with consumed := s.consumed + 1 })

def write (bytes : List UInt8) : BfM Unit :=
  .modify fun s => { s with output := s.output ++ bytes }

def command (interpret : Char → BfM Unit) (fuel : Nat) (ch : Char) : BfM Unit :=
  match ch with
  | '+' => do setCell ((← cell) + 1)
  | '-' => do setCell ((← cell) - 1)
  | '<' => .modify fun s => { s with bfPtr := s.bfPtr - 1 }
  | '>' => .modify fun s => { s with bfPtr := s.bfPtr + 1 }
  | '.' => do write [← cell]
  | ',' => do setCell (← read)
  | '[' => openLoop
  | ']' => closeLoop interpret fuel
  | _   => return ()

-- A string literal with its terminating zero.
def message (str : String) : List UInt8 :=
  str.toList.map Char.toUInt8 ++ [0]

-- The tape gets twice as many cells, and its old cells are moved by `shift`.
def enlarge (shift : Nat) : BfM Unit := do
  .modify fun s => { s with maxlength := s.maxlength * 2 }
  let area ← malloc
  .modify fun s => { s with
    bfStart := fun i => if shift ≤ i ∧ i < shift + s.maxlength / 2 then s.bfStart (i - shift) else area i }

def repair : BfM Unit := do
  let s ← .gets id
  if s.bfPtr < 0 then
    write (message "LOWER BOUND ERROR\tREPAIRING\n")
    enlarge s.maxlength
    .modify fun s => { s with bfPtr := s.maxlength / 2 - 1 }
  else if s.bfPtr > s.maxlength - 1 then
    write (message "UPPER BOUND ERROR\tREPAIRING\n")
    enlarge 0
    .modify fun s => { s with bfPtr := s.maxlength / 2 }
  else
    return ()

def interpretBf : Nat → Char → BfM Unit
  | 0,        _  => .fail .diverges
  | fuel + 1, ch => do
    record ch
    if ← .gets (·.jumpover) then
      jumpOver ch
    else
      command (interpretBf fuel) (fuel + 1) ch
      repair

def isCommand (ch : Char) : Bool :=
  ch = '.' || ch = ',' || ch = '+' || ch = '-' || ch = '<' || ch = '>' || ch = '[' || ch = ']'

def devBrainfuckWrite (fuel : Nat) (buf : List Char) : BfM Int := do
  Prog.forEach (fun ch => if isCommand ch then interpretBf fuel ch else return ()) buf
  return buf.length

end Bf
