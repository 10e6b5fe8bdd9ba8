import Mathlib
import Potatoes.Lib.Bytes

-- Numbers in strings (lib/string.c).
--
-- A pointer into a null-terminated string that is only read is the part of the string that is left, without the
-- terminator. A buffer is a range of memory. An `int` has 32 bits.

namespace Str

abbrev chr (c : Char) : Byte :=
  c.toUInt8

-- `*p` and `++p`. A pointer is not moved past the terminator.

def deref (p : List Byte) : Byte :=
  p.headD 0

def next : List Byte → Option (List Byte)
  | []     => none
  | _ :: p => some p

-- The length of the string at an address. If none of the bytes of memory is a terminator, there is no result.
def strlen (mem : Nat → Byte) (str : Nat) : Option Nat :=
  count (2 ^ 32) str 0
where
  count : Nat → Nat → Nat → Option Nat
    | 0,     _,   _      => none
    | n + 1, str, length => if mem str = 0 then some length else count n (str + 1) (length + 1)

def swap (mem : Nat → Byte) (start stop : Nat) : Nat → Byte :=
  let c := mem start
  Function.update (Function.update mem start (mem stop)) stop c

-- The loop of `strreverse`.
def swaps (mem : Nat → Byte) (start stop : Nat) : Nat → Byte :=
  if start < stop then swaps (swap mem start stop) (start + 1) (stop - 1) else mem
termination_by stop - start

def strreverse (mem : Nat → Byte) (str : Nat) : Option (Nat → Byte) := do
  let length ← strlen mem str
  return swaps mem str (str + length - 1)

def isspace (c : Byte) : Bool :=
  c = chr ' ' || c = chr '\t' || c = chr '\r' || c = chr '\n' || c = 11 || c = 12

def digitChar (rem : Nat) : Byte :=
  .ofNat <| if rem < 10 then (chr '0').toNat + rem else 55 + rem

-- The loop of `itoa`. The base 0 is a division by zero, and for the base 1 the loop does not end.
def writeDigits (base num : Nat) (mem : Nat → Byte) (str : Nat) : Option ((Nat → Byte) × Nat) :=
  if base < 2 then
    none
  else
    let mem := Function.update mem str <| digitChar <| num % base
    if num / base = 0 then some (mem, str + 1) else writeDigits base (num / base) mem (str + 1)
termination_by num
decreasing_by exact Nat.div_lt_self (Nat.pos_of_ne_zero fun h => by simp_all) (by omega)

-- The memory with the digits, and the address that is returned.
def itoa (n : BitVec 32) (mem : Nat → Byte) (str base : Nat) : Option ((Nat → Byte) × Nat) := do
  if base = 10 ∧ n.toInt < 0 then
    let mem := Function.update mem str (chr '-')
    let (mem, p) ← writeDigits base (-n).toNat mem (str + 1)
    let mem ← strreverse (Function.update mem p 0) (str + 1)
    return (mem, str)
  else
    let (mem, p) ← writeDigits base n.toNat mem str
    let mem ← strreverse (Function.update mem p 0) str
    return (mem, str)

def skipSpaces : List Byte → List Byte
  | []     => []
  | c :: p => if isspace c then skipSpaces p else c :: p

-- The sign is inverted.
def readSign (nptr : List Byte) : Option (BitVec 32 × List Byte) := do
  if deref nptr = chr '-' then
    return (1, ← next nptr)
  else if deref nptr = chr '+' then
    return (-1, ← next nptr)
  else
    return (-1, nptr)

def guessBase (base : Int) (nptr : List Byte) : Option (Int × List Byte) := do
  if base ≠ 0 then
    return (base, nptr)
  else if deref nptr ≠ chr '0' then
    return (10, nptr)
  else
    let nptr ← next nptr
    if deref nptr = chr 'X' ∨ deref nptr = chr 'x' then
      return (16, ← next nptr)
    else
      return (8, nptr)

def digit (c : Byte) : Int :=
  if chr '0' ≤ c ∧ c ≤ chr '9' then c.toNat - (chr '0').toNat
  else if chr 'A' ≤ c ∧ c ≤ chr 'Z' then c.toNat - (chr 'A').toNat + 10
  else if chr 'a' ≤ c ∧ c ≤ chr 'z' then c.toNat - (chr 'a').toNat + 10
  else -1

def readDigits (base : Int) (ret : BitVec 32) : List Byte → BitVec 32 × List Byte
  | []     => (ret, [])
  | c :: p =>
    if c = 0 then
      (ret, c :: p)
    else
      let value := digit c
      if value < 0 ∨ value ≥ base then (ret, c :: p)
      else readDigits base (ret * .ofInt 32 base - .ofInt 32 value) p

-- The number, and what is stored as the end pointer.
def strtol (nptr : List Byte) (base : Int) : Option (BitVec 32 × List Byte) := do
  let nptr := skipSpaces nptr
  let (sign, nptr) ← readSign nptr
  let (base, nptr) ← guessBase base nptr
  let (ret, nptr) := readDigits base 0 nptr
  return (ret * sign, nptr)

def atoi (str : List Byte) : Option (BitVec 32) := do
  let (n, _) ← strtol str 10
  return n

end Str
