import Treeprint.Name
import Treeprint.Span
import Treeprint.Wire.Bytes

/-!
# Reading bytes

A reader takes bytes from the front of its input and gives a value and the bytes it left, or the
first error it met. What is read depends only on the bytes that were taken, so more input changes
nothing but an early end.

The space for the modules of a symbol is set aside as soon as their number is known. A number that
needs more room than there is stops the reader before it takes the first of them.
-/

namespace Treeprint.Wire

inductive ReadError where
  /-- The input ended within a value. -/
  | endOfInput
  /-- A flag that is neither 0 nor 1. -/
  | badFlag (byte : UInt8)
  /-- A mark of an optional part that is neither 0 nor 1. -/
  | badMark (byte : UInt8)
  /-- The position of an alternative that is not among the `count` there are. -/
  | badAlternative (index count : Nat)
  /-- A length whose size in bytes is no size at all. -/
  | unaddressable
  /-- A length for which `size` bytes could not be set aside. -/
  | noRoom (size : Nat)
  deriving DecidableEq, Repr

def ReadError.message : ReadError → String
  | .endOfInput => "io error: unexpected end of file"
  | .badFlag byte =>
    "invalid u8 while decoding bool, expected 0 or 1, found " ++ toString byte.toNat
  | .badMark byte => "tag for enum is not valid, found " ++ toString byte.toNat
  | .badAlternative index count =>
    "invalid value: integer `" ++ toString index ++ "`, expected variant index 0 <= i < " ++
      toString count
  | .unaddressable => "Allocation error: CapacityOverflow"
  | .noRoom size =>
    "Allocation error: AllocErr \x7b layout: Layout \x7b size: " ++ toString size ++
      ", align: 4 (1 << 2) \x7d \x7d"

abbrev Reader := StateT (List UInt8) (Except ReadError)

namespace Reader

variable {α : Type}

def byte : Reader UInt8 := fun
  | [] => .error .endOfInput
  | b :: bs => .ok (b, bs)

def items (item : Reader α) : Nat → Reader (List α)
  | 0 => return []
  | n + 1 => do
    let x ← item
    let xs ← items item n
    return x :: xs

def u32 : Reader UInt32 := do return UInt32.ofNat (leValue (← items byte 4))

def u64 : Reader UInt64 := do return UInt64.ofNat (leValue (← items byte 8))

def name : Reader Name := do return ⟨← u32⟩

def span : Reader Span := do
  let start ← u32
  let stop ← u32
  return ⟨start, stop⟩

def flag : Reader Bool := do
  match ← byte with
  | 0 => return false
  | 1 => return true
  | b => throw (.badFlag b)

/-- The mark of an optional part: whether it is there. -/
def mark : Reader Bool := do
  match ← byte with
  | 0 => return false
  | 1 => return true
  | b => throw (.badMark b)

def optional (part : Reader α) : Reader (Option α) := do
  if ← mark then return some (← part) else return none

def seq (item : Reader α) : Reader (List α) := do items item (← u64).toNat

/-- One of several alternatives, by its position. -/
def choice (alternatives : List (Reader α)) : Reader α := do
  let i := (← u32).toNat
  match alternatives[i]? with
  | some part => part
  | none => throw (.badAlternative i alternatives.length)

/-- One of several values, by its position. -/
def oneOf (values : List α) : Reader α := choice (values.map pure)

end Reader

/-- No block of memory has so many bytes: `2^63`. -/
def addressLimit : Nat := 0x8000000000000000

/-- What happens when space for `n` names is set aside, if at most `room` bytes can be had. Two
names need none. More are given the least power of two that holds them, at four bytes a name. -/
def reserve (room n : Nat) : Reader Unit := do
  let size := 4 * n.nextPowerOfTwo
  if n ≤ 2 then return ()
  else if addressLimit ≤ size then throw .unaddressable
  else if room < size then throw (.noRoom size)
  else return ()

end Treeprint.Wire
