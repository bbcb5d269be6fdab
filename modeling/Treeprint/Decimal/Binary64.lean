/-!
# Binary floating point

A 64-bit pattern encodes a sign and either no number, an infinity, or a magnitude `m · 2^q` with
natural `m`. Patterns with exponent field 0 are the zeros and the subnormal numbers.
-/

namespace Treeprint

inductive Binary64 where
  | nan
  | infinite (negative : Bool)
  /-- The number of magnitude `mantissa · 2^exponent`. -/
  | finite (negative : Bool) (mantissa : Nat) (exponent : Int)
  deriving DecidableEq, Repr

namespace Binary64

def minExponent : Int := -1074

/-- The mantissa from which on a number has the full 53 bits. -/
def hiddenBit : Nat := 0x10000000000000

/-- Reads the sign bit, the 11 bits of the exponent field and the 52 bits of the fraction. -/
def ofBits (bits : UInt64) : Binary64 :=
  let negative := bits.toNat / 0x8000000000000000 = 1
  let field := bits.toNat / hiddenBit % 2048
  let fraction := bits.toNat % hiddenBit
  if field = 2047 then
    if fraction = 0 then .infinite negative else .nan
  else if field = 0 then .finite negative fraction minExponent
  else .finite negative (hiddenBit + fraction) (minExponent + (field - 1 : Nat))

/-- The natural number `m · 2^q`, if it is one. -/
def integral? (m : Nat) : Int → Option Nat
  | .ofNat q => some (m * Nat.pow 2 q)
  | .negSucc k =>
    if m % Nat.pow 2 (k + 1) = 0 then some (m / Nat.pow 2 (k + 1)) else none

end Binary64

end Treeprint
