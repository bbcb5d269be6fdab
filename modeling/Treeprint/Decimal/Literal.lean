import Treeprint.Decimal.Shortest

/-!
# Float literals

A float that is a whole number is written with all its digits and one place, so that it reads as a
float again. Any other number is written positionally with the fewest places that identify it. The
sign bit of a zero is written too.
-/

namespace Treeprint.Decimal

def signText (negative : Bool) : String := if negative then "-" else ""

/-- The text of the magnitude `m · 2^q`. -/
def magnitudeText (m : Nat) (q : Int) : String :=
  match Binary64.integral? m q with
  | some n => toString n ++ ".0"
  | none => (BinaryFraction.shortest ⟨m, (-q).toNat⟩).toText

def floatText (bits : UInt64) : String :=
  match Binary64.ofBits bits with
  | .nan => "NaN"
  | .infinite negative => signText negative ++ "inf"
  | .finite negative m q => signText negative ++ magnitudeText m q

end Treeprint.Decimal
