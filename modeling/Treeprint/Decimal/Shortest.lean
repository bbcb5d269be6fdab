import Treeprint.Decimal.Binary64

/-!
# The shortest decimal of a binary fraction

A positive binary fraction `m / 2^k` stands for every real that rounds to it: those between the
midpoints to its two neighbours, the midpoints included when `m` is even. The neighbour below is
only half as far away when `m` is the least mantissa of full width, unless the exponent is least
too.

Decimals with `p` places are the grid of multiples of `10^-p`. The shortest decimal lies on the
coarsest grid that has a point among those reals; there it is the point nearest to `m / 2^k`, and
of two equally near points the upper one. If any point of a grid is among those reals, one of the
two neighbours of `m / 2^k` on the grid is, so only these are tried. On the grid of `k` places the
fraction is a point itself, so the search ends there at the latest.
-/

namespace Treeprint.Decimal

/-- A binary fraction `mantissa / 2^places` of 53 bits precision. -/
structure BinaryFraction where
  mantissa : Nat
  places : Nat
  deriving DecidableEq, Repr

namespace BinaryFraction

/-- The distance to the midpoint below, in units of `1 / 2^(places + 2)`; above it is 2. -/
def gapBelow (x : BinaryFraction) : Nat :=
  if x.mantissa = Binary64.hiddenBit ∧ -(x.places : Int) ≠ Binary64.minExponent then 1 else 2

/-- Whether the decimal `c / 10^p` rounds to the fraction. -/
def accepts (x : BinaryFraction) (c p : Nat) : Bool :=
  let point := c * Nat.pow 2 (x.places + 2)
  let low := (4 * x.mantissa - x.gapBelow) * Nat.pow 10 p
  let high := (4 * x.mantissa + 2) * Nat.pow 10 p
  if x.mantissa % 2 = 0 then low ≤ point && point ≤ high else low < point && point < high

/-- The best accepted decimal with `p` places, as a multiple of `10^-p`. -/
def nearest? (x : BinaryFraction) (p : Nat) : Option Nat :=
  let scaled := x.mantissa * Nat.pow 10 p
  let c := scaled / Nat.pow 2 x.places
  match x.accepts c p, x.accepts (c + 1) p with
  | true, true => some (if 2 * (scaled % Nat.pow 2 x.places) < Nat.pow 2 x.places then c else c + 1)
  | true, false => some c
  | false, true => some (c + 1)
  | false, false => none

end BinaryFraction

/-- The decimal number `digits / 10^places`. -/
structure Fixed where
  digits : Nat
  places : Nat
  deriving DecidableEq, Repr

/-- The best accepted decimal with at least `p` and less than `p + fuel` places, on the coarsest
grid that has one; past these grids, the fraction itself. -/
def BinaryFraction.search (x : BinaryFraction) (p : Nat) : Nat → Fixed
  | 0 => ⟨x.mantissa * Nat.pow 5 x.places, x.places⟩
  | fuel + 1 =>
    match x.nearest? p with
    | some c => ⟨c, p⟩
    | none => x.search (p + 1) fuel

/-- The shortest decimal that rounds to the fraction, which is not whole, so that it needs a
place. -/
def BinaryFraction.shortest (x : BinaryFraction) : Fixed := x.search 1 (x.places - 1)

/-- The number in positional form, with all its places. -/
def Fixed.toText (d : Fixed) : String :=
  let fraction := toString (d.digits % Nat.pow 10 d.places)
  toString (d.digits / Nat.pow 10 d.places) ++ "." ++
    String.ofList (List.replicate (d.places - fraction.length) '0') ++ fraction

end Treeprint.Decimal
