import SparseScan.Float.Rounding

set_option autoImplicit false

/-! # Floats in decimal

`Binary.text` writes the fewest digits that read back to the same number, the nearest to it among
those, always in positional notation. Reading rounds to nearest, so the decimals that read back as
`x` form a bracket around `x` that reaches halfway to each neighbour; the text is a point of the
coarsest decimal grid that has one in that bracket.

`Binary.fixedText` writes a fixed number of places of the exact value. -/

namespace SparseScan

-- powers in the sense of the core library, whatever else is imported
attribute [local instance (high)] instPowNat

namespace Decimal

/-- A bracket of positive fractions around `mid`, all over the one denominator `den`; its ends
    belong to it when `closed`. -/
structure Bracket where
  low : Nat
  mid : Nat
  high : Nat
  den : Nat
  closed : Bool
deriving Repr

/-- Whether the fraction `c / d` is positive and lies in the bracket. -/
def Bracket.holds (i : Bracket) (c d : Nat) : Bool :=
  let x := c * i.den
  0 < c && (if i.closed then i.low * d ≤ x && x ≤ i.high * d
            else i.low * d < x && x < i.high * d)

/-- The multiple of `10 ^ k` in the bracket that is nearest to its middle; of two at the same
    distance the greater. The only candidates are the two multiples next to the middle. -/
def Bracket.gridPoint? (i : Bracket) (k : Int) : Option Nat :=
  let up := 10 ^ k.toNat
  let down := 10 ^ (-k).toNat
  let scaled := i.mid * down
  let step := i.den * up
  let c := scaled / step
  let lower := i.holds (c * up) down
  let upper := i.holds ((c + 1) * up) down
  if lower && upper then some (if 2 * scaled < (2 * c + 1) * step then c else c + 1)
  else if lower then some c
  else if upper then some (c + 1)
  else none

/-- The digits and the power of ten of the coarsest grid point. Powers from `308` down to `-331`
    cover every number of both formats. -/
def Bracket.coarsest (i : Bracket) : Nat × Int :=
  ((List.range 640).findSome? fun (n : Nat) =>
    let k : Int := 308 - n
    (i.gridPoint? k).map fun c => (c, k)).getD (0, 0)

/-- The digits of `n`, padded with leading zeros to at least `width`. -/
def padded (width n : Nat) : String :=
  let digits := toString n
  String.ofList (List.replicate (width - digits.length) '0') ++ digits

/-- The decimal `digits / 10 ^ places`, with exactly that many places. -/
def withPlaces (digits places : Nat) : String :=
  toString (digits / 10 ^ places) ++ "." ++ padded places (digits % 10 ^ places)

/-- The decimal `digits * 10 ^ k` without an exponent. -/
def positional (digits : Nat) (k : Int) : String :=
  if k < 0 then withPlaces digits (-k).toNat else toString (digits * 10 ^ k.toNat)

end Decimal

namespace Binary

variable {f : FloatFormat}

/-- The decimals that read back as the finite number `x`, in halves of the least positive number.
    A tie between two numbers reads as the even one, so the ends belong to even magnitudes. -/
def readBack (x : Binary f) : Decimal.Bracket where
  low := x.units + f.units (x.magnitude.val - 1)
  mid := 2 * x.units
  high := x.units + f.units (x.magnitude.val + 1)
  den := 2 ^ (f.scale + 1)
  closed := x.magnitude.val % 2 == 0

/-- The fewest digits that read back as `x`, in positional notation. -/
def text (x : Binary f) : String :=
  if x.isNaN then "NaN"
  else
    let digits :=
      if !x.isFinite then "inf"
      else if x.magnitude.val = 0 then "0"
      else
        let (c, k) := x.readBack.coarsest
        Decimal.positional c k
    if x.negative then "-" ++ digits else digits

/-- The exact value of a finite number rounded to `places` places, a half to the even digit. -/
def fixedText (places : Nat) (x : Binary f) : String :=
  let digits := Decimal.withPlaces (roundHalfEven (x.units * 10 ^ places) (2 ^ f.scale)) places
  if x.negative then "-" ++ digits else digits

end Binary

end SparseScan
