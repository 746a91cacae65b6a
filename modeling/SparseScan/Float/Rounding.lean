import SparseScan.Float.Format

set_option autoImplicit false

/-! # Rounding to a float format

Every operation that cannot be exact rounds the exact result to the nearest number of the format,
a tie to the even magnitude, and to infinity beyond the greatest. `FloatFormat.nearest` is the one
place that does it: conversions and arithmetic hand it the exact result as a fraction. -/

namespace SparseScan

-- powers in the sense of the core library, whatever else is imported
attribute [local instance (high)] instPowNat

/-- The integer nearest to `num / den`; a half goes to the even neighbour. -/
def roundHalfEven (num den : Nat) : Nat :=
  let whole := num / den
  let twice := 2 * (num % den)
  if twice < den then whole
  else if den < twice then whole + 1
  else if whole % 2 = 0 then whole else whole + 1

/-- The magnitude nearest to `num / den` times the least positive number. Beyond `2 ^ fractionBits`
    units the step doubles with each exponent, and a significand that rounds up to the next power
    of two carries into the exponent field by itself. -/
def FloatFormat.nearest (f : FloatFormat) (num den : Nat) : Nat :=
  let shift := Nat.log2 (num / den) - f.fractionBits
  shift * 2 ^ f.fractionBits + roundHalfEven num (den * 2 ^ shift)

namespace Binary

variable {f g : FloatFormat}

/-- The number nearest to `num / den` with the given sign. -/
def ofRatio (negative : Bool) (num den : Nat) : Binary f :=
  ofMagnitude negative (f.nearest (num * 2 ^ f.scale) den)

/-- The number nearest to an integer. -/
def ofInt (n : Int) : Binary f := ofRatio (decide (n < 0)) n.natAbs 1

/-- The number of another format nearest to `x`. -/
def convert (x : Binary f) : Binary g :=
  if x.isNaN then nan x.negative
  else if x.isFinite then ofRatio x.negative x.units (2 ^ f.scale)
  else infinite x.negative

/-- The integer that `x` is, if it is one. -/
def integer? (x : Binary f) : Option Int :=
  if x.isFinite && x.units % 2 ^ f.scale == 0 then
    let n : Int := (x.units / 2 ^ f.scale : Nat)
    some (if x.negative then -n else n)
  else none

/-- The sum of two finite numbers of equal sign. -/
def sum (x y : Binary f) : Binary f := ofRatio x.negative (x.units + y.units) (2 ^ f.scale)

/-- The quotient of two finite numbers; the divisor is not zero. -/
def quotient (x y : Binary f) : Binary f := ofRatio (x.negative != y.negative) x.units y.units

/-- Equality of numbers: NaN equals nothing, and the two zeros are equal. -/
def same (x y : Binary f) : Bool := !x.isNaN && !y.isNaN && x.rank == y.rank

end Binary

end SparseScan
