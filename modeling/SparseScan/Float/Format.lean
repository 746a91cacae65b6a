set_option autoImplicit false

/-! # Binary floating-point numbers

The two interchange formats, single and double precision. A number is a sign and a *magnitude*,
the pattern of the remaining bits: magnitudes are ordered like the numbers they stand for, every
finite one is a whole number of `FloatFormat.units` of the least positive number, and the patterns
above `FloatFormat.infinity` are not numbers (NaN).

`Binary.rank` is the position of a number among the numbers of its format; comparison and
neighbours are comparison and successor of ranks. -/

namespace SparseScan

-- powers in the sense of the core library, whatever else is imported
attribute [local instance (high)] instPowNat

/-- The two stored float formats. -/
inductive FloatFormat where
  | single
  | double
deriving DecidableEq, Repr

namespace FloatFormat

/-- Bits of the fraction field. -/
def fractionBits : FloatFormat → Nat
  | single => 23
  | double => 52

/-- Bits of the exponent field. -/
def exponentBits : FloatFormat → Nat
  | single => 8
  | double => 11

/-- All bits but the sign. -/
def magnitudeBits (f : FloatFormat) : Nat := f.exponentBits + f.fractionBits

/-- The least positive number is `2 ^ (-f.scale)`. -/
def scale : FloatFormat → Nat
  | single => 149
  | double => 1074

/-- Stored size in bytes. -/
def bytes : FloatFormat → Nat
  | single => 4
  | double => 8

/-- The magnitude of infinity: all ones in the exponent, no fraction. -/
def infinity (f : FloatFormat) : Nat := (2 ^ f.exponentBits - 1) * 2 ^ f.fractionBits

/-- How many times the least positive number a finite magnitude is. Magnitudes with an empty
    exponent field count one by one; each further exponent doubles the step. -/
def units (f : FloatFormat) (magnitude : Nat) : Nat :=
  let fraction := magnitude % 2 ^ f.fractionBits
  let exponent := magnitude / 2 ^ f.fractionBits
  if exponent = 0 then fraction else (2 ^ f.fractionBits + fraction) * 2 ^ (exponent - 1)

theorem infinity_lt (f : FloatFormat) : f.infinity < 2 ^ f.magnitudeBits := by
  cases f <;> decide

end FloatFormat

/-- A number of format `f`, or one of its NaN patterns, bit for bit. -/
structure Binary (f : FloatFormat) where
  negative : Bool
  magnitude : Fin (2 ^ f.magnitudeBits)
deriving DecidableEq, Repr

namespace Binary

variable {f : FloatFormat}

/-- Not a number. -/
def isNaN (x : Binary f) : Bool := f.infinity < x.magnitude.val

/-- Neither infinite nor NaN. -/
def isFinite (x : Binary f) : Bool := x.magnitude.val < f.infinity

/-- The number of the given sign and magnitude; magnitudes beyond the format are infinity. -/
def ofMagnitude (negative : Bool) (magnitude : Nat) : Binary f :=
  ⟨negative, min magnitude f.infinity,
    Nat.lt_of_le_of_lt (Nat.min_le_right _ _) f.infinity_lt⟩

/-- Infinity with the given sign. -/
def infinite (negative : Bool) : Binary f := ofMagnitude negative f.infinity

/-- A NaN with the given sign: the top bit of the fraction is set and nothing else. -/
def nan (negative : Bool) : Binary f :=
  ⟨negative, f.infinity + 2 ^ (f.fractionBits - 1), by cases f <;> decide⟩

/-- The same magnitude with the other sign. -/
def neg (x : Binary f) : Binary f := { x with negative := !x.negative }

/-- Whole multiples of the least positive number, without the sign. -/
def units (x : Binary f) : Nat := f.units x.magnitude.val

/-- The place of a number in the order of its format; both zeros have rank zero. -/
def rank (x : Binary f) : Int :=
  if x.negative then -(x.magnitude.val : Int) else x.magnitude.val

/-! ## Bit patterns -/

/-- The bit pattern: the sign on top of the magnitude. -/
def toBits (x : Binary f) : Nat :=
  (if x.negative then 2 ^ f.magnitudeBits else 0) + x.magnitude.val

/-- The number with the given bit pattern; bits above the sign are dropped. -/
def ofBits (bits : Nat) : Binary f :=
  ⟨bits / 2 ^ f.magnitudeBits % 2 = 1, bits % 2 ^ f.magnitudeBits,
    Nat.mod_lt _ (Nat.two_pow_pos _)⟩

theorem toBits_lt (x : Binary f) : x.toBits < 2 ^ (f.magnitudeBits + 1) := by
  have h := x.magnitude.isLt
  have hs : 2 ^ (f.magnitudeBits + 1) = 2 ^ f.magnitudeBits + 2 ^ f.magnitudeBits := by
    rw [Nat.pow_succ]
    omega
  unfold toBits
  split <;> omega

theorem ofBits_toBits (x : Binary f) : ofBits x.toBits = x := by
  obtain ⟨s, m, hm⟩ := x
  have hp : 0 < 2 ^ f.magnitudeBits := Nat.two_pow_pos _
  cases s
  · simp [ofBits, toBits, Nat.div_eq_of_lt hm, Nat.mod_eq_of_lt hm]
  · simp [ofBits, toBits, Nat.add_div_left _ hp, Nat.div_eq_of_lt hm, Nat.mod_eq_of_lt hm]

/-! ## Neighbours -/

/-- The least number above `x`. Zero steps to the least positive number; a negative number keeps
    its sign, so the greatest negative one steps to negative zero. -/
def above? (x : Binary f) : Option (Binary f) :=
  if x.isNaN then none
  else if x.magnitude.val = 0 then some (ofMagnitude false 1)
  else if x.negative then some (ofMagnitude true (x.magnitude.val - 1))
  else if x.magnitude.val < f.infinity then some (ofMagnitude false (x.magnitude.val + 1))
  else none

/-- The greatest number below `x`. -/
def below? (x : Binary f) : Option (Binary f) := x.neg.above?.map neg

end Binary

end SparseScan
