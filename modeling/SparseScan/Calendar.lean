set_option autoImplicit false

/-! # Months and days

The proleptic Gregorian calendar around the epoch 1970-01-01, over the years
`Calendar.firstYear` to `Calendar.lastYear`. Months and days are counted from the epoch:
`Calendar.monthStart` is the first day of a month, `Calendar.monthOf` the month a day falls in. -/

namespace SparseScan.Calendar

/-- The first year that has dates. -/
def firstYear : Int := -262143

/-- The last year that has dates. -/
def lastYear : Int := 262142

/-- Whether year `y` has a 29th of February. -/
def isLeap (y : Int) : Bool := y % 4 == 0 && (y % 100 != 0 || y % 400 == 0)

/-- Days from the epoch to the first of January of year `y`: 365 for each year and one for each
    leap year between; there are 477 leap years before 1970 from year one on. -/
def yearStart (y : Int) : Int :=
  365 * (y - 1970) + ((y - 1) / 4 - (y - 1) / 100 + (y - 1) / 400 - 477)

/-- Days of a year before each of its months, January being month zero. -/
def daysBefore (leap : Bool) (month : Nat) : Int :=
  let common : Int := match month with
    | 0 => 0
    | 1 => 31
    | 2 => 59
    | 3 => 90
    | 4 => 120
    | 5 => 151
    | 6 => 181
    | 7 => 212
    | 8 => 243
    | 9 => 273
    | 10 => 304
    | _ => 334
  if leap ∧ 2 ≤ month then common + 1 else common

/-- The year that month `m` belongs to. -/
def yearOfMonth (m : Int) : Int := 1970 + m / 12

/-- The first day of month `m`. -/
def monthStart (m : Int) : Int :=
  yearStart (yearOfMonth m) + daysBefore (isLeap (yearOfMonth m)) (m % 12).toNat

/-- The year that day `d` falls in. A year is 146097 / 400 days on average, which misses the year
    by at most one. -/
def yearOf (d : Int) : Int :=
  let guess := 1970 + 400 * d / 146097
  if d < yearStart guess then guess - 1
  else if yearStart (guess + 1) ≤ d then guess + 1
  else guess

/-- The last month of its year that starts on or before day `day` of the year. -/
def monthInYear (leap : Bool) (day : Int) : Nat :=
  (List.range 11).countP fun n => daysBefore leap (n + 1) ≤ day

/-- The month that day `d` falls in. -/
def monthOf (d : Int) : Int :=
  12 * (yearOf d - 1970) + monthInYear (isLeap (yearOf d)) (d - yearStart (yearOf d))

/-- Whether year `y` has dates. -/
def hasYear (y : Int) : Bool := firstYear ≤ y && y ≤ lastYear

/-- The first day of month `m`, if its year has dates. -/
def monthStart? (m : Int) : Option Int :=
  if hasYear (yearOfMonth m) then some (monthStart m) else none

/-- The month that day `d` falls in and whether `d` is its first day, if its year has dates. -/
def monthOf? (d : Int) : Option (Int × Bool) :=
  if hasYear (yearOf d) then some (monthOf d, d == monthStart (monthOf d)) else none

end SparseScan.Calendar
