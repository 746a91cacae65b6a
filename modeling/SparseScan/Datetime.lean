import SparseScan.Calendar
import SparseScan.Value.Error

set_option autoImplicit false

/-! # Stored datetimes

A datetime is stored as a count of its unit and travels as days, for the units of a day or more,
or as milliseconds. `TimeUnit.toRelational` converts a stored count; `TimeUnit.ofRelational`
converts the end of an interval back to the first stored count at or after it (`Rounding.up`) or
to the last at or before it (`Rounding.down`). -/

namespace SparseScan

/-- How a stored count relates to its relational value. -/
inductive TimeMeasure where
  /-- So many counts make one relational unit. -/
  | countsPerUnit (counts : Int)
  /-- One count is so many relational units. -/
  | unitsPerCount (units : Int)
  /-- One count is so many calendar months; the relational unit is the day. -/
  | months (n : Int)
deriving DecidableEq, Repr

/-- The scale of each unit. -/
def TimeUnit.scale : TimeUnit → TimeMeasure
  | attosecond => .countsPerUnit 1000000000000000
  | femtosecond => .countsPerUnit 1000000000000
  | picosecond => .countsPerUnit 1000000000
  | nanosecond => .countsPerUnit 1000000
  | microsecond => .countsPerUnit 1000
  | millisecond | day => .unitsPerCount 1
  | second => .unitsPerCount 1000
  | minute => .unitsPerCount 60000
  | hour => .unitsPerCount 3600000
  | week => .unitsPerCount 7
  | month => .months 1
  | year => .months 12

/-- Which way the end of an interval moves when it falls between two stored counts. -/
inductive Rounding where
  | up
  | down
deriving DecidableEq, Repr

namespace TimeUnit

/-- The relational value of a stored count, without the limits of a long. Fractions of a
    relational unit are dropped toward the past. -/
def relationalValue? (unit : TimeUnit) (count : Int) : Option Int :=
  match unit.scale with
  | .countsPerUnit n => some (count / n)
  | .unitsPerCount n => some (count * n)
  | .months n => Calendar.monthStart? (count * n)

/-- The stored count of a relational value, without the limits of a long. -/
def storedCount? (unit : TimeUnit) (value : Int) (rounding : Rounding) : Option Int :=
  match unit.scale, rounding with
  | .countsPerUnit n, .up => some (value * n)
  | .countsPerUnit n, .down => some (value * n + n - 1)
  | .unitsPerCount n, .up => some (if value % n = 0 then value / n else value / n + 1)
  | .unitsPerCount n, .down => some (value / n)
  | .months n, .up =>
      (Calendar.monthOf? value).map fun (months, first) =>
        if first ∧ months % n = 0 then months / n else months / n + 1
  | .months n, .down => (Calendar.monthOf? value).map fun (months, _) => months / n

/-- The relational value of a stored count. -/
def toRelational (unit : TimeUnit) (count : Long) : Except ValueError Long :=
  match (unit.relationalValue? count.val).bind IntKind.int64.ofInt? with
  | some v => .ok v
  | none => .error (.countOutOfRange count unit)

/-- The stored count of a relational value that ends an interval. -/
def ofRelational (unit : TimeUnit) (value : Long) (rounding : Rounding) : Except ValueError Long :=
  match (unit.storedCount? value.val rounding).bind IntKind.int64.ofInt? with
  | some c => .ok c
  | none => .error (.datetimeOutOfRange value unit)

end TimeUnit

end SparseScan
