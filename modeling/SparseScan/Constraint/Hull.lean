import SparseScan.Constraint
import SparseScan.Datetime
import SparseScan.Schema
import SparseScan.Value.Conversion
import SparseScan.Value.Order

set_option autoImplicit false

/-! # Hulls of constraints

The array takes one inclusive range of stored values per dimension. `Interval.storedEnds` maps one
interval of literals to stored values, stepping to the neighbour where the value itself is excluded;
`Dimension.hull` covers all intervals of a constraint by one range, which reaches to the populated
bounds of the array where some interval has no limit. -/

namespace SparseScan

/-- Why a constraint cannot be mapped to stored values. -/
inductive ConstraintError where
  | value (e : ValueError)
  /-- An interval starts before its value. -/
  | startsBefore (dimension : String)
  /-- An interval ends after its value. -/
  | endsAfter (dimension : String)
  /-- A constraint that admits nothing should not have reached a scan. -/
  | admitsNothing (dimension : String)
  | noIntervals (dimension : String)
  /-- A variable-length dimension takes ranges of strings only. -/
  | notStrings (dimension : String)
deriving DecidableEq

/-- The wording of each cause. -/
def ConstraintError.message : ConstraintError → String
  | value e => e.message
  | startsBefore d => ValueError.violation s!"low marker of '{d}' is below its value"
  | endsAfter d => ValueError.violation s!"high marker of '{d}' is above its value"
  | admitsNothing d =>
      ValueError.violation s!"predicate on '{d}' matches nothing but reached the scan"
  | noIntervals d => ValueError.violation s!"predicate on '{d}' has no ranges"
  | notStrings d =>
      ValueError.violation s!"variable-length dimension '{d}' resolved to non-string bounds"

/-- The stored value of a literal, datetimes being rounded as told. -/
def Dimension.storedEnd (d : Dimension) (t : ColumnType) (v : Literal) (rounding : Rounding) :
    Except ConstraintError StoredValue :=
  match StoredValue.ofLiteral d.datatype t v with
  | .error e => .error (.value e)
  | .ok stored =>
      match d.datatype, stored with
      | .dateTime unit, .int .int64 n =>
          match unit.ofRelational n rounding with
          | .ok count => .ok (.int .int64 count)
          | .error e => .error (.value e)
      | _, _ => .ok stored

/-- The low end of an interval in stored values. -/
def Dimension.lowEnd (d : Dimension) (t : ColumnType) (e : Endpoint) :
    Except ConstraintError (Option StoredValue) :=
  match e.value, e.side with
  | none, _ => .ok none
  | some v, .on => (d.storedEnd t v .up).map some
  | some v, .after =>
      match d.storedEnd t v .down with
      | .ok n => (n.above.mapError .value).map some
      | .error e => .error e
  | some _, .before => .error (.startsBefore d.name)

/-- The high end of an interval in stored values. -/
def Dimension.highEnd (d : Dimension) (t : ColumnType) (e : Endpoint) :
    Except ConstraintError (Option StoredValue) :=
  match e.value, e.side with
  | none, _ => .ok none
  | some v, .on => (d.storedEnd t v .down).map some
  | some v, .before =>
      match d.storedEnd t v .up with
      | .ok n => (n.below.mapError .value).map some
      | .error e => .error e
  | some _, .after => .error (.endsAfter d.name)

/-- The stored values of one interval, a missing end being no limit. The ends cross when no stored
    value is in the interval. -/
def Interval.storedEnds (i : Interval) (d : Dimension) (t : ColumnType) :
    Except ConstraintError (Option StoredValue × Option StoredValue) :=
  let high := if i.isPoint then i.low else i.high
  match d.lowEnd t i.low with
  | .error e => .error e
  | .ok low =>
      match d.highEnd t high with
      | .error e => .error e
      | .ok high => .ok (low, high)

/-! ## Hulls -/

/-- What the intervals seen so far reach over: the least low end and the greatest high end, whether
    some end had no limit, and whether any interval can hold a stored value. -/
structure Hull where
  low : Option StoredValue := none
  high : Option StoredValue := none
  openLow : Bool := false
  openHigh : Bool := false
  satisfiable : Bool := false
deriving DecidableEq

namespace Hull

/-- Whether two ends cross. Values without an order are an error. -/
def crossed : Option StoredValue → Option StoredValue → Except ValueError Bool
  | some l, some h => (l.order h).map (· == .gt)
  | _, _ => .ok false

/-- Take a low end into account. -/
def addLow (h : Hull) : Option StoredValue → Except ValueError Hull
  | none => .ok { h with openLow := true }
  | some v =>
      match h.low with
      | none => .ok { h with low := some v }
      | some a => (a.least v).map fun l => { h with low := some l }

/-- Take a high end into account. -/
def addHigh (h : Hull) : Option StoredValue → Except ValueError Hull
  | none => .ok { h with openHigh := true }
  | some v =>
      match h.high with
      | none => .ok { h with high := some v }
      | some a => (a.greatest v).map fun g => { h with high := some g }

/-- Take the ends of one interval into account; crossed ends add nothing. -/
def add (h : Hull) (low high : Option StoredValue) : Except ValueError Hull :=
  match crossed low high with
  | .error e => .error e
  | .ok true => .ok h
  | .ok false =>
      match { h with satisfiable := true }.addLow low with
      | .error e => .error e
      | .ok h => h.addHigh high

/-- Take the intervals of a column of type `t` into account. -/
def addIntervals (h : Hull) (d : Dimension) (t : ColumnType) :
    List Interval → Except ConstraintError Hull
  | [] => .ok h
  | i :: rest =>
      match i.storedEnds d t with
      | .error e => .error e
      | .ok (low, high) =>
          match h.add low high with
          | .error e => .error (.value e)
          | .ok h => h.addIntervals d t rest

/-- The bounds of the hull, reaching to the populated bounds where there is no limit; none when no
    interval can hold a stored value. -/
def bounds (h : Hull) (populated : StoredValue × StoredValue) :
    Option (StoredValue × StoredValue) :=
  if h.satisfiable then
    some (if h.openLow then populated.1 else h.low.getD populated.1,
      if h.openHigh then populated.2 else h.high.getD populated.2)
  else none

end Hull

/-- The one range of dimension `d` that covers a constraint, or none when no stored value can
    satisfy it. Without a constraint it is the populated range. -/
def Dimension.hull (d : Dimension) (constraint : Option Constraint)
    (populated : StoredValue × StoredValue) :
    Except ConstraintError (Option (StoredValue × StoredValue)) :=
  match constraint with
  | none => .ok (some populated)
  | some c =>
      match c.admitted with
      | .everything => .ok (some populated)
      | .nothing => .error (.admitsNothing d.name)
      | .intervals [] => .error (.noIntervals d.name)
      | .intervals is => (Hull.addIntervals {} d c.columnType is).map (·.bounds populated)

end SparseScan
