import SparseScan.Buffer
import SparseScan.Schema
import SparseScan.Value.Error

set_option autoImplicit false

/-! # What can go wrong in the array -/

namespace SparseScan

/-- Why the array or a query on it refuses a request. -/
inductive ArrayError where
  | unknownField (name : String)
  | noSuchDimension (position : Nat)
  | wrongDatatype (name : String) (expected : Datatype) (got : StoredValue)
  /-- A range came after the cells were selected. -/
  | rangesFixed (position : Nat)
  | rangeCrossed (position : Nat) (low high : StoredValue)
  | rangeUnordered (position : Nat) (e : ValueError)
  /-- A typed range on a variable-length dimension. -/
  | stringRangeNeeded (position : Nat) (name : String)
  /-- A string range on a fixed-length dimension. -/
  | typedRangeNeeded (position : Nat) (name : String)
  | bufferMissing (name : String)
  | bufferTooSmall (name : String) (role : BufferRole) (capacity required : Nat)
  | coordinateCount (got expected : Nat)
  | valueCount (got expected : Nat)
  | coordinateUnordered (dimension : String)
  | valueMissing (name : String)
  | closed
  | emptyTile
  | noDimensions
  | estimateMismatch (name : String) (asked : FieldShape)
  | shapeMismatch (name : String) (capacities : Capacities)
  | nothingRegistered
  | comparison (e : ValueError)
  /-- More was reported than a buffer holds. -/
  | overrun (name : String) (role : BufferRole)
  /-- Offsets that do not delimit value bytes. -/
  | badSpan (first last size : Nat)
  /-- Whatever else an engine reports. -/
  | engine (text : String)
  | abort (a : Abort)
deriving DecidableEq

namespace ArrayError

/-- A failure of the engine itself, in words. -/
def backend (what : String) : String := "storage backend error: " ++ what

/-- A refused range, in words. -/
def invalidRange (position : Nat) (reason : String) : String :=
  s!"invalid range on dimension {position}: {reason}"

/-- The wording of each cause. -/
def message : ArrayError → String
  | unknownField name => s!"unknown attribute or dimension '{name}'"
  | noSuchDimension position => s!"dimension index {position} out of range"
  | wrongDatatype name expected got =>
      s!"'{name}' expects {expected.label} values, got {got.render}"
  | rangesFixed p => invalidRange p "ranges cannot change after the first submit"
  | rangeCrossed p low high => invalidRange p s!"low {low.render} above high {high.render}"
  | rangeUnordered p e => invalidRange p e.message
  | stringRangeNeeded p name => invalidRange p s!"'{name}' is variable-length; use a string range"
  | typedRangeNeeded p name => invalidRange p s!"'{name}' is fixed-length; use a typed range"
  | bufferMissing name => s!"no buffer set for '{name}'"
  | bufferTooSmall name role capacity required =>
      s!"{role.label} buffer of '{name}' holds {capacity} elements, {required} registered"
  | coordinateCount got expected => s!"invalid cell: {got} coordinates for {expected} dimensions"
  | valueCount got expected => s!"invalid cell: {got} values for {expected} attributes"
  | coordinateUnordered d => s!"invalid cell: unordered coordinate on '{d}'"
  | valueMissing a => s!"invalid cell: null in non-nullable attribute '{a}'"
  | closed => "query is closed"
  | emptyTile => backend "tile extent must be positive"
  | noDimensions => backend "array needs at least one dimension"
  | estimateMismatch name asked =>
      backend (s!"estimate variant (var_len={asked.varLen}, nullable={asked.nullable}) " ++
        s!"does not match '{name}'")
  | shapeMismatch name capacities =>
      backend s!"buffer layout {capacities.render} does not match the shape of '{name}'"
  | nothingRegistered => backend "submit without any buffer set"
  | comparison e => backend e.message
  | overrun name role => backend s!"result elements of '{name}' exceed its {role.label} buffer"
  | badSpan first last size => backend s!"offsets {first}..{last} outside {size} value bytes"
  | engine text => backend text
  | abort a => a.message

/-- Whether the run ends here; any other error is returned. -/
def aborts : ArrayError → Bool
  | abort _ => true
  | _ => false

end ArrayError

end SparseScan
