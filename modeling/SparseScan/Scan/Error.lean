import SparseScan.Settings
import SparseScan.Constraint.Hull
import SparseScan.Storage.Error

set_option autoImplicit false

/-! # What can go wrong in a scan -/

namespace SparseScan

/-- Why a scan cannot go on. -/
inductive ScanError where
  | settings (e : SettingsError)
  | schema (e : SchemaError)
  | value (e : ValueError)
  | constraint (e : ConstraintError)
  | storage (e : ArrayError)
  /-- Buffers were too small and could not grow. -/
  | memory (e : MemoryError)
  | noCurrentRow
  | noSuchField (ordinal : Nat)
  /-- Buffers doubled beyond any size and the query still has no row. -/
  | stalled
deriving DecidableEq

namespace ScanError

/-- The wording of each cause. -/
def message : ScanError → String
  | settings e => e.message
  | schema e => e.message
  | value e => e.message
  | constraint e => e.message
  | storage e => "storage engine error: " ++ e.message
  | memory e => "cannot complete scan: " ++ e.message
  | noCurrentRow => "no current row; advance the cursor first"
  | noSuchField ordinal => s!"field ordinal {ordinal} out of range"
  | stalled => "no row however large the buffers"

/-- Whether the run ends here; any other error is returned. -/
def aborts : ScanError → Bool
  | storage e => e.aborts
  | memory e => e.aborts
  | _ => false

end ScanError

end SparseScan
