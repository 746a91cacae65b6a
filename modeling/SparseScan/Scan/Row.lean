import SparseScan.Scan.Basic

set_option autoImplicit false

/-! # The current row

After a scan has advanced, its fields can be read by ordinal until it advances again. A scan that is
closed or has not advanced into its batch has no current row. -/

namespace SparseScan.Scan

variable {Q : Type}

/-- A field of the present batch, and the current row in it. -/
def current (s : Scan Q) (ordinal : Nat) : Except ScanError (FieldBatch × Nat) :=
  if s.isClosed ∨ s.position = 0 then .error .noCurrentRow
  else
    match s.batch.field ordinal with
    | .ok f => .ok (f, s.position - 1)
    | .error e => .error e

/-- Read a field of the current row. -/
def readCurrent {α : Type} (s : Scan Q) (ordinal : Nat)
    (read : FieldBatch → Nat → Except ScanError α) : Except ScanError α :=
  match s.current ordinal with
  | .ok (f, row) => read f row
  | .error e => .error e

/-- A field of the current row as an integer. -/
def long (s : Scan Q) (ordinal : Nat) : Except ScanError Long :=
  s.readCurrent ordinal FieldBatch.long

/-- A field of the current row as a double. -/
def double (s : Scan Q) (ordinal : Nat) : Except ScanError (Binary .double) :=
  s.readCurrent ordinal FieldBatch.double

/-- A field of the current row as a flag. -/
def boolean (s : Scan Q) (ordinal : Nat) : Except ScanError Bool :=
  s.readCurrent ordinal FieldBatch.boolean

/-- The bytes of a field of the current row. -/
def bytes (s : Scan Q) (ordinal : Nat) : Except ScanError (List UInt8) :=
  s.readCurrent ordinal FieldBatch.bytesAt

/-- Whether a field of the current row is null. -/
def isNull (s : Scan Q) (ordinal : Nat) : Except ScanError Bool :=
  s.readCurrent ordinal fun f row => .ok (f.isNull row)

end SparseScan.Scan
