import SparseScan.Scan.Error
import SparseScan.Storage.Engine

set_option autoImplicit false

/-! # Batches of rows

After a submit the scan copies each field out of its read buffers. A `FieldBatch` is that copy:
the bytes of the values with what is needed to tell them apart, by row. What a buffer cannot back
is refused. Sizes are computed before they are compared, and one that is not a word ends the run. -/

namespace SparseScan

/-- The rows that are reported of a field. -/
def ElementCounts.rows (counts : ElementCounts) (f : Field) : Nat :=
  if f.varLen then counts.offsets else counts.values

/-- The values of one field in a batch. -/
structure FieldBatch where
  datatype : Datatype
  isDimension : Bool
  nullable : Bool
  rows : Nat
  values : List UInt8
  offsets : Option (List Nat)
  validity : Option (List UInt8)
deriving DecidableEq, Repr

namespace FieldBatch

/-- The words that bytes hold, eight bytes each. -/
def words (bytes : List UInt8) : List Nat :=
  (List.range (bytes.length / offsetBytes)).map fun i =>
    Bytes.toNat ((bytes.drop (i * offsetBytes)).take offsetBytes)

/-- The size of `count` elements of `width` bytes. -/
def byteSize (count width : Nat) : Except ArrayError Nat :=
  if count * width < addressSpace then .ok (count * width)
  else .error (.abort (.sizeOverflow count width))

/-- The size of the values of a field, which is counted itself if elements have lengths of their
    own. -/
def valueSize (f : Field) (counts : ElementCounts) : Except ArrayError Nat :=
  if f.varLen then .ok counts.values else byteSize (counts.rows f) f.datatype.width

/-- The first `n` bytes of a buffer; more than it holds is an overrun. -/
def read (name : String) (role : BufferRole) (b : ElementBuffer) (n : Nat) :
    Except ArrayError (List UInt8) :=
  match b.take? n with
  | some bytes => .ok bytes
  | none => .error (.overrun name role)

/-- The first `rows` words of an offset buffer. -/
def readWords (name : String) (rows : Nat) (b : ElementBuffer) : Except ArrayError (List Nat) := do
  let size ← byteSize rows offsetBytes
  let bytes ← read name .offsets b size
  return words bytes

/-- The values that a submit is said to have written for a field. -/
def ofBuffers (f : Field) (s : ElementBuffers) (counts : ElementCounts) :
    Except ArrayError FieldBatch := do
  let rows := counts.rows f
  let size ← valueSize f counts
  let values ← read f.name .values s.values size
  let offsets ← onPresent (readWords f.name rows) (if f.varLen then s.offsets else none)
  let validity ← onPresent (fun b => read f.name .validity b rows)
    (if f.nullable then s.validity else none)
  return ⟨f.datatype, f.isDimension, f.nullable, rows, values, offsets, validity⟩

/-- Where the bytes of a row start and end. With offsets, the first row starts at zero whatever its
    offset, and the last ends with the values. -/
def span (b : FieldBatch) (row : Nat) : Except ArrayError (Nat × Nat) :=
  match b.offsets with
  | some offsets =>
      let last := offsets.getD (row + 1) b.values.length
      if row = 0 then .ok (0, last)
      else
        match offsets[row]? with
        | some first => .ok (first, last)
        | none => .error (.abort (.offsetMissing row))
  | none => do
      let first ← byteSize row b.datatype.width
      let last ← byteSize (row + 1) b.datatype.width
      return (first, last)

/-- The bytes of a row. -/
def bytesAt (b : FieldBatch) (row : Nat) : Except ScanError (List UInt8) :=
  if b.rows ≤ row then .error .noCurrentRow
  else
    match b.span row with
    | .error e => .error (.storage e)
    | .ok (first, last) =>
        if first ≤ last ∧ last ≤ b.values.length then
          .ok ((b.values.drop first).take (last - first))
        else .error (.storage (.badSpan first last b.values.length))

/-- The value of a row in stored form. -/
def stored (b : FieldBatch) (row : Nat) : Except ScanError StoredValue :=
  match b.bytesAt row with
  | .error e => .error e
  | .ok bytes => (StoredValue.decode b.datatype bytes).mapError .value

/-- The value of a row as an integer: single-precision floats as their bit pattern, datetimes as
    days or milliseconds. -/
def long (b : FieldBatch) (row : Nat) : Except ScanError Long :=
  match b.datatype with
  | .float64 | .char | .stringAscii | .stringUtf8 =>
      .error (.value (.unsupported b.datatype "get_long"))
  | .float32 =>
      match b.stored row with
      | .error e => .error e
      | .ok (.float .single x) => .ok (packReal x)
      | .ok _ => .error (.value (.unsupported b.datatype "get_long"))
  | .dateTime unit =>
      match b.stored row with
      | .error e => .error e
      | .ok v =>
          match v.toLong with
          | .error e => .error (.value e)
          | .ok count => (unit.toRelational count).mapError .value
  | _ =>
      match b.stored row with
      | .error e => .error e
      | .ok v => v.toLong.mapError .value

/-- The value of a row as a double. -/
def double (b : FieldBatch) (row : Nat) : Except ScanError (Binary .double) :=
  if b.datatype.isFloat then
    match b.stored row with
    | .error e => .error e
    | .ok v => v.toDouble.mapError .value
  else .error (.value (.unsupported b.datatype "get_double"))

/-- The value of a row as a flag. A dimension has coordinates, never flags. -/
def boolean (b : FieldBatch) (row : Nat) : Except ScanError Bool :=
  if b.isDimension then .ok false
  else if b.datatype.isFloat || b.datatype.isText then
    .error (.value (.unsupported b.datatype "get_boolean"))
  else
    match b.stored row with
    | .error e => .error e
    | .ok v =>
        match v.toLong with
        | .error e => .error (.value e)
        | .ok n => .ok (n.val != 0)

/-- Whether the value of a row is null. A row without a flag is not. -/
def isNull (b : FieldBatch) (row : Nat) : Bool :=
  b.nullable &&
    match b.validity.bind (·[row]?) with
    | some flag => flag == 0
    | none => false

end FieldBatch

/-- The fields of a batch, by ordinal. -/
structure RowBatch where
  fields : List FieldBatch := []
deriving DecidableEq, Repr

namespace RowBatch

/-- The rows, counted on the first field. -/
def rows (b : RowBatch) : Nat :=
  match b.fields with
  | [] => 0
  | f :: _ => f.rows

/-- The field with an ordinal. -/
def field (b : RowBatch) (ordinal : Nat) : Except ScanError FieldBatch :=
  match b.fields[ordinal]? with
  | some f => .ok f
  | none => .error (.noSuchField ordinal)

end RowBatch

end SparseScan
