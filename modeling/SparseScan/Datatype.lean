import SparseScan.Float.Format

set_option autoImplicit false

/-! # Datatypes

`Datatype` is the type of an attribute or dimension as the array stores it, `ColumnType` the type
its column has for the reader. Many datatypes share one `StoredForm`: an integer of one of eight
ranges, a float of one of two formats, or text. -/

namespace SparseScan

-- powers in the sense of the core library, whatever else is imported
attribute [local instance (high)] instPowNat

/-! ## Stored forms -/

/-- The eight stored integer ranges. -/
inductive IntKind where
  | int8
  | uint8
  | int16
  | uint16
  | int32
  | uint32
  | int64
  | uint64
deriving DecidableEq, Repr

namespace IntKind

/-- Stored size in bytes. -/
def bytes : IntKind → Nat
  | int8 | uint8 => 1
  | int16 | uint16 => 2
  | int32 | uint32 => 4
  | int64 | uint64 => 8

/-- Whether negative values are stored, in two's complement. -/
def signed : IntKind → Bool
  | int8 | int16 | int32 | int64 => true
  | uint8 | uint16 | uint32 | uint64 => false

/-- How many values there are. -/
def size (k : IntKind) : Nat := 256 ^ k.bytes

/-- The least stored value. -/
def least (k : IntKind) : Int := if k.signed then -(k.size / 2 : Nat) else 0

/-- The greatest stored value. -/
def greatest (k : IntKind) : Int := k.least + k.size - 1

/-- Whether `n` is in the range. -/
def Holds (k : IntKind) (n : Int) : Prop := k.least ≤ n ∧ n ≤ k.greatest

instance (k : IntKind) (n : Int) : Decidable (k.Holds n) :=
  inferInstanceAs (Decidable (_ ∧ _))

/-- An integer of the range. -/
abbrev Value (k : IntKind) : Type := { n : Int // k.Holds n }

/-- The stored value of an integer, if it is in the range. -/
def ofInt? (k : IntKind) (n : Int) : Option k.Value :=
  if h : k.Holds n then some ⟨n, h⟩ else none

theorem ofInt?_eq_some_iff {k : IntKind} {n : Int} {v : k.Value} :
    k.ofInt? n = some v ↔ v.val = n := by
  unfold ofInt?
  constructor
  · intro h
    split at h
    · cases h
      rfl
    · cases h
  · intro h
    subst h
    rw [dif_pos v.property]

theorem ofInt?_eq_none_iff {k : IntKind} {n : Int} : k.ofInt? n = none ↔ ¬ k.Holds n := by
  unfold ofInt?
  split <;> simp_all

end IntKind

/-- The integer a relational column carries: 64 bits, signed. -/
abbrev Long : Type := IntKind.int64.Value

/-- How values of a datatype are stored. -/
inductive StoredForm where
  | int (kind : IntKind)
  | float (format : FloatFormat)
  | text
deriving DecidableEq, Repr

namespace StoredForm

/-- The name of a stored form in messages. -/
def name : StoredForm → String
  | int .int8 => "int8"
  | int .uint8 => "uint8"
  | int .int16 => "int16"
  | int .uint16 => "uint16"
  | int .int32 => "int32"
  | int .uint32 => "uint32"
  | int .int64 => "int64"
  | int .uint64 => "uint64"
  | float .single => "float32"
  | float .double => "float64"
  | text => "bytes"

/-- Bytes of one element; text is counted byte by byte. -/
def bytes : StoredForm → Nat
  | int k => k.bytes
  | float f => f.bytes
  | text => 1

theorem bytes_pos (k : StoredForm) : 0 < k.bytes := by
  cases k with
  | int k => cases k <;> decide
  | float f => cases f <;> decide
  | text => decide

end StoredForm

/-! ## Datatypes of the array -/

/-- The unit of a datetime datatype; stored counts start at 1970-01-01T00:00:00Z. -/
inductive TimeUnit where
  | year
  | month
  | week
  | day
  | hour
  | minute
  | second
  | millisecond
  | microsecond
  | nanosecond
  | picosecond
  | femtosecond
  | attosecond
deriving DecidableEq, Repr

/-- The name of a unit in messages. -/
def TimeUnit.label : TimeUnit → String
  | year => "Year"
  | month => "Month"
  | week => "Week"
  | day => "Day"
  | hour => "Hour"
  | minute => "Minute"
  | second => "Second"
  | millisecond => "Millisecond"
  | microsecond => "Microsecond"
  | nanosecond => "Nanosecond"
  | picosecond => "Picosecond"
  | femtosecond => "Femtosecond"
  | attosecond => "Attosecond"

/-- The type of an attribute or dimension. -/
inductive Datatype where
  | bool
  | int8
  | uint8
  | int16
  | uint16
  | int32
  | uint32
  | int64
  | uint64
  | float32
  | float64
  | char
  | stringAscii
  | stringUtf8
  | dateTime (unit : TimeUnit)
deriving DecidableEq, Repr

/-- The type of a relational column. -/
inductive ColumnType where
  | boolean
  | tinyInt
  | smallInt
  | integer
  | bigInt
  /-- Four-byte floats; they travel as the bit pattern in a long. -/
  | real
  | double
  | varchar
  /-- Days since the epoch. -/
  | date
  /-- Milliseconds since the epoch. -/
  | timestamp
deriving DecidableEq, Repr

namespace Datatype

/-- How values of the datatype are stored. -/
def form : Datatype → StoredForm
  | bool | uint8 => .int .uint8
  | int8 => .int .int8
  | int16 => .int .int16
  | uint16 => .int .uint16
  | int32 => .int .int32
  | uint32 => .int .uint32
  | int64 | dateTime _ => .int .int64
  | uint64 => .int .uint64
  | float32 => .float .single
  | float64 => .float .double
  | char | stringAscii | stringUtf8 => .text

/-- Bytes of one element. -/
def width (d : Datatype) : Nat := d.form.bytes

/-- Whether values are byte strings. -/
def isText (d : Datatype) : Bool := d.form == .text

/-- Whether values are floats. -/
def isFloat : Datatype → Bool
  | float32 | float64 => true
  | _ => false

/-- The type of a column nobody declared. -/
def columnType : Datatype → ColumnType
  | bool => .boolean
  | int8 => .tinyInt
  | uint8 | int16 => .smallInt
  | uint16 | int32 => .integer
  | uint32 | int64 | uint64 => .bigInt
  | float32 => .real
  | float64 => .double
  | char | stringAscii | stringUtf8 => .varchar
  | dateTime .day | dateTime .week | dateTime .month | dateTime .year => .date
  | dateTime _ => .timestamp

/-- The name of a datatype in messages. -/
def label : Datatype → String
  | bool => "Bool"
  | int8 => "Int8"
  | uint8 => "UInt8"
  | int16 => "Int16"
  | uint16 => "UInt16"
  | int32 => "Int32"
  | uint32 => "UInt32"
  | int64 => "Int64"
  | uint64 => "UInt64"
  | float32 => "Float32"
  | float64 => "Float64"
  | char => "Char"
  | stringAscii => "StringAscii"
  | stringUtf8 => "StringUtf8"
  | dateTime unit => "DateTime(" ++ unit.label ++ ")"

theorem width_pos (d : Datatype) : 0 < d.width := d.form.bytes_pos

end Datatype

end SparseScan
