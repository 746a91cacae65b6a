import SparseScan.Bytes
import SparseScan.Datatype
import SparseScan.Float.Decimal
import SparseScan.Text.Utf8

set_option autoImplicit false

/-! # Stored values

`StoredValue` is a value as the array stores it: an integer of a stored range, a float, bit for
bit, or a byte string. A datatype holds exactly the values of its stored form. -/

namespace SparseScan

/-- A value in stored form. -/
inductive StoredValue where
  | int (kind : IntKind) (value : kind.Value)
  | float (format : FloatFormat) (value : Binary format)
  | text (bytes : List UInt8)
deriving DecidableEq

namespace StoredValue

/-- The stored form of a value. -/
def form : StoredValue → StoredForm
  | int k _ => .int k
  | float f _ => .float f
  | text _ => .text

/-- Whether `v` is a value of datatype `d`. -/
def hasType (v : StoredValue) (d : Datatype) : Bool := v.form == d.form

/-- The value in messages: integers and floats in decimal, bytes as text. -/
def render : StoredValue → String
  | int _ n => toString n.val
  | float _ x => x.text
  | text bytes => Text.ofBytes bytes

/-- Encoded size in bytes. -/
def size : StoredValue → Nat
  | int k _ => k.bytes
  | float f _ => f.bytes
  | text bytes => bytes.length

/-- The encoding: numbers little-endian, negative ones in two's complement, bytes as they are. -/
def encode : StoredValue → List UInt8
  | int k n => Bytes.ofNat k.bytes (n.val % k.size).toNat
  | float f x => Bytes.ofNat f.bytes x.toBits
  | text bytes => bytes

theorem encode_length (v : StoredValue) : v.encode.length = v.size := by
  cases v <;> simp [encode, size, Bytes.ofNat_length]

end StoredValue

end SparseScan
