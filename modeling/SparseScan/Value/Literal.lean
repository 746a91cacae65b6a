import SparseScan.Datatype
import SparseScan.Float.Decimal
import SparseScan.Text.Utf8

set_option autoImplicit false

/-! # Literals

The values of a constraint, in the types of relational columns. Columns of four-byte floats have no
literals of their own: a single-precision number travels as the sign-extended 32-bit pattern in a
long (`packReal`). -/

namespace SparseScan

-- powers in the sense of the core library, whatever else is imported
attribute [local instance (high)] instPowNat

/-- A value in a constraint. -/
inductive Literal where
  | boolean (b : Bool)
  | long (n : Long)
  | double (x : Binary .double)
  | bytes (bytes : List UInt8)
deriving DecidableEq

namespace Literal

/-- The literal in messages; byte strings stand in single quotes. -/
def render : Literal → String
  | boolean b => if b then "true" else "false"
  | long n => toString n.val
  | double x => x.text
  | bytes bs => "'" ++ Text.ofBytes bs ++ "'"

/-- Equality as constraints see it: a NaN differs from itself and the two zeros are equal. -/
def same : Literal → Literal → Bool
  | boolean a, boolean b => a == b
  | long a, long b => a == b
  | double a, double b => a.same b
  | bytes a, bytes b => a == b
  | _, _ => false

end Literal

/-- The bit pattern of a single-precision number as a signed 32-bit integer. -/
def realPattern (x : Binary .single) : Int :=
  if x.negative then (x.toBits : Int) - 2 ^ (32 : Nat) else x.toBits

theorem realPattern_holds (x : Binary .single) : IntKind.int64.Holds (realPattern x) := by
  have hlt : x.toBits < 2 ^ 32 := x.toBits_lt
  have hleast : IntKind.int64.least = -2 ^ 63 := by decide
  have hgreatest : IntKind.int64.greatest = 2 ^ 63 - 1 := by decide
  unfold realPattern IntKind.Holds
  rw [hleast, hgreatest]
  split <;> omega

/-- A single-precision number as the long that carries it. -/
def packReal (x : Binary .single) : Long := ⟨realPattern x, realPattern_holds x⟩

/-- The single-precision number a long carries, if it is a 32-bit pattern. -/
def unpackReal? (n : Long) : Option (Binary .single) :=
  if -2 ^ (31 : Nat) ≤ n.val ∧ n.val < 2 ^ (31 : Nat) then
    some (Binary.ofBits (n.val % 2 ^ (32 : Nat)).toNat)
  else none

end SparseScan
