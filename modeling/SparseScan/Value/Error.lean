import SparseScan.Value.Stored
import SparseScan.Value.Literal

set_option autoImplicit false

/-! # What can be wrong with a value -/

namespace SparseScan

/-- Why an operation on values has no answer. -/
inductive ValueError where
  /-- One of two floats is not a number. -/
  | unordered (a b : StoredValue)
  /-- Values of different stored forms. -/
  | incomparable (a b : StoredForm)
  | nothingAbove (v : StoredValue)
  | nothingBelow (v : StoredValue)
  | notInteger (form : StoredForm)
  | notFloat (form : StoredForm)
  /-- Too few bytes to decode. -/
  | tooShort (datatype : Datatype) (needed got : Nat)
  /-- A REAL value outside the 32-bit patterns. -/
  | notReal (n : Long)
  /-- A stored count that no relational datetime represents. -/
  | countOutOfRange (count : Long) (unit : TimeUnit)
  /-- A relational datetime that no stored count represents. -/
  | datetimeOutOfRange (value : Long) (unit : TimeUnit)
  | unsupported (datatype : Datatype) (operation : String)
  /-- Text where a number belongs, or the reverse. -/
  | wrongSort (value : Literal) (datatype : Datatype)
  /-- A double that is not an integer. -/
  | notWhole (x : Binary .double) (datatype : Datatype)
  /-- An integer outside the range of the datatype. -/
  | outOfRange (n : Int) (datatype : Datatype)
deriving DecidableEq

namespace ValueError

/-- What a coercion failed on, in words. -/
def uncoercible (value : String) (d : Datatype) : String :=
  "Cannot coerce " ++ value ++ " into " ++ d.label

/-- What a broken contract was, in words. -/
def violation (what : String) : String := "Contract violation: " ++ what

/-- The wording of each cause. -/
def message : ValueError → String
  | unordered a b => violation s!"cannot order {a.render} and {b.render}"
  | incomparable a b => violation s!"cannot compare {a.name} with {b.name}"
  | nothingAbove v => violation s!"no representable value above {v.render}"
  | nothingBelow v => violation s!"no representable value below {v.render}"
  | notInteger k => violation s!"{k.name} is not an integer value"
  | notFloat k => violation s!"{k.name} is not a floating-point value"
  | tooShort d needed got => violation s!"{d.label} needs {needed} bytes, got {got}"
  | notReal n => violation s!"REAL value {n.val} is not a 32-bit pattern"
  | countOutOfRange n u => violation s!"{n.val} {u.label} is outside the representable range"
  | datetimeOutOfRange n u => violation s!"{n.val} is outside the range of {u.label} counts"
  | unsupported d operation => s!"Unsupported datatype {d.label} for {operation}"
  | wrongSort v d => uncoercible v.render d
  | notWhole x d => uncoercible x.text d
  | outOfRange n d => uncoercible (toString n) d

end ValueError

end SparseScan
