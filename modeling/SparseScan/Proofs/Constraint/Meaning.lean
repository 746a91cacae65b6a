import Mathlib
import SparseScan.Constraint
import SparseScan.Datetime
import SparseScan.Schema
import SparseScan.Value.Conversion

set_option autoImplicit false

/-! # What constraints mean

The relational reading of a constraint, apart from how it is mapped to stored values. A literal and
a stored coordinate both stand for a `Meaning`, an exact number or a byte string; an interval admits
the meanings between its endpoints, and a constraint admits what one of its intervals admits. -/

namespace SparseScan

/-! ## Meanings -/

/-- The numbers with both infinities. -/
abbrev Extended : Type := WithBot (WithTop ℚ)

namespace Extended

/-- A finite number. -/
def ofRat (q : ℚ) : Extended := ((q : WithTop ℚ) : WithBot (WithTop ℚ))

@[simp] theorem ofRat_lt (a b : ℚ) : ofRat a < ofRat b ↔ a < b := by
  simp only [ofRat, WithBot.coe_lt_coe, WithTop.coe_lt_coe]

@[simp] theorem ofRat_le (a b : ℚ) : ofRat a ≤ ofRat b ↔ a ≤ b := by
  simp only [ofRat, WithBot.coe_le_coe, WithTop.coe_le_coe]

theorem ofRat_lt_top (q : ℚ) : ofRat q < ⊤ := WithBot.coe_lt_coe.2 (WithTop.coe_lt_top q)

theorem bot_lt_ofRat (q : ℚ) : ⊥ < ofRat q := WithBot.bot_lt_coe _

end Extended

/-- What a value stands for when it is compared: an exact number, infinities included, or text. -/
inductive Meaning where
  | number (x : Extended)
  | text (bytes : List UInt8)

namespace Meaning

/-- An integer as a number. -/
def ofInt (n : ℤ) : Meaning := number (.ofRat n)

/-- Whether one meaning is below another; numbers and text are not compared. -/
def lt : Meaning → Meaning → Prop
  | number x, number y => x < y
  | text a, text b => a < b
  | _, _ => False

/-- Whether one meaning is at most another. -/
def le : Meaning → Meaning → Prop
  | number x, number y => x ≤ y
  | text a, text b => a ≤ b
  | _, _ => False

@[simp] theorem ofInt_lt (a b : ℤ) : (ofInt a).lt (ofInt b) ↔ a < b := by
  simp only [ofInt, lt, Extended.ofRat_lt, Int.cast_lt]

@[simp] theorem ofInt_le (a b : ℤ) : (ofInt a).le (ofInt b) ↔ a ≤ b := by
  simp only [ofInt, le, Extended.ofRat_le, Int.cast_le]

theorem le_of_lt {a b : Meaning} (h : a.lt b) : a.le b := by
  cases a with
  | number x =>
      cases b with
      | number y => exact (show x < y from h).le
      | text y => exact h
  | text x =>
      cases b with
      | number y => exact h
      | text y => exact List.le_of_lt h

end Meaning

/-- The number that a float is, if it is one. -/
def Binary.number? {f : FloatFormat} (x : Binary f) : Option Extended :=
  if x.isNaN then none
  else if x.isFinite then
    some (.ofRat ((if x.negative then -1 else 1) * x.units / 2 ^ f.scale))
  else if x.negative then some ⊥
  else some ⊤

/-- What a literal of a column of type `t` stands for. -/
def Literal.meaning? (t : ColumnType) : Literal → Option Meaning
  | .boolean b => some (.ofInt (if b then 1 else 0))
  | .long n =>
      if t = .real then ((unpackReal? n).bind Binary.number?).map .number else some (.ofInt n.val)
  | .double x => x.number?.map .number
  | .bytes bs => some (.text bs)

/-- Whether a literal of a column of type `t` is a float that is not a number. -/
def Literal.isNaN (t : ColumnType) : Literal → Bool
  | .long n => t == .real && (unpackReal? n).any Binary.isNaN
  | .double x => x.isNaN
  | _ => false

/-- What a stored value of datatype `d` stands for: an integer is the long that carries it, a
    datetime its relational value if it has one. -/
def StoredValue.meaning? (d : Datatype) : StoredValue → Option Meaning
  | .text bytes => some (.text bytes)
  | .float _ x => x.number?.map .number
  | .int k n =>
      match (StoredValue.int k n).toLong with
      | .error _ => none
      | .ok count =>
          match d with
          | .dateTime unit =>
              match unit.toRelational count with
              | .ok value => some (.ofInt value.val)
              | .error _ => none
          | _ => some (.ofInt count.val)

/-! ## Admission -/

/-- Whether a meaning lies above a low endpoint. An endpoint before a value lets the value in. -/
def Endpoint.admitsAbove (e : Endpoint) (t : ColumnType) (m : Meaning) : Prop :=
  match e.value with
  | none => True
  | some v => ∃ l, v.meaning? t = some l ∧ if e.side = .after then l.lt m else l.le m

/-- Whether a meaning lies below a high endpoint. An endpoint after a value lets the value in. -/
def Endpoint.admitsBelow (e : Endpoint) (t : ColumnType) (m : Meaning) : Prop :=
  match e.value with
  | none => True
  | some v => ∃ h, v.meaning? t = some h ∧ if e.side = .before then m.lt h else m.le h

/-- Whether a meaning lies between the endpoints of an interval. -/
def Interval.admits (i : Interval) (t : ColumnType) (m : Meaning) : Prop :=
  i.low.admitsAbove t m ∧ i.high.admitsBelow t m

/-- Whether a constraint on a dimension of datatype `d` admits a coordinate. -/
def Constraint.admits (c : Constraint) (d : Datatype) (v : StoredValue) : Prop :=
  match c.admitted with
  | .everything => True
  | .nothing => False
  | .intervals is => ∃ m, v.meaning? d = some m ∧ ∃ i ∈ is, i.admits c.columnType m

end SparseScan
