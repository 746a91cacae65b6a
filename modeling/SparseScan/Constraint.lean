import SparseScan.Value.Literal

set_option autoImplicit false

/-! # Constraints

A query constrains columns to intervals of literals. An interval lies between two endpoints: a value
together with the side of it on which the endpoint lies, or no value where the interval has no
limit. -/

namespace SparseScan

/-- Where an endpoint lies with regard to its value. -/
inductive Side where
  | before
  | on
  | after
deriving DecidableEq, Repr

/-- One end of an interval; without a value there is no limit. -/
structure Endpoint where
  value : Option Literal
  side : Side
deriving DecidableEq

namespace Endpoint

/-- No limit. -/
def unlimited : Endpoint := ⟨none, .on⟩

/-- The value itself. -/
def on (v : Literal) : Endpoint := ⟨some v, .on⟩

/-- Just above the value. -/
def after (v : Literal) : Endpoint := ⟨some v, .after⟩

/-- Just below the value. -/
def before (v : Literal) : Endpoint := ⟨some v, .before⟩

/-- Whether there is no limit. -/
def isUnlimited (e : Endpoint) : Bool := e.value.isNone

end Endpoint

/-- The values between two endpoints. -/
structure Interval where
  low : Endpoint
  high : Endpoint
deriving DecidableEq

namespace Interval

/-- One value. -/
def point (v : Literal) : Interval := ⟨.on v, .on v⟩

/-- Every value. -/
def everything : Interval := ⟨.unlimited, .unlimited⟩

/-- The values greater than one. -/
def above (v : Literal) : Interval := ⟨.after v, .unlimited⟩

/-- The values from one on. -/
def atLeast (v : Literal) : Interval := ⟨.on v, .unlimited⟩

/-- The values less than one. -/
def below (v : Literal) : Interval := ⟨.unlimited, .before v⟩

/-- The values up to one. -/
def atMost (v : Literal) : Interval := ⟨.unlimited, .on v⟩

/-- Whether the interval is one value: both endpoints lie on equal values. -/
def isPoint (i : Interval) : Bool :=
  i.low.side == .on && i.high.side == .on &&
    match i.low.value, i.high.value with
    | some a, some b => a.same b
    | _, _ => false

end Interval

/-- The values a column may take. -/
inductive Admitted where
  | everything
  | nothing
  | intervals (is : List Interval)
deriving DecidableEq

/-- The constraint on one column, whose literals are of the column's type. -/
structure Constraint where
  columnType : ColumnType
  admitted : Admitted
deriving DecidableEq

/-- Whether the constraint is none: it says so, or one of its intervals has no limits. -/
def Constraint.isTrivial (c : Constraint) : Bool :=
  match c.admitted with
  | .everything => true
  | .nothing => false
  | .intervals is => is.any fun i => i.low.isUnlimited && i.high.isUnlimited

/-- Constraints by column name, each name once; a column without one is unconstrained. -/
structure Constraints where
  entries : List (String × Constraint) := []
deriving DecidableEq

namespace Constraints

/-- No constraints. -/
def empty : Constraints := {}

/-- Lift the constraint on a column. -/
def erase (t : Constraints) (name : String) : Constraints := ⟨t.entries.filter (·.1 != name)⟩

/-- Constrain a column, in place of an earlier constraint on it. -/
def insert (t : Constraints) (name : String) (c : Constraint) : Constraints :=
  ⟨(name, c) :: (t.erase name).entries⟩

/-- The constraint on a column. -/
def get? (t : Constraints) (name : String) : Option Constraint :=
  t.entries.lookup name

/-- How many columns are constrained. -/
def size (t : Constraints) : Nat := t.entries.length

/-- The constraints of a list, later ones replacing earlier ones. -/
def ofList (entries : List (String × Constraint)) : Constraints :=
  entries.foldl (fun t (name, c) => t.insert name c) empty

theorem get?_erase (t : Constraints) (name other : String) :
    (t.erase name).get? other = if other = name then none else t.get? other := by
  obtain ⟨entries⟩ := t
  induction entries with
  | nil => simp [erase, get?]
  | cons e rest ih =>
      simp only [erase, get?] at ih ⊢
      by_cases h : e.1 = name
      · rw [List.filter_cons_of_neg (by simp [h]), ih, List.lookup_cons]
        by_cases ho : other = name
        · simp [ho]
        · have hn : (other == e.1) = false := by simp [h, ho]
          rw [hn]
      · rw [List.filter_cons_of_pos (by simp [h]), List.lookup_cons, List.lookup_cons]
        cases hn : other == e.1 with
        | true =>
            have ho : other = e.1 := by simpa using hn
            simp [ho, h]
        | false => exact ih

end Constraints

end SparseScan
