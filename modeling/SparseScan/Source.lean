set_option autoImplicit false

/-! # Successive readings

A scan asks the outside world two questions again and again: how much memory is free, and what
time it is. A `Source` holds every answer it will ever get, in order, and how many it has used. -/

namespace SparseScan

/-- A source of readings: the `n`-th time it is asked it answers `answers n`. -/
structure Source (α : Type) where
  answers : Nat → α
  asked : Nat := 0

namespace Source

variable {α : Type}

/-- The source that always answers `a`. -/
def constant (a : α) : Source α := { answers := fun _ => a }

/-- The next answer, and the source after giving it. -/
def next (s : Source α) : α × Source α :=
  (s.answers s.asked, { s with asked := s.asked + 1 })

end Source

end SparseScan
