import SparseScan.Buffer
import SparseScan.Schema
import SparseScan.Source

set_option autoImplicit false

/-! # Sizing and growth of read buffers

`BufferAllocator` decides how large buffers are. At first each holds what the query is expected to
return, within a budget per buffer; it never has capacity zero, so doubling always makes progress.
Later all buffers double at once, if the memory that is free exceeds a multiple of what they take:
the new buffers need twice as much, and each batch is copied out of them as well. -/

namespace SparseScan

/-! ## Sizing -/

/-- How many elements of a field a query is expected to return, per buffer. -/
structure Estimate where
  offsets : Option Nat
  values : Nat
  validity : Option Nat
deriving DecidableEq, Repr

/-- An upper bound on the cells of the field. -/
def Estimate.cells (e : Estimate) : Nat := e.offsets.getD e.values

/-- The capacity for `estimate` elements of `width` bytes: all of them if they fit into `budget`
    bytes, else as many as do, but at least one. -/
def elementsWithin (budget width estimate : Nat) : Nat :=
  let width := max width 1
  max 1 (if estimate * width ≤ budget then estimate else budget / width)

/-! ## Growth -/

/-- The multiple of the present footprint that must be free before buffers double. -/
structure GrowthRule where
  headroom : Nat := 4
deriving DecidableEq, Repr

/-- Whether `current` bytes of buffers may double when `available` bytes are free. What would have
    to be free is a word; a greater multiple counts as the greatest word. -/
def GrowthRule.permit (g : GrowthRule) (current : Nat) (available : UInt64) :
    Except MemoryError Unit :=
  let required := min (current * g.headroom) (addressSpace - 1)
  if required < available.toNat then .ok ()
  else .error (.insufficient current required available.toNat)

/-- What the buffers of a scan take now and took at most. -/
structure Footprint where
  current : Nat := 0
  peak : Nat := 0
deriving DecidableEq, Repr

/-- The footprint after a change. -/
def Footprint.record (f : Footprint) (bytes : Nat) : Footprint := ⟨bytes, max f.peak bytes⟩

/-- What decides the sizes of the buffers of one scan. -/
structure BufferAllocator where
  /-- The greatest initial size of a buffer in bytes. -/
  budget : Nat
  growth : GrowthRule
  /-- Readings of the free memory. -/
  memory : Source UInt64
  footprint : Footprint := {}

namespace BufferAllocator

/-- The initial capacity for elements of a width. -/
def elementsFor (a : BufferAllocator) (width estimate : Nat) : Nat :=
  elementsWithin a.budget width estimate

/-- The initial capacities of a field. Without an estimate of their own, validity flags are as
    many as cells. -/
def initialCapacities (a : BufferAllocator) (f : Field) (e : Estimate) : Capacities where
  offsets := if f.varLen then some (a.elementsFor offsetBytes e.cells) else none
  values := a.elementsFor f.datatype.width e.values
  validity :=
    if f.nullable then some (a.elementsFor flagBytes (e.validity.getD e.cells)) else none

/-- Zeroed buffers for a field. -/
def allocate (a : BufferAllocator) (f : Field) (e : Estimate) :
    Except MemoryError NamedBuffers :=
  (ElementBuffers.allocate f.datatype (a.initialCapacities f e)).map fun s =>
    ⟨f.name, f.datatype, s⟩

/-- Note what the buffers take. -/
def record (a : BufferAllocator) (fs : List NamedBuffers) : BufferAllocator :=
  { a with footprint := a.footprint.record (NamedBuffers.footprint fs) }

/-- Double every buffer of every field, or none. -/
def grow (a : BufferAllocator) (fs : List NamedBuffers) :
    Except MemoryError (List NamedBuffers) × BufferAllocator :=
  let (available, memory) := a.memory.next
  let a := { a with memory }
  match a.growth.permit (NamedBuffers.footprint fs) available with
  | .error e => (.error e, a)
  | .ok () =>
      match fs.mapM NamedBuffers.double with
      | .error e => (.error e, a)
      | .ok grown => (.ok grown, a.record grown)

end BufferAllocator

end SparseScan
