import SparseScan.Datatype

set_option autoImplicit false

/-! # Read buffers

An array query writes its results into buffers that the scan owns. Capacities count elements, not
bytes. A buffer keeps the bytes written so far; the rest of it is zero, so a fresh buffer of any
size costs nothing. `ElementBuffer.bytes` is the whole content.

A field has a value buffer, an offset buffer if its elements have lengths of their own, and a
validity buffer if they may be null. -/

namespace SparseScan

-- powers and sums in the sense of the core library, whatever else is imported
attribute [local instance (high)] instPowNat Zero.ofOfNat0

/-- Sizes are counted in words of 64 bits. -/
def addressSpace : Nat := 2 ^ (64 : Nat)

/-- One block of memory is smaller than half the address space. -/
def blockLimit : Nat := 2 ^ (63 : Nat)

/-- Bytes of an offset: the position of an element among the value bytes. -/
def offsetBytes : Nat := 8

/-- Bytes of a validity flag; zero means null. -/
def flagBytes : Nat := 1

/-- What a buffer of a field holds. -/
inductive BufferRole where
  | offsets
  | values
  | validity
deriving DecidableEq, Repr

/-- The name of a role in messages. -/
def BufferRole.label : BufferRole → String
  | offsets => "offsets"
  | values => "values"
  | validity => "validity"

/-- What ends a run on the spot. It is no error that a caller is told of, and nothing comes after
    it. -/
inductive Abort where
  /-- The size of `count` elements of `width` bytes is computed, and is not a word. -/
  | sizeOverflow (count width : Nat)
  /-- A buffer is asked for that is beyond what one block may take. -/
  | oversized (bytes : Nat)
  /-- A write goes past the end of a buffer. -/
  | writeOutside (name : String) (role : BufferRole)
  /-- A row is looked for behind the offsets that were read. -/
  | offsetMissing (row : Nat)
deriving DecidableEq, Repr

/-- The wording of each cause. -/
def Abort.message : Abort → String
  | sizeOverflow count width => s!"{count} elements x {width} bytes are more than a word counts"
  | oversized bytes => s!"no block of {bytes} bytes"
  | writeOutside name role => s!"write past the {role.label} buffer of '{name}'"
  | offsetMissing row => s!"no offset of row {row}"

/-- Why memory cannot be had. -/
inductive MemoryError where
  /-- Doubling `current` bytes takes more than `required` bytes to be free. -/
  | insufficient (current required available : Nat)
  /-- The size of a buffer is not a word, which is found before memory is asked for it. -/
  | overflow (elements width : Nat)
  | abort (a : Abort)
deriving DecidableEq, Repr

namespace MemoryError

/-- The wording of each cause. -/
def message : MemoryError → String
  | insufficient current required available =>
      s!"not enough memory to complete query: doubling {current} bytes of buffers needs more " ++
        s!"than {required} bytes, {available} available"
  | overflow elements width =>
      s!"buffer of {elements} elements x {width} bytes overflows the address space"
  | abort a => a.message

/-- Whether the run ends here; any other error is returned. -/
def aborts : MemoryError → Bool
  | abort _ => true
  | _ => false

end MemoryError

/-! ## One buffer -/

/-- Storage for `capacity` elements of `width` bytes: the bytes written at its start, then zeros. -/
structure ElementBuffer where
  width : Nat
  capacity : Nat
  written : List UInt8 := []
  size_lt : capacity * width < blockLimit
  written_le : written.length ≤ capacity * width := by simp
deriving DecidableEq

namespace ElementBuffer

/-- Size in bytes. -/
def size (b : ElementBuffer) : Nat := b.capacity * b.width

/-- The whole content. -/
def bytes (b : ElementBuffer) : List UInt8 :=
  b.written ++ List.replicate (b.size - b.written.length) 0

/-- A zeroed buffer. -/
def allocate (width capacity : Nat) : Except MemoryError ElementBuffer :=
  if capacity * width < addressSpace then
    if h : capacity * width < blockLimit then .ok { width, capacity, size_lt := h }
    else .error (.abort (.oversized (capacity * width)))
  else .error (.overflow capacity width)

/-- A zeroed buffer of twice the capacity. -/
def double (b : ElementBuffer) : Except MemoryError ElementBuffer :=
  if b.capacity * 2 < addressSpace then allocate b.width (b.capacity * 2)
  else .error (.overflow b.capacity b.width)

/-- The first `n` bytes, if there are so many. -/
def take? (b : ElementBuffer) (n : Nat) : Option (List UInt8) :=
  if n ≤ b.size then some (b.written.take n ++ List.replicate (n - b.written.length) 0) else none

/-- The buffer with `bs` written over its start, if it has room for them. -/
def overwrite? (b : ElementBuffer) (bs : List UInt8) : Option ElementBuffer :=
  if h : bs.length ≤ b.size then
    some { b with
      written := bs ++ b.written.drop bs.length
      written_le := by
        have hw := b.written_le
        unfold size at h
        simp only [List.length_append, List.length_drop]
        omega }
  else none

theorem bytes_length (b : ElementBuffer) : b.bytes.length = b.size := by
  have hw := b.written_le
  simp only [bytes, size, List.length_append, List.length_replicate]
  omega

theorem take?_eq (b : ElementBuffer) (n : Nat) (h : n ≤ b.size) :
    b.take? n = some (b.bytes.take n) := by
  simp only [take?, h, if_true, bytes, List.take_append, List.take_replicate, Option.some.injEq]
  rw [Nat.min_eq_left (by omega)]

end ElementBuffer

/-! ## The buffers of a field -/

/-- The capacities of a field's buffers, as the query is told of them. -/
structure Capacities where
  offsets : Option Nat
  values : Nat
  validity : Option Nat
deriving DecidableEq, Repr

/-- The capacities in messages. -/
def Capacities.render (c : Capacities) : String :=
  let part : Option Nat → String
    | some n => s!"Some({n})"
    | none => "None"
  "BufferLayout \x7b offsets: " ++ part c.offsets ++ ", values: " ++ toString c.values ++
    ", validity: " ++ part c.validity ++ " \x7d"

/-- The buffers of one field. -/
structure ElementBuffers where
  offsets : Option ElementBuffer
  values : ElementBuffer
  validity : Option ElementBuffer
deriving DecidableEq

/-- Run a fallible step on what is there. -/
def onPresent {ε α β : Type} (f : α → Except ε β) : Option α → Except ε (Option β)
  | none => .ok none
  | some a => (f a).map some

namespace ElementBuffers

/-- Zeroed buffers of given capacities for elements of datatype `d`. -/
def allocate (d : Datatype) (c : Capacities) : Except MemoryError ElementBuffers := do
  let offsets ← onPresent (ElementBuffer.allocate offsetBytes) c.offsets
  let values ← ElementBuffer.allocate d.width c.values
  let validity ← onPresent (ElementBuffer.allocate flagBytes) c.validity
  return ⟨offsets, values, validity⟩

/-- The capacities. -/
def capacities (s : ElementBuffers) : Capacities :=
  ⟨s.offsets.map (·.capacity), s.values.capacity, s.validity.map (·.capacity)⟩

/-- Zeroed buffers of twice the capacities. -/
def double (s : ElementBuffers) : Except MemoryError ElementBuffers := do
  let offsets ← onPresent ElementBuffer.double s.offsets
  let values ← s.values.double
  let validity ← onPresent ElementBuffer.double s.validity
  return ⟨offsets, values, validity⟩

/-- The buffers that are there. -/
def buffers (s : ElementBuffers) : List ElementBuffer :=
  s.offsets.toList ++ [s.values] ++ s.validity.toList

/-- Size of all buffers in bytes. -/
def size (s : ElementBuffers) : Nat := (s.buffers.map (·.size)).sum

end ElementBuffers

/-- The buffers of a field under the name that the query knows. -/
structure NamedBuffers where
  name : String
  datatype : Datatype
  buffers : ElementBuffers
deriving DecidableEq

namespace NamedBuffers

/-- The same field with zeroed buffers of twice the capacities. -/
def double (f : NamedBuffers) : Except MemoryError NamedBuffers :=
  f.buffers.double.map fun s => { f with buffers := s }

/-- Bytes that the buffers of all fields take. -/
def footprint (fs : List NamedBuffers) : Nat := (fs.map (·.buffers.size)).sum

/-- The size of the largest buffer. -/
def largest (fs : List NamedBuffers) : Nat :=
  (fs.flatMap (·.buffers.buffers)).foldl (fun m b => max m b.size) 0

/-- The number of buffers. -/
def count (fs : List NamedBuffers) : Nat := (fs.flatMap (·.buffers.buffers)).length

end NamedBuffers

end SparseScan
