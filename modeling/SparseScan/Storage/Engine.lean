import SparseScan.Buffer.Allocator
import SparseScan.Storage.Error

set_option autoImplicit false

/-! # Array queries

`QueryEngine Q` says that values of `Q` are states of an array query: an open array and one read
query on it. A scan owns one such state, hands it on from call to call and closes it once. Every
call answers and yields the next state, also when it fails. -/

namespace SparseScan

/-- How far a query has come. -/
inductive Progress where
  | unstarted
  /-- The buffers were too small for the whole result; it goes on with the next submit. -/
  | incomplete
  | completed
deriving DecidableEq, Repr

/-- What a submit wrote for a field. A variable-length field counts its cells as offsets and its
    bytes as values; a fixed-length field counts its cells as values. -/
structure ElementCounts where
  offsets : Nat := 0
  values : Nat := 0
deriving DecidableEq, Repr

/-- The operations of an array query. -/
class QueryEngine (Q : Type) where
  schema : Q → Except ArrayError Schema × Q
  /-- The least and greatest coordinate of each dimension; none when there are no cells. -/
  populated : Q → Except ArrayError (Option (List (StoredValue × StoredValue))) × Q
  /-- The expected result of a field, which has the given shape. -/
  estimate : Q → String → FieldShape → Except ArrayError Estimate × Q
  /-- Restrict a fixed-length dimension to an inclusive range. -/
  restrict : Q → Nat → StoredValue → StoredValue → Except ArrayError Unit × Q
  /-- Restrict a variable-length dimension to an inclusive range. -/
  restrictText : Q → Nat → List UInt8 → List UInt8 → Except ArrayError Unit × Q
  /-- Register the capacities of a field's buffers. -/
  register : Q → String → Capacities → Except ArrayError Unit × Q
  /-- Forget all registered buffers. -/
  unregisterAll : Q → Q
  /-- Run the query into buffers, one entry for each registered field. -/
  submit : Q → List NamedBuffers → Except ArrayError Progress × List NamedBuffers × Q
  /-- What the last submit wrote, in the order of registration. -/
  elementCounts : Q → Except ArrayError (List (String × ElementCounts)) × Q
  /-- Keep statistics from now on, or not. -/
  keepStats : Q → Bool → Q := fun q _ => q
  /-- The statistics kept, as text. -/
  statsText : Q → Option String := fun _ => none
  /-- Release the query and its array. -/
  close : Q → Except ArrayError Unit × Q

end SparseScan
