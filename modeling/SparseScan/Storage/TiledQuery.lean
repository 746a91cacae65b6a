import SparseScan.Storage.Engine
import SparseScan.Storage.TiledArray

set_option autoImplicit false

/-! # Queries on arrays in memory

A query selects the cells inside its ranges, at the first submit, and hands them out in order. A
submit takes as many of the cells that remain as every registered buffer has room for, cut to whole
tiles unless they are all; a submit whose buffers cannot hold one tile makes no progress. -/

namespace SparseScan

-- sums in the sense of the core library, whatever else is imported
attribute [local instance (high)] Zero.ofOfNat0

/-- What a query counts when it keeps statistics. -/
structure SubmitCounts where
  submits : Nat := 0
  /-- Submits without progress on an unfinished query. -/
  idle : Nat := 0
  cells : Nat := 0
deriving DecidableEq, Repr

/-- The statistics as text. -/
def SubmitCounts.render (s : SubmitCounts) : String :=
  s!"submits: {s.submits}\nzero_progress_submits: {s.idle}\ncells_returned: {s.cells}\n"

/-- One read query on an array. -/
structure TiledQuery where
  array : TiledArray
  /-- The ranges of each dimension; without any it is unrestricted. -/
  ranges : List (List (StoredValue × StoredValue))
  /-- The registered capacities, in the order of registration. -/
  registered : List (String × Capacities) := []
  /-- The cells inside the ranges, from the first submit on. -/
  selection : Option (List Cell) := none
  /-- How many of them have been handed out. -/
  delivered : Nat := 0
  status : Progress := .unstarted
  counts : List (String × ElementCounts) := []
  stats : Option SubmitCounts := none
  /-- How often the query released its array. -/
  releases : Nat := 0
  closed : Bool := false
deriving DecidableEq

namespace TiledQuery

/-- A fresh query on an array. -/
def ofArray (a : TiledArray) : TiledQuery where
  array := a
  ranges := a.schema.dimensions.map fun _ => []

/-- How many of the queries on an array have released it. -/
def releasesOf (qs : List TiledQuery) : Nat := (qs.map (·.releases)).sum

/-- Answer a request that needs the query open and leaves it as it is. -/
def whileOpen {α : Type} (q : TiledQuery) (answer : Except ArrayError α) : Except ArrayError α :=
  if q.closed then .error .closed else answer

/-- Carry out a request that needs the query open; a failure changes nothing. -/
def update (q : TiledQuery) (request : Except ArrayError TiledQuery) :
    Except ArrayError Unit × TiledQuery :=
  match q.whileOpen request with
  | .ok q => (.ok (), q)
  | .error e => (.error e, q)

/-! ## Selection -/

/-- Whether a value lies in an inclusive range. -/
def inside (v : StoredValue) (bounds : StoredValue × StoredValue) : Bool :=
  bounds.1.atMost v && v.atMost bounds.2

/-- Whether coordinates lie in the ranges of their dimensions. -/
def insideAll : List (List (StoredValue × StoredValue)) → List StoredValue → Bool
  | rs :: ranges, c :: coords => (rs.isEmpty || rs.any (inside c)) && insideAll ranges coords
  | _, _ => true

/-- The cells inside the ranges. -/
def cellsInside (q : TiledQuery) : List Cell :=
  q.array.cells.filter fun c => insideAll q.ranges c.coords

/-- The selected cells; before the first submit, those that it would select. -/
def selected (q : TiledQuery) : List Cell := q.selection.getD q.cellsInside

/-- The selected cells that have not been handed out. -/
def remaining (q : TiledQuery) : List Cell := q.selected.drop q.delivered

/-- Add an inclusive range to a dimension. -/
def withRange (q : TiledQuery) (position : Nat) (low high : StoredValue) :
    Except ArrayError TiledQuery :=
  if q.selection.isSome then .error (.rangesFixed position)
  else
    match low.order high with
    | .error e => .error (.rangeUnordered position e)
    | .ok .gt => .error (.rangeCrossed position low high)
    | .ok _ => .ok { q with ranges := q.ranges.modify position (· ++ [(low, high)]) }

/-- The dimension at a position. -/
def dimension (q : TiledQuery) (position : Nat) : Except ArrayError Dimension :=
  match q.array.schema.dimensions[position]? with
  | some d => .ok d
  | none => .error (.noSuchDimension position)

/-- Restrict a fixed-length dimension. -/
def restrict (q : TiledQuery) (position : Nat) (low high : StoredValue) :
    Except ArrayError Unit × TiledQuery :=
  q.update do
    let d ← q.dimension position
    if d.varLen then throw (.stringRangeNeeded position d.name)
    ensureStorable d.name d.datatype false low
    ensureStorable d.name d.datatype false high
    q.withRange position low high

/-- Restrict a variable-length dimension. -/
def restrictText (q : TiledQuery) (position : Nat) (low high : List UInt8) :
    Except ArrayError Unit × TiledQuery :=
  q.update do
    let d ← q.dimension position
    if !d.varLen then throw (.typedRangeNeeded position d.name)
    q.withRange position (.text low) (.text high)

/-! ## Estimates -/

/-- The exact result of a field inside the present ranges. -/
def estimate (q : TiledQuery) (name : String) (shape : FieldShape) :
    Except ArrayError Estimate :=
  q.whileOpen do
    let f ← q.array.stored name
    if f.shape ≠ shape then throw (.estimateMismatch name shape)
    let cells := q.cellsInside.length
    return {
      offsets := if shape.varLen then some cells else none
      values := (q.cellsInside.map f.elements).sum
      validity := if shape.nullable then some cells else none }

/-! ## Buffers -/

/-- Replace what is registered under a name, or register it last. -/
def putCapacities (name : String) (c : Capacities) :
    List (String × Capacities) → List (String × Capacities)
  | [] => [(name, c)]
  | (other, old) :: rest =>
      if other = name then (name, c) :: rest else (other, old) :: putCapacities name c rest

/-- Register the capacities of a field, which has offsets exactly if its elements have lengths of
    their own and validity exactly if they may be null. -/
def register (q : TiledQuery) (name : String) (c : Capacities) :
    Except ArrayError Unit × TiledQuery :=
  q.update do
    let f ← q.array.stored name
    if c.offsets.isSome ≠ f.shape.varLen ∨ c.validity.isSome ≠ f.shape.nullable then
      throw (.shapeMismatch name c)
    return { q with registered := putCapacities name c q.registered }

/-- Forget all registered capacities. -/
def unregisterAll (q : TiledQuery) : TiledQuery := { q with registered := [] }

/-! ## Submitting -/

/-- A registered field together with the place of its buffers. -/
structure Target where
  index : Nat
  name : String
  capacities : Capacities
  field : TiledArray.StoredField
deriving DecidableEq, Repr

/-- Refuse a buffer smaller than what was registered; an absent one has no capacity. -/
def ensureRoom (name : String) (role : BufferRole) (required capacity : Option Nat) :
    Except ArrayError Unit :=
  match required with
  | none => .ok ()
  | some r =>
      if capacity.getD 0 < r ∨ capacity.isNone then
        .error (.bufferTooSmall name role (capacity.getD 0) r)
      else .ok ()

/-- Refuse buffers smaller than what was registered. -/
def ensureRooms (name : String) (c : Capacities) (s : ElementBuffers) : Except ArrayError Unit := do
  ensureRoom name .offsets c.offsets s.capacities.offsets
  ensureRoom name .values (some c.values) (some s.capacities.values)
  ensureRoom name .validity c.validity s.capacities.validity

/-- The buffers of each registered field. -/
def targets (a : TiledArray) (buffers : List NamedBuffers) :
    List (String × Capacities) → Except ArrayError (List Target)
  | [] => .ok []
  | (name, capacities) :: rest =>
      match buffers.zipIdx.find? (·.1.name == name) with
      | none => .error (.bufferMissing name)
      | some (b, index) => do
          ensureRooms name capacities b.buffers
          let field ← a.stored name
          let others ← targets a buffers rest
          return ⟨index, name, capacities, field⟩ :: others

/-- The largest number of elements, from the first on, that fit together into `room`. -/
def countWithin : Nat → List Nat → Nat
  | _, [] => 0
  | room, n :: rest => if n ≤ room then countWithin (room - n) rest + 1 else 0

/-- How many of the cells the buffers of one field have room for. -/
def Target.room (t : Target) (cells : List Cell) : Nat :=
  let byValues := countWithin t.capacities.values (cells.map t.field.elements)
  min byValues (min (t.capacities.offsets.getD byValues) (t.capacities.validity.getD byValues))

/-- How many of the cells a submit takes: as many as all buffers have room for, in whole tiles
    unless they are all that remain. -/
def batchSize (tileExtent : Nat) (ts : List Target) (cells : List Cell) : Nat :=
  let room := ts.foldl (fun n t => min n (t.room cells)) cells.length
  if room = cells.length then room else room / tileExtent * tileExtent

/-- The positions at which chunks of the given lengths start. -/
def starts : Nat → List Nat → List Nat
  | _, [] => []
  | first, n :: rest => first :: starts (first + n) rest

/-- Write over the start of a buffer. -/
def put (name : String) (role : BufferRole) (b : ElementBuffer) (bytes : List UInt8) :
    Except ArrayError ElementBuffer :=
  match b.overwrite? bytes with
  | some b => .ok b
  | none => .error (.abort (.writeOutside name role))

/-- The value bytes of cells: packed where there are offsets to tell them apart. -/
def valueBytes (f : TiledArray.StoredField) (s : ElementBuffers) (cells : List Cell) : List UInt8 :=
  cells.flatMap (if s.offsets.isSome then f.packed else f.aligned)

/-- Write cells into the buffers of a field: positions into the offset buffer, flags into the
    validity buffer, if the field has them, and bytes into the value buffer. -/
def fill (name : String) (f : TiledArray.StoredField) (cells : List Cell) (s : ElementBuffers) :
    Except ArrayError ElementBuffers := do
  let offsets ← onPresent (fun b => put name .offsets b
    ((starts 0 (cells.map fun c => (f.packed c).length)).flatMap (Bytes.ofNat offsetBytes)))
    s.offsets
  let values ← put name .values s.values (valueBytes f s cells)
  let validity ← onPresent (fun b => put name .validity b (cells.map f.flag)) s.validity
  return ⟨offsets, values, validity⟩

/-- What was written for a field. -/
def countsOf (f : TiledArray.StoredField) (cells : List Cell) (s : ElementBuffers) :
    ElementCounts :=
  if f.shape.varLen then ⟨cells.length, (valueBytes f s cells).length⟩ else ⟨0, cells.length⟩

/-- Write cells into the buffers of all targets. -/
def fillAll (cells : List Cell) :
    List Target → List NamedBuffers → Except ArrayError (List NamedBuffers)
  | [], buffers => .ok buffers
  | t :: ts, buffers =>
      match buffers[t.index]? with
      | none => .error (.bufferMissing t.name)
      | some b =>
          match fill t.name t.field cells b.buffers with
          | .error e => .error e
          | .ok s => fillAll cells ts (buffers.set t.index { b with buffers := s })

/-- What was written for each target. -/
def countsOfAll (cells : List Cell) (buffers : List NamedBuffers) (ts : List Target) :
    List (String × ElementCounts) :=
  ts.filterMap fun t => buffers[t.index]?.map fun b => (t.name, countsOf t.field cells b.buffers)

/-- The statistics after a submit. -/
def SubmitCounts.add (s : SubmitCounts) (cells : Nat) (status : Progress) : SubmitCounts where
  submits := s.submits + 1
  idle := if cells = 0 ∧ status = .incomplete then s.idle + 1 else s.idle
  cells := s.cells + cells

/-- The query after a submit that took `cells`. -/
def advanced (q : TiledQuery) (cells : List Cell) (counts : List (String × ElementCounts)) :
    TiledQuery :=
  let delivered := q.delivered + cells.length
  let status := if q.selected.length ≤ delivered then .completed else .incomplete
  { q with
    selection := some q.selected
    delivered
    status
    counts
    stats := q.stats.map fun s => SubmitCounts.add s cells.length status }

/-- Hand out the next cells. A submit that fails leaves query and buffers as they are. Nothing comes
    after one that aborts, so what it has written by then does not matter. -/
def submit (q : TiledQuery) (buffers : List NamedBuffers) :
    Except ArrayError Progress × List NamedBuffers × TiledQuery :=
  let attempt : Except ArrayError (List NamedBuffers × TiledQuery) := q.whileOpen do
    if q.registered.isEmpty then throw .nothingRegistered
    let ts ← targets q.array buffers q.registered
    let cells := q.remaining.take (batchSize q.array.tileExtent ts q.remaining)
    let filled ← fillAll cells ts buffers
    return (filled, q.advanced cells (countsOfAll cells buffers ts))
  match attempt with
  | .ok (filled, q) => (.ok q.status, filled, q)
  | .error e => (.error e, buffers, q)

/-! ## The end -/

/-- Release the array. -/
def close (q : TiledQuery) : Except ArrayError Unit × TiledQuery :=
  q.update (.ok { q with closed := true, registered := [], releases := q.releases + 1 })

instance : QueryEngine TiledQuery where
  schema q := (q.whileOpen (.ok q.array.schema), q)
  populated q := (q.whileOpen q.array.populated, q)
  estimate q name shape := (q.estimate name shape, q)
  restrict := restrict
  restrictText := restrictText
  register := register
  unregisterAll := unregisterAll
  submit := submit
  elementCounts q := (q.whileOpen (.ok q.counts), q)
  keepStats q enabled := { q with stats := if enabled then some {} else none }
  statsText q := q.stats.map SubmitCounts.render
  close := close

end TiledQuery

end SparseScan
