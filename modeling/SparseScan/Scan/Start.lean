import SparseScan.Scan.Basic

set_option autoImplicit false

/-! # Starting a scan

Before its first row a scan restricts the query to one range for each dimension, the hull of what
the dimension is constrained to, and gives it buffers for each field, sized by the estimates inside
those ranges. Where some dimension's constraint holds for no stored value, or nothing is stored,
the scan has no buffers and will have no rows. -/

namespace SparseScan.Scan

variable {Q : Type} [QueryEngine Q]

/-! ## Ranges -/

/-- The hull of each dimension from `position` on, inside the populated bounds; none when some
    constraint holds for no stored value. -/
def hulls (constraints : Constraints) :
    Nat → List Dimension → List (StoredValue × StoredValue) →
      Except ScanError (Option (List (StoredValue × StoredValue)))
  | _, [], _ => .ok (some [])
  | position, _ :: _, [] => .error (.storage (.noSuchDimension position))
  | position, d :: dims, bounds :: populated =>
      match d.hull (constraints.get? d.name) bounds with
      | .error e => .error (.constraint e)
      | .ok none => .ok none
      | .ok (some hull) =>
          match hulls constraints (position + 1) dims populated with
          | .error e => .error e
          | .ok rest => .ok (rest.map (hull :: ·))

/-- Restrict one dimension. -/
def restrict (s : Scan Q) (position : Nat) (d : Dimension) (low high : StoredValue) :
    Outcome Q Unit :=
  if d.varLen then
    match low, high with
    | .text low, .text high => s.ask (QueryEngine.restrictText · position low high)
    | _, _ => ⟨.error (.constraint (.notStrings d.name)), s⟩
  else s.ask (QueryEngine.restrict · position low high)

/-- Restrict the dimensions from `position` on. -/
def restrictFrom : Nat → List (Dimension × StoredValue × StoredValue) → Scan Q → Outcome Q Unit
  | _, [], s => ⟨.ok (), s⟩
  | position, (d, low, high) :: rest, s =>
      (s.restrict position d low high).andThen fun _ s => restrictFrom (position + 1) rest s

/-- Restrict every dimension to its hull. Answers whether the query can have rows; no dimension is
    restricted unless it can. -/
def restrictAll (s : Scan Q) (dims : List Dimension) (constraints : Constraints)
    (populated : List (StoredValue × StoredValue)) : Outcome Q Bool :=
  match hulls constraints 0 dims populated with
  | .error e => ⟨.error e, s⟩
  | .ok none => ⟨.ok false, s⟩
  | .ok (some ranges) => (restrictFrom 0 (dims.zip ranges) s).andThen fun _ s => ⟨.ok true, s⟩

/-! ## Buffers -/

/-- The estimates for fields, in order. -/
def estimates : List Field → Scan Q → Outcome Q (List Estimate)
  | [], s => ⟨.ok [], s⟩
  | f :: rest, s =>
      (s.ask (QueryEngine.estimate · f.name f.shape)).andThen fun e s =>
        (estimates rest s).andThen fun es s => ⟨.ok (e :: es), s⟩

/-- Allocate and register the buffers of fields, in order. -/
def addBuffers : List (Field × Estimate) → Scan Q → Outcome Q Unit
  | [], s => ⟨.ok (), s⟩
  | (f, e) :: rest, s =>
      match s.allocator.allocate f e with
      | .error e => ⟨.error (.memory e), s⟩
      | .ok b =>
          (s.ask (QueryEngine.register · f.name b.buffers.capacities)).andThen fun _ s =>
            addBuffers rest { s with buffers := s.buffers ++ [b] }

/-- Give the query buffers for every field. The estimate for the first field bounds the rows. -/
def provideBuffers (s : Scan Q) : Outcome Q Unit :=
  (estimates s.fields s).andThen fun es s =>
    (addBuffers (s.fields.zip es)
      { s with upperBound := (es.head?.map (·.cells)).getD 0 }).andThen fun _ s =>
        ⟨.ok (), { s with allocator := s.allocator.record s.buffers }⟩

/-! ## The start -/

/-- Ready the query for its first submit. -/
def prepare (s : Scan Q) (columns : List Column) (constraints : Constraints) : Outcome Q Unit :=
  (s.ask QueryEngine.schema).andThen fun schema s =>
    match schema.project columns with
    | .error e => ⟨.error (.schema e), s⟩
    | .ok fields =>
        (ask { s with fields } QueryEngine.populated).andThen fun
          | none, s => ⟨.ok (), s⟩
          | some populated, s =>
              (s.timed "set_ranges" (·.restrictAll schema.dimensions constraints populated)).andThen
                fun
                | false, s => ⟨.ok (), s⟩
                | true, s => s.timed "init_query_buffers" provideBuffers

/-- Start a scan of the columns over a query. A scan that cannot start is closed. -/
def start (query : Q) (id : ScanId) (settings : ScanSettings) (columns : List Column)
    (constraints : Constraints) (memory : Source UInt64) (clock : Source Nat) : Outcome Q Unit :=
  let (started, clock) := clock.next
  let allocator : BufferAllocator := ⟨settings.bufferBudget, ⟨settings.headroom⟩, memory, {}⟩
  let times : TimeLog := { enabled := settings.keepStats }
  let s : Scan Q := { query, id, allocator, clock, started, times }
  match settings.ensureUsable with
  | .error e => ⟨.error (.settings e), s.close⟩
  | .ok () =>
      let s := { s with query := QueryEngine.keepStats s.query settings.keepStats }
      match s.timed "initialize" (·.prepare columns constraints) with
      | ⟨.ok (), s⟩ => ⟨.ok (), s⟩
      | ⟨.error e, s⟩ => ⟨.error e, s.close⟩

end SparseScan.Scan
