import SparseScan.Scan.Basic

set_option autoImplicit false

/-! # Advancing a scan

When the rows of a batch are used up, the scan submits its query again. A submit without rows
although the query is not complete means that the buffers cannot hold the next tile, so all of them
double and the query is submitted once more. The scan ends, and closes itself, when the query is
complete or as many rows have been handed out as there can be. -/

namespace SparseScan.Scan

-- sums in the sense of the core library, whatever else is imported
attribute [local instance (high)] Zero.ofOfNat0

variable {Q : Type} [QueryEngine Q]

/-! ## Fetching a batch -/

/-- Run the query into the buffers. -/
def submit (s : Scan Q) : Outcome Q Progress :=
  let run (s : Scan Q) : Outcome Q Progress :=
    let (answer, buffers, query) := QueryEngine.submit s.query s.buffers
    ⟨answer.mapError .storage, { s with buffers, query }⟩
  (s.timed "submit" run).andThen fun status s => ⟨.ok status, { s with status }⟩

/-- The rows that a submit has read, counted on the first field. -/
def rowsRead (fields : List Field) (counts : List (String × ElementCounts)) :
    Except ScanError Nat :=
  match fields with
  | [] => .ok 0
  | f :: _ =>
      match counts.lookup f.name with
      | some c => .ok (if f.varLen then c.offsets else c.values)
      | none => .error (.storage (.unknownField f.name))

/-- Register the capacities of buffers. -/
def registerAll : List NamedBuffers → Scan Q → Outcome Q Unit
  | [], s => ⟨.ok (), s⟩
  | b :: rest, s =>
      (s.ask (QueryEngine.register · b.name b.buffers.capacities)).andThen fun _ s =>
        registerAll rest s

/-- Double all buffers, if memory allows, and register them anew. -/
def grow (s : Scan Q) : Outcome Q Unit :=
  match s.allocator.grow s.buffers with
  | (.error e, allocator) => ⟨.error (.memory e), { s with allocator }⟩
  | (.ok buffers, allocator) =>
      registerAll buffers
        { s with allocator, buffers, query := QueryEngine.unregisterAll s.query }

/-- The bytes that a submit has written for a field. -/
def bytesOf (s : ElementBuffers) (c : ElementCounts) : Nat :=
  (if s.offsets.isSome then c.offsets * offsetBytes else 0) + c.values * s.values.width

/-- The bytes that a submit has written; what it reports for other fields does not count. -/
def bytesRead (buffers : List NamedBuffers) (counts : List (String × ElementCounts)) : Nat :=
  (counts.map fun (name, c) =>
    match buffers.find? (·.name == name) with
    | some b => bytesOf b.buffers c
    | none => 0).sum

/-- Copy the rows of every field out of its buffers. A field for which nothing is reported has
    none. -/
def decode (counts : List (String × ElementCounts)) (s : Scan Q) : Outcome Q Unit :=
  let copied := (s.fields.zip s.buffers).mapM fun (f, b) =>
    FieldBatch.ofBuffers f b.buffers ((counts.lookup f.name).getD {})
  match copied with
  | .ok fields => ⟨.ok (), { s with batch := ⟨fields⟩ }⟩
  | .error e => ⟨.error (.storage e), s⟩

/-- Make what a submit has read the present batch. -/
def load (s : Scan Q) (counts : List (String × ElementCounts)) : Outcome Q Unit :=
  let bytes := UInt64.ofNat (bytesRead s.buffers counts)
  let s := { s with position := 0, completedBytes := s.completedBytes + bytes }
  s.timed "decode" (decode counts)

/-- Submit until there are rows or the query is complete, at most `fuel` times. -/
def fetch : Nat → Scan Q → Outcome Q Unit
  | 0, s => ⟨.error .stalled, s⟩
  | fuel + 1, s =>
      s.submit.andThen fun status s =>
        (s.ask QueryEngine.elementCounts).andThen fun counts s =>
          match rowsRead s.fields counts with
          | .error e => ⟨.error e, s⟩
          | .ok rows =>
              if rows = 0 then
                if status = .incomplete then
                  (s.timed "grow_buffers" grow).andThen fun _ s => fetch fuel s
                else ⟨.ok (), { s with batch := {} }⟩
              else s.load counts

/-- The submits that one fetch can need: a capacity is a positive word, and growth is refused
    before a word has doubled so often. -/
def submitLimit : Nat := 64

/-! ## The next row -/

/-- End the scan. -/
def finish (s : Scan Q) : Outcome Q Bool := ⟨.ok false, s.close⟩

/-- Hand out the next row of the batch; a batch without rows is the end. -/
def handOut (s : Scan Q) : Outcome Q Bool :=
  let s := { s with position := s.position + 1, visited := s.visited + 1 }
  if s.batch.rows = 0 then s.finish else ⟨.ok true, s⟩

/-- Go to the next row, if there is one. -/
def step (s : Scan Q) : Outcome Q Bool :=
  if s.isClosed then ⟨.ok false, s⟩
  else if s.upperBound ≤ s.visited then s.finish
  else if s.position < s.batch.rows then s.handOut
  else if s.status = .completed then s.finish
  else (fetch submitLimit s).andThen fun _ s => s.handOut

/-- Go to the next row. Answers whether there is one; when there is none, the scan has closed
    itself. -/
def advance (s : Scan Q) : Outcome Q Bool := s.timed "advance_next_position" step

end SparseScan.Scan
