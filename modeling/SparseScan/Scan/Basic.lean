import SparseScan.Scan.Batch
import SparseScan.Scan.Id
import SparseScan.TimeLog

set_option autoImplicit false

/-! # Scans

A `Scan` hands out the rows of one array query, one at a time and forward only. It owns the query,
the buffers into which the query writes, and the batch of rows last read out of them, and it
releases all three at once, when it is closed. A step of a scan answers or fails; both ways the
`Outcome` holds the scan after the step, so a failed step can be tried again. -/

namespace SparseScan

/-- The state of a scan over a query of type `Q`. -/
structure Scan (Q : Type) where
  query : Q
  id : ScanId
  fields : List Field := []
  allocator : BufferAllocator
  /-- The buffers of each field, in the order of the fields. -/
  buffers : List NamedBuffers := []
  batch : RowBatch := {}
  /-- What the last submit said. -/
  status : Progress := .unstarted
  /-- Rows of the present batch that have been handed out. -/
  position : Nat := 0
  /-- Rows that have been handed out in all. -/
  visited : Nat := 0
  /-- The most rows there can be, by the estimate for the first field. -/
  upperBound : Nat := 0
  /-- Bytes that the query has written, counted in a word. -/
  completedBytes : UInt64 := 0
  /-- Readings of the time, in nanoseconds. -/
  clock : Source Nat
  started : Nat
  /-- When the scan was closed. -/
  ended : Option Nat := none
  times : TimeLog
  /-- The report that the scan leaves when it is closed. -/
  report : Option StatsFile := none

/-- What a step of a scan answers, and the scan after it. -/
structure Outcome (Q α : Type) where
  result : Except ScanError α
  scan : Scan Q

namespace Outcome

variable {Q α β : Type}

/-- Go on with the answer of a step, unless it failed. -/
def andThen (o : Outcome Q α) (next : α → Scan Q → Outcome Q β) : Outcome Q β :=
  match o with
  | ⟨.ok a, s⟩ => next a s
  | ⟨.error e, s⟩ => ⟨.error e, s⟩

@[simp] theorem andThen_ok (a : α) (s : Scan Q) (next : α → Scan Q → Outcome Q β) :
    (⟨.ok a, s⟩ : Outcome Q α).andThen next = next a s := rfl

@[simp] theorem andThen_error (e : ScanError) (s : Scan Q) (next : α → Scan Q → Outcome Q β) :
    (⟨.error e, s⟩ : Outcome Q α).andThen next = ⟨.error e, s⟩ := rfl

/-- What holds of the scan after a step and is kept by the next one holds after both. -/
theorem andThen_scan {o : Outcome Q α} {next : α → Scan Q → Outcome Q β} {P : Scan Q → Prop}
    (h : P o.scan) (hnext : ∀ a s, P s → P (next a s).scan) : P (o.andThen next).scan := by
  obtain ⟨result, s⟩ := o
  cases result with
  | ok a => exact hnext a s h
  | error e => exact h

end Outcome

namespace Scan

variable {Q α : Type}

/-! ## Observations -/

/-- Whether the scan has released what it owned. -/
def isClosed (s : Scan Q) : Bool := s.ended.isSome

/-- Bytes that the buffers take. -/
def memoryUse (s : Scan Q) : Nat := NamedBuffers.footprint s.buffers

/-- The most that the buffers have taken. -/
def peakMemoryUse (s : Scan Q) : Nat := s.allocator.footprint.peak

/-- The type of a field's values for the reader. -/
def columnType (s : Scan Q) (ordinal : Nat) : Except ScanError ColumnType :=
  match s.fields[ordinal]? with
  | some f => .ok f.columnType
  | none => .error (.noSuchField ordinal)

/-! ## Time -/

/-- The present time. -/
def now (s : Scan Q) : Nat × Scan Q :=
  let (time, clock) := s.clock.next
  (time, { s with clock })

/-- Take a step and record how long it took, also when it failed. -/
def timed (s : Scan Q) (name : String) (step : Scan Q → Outcome Q α) : Outcome Q α :=
  let (start, s) := s.now
  let ⟨result, s⟩ := step s
  let (stop, s) := s.now
  ⟨result, { s with times := s.times.record name (stop - start) }⟩

theorem timed_result (s : Scan Q) (name : String) (step : Scan Q → Outcome Q α) :
    (s.timed name step).result = (step s.now.2).result := rfl

/-- How long the scan has been open, or was. -/
def openTime (s : Scan Q) : Nat × Scan Q :=
  match s.ended with
  | some ended => (ended - s.started, s)
  | none =>
      let (time, s) := s.now
      (time - s.started, s)

/-! ## The query -/

/-- Put a request to the query. -/
def ask (s : Scan Q) (request : Q → Except ArrayError α × Q) : Outcome Q α :=
  let (answer, query) := request s.query
  ⟨answer.mapError .storage, { s with query }⟩

/-- Release the batch, the buffers and the query, and leave a report if timings are kept. That the
    query cannot be closed is no failure of the scan. A closed scan stays as it is. -/
def close [QueryEngine Q] (s : Scan Q) : Scan Q :=
  if s.isClosed then s
  else
    let (ended, s) := s.now
    let statsText := if s.times.enabled then QueryEngine.statsText s.query else none
    let s := { s with
      ended := some ended
      batch := {}
      buffers := []
      allocator := s.allocator.record []
      query := (QueryEngine.close s.query).2 }
    let (released, s) := s.now
    let s := { s with times := s.times.record "close" (released - ended) }
    { s with
      report := (s.times.report? (released - s.started)).map fun r =>
        StatsFile.ofReport s.id.text r statsText }

theorem isClosed_close [QueryEngine Q] (s : Scan Q) : s.close.isClosed = true := by
  unfold close
  split
  · next h => exact h
  · rfl

theorem close_of_isClosed [QueryEngine Q] (s : Scan Q) (h : s.isClosed = true) : s.close = s := by
  simp [close, h]

end Scan

end SparseScan
