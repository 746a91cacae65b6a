import SparseScan.Float.Decimal

set_option autoImplicit false

/-! # The time that operations take

While a scan runs, `TimeLog` collects how long each operation took, in nanoseconds. At the end a
`TimeReport` has one row per operation, in the order of the names; it depends only on which
durations were recorded under which name, not on their order. -/

namespace SparseScan

-- sums in the sense of the core library, whatever else is imported
attribute [local instance (high)] Zero.ofOfNat0

/-- Durations by operation, last first; nothing is recorded unless enabled. -/
structure TimeLog where
  enabled : Bool
  records : List (String × Nat) := []
deriving DecidableEq, Repr

/-- The durations of one operation in summary; median, least and greatest are nanoseconds. -/
structure OperationSummary where
  name : String
  total : Binary .double
  average : Binary .double
  median : Nat
  least : Nat
  greatest : Nat
  count : Nat
deriving DecidableEq, Repr

/-- The summary of a scan: a row per operation and how long the scan took in all. -/
structure TimeReport where
  rows : List OperationSummary
  elapsed : Nat
deriving DecidableEq, Repr

/-- Nanoseconds in a second. -/
def nanosPerSecond : Nat := 1000000000

/-- A natural number as a double. -/
def doubleOf (n : Nat) : Binary .double := Binary.ofInt n

namespace TimeLog

/-- Record one duration. -/
def record (t : TimeLog) (name : String) (nanos : Nat) : TimeLog :=
  if t.enabled then { t with records := (name, nanos) :: t.records } else t

/-- The operations that were recorded, in order and each once. -/
def names (t : TimeLog) : List String :=
  (t.records.map (·.1)).eraseDups.mergeSort fun a b => decide (a ≤ b)

/-- The durations of one operation in ascending order. -/
def durations (t : TimeLog) (name : String) : List Nat :=
  ((t.records.filter (·.1 == name)).map (·.2)).mergeSort fun a b => decide (a ≤ b)

end TimeLog

/-- The summary of durations in ascending order. The sum is exact and rounded once; the median of
    an even number of durations is the upper of the middle two. -/
def OperationSummary.ofDurations (name : String) (ascending : List Nat) : OperationSummary where
  name := name
  total := (doubleOf ascending.sum).quotient (doubleOf nanosPerSecond)
  average :=
    ((doubleOf ascending.sum).quotient (doubleOf ascending.length)).quotient
      (doubleOf nanosPerSecond)
  median := ascending.getD (ascending.length / 2) 0
  least := ascending.headD 0
  greatest := ascending.getLastD 0
  count := ascending.length

/-- Summarize what was recorded, if anything was to be. -/
def TimeLog.report? (t : TimeLog) (elapsed : Nat) : Option TimeReport :=
  if t.enabled then
    some ⟨t.names.map fun name => .ofDurations name (t.durations name), elapsed⟩
  else none

namespace OperationSummary

/-- The line of an operation. -/
def render (r : OperationSummary) : String :=
  String.intercalate "," [r.name, r.total.fixedText 6, r.average.fixedText 6, toString r.median,
    toString r.least, toString r.greatest, toString r.count]

end OperationSummary

namespace TimeReport

/-- The first line of a written report. -/
def header : String := "functionName, total (sec), avg (sec), median, min, max, count"

/-- How long the scan took, in seconds: whole seconds plus the fraction. -/
def elapsedSeconds (r : TimeReport) : Binary .double :=
  (doubleOf (r.elapsed / nanosPerSecond)).sum
    ((doubleOf (r.elapsed % nanosPerSecond)).quotient (doubleOf nanosPerSecond))

/-- The line of the whole scan. -/
def totalLine (r : TimeReport) : String :=
  let seconds := r.elapsedSeconds.fixedText 6
  String.intercalate "," ["totalReadTime", seconds, seconds, seconds, seconds, seconds, "1"]

/-- The rows as lines of text. -/
def body (r : TimeReport) : String :=
  String.join ((r.rows.map OperationSummary.render ++ [r.totalLine]).map (· ++ "\n"))

/-- The text of a written report: the rows, then what the array engine has to say. -/
def fileText (r : TimeReport) (engine : Option String) : String :=
  header ++ "\n" ++ r.body ++
    match engine with
    | some stats => "\n" ++ stats
    | none => ""

end TimeReport

/-- A report to be written into the stats directory. -/
structure StatsFile where
  name : String
  text : String
deriving DecidableEq, Repr

namespace StatsFile

/-- The report of a scan, named for the scan. -/
def ofReport (scanId : String) (r : TimeReport) (engine : Option String) : StatsFile :=
  ⟨"arrayscan_stats_" ++ scanId, r.fileText engine⟩

/-- Whether a directory can hold a file of that name: it has no separator and no NUL, and takes at
    most 255 bytes. -/
def isWritable (f : StatsFile) : Bool :=
  !f.name.toList.contains '/' && !f.name.toList.contains '\x00' && f.name.utf8ByteSize ≤ 255

end StatsFile

end SparseScan
