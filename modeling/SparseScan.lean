import SparseScan.Source
import SparseScan.Constraint.Hull
import SparseScan.Settings
import SparseScan.Scan.Id
import SparseScan.TimeLog
import SparseScan.Buffer.Allocator
import SparseScan.Storage.TiledQuery
import SparseScan.Scan.Batch
import SparseScan.Scan.Start
import SparseScan.Scan.Advance
import SparseScan.Scan.Row
import SparseScan.Proofs.Constraint.Hull
import SparseScan.Proofs.Constraint.Ends
import SparseScan.Proofs.Constraint.Meaning
import SparseScan.Proofs.Value.Conversion
import SparseScan.Proofs.Constraint.Crossing
import SparseScan.Proofs.Constraint.Patterns
import SparseScan.Proofs.Storage.TiledArray
import SparseScan.Proofs.Storage.Fields
import SparseScan.Proofs.Scan.Batch
import SparseScan.Proofs.Storage.Requests
import SparseScan.Proofs.Storage.Submit
import SparseScan.Proofs.Storage.Room
import SparseScan.Proofs.Storage.Session
import SparseScan.Proofs.Scan.Calls
import SparseScan.Proofs.Scan.Serving
import SparseScan.Proofs.Scan.Rows
import SparseScan.Proofs.Scan.Start
import SparseScan.Proofs.Scan.Contents
import SparseScan.Proofs.Scan.Alike
import SparseScan.Proofs.Scan.Growth
import SparseScan.Proofs.Scan.Lockstep
import SparseScan.Proofs.Scan.Retry
import SparseScan.Proofs.Scan.Refusal
import SparseScan.Proofs.Calendar
import SparseScan.Proofs.Calendar.Dates
import SparseScan.Proofs.Datetime
import SparseScan.Proofs.Float.Numbers
import SparseScan.Proofs.Float.Rounding
import SparseScan.Proofs.Value.Meaning
import SparseScan.Proofs.Constraint.Coverage
import SparseScan.Proofs.Constraint.Rounded
import SparseScan.Proofs.Constraint.Returned
import SparseScan.Proofs.Scan.Pushdown
import SparseScan.Proofs.Value.Encoding
import SparseScan.Proofs.Scan.Release
import SparseScan.Proofs.Scan.RoundTrip
import SparseScan.Proofs.Scan.Fetching
import SparseScan.Proofs.Scan.Footprint
import SparseScan.Proofs.Scan.Stages
import SparseScan.Proofs.Scan.Draining
import SparseScan.Proofs.Scan.Position
import SparseScan.Proofs.Storage.Atomic
import SparseScan.Proofs.Storage.Overrun
import SparseScan.Proofs.Constraint.Exact
import SparseScan.Proofs.Constraint.Uncrossed
import SparseScan.Proofs.Datetime.Adjoint
import SparseScan.Proofs.Scan.Lookup
import SparseScan.Proofs.Storage.Packing
import SparseScan.Proofs.Buffer.Allocator
import SparseScan.Proofs.Scan.Prepared
import SparseScan.Proofs.Scan.Tally
import SparseScan.Proofs.Storage.Estimates
import SparseScan.Proofs.Scan.Estimates
import SparseScan.Proofs.Value.Integers
import SparseScan.Proofs.Value.Steps
import SparseScan.Proofs.Value.Preorder
import SparseScan.Proofs.Scan.Backing
import SparseScan.Proofs.Storage.Ranges
import SparseScan.Proofs.Storage.Sorting
import SparseScan.Proofs.Storage.Resolution
import SparseScan.Proofs.Scan.Spans
import SparseScan.Proofs.Scan.Unconstrained
import SparseScan.Proofs.Storage.Populated
import SparseScan.Proofs.Text.ByteOrder
import SparseScan.Proofs.TimeReport
import SparseScan.Proofs.Scan.SideChange
import SparseScan.Proofs.Scan.Muted
import SparseScan.Proofs.Scan.Statistics
