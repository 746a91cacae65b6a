import SparseScan.Proofs.Scan.Release

set_option autoImplicit false

/-! # Scans without statistics

A change beside the rows that leaves the memory alone comes to the same before and after any calls
(`SideChange.scan_afterCalls`). To mute a scan is such a change: it takes away the statistics, the
record of times and the report. Scans with different settings for these are the same when they are
muted, so nothing that they answer tells them apart (`Scan.start_indistinct`). -/

namespace SparseScan

namespace SideChange

/-- A change that comes to the same before and after any call: no growth depends on it, and neither
    does what is counted or reported. -/
structure Inert (x : SideChange) : Prop where
  memory : ∀ memory, x.memory memory = memory
  add : ∀ (counts : Option SubmitCounts) (cells : Nat) (status : Progress),
    (x.stats counts).map (TiledQuery.SubmitCounts.add · cells status) =
      x.stats (counts.map (TiledQuery.SubmitCounts.add · cells status))
  reports : x.Reports

variable {x : SideChange} (hx : x.Inert)
include hx

/-! ## Submits -/

theorem query_submit (q : TiledQuery) (buffers : List NamedBuffers) :
    (x.query q).submit buffers =
      ((q.submit buffers).1, (q.submit buffers).2.1, x.query (q.submit buffers).2.2) := by
  unfold TiledQuery.submit TiledQuery.whileOpen
  rw [query_closed, query_registered, query_array, query_remaining]
  by_cases hclosed : q.closed = true
  · simp only [hclosed]
    rfl
  by_cases hregistered : q.registered.isEmpty = true
  · simp only [hclosed, hregistered]
    rfl
  cases hts : TiledQuery.targets q.array buffers q.registered with
  | error e =>
      simp only [hclosed, hregistered, bind, Except.bind]
      rfl
  | ok ts =>
      have hadvanced : ∀ cells counts, (x.query q).advanced cells counts =
          x.query (q.advanced cells counts) := fun cells counts =>
        congrArg (fun stats => { q.advanced cells counts with stats }) (hx.add q.stats _ _)
      cases hfilled : TiledQuery.fillAll
          (q.remaining.take (TiledQuery.batchSize q.array.tileExtent ts q.remaining)) ts
          buffers with
      | error e =>
          simp only [hclosed, hregistered, bind, Except.bind, hfilled]
          rfl
      | ok filled =>
          simp only [hclosed, hregistered, bind, Except.bind, hfilled, hadvanced]
          rfl

theorem scan_submit (s : Scan TiledQuery) : (x.scan s).submit = x.outcome s.submit := by
  unfold Scan.submit
  refine (congrArg (Outcome.andThen · _) (scan_timed (fun s => ?_) s)).trans
    (outcome_andThen fun status t => rfl)
  have hsubmit : QueryEngine.submit (x.scan s).query (x.scan s).buffers = _ :=
    query_submit hx s.query s.buffers
  simp only [hsubmit]
  rfl

/-! ## Calls -/

theorem scan_finish (s : Scan TiledQuery) : (x.scan s).finish = x.outcome s.finish :=
  congrArg (Outcome.mk (.ok false)) (scan_close hx.reports s)

theorem scan_handOut (s : Scan TiledQuery) : (x.scan s).handOut = x.outcome s.handOut := by
  unfold Scan.handOut
  rw [scan_batch]
  dsimp only
  split
  · exact scan_finish hx { s with position := s.position + 1, visited := s.visited + 1 }
  · rfl

theorem scan_grow (s : Scan TiledQuery) : (x.scan s).grow = x.outcome s.grow := by
  have hsame : ∀ allocator : BufferAllocator,
      { allocator with memory := x.memory allocator.memory } = allocator :=
    fun allocator => by rw [hx.memory]
  have hgrow : (x.scan s).allocator.grow (x.scan s).buffers = s.allocator.grow s.buffers :=
    congrArg (BufferAllocator.grow · s.buffers) (hsame s.allocator)
  unfold Scan.grow
  rw [hgrow]
  rcases s.allocator.grow s.buffers with ⟨e | buffers, allocator⟩
  · refine congrArg (Outcome.mk (.error (.memory e))) ?_
    exact congrArg (fun allocator => { x.scan s with allocator }) (hsame allocator).symm
  · rw [← scan_registerAll]
    refine congrArg (Scan.registerAll buffers) ?_
    exact congrArg (fun allocator => { x.scan s with
      allocator, buffers, query := (x.query s.query).unregisterAll }) (hsame allocator).symm

theorem scan_fetch (fuel : Nat) (s : Scan TiledQuery) :
    Scan.fetch fuel (x.scan s) = x.outcome (Scan.fetch fuel s) := by
  induction fuel generalizing s with
  | zero => rfl
  | succ fuel ih =>
      rw [Scan.fetch, scan_submit hx]
      refine outcome_andThen fun status s => ?_
      rw [scan_ask rfl]
      refine outcome_andThen fun counts s => ?_
      rw [scan_fields]
      cases Scan.rowsRead s.fields counts with
      | error e => rfl
      | ok rows =>
          dsimp only
          split_ifs with hrows hstatus
          · rw [scan_timed (scan_grow hx)]
            exact outcome_andThen fun _ t => ih t
          · rfl
          · exact scan_load s counts

theorem scan_step (s : Scan TiledQuery) : (x.scan s).step = x.outcome s.step := by
  unfold Scan.step
  rw [scan_isClosed, scan_upperBound, scan_visited, scan_position, scan_batch, scan_status,
    scan_finish hx, scan_handOut hx, scan_fetch hx]
  split_ifs
  · rfl
  · rfl
  · rfl
  · rfl
  · exact outcome_andThen fun _ t => scan_handOut hx t

theorem scan_advance (s : Scan TiledQuery) : (x.scan s).advance = x.outcome s.advance :=
  scan_timed (scan_step hx) s

theorem scan_afterCall (s : Scan TiledQuery) (c : Scan.Call) :
    (x.scan s).afterCall c = x.scan (s.afterCall c) := by
  cases c with
  | advance => exact congrArg Outcome.scan (scan_advance hx s)
  | close => exact scan_close hx.reports s
  | openTime => exact congrArg Prod.snd (scan_openTime s)
  | observe => rfl

theorem scan_afterCalls (s : Scan TiledQuery) (calls : List Scan.Call) :
    (x.scan s).afterCalls calls = x.scan (s.afterCalls calls) := by
  induction calls generalizing s with
  | nil => rfl
  | cons c rest ih =>
      have hfirst := congrArg (Scan.afterCalls · rest) (scan_afterCall hx s c)
      exact hfirst.trans (ih (s.afterCall c))

end SideChange

/-! ## Muted scans -/

/-- Taking away the statistics, the record of times and the report. -/
def SideChange.muted : SideChange where
  memory memory := memory
  stats _ := none
  times _ := { enabled := false }
  report _ := none
  record _ _ _ := rfl

theorem SideChange.inert_muted : muted.Inert where
  memory _ := rfl
  add _ _ _ := rfl
  reports _ _ _ _ _ := rfl

namespace Scan

variable {s t : Scan TiledQuery}

/-- A scan that keeps nothing is a muted one. -/
theorem start_muted (query : TiledQuery) (id : ScanId) (settings : ScanSettings)
    (columns : List Column) (constraints : Constraints) (memory : Source UInt64)
    (clock : Source Nat) :
    start (SideChange.muted.query query) id
        { settings with keepStats := false, reportDirectory := none } columns constraints memory
        clock =
      SideChange.muted.outcome (start query id settings columns constraints memory clock) := by
  refine SideChange.scan_start SideChange.inert_muted.reports ?_ ?_ ?_ columns constraints
  · rfl
  · rfl
  · rfl

/-- Two scans that cannot be told apart by what they answer: to the next advance, by ordinal for the
    current row and the fields, and when asked for anything else that can be read off them. -/
structure Indistinct (s t : Scan TiledQuery) : Prop where
  advance : s.advance.result = t.advance.result
  row : s.row = t.row
  columnType : s.columnType = t.columnType
  fields : s.fields = t.fields
  id : s.id = t.id
  status : s.status = t.status
  completedBytes : s.completedBytes = t.completedBytes
  openTime : s.openTime.1 = t.openTime.1
  memoryUse : s.memoryUse = t.memoryUse
  peakMemoryUse : s.peakMemoryUse = t.peakMemoryUse
  isClosed : s.isClosed = t.isClosed

/-- Scans that are the same when they are muted cannot be told apart. -/
theorem Indistinct.of_muted (h : SideChange.muted.scan s = SideChange.muted.scan t) :
    Indistinct s t where
  advance := by
    have hadvance := congrArg Scan.advance h
    rw [SideChange.scan_advance SideChange.inert_muted,
      SideChange.scan_advance SideChange.inert_muted] at hadvance
    exact (congrArg Outcome.result hadvance :)
  row := (congrArg Scan.row h :)
  columnType := (congrArg Scan.columnType h :)
  fields := (congrArg Scan.fields h :)
  id := (congrArg Scan.id h :)
  status := (congrArg Scan.status h :)
  completedBytes := (congrArg Scan.completedBytes h :)
  openTime := by
    have hopen := congrArg (fun u => u.openTime.1) h
    simpa only [SideChange.scan_openTime] using hopen
  memoryUse := (congrArg Scan.memoryUse h :)
  peakMemoryUse := (congrArg Scan.peakMemoryUse h :)
  isClosed := (congrArg Scan.isClosed h :)

/-- Scans whose settings differ in what is kept of statistics and where the report goes start alike
    and cannot be told apart after any calls. -/
theorem start_indistinct (query : TiledQuery) (id : ScanId) (settings : ScanSettings)
    (keepStats : Bool) (reportDirectory : Option String) (columns : List Column)
    (constraints : Constraints) (memory : Source UInt64) (clock : Source Nat) :
    let o := start query id settings columns constraints memory clock
    let o' := start query id { settings with keepStats, reportDirectory } columns constraints memory
      clock
    o.result = o'.result ∧
      ∀ calls, Indistinct (o.scan.afterCalls calls) (o'.scan.afterCalls calls) := by
  intro o o'
  have hmuted : SideChange.muted.outcome o = SideChange.muted.outcome o' :=
    (start_muted query id settings columns constraints memory clock).symm.trans
      (start_muted query id { settings with keepStats, reportDirectory } columns constraints memory
        clock)
  rw [SideChange.outcome, SideChange.outcome, Outcome.mk.injEq] at hmuted
  obtain ⟨hresult, hscan⟩ := hmuted
  refine ⟨hresult, fun calls => .of_muted ?_⟩
  rw [← SideChange.scan_afterCalls SideChange.inert_muted, hscan,
    SideChange.scan_afterCalls SideChange.inert_muted]

end Scan

end SparseScan
