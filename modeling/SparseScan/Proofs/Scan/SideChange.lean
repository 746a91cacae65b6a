import SparseScan.Proofs.Storage.Requests
import SparseScan.Scan.Advance
import SparseScan.Scan.Start

set_option autoImplicit false

/-! # What a scan keeps beside its rows

Beside its rows a scan keeps the readings of the free memory, the statistics of its query, the
record of times and the report. A `SideChange` changes these and nothing else. No request of the
start has to do with them, so scans that differ by such a change start alike
(`SideChange.scan_start`), and they are closed alike (`SideChange.scan_close`). -/

namespace SparseScan

/-- The report that a scan leaves when closing it took `nanos`, `elapsed` after it was opened. -/
def TimeLog.file? (t : TimeLog) (id : ScanId) (stats : Option SubmitCounts) (nanos elapsed : Nat) :
    Option StatsFile :=
  ((t.record "close" nanos).report? elapsed).map fun r =>
    StatsFile.ofReport id.text r (if t.enabled then stats.map SubmitCounts.render else none)

namespace Scan

/-! ## The start and the end in one piece -/

theorem close_of_open {s : Scan TiledQuery} (hopen : s.isClosed = false) : s.close =
    let (ended, t) := s.now
    let (released, t) := t.now
    { t with
      ended := some ended
      batch := {}
      buffers := []
      allocator := s.allocator.record []
      query := s.query.close.2
      times := s.times.record "close" (released - ended)
      report := s.times.file? s.id s.query.stats (released - ended) (released - s.started) } := by
  rw [close, if_neg (by simp [hopen])]
  rfl

/-- The scan that starts, before it has asked its query anything. -/
def unready (query : TiledQuery) (id : ScanId) (settings : ScanSettings) (memory : Source UInt64)
    (clock : Source Nat) : Scan TiledQuery where
  query := query
  id := id
  allocator := ⟨settings.bufferBudget, ⟨settings.headroom⟩, memory, {}⟩
  clock := clock.next.2
  started := clock.next.1
  times := { enabled := settings.keepStats }

/-- Ready a scan, and close it if it cannot be readied. -/
def readyOrClose (s : Scan TiledQuery) (columns : List Column) (constraints : Constraints) :
    Outcome TiledQuery Unit :=
  match s.timed "initialize" (·.prepare columns constraints) with
  | ⟨.ok (), t⟩ => ⟨.ok (), t⟩
  | ⟨.error e, t⟩ => ⟨.error e, t.close⟩

theorem start_eq (query : TiledQuery) (id : ScanId) (settings : ScanSettings)
    (columns : List Column) (constraints : Constraints) (memory : Source UInt64)
    (clock : Source Nat) : start query id settings columns constraints memory clock =
      match settings.ensureUsable with
      | .error e => ⟨.error (.settings e), (unready query id settings memory clock).close⟩
      | .ok () => (unready (QueryEngine.keepStats query settings.keepStats) id settings memory
          clock).readyOrClose columns constraints := by
  simp only [start, readyOrClose, unready]
  rcases settings.ensureUsable with e | ⟨⟩
  · rfl
  · dsimp only
    generalize timed _ "initialize"
      (fun s : Scan TiledQuery => s.prepare columns constraints) = o
    rcases o with ⟨e | ⟨⟩, t⟩ <;> rfl

end Scan

/-- A change of what a scan keeps beside its rows. It comes to the same before and after a duration
    is recorded. -/
structure SideChange where
  memory : Source UInt64 → Source UInt64
  stats : Option SubmitCounts → Option SubmitCounts
  times : TimeLog → TimeLog
  report : Option StatsFile → Option StatsFile
  record : ∀ (t : TimeLog) (name : String) (nanos : Nat),
    (times t).record name nanos = times (t.record name nanos)

namespace SideChange

/-- Replacing the readings of the memory and what the query has counted. -/
def replacing (memory : Source UInt64 → Source UInt64)
    (stats : Option SubmitCounts → Option SubmitCounts) : SideChange where
  memory := memory
  stats := stats
  times t := t
  report file := file
  record _ _ _ := rfl

variable {α β : Type} (x : SideChange)

/-- The query after the change. -/
def query (q : TiledQuery) : TiledQuery := { q with stats := x.stats q.stats }

/-- The scan after the change. -/
def scan (s : Scan TiledQuery) : Scan TiledQuery :=
  { s with
    query := x.query s.query
    allocator := { s.allocator with memory := x.memory s.allocator.memory }
    times := x.times s.times
    report := x.report s.report }

/-- The outcome whose scan is changed. -/
def outcome (o : Outcome TiledQuery α) : Outcome TiledQuery α := ⟨o.result, x.scan o.scan⟩

/-- The change comes to the same before and after the report is drawn up. -/
def Reports : Prop :=
  ∀ (t : TimeLog) (id : ScanId) (counts : Option SubmitCounts) (nanos elapsed : Nat),
    (x.times t).file? id (x.stats counts) nanos elapsed =
      x.report (t.file? id counts nanos elapsed)

variable {x}

/-! ## What is left as it is -/

section

variable (s : Scan TiledQuery)

@[simp] theorem scan_fields : (x.scan s).fields = s.fields := rfl

@[simp] theorem scan_buffers : (x.scan s).buffers = s.buffers := rfl

@[simp] theorem scan_batch : (x.scan s).batch = s.batch := rfl

@[simp] theorem scan_status : (x.scan s).status = s.status := rfl

@[simp] theorem scan_position : (x.scan s).position = s.position := rfl

@[simp] theorem scan_visited : (x.scan s).visited = s.visited := rfl

@[simp] theorem scan_upperBound : (x.scan s).upperBound = s.upperBound := rfl

@[simp] theorem scan_ended : (x.scan s).ended = s.ended := rfl

@[simp] theorem scan_isClosed : (x.scan s).isClosed = s.isClosed := rfl

@[simp] theorem query_array (q : TiledQuery) : (x.query q).array = q.array := rfl

@[simp] theorem query_registered (q : TiledQuery) : (x.query q).registered = q.registered := rfl

@[simp] theorem query_selection (q : TiledQuery) : (x.query q).selection = q.selection := rfl

@[simp] theorem query_remaining (q : TiledQuery) : (x.query q).remaining = q.remaining := rfl

@[simp] theorem query_closed (q : TiledQuery) : (x.query q).closed = q.closed := rfl

end

/-! ## Steps -/

theorem outcome_andThen {o : Outcome TiledQuery α}
    {next : α → Scan TiledQuery → Outcome TiledQuery β}
    (hnext : ∀ a s, next a (x.scan s) = x.outcome (next a s)) :
    (x.outcome o).andThen next = x.outcome (o.andThen next) := by
  rcases o with ⟨e | a, t⟩
  · rfl
  · exact hnext a t

theorem scan_record (s : Scan TiledQuery) (name : String) (nanos : Nat) :
    { x.scan s with times := (x.scan s).times.record name nanos } =
      x.scan { s with times := s.times.record name nanos } :=
  congrArg (fun times => { x.scan s with times }) (x.record s.times name nanos)

theorem scan_timed {name : String} {step : Scan TiledQuery → Outcome TiledQuery α}
    (hstep : ∀ s, step (x.scan s) = x.outcome (step s)) (s : Scan TiledQuery) :
    (x.scan s).timed name step = x.outcome (s.timed name step) := by
  have hnow : step (x.scan s).now.2 = x.outcome (step s.now.2) := hstep s.now.2
  simp only [Scan.timed, hnow]
  exact congrArg (Outcome.mk _) (scan_record (step s.now.2).scan.now.2 name _)

theorem scan_ask {request : TiledQuery → Except ArrayError α × TiledQuery} {s : Scan TiledQuery}
    (h : request (x.query s.query) = ((request s.query).1, x.query (request s.query).2)) :
    (x.scan s).ask request = x.outcome (s.ask request) := by
  have hrequest : request (x.scan s).query = _ := h
  simp only [Scan.ask, hrequest]
  rfl

/-! ## Requests -/

section

variable (q : TiledQuery)

theorem query_withRange (position : Nat) (low high : StoredValue) :
    (x.query q).withRange position low high = (q.withRange position low high).map x.query := by
  unfold TiledQuery.withRange
  rw [query_selection]
  split
  · rfl
  · split <;> rfl

theorem query_restrict (position : Nat) (low high : StoredValue) :
    (x.query q).restrict position low high =
      ((q.restrict position low high).1, x.query (q.restrict position low high).2) := by
  unfold TiledQuery.restrict
  rw [← TiledQuery.update_map (query_closed q)]
  refine congrArg _ ?_
  rw [show (x.query q).dimension position = q.dimension position from rfl]
  cases q.dimension position with
  | error e => rfl
  | ok d =>
      simp only [bind, Except.bind]
      by_cases hvar : d.varLen = true
      · simp only [if_pos hvar, throw, throwThe, MonadExceptOf.throw, Except.map]
      · simp only [if_neg hvar]
        cases ensureStorable d.name d.datatype false low with
        | error e => rfl
        | ok _ =>
            cases ensureStorable d.name d.datatype false high with
            | error e => rfl
            | ok _ => exact query_withRange q position low high

theorem query_restrictText (position : Nat) (low high : List UInt8) :
    (x.query q).restrictText position low high =
      ((q.restrictText position low high).1, x.query (q.restrictText position low high).2) := by
  unfold TiledQuery.restrictText
  rw [← TiledQuery.update_map (query_closed q)]
  refine congrArg _ ?_
  rw [show (x.query q).dimension position = q.dimension position from rfl]
  cases q.dimension position with
  | error e => rfl
  | ok d =>
      simp only [bind, Except.bind]
      by_cases hvar : (!d.varLen) = true
      · simp only [if_pos hvar, throw, throwThe, MonadExceptOf.throw, Except.map]
      · simp only [if_neg hvar]
        exact query_withRange q position (.text low) (.text high)

theorem query_register (name : String) (c : Capacities) :
    (x.query q).register name c = ((q.register name c).1, x.query (q.register name c).2) :=
  TiledQuery.register_map (query_closed q) (query_array q) rfl

theorem query_close : (x.query q).close = (q.close.1, x.query q.close.2) :=
  TiledQuery.update_map (query_closed q) (.ok { q with
    closed := true
    registered := []
    releases := q.releases + 1 })

end

/-! ## The start -/

theorem scan_restrict (s : Scan TiledQuery) (position : Nat) (d : Dimension)
    (low high : StoredValue) : (x.scan s).restrict position d low high =
      x.outcome (s.restrict position d low high) := by
  unfold Scan.restrict
  split
  · split
    · exact scan_ask (query_restrictText s.query position _ _)
    · rfl
  · exact scan_ask (query_restrict s.query position low high)

theorem scan_restrictFrom (pairs : List (Dimension × StoredValue × StoredValue)) (position : Nat)
    (s : Scan TiledQuery) : Scan.restrictFrom position pairs (x.scan s) =
      x.outcome (Scan.restrictFrom position pairs s) := by
  induction pairs generalizing position s with
  | nil => rfl
  | cons p pairs ih =>
      rw [Scan.restrictFrom, scan_restrict]
      exact outcome_andThen fun _ t => ih (position + 1) t

theorem scan_restrictAll (s : Scan TiledQuery) (dims : List Dimension) (constraints : Constraints)
    (populated : List (StoredValue × StoredValue)) :
    (x.scan s).restrictAll dims constraints populated =
      x.outcome (s.restrictAll dims constraints populated) := by
  unfold Scan.restrictAll
  split
  · rfl
  · rfl
  · rw [scan_restrictFrom]
    exact outcome_andThen fun _ t => rfl

theorem scan_estimates (fields : List Field) (s : Scan TiledQuery) :
    Scan.estimates fields (x.scan s) = x.outcome (Scan.estimates fields s) := by
  induction fields generalizing s with
  | nil => rfl
  | cons f rest ih =>
      rw [Scan.estimates, Scan.estimates, scan_ask rfl]
      refine outcome_andThen fun e t => ?_
      rw [ih]
      exact outcome_andThen fun es t => rfl

theorem scan_addBuffers (pairs : List (Field × Estimate)) (s : Scan TiledQuery) :
    Scan.addBuffers pairs (x.scan s) = x.outcome (Scan.addBuffers pairs s) := by
  induction pairs generalizing s with
  | nil => rfl
  | cons p pairs ih =>
      have hallocate : (x.scan s).allocator.allocate p.1 p.2 = s.allocator.allocate p.1 p.2 := rfl
      simp only [Scan.addBuffers, hallocate]
      cases s.allocator.allocate p.1 p.2 with
      | error e => rfl
      | ok b =>
          dsimp only
          rw [scan_ask (query_register s.query _ _)]
          exact outcome_andThen fun _ t => ih { t with buffers := t.buffers ++ [b] }

theorem scan_provideBuffers (s : Scan TiledQuery) :
    (x.scan s).provideBuffers = x.outcome s.provideBuffers := by
  unfold Scan.provideBuffers
  rw [scan_fields, scan_estimates]
  refine outcome_andThen fun es t => ?_
  have hadd := scan_addBuffers (x := x) (t.fields.zip es)
    { t with upperBound := (es.head?.map (·.cells)).getD 0 }
  refine (congrArg (Outcome.andThen · _) hadd).trans ?_
  exact outcome_andThen fun _ _ => rfl

/-- A scan is readied alike before and after the change. -/
theorem scan_prepare (columns : List Column) (constraints : Constraints) (s : Scan TiledQuery) :
    (x.scan s).prepare columns constraints = x.outcome (s.prepare columns constraints) := by
  unfold Scan.prepare
  rw [scan_ask rfl]
  refine outcome_andThen fun schema t => ?_
  cases schema.project columns with
  | error e => rfl
  | ok fields =>
      have hask : (x.scan { t with fields }).ask QueryEngine.populated = _ := scan_ask rfl
      refine (congrArg (Outcome.andThen · _) hask).trans ?_
      refine outcome_andThen fun populated v => ?_
      cases populated with
      | none => rfl
      | some populated =>
          have hranges : (x.scan v).timed "set_ranges"
                (·.restrictAll schema.dimensions constraints populated) =
              x.outcome (v.timed "set_ranges"
                (·.restrictAll schema.dimensions constraints populated)) :=
            scan_timed (fun s => scan_restrictAll s _ _ _) v
          refine (congrArg (Outcome.andThen · _) hranges).trans ?_
          refine outcome_andThen fun more v => ?_
          cases more with
          | false => rfl
          | true => exact scan_timed scan_provideBuffers v

/-! ## Batches and times -/

theorem scan_decode (counts : List (String × ElementCounts)) (s : Scan TiledQuery) :
    Scan.decode counts (x.scan s) = x.outcome (Scan.decode counts s) := by
  unfold Scan.decode
  rw [scan_fields, scan_buffers]
  dsimp only
  split <;> rfl

theorem scan_load (s : Scan TiledQuery) (counts : List (String × ElementCounts)) :
    (x.scan s).load counts = x.outcome (s.load counts) :=
  scan_timed (fun s => scan_decode counts s) { s with
    position := 0
    completedBytes := s.completedBytes + UInt64.ofNat (Scan.bytesRead s.buffers counts) }

theorem scan_registerAll (buffers : List NamedBuffers) (s : Scan TiledQuery) :
    Scan.registerAll buffers (x.scan s) = x.outcome (Scan.registerAll buffers s) := by
  induction buffers generalizing s with
  | nil => rfl
  | cons b rest ih =>
      rw [Scan.registerAll, scan_ask (query_register s.query _ _)]
      exact outcome_andThen fun _ t => ih t

theorem scan_openTime (s : Scan TiledQuery) :
    (x.scan s).openTime = (s.openTime.1, x.scan s.openTime.2) := by
  unfold Scan.openTime
  rw [scan_ended]
  split <;> rfl

/-! ## The end -/

theorem scan_close (hreports : x.Reports) (s : Scan TiledQuery) :
    (x.scan s).close = x.scan s.close := by
  cases hclosed : s.isClosed with
  | true => rw [Scan.close_of_isClosed s hclosed, Scan.close_of_isClosed (x.scan s) hclosed]
  | false =>
      rw [Scan.close_of_open hclosed, Scan.close_of_open (s := x.scan s) hclosed]
      have hclose : (x.scan s).query.close.2 = _ := congrArg Prod.snd (query_close s.query)
      have hrecord : ∀ nanos, (x.scan s).times.record "close" nanos = _ :=
        x.record s.times "close"
      have hfile : ∀ nanos elapsed, (x.scan s).times.file? (x.scan s).id (x.scan s).query.stats
          nanos elapsed = _ := hreports s.times s.id s.query.stats
      simp only [hclose, hrecord, hfile]
      rfl

theorem scan_readyOrClose (hreports : x.Reports) (columns : List Column)
    (constraints : Constraints) (s : Scan TiledQuery) :
    (x.scan s).readyOrClose columns constraints =
      x.outcome (s.readyOrClose columns constraints) := by
  have hprepare : (x.scan s).timed "initialize" (·.prepare columns constraints) =
      x.outcome (s.timed "initialize" (·.prepare columns constraints)) :=
    scan_timed (fun s => scan_prepare columns constraints s) s
  unfold Scan.readyOrClose
  rw [hprepare]
  rcases s.timed "initialize" (·.prepare columns constraints) with ⟨e | _, t⟩
  · exact congrArg (Outcome.mk _) (scan_close hreports t)
  · rfl

/-- Scans that differ by the change before they start do so after it. -/
theorem scan_start {query query' : TiledQuery} {id : ScanId} {settings settings' : ScanSettings}
    {memory memory' : Source UInt64} {clock : Source Nat} (hreports : x.Reports)
    (husable : settings'.ensureUsable = settings.ensureUsable)
    (hunready : Scan.unready query' id settings' memory' clock =
      x.scan (Scan.unready query id settings memory clock))
    (hkept :
      Scan.unready (QueryEngine.keepStats query' settings'.keepStats) id settings' memory' clock =
        x.scan (Scan.unready (QueryEngine.keepStats query settings.keepStats) id settings memory
          clock))
    (columns : List Column) (constraints : Constraints) :
    Scan.start query' id settings' columns constraints memory' clock =
      x.outcome (Scan.start query id settings columns constraints memory clock) := by
  rw [Scan.start_eq, Scan.start_eq, husable, hunready, hkept, scan_close hreports,
    scan_readyOrClose hreports]
  rcases settings.ensureUsable with e | ⟨⟩ <;> rfl

end SideChange

end SparseScan
