import SparseScan.Proofs.Scan.Muted
import SparseScan.Proofs.Scan.Tally

set_option autoImplicit false

/-! # What the statistics of a scan say

A query that keeps statistics counts the submits that found no room, and the cells that it handed
out. Each of the former is followed by one growth that the scan attempts, granted or not, and the
latter are the rows of the batches that the scan has fetched: after any calls the counts are these
sums (`Counting`, `Stage.counted_calls`). `start_counts_submits` puts this beside what
`start_indistinct` says, that keeping statistics does not show elsewhere. -/

namespace SparseScan

namespace TiledQuery

/-- A submit is counted with the cells that it hands out. -/
theorem submit_stats {q q' : TiledQuery} {buffers filled : List NamedBuffers} {status : Progress}
    (h : q.submit buffers = (.ok status, filled, q')) :
    status = q'.status ∧
      q'.stats = q.stats.map (SubmitCounts.add · (q'.delivered - q.delivered) status) := by
  obtain ⟨ts, -, -, rfl, rfl⟩ := submit_eq_ok h
  refine ⟨rfl, ?_⟩
  rw [show (q.advanced (q.batch ts) _).delivered = q.delivered + (q.batch ts).length from rfl,
    Nat.add_sub_cancel_left]
  rfl

end TiledQuery

namespace Scan

variable {a : TiledArray} {sel : List Cell} {s₀ s t : Scan TiledQuery} {k asked idle cells : Nat}

/-! ## What there is to count -/

/-- How many growths a fetch attempts: one behind each round that finds no room, until one is
    refused. -/
def attempted : Nat → Scan TiledQuery → Nat
  | 0, _ => 0
  | fuel + 1, s =>
      if (round s).result = .ok false then
        let grown := (round s).scan.timed "grow_buffers" grow
        if grown.result = .ok () then attempted fuel grown.scan + 1 else 1
      else 0

/-- The rows of the batch that a fetch brings, if it does not fail. -/
def rowsBrought (o : Outcome TiledQuery Unit) : Nat :=
  if o.result = .ok () then o.scan.batch.rows else 0

/-- How many growths the next step attempts. -/
def stepAttempts (s : Scan TiledQuery) : Nat :=
  if Fetches s then attempted submitLimit s else 0

/-- The rows of the batch that the next step fetches. -/
def stepRows (s : Scan TiledQuery) : Nat :=
  if Fetches s then rowsBrought (fetch submitLimit s) else 0

/-- What is counted of each step, over calls; only an advance takes a step, after a reading of the
    time. -/
def overCalls (count : Scan TiledQuery → Nat) (s : Scan TiledQuery) : List Call → Nat
  | [] => 0
  | .advance :: rest => count s.now.2 + overCalls count (s.afterCall .advance) rest
  | c :: rest => overCalls count (s.afterCall c) rest

/-- The query has counted `idle` submits that found no room, and `cells`. The memory has been asked
    as often as the former, and `asked` times before the start. -/
structure Counting (asked idle cells : Nat) (s : Scan TiledQuery) : Prop where
  stats : ∃ submits, s.query.stats = some ⟨submits, idle, cells⟩
  asked : s.allocator.memory.asked = asked + idle

theorem Counting.congr (h : Counting asked idle cells s) (hquery : t.query.stats = s.query.stats)
    (hmemory : t.allocator.memory = s.allocator.memory) : Counting asked idle cells t := by
  refine ⟨?_, ?_⟩
  · rw [hquery]
    exact h.stats
  · rw [hmemory]
    exact h.asked

theorem Counting.same (h : Counting asked idle cells s) (hsame : SameButTime t s) :
    Counting asked idle cells t :=
  h.congr (congrArg (·.query.stats) hsame.view) (congrArg BufferAllocator.memory hsame.allocator)

/-! ## One round -/

theorem grow_memory (s : Scan TiledQuery) :
    s.grow.scan.allocator.memory = s.allocator.memory.next.2 := by
  have hmemory := s.allocator.grow_memory s.buffers
  rcases hgrow : s.allocator.grow s.buffers with ⟨e | grown, allocator⟩ <;> rw [hgrow] at hmemory
  · rw [grow_of_error hgrow]
    exact hmemory
  · obtain ⟨query, hscan⟩ := grow_scan_of_ok hgrow
    rw [hscan]
    exact hmemory

theorem load_status (s : Scan TiledQuery) (counts : List (String × ElementCounts)) :
    (s.load counts).scan.status = s.status := by
  simp only [load, timed, decode]
  split <;> rfl

/-- Behind its submit a round leaves the query as it is. -/
theorem round_query (s : Scan TiledQuery) :
    (round s).scan.query = s.submit.scan.query ∧ (round s).scan.status = s.submit.scan.status := by
  let P (t : Scan TiledQuery) : Prop :=
    t.query = s.submit.scan.query ∧ t.status = s.submit.scan.status
  refine Outcome.andThen_scan (P := P) ⟨rfl, rfl⟩ ?_
  intro status t ht
  refine Outcome.andThen_scan (P := P) ht ?_
  intro counts u hu
  split
  · exact hu
  · split
    · split
      · exact hu
      · exact hu
    · have hload : P (u.load counts).scan :=
        ⟨(load_tally u counts).2.trans hu.1, (load_status u counts).trans hu.2⟩
      exact Outcome.andThen_scan (P := P) hload fun _ _ hv => hv

/-- A round that does not fail has its submit counted, with the cells that were handed out. -/
theorem round_stats {done : Bool} (h : (round s).result = .ok done) :
    (round s).scan.query.stats = s.query.stats.map (TiledQuery.SubmitCounts.add ·
      ((round s).scan.query.delivered - s.query.delivered) (round s).scan.status) := by
  obtain ⟨status, hsubmit, -⟩ := Outcome.andThen_ok_inv h
  obtain ⟨filled, query, hquery, hview⟩ := submit_eq_ok hsubmit
  obtain ⟨hsame, hstatus⟩ := round_query s
  rw [hsame, hstatus, show s.submit.scan.query = query from congrArg ScanView.query hview,
    show s.submit.scan.status = status from congrArg ScanView.status hview]
  exact (TiledQuery.submit_stats hquery).2

/-- A round that finds no room is counted as such, and the growth behind it asks the memory. -/
theorem Sized.counted_idle (ha : a.Sound) (hsel : ∀ c ∈ sel, c ∈ a.cells) (h : Sized a sel s₀ k s)
    (hpos : s.position = s.batch.rows) (hmore : s.visited < sel.length)
    (hidle : (round s).result = .ok false) (hcounted : Counting asked idle cells s) :
    Counting asked (idle + 1) cells ((round s).scan.timed "grow_buffers" grow).scan := by
  have hw := submitted_of_idle ha hsel h.serves hpos hmore hidle
  have hserves : Serves a sel (round s).scan.now.2.view := hw.serves_idle h.serves hpos hmore
  obtain ⟨submits, hstats⟩ := hcounted.stats
  have hdelivered : (round s).scan.query.delivered - s.query.delivered = 0 := by
    rw [show (round s).scan.query.delivered = s.visited from hw.delivered, h.delivered hpos,
      Nat.sub_self]
  have hstatus : (round s).scan.status = .incomplete :=
    hw.status.trans (if_neg (Nat.not_le.2 hmore))
  have hround : (round s).scan.query.stats = some ⟨submits + 1, idle + 1, cells⟩ := by
    rw [round_stats hidle, hdelivered, hstatus, hstats]
    rfl
  refine ⟨⟨submits + 1, ?_⟩, ?_⟩
  · rcases grow_of_serves hserves with ⟨m, -, hview, -⟩ | ⟨-, grown, -, hview, -⟩
    · exact (congrArg (·.query.stats) hview).trans hround
    · exact (congrArg (·.query.stats) hview).trans hround
  · show (round s).scan.now.2.grow.scan.allocator.memory.asked = _
    rw [grow_memory, ← Nat.add_assoc, ← hcounted.asked, ← round_allocator s]
    rfl

/-- Any other round has its cells counted, which are the rows of the batch, unless it fails. -/
theorem Sized.counted_done (ha : a.Sound) (hsel : ∀ c ∈ sel, c ∈ a.cells) (h : Sized a sel s₀ k s)
    (hpos : s.position = s.batch.rows) (hmore : s.visited < sel.length)
    (hround : (round s).result ≠ .ok false) (hcounted : Counting asked idle cells s)
    {o : Outcome TiledQuery Unit} (ho : o = (round s).andThen fun _ t => ⟨.ok (), t⟩) :
    Counting asked idle (cells + rowsBrought o) o.scan := by
  subst ho
  have hmemory := congrArg BufferAllocator.memory (round_allocator s)
  rcases round_of_serves ha hsel h.serves hpos hmore with ⟨f, -, -, herror, hview⟩ | ⟨hidle, -⟩ |
    ⟨hok, hserves, hrows, w, taken, hw, hview⟩
  · have hsame := hcounted.congr (congrArg (·.query.stats) hview) hmemory
    generalize round s = o at herror hsame ⊢
    rcases o with ⟨result, t⟩
    subst herror
    exact hsame
  · exact absurd hidle hround
  · obtain ⟨submits, hstats⟩ := hcounted.stats
    have hstats' := round_stats hok
    have hdelivered : (round s).scan.query.delivered - s.query.delivered =
        (round s).scan.batch.rows := by
      have hposition : (round s).scan.position = 0 := congrArg ScanView.position hview
      have hvisited : (round s).scan.visited = s.visited :=
        (congrArg ScanView.visited hview).trans hw.visited
      have hsum : (round s).scan.query.delivered = (round s).scan.visited +
          ((round s).scan.batch.rows - (round s).scan.position) := hserves.delivered
      rw [hsum, hposition, hvisited, h.delivered hpos, Nat.sub_zero, Nat.add_sub_cancel_left]
    rw [hdelivered, hstats] at hstats'
    have hafter : Counting asked idle (cells + (round s).scan.batch.rows) (round s).scan := by
      refine ⟨⟨submits + 1, hstats'.trans ?_⟩, (congrArg Source.asked hmemory).trans hcounted.asked⟩
      simp [TiledQuery.SubmitCounts.add, hrows.ne']
    generalize round s = o at hok hafter ⊢
    rcases o with ⟨result, t⟩
    subst hok
    exact hafter

/-! ## Runs -/

/-- A fetch has each growth that it attempts counted, and the rows of the batch that it brings. -/
theorem Sized.counted_fetch (ha : a.Sound) (hextent : 0 < a.tileExtent)
    (hsel : ∀ c ∈ sel, c ∈ a.cells) (h : Sized a sel s₀ k s) (hpos : s.position = s.batch.rows)
    (hmore : s.visited < sel.length) (hcounted : Counting asked idle cells s) (fuel : Nat) :
    Counting asked (idle + attempted fuel s) (cells + rowsBrought (fetch fuel s))
      (fetch fuel s).scan := by
  induction fuel generalizing k s idle with
  | zero => exact hcounted
  | succ fuel ih =>
      by_cases hidle : (round s).result = .ok false
      · have hgrown := h.counted_idle ha hsel hpos hmore hidle hcounted
        obtain ⟨hposition, hbatch, hvisited, hsized⟩ :=
          h.grow_idle ha hextent hsel hpos hmore hidle rfl
        -- the batch is still used up, so the loop goes on as it began
        rw [← hvisited] at hmore
        rw [← hposition, ← hbatch] at hpos
        rw [attempted, if_pos hidle, fetch_of_idle hidle]
        generalize (round s).scan.timed "grow_buffers" grow = o at hgrown hpos hmore hsized ⊢
        rcases o with ⟨result, t⟩
        rcases hsized with ⟨m, rfl, -, -⟩ | ⟨rfl, hlarger⟩
        · exact hgrown
        · have hrest := ih hlarger hpos hmore hgrown
          rw [Nat.add_assoc, Nat.add_comm 1] at hrest
          exact hrest
      · rw [attempted, if_neg hidle]
        exact h.counted_done ha hsel hpos hmore hidle hcounted (fetch_of_round hidle)

theorem Counting.close (h : Counting asked idle cells s) : Counting asked idle cells s.close := by
  cases hclosed : s.isClosed with
  | true => rwa [close_of_isClosed s hclosed]
  | false =>
      rw [close_of_open hclosed]
      exact h.congr (close_kept s.query).2 rfl

theorem Counting.handOut (h : Counting asked idle cells s) :
    Counting asked idle cells s.handOut.scan := by
  have hout : Counting asked idle cells
      { s with position := s.position + 1, visited := s.visited + 1 } := ⟨h.stats, h.asked⟩
  simp only [Scan.handOut]
  split
  · exact hout.close
  · exact hout

/-- A step counts what it fetches. -/
theorem Stage.counted_step (ha : a.Sound) (hextent : 0 < a.tileExtent)
    (hsel : ∀ c ∈ sel, c ∈ a.cells) (h : Stage a sel s₀ k s)
    (hcounted : Counting asked idle cells s) :
    Counting asked (idle + s.stepAttempts) (cells + s.stepRows) s.step.scan := by
  by_cases hfetches : Fetches s
  · obtain ⟨hsized, hpos, hmore⟩ := h.fetches hfetches
    rw [step_of_fetches hfetches, stepAttempts, stepRows, if_pos hfetches, if_pos hfetches]
    have hfetch := hsized.counted_fetch ha hextent hsel hpos hmore hcounted submitLimit
    exact Outcome.andThen_scan hfetch fun _ _ ht => ht.handOut
  · rw [stepAttempts, stepRows, if_neg hfetches, if_neg hfetches]
    exact step_unfetched Counting.close Counting.handOut hfetches hcounted

theorem Stage.counted_calls (ha : a.Sound) (hextent : 0 < a.tileExtent)
    (hsel : ∀ c ∈ sel, c ∈ a.cells) (h : Stage a sel s₀ k s)
    (hcounted : Counting asked idle cells s) (calls : List Call) :
    Counting asked (idle + overCalls stepAttempts s calls) (cells + overCalls stepRows s calls)
      (s.afterCalls calls) := by
  induction calls generalizing k s idle cells with
  | nil => exact hcounted
  | cons c rest ih =>
      have hstage := h.call ha hextent hsel c
      cases c with
      | advance =>
          have hnow : Counting asked idle cells s.now.2 := ⟨hcounted.stats, hcounted.asked⟩
          have hstart : Stage a sel s₀ k s.now.2 := h.congr rfl rfl
          have hstep := hstart.counted_step ha hextent hsel hnow
          have hrest := ih hstage (hstep.same (advance_same s))
          rw [Nat.add_assoc, Nat.add_assoc] at hrest
          exact hrest
      | close => exact ih hstage hcounted.close
      | openTime => exact ih hstage (hcounted.same (openTime_same s))
      | observe => exact ih hstage hcounted

/-! ## From the start on -/

section

variable {schema : Schema} {tileExtent : Nat} {stored : List Cell} {id : ScanId}
  {settings : ScanSettings} {columns : List Column} {constraints : Constraints}
  {memory : Source UInt64} {clock : Source Nat}

theorem start_eq_ok {q : TiledQuery}
    (hs : start q id settings columns constraints memory clock = ⟨.ok (), s⟩) :
    (unready (QueryEngine.keepStats q settings.keepStats) id settings memory clock).timed
      "initialize" (·.prepare columns constraints) = ⟨.ok (), s⟩ := by
  rw [start_eq] at hs
  split at hs
  · cases hs
  · unfold readyOrClose at hs
    split at hs
    · next t ht => rw [ht, hs]
    · cases hs

/-- At its start a scan that keeps statistics has counted nothing and asked the memory nothing. -/
theorem start_counted {q : TiledQuery} (hkeep : settings.keepStats = true)
    (hs : start q id settings columns constraints memory clock = ⟨.ok (), s⟩) :
    Counting memory.asked 0 0 s := by
  -- the start does not notice that memory and counts are replaced by those that there are
  let x : SideChange := .replacing (fun _ => memory) fun _ => some {}
  have hprepare : ∀ s, (x.scan s).timed "initialize" (·.prepare columns constraints) =
      x.outcome (s.timed "initialize" (·.prepare columns constraints)) :=
    SideChange.scan_timed fun s => SideChange.scan_prepare columns constraints s
  have hprepared := start_eq_ok hs
  rw [hkeep] at hprepared
  have hsame : x.outcome ⟨.ok (), s⟩ = ⟨.ok (), s⟩ := by
    rw [← hprepared, ← hprepare]
    rfl
  refine ⟨⟨0, ?_⟩, ?_⟩
  · exact (congrArg (·.scan.query.stats) hsame).symm
  · exact (congrArg (·.scan.allocator.memory.asked) hsame).symm

/-- Statistics affect nothing that a scan answers: with other settings for them it starts alike, and
    cannot be told apart after any calls. And what they say is right: the query has counted each
    growth that was attempted as a submit without progress, and as cells the rows of all batches
    that were fetched, and it reports these numbers under their labels. Each attempt has asked the
    memory once. -/
theorem start_counts_submits (ha : TiledArray.ofCells schema tileExtent stored = .ok a)
    (id : ScanId) (settings : ScanSettings) (keepStats : Bool) (reportDirectory : Option String)
    (columns : List Column) (constraints : Constraints) (memory : Source UInt64)
    (clock : Source Nat) :
    let o := start (TiledQuery.ofArray a) id settings columns constraints memory clock
    let o' := start (TiledQuery.ofArray a) id { settings with keepStats, reportDirectory } columns
      constraints memory clock
    o.result = o'.result ∧
      (∀ calls, Indistinct (o.scan.afterCalls calls) (o'.scan.afterCalls calls)) ∧
      (o.result = .ok () → settings.keepStats = true → ∀ calls,
        let t := o.scan.afterCalls calls
        let attempts := overCalls stepAttempts o.scan calls
        let rows := overCalls stepRows o.scan calls
        (∃ submits, t.query.stats = some ⟨submits, attempts, rows⟩ ∧
          QueryEngine.statsText t.query = some ("submits: " ++ toString submits ++
            "\nzero_progress_submits: " ++ toString attempts ++
            "\ncells_returned: " ++ toString rows ++ "\n")) ∧
        t.allocator.memory.asked = memory.asked + attempts) := by
  intro o o'
  obtain ⟨hresult, hcalls⟩ := start_indistinct (TiledQuery.ofArray a) id settings keepStats
    reportDirectory columns constraints memory clock
  refine ⟨hresult, hcalls, ?_⟩
  intro hok hkeep calls
  have hs : o = ⟨.ok (), o.scan⟩ := by rw [← hok]
  obtain ⟨hsound, -⟩ := TiledArray.sound_ofCells ha
  have hextent := TiledArray.tileExtent_pos_ofCells ha
  have hsel : ∀ c ∈ a.admitted constraints, c ∈ a.cells := fun c hc =>
    TiledArray.mem_of_mem_admitted hc
  have hcounted := (start_stage hsound hs).counted_calls hsound hextent hsel
    (start_counted hkeep hs) calls
  rw [Nat.zero_add, Nat.zero_add] at hcounted
  obtain ⟨submits, hstats⟩ := hcounted.stats
  exact ⟨⟨submits, hstats, congrArg (Option.map SubmitCounts.render) hstats⟩, hcounted.asked⟩

end

/-- The scan of rows in tiles of two that finds no memory at first, with its statistics kept or
    not. -/
def countingScan (keepStats : Bool) (reportDirectory : Option String) : Outcome TiledQuery Unit :=
  start (TiledQuery.ofArray pairs) ⟨"pairs"⟩ { bufferBudget := 8, keepStats, reportDirectory }
    [⟨"row", .bigInt, true⟩] {} { answers := fun n => if n = 0 then 0 else 1000 }
    (Source.constant 0)

/-- One growth is refused and one is granted, which makes two submits without progress. The batches
    have two rows and one, and nothing tells the scan from one that keeps no statistics. -/
theorem countingScan_counts :
    (countingScan true none).result = .ok () ∧
      Indistinct
        ((countingScan true none).scan.afterCalls [.advance, .advance, .openTime, .advance])
        ((countingScan false (some "stats")).scan.afterCalls
          [.advance, .advance, .openTime, .advance]) ∧
      ∃ submits : Nat, QueryEngine.statsText ((countingScan true none).scan.afterCalls
          [.advance, .advance, .advance, .advance, .close]).query =
        some ("submits: " ++ toString submits ++
          "\nzero_progress_submits: 2\ncells_returned: 3\n") := by
  have hcells : TiledArray.ofCells pairs.schema 2 pairs.cells = .ok pairs :=
    TiledArray.ofCells_of_sorted (by decide) (by decide) (by decide +kernel) (by decide +kernel)
  have hok : (countingScan true none).result = .ok () := by decide +kernel
  obtain ⟨-, hcalls, hcounts⟩ := start_counts_submits hcells ⟨"pairs"⟩
    { bufferBudget := 8, keepStats := true } false (some "stats") [⟨"row", .bigInt, true⟩] {}
    { answers := fun n => if n = 0 then 0 else 1000 } (Source.constant 0)
  refine ⟨hok, hcalls _, ?_⟩
  obtain ⟨⟨submits, -, htext⟩, -⟩ :=
    hcounts hok rfl [.advance, .advance, .advance, .advance, .close]
  have hattempts : overCalls stepAttempts (countingScan true none).scan
      [.advance, .advance, .advance, .advance, .close] = 2 := by decide +kernel
  have hrows : overCalls stepRows (countingScan true none).scan
      [.advance, .advance, .advance, .advance, .close] = 3 := by decide +kernel
  refine ⟨submits, htext.trans ?_⟩
  rw [show start (TiledQuery.ofArray pairs) ⟨"pairs"⟩ _ _ _ _ _ = countingScan true none from rfl,
    hattempts, hrows, String.append_assoc, String.append_assoc, String.append_assoc,
    String.append_assoc]
  rfl

end Scan

end SparseScan
