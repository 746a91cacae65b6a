import SparseScan.Proofs.Scan.Rows

set_option autoImplicit false

/-! # Scans that answer alike

What a scan answers depends neither on the time nor on statistics nor on what its last submit has
left to be read. `Scan.core` is the scan without them. Scans with one core answer every call alike,
up to the growth of buffers, which alone depends on how much memory is free. -/

namespace SparseScan

/-! ## Queries -/

namespace TiledQuery

/-- The query without statistics and without what it says of the last submit. Its cells are
    selected, whether or not it has been submitted. -/
def core (q : TiledQuery) : TiledQuery :=
  { q with selection := some q.selected, status := .unstarted, counts := [], stats := none }

variable {q r : TiledQuery}

theorem core_register (q : TiledQuery) (name : String) (c : Capacities) :
    q.core.register name c = ((q.register name c).1, (q.register name c).2.core) :=
  register_map (f := core) rfl rfl rfl

theorem core_close (q : TiledQuery) : q.core.close = (q.close.1, q.close.2.core) :=
  update_map (f := core) rfl (.ok { q with
    closed := true
    registered := []
    releases := q.releases + 1 })

/-- A submit hands out the same cells, and says as much of them. -/
theorem core_submit (q : TiledQuery) (buffers : List NamedBuffers) :
    (q.core.submit buffers).1 = (q.submit buffers).1 ∧
      (q.core.submit buffers).2.1 = (q.submit buffers).2.1 ∧
      (q.core.submit buffers).2.2.core = (q.submit buffers).2.2.core ∧
      ∀ status, (q.submit buffers).1 = .ok status →
        (q.core.submit buffers).2.2.counts = (q.submit buffers).2.2.counts := by
  unfold submit whileOpen
  rw [show q.core.closed = q.closed from rfl, show q.core.registered = q.registered from rfl,
    show q.core.array = q.array from rfl, show q.core.remaining = q.remaining from rfl]
  by_cases hclosed : q.closed = true
  · simp only [hclosed]
    exact ⟨rfl, rfl, rfl, fun status h => nomatch h⟩
  by_cases hregistered : q.registered.isEmpty = true
  · simp only [hclosed, hregistered]
    exact ⟨rfl, rfl, rfl, fun status h => nomatch h⟩
  cases hts : targets q.array buffers q.registered with
  | error e =>
      simp only [hclosed, hregistered, bind, Except.bind]
      exact ⟨rfl, rfl, rfl, fun status h => nomatch h⟩
  | ok ts =>
      cases hfilled : fillAll (q.remaining.take (batchSize q.array.tileExtent ts q.remaining)) ts
          buffers with
      | error e =>
          simp only [hclosed, hregistered, bind, Except.bind, hfilled]
          exact ⟨rfl, rfl, rfl, fun status h => nomatch h⟩
      | ok filled =>
          simp only [hclosed, hregistered, bind, Except.bind, hfilled]
          exact ⟨rfl, rfl, rfl, fun status h => rfl⟩

end TiledQuery

/-! ## Scans -/

namespace Scan

/-- The scan without the time, statistics, what the last submit has left to be read, and what is
    known of the memory. -/
def core (s : Scan TiledQuery) : Scan TiledQuery :=
  { s with
    query := s.query.core
    allocator := { s.allocator with memory := .constant 0, footprint := {} }
    status := if s.status = .completed then .completed else .unstarted
    clock := .constant 0
    started := 0
    ended := s.ended.map fun _ => 0
    times := { enabled := false }
    report := none }

end Scan

/-- An outcome with the core of its scan. -/
def Outcome.core {α : Type} (o : Outcome TiledQuery α) : Outcome TiledQuery α :=
  ⟨o.result, o.scan.core⟩

section

variable {α β : Type} {o p : Outcome TiledQuery α}
  {next next' : α → Scan TiledQuery → Outcome TiledQuery β}

theorem Outcome.core_eq (hresult : o.result = p.result) (hscan : o.scan.core = p.scan.core) :
    o.core = p.core := by
  rw [core, core, hresult, hscan]

theorem Outcome.result_eq (h : o.core = p.core) : o.result = p.result := by
  simpa only [core] using congrArg Outcome.result h

theorem Outcome.scan_core_eq (h : o.core = p.core) : o.scan.core = p.scan.core := by
  simpa only [core] using congrArg Outcome.scan h

/-- Steps that answer alike go on alike. -/
theorem Outcome.andThen_alike (h : o.core = p.core)
    (hnext : ∀ a, o.result = .ok a → o.scan.core = p.scan.core →
      (next a o.scan).core = (next' a p.scan).core) :
    (o.andThen next).core = (p.andThen next').core := by
  obtain ⟨result, s⟩ := o
  obtain ⟨result', u⟩ := p
  obtain rfl : result = result' := result_eq h
  cases result with
  | ok a => exact hnext a rfl (scan_core_eq h)
  | error e =>
      have hscan : s.core = u.core := scan_core_eq h
      exact core_eq rfl hscan

end

namespace Scan

variable {α : Type} {s u : Scan TiledQuery}

/-- What scans with one core have in common. -/
structure Agrees (s u : Scan TiledQuery) : Prop where
  query : s.query.core = u.query.core
  fields : s.fields = u.fields
  buffers : s.buffers = u.buffers
  batch : s.batch = u.batch
  completed : s.status = .completed ↔ u.status = .completed
  position : s.position = u.position
  visited : s.visited = u.visited
  upperBound : s.upperBound = u.upperBound
  growth : s.allocator.growth = u.allocator.growth
  isClosed : s.isClosed = u.isClosed

theorem completed_of_ite {p p' : Progress}
    (h : (if p = .completed then Progress.completed else .unstarted) =
      if p' = .completed then .completed else .unstarted) :
    p = .completed ↔ p' = .completed := by
  by_cases hp : p = .completed <;> by_cases hp' : p' = .completed <;> simp_all

theorem agrees_of_core (h : s.core = u.core) : Agrees s u := by
  simp only [core, Scan.mk.injEq, BufferAllocator.mk.injEq] at h
  obtain ⟨hquery, -, hfields, ⟨-, hgrowth, -⟩, hbuffers, hbatch, hstatus, hposition, hvisited,
    hupper, -, -, -, hended, -⟩ := h
  refine ⟨hquery, hfields, hbuffers, hbatch, completed_of_ite hstatus, hposition, hvisited, hupper,
    hgrowth, ?_⟩
  simpa [isClosed] using congrArg Option.isSome hended

theorem timed_core (s : Scan TiledQuery) (name : String)
    (step : Scan TiledQuery → Outcome TiledQuery α) :
    (s.timed name step).core = (step s.now.2).core := rfl

theorem timed_alike {name : String} {step : Scan TiledQuery → Outcome TiledQuery α}
    (h : s.core = u.core)
    (hstep : ∀ s u : Scan TiledQuery, s.core = u.core → (step s).core = (step u).core) :
    (s.timed name step).core = (u.timed name step).core := by
  rw [timed_core, timed_core]
  exact hstep s.now.2 u.now.2 h

theorem ask_alike {request : TiledQuery → Except ArrayError α × TiledQuery} (h : s.core = u.core)
    (hanswer : (request s.query).1 = (request u.query).1)
    (hquery : (request s.query).2.core = (request u.query).2.core) :
    (s.ask request).core = (u.ask request).core := by
  refine Outcome.core_eq (by simp only [ask, hanswer]) ?_
  show { s.core with query := (request s.query).2.core } =
    { u.core with query := (request u.query).2.core }
  rw [h, hquery]

/-! ## Calls of the query -/

theorem register_alike (h : s.core = u.core) (name : String) (c : Capacities) :
    (s.ask (QueryEngine.register · name c)).core =
      (u.ask (QueryEngine.register · name c)).core := by
  have hregister := congrArg (TiledQuery.register · name c) (agrees_of_core h).query
  simp only [TiledQuery.core_register, Prod.mk.injEq] at hregister
  exact ask_alike h hregister.1 hregister.2

theorem registerAll_alike (h : s.core = u.core) (buffers : List NamedBuffers) :
    (registerAll buffers s).core = (registerAll buffers u).core := by
  induction buffers generalizing s u with
  | nil => exact Outcome.core_eq rfl h
  | cons b rest ih =>
      have hregister := register_alike h b.name b.buffers.capacities
      exact Outcome.andThen_alike hregister fun _ _ hscan => ih hscan

/-- A submit of the query itself, as one step of the scan. -/
theorem submitQuery_alike (h : s.core = u.core) :
    (s.query.submit s.buffers).1 = (u.query.submit u.buffers).1 ∧
      (s.query.submit s.buffers).2.1 = (u.query.submit u.buffers).2.1 ∧
      (s.query.submit s.buffers).2.2.core = (u.query.submit u.buffers).2.2.core ∧
      ∀ status, (s.query.submit s.buffers).1 = .ok status →
        (s.query.submit s.buffers).2.2.counts = (u.query.submit u.buffers).2.2.counts := by
  have hagrees := agrees_of_core h
  obtain ⟨hanswer, hfilled, hafter, hcounts⟩ := TiledQuery.core_submit s.query s.buffers
  obtain ⟨hanswer', hfilled', hafter', hcounts'⟩ := TiledQuery.core_submit u.query u.buffers
  rw [hagrees.query, hagrees.buffers] at hanswer hfilled hafter
  rw [hagrees.buffers] at hcounts ⊢
  refine ⟨hanswer.symm.trans hanswer', hfilled.symm.trans hfilled', hafter.symm.trans hafter', ?_⟩
  intro status hok
  have hsame := hcounts status hok
  rw [hagrees.query] at hsame
  exact hsame.symm.trans (hcounts' status (by rw [← hok, ← hanswer, hanswer']))

/-- A submit that succeeds is one of the query. -/
theorem submit_core {status : Progress} (h : s.submit.result = .ok status) :
    ∃ filled query, s.query.submit s.buffers = (.ok status, filled, query) ∧
      s.submit.scan.query = query ∧ s.submit.scan.core = { s.core with
        query := query.core
        buffers := filled
        status := if status = .completed then .completed else .unstarted } := by
  unfold submit at h ⊢
  obtain ⟨status', hrun, hnext⟩ := Outcome.andThen_ok_inv h
  rw [hnext] at h ⊢
  cases h
  refine ⟨(s.query.submit s.buffers).2.1, (s.query.submit s.buffers).2.2, ?_, rfl, rfl⟩
  have hanswer : (s.query.submit s.buffers).1 = .ok status := mapError_eq_ok.1 hrun
  rw [← hanswer]

/-- A submit answers alike, and if it succeeds what it says of the rows is the same. -/
theorem submit_alike (h : s.core = u.core) :
    s.submit.core = u.submit.core ∧
      ∀ status, s.submit.result = .ok status →
        s.submit.scan.query.counts = u.submit.scan.query.counts := by
  have hcore : s.submit.core = u.submit.core := by
    refine Outcome.andThen_alike (timed_alike h ?_) ?_
    · intro s u h
      obtain ⟨hanswer, hfilled, hafter, -⟩ := submitQuery_alike h
      refine Outcome.core_eq (congrArg (Except.mapError ScanError.storage) hanswer) ?_
      show { s.core with
          buffers := (s.query.submit s.buffers).2.1
          query := (s.query.submit s.buffers).2.2.core } =
        { u.core with
          buffers := (u.query.submit u.buffers).2.1
          query := (u.query.submit u.buffers).2.2.core }
      rw [h, hfilled, hafter]
    · intro status _ hscan
      refine Outcome.core_eq rfl ?_
      exact congrArg (fun t : Scan TiledQuery => { t with
        status := if status = Progress.completed then Progress.completed else .unstarted }) hscan
  refine ⟨hcore, ?_⟩
  intro status hok
  obtain ⟨filled, query, hsubmit, hquery, -⟩ := submit_core hok
  obtain ⟨filled', query', hsubmit', hquery', -⟩ := submit_core (Outcome.result_eq hcore ▸ hok)
  have hcounts := (submitQuery_alike h).2.2.2 status (by rw [hsubmit])
  rwa [hsubmit, hsubmit', ← hquery, ← hquery'] at hcounts

/-! ## A round of fetching -/

/-- Submit once and make the rows that were read the present batch. Answers whether that was all
    that there was to do; if not, the buffers have no room for a row. -/
def round (s : Scan TiledQuery) : Outcome TiledQuery Bool :=
  s.submit.andThen fun status s =>
    (s.ask QueryEngine.elementCounts).andThen fun counts s =>
      match rowsRead s.fields counts with
      | .error e => ⟨.error e, s⟩
      | .ok rows =>
          if rows = 0 then
            if status = .incomplete then ⟨.ok false, s⟩ else ⟨.ok true, { s with batch := {} }⟩
          else (s.load counts).andThen fun _ s => ⟨.ok true, s⟩

theorem fetch_succ (fuel : Nat) (s : Scan TiledQuery) :
    fetch (fuel + 1) s = (round s).andThen fun done s =>
      if done then ⟨.ok (), s⟩
      else (s.timed "grow_buffers" grow).andThen fun _ s => fetch fuel s := by
  rw [fetch, round]
  rcases s.submit with ⟨status | status, t⟩
  · rfl
  simp only [Outcome.andThen_ok]
  rcases t.ask QueryEngine.elementCounts with ⟨counts | counts, t⟩
  · rfl
  simp only [Outcome.andThen_ok]
  cases rowsRead t.fields counts with
  | error e => rfl
  | ok rows =>
      by_cases hrows : rows = 0
      · by_cases hstatus : status = .incomplete
        · simp [hrows, hstatus]
        · simp [hrows, hstatus]
      · simp only [if_neg hrows]
        rcases t.load counts with ⟨done | done, t⟩ <;> rfl

theorem decode_alike (h : s.core = u.core) (counts : List (String × ElementCounts)) :
    (decode counts s).core = (decode counts u).core := by
  have hpairs : s.fields.zip s.buffers = u.fields.zip u.buffers := by
    rw [(agrees_of_core h).fields, (agrees_of_core h).buffers]
  simp only [decode, hpairs]
  split
  · next fields hfields =>
      refine Outcome.core_eq rfl ?_
      exact congrArg (fun t : Scan TiledQuery => { t with batch := ⟨fields⟩ }) h
  · exact Outcome.core_eq rfl h

theorem load_alike (h : s.core = u.core) (counts : List (String × ElementCounts)) :
    (s.load counts).core = (u.load counts).core := by
  have hbytes : bytesRead s.buffers counts = bytesRead u.buffers counts := by
    rw [(agrees_of_core h).buffers]
  simp only [load, hbytes]
  refine timed_alike ?_ fun s u h => decode_alike h counts
  exact congrArg (fun t : Scan TiledQuery => { t with
    position := 0
    completedBytes := t.completedBytes + UInt64.ofNat (bytesRead u.buffers counts) }) h

theorem elementCounts_alike (h : s.core = u.core) (hcounts : s.query.counts = u.query.counts) :
    (s.ask QueryEngine.elementCounts).core = (u.ask QueryEngine.elementCounts).core := by
  have hquery := (agrees_of_core h).query
  refine ask_alike h ?_ hquery
  have hclosed : s.query.closed = u.query.closed := congrArg (·.closed) hquery
  show s.query.whileOpen (.ok s.query.counts) = u.query.whileOpen (.ok u.query.counts)
  rw [hcounts, TiledQuery.whileOpen, TiledQuery.whileOpen, hclosed]

theorem round_alike (h : s.core = u.core) : (round s).core = (round u).core := by
  obtain ⟨hsubmit, hcounts⟩ := submit_alike h
  refine Outcome.andThen_alike hsubmit ?_
  intro status hok hscan
  refine Outcome.andThen_alike (elementCounts_alike hscan (hcounts status hok)) ?_
  intro counts _ hscan
  generalize (s.submit.scan.ask QueryEngine.elementCounts).scan = t at hscan ⊢
  generalize (u.submit.scan.ask QueryEngine.elementCounts).scan = v at hscan ⊢
  have hread : rowsRead t.fields counts = rowsRead v.fields counts := by
    rw [(agrees_of_core hscan).fields]
  simp only [hread]
  cases rowsRead v.fields counts with
  | error e => exact Outcome.core_eq rfl hscan
  | ok rows =>
      by_cases hrows : rows = 0
      · by_cases hstatus : status = .incomplete
        · simp only [hrows, hstatus, if_true]
          exact Outcome.core_eq rfl hscan
        · simp only [hrows, hstatus, if_true, if_false]
          refine Outcome.core_eq rfl ?_
          exact congrArg (fun t : Scan TiledQuery => { t with batch := {} }) hscan
      · simp only [if_neg hrows]
        refine Outcome.andThen_alike (load_alike hscan counts) ?_
        intro _ _ hscan
        exact Outcome.core_eq rfl hscan

/-! ## The next row -/

theorem close_alike (h : s.core = u.core) : s.close.core = u.close.core := by
  have hagrees := agrees_of_core h
  have hquery := congrArg TiledQuery.close hagrees.query
  rw [TiledQuery.core_close, TiledQuery.core_close, Prod.mk.injEq] at hquery
  unfold close
  rw [hagrees.isClosed]
  split
  · exact h
  · show { s.core with
        query := s.query.close.2.core, ended := some 0, batch := {}, buffers := [] } =
      { u.core with query := u.query.close.2.core, ended := some 0, batch := {}, buffers := [] }
    rw [h, hquery.2]

theorem finish_alike (h : s.core = u.core) : s.finish.core = u.finish.core :=
  Outcome.core_eq rfl (close_alike h)

theorem handOut_alike (h : s.core = u.core) : s.handOut.core = u.handOut.core := by
  have hbatch : s.batch = u.batch := (agrees_of_core h).batch
  have hnext := congrArg (fun t : Scan TiledQuery =>
    { t with position := t.position + 1, visited := t.visited + 1 }) h
  by_cases hrows : u.batch.rows = 0
  · rw [handOut, handOut, if_pos (by rwa [hbatch]), if_pos hrows]
    exact finish_alike hnext
  · rw [handOut, handOut, if_neg (by rwa [hbatch]), if_neg hrows]
    exact Outcome.core_eq rfl hnext

end Scan

end SparseScan
