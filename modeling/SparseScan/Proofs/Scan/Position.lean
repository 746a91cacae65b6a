import SparseScan.Proofs.Scan.Stages

set_option autoImplicit false

/-! # Where a scan stands in its batch

Between two calls an open scan stands inside its batch, which copies every field with the same
number of rows, and has handed out no more rows than the estimate for its first field (`Placed`).
This holds over a query in any state, also where calls fail. Inside a call it does not hold
throughout: a fetch puts the position back before it copies the rows, and may find no rows where the
old batch had some (`fetch_stands`). A step that hands out a row stands on it, and any other leaves
the scan in its place or closes it (`step_moves`). -/

namespace SparseScan

/-! ## Batches -/

/-- A copy of a field with `n` rows. -/
structure FieldBatch.Copies (fb : FieldBatch) (f : Field) (n : Nat) : Prop where
  datatype : fb.datatype = f.datatype
  isDimension : fb.isDimension = f.isDimension
  nullable : fb.nullable = f.nullable
  rows : fb.rows = n

/-- The batch is empty, or it has rows and copies each field with just these. -/
def RowBatch.Rectangular (b : RowBatch) (fields : List Field) : Prop :=
  b.fields = [] ∨
    0 < b.rows ∧ List.Forall₂ (fun f (fb : FieldBatch) => fb.Copies f b.rows) fields b.fields

/-- Each of the fields is reported with `n` rows. -/
def ReportedRows (counts : List (String × ElementCounts)) (fields : List Field) (n : Nat) : Prop :=
  ∀ f ∈ fields, ∃ c, counts.lookup f.name = some c ∧
    (if f.varLen then c.offsets else c.values) = n

theorem ReportedRows.rowsRead {counts : List (String × ElementCounts)} {fields : List Field}
    {n rows : Nat} (h : ReportedRows counts fields n) (hrows : rows ≠ 0)
    (hread : Scan.rowsRead fields counts = .ok rows) : fields ≠ [] ∧ rows = n := by
  cases fields with
  | nil =>
      rw [Scan.rowsRead, Except.ok.injEq] at hread
      exact absurd hread.symm hrows
  | cons f rest =>
      obtain ⟨c, hc, hn⟩ := h f (List.mem_cons_self ..)
      simp only [Scan.rowsRead, hc, hn, Except.ok.injEq] at hread
      exact ⟨List.cons_ne_nil _ _, hread.symm⟩

/-- Fields that are copied with reported rows have them all. -/
theorem ReportedRows.copies {counts : List (String × ElementCounts)} {fields : List Field}
    {buffers : List NamedBuffers} {batch : List FieldBatch} {n : Nat}
    (h : ReportedRows counts fields n) (hlen : fields.length = buffers.length)
    (hbatch : List.Forall₂ (fun (fb : Field × NamedBuffers) out =>
      FieldBatch.ofBuffers fb.1 fb.2.buffers ((counts.lookup fb.1.name).getD {}) = .ok out)
        (fields.zip buffers) batch) :
    List.Forall₂ (fun f (fb : FieldBatch) => fb.Copies f n) fields batch := by
  refine forall₂_of_getElem? ?_ ?_
  · rw [← hbatch.length_eq, List.length_zip, hlen, Nat.min_self]
  · intro i f hf
    have hlt : i < buffers.length := hlen ▸ (List.getElem?_eq_some_iff.1 hf).1
    have hzip : (fields.zip buffers)[i]? = some (f, buffers[i]) :=
      List.getElem?_zip_eq_some.2 ⟨hf, List.getElem?_eq_getElem hlt⟩
    obtain ⟨out, hout, hcopy⟩ := forall₂_getElem? hbatch hzip
    obtain ⟨c, hc, hn⟩ := h f (List.mem_of_getElem? hf)
    simp only [hc, Option.getD_some, FieldBatch.ofBuffers, bind_eq_ok, pure_eq_ok] at hcopy
    obtain ⟨size, -, values, -, offsets, -, validity, -, rfl⟩ := hcopy
    exact ⟨_, hout, rfl, rfl, rfl, hn⟩

theorem rectangular_of_copies {fields : List Field} {batch : List FieldBatch} {n : Nat}
    (hne : fields ≠ []) (hn : 0 < n)
    (h : List.Forall₂ (fun f (fb : FieldBatch) => fb.Copies f n) fields batch) :
    RowBatch.Rectangular ⟨batch⟩ fields ∧ 0 < (⟨batch⟩ : RowBatch).rows := by
  have hrows : (⟨batch⟩ : RowBatch).rows = n := by
    cases h with
    | nil => exact absurd rfl hne
    | cons hf _ => exact hf.rows
  rw [RowBatch.Rectangular, hrows]
  exact ⟨Or.inr ⟨hn, h⟩, hn⟩

/-! ## Buffers -/

/-- Filling buffers leaves them buffers of their fields. -/
theorem fieldBuffers_of_fillAll {fields : List Field} {cells : List Cell}
    {ts : List TiledQuery.Target} {buffers filled : List NamedBuffers}
    (h : List.Forall₂ FieldBuffers fields buffers)
    (hfilled : TiledQuery.fillAll cells ts buffers = .ok filled) :
    List.Forall₂ FieldBuffers fields filled := by
  induction ts generalizing buffers with
  | nil =>
      cases hfilled
      exact h
  | cons t ts ih =>
      rw [TiledQuery.fillAll] at hfilled
      split at hfilled
      · cases hfilled
      · next b hb =>
          split at hfilled
          · cases hfilled
          · next s hs =>
              refine ih (forall₂_of_getElem? (by rw [List.length_set, h.length_eq]) ?_) hfilled
              intro i f hf
              obtain ⟨b', hb', hfield⟩ := forall₂_getElem? h hf
              by_cases hi : t.index = i
              · subst hi
                rw [hb, Option.some.injEq] at hb'
                subst hb'
                have hlt := (List.getElem?_eq_some_iff.1 hb).1
                exact ⟨_, List.getElem?_set_self hlt, hfield.fill hs⟩
              · exact ⟨b', by rw [List.getElem?_set_ne hi, hb'], hfield⟩

/-- A submit reports the cells that it took as the rows of every registered field. -/
theorem TiledQuery.reportedRows_of_targets {q : TiledQuery} {fields : List Field}
    {buffers : List NamedBuffers} {ts : List Target}
    (hts : targets q.array buffers q.registered = .ok ts) (hstored : StoredFields q.array fields)
    (hregistered : ∀ f ∈ fields, f.name ∈ q.registered.map Prod.fst) (cells : List Cell) :
    ReportedRows (countsOfAll cells buffers ts) fields cells.length := by
  intro f hf
  obtain ⟨st, hst, hshape⟩ := hstored f hf
  obtain ⟨r, hr, hname⟩ := List.mem_map.1 (hregistered f hf)
  obtain ⟨i, hi⟩ := List.mem_iff_getElem?.1 hr
  obtain ⟨t, ht, hfor⟩ := forall₂_getElem? (targets_spec hts) hi
  obtain ⟨b, hb, -⟩ := hfor.found
  obtain ⟨c, hc⟩ := exists_lookup_countsOfAll (List.mem_of_getElem? ht) hb
  rw [hfor.name, hname] at hc
  obtain ⟨s, rfl⟩ := countsOf_of_lookup hts hst hc
  exact ⟨_, hc, FieldBatch.countsOf_rows hshape cells s⟩

namespace Scan

variable {s t : Scan TiledQuery}

/-- The buffers are those of the fields, in the shapes in which these are stored, and the query
    knows of buffers for all of them. -/
structure Fitted (v : ScanView) : Prop where
  queryOpen : v.query.closed = false
  nodup : (v.fields.map Field.name).Nodup
  stored : StoredFields v.query.array v.fields
  buffers : List.Forall₂ FieldBuffers v.fields v.buffers
  registered : ∀ f ∈ v.fields, f.name ∈ v.query.registered.map Prod.fst

/-- A submit that succeeds leaves the buffers those of the fields and reports rows for each. -/
theorem Fitted.submit {status : Progress} (hs : Fitted s.view)
    (h : s.submit.result = .ok status) :
    ∃ query buffers, s.submit.scan.view = { s.view with query, buffers, status } ∧
      Fitted s.submit.scan.view ∧ ∃ n, ReportedRows s.submit.scan.query.counts s.fields n := by
  obtain ⟨filled, query, hsubmit, hview⟩ := submit_eq_ok h
  obtain ⟨ts, hts, hfilled, rfl, -⟩ := TiledQuery.submit_eq_ok hsubmit
  refine ⟨_, _, hview, ?_, (s.query.batch ts).length, ?_⟩
  · rw [hview]
    exact ⟨hs.queryOpen, hs.nodup, hs.stored, fieldBuffers_of_fillAll hs.buffers hfilled,
      hs.registered⟩
  · rw [show s.submit.scan.query = _ from congrArg ScanView.query hview]
    exact TiledQuery.reportedRows_of_targets hts hs.stored hs.registered _

/-- Growth that succeeds doubles the buffers, which are registered again; growth that fails changes
    no more than what is known of the memory. -/
theorem Fitted.grow (hs : Fitted s.view) :
    Fitted s.grow.scan.view ∧
      ∃ query buffers, s.grow.scan.view = { s.view with query, buffers } := by
  have hnames : (s.buffers.map (·.name)).Nodup := (forall₂_names hs.buffers).symm ▸ hs.nodup
  rcases hgrow : s.allocator.grow s.buffers with ⟨m | grown, allocator⟩
  · rw [grow_of_error hgrow]
    exact ⟨hs, _, _, rfl⟩
  · have hdouble := mapM_eq_ok.1 (BufferAllocator.grow_eq_ok hgrow).2.1
    have hbuffers := fieldBuffers_of_double hs.buffers hdouble
    have hok : s.grow.result = .ok () := by
      simp only [Scan.grow, hgrow]
      refine registerAll_ok hs.queryOpen ?_
      intro b hb
      obtain ⟨i, hi⟩ := List.mem_iff_getElem?.1 hb
      obtain ⟨f, hf, hfield⟩ := forall₂_getElem? hbuffers.flip hi
      obtain ⟨st, hst, hshape⟩ := hs.stored f (List.mem_of_getElem? hf)
      exact ⟨st, hfield.name ▸ hst, shapes_of_fieldBuffers hfield hshape⟩
    obtain ⟨grown', hall, hview⟩ := grow_spec hok hnames
    have hfields := fieldBuffers_of_double hs.buffers hall
    refine ⟨?_, _, _, hview⟩
    rw [hview]
    refine ⟨hs.queryOpen, hs.nodup, hs.stored, hfields, ?_⟩
    intro f hf
    obtain ⟨i, hi⟩ := List.mem_iff_getElem?.1 hf
    obtain ⟨b, hb, hfield⟩ := forall₂_getElem? hfields hi
    rw [List.map_map]
    exact List.mem_map.2 ⟨b, List.mem_of_getElem? hb, hfield.name⟩

/-! ## Fetching -/

/-- What a part of a fetch makes of a scan: only the query, the buffers, the status, the batch and
    the position may be other ones, and the buffers and the batch are still those of the fields. -/
structure Refetched (v w : ScanView) : Prop where
  fields : w.fields = v.fields
  visited : w.visited = v.visited
  upperBound : w.upperBound = v.upperBound
  isClosed : w.isClosed = v.isClosed
  fitted : Fitted w
  batch : w.batch.Rectangular w.fields

theorem Refetched.trans {v w x : ScanView} (h : Refetched v w) (h' : Refetched w x) :
    Refetched v x :=
  ⟨h'.fields.trans h.fields, h'.visited.trans h.visited, h'.upperBound.trans h.upperBound,
    h'.isClosed.trans h.isClosed, h'.fitted, h'.batch⟩

/-- Where a fetch, or a part of one, has left the scan: with rows ahead or no rows at all if it is
    done, and no further in the old batch if not. -/
structure Stands (s : Scan TiledQuery) (done : Prop) (t : Scan TiledQuery) : Prop where
  refetched : Refetched s.view t.view
  ahead : done → t.batch.rows = 0 ∨ t.position < t.batch.rows
  behind : ¬ done → t.batch = s.batch ∧ t.position ≤ s.position

/-- Loading reported rows puts the scan before the first of them. A load that fails has put back
    the position all the same. -/
theorem Fitted.load {counts : List (String × ElementCounts)} {n rows : Nat} (hs : Fitted s.view)
    (hbatch : s.batch.Rectangular s.fields) (hcounts : ReportedRows counts s.fields n)
    (hrows : rows ≠ 0) (hread : rowsRead s.fields counts = .ok rows) :
    Stands s ((s.load counts).result = .ok ()) (s.load counts).scan := by
  obtain ⟨hne, rfl⟩ := hcounts.rowsRead hrows hread
  rcases hload : (s.load counts).result with e | ⟨⟩
  · have hview : (s.load counts).scan.view = { s.view with position := 0 } := by
      unfold Scan.load at hload ⊢
      simp only [timed_result, timed_view, decode] at hload ⊢
      split at hload
      · cases hload
      · rfl
    have hkept : (s.load counts).scan.batch = s.batch := congrArg ScanView.batch hview
    have hzero : (s.load counts).scan.position = 0 := congrArg ScanView.position hview
    refine ⟨?_, ?_, fun _ => ⟨hkept, hzero ▸ Nat.zero_le _⟩⟩
    · rw [hview]
      exact ⟨rfl, rfl, rfl, rfl, ⟨hs.queryOpen, hs.nodup, hs.stored, hs.buffers, hs.registered⟩,
        hbatch⟩
    · rintro ⟨⟩
  · obtain ⟨batch, hcopied, hview⟩ := load_spec hload
    have hcopies := hcounts.copies hs.buffers.length_eq hcopied
    obtain ⟨hrect, hpos⟩ := rectangular_of_copies hne (Nat.pos_of_ne_zero hrows) hcopies
    have hnew : (s.load counts).scan.batch = ⟨batch⟩ := congrArg ScanView.batch hview
    have hzero : (s.load counts).scan.position = 0 := congrArg ScanView.position hview
    refine ⟨?_, fun _ => Or.inr ?_, fun h => absurd rfl h⟩
    · rw [hview]
      exact ⟨rfl, rfl, rfl, rfl, ⟨hs.queryOpen, hs.nodup, hs.stored, hs.buffers, hs.registered⟩,
        hrect⟩
    · rw [hnew, hzero]
      exact hpos

/-- One round of a fetch. -/
theorem round_stands (hs : Fitted s.view) (hbatch : s.batch.Rectangular s.fields) :
    Stands s ((round s).result = .ok true) (round s).scan := by
  unfold round
  rcases hsubmit : s.submit with ⟨e | status, t⟩
  · have hview : t.view = s.view := by
      rw [← (submit_eq_error (congrArg Outcome.result hsubmit)).1, hsubmit]
    have hstays : Refetched s.view t.view := by
      rw [hview]
      exact ⟨rfl, rfl, rfl, rfl, hs, hbatch⟩
    rw [Outcome.andThen_error]
    exact ⟨hstays, fun h => (nomatch h), fun _ =>
      ⟨congrArg ScanView.batch hview, le_of_eq (congrArg ScanView.position hview)⟩⟩
  · obtain ⟨query, buffers, hview, hfitted, n, hcounts⟩ :=
      hs.submit (congrArg Outcome.result hsubmit)
    rw [hsubmit] at hview hfitted hcounts
    have hfields : t.fields = s.fields := congrArg ScanView.fields hview
    have hkept : t.batch = s.batch := congrArg ScanView.batch hview
    have hposition : t.position = s.position := congrArg ScanView.position hview
    have hvisited : t.visited = s.visited := congrArg ScanView.visited hview
    have hupper : t.upperBound = s.upperBound := congrArg ScanView.upperBound hview
    have hclosed : t.isClosed = s.isClosed := congrArg ScanView.isClosed hview
    have hstays : Refetched s.view t.view :=
      ⟨hfields, hvisited, hupper, hclosed, hfitted, by rw [hview]; exact hbatch⟩
    rw [Outcome.andThen_ok, ask_elementCounts hfitted.queryOpen, Outcome.andThen_ok]
    rcases hread : rowsRead t.fields t.query.counts with e | rows
    · exact ⟨hstays, fun h => (nomatch h), fun _ => ⟨hkept, le_of_eq hposition⟩⟩
    · by_cases hrows : rows = 0
      · by_cases hstatus : status = .incomplete
        · simp only [hrows, hstatus, if_true]
          exact ⟨hstays, fun h => (nomatch h), fun _ => ⟨hkept, le_of_eq hposition⟩⟩
        · -- the old batch goes, although the position stays
          simp only [hrows, hstatus, if_true, if_false]
          refine ⟨⟨hfields, hvisited, hupper, hclosed, ?_, Or.inl rfl⟩, fun _ => Or.inl rfl,
            fun h => absurd trivial h⟩
          exact ⟨hfitted.queryOpen, hfitted.nodup, hfitted.stored, hfitted.buffers,
            hfitted.registered⟩
      · simp only [if_neg hrows]
        have hloaded := hfitted.load hstays.batch (hfields ▸ hcounts) hrows hread
        rcases hload : t.load t.query.counts with ⟨e | ⟨⟩, u⟩
        · rw [hload] at hloaded
          obtain ⟨hsame, hle⟩ := hloaded.behind (fun h => nomatch h)
          exact ⟨hstays.trans hloaded.refetched, fun h => (nomatch h),
            fun _ => ⟨hsame.trans hkept, hposition ▸ hle⟩⟩
        · rw [hload] at hloaded
          exact ⟨hstays.trans hloaded.refetched, fun _ => hloaded.ahead rfl,
            fun h => absurd rfl h⟩

/-- A fetch over any number of rounds. -/
theorem fetch_stands (fuel : Nat) (hs : Fitted s.view) (hbatch : s.batch.Rectangular s.fields) :
    Stands s ((fetch fuel s).result = .ok ()) (fetch fuel s).scan := by
  induction fuel generalizing s with
  | zero =>
      exact ⟨⟨rfl, rfl, rfl, rfl, hs, hbatch⟩, fun h => (nomatch h), fun _ => ⟨rfl, le_rfl⟩⟩
  | succ fuel ih =>
      have hround := round_stands hs hbatch
      rw [fetch_succ]
      rcases hr : round s with ⟨e | done, t⟩
      · rw [hr] at hround
        exact ⟨hround.refetched, fun h => (nomatch h), fun _ => hround.behind (fun h => nomatch h)⟩
      · rw [hr] at hround
        rw [Outcome.andThen_ok]
        cases done with
        | true => exact ⟨hround.refetched, fun _ => hround.ahead rfl, fun h => absurd rfl h⟩
        | false =>
            obtain ⟨hkept, hle⟩ := hround.behind (fun h => nomatch h)
            rw [if_neg Bool.false_ne_true]
            have hgrow : Refetched t.view (t.timed "grow_buffers" grow).scan.view ∧
                (t.timed "grow_buffers" grow).scan.batch = t.batch ∧
                (t.timed "grow_buffers" grow).scan.position = t.position := by
              obtain ⟨hfitted, query, buffers, hview⟩ :=
                Fitted.grow (s := t.now.2) hround.refetched.fitted
              rw [timed_view]
              rw [hview] at hfitted ⊢
              refine ⟨⟨rfl, rfl, rfl, rfl, hfitted, hround.refetched.batch⟩, ?_, ?_⟩
              · exact congrArg ScanView.batch hview
              · exact congrArg ScanView.position hview
            rcases hg : t.timed "grow_buffers" grow with ⟨e | ⟨⟩, u⟩
            · rw [hg] at hgrow
              exact ⟨hround.refetched.trans hgrow.1, fun h => (nomatch h),
                fun _ => ⟨hgrow.2.1.trans hkept, hgrow.2.2.trans_le hle⟩⟩
            · rw [hg] at hgrow
              rw [Outcome.andThen_ok]
              have hrest := ih hgrow.1.fitted hgrow.1.batch
              refine ⟨(hround.refetched.trans hgrow.1).trans hrest.refetched, hrest.ahead, ?_⟩
              intro hundone
              obtain ⟨hsame, hback⟩ := hrest.behind hundone
              exact ⟨hsame.trans (hgrow.2.1.trans hkept),
                hback.trans (hgrow.2.2.trans_le hle)⟩

/-! ## Steps -/

/-- An open scan between two calls. It hands out rows only from buffers that fit. -/
structure Placed (v : ScanView) : Prop where
  isOpen : v.isClosed = false
  position_le : v.position ≤ v.batch.rows
  visited_le : v.visited ≤ v.upperBound
  batch : v.batch.Rectangular v.fields
  fitted : 0 < v.upperBound → Fitted v

/-- The fields, and the most rows that there can be. -/
def bounds (v : ScanView) : List Field × Nat := (v.fields, v.upperBound)

/-- What a step makes of an open scan. -/
inductive Moves (v : ScanView) : Except ScanError Bool → ScanView → Prop
  /-- It stands on the next row. -/
  | row {w : ScanView} (hplaced : Placed w) (hposition : 0 < w.position)
      (hbounds : bounds w = bounds v) (hvisited : w.visited = v.visited + 1) : Moves v (.ok true) w
  | ended {w : ScanView} (hclosed : w.isClosed = true) : Moves v (.ok false) w
  | failed {e : ScanError} {w : ScanView} (hplaced : Placed w) (hbounds : bounds w = bounds v)
      (hvisited : w.visited = v.visited) : Moves v (.error e) w

theorem handOut_moves (hopen : s.isClosed = false) (hmore : s.visited < s.upperBound)
    (hbatch : s.batch.Rectangular s.fields) (hs : Fitted s.view)
    (hahead : s.batch.rows = 0 ∨ s.position < s.batch.rows) :
    Moves s.view s.handOut.result s.handOut.scan.view := by
  unfold handOut
  simp only
  by_cases hrows : s.batch.rows = 0
  · rw [if_pos hrows]
    exact .ended (isClosed_close _)
  · rw [if_neg hrows]
    refine .row ⟨hopen, hahead.resolve_left hrows, hmore, hbatch, fun _ => ?_⟩
      (Nat.succ_pos _) rfl rfl
    exact ⟨hs.queryOpen, hs.nodup, hs.stored, hs.buffers, hs.registered⟩

/-- A step hands out the next row, ends the scan, or fails and leaves it in its place. -/
theorem step_moves (hs : Placed s.view) : Moves s.view s.step.result s.step.scan.view := by
  have hopen : s.isClosed = false := hs.isOpen
  unfold step
  rw [if_neg (by simp [hopen])]
  split_ifs with hbound hrows hdone
  · exact .ended (isClosed_close s)
  · have hmore : s.visited < s.upperBound := Nat.not_le.1 hbound
    exact handOut_moves hopen hmore hs.batch (hs.fitted (Nat.zero_lt_of_lt hmore)) (Or.inr hrows)
  · exact .ended (isClosed_close s)
  · have hmore : s.visited < s.upperBound := Nat.not_le.1 hbound
    have hfetch := fetch_stands submitLimit (hs.fitted (Nat.zero_lt_of_lt hmore)) hs.batch
    have hkept := hfetch.refetched
    have hbounds : bounds (fetch submitLimit s).scan.view = bounds s.view :=
      Prod.ext hkept.fields hkept.upperBound
    generalize fetch submitLimit s = o at hfetch hkept hbounds ⊢
    rcases o with ⟨e | ⟨⟩, t⟩
    · -- the old batch is still there, and the position is no further in it
      obtain ⟨hsame, hle⟩ := hfetch.behind (fun h => nomatch h)
      rw [Outcome.andThen_error]
      refine .failed ⟨hkept.isClosed.trans hopen, ?_, ?_, hkept.batch, fun _ => hkept.fitted⟩
        hbounds hkept.visited
      · show t.position ≤ t.batch.rows
        rw [hsame]
        exact hle.trans hs.position_le
      · rw [hkept.visited, hkept.upperBound]
        exact hs.visited_le
    · have hvisited : t.visited = s.visited := hkept.visited
      have hupper : t.upperBound = s.upperBound := hkept.upperBound
      have hmoves := handOut_moves (hkept.isClosed.trans hopen) (hvisited ▸ hupper ▸ hmore)
        hkept.batch hkept.fitted (hfetch.ahead rfl)
      rw [Outcome.andThen_ok]
      generalize t.handOut = o at hmoves ⊢
      rcases o with ⟨result, u⟩
      cases hmoves with
      | row hplaced hposition hsame hnext =>
          exact .row hplaced hposition (hsame.trans hbounds)
            (hnext.trans (congrArg (· + 1) hvisited))
      | ended hclosed => exact .ended hclosed
      | failed hplaced hsame hnext =>
          exact .failed hplaced (hsame.trans hbounds) (hnext.trans hvisited)

/-! ## Calls -/

theorem advance_moves (hs : Placed s.view) :
    Moves s.view s.advance.result s.advance.scan.view := by
  rw [advance, timed_result, timed_view]
  exact step_moves (s := s.now.2) hs

section

variable {Q : Type} [QueryEngine Q]

/-- Whether a call hands out a row. -/
def givesRow (s : Scan Q) : Call → Bool
  | .advance => decide (s.advance.result = .ok true)
  | _ => false

/-- How many rows calls hand out. -/
def rowCount (s : Scan Q) : List Call → Nat
  | [] => 0
  | c :: rest => (s.givesRow c).toNat + (s.afterCall c).rowCount rest

theorem rowCount_of_isClosed {s : Scan Q} (h : s.isClosed = true) (calls : List Call) :
    s.rowCount calls = 0 := by
  induction calls generalizing s with
  | nil => rfl
  | cons c rest ih =>
      have hnone : s.givesRow c = false := by
        cases c with
        | advance => simp [givesRow, (noRows_of_isClosed h).1]
        | close => rfl
        | openTime => rfl
        | observe => rfl
      rw [rowCount, hnone, ih ((afterCall_of_isClosed h c).isClosed.trans h)]
      rfl

end

/-- Where calls that handed out `n` rows have left an open scan: it is closed, after no more rows
    than there could be, or it is open and has counted them. -/
inductive Counted (v : ScanView) (n : Nat) (w : ScanView) : Prop
  | closed (hclosed : w.isClosed = true) (hle : v.visited + n ≤ v.upperBound)
  | placed (hplaced : Placed w) (hbounds : bounds w = bounds v)
      (hvisited : w.visited = v.visited + n)

theorem Counted.after {v w x : ScanView} {m n : Nat} (hbounds : bounds w = bounds v)
    (hvisited : w.visited = v.visited + m) (h : Counted w n x) : Counted v (m + n) x := by
  have hupper : w.upperBound = v.upperBound := congrArg Prod.snd hbounds
  cases h with
  | closed hclosed hle =>
      refine .closed hclosed ?_
      rw [← hupper, ← Nat.add_assoc, ← hvisited]
      exact hle
  | placed hplaced hsame hmore =>
      refine .placed hplaced (hsame.trans hbounds) ?_
      rw [hmore, hvisited, Nat.add_assoc]

theorem Counted.le {v w : ScanView} {n : Nat} (h : Counted v n w) :
    v.visited + n ≤ v.upperBound := by
  cases h with
  | closed _ hle => exact hle
  | placed hplaced hbounds hvisited =>
      have hupper : w.upperBound = v.upperBound := congrArg Prod.snd hbounds
      rw [← hvisited, ← hupper]
      exact hplaced.visited_le

/-- Once a scan has closed there are no more rows to count. -/
theorem Counted.of_isClosed {v : ScanView} (hv : v.visited ≤ v.upperBound)
    (hs : s.isClosed = true) (calls : List Call) :
    Counted v (s.rowCount calls) (s.afterCalls calls).view := by
  refine .closed ((afterCalls_of_isClosed hs calls).isClosed.trans hs) ?_
  rw [rowCount_of_isClosed hs]
  exact hv

/-- Calls to an open scan count the rows that they hand out. -/
theorem afterCalls_counted (hs : Placed s.view) (calls : List Call) :
    Counted s.view (s.rowCount calls) (s.afterCalls calls).view := by
  induction calls generalizing s with
  | nil => exact .placed hs rfl rfl
  | cons c rest ih =>
      show Counted s.view ((s.givesRow c).toNat + (s.afterCall c).rowCount rest)
        ((s.afterCall c).afterCalls rest).view
      -- a call that leaves the view alone counts for nothing
      have hquiet : (s.afterCall c).view = s.view → s.givesRow c = false →
          Counted s.view ((s.givesRow c).toNat + (s.afterCall c).rowCount rest)
            ((s.afterCall c).afterCalls rest).view := by
        intro hview hnone
        rw [hnone]
        exact (ih (hview ▸ hs)).after (by rw [hview]) (by rw [hview]; rfl)
      cases c with
      | advance =>
          have hmoves := advance_moves hs
          simp only [givesRow, afterCall]
          generalize s.advance = o at hmoves ⊢
          rcases o with ⟨result, t⟩
          cases hmoves with
          | row hplaced _ hbounds hvisited => exact (ih hplaced).after hbounds hvisited
          | ended hclosed =>
              rw [show decide ((.ok false : Except ScanError Bool) = .ok true) = false from rfl]
              rw [Bool.toNat_false, Nat.zero_add]
              exact .of_isClosed hs.visited_le hclosed rest
          | failed hplaced hbounds hvisited => exact (ih hplaced).after hbounds hvisited
      | close =>
          rw [show s.givesRow .close = false from rfl, Bool.toNat_false, Nat.zero_add]
          exact .of_isClosed hs.visited_le (isClosed_close s) rest
      | openTime => exact hquiet (openTime_same s).1 rfl
      | observe => exact hquiet rfl rfl

/-! ## The start -/

/-- There can be as many rows as the query estimates for the first field; there can be none where
    no estimate was asked for. -/
def Estimated (v : ScanView) : Prop :=
  v.upperBound = 0 ∨ ∃ f rest e, v.fields = f :: rest ∧
    v.query.estimate f.name f.shape = .ok e ∧ v.upperBound = e.cells

/-- A scan that has handed out nothing yet. -/
structure Begun (v : ScanView) : Prop where
  placed : Placed v
  visited : v.visited = 0
  estimated : Estimated v

/-- Where a scan is before it has buffers. -/
theorem begun_of_fresh {q : TiledQuery} {fields : List Field}
    (h : s.view = { freshView q with fields }) : Begun s.view := by
  rw [h]
  exact ⟨⟨rfl, le_rfl, le_rfl, Or.inl rfl, fun hpos => absurd hpos (Nat.lt_irrefl 0)⟩, rfl,
    Or.inl rfl⟩

theorem provideBuffers_begun {q : TiledQuery} {fields : List Field}
    (hview : s.view = { freshView q with fields }) (hnodup : (fields.map Field.name).Nodup)
    (h : s.provideBuffers.result = .ok ()) : Begun s.provideBuffers.scan.view := by
  obtain ⟨es, bs, hall, hfurnished, hscan⟩ :=
    provideBuffers_eq h (congrArg ScanView.buffers hview)
  have hbs := fieldBuffers_of_furnished hfurnished
  have hfields : s.fields = fields := congrArg ScanView.fields hview
  have hquery : s.query = q := congrArg ScanView.query hview
  rw [hfields] at hbs hall
  rw [hquery] at hall
  have hafter : s.provideBuffers.scan.view = { s.view with
      buffers := bs
      upperBound := (es.head?.map (·.cells)).getD 0
      query := { s.query with
        registered :=
          TiledQuery.putAll (bs.map NamedBuffers.registration) s.query.registered } } :=
    congrArg view hscan
  rw [hafter, hview, hquery]
  refine ⟨⟨rfl, le_rfl, Nat.zero_le _, Or.inl rfl, ?_⟩, rfl, ?_⟩
  · intro hpos
    refine ⟨?_, hnodup, storedFields_of_estimates hall, hbs, ?_⟩
    · cases hall with
      | nil => exact absurd hpos (Nat.lt_irrefl 0)
      | cons he _ => exact TiledQuery.isOpen_of_whileOpen he
    · intro f hf
      refine TiledQuery.mem_putAll_names.2 (Or.inl ?_)
      rw [List.map_map]
      show f.name ∈ bs.map (·.name)
      rw [forall₂_names hbs]
      exact List.mem_map.2 ⟨f, hf, rfl⟩
  · cases hall with
    | nil => exact Or.inl rfl
    | cons he _ => exact Or.inr ⟨_, _, _, rfl, he, rfl⟩

theorem start_begun {q : TiledQuery} {id : ScanId} {settings : ScanSettings}
    {columns : List Column} {constraints : Constraints} {memory : Source UInt64}
    {clock : Source Nat}
    (hs : start q id settings columns constraints memory clock = ⟨.ok (), s⟩) : Begun s.view := by
  obtain ⟨hproject, hprepared⟩ := start_prepared hs
  rcases hprepared with ⟨query, h⟩ | ⟨u, query, h, hok, hsame⟩
  · exact begun_of_fresh h.view
  · rw [hsame.view]
    exact provideBuffers_begun h.view (project_spec hproject).1.nodup hok

end Scan

/-! ## Reading the current row -/

/-- Whether an error says that a row or a field is missing. -/
def ScanError.isMissing : ScanError → Bool
  | .noCurrentRow | .noSuchField _ => true
  | _ => false

/-- The answer is not that something is missing. -/
def Reaches {α : Type} (answer : Except ScanError α) : Prop :=
  ∀ e, answer = .error e → e.isMissing = false

section

variable {α : Type}

theorem reaches_ok (x : α) : Reaches (.ok x) := fun _ h => nomatch h

theorem reaches_error {e : ScanError} (he : e.isMissing = false) :
    Reaches (.error e : Except ScanError α) := by
  rintro _ ⟨⟩
  exact he

end

namespace FieldBatch

variable {b : FieldBatch} {row : Nat}

theorem bytesAt_reaches (h : row < b.rows) : Reaches (b.bytesAt row) := by
  unfold bytesAt
  rw [if_neg (Nat.not_le.2 h)]
  split
  · exact reaches_error rfl
  · split
    · exact reaches_ok _
    · exact reaches_error rfl

/-- An answer that fails only as the bytes of the row do, or on a value, reaches it. -/
theorem reaches_of_bytesAt {α : Type} {answer : Except ScanError α} (h : row < b.rows)
    (hfails : ∀ e, answer = .error e → b.bytesAt row = .error e ∨ ∃ v, e = .value v) :
    Reaches answer := by
  intro e he
  rcases hfails e he with hbytes | ⟨v, rfl⟩
  · exact bytesAt_reaches h e hbytes
  · rfl

theorem long_reaches (h : row < b.rows) : Reaches (b.long row) :=
  reaches_of_bytesAt h fun _ => long_eq_error

theorem double_reaches (h : row < b.rows) : Reaches (b.double row) :=
  reaches_of_bytesAt h fun _ => double_eq_error

theorem boolean_reaches (h : row < b.rows) : Reaches (b.boolean row) :=
  reaches_of_bytesAt h fun _ => boolean_eq_error

end FieldBatch

namespace Scan

variable {s t : Scan TiledQuery}

/-- The current row exists in the field at a position, and whatever is read of it is not missing. -/
structure HasRow (s : Scan TiledQuery) (ordinal : Nat) : Prop where
  current : ∃ b row, s.current ordinal = .ok (b, row) ∧ row < b.rows
  columnType : ∃ c, s.columnType ordinal = .ok c
  long : Reaches (s.long ordinal)
  double : Reaches (s.double ordinal)
  boolean : Reaches (s.boolean ordinal)
  bytes : Reaches (s.bytes ordinal)
  isNull : Reaches (s.isNull ordinal)

/-- A scan that stands on a row reaches it in every field. -/
theorem Placed.hasRow (hs : Placed s.view) (hpos : 0 < s.position) {ordinal : Nat}
    (hlt : ordinal < s.fields.length) : HasRow s ordinal := by
  have hle : s.position ≤ s.batch.rows := hs.position_le
  obtain ⟨-, hcopies⟩ : 0 < s.batch.rows ∧ List.Forall₂
      (fun f (fb : FieldBatch) => fb.Copies f s.batch.rows) s.fields s.batch.fields := by
    refine hs.batch.resolve_left fun hnone => ?_
    have hrows : s.batch.rows = 0 := by
      rw [RowBatch.rows, show s.batch.fields = [] from hnone]
    omega
  obtain ⟨b, hb, hcopy⟩ := forall₂_getElem? hcopies (List.getElem?_eq_getElem hlt)
  have hcurrent : s.current ordinal = .ok (b, s.position - 1) := by
    have hclosed : ¬ (s.isClosed = true ∨ s.position = 0) := by
      rw [show s.isClosed = false from hs.isOpen]
      simp only [Bool.false_eq_true, false_or]
      omega
    rw [current, if_neg hclosed, RowBatch.field, hb]
  have hrow : s.position - 1 < b.rows := by
    rw [hcopy.rows]
    omega
  have hread : ∀ {α : Type} (read : FieldBatch → Nat → Except ScanError α),
      Reaches (read b (s.position - 1)) → Reaches (s.readCurrent ordinal read) := by
    intro α read hreaches
    rw [readCurrent, hcurrent]
    exact hreaches
  refine ⟨⟨b, _, hcurrent, hrow⟩, ?_, ?_, ?_, ?_, ?_, ?_⟩
  · rw [columnType, List.getElem?_eq_getElem hlt]
    exact ⟨_, rfl⟩
  · exact hread _ (FieldBatch.long_reaches hrow)
  · exact hread _ (FieldBatch.double_reaches hrow)
  · exact hread _ (FieldBatch.boolean_reaches hrow)
  · exact hread _ (FieldBatch.bytesAt_reaches hrow)
  · exact hread _ (reaches_ok _)

/-! ## Whole runs -/

/-- Calls that neither advance nor close a scan. -/
def Quiet (calls : List Call) : Prop := ∀ c ∈ calls, c = .openTime ∨ c = .observe

theorem Quiet.view {calls : List Call} (h : Quiet calls) :
    (s.afterCalls calls).view = s.view := by
  induction calls generalizing s with
  | nil => rfl
  | cons c rest ih =>
      refine (ih fun c hc => h c (List.mem_cons_of_mem _ hc)).trans ?_
      rcases h c (List.mem_cons_self ..) with rfl | rfl
      · exact (openTime_same s).1
      · rfl

/-- A scan over a query in any state, after any calls, with any readings of the memory and the time.
    While it is open it stands inside its batch, which is empty or copies every field with the same
    rows, and it has counted the rows that it handed out, of which there are no more than the bound
    from the start. The bound is the estimate for the first field, or none where nothing was
    estimated. Once a call has handed out a row, every field has it until the next such call. -/
theorem start_stays_in_batch {q : TiledQuery} {id : ScanId} {settings : ScanSettings}
    {columns : List Column} {constraints : Constraints} {memory : Source UInt64}
    {clock : Source Nat}
    (hs : start q id settings columns constraints memory clock = ⟨.ok (), s⟩) :
    Estimated s.view ∧ ∀ calls : List Call, let t := s.afterCalls calls
      s.rowCount calls ≤ s.upperBound ∧
      (t.isClosed = false →
        t.position ≤ t.batch.rows ∧ t.visited ≤ t.upperBound ∧ t.batch.Rectangular t.fields ∧
        t.fields = s.fields ∧ t.upperBound = s.upperBound ∧ t.visited = s.rowCount calls) ∧
      (t.advance.result = .ok true → ∀ quiet, Quiet quiet →
        ∀ ordinal < s.fields.length, HasRow (t.advance.scan.afterCalls quiet) ordinal) := by
  have hbegun := start_begun hs
  have hzero : s.visited = 0 := hbegun.visited
  refine ⟨hbegun.estimated, ?_⟩
  intro calls t
  have hcounted := afterCalls_counted hbegun.placed calls
  refine ⟨?_, ?_, ?_⟩
  · exact (Nat.le_add_left _ _).trans hcounted.le
  · intro hopen
    cases hcounted with
    | closed hclosed hle => exact absurd (hopen.symm.trans hclosed) Bool.false_ne_true
    | placed hplaced hbounds hvisited =>
        refine ⟨hplaced.position_le, hplaced.visited_le, hplaced.batch, congrArg Prod.fst hbounds,
          congrArg Prod.snd hbounds, hvisited.trans ?_⟩
        rw [show s.view.visited = 0 from hzero, Nat.zero_add]
  · intro hrow quiet hquiet ordinal hlt
    cases hcounted with
    | closed hclosed hle =>
        rw [(noRows_of_isClosed (show t.isClosed = true from hclosed)).1] at hrow
        cases hrow
    | placed hplaced hbounds hvisited =>
        have hmoves := advance_moves (s := t) hplaced
        have hview : (t.advance.scan.afterCalls quiet).view = t.advance.scan.view := hquiet.view
        generalize t.advance.scan.afterCalls quiet = u at hview ⊢
        rw [hrow, ← hview] at hmoves
        cases hmoves with
        | row hnext hposition hsame hmore =>
            refine hnext.hasRow hposition ?_
            rw [show u.fields = _ from congrArg Prod.fst hsame]
            exact lt_of_lt_of_eq hlt (congrArg (List.length ∘ Prod.fst) hbounds).symm

/-- A scan whose first call lacks memory: the next advance hands out a row, and so does the one
    after it, whose row can be read. -/
theorem pairScan_stays_in_batch :
    let t := pairScan.scan.afterCalls [.advance, .observe, .advance]
    t.isClosed = false ∧ t.position ≤ t.batch.rows ∧ t.batch.Rectangular t.fields ∧
      t.visited = 1 ∧ pairScan.scan.rowCount [.advance, .observe, .advance] = 1 ∧
      1 ≤ pairScan.scan.upperBound ∧
      HasRow (t.advance.scan.afterCalls [.openTime]) 0 := by
  intro t
  have hstart : pairScan = ⟨.ok (), pairScan.scan⟩ := by
    have hresult : pairScan.result = .ok () := by decide +kernel
    rw [← hresult]
  obtain ⟨-, hruns⟩ := start_stays_in_batch hstart
  obtain ⟨hle, hopen, hrow⟩ := hruns [.advance, .observe, .advance]
  have hcount : pairScan.scan.rowCount [.advance, .observe, .advance] = 1 := by decide +kernel
  have hclosed : t.isClosed = false := by decide +kernel
  obtain ⟨hposition, -, hbatch, -, -, hvisited⟩ := hopen hclosed
  rw [hcount] at hle hvisited
  refine ⟨hclosed, hposition, hbatch, hvisited, hcount, hle, ?_⟩
  exact hrow (by decide +kernel) [.openTime] (by simp [Quiet]) 0 (by decide +kernel)

end Scan

end SparseScan
