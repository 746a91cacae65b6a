import SparseScan.Proofs.Scan.Batch
import SparseScan.Proofs.Scan.Calls
import SparseScan.Scan.Row

set_option autoImplicit false

/-! # Scans that serve a selection

`Serves` is the invariant of an open scan between two calls: the query has handed out a prefix of
the selected cells, the batch holds the last of them, and the scan has handed out all but the rest
of the batch. `fetch_serves` keeps it over any number of submits and growths. -/

namespace SparseScan

open TiledArray (StoredField)

/-! ## Batches -/

/-- Every field of the batch shows what is stored in the cells, as far as the field decodes it. -/
def RowBatch.Shows (b : RowBatch) (a : TiledArray) (fields : List Field) (cells : List Cell) :
    Prop :=
  List.Forall₂ (fun f (fb : FieldBatch) => fb.rows = cells.length ∧
    ∀ st, a.stored? f.name = some st → FieldBatch.Decodes f st → fb.Shows st cells) fields b.fields

theorem RowBatch.Shows.rows {b : RowBatch} {a : TiledArray} {fields : List Field}
    {cells : List Cell} (h : b.Shows a fields cells) (hne : fields ≠ []) :
    b.rows = cells.length := by
  obtain ⟨batch⟩ := b
  cases h with
  | nil => exact absurd rfl hne
  | cons hf _ => exact hf.1

/-- Each field is stored, in the shape that the scan expects. -/
def StoredFields (a : TiledArray) (fields : List Field) : Prop :=
  ∀ f ∈ fields, ∃ st, a.stored? f.name = some st ∧ st.shape = f.shape

section

variable {a : TiledArray} {q : TiledQuery} {fields : List Field}
  {buffers filled : List NamedBuffers}
  {cells : List Cell}

/-- What is read of the first field after a submit are the cells that it took. -/
theorem rowsRead_of_wrote (hq : q.array = a) (hne : fields ≠ []) (hstored : StoredFields a fields)
    (hbuffers : List.Forall₂ FieldBuffers fields buffers)
    (hwrote : List.Forall₂ (q.Wrote cells) buffers filled) :
    Scan.rowsRead fields q.counts = .ok cells.length := by
  cases hbuffers with
  | nil => exact absurd rfl hne
  | @cons f b fields buffers hb _ =>
      cases hwrote with
      | cons hw _ =>
          obtain ⟨st, s, hst, -, -, hcounts⟩ := hw.filled
          obtain ⟨st', hst', hshape⟩ := hstored f (List.mem_cons_self ..)
          rw [hq, hb.name, hst', Option.some.injEq] at hst
          subst hst
          have hvar : st'.shape.varLen = f.varLen := by rw [hshape]; rfl
          rw [hb.name] at hcounts
          simp only [Scan.rowsRead, hcounts, TiledQuery.countsOf, hvar]
          cases f.varLen <;> rfl

/-- A batch copied after a submit shows the cells that it took. -/
theorem shows_of_wrote {batch : List FieldBatch} (ha : a.Sound) (hq : q.array = a)
    (hcells : ∀ c ∈ cells, c ∈ a.cells) (hstored : StoredFields a fields)
    (hbuffers : List.Forall₂ FieldBuffers fields buffers)
    (hwrote : List.Forall₂ (q.Wrote cells) buffers filled)
    (hload : List.Forall₂ (fun (fb : Field × NamedBuffers) out =>
      FieldBatch.ofBuffers fb.1 fb.2.buffers ((q.counts.lookup fb.1.name).getD {}) = .ok out)
        (fields.zip filled) batch) :
    RowBatch.Shows ⟨batch⟩ a fields cells := by
  induction hbuffers generalizing filled batch with
  | nil =>
      cases hload
      exact .nil
  | @cons f b fields buffers hb _ ih =>
      cases hwrote with
      | @cons _ b' _ filled hw hws =>
          cases hload with
          | @cons _ out _ batch hout houts =>
              refine .cons ?_ (ih (fun g hg => hstored g (List.mem_cons_of_mem _ hg)) hws houts)
              obtain ⟨st, s, hst, hfill, rfl, hcounts⟩ := hw.filled
              obtain ⟨st', hst', hshape⟩ := hstored f (List.mem_cons_self ..)
              rw [hq, hb.name, hst', Option.some.injEq] at hst
              subst hst
              simp only [← hb.name, hcounts, Option.getD_some] at hout
              refine ⟨FieldBatch.ofBuffers_rows hshape hout, ?_⟩
              intro st hst hdec
              rw [hst', Option.some.injEq] at hst
              subst hst
              exact FieldBatch.ofBuffers_shows hdec hb.offsets hb.validity
                (fun c hc => TiledArray.value?_spec hst' (ha.fits c (hcells c hc))) hfill hout

end

/-! ## The invariant -/

/-- The scan is open and hands out the rows of `sel` in order. -/
structure Serves (a : TiledArray) (sel : List Cell) (v : ScanView) : Prop where
  isOpen : v.isClosed = false
  queryOpen : v.query.closed = false
  array : v.query.array = a
  selected : v.query.selected = sel
  registered : v.query.registered = v.buffers.map NamedBuffers.registration
  fields : ProjectedFields a v.fields
  stored : StoredFields a v.fields
  buffers : List.Forall₂ FieldBuffers v.fields v.buffers
  upperBound : v.upperBound = sel.length
  visited_le : v.visited ≤ sel.length
  position_le_visited : v.position ≤ v.visited
  position_le_rows : v.position ≤ v.batch.rows
  /-- The query is ahead of the scan by the rest of the batch. -/
  delivered : v.query.delivered = v.visited + (v.batch.rows - v.position)
  completed : v.status = .completed → sel.length ≤ v.query.delivered
  batch : v.batch.rows ≠ 0 → v.batch.Shows a v.fields
    ((sel.drop (v.visited - v.position)).take v.batch.rows)

theorem Serves.names_nodup {a : TiledArray} {sel : List Cell} {v : ScanView}
    (hs : Serves a sel v) : (v.buffers.map (·.name)).Nodup := by
  rw [forall₂_names hs.buffers]
  exact hs.fields.nodup

namespace Scan

variable {a : TiledArray} {sel : List Cell} {s : Scan TiledQuery}

/-! ## Fetching -/

theorem capacities_of_sameLayout {b b' : ElementBuffers} (h : TiledQuery.SameLayout b b') :
    b'.capacities = b.capacities := by
  obtain ⟨hoffsets, hvalues, hvalidity⟩ := h
  have hfst := congrArg (Option.map Prod.snd) hoffsets
  have hsnd := congrArg (Option.map Prod.snd) hvalidity
  simp only [Option.map_map, Function.comp_def] at hfst hsnd
  simp only [Prod.mk.injEq] at hvalues
  simp only [ElementBuffers.capacities, hfst, hsnd, hvalues.2]

theorem registration_of_wrote {q : TiledQuery} {cells : List Cell}
    {buffers filled : List NamedBuffers} (h : List.Forall₂ (q.Wrote cells) buffers filled) :
    filled.map NamedBuffers.registration = buffers.map NamedBuffers.registration := by
  refine map_eq_map_of_forall₂ h ?_
  intro b b' hw
  obtain ⟨st, s, -, hfill, rfl, -⟩ := hw.filled
  simp only [NamedBuffers.registration, capacities_of_sameLayout (TiledQuery.fill_spec hfill).1]

/-- What a submit makes of a scan whose batch is used up: the batch stays, and the buffers hold the
    next cells, perhaps none. -/
structure Submitted (a : TiledArray) (sel : List Cell) (v w : ScanView) (cells : List Cell) :
    Prop where
  fields : w.fields = v.fields
  batch : w.batch = v.batch
  position : w.position = v.position
  visited : w.visited = v.visited
  upperBound : w.upperBound = v.upperBound
  isClosed : w.isClosed = v.isClosed
  queryClosed : w.query.closed = v.query.closed
  array : w.query.array = a
  selected : w.query.selected = sel
  registered : w.query.registered = w.buffers.map NamedBuffers.registration
  chose : v.query.Chose cells
  wrote : List.Forall₂ (w.query.Wrote cells) v.buffers w.buffers
  next : cells = (sel.drop v.visited).take cells.length
  delivered : w.query.delivered = v.visited + cells.length
  status : w.status = if sel.length ≤ v.visited + cells.length then .completed else .incomplete

/-- The query says that it is done only when the rows that it handed out are all there are. -/
theorem Submitted.length_le_of_completed {v w : ScanView} {cells : List Cell}
    (hw : Submitted a sel v w cells) (hdone : w.status = .completed) :
    sel.length ≤ v.visited + cells.length := by
  have hstatus := hw.status
  by_contra hlt
  rw [if_neg hlt, hdone] at hstatus
  cases hstatus

theorem submit_of_serves {status : Progress} (hs : Serves a sel s.view)
    (hpos : s.position = s.batch.rows) (h : s.submit.result = .ok status) :
    s.submit.scan.status = status ∧ ∃ cells, Submitted a sel s.view s.submit.scan.view cells := by
  obtain ⟨filled, query, hsubmit, hview⟩ := submit_eq_ok h
  obtain ⟨ts, hts, htook, hstatus, hwrote⟩ :=
    TiledQuery.submit_spec hsubmit hs.registered hs.names_nodup
  have hchose := TiledQuery.chose_batch hts
  generalize s.query.batch ts = cells at htook hchose hwrote
  have hdelivered : s.query.delivered = s.visited := by
    rw [show s.query.delivered = _ from hs.delivered]
    show s.visited + (s.batch.rows - s.position) = s.visited
    omega
  have hselected : s.query.selected = sel := hs.selected
  have hnext : query.delivered = s.visited + cells.length := by
    rw [htook.delivered, hdelivered]
  refine ⟨congrArg ScanView.status hview, cells, ?_⟩
  rw [hview]
  refine ⟨rfl, rfl, rfl, rfl, rfl, rfl, htook.closed, htook.array.trans hs.array,
    htook.selected.trans hs.selected, ?_, hchose, hwrote, ?_, hnext, ?_⟩
  · show query.registered = filled.map _
    rw [htook.registered, registration_of_wrote hwrote]
    exact hs.registered
  · obtain ⟨n, hn⟩ := htook.prefixed
    rw [TiledQuery.remaining, hselected, hdelivered] at hn
    show cells = (sel.drop s.visited).take cells.length
    rw [hn, List.length_take, List.take_eq_take_min]
  · show status = _
    rw [hstatus, htook.status, hselected, hnext, view]

theorem fieldBuffers_of_wrote {q : TiledQuery} {cells : List Cell} {fields : List Field}
    {buffers filled : List NamedBuffers} (h : List.Forall₂ FieldBuffers fields buffers)
    (hwrote : List.Forall₂ (q.Wrote cells) buffers filled) :
    List.Forall₂ FieldBuffers fields filled := by
  induction h generalizing filled with
  | nil =>
      cases hwrote
      exact .nil
  | cons hb _ ih =>
      cases hwrote with
      | cons hw hws =>
          obtain ⟨st, s, -, hfill, rfl, -⟩ := hw.filled
          exact .cons (hb.fill hfill) (ih hws)

theorem fieldBuffers_of_double {fields : List Field} {buffers grown : List NamedBuffers}
    (h : List.Forall₂ FieldBuffers fields buffers)
    (hgrown : List.Forall₂ (fun b b' => NamedBuffers.double b = .ok b') buffers grown) :
    List.Forall₂ FieldBuffers fields grown := by
  induction h generalizing grown with
  | nil =>
      cases hgrown
      exact .nil
  | cons hb _ ih =>
      cases hgrown with
      | cons hg hgs => exact .cons (hb.double hg) (ih hgs)

section

variable {v w : ScanView} {cells : List Cell}

/-- The view after a submit and the copy of what it wrote. -/
theorem Submitted.serves_load {batch : List FieldBatch} (ha : a.Sound)
    (hsel : ∀ c ∈ sel, c ∈ a.cells) (hv : Serves a sel v) (hw : Submitted a sel v w cells)
    (hload : List.Forall₂ (fun (fb : Field × NamedBuffers) out =>
      FieldBatch.ofBuffers fb.1 fb.2.buffers ((w.query.counts.lookup fb.1.name).getD {}) = .ok out)
        (w.fields.zip w.buffers) batch) :
    Serves a sel { w with position := 0, batch := ⟨batch⟩ } ∧
      (⟨batch⟩ : RowBatch).rows = cells.length := by
  have hfields := hw.fields
  have hvisited := hw.visited
  have hcells : ∀ c ∈ cells, c ∈ a.cells := by
    intro c hc
    rw [hw.next] at hc
    exact hsel c (List.mem_of_mem_drop (List.mem_of_mem_take hc))
  rw [hfields] at hload
  have hshows := shows_of_wrote ha hw.array hcells hv.stored hv.buffers hw.wrote hload
  have hrows := hshows.rows hv.fields.ne_nil
  refine ⟨?_, hrows⟩
  exact
    { isOpen := hw.isClosed.trans hv.isOpen
      queryOpen := hw.queryClosed.trans hv.queryOpen
      array := hw.array
      selected := hw.selected
      registered := hw.registered
      fields := hfields ▸ hv.fields
      stored := hfields ▸ hv.stored
      buffers := hfields ▸ fieldBuffers_of_wrote hv.buffers hw.wrote
      upperBound := hw.upperBound.trans hv.upperBound
      visited_le := hvisited ▸ hv.visited_le
      position_le_visited := Nat.zero_le _
      position_le_rows := Nat.zero_le _
      delivered := by rw [hw.delivered, hrows, hvisited, Nat.sub_zero]
      completed := by
        intro hdone
        rw [hw.delivered]
        exact hw.length_le_of_completed hdone
      batch := by
        intro _
        rw [hrows, hvisited, Nat.sub_zero, ← hw.next, hfields]
        exact hshows }

/-- The view after a submit that took nothing. -/
theorem Submitted.serves_idle (hv : Serves a sel v) (hw : Submitted a sel v w [])
    (hpos : v.position = v.batch.rows) (hmore : v.visited < sel.length) : Serves a sel w := by
  have hfields := hw.fields
  have hvisited := hw.visited
  exact
    { isOpen := hw.isClosed.trans hv.isOpen
      queryOpen := hw.queryClosed.trans hv.queryOpen
      array := hw.array
      selected := hw.selected
      registered := hw.registered
      fields := hfields ▸ hv.fields
      stored := hfields ▸ hv.stored
      buffers := hfields ▸ fieldBuffers_of_wrote hv.buffers hw.wrote
      upperBound := hw.upperBound.trans hv.upperBound
      visited_le := hvisited ▸ hv.visited_le
      position_le_visited := by
        rw [hw.position, hvisited]
        exact hv.position_le_visited
      position_le_rows := by
        rw [hw.position, hw.batch]
        exact hv.position_le_rows
      delivered := by
        rw [hw.delivered, hvisited, hw.position, hw.batch, hpos, Nat.sub_self, List.length_nil]
      completed := by
        -- rows are missing, so the query does not say that it is done
        intro hdone
        exact absurd (hw.length_le_of_completed hdone) (Nat.not_le.2 hmore)
      batch := by
        rw [hvisited, hw.position, hw.batch, hfields]
        exact hv.batch }

/-- The view after its buffers have grown. -/
theorem Serves.grown {grown : List NamedBuffers} (hv : Serves a sel v)
    (hgrown : List.Forall₂ (fun b b' => NamedBuffers.double b = .ok b') v.buffers grown) :
    Serves a sel { v with
      buffers := grown
      query := { v.query with registered := grown.map NamedBuffers.registration } } where
  isOpen := hv.isOpen
  queryOpen := hv.queryOpen
  array := hv.array
  selected := hv.selected
  registered := rfl
  fields := hv.fields
  stored := hv.stored
  buffers := fieldBuffers_of_double hv.buffers hgrown
  upperBound := hv.upperBound
  visited_le := hv.visited_le
  position_le_visited := hv.position_le_visited
  position_le_rows := hv.position_le_rows
  delivered := hv.delivered
  completed := hv.completed
  batch := hv.batch

end

/-- After a submit that took nothing, the growth of the buffers leaves the scan where it was. -/
theorem grow_serves {t : Scan TiledQuery} (hs : Serves a sel s.view)
    (hw : Submitted a sel s.view t.view []) (hpos : s.position = s.batch.rows)
    (hmore : s.visited < sel.length) (h : (t.timed "grow_buffers" grow).result = .ok ()) :
    Serves a sel (t.timed "grow_buffers" grow).scan.view ∧
      (t.timed "grow_buffers" grow).scan.position = s.position ∧
      (t.timed "grow_buffers" grow).scan.visited = s.visited ∧
      (t.timed "grow_buffers" grow).scan.fields = s.fields ∧
      (t.timed "grow_buffers" grow).scan.batch = s.batch := by
  have hidle : Serves a sel t.view := hw.serves_idle hs hpos hmore
  obtain ⟨grown, hgrown, hview⟩ := grow_spec h hidle.names_nodup
  have hafter : (t.timed "grow_buffers" grow).scan.view = _ := (timed_view _ _ _).trans hview
  refine ⟨?_, ?_, ?_, ?_, ?_⟩
  · rw [hafter]
    exact Serves.grown hidle hgrown
  · exact (congrArg ScanView.position hafter).trans hw.position
  · exact (congrArg ScanView.visited hafter).trans hw.visited
  · exact (congrArg ScanView.fields hafter).trans hw.fields
  · exact (congrArg ScanView.batch hafter).trans hw.batch

/-- Fetching brings the next rows of the selection, over any number of submits and growths. -/
theorem fetch_serves (ha : a.Sound) (hsel : ∀ c ∈ sel, c ∈ a.cells) {fuel : Nat}
    (hs : Serves a sel s.view) (hpos : s.position = s.batch.rows) (hmore : s.visited < sel.length)
    (h : (fetch fuel s).result = .ok ()) :
    Serves a sel (fetch fuel s).scan.view ∧ (fetch fuel s).scan.position = 0 ∧
      (fetch fuel s).scan.visited = s.visited ∧ (fetch fuel s).scan.fields = s.fields ∧
        0 < (fetch fuel s).scan.batch.rows := by
  induction fuel generalizing s with
  | zero => cases h
  | succ fuel ih =>
      unfold fetch at h ⊢
      obtain ⟨status, hsubmit, hnext⟩ := Outcome.andThen_ok_inv h
      rw [hnext] at h ⊢
      obtain ⟨hstatus, cells, hw⟩ := submit_of_serves hs hpos hsubmit
      obtain ⟨counts, hcounts, hnext⟩ := Outcome.andThen_ok_inv h
      rw [hnext] at h ⊢
      obtain ⟨hcountsEq, hscan⟩ := elementCounts_eq_ok hcounts
      subst hcountsEq
      rw [hscan] at h ⊢
      have hrows : rowsRead s.submit.scan.fields s.submit.scan.query.counts = .ok cells.length := by
        rw [show s.submit.scan.fields = s.fields from hw.fields]
        exact rowsRead_of_wrote hw.array hs.fields.ne_nil hs.stored hs.buffers hw.wrote
      simp only [hrows] at h ⊢
      have hanswer : status = if sel.length ≤ s.visited + cells.length then .completed
          else .incomplete := hstatus.symm.trans hw.status
      by_cases hnone : cells.length = 0
      · -- nothing fits the buffers, so they double and the rest of the fuel is spent
        rw [List.length_eq_zero_iff] at hnone
        subst hnone
        have hincomplete : status = .incomplete := by
          rw [hanswer, if_neg (by simpa using hmore)]
        simp only [List.length_nil, if_true, hincomplete] at h ⊢
        obtain ⟨⟨⟩, hgrow, hnext⟩ := Outcome.andThen_ok_inv h
        rw [hnext] at h ⊢
        obtain ⟨hgrown, hposition, hvisited, hfields, hbatch⟩ := grow_serves hs hw hpos hmore hgrow
        -- the batch is still used up, so the induction hypothesis applies to the grown scan
        have hused := hposition.trans (hpos.trans (congrArg RowBatch.rows hbatch).symm)
        obtain ⟨hdone, hzero, hsame, hkept, hrows⟩ :=
          ih hgrown hused (lt_of_eq_of_lt hvisited hmore) h
        exact ⟨hdone, hzero, hsame.trans hvisited, hkept.trans hfields, hrows⟩
      · -- the rows that were taken become the batch
        rw [if_neg hnone] at h ⊢
        obtain ⟨batch, hbatch, hview⟩ := load_spec h
        obtain ⟨hserves, hlen⟩ := hw.serves_load ha hsel hs hbatch
        rw [hview]
        refine ⟨hserves, congrArg ScanView.position hview, ?_, ?_, ?_⟩
        · exact (congrArg ScanView.visited hview).trans hw.visited
        · exact (congrArg ScanView.fields hview).trans hw.fields
        · rw [show (load _ _).scan.batch = ⟨batch⟩ from congrArg ScanView.batch hview, hlen]
          omega

end Scan

end SparseScan
