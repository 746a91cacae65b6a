import SparseScan.Proofs.Scan.Stages

set_option autoImplicit false

/-! # The bytes that a scan counts

A scan adds up, over the batches that it has loaded, the bytes that the query has written. It counts
elements by the width of its own buffers, although the elements of a field with lengths of their own
are bytes already (`Field.countedBytes`); what the query writes of a cell is
`StoredField.writtenBytes`. The sum runs over the cells that the query has handed out, whatever the
batches and however often the buffers grew (`Tallied`). -/

namespace SparseScan

open TiledArray (StoredField)

/-! ## The bytes of a cell -/

/-- The offset and value bytes that are written for a cell. -/
def TiledArray.StoredField.writtenBytes (st : StoredField) (c : Cell) : Nat :=
  if st.shape.varLen then offsetBytes + (st.packed c).length else (st.aligned c).length

/-- The offset and value bytes that are counted for a cell. -/
def Field.countedBytes (a : TiledArray) (f : Field) (c : Cell) : Nat :=
  (if f.varLen then offsetBytes else 0) +
    ((a.stored? f.name).map (·.elements c)).getD 0 * f.datatype.width

/-- The bytes that are counted for cells in all fields. -/
def TiledArray.countedBytes (a : TiledArray) (fields : List Field) (cells : List Cell) : Nat :=
  (fields.map fun f => (cells.map (f.countedBytes a)).sum).sum

section

variable {a : TiledArray} {fields : List Field} {cells : List Cell} {st : StoredField} {f : Field}

theorem TiledArray.countedBytes_nil : a.countedBytes fields [] = 0 := by
  simp [countedBytes]

theorem TiledArray.countedBytes_append (cells' : List Cell) :
    a.countedBytes fields (cells ++ cells') =
      a.countedBytes fields cells + a.countedBytes fields cells' := by
  simp only [countedBytes, List.map_append, List.sum_append, List.sum_map_add]

/-- What is written into the buffers of a field are the bytes of the cells. -/
theorem TiledArray.StoredField.sum_writtenBytes {s : ElementBuffers}
    (hoffsets : s.offsets.isSome = st.shape.varLen) (cells : List Cell) :
    (cells.map st.writtenBytes).sum = (if st.shape.varLen then cells.length * offsetBytes else 0) +
      (TiledQuery.valueBytes st s cells).length := by
  rw [TiledQuery.valueBytes, hoffsets, List.length_flatMap]
  have hwritten : st.writtenBytes = fun c =>
      if st.shape.varLen then offsetBytes + (st.packed c).length else (st.aligned c).length := rfl
  cases hvar : st.shape.varLen with
  | true => simp [hwritten, hvar, List.sum_map_add]
  | false => simp [hwritten, hvar]

theorem Field.countedBytes_eq (hst : a.stored? f.name = some st) : f.countedBytes a =
    fun c => (if f.varLen then offsetBytes else 0) + st.elements c * f.datatype.width := by
  funext c
  rw [countedBytes, hst]
  rfl

/-- As many bytes are counted as are written, unless an element is counted that is none. -/
theorem countedBytes_eq_iff {c : Cell} (hst : a.stored? f.name = some st)
    (hvar : st.shape.varLen = f.varLen)
    (hfits : ∀ v, st.value? c = some v → fitsField st.datatype st.shape.varLen v = true) :
    f.countedBytes a c = st.writtenBytes c ↔
      if st.shape.varLen then f.datatype.width = 1 ∨ st.packed c = []
      else st.datatype.width = f.datatype.width := by
  rw [Field.countedBytes_eq hst, TiledArray.StoredField.writtenBytes, ← hvar]
  cases hcase : st.shape.varLen with
  | true =>
      simp only [if_true, Nat.add_left_cancel_iff, ← st.packed_length hcase,
        ← List.length_eq_zero_iff]
      generalize (st.packed c).length = n
      rcases Nat.eq_zero_or_pos n with rfl | hpos
      · simp
      · rw [Nat.mul_eq_left hpos.ne', or_iff_left hpos.ne']
  | false =>
      have hone : st.elements c = 1 := by simp [TiledArray.StoredField.elements, hcase]
      simp only [Bool.false_eq_true, if_false, Nat.zero_add, hone, Nat.one_mul,
        st.aligned_length hfits hcase]
      exact eq_comm

/-- The bytes that are counted from what a submit reports. -/
theorem bytesOf_countsOf {b b' : NamedBuffers} (hst : a.stored? f.name = some st)
    (hshape : st.shape = f.shape) (hb : FieldBuffers f b) (hb' : FieldBuffers f b')
    (cells : List Cell) :
    Scan.bytesOf b'.buffers (TiledQuery.countsOf st cells b.buffers) =
      (cells.map (f.countedBytes a)).sum := by
  have hvar : st.shape.varLen = f.varLen := by rw [hshape]; rfl
  have helements :
      (TiledQuery.countsOf st cells b.buffers).values = (cells.map st.elements).sum := by
    rw [TiledQuery.countsOf, TiledQuery.valueBytes, hb.offsets, ← hvar]
    cases hcase : st.shape.varLen with
    | true =>
        simp only [if_true, List.length_flatMap]
        exact congrArg List.sum (List.map_congr_left fun c _ => st.packed_length hcase c)
    | false => simp [st.sum_elements hcase]
  rw [Scan.bytesOf, hb'.width, helements, hb'.offsets, ← hvar]
  simp only [Field.countedBytes_eq hst, ← hvar, List.sum_map_add, List.sum_map_mul_right]
  cases hcase : st.shape.varLen with
  | true => simp [TiledQuery.countsOf, hcase]
  | false => simp

end

/-! ## Batches -/

namespace Scan

/-- The bytes that are reported under a name. -/
def reportedBytes (buffers : List NamedBuffers) (counts : List (String × ElementCounts))
    (name : String) : Nat :=
  match buffers.find? (·.name == name) with
  | some b => bytesOf b.buffers ((counts.lookup name).getD {})
  | none => 0

/-- What is counted are the reports for the buffers, if there are no others. -/
theorem bytesRead_eq {buffers : List NamedBuffers} {counts : List (String × ElementCounts)}
    (hnames : counts.map Prod.fst = buffers.map (·.name)) (hnodup : (buffers.map (·.name)).Nodup) :
    bytesRead buffers counts =
      (buffers.map fun b => bytesOf b.buffers ((counts.lookup b.name).getD {})).sum := by
  have hcounts : bytesRead buffers counts =
      ((counts.map Prod.fst).map (reportedBytes buffers counts)).sum := by
    rw [List.map_map]
    refine congrArg List.sum (List.map_congr_left ?_)
    rintro ⟨name, c⟩ hp
    obtain rfl : c = (counts.lookup name).getD {} := by
      rw [lookup_of_mem (hnames ▸ hnodup) hp, Option.getD_some]
    rfl
  rw [hcounts, hnames, List.map_map]
  refine congrArg List.sum (List.map_congr_left ?_)
  intro b hb
  rw [Function.comp_apply, reportedBytes, TiledQuery.find?_name hnodup hb]

variable {a : TiledArray} {sel cells : List Cell} {s₀ s t : Scan TiledQuery} {k : Nat}
  {fields : List Field}

/-- A submit reports the cells that it took for every field. -/
theorem bytesRead_of_wrote {q : TiledQuery} {buffers filled : List NamedBuffers} (hq : q.array = a)
    (hstored : StoredFields a fields) (hbuffers : List.Forall₂ FieldBuffers fields buffers)
    (hnodup : (fields.map Field.name).Nodup)
    (hwrote : List.Forall₂ (q.Wrote cells) buffers filled)
    (hnames : q.counts.map Prod.fst = buffers.map (·.name)) :
    bytesRead filled q.counts = a.countedBytes fields cells := by
  have hfilled := fieldBuffers_of_wrote hbuffers hwrote
  rw [forall₂_names hbuffers, ← forall₂_names hfilled] at hnames
  rw [bytesRead_eq hnames (by rw [forall₂_names hfilled]; exact hnodup), TiledArray.countedBytes]
  refine congrArg List.sum (map_eq_map_of_forall₂
    (R := fun f b => f ∈ fields ∧ ∃ b₀, FieldBuffers f b₀ ∧ FieldBuffers f b ∧ q.Wrote cells b₀ b)
    ?_ ?_)
  · refine forall₂_of_getElem? hfilled.length_eq ?_
    intro i f hf
    obtain ⟨b₀, hb₀, hfield⟩ := forall₂_getElem? hbuffers hf
    obtain ⟨b, hb, hw⟩ := forall₂_getElem? hwrote hb₀
    obtain ⟨b', hb', hfield'⟩ := forall₂_getElem? hfilled hf
    rw [hb, Option.some.injEq] at hb'
    subst hb'
    exact ⟨b, hb, List.mem_of_getElem? hf, b₀, hfield, hfield', hw⟩
  · rintro f b ⟨hf, b₀, hfield, hfield', hw⟩
    obtain ⟨st, filled, hst, -, -, hcounts⟩ := hw.filled
    obtain ⟨st', hst', hshape⟩ := hstored f hf
    rw [hfield.name] at hst hcounts
    rw [hq, hst', Option.some.injEq] at hst
    subst hst
    rw [hfield'.name, hcounts, Option.getD_some]
    exact bytesOf_countsOf hst' hshape hfield hfield' cells

theorem submit_completedBytes (s : Scan TiledQuery) :
    s.submit.scan.completedBytes = s.completedBytes :=
  Outcome.andThen_scan (P := fun t => t.completedBytes = s.completedBytes) rfl fun _ _ ht => ht

theorem load_tally (s : Scan TiledQuery) (counts : List (String × ElementCounts)) :
    (s.load counts).scan.completedBytes =
        s.completedBytes + UInt64.ofNat (bytesRead s.buffers counts) ∧
      (s.load counts).scan.query = s.query := by
  simp only [load, timed, decode]
  split
  · exact ⟨rfl, rfl⟩
  · exact ⟨rfl, rfl⟩

theorem submit_names {status : Progress} (hs : Serves a sel s.view)
    (h : s.submit.result = .ok status) :
    s.submit.scan.query.counts.map Prod.fst = s.buffers.map (·.name) := by
  obtain ⟨filled, query, hsubmit, hview⟩ := submit_eq_ok h
  obtain ⟨ts, hts, -, rfl, -⟩ := TiledQuery.submit_eq_ok hsubmit
  have hquery := congrArg ScanView.query hview
  have hregistered : s.query.registered = s.buffers.map NamedBuffers.registration := hs.registered
  rw [show s.submit.scan.query = _ from hquery]
  show (TiledQuery.countsOfAll _ _ _).map Prod.fst = _
  rw [TiledQuery.countsOfAll_names hts, hregistered, List.map_map]
  rfl

/-- The query has handed out the next cells, perhaps none, and they have been counted. -/
structure Counts (a : TiledArray) (sel cells : List Cell) (s t : Scan TiledQuery) : Prop where
  delivered : t.query.delivered = s.query.delivered + cells.length
  next : cells = (sel.drop s.query.delivered).take cells.length
  completedBytes : t.completedBytes =
    s.completedBytes + UInt64.ofNat (a.countedBytes s.fields cells)

theorem counts_nil (hdelivered : t.query.delivered = s.query.delivered)
    (hbytes : t.completedBytes = s.completedBytes) : Counts a sel [] s t :=
  ⟨hdelivered, rfl, by rw [TiledArray.countedBytes_nil, hbytes]; simp⟩

/-- A round counts the cells that it hands out. -/
theorem round_counts (hs : Serves a sel s.view) (hpos : s.position = s.batch.rows) :
    ∃ cells, Counts a sel cells s (round s).scan := by
  have hbytes := submit_completedBytes s
  rcases hsubmit : s.submit.result with e | status
  · obtain ⟨hview, -⟩ := submit_eq_error hsubmit
    unfold round
    generalize s.submit = o at hsubmit hview hbytes ⊢
    rcases o with ⟨result, t⟩
    subst hsubmit
    exact ⟨[], counts_nil (congrArg (·.query.delivered) hview) hbytes⟩
  · obtain ⟨-, cells, hw⟩ := submit_of_serves hs hpos hsubmit
    have hread : bytesRead s.submit.scan.buffers s.submit.scan.query.counts =
        a.countedBytes s.fields cells :=
      bytesRead_of_wrote hw.array hs.stored hs.buffers hs.fields.nodup hw.wrote
        (submit_names hs hsubmit)
    have hqueryOpen : s.submit.scan.query.closed = false := hw.queryClosed.trans hs.queryOpen
    have hrows : rowsRead s.submit.scan.fields s.submit.scan.query.counts = .ok cells.length := by
      rw [show s.submit.scan.fields = s.fields from hw.fields]
      exact rowsRead_of_wrote hw.array hs.fields.ne_nil hs.stored hs.buffers hw.wrote
    have hvisited : s.query.delivered = s.visited := by
      have hdelivered : s.query.delivered = s.visited + (s.batch.rows - s.position) := hs.delivered
      omega
    have hdelivered : s.submit.scan.query.delivered = s.query.delivered + cells.length := by
      rw [hvisited]
      exact hw.delivered
    unfold round
    rw [Outcome.andThen_of_ok hsubmit, ask_elementCounts hqueryOpen, Outcome.andThen_ok]
    simp only [hrows]
    by_cases hnone : cells.length = 0
    · rw [hnone, Nat.add_zero] at hdelivered
      rw [if_pos hnone]
      split
      · exact ⟨[], counts_nil hdelivered hbytes⟩
      · exact ⟨[], counts_nil hdelivered hbytes⟩
    · obtain ⟨hcounted, hquery⟩ := load_tally s.submit.scan s.submit.scan.query.counts
      rw [if_neg hnone]
      refine ⟨cells, Outcome.andThen_scan (P := Counts a sel cells s) ⟨?_, ?_, ?_⟩
        fun _ _ ht => ht⟩
      · rw [hquery, hdelivered]
      · rw [hvisited]
        exact hw.next
      · rw [hcounted, hread, hbytes]

/-! ## Runs -/

/-- What is counted are the bytes of the cells that the query has handed out. -/
def Tallied (a : TiledArray) (fields : List Field) (sel : List Cell) (s : Scan TiledQuery) : Prop :=
  s.completedBytes = UInt64.ofNat (a.countedBytes fields (sel.take s.query.delivered))

theorem Tallied.congr (h : Tallied a fields sel s) (hbytes : t.completedBytes = s.completedBytes)
    (hdelivered : t.query.delivered = s.query.delivered) : Tallied a fields sel t := by
  rw [Tallied, hbytes, hdelivered]
  exact h

theorem Tallied.timed {α : Type} {name : String} {step : Scan TiledQuery → Outcome TiledQuery α}
    (h : Tallied a fields sel (step s.now.2).scan) :
    Tallied a fields sel (s.timed name step).scan := h

theorem Tallied.round (h : Tallied a s.fields sel s) (hs : Serves a sel s.view)
    (hpos : s.position = s.batch.rows) : Tallied a s.fields sel (round s).scan := by
  obtain ⟨cells, hcounts⟩ := round_counts hs hpos
  rw [Tallied, hcounts.completedBytes, h, hcounts.delivered, List.take_add, ← hcounts.next,
    TiledArray.countedBytes_append, UInt64.ofNat_add]

/-- Growth counts nothing. -/
theorem Tallied.grow (h : Tallied a fields sel s) (hs : Serves a sel s.view) :
    Tallied a fields sel s.grow.scan := by
  obtain ⟨query, buffers, allocator, hscan⟩ := grow_scan s
  refine h.congr (by rw [hscan]) ?_
  rcases grow_of_serves hs with ⟨m, -, hview, -⟩ | ⟨-, grown, -, hview, -⟩
  · exact congrArg (·.query.delivered) hview
  · exact congrArg (·.query.delivered) hview

/-- An idle round and the growth behind it count nothing. -/
theorem Sized.tallied_idle (ha : a.Sound) (hsel : ∀ c ∈ sel, c ∈ a.cells) (h : Sized a sel s₀ k s)
    (hpos : s.position = s.batch.rows) (hmore : s.visited < sel.length)
    (hidle : (round s).result = .ok false) (htally : Tallied a s₀.fields sel s) :
    Tallied a s₀.fields sel ((round s).scan.timed "grow_buffers" grow).scan := by
  have hround : Tallied a s₀.fields sel (round s).scan := by
    rw [← h.fields] at htally ⊢
    exact htally.round h.serves hpos
  have hw := submitted_of_idle ha hsel h.serves hpos hmore hidle
  have hnow : Tallied a s₀.fields sel (round s).scan.now.2 := hround
  have hserves : Serves a sel (round s).scan.now.2.view := hw.serves_idle h.serves hpos hmore
  exact (hnow.grow hserves).timed

theorem FetchEnds.tallied {j : Nat} {o : Outcome TiledQuery Unit} (hends : FetchEnds s j o)
    (ha : a.Sound) (hextent : 0 < a.tileExtent) (hsel : ∀ c ∈ sel, c ∈ a.cells)
    (h : Sized a sel s₀ k s) (hpos : s.position = s.batch.rows) (hmore : s.visited < sel.length)
    (htally : Tallied a s₀.fields sel s) : Tallied a s₀.fields sel o.scan := by
  induction hends generalizing k with
  | @done s hround =>
      have hafter : Tallied a s₀.fields sel (round s).scan := by
        rw [← h.fields] at htally ⊢
        exact htally.round h.serves hpos
      exact Outcome.andThen_scan (P := Tallied a s₀.fields sel) hafter fun _ _ ht => ht
  | refused hidle hgrow => exact h.tallied_idle ha hsel hpos hmore hidle htally
  | @grown s j o hidle hgrow hrest ih =>
      have hgrown := h.tallied_idle ha hsel hpos hmore hidle htally
      obtain ⟨hposition, hbatch, hvisited, hsized⟩ :=
        h.grow_idle ha hextent hsel hpos hmore hidle rfl
      rcases hsized with ⟨m, herror, -⟩ | ⟨-, hlarger⟩
      · rw [hgrow] at herror
        cases herror
      · exact ih hlarger (by rw [hposition, hbatch, hpos]) (by rwa [hvisited]) hgrown

/-- A query that is closed keeps what it says of the cells that it handed out. -/
theorem close_kept (q : TiledQuery) :
    q.close.2.delivered = q.delivered ∧ q.close.2.stats = q.stats := by
  unfold TiledQuery.close TiledQuery.update
  split
  · next q hclose =>
      have hopen := TiledQuery.whileOpen_eq_ok hclose
      rw [Except.ok.injEq] at hopen
      rw [← hopen]
      exact ⟨rfl, rfl⟩
  · exact ⟨rfl, rfl⟩

theorem Tallied.close (h : Tallied a fields sel s) : Tallied a fields sel s.close := by
  unfold Scan.close
  split
  · exact h
  · exact h.congr rfl (close_kept s.query).1

theorem Tallied.handOut (h : Tallied a fields sel s) : Tallied a fields sel s.handOut.scan := by
  have hout : Tallied a fields sel
      { s with position := s.position + 1, visited := s.visited + 1 } := h
  simp only [Scan.handOut]
  split
  · exact hout.close
  · exact hout

theorem tallied_persists (ha : a.Sound) (hextent : 0 < a.tileExtent)
    (hsel : ∀ c ∈ sel, c ∈ a.cells) : Persists a sel s₀ (Tallied a s₀.fields sel) where
  congr hsame h := h.congr hsame.completedBytes (congrArg (·.query.delivered) hsame.view)
  close h := h.close
  handOut h := h.handOut
  fetch h hpos hmore htally := by
    have hends := fetchEnds (fetch_ne_stalled le_rfl (Serves.isReady h.serves).room)
    exact hends.tallied ha hextent hsel h hpos hmore htally

section

variable {schema : Schema} {tileExtent : Nat} {id : ScanId} {settings : ScanSettings}
  {columns : List Column} {constraints : Constraints} {memory : Source UInt64}
  {clock : Source Nat}

/-- What a scan has counted, over any calls. -/
theorem tallied_afterCalls (ha : TiledArray.ofCells schema tileExtent cells = .ok a)
    (hs : start (TiledQuery.ofArray a) id settings columns constraints memory clock = ⟨.ok (), s⟩)
    (calls : List Call) :
    Tallied a s.fields (a.admitted constraints) (s.afterCalls calls) := by
  obtain ⟨hsound, -⟩ := TiledArray.sound_ofCells ha
  have hdelivered : s.query.delivered = 0 := (started_of_start hsound hs).delivered
  have hfresh : Tallied a s.fields (a.admitted constraints) s := by
    rw [Tallied, hdelivered, List.take_zero, TiledArray.countedBytes_nil, start_completedBytes hs]
    rfl
  have hextent := TiledArray.tileExtent_pos_ofCells ha
  have hsel : ∀ c ∈ a.admitted constraints, c ∈ a.cells := fun c hc =>
    TiledArray.mem_of_mem_admitted hc
  exact (tallied_persists hsound hextent hsel).calls hsound hextent hsel (start_stage hsound hs)
    hfresh calls

/-- Between any two calls a scan has counted the bytes of all cells that the query has handed out,
    whatever the batches and the growths. For a cell that is as many as are written, if the elements
    of the field have one length, which is that of its buffer; if they have lengths of their own,
    only if the datatype takes one byte or the cell is null or empty, since their bytes are counted
    as elements of the datatype. -/
theorem start_counts_bytes (ha : TiledArray.ofCells schema tileExtent cells = .ok a)
    (hs : start (TiledQuery.ofArray a) id settings columns constraints memory clock = ⟨.ok (), s⟩) :
    (∀ calls : List Call, let t := s.afterCalls calls
      t.completedBytes = UInt64.ofNat
        (a.countedBytes s.fields ((a.admitted constraints).take t.query.delivered))) ∧
    (a.admitted constraints ≠ [] → ∀ f ∈ s.fields, ∃ st,
      a.stored? f.name = some st ∧ st.shape = f.shape ∧
      (f.shadowed schema ∧ columns = [] ∨ f.Reads schema st) ∧
      (∀ (b : ElementBuffers) (cells : List Cell), b.offsets.isSome = f.varLen →
        (cells.map st.writtenBytes).sum = (if f.varLen then cells.length * offsetBytes else 0) +
          (TiledQuery.valueBytes st b cells).length) ∧
      ∀ c ∈ a.cells, f.countedBytes a c = st.writtenBytes c ↔
        if f.varLen then f.datatype.width = 1 ∨ st.packed c = []
        else st.datatype.width = f.datatype.width) := by
  obtain ⟨hsound, hschema, -⟩ := TiledArray.sound_ofCells ha
  have hstarted := started_of_start hsound hs
  obtain ⟨hprojected, hshadowed⟩ := project_spec hstarted.fields
  refine ⟨fun calls => tallied_afterCalls ha hs calls, fun hne f hf => ?_⟩
  have hserves := hstarted.rows.resolve_right fun h => hne h.2.2.1
  obtain ⟨st, hst, hshape⟩ := hserves.stored f hf
  have hvar : st.shape.varLen = f.varLen := by rw [hshape]; rfl
  refine ⟨st, hst, hshape, ?_, fun b cells hb => ?_, fun c hc => ?_⟩
  · by_cases hshadow : f.shadowed a.schema
    · exact .inl ⟨hschema ▸ hshadow, hshadowed f hf hshadow⟩
    · exact .inr (hschema ▸ hprojected.reads f hf hshadow st hst)
  · rw [← hvar] at hb ⊢
    exact st.sum_writtenBytes hb cells
  · rw [← hvar]
    exact countedBytes_eq_iff hst hvar (TiledArray.value?_spec hst (hsound.fits c hc)).1

end

/-- A row with one number in an attribute whose elements have lengths of their own. -/
def numberCells : List Cell := [⟨[.small .int64 1], [some (.small .int32 7)]⟩]

def numbers : TiledArray :=
  ⟨⟨[⟨"row", .int64, false⟩], [⟨"v", .int32, true, false⟩]⟩, numberCells, 1⟩

def numbersScan : Outcome TiledQuery Unit :=
  start (TiledQuery.ofArray numbers) ⟨"numbers"⟩ {} [⟨"v", .integer, false⟩] {}
    (.constant (2 ^ 40)) (.constant 0)

/-- The offset of the row is counted, and each byte of its number as four. -/
theorem numbersScan_counts :
    (numbersScan.scan.afterCalls [.advance, .close]).completedBytes = 8 + 4 * 4 ∧
      numbers.countedBytes numbersScan.scan.fields numberCells = 24 := by
  have hcells : TiledArray.ofCells numbers.schema 1 numbers.cells = .ok numbers :=
    TiledArray.ofCells_of_sorted (by decide) (by decide) (by decide +kernel) (by decide +kernel)
  have hstart : numbersScan = ⟨.ok (), numbersScan.scan⟩ := by
    have hresult : numbersScan.result = .ok () := by decide +kernel
    rw [← hresult]
  have hcounted := (start_counts_bytes hcells hstart).1 [.advance, .close]
  rw [hcounted]
  exact ⟨by decide +kernel, by decide +kernel⟩

/-- Twelve bytes are written, eight for the offset and four for the number, and not 24. -/
theorem numbersScan_overcounts :
    TiledArray.ofCells numbers.schema 1 numberCells = .ok numbers ∧
      numbersScan.result = .ok () ∧
      (numbersScan.scan.afterCalls [.advance]).query.delivered = 1 ∧
      (numbers.stored? "v").map (fun st => (numberCells.map st.writtenBytes).sum) = some 12 ∧
      (numbersScan.scan.afterCalls [.advance]).completedBytes = 24 := by
  refine ⟨?_, by decide +kernel, by decide +kernel, by decide +kernel, by decide +kernel⟩
  exact TiledArray.ofCells_of_sorted (by decide) (by decide) (by decide +kernel) (by decide +kernel)

end Scan

end SparseScan
