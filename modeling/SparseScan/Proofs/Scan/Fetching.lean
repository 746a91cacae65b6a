import SparseScan.Proofs.Scan.Lockstep

set_option autoImplicit false

/-! # What a fetch can come to

A round of a scan that serves a selection hands out rows, or leaves the scan as it is because the
buffers have no room for the next tile (`round_of_serves`), and growth is granted or refused
(`grow_of_serves`). There is one way more: elements that are wider than the field under whose name
they are stored do not fit into its buffer. A field with such elements is *outgrown*. -/

namespace SparseScan

open TiledArray (StoredField)

/-! ## Fields whose elements are too wide -/

/-- Whether the elements stored under the name of a field are wider than those of the field. -/
def Field.outgrown (f : Field) (a : TiledArray) : Prop :=
  f.varLen = false ∧ ∃ st, a.stored? f.name = some st ∧ f.datatype.width < st.datatype.width

/-- Only what is found in place of a field can be wider. -/
theorem shadowed_of_outgrown {a : TiledArray} {fields : List Field} {f : Field}
    (h : ProjectedFields a fields) (hf : f ∈ fields) (hout : f.outgrown a) :
    f.shadowed a.schema := by
  by_contra hclear
  obtain ⟨-, st, hst, hlt⟩ := hout
  rw [(h.reads f hf hclear st hst).datatype] at hlt
  exact lt_irrefl _ hlt

/-! ## Buffers of fields -/

section

variable {a : TiledArray} {sel : List Cell} {v w : ScanView} {cells : List Cell}

/-- All buffers are those of some field, which is stored in their shape. -/
theorem Serves.field_of_mem (hs : Serves a sel v) {b : NamedBuffers} (hb : b ∈ v.buffers) :
    ∃ f ∈ v.fields, FieldBuffers f b ∧ ∃ st, a.stored? b.name = some st ∧ st.shape = f.shape := by
  obtain ⟨i, hi⟩ := List.mem_iff_getElem?.1 hb
  obtain ⟨f, hf, hfield⟩ := forall₂_getElem? hs.buffers.flip hi
  have hmem := List.mem_of_getElem? hf
  obtain ⟨st, hst, hshape⟩ := hs.stored f hmem
  exact ⟨f, hmem, hfield, st, hfield.name ▸ hst, hshape⟩

/-- Buffers of a field have the shape that is stored. -/
theorem shapes_of_fieldBuffers {f : Field} {b : NamedBuffers} {st : StoredField}
    (hfield : FieldBuffers f b) (hshape : st.shape = f.shape) :
    b.buffers.capacities.offsets.isSome = st.shape.varLen ∧
      b.buffers.capacities.validity.isSome = st.shape.nullable := by
  rw [← hfield.layout.offsets_isSome, ← hfield.layout.validity_isSome, hfield.offsets,
    hfield.validity, hshape]
  exact ⟨rfl, rfl⟩

theorem Serves.registered_shapes (hs : Serves a sel v) : v.query.Registered := by
  refine ⟨?_, ?_⟩
  · rw [hs.registered, List.map_map]
    exact hs.names_nodup
  · intro r hr
    rw [hs.registered] at hr
    obtain ⟨b, hb, rfl⟩ := List.mem_map.1 hr
    obtain ⟨f, -, hfield, st, hst, hshape⟩ := hs.field_of_mem hb
    obtain ⟨hoffsets, hvalidity⟩ := shapes_of_fieldBuffers hfield hshape
    exact ⟨st, by rw [hs.array]; exact hst, hoffsets, hvalidity⟩

/-- Buffers with names of their own are found by them. -/
theorem Serves.find?_name (hs : Serves a sel v) {b : NamedBuffers} (hb : b ∈ v.buffers) :
    v.buffers.find? (·.name == b.name) = some b :=
  TiledQuery.find?_name hs.names_nodup hb

theorem Serves.supplied (hs : Serves a sel v) : v.query.Supplied v.buffers := by
  intro r hr
  rw [hs.registered] at hr
  obtain ⟨b, hb, rfl⟩ := List.mem_map.1 hr
  obtain ⟨f, -, hfield, -⟩ := hs.field_of_mem hb
  exact ⟨b, hs.find?_name hb, b.datatype, hfield.layout⟩

theorem Serves.buffers_ne_nil (hs : Serves a sel v) : v.buffers ≠ [] := by
  intro hnil
  have hlen := hs.buffers.length_eq
  rw [hnil, List.length_nil, List.length_eq_zero_iff] at hlen
  exact hs.fields.ne_nil hlen

/-- A submit fails only where the elements of a field are too wide for its buffer. -/
theorem Serves.outgrown_of_submit (ha : a.Sound) (hsel : ∀ c ∈ sel, c ∈ a.cells)
    (hs : Serves a sel v) {e : ArrayError} (h : (v.query.submit v.buffers).1 = .error e) :
    ∃ f ∈ v.fields, f.outgrown a ∧ e = .abort (.writeOutside f.name .values) := by
  obtain ⟨r, hr, st, b, hst, hb, hfixed, hlt, rfl⟩ := TiledQuery.submit_fails
    (by rwa [hs.array]) hs.queryOpen (by rwa [hs.selected, hs.array]) hs.registered_shapes
    (by rw [hs.registered]; simpa using hs.buffers_ne_nil) hs.supplied h
  obtain ⟨f, hf, hfield, st', hst', hshape⟩ := hs.field_of_mem (List.mem_of_find?_eq_some hb)
  have hname : b.name = r.1 := by simpa using List.find?_some hb
  rw [hs.array, ← hname, hst', Option.some.injEq] at hst
  subst hst
  rw [hfield.width] at hlt
  refine ⟨f, hf, ⟨?_, st', hfield.name ▸ hst', hlt⟩, by rw [← hname, hfield.name]⟩
  rw [hshape] at hfixed
  exact hfixed

end

namespace Scan

variable {a : TiledArray} {sel : List Cell} {s : Scan TiledQuery}

/-! ## One round -/

/-- A submit that fails leaves the scan as it is, and it is the query that fails. -/
theorem submit_eq_error {e : ScanError} (h : s.submit.result = .error e) :
    s.submit.scan.view = s.view ∧
      ∃ e', (s.query.submit s.buffers).1 = .error e' ∧ e = .storage e' := by
  rcases hsubmit : s.query.submit s.buffers with ⟨e' | status, filled, query⟩
  · obtain ⟨rfl, rfl⟩ := TiledQuery.submit_eq_error hsubmit
    have hrun : s.submit.result = .error (.storage e') ∧ s.submit.scan.view = s.view := by
      have hquery : QueryEngine.submit s.query s.buffers = (.error e', s.buffers, s.query) :=
        hsubmit
      simp only [submit, timed, now, hquery, Except.mapError, Outcome.andThen_error]
      exact ⟨trivial, rfl⟩
    rw [hrun.1] at h
    cases h
    exact ⟨hrun.2, e', rfl, rfl⟩
  · have hquery : QueryEngine.submit s.query s.buffers = (.ok status, filled, query) := hsubmit
    simp only [submit, timed, now, hquery, Except.mapError, Outcome.andThen_ok] at h
    cases h

theorem submit_allocator (s : Scan TiledQuery) : s.submit.scan.allocator = s.allocator := by
  refine Outcome.andThen_scan (P := fun t => t.allocator = s.allocator) ?_ fun _ t ht => ht
  rfl

theorem load_allocator (s : Scan TiledQuery) (counts : List (String × ElementCounts)) :
    (s.load counts).scan.allocator = s.allocator := by
  simp only [load, timed, decode]
  split <;> rfl

/-- An open query says what its last submit has written. -/
theorem ask_elementCounts (hopen : s.query.closed = false) :
    s.ask QueryEngine.elementCounts = ⟨.ok s.query.counts, s⟩ := by
  have hanswer : QueryEngine.elementCounts s.query = (.ok s.query.counts, s.query) := by
    show (s.query.whileOpen (.ok s.query.counts), s.query) = _
    rw [TiledQuery.whileOpen, hopen, if_neg Bool.false_ne_true]
  simp only [ask, hanswer, Except.mapError]

/-- What a submit has written can be read. -/
theorem Submitted.load_ok {v w : ScanView} {cells : List Cell} (hs : Serves a sel v)
    (hw : Submitted a sel v w cells) : ∃ batch, (w.fields.zip w.buffers).mapM
      (fun (fb : Field × NamedBuffers) => FieldBatch.ofBuffers fb.1 fb.2.buffers
        ((w.query.counts.lookup fb.1.name).getD {})) = .ok batch := by
  refine mapM_ok ?_
  rintro ⟨f, b'⟩ hmem
  obtain ⟨i, hi⟩ := List.mem_iff_getElem?.1 hmem
  obtain ⟨hf, hb'⟩ := List.getElem?_zip_eq_some.1 hi
  rw [hw.fields] at hf
  obtain ⟨b, hb, hfield⟩ := forall₂_getElem? hs.buffers hf
  obtain ⟨b'', hb'', hwrote⟩ := forall₂_getElem? hw.wrote hb
  rw [hb', Option.some.injEq] at hb''
  subst hb''
  obtain ⟨st, filled, hst, hfill, rfl, hcounts⟩ := hwrote.filled
  obtain ⟨st', hst', hshape⟩ := hs.stored f (List.mem_of_getElem? hf)
  rw [hw.array, hfield.name, hst', Option.some.injEq] at hst
  subst hst
  rw [hfield.name] at hcounts
  simp only [hcounts, Option.getD_some]
  refine FieldBatch.ofBuffers_of_fill hshape hfill ?_
  intro hfixed
  -- the cells have room as elements of the field, whatever the width of what was written
  have hroom := hw.chose.hasRoom b.registration
    (by rw [hs.registered]; exact List.mem_map.2 ⟨b, List.mem_of_getElem? hb, rfl⟩) st'
    (by rw [hs.array, NamedBuffers.registration, hfield.name]; exact hst')
  have hle := hroom.values
  rw [st'.sum_elements (by rw [hshape]; exact hfixed)] at hle
  have hlayout := (hfield.layout.fill hfill).values
  rw [Prod.mk.injEq, hfield.datatype] at hlayout
  rw [ElementBuffer.size, hlayout.1, hlayout.2]
  exact Nat.mul_le_mul_right _ hle

/-- What a submit has written becomes the present batch. -/
theorem Submitted.load {t : Scan TiledQuery} {cells : List Cell} (ha : a.Sound)
    (hsel : ∀ c ∈ sel, c ∈ a.cells) (hs : Serves a sel s.view)
    (hw : Submitted a sel s.view t.view cells) :
    (t.load t.query.counts).result = .ok () ∧ Serves a sel (t.load t.query.counts).scan.view ∧
      (t.load t.query.counts).scan.batch.rows = cells.length ∧
      (t.load t.query.counts).scan.view =
        { t.view with position := 0, batch := (t.load t.query.counts).scan.batch } := by
  obtain ⟨batch, hbatch⟩ := hw.load_ok hs
  have hload : (t.load t.query.counts).result = .ok () := by
    simp only [Scan.load, timed_result, decode]
    split
    · rfl
    · next e he => exact absurd (hbatch.symm.trans he) (by simp)
  obtain ⟨batch', hbatch', hview⟩ := load_spec hload
  obtain ⟨hserves, hlen⟩ := hw.serves_load ha hsel hs hbatch'
  have hnew : (t.load t.query.counts).scan.batch = ⟨batch'⟩ := congrArg ScanView.batch hview
  rw [hnew, hview]
  exact ⟨hload, hserves, hlen, rfl⟩

/-- A round of a scan that serves cells fails where the elements of a field are too wide, or takes
    nothing, or makes the cells that it takes the present batch. -/
theorem round_of_serves (ha : a.Sound) (hsel : ∀ c ∈ sel, c ∈ a.cells) (hs : Serves a sel s.view)
    (hpos : s.position = s.batch.rows) (hmore : s.visited < sel.length) :
    (∃ f ∈ s.fields, f.outgrown a ∧
        (round s).result = .error (.storage (.abort (.writeOutside f.name .values))) ∧
        (round s).scan.view = s.view) ∨
      ((round s).result = .ok false ∧ Submitted a sel s.view (round s).scan.view []) ∨
      ((round s).result = .ok true ∧ Serves a sel (round s).scan.view ∧
        0 < (round s).scan.batch.rows ∧ ∃ w cells, Submitted a sel s.view w cells ∧
          (round s).scan.view = { w with position := 0, batch := (round s).scan.batch }) := by
  rcases hsubmit : s.submit.result with e | status
  · obtain ⟨hview, e', herror, rfl⟩ := submit_eq_error hsubmit
    obtain ⟨f, hf, hout, rfl⟩ := hs.outgrown_of_submit ha hsel herror
    refine Or.inl ⟨f, hf, hout, ?_⟩
    unfold round
    generalize s.submit = o at hsubmit hview ⊢
    rcases o with ⟨result, t⟩
    subst hsubmit
    exact ⟨rfl, hview⟩
  · right
    obtain ⟨hstatus, cells, hw⟩ := submit_of_serves hs hpos hsubmit
    have hqueryOpen : s.submit.scan.query.closed = false := hw.queryClosed.trans hs.queryOpen
    have hrows : rowsRead s.submit.scan.fields s.submit.scan.query.counts = .ok cells.length := by
      rw [show s.submit.scan.fields = s.fields from hw.fields]
      exact rowsRead_of_wrote hw.array hs.fields.ne_nil hs.stored hs.buffers hw.wrote
    have hanswer : status = if sel.length ≤ s.visited + cells.length then .completed
        else .incomplete := hstatus.symm.trans hw.status
    obtain ⟨hload, hserves, hlen, hview⟩ := hw.load ha hsel hs
    unfold round
    rw [Outcome.andThen_of_ok hsubmit, ask_elementCounts hqueryOpen, Outcome.andThen_ok]
    simp only [hrows]
    by_cases hnone : cells.length = 0
    · left
      obtain rfl := List.length_eq_zero_iff.1 hnone
      have hincomplete : status = .incomplete := by
        rw [hanswer, if_neg (by simpa using hmore)]
      simp only [List.length_nil, if_true, hincomplete]
      exact ⟨trivial, hw⟩
    · right
      rw [if_neg hnone, Outcome.andThen_of_ok hload]
      exact ⟨rfl, hserves, hlen ▸ Nat.pos_of_ne_zero hnone, _, cells, hw, hview⟩

theorem round_allocator (s : Scan TiledQuery) : (round s).scan.allocator = s.allocator := by
  refine Outcome.andThen_scan (P := fun t => t.allocator = s.allocator) (submit_allocator s) ?_
  intro status t ht
  refine Outcome.andThen_scan (P := fun t => t.allocator = s.allocator) ht ?_
  intro counts u hu
  split
  · exact hu
  · split
    · split
      · exact hu
      · exact hu
    · exact Outcome.andThen_scan (P := fun t => t.allocator = s.allocator)
        ((load_allocator u counts).trans hu) fun _ _ hv => hv

/-! ## Growth -/

/-- Buffers of the shapes that are stored can be registered with an open query. -/
theorem registerAll_ok {bs : List NamedBuffers} (hopen : s.query.closed = false)
    (hbs : ∀ b ∈ bs, ∃ st, s.query.array.stored? b.name = some st ∧
      b.buffers.capacities.offsets.isSome = st.shape.varLen ∧
      b.buffers.capacities.validity.isSome = st.shape.nullable) :
    (registerAll bs s).result = .ok () := by
  induction bs generalizing s with
  | nil => rfl
  | cons b bs ih =>
      obtain ⟨st, hst, hoffsets, hvalidity⟩ := hbs b (List.mem_cons_self ..)
      have hregister : QueryEngine.register s.query b.name b.buffers.capacities = _ :=
        TiledQuery.register_ok hopen hst hoffsets hvalidity
      simp only [registerAll, ask, hregister, Except.mapError, Outcome.andThen_ok]
      exact ih hopen fun b' hb' => hbs b' (List.mem_cons_of_mem _ hb')

/-- The growth of a scan that serves cells is refused, and then changes nothing but what is known of
    the memory, or it doubles all buffers, registers them and notes what they take. -/
theorem grow_of_serves (hs : Serves a sel s.view) :
    (∃ m, s.grow.result = .error (.memory m) ∧ s.grow.scan.view = s.view ∧
        s.grow.scan.allocator.footprint = s.allocator.footprint) ∨
      (s.grow.result = .ok () ∧ ∃ grown,
        List.Forall₂ (fun b b' => b.double = .ok b') s.buffers grown ∧
        s.grow.scan.view = { s.view with
          buffers := grown
          query := { s.query with registered := grown.map NamedBuffers.registration } } ∧
        s.grow.scan.allocator.footprint =
          s.allocator.footprint.record (NamedBuffers.footprint grown)) := by
  rcases hgrow : s.allocator.grow s.buffers with ⟨m | grown, allocator⟩
  · left
    rw [grow_of_error hgrow, (BufferAllocator.grow_eq_error hgrow).1]
    exact ⟨m, rfl, rfl, rfl⟩
  · right
    obtain ⟨-, hdouble, hallocator⟩ := BufferAllocator.grow_eq_ok hgrow
    have hgrown := Serves.grown hs (mapM_eq_ok.1 hdouble)
    have hok : s.grow.result = .ok () := by
      simp only [grow, hgrow]
      refine registerAll_ok hs.queryOpen ?_
      intro b hb
      obtain ⟨f, -, hfield, st, hst, hshape⟩ := hgrown.field_of_mem hb
      exact ⟨st, by rw [← hst, ← hs.array]; rfl, shapes_of_fieldBuffers hfield hshape⟩
    have hfootprint : s.grow.scan.allocator.footprint =
        s.allocator.footprint.record (NamedBuffers.footprint grown) := by
      obtain ⟨query, hscan⟩ := grow_scan_of_ok hgrow
      rw [hscan, hallocator]
      rfl
    obtain ⟨grown', hall, hview⟩ := grow_spec hok hs.names_nodup
    have hsame := hdouble.symm.trans (mapM_eq_ok.2 hall)
    rw [Except.ok.injEq] at hsame
    subst hsame
    exact ⟨hok, grown, hall, hview, hfootprint⟩

/-! ## The loop -/

/-- The loop of a fetch without a limit on its rounds: it has come to its end in `o`, after `k`
    growths that were granted. -/
inductive FetchEnds : Scan TiledQuery → Nat → Outcome TiledQuery Unit → Prop
  | done {s : Scan TiledQuery} (hround : (round s).result ≠ .ok false) :
      FetchEnds s 0 ((round s).andThen fun _ t => ⟨.ok (), t⟩)
  | refused {s : Scan TiledQuery} {e : ScanError} (hidle : (round s).result = .ok false)
      (hgrow : ((round s).scan.timed "grow_buffers" grow).result = .error e) :
      FetchEnds s 0 ⟨.error e, ((round s).scan.timed "grow_buffers" grow).scan⟩
  | grown {s : Scan TiledQuery} {k : Nat} {o : Outcome TiledQuery Unit}
      (hidle : (round s).result = .ok false)
      (hgrow : ((round s).scan.timed "grow_buffers" grow).result = .ok ())
      (hrest : FetchEnds ((round s).scan.timed "grow_buffers" grow).scan k o) :
      FetchEnds s (k + 1) o

/-- How many growths a fetch is granted. -/
def granted : Nat → Scan TiledQuery → Nat
  | 0, _ => 0
  | fuel + 1, s =>
      if (round s).result = .ok false ∧
          ((round s).scan.timed "grow_buffers" grow).result = .ok () then
        granted fuel ((round s).scan.timed "grow_buffers" grow).scan + 1
      else 0

/-- A fetch that has rounds enough is the loop. -/
theorem fetchEnds {fuel : Nat} (h : (fetch fuel s).result ≠ .error .stalled) :
    FetchEnds s (granted fuel s) (fetch fuel s) := by
  induction fuel generalizing s with
  | zero => exact absurd rfl h
  | succ fuel ih =>
      by_cases hidle : (round s).result = .ok false
      · rw [fetch_of_idle hidle] at h ⊢
        rcases hgrow : ((round s).scan.timed "grow_buffers" grow).result with e | ⟨⟩
        · rw [granted, if_neg (by simp [hgrow])]
          have hends := FetchEnds.refused hidle hgrow
          generalize (round s).scan.timed "grow_buffers" grow = o at hgrow hends ⊢
          rcases o with ⟨result, t⟩
          subst hgrow
          exact hends
        · rw [granted, if_pos ⟨hidle, hgrow⟩]
          rw [Outcome.andThen_of_ok hgrow] at h ⊢
          exact .grown hidle hgrow (ih h)
      · rw [granted, if_neg fun hboth => hidle hboth.1, fetch_of_round hidle]
        exact .done hidle

end Scan

end SparseScan
