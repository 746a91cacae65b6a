import SparseScan.Proofs.Storage.Overrun
import SparseScan.Proofs.Storage.Session

set_option autoImplicit false

/-! # Estimates

A query estimates a field by looking at the cells inside its ranges; its submits count what they
write. What they report adds up to what the cells take that they have handed out
(`Session.Tallies`), so with the last cell it comes to the estimate
(`Session.estimate_eq_delivered`). -/

namespace SparseScan

open TiledArray (StoredField)

/-! ## One submit -/

/-- What a submit that was answered reports of a registered field is what its cells take. Buffers
    without offsets for a field that has them would have been refused. -/
theorem TiledQuery.counts_of_submit {q q' : TiledQuery} {buffers filled : List NamedBuffers}
    {status : Progress} {name : String} {st : StoredField} (hregistered : q.Registered)
    (hname : name ∈ q.registered.map Prod.fst) (hst : q.array.stored? name = some st)
    (h : q.submit buffers = (.ok status, filled, q')) :
    ∃ cells, q.Took q' cells ∧ q'.counts.lookup name = some (st.counts cells) := by
  obtain ⟨ts, hts, hfilled, rfl, -⟩ := submit_eq_ok h
  obtain ⟨r, hr, rfl⟩ := List.mem_map.1 hname
  obtain ⟨i, hi⟩ := List.mem_iff_getElem?.1 hr
  obtain ⟨t, ht, hfor⟩ := forall₂_getElem? (targets_spec hts) hi
  obtain ⟨b, -, hb, -, -, hcounts⟩ :=
    submit_wrote hts hfilled hregistered.nodup (List.mem_of_getElem? ht)
  obtain ⟨st', hst', hoffsets, -⟩ := hregistered.shapes r hr
  rw [hst, Option.some.injEq] at hst'
  subst hst'
  have hfield : t.field = st := Option.some.inj (hfor.field.symm.trans hst)
  refine ⟨q.batch ts, took_advanced q _ _, ?_⟩
  show (countsOfAll (q.batch ts) buffers ts).lookup r.1 = _
  rw [← hfor.name, hcounts, hfield, countsOf, StoredField.counts, valueBytes]
  cases hvar : st.shape.varLen with
  | false => rfl
  | true =>
      rw [hvar] at hoffsets
      obtain ⟨n, hn⟩ := Option.isSome_iff_exists.1 hoffsets
      obtain ⟨o, ho, -⟩ := (covers_of_ensureRooms (hfor.covered b hb)).offsets n hn
      simp [ho]

/-- The cells that counts of a field stand for. -/
def ElementCounts.cells (c : ElementCounts) (shape : FieldShape) : Nat :=
  if shape.varLen then c.offsets else c.values

theorem TiledArray.StoredField.counts_cells (st : StoredField) (cells : List Cell) :
    (st.counts cells).cells st.shape = cells.length := by
  unfold counts ElementCounts.cells
  split <;> rfl

theorem TiledArray.StoredField.counts_values (st : StoredField) (cells : List Cell) :
    (st.counts cells).values = (cells.map st.elements).sum := by
  unfold counts
  split
  · next hvar =>
      rw [List.length_flatMap]
      exact congrArg List.sum (List.map_congr_left fun c _ => st.packed_length hvar c)
  · next hfixed => exact (st.sum_elements (by simpa using hfixed) cells).symm

/-! ## All submits -/

namespace Session

/-- What the submits have reported of a field, one after the other. -/
def reported (s : Session) (name : String) : List ElementCounts :=
  s.submissions.map fun sub => (sub.after.counts.lookup name).getD {}

/-- The cells and the elements that the submits have handed out of a field, as an estimate of the
    field would have them. -/
def delivered (s : Session) (name : String) (shape : FieldShape) : Estimate :=
  let cells := ((s.reported name).map (·.cells shape)).sum
  { offsets := if shape.varLen then some cells else none
    values := ((s.reported name).map (·.values)).sum
    validity := if shape.nullable then some cells else none }

/-- The field was registered at every submit. -/
def Registers (s : Session) (name : String) : Prop :=
  ∀ sub ∈ s.submissions, name ∈ sub.before.registered.map Prod.fst

/-- The submits have handed out all cells, and of each of them the field. -/
structure Drains (s : Session) (name : String) : Prop where
  registers : s.Registers name
  completed : ∃ sub ∈ s.submissions, sub.status = .completed

/-- The cells that the query has left behind. -/
def passed (s : Session) : List Cell := s.query.selected.take s.query.delivered

/-- What was reported of a field adds up to what the cells take that the query has left behind. -/
structure Tallies (s : Session) (name : String) (st : StoredField) : Prop where
  cells : ((s.reported name).map (·.cells st.shape)).sum = s.passed.length
  values : ((s.reported name).map (·.values)).sum = (s.passed.map st.elements).sum

variable {a : TiledArray} {s : Session} {name : String} {st : StoredField}

theorem Tallies.delivered (h : s.Tallies name st) :
    s.delivered name st.shape = st.estimate s.passed := by
  simp only [Session.delivered, h.cells, h.values, StoredField.estimate]

/-- Before the first submit no cells have been handed out. -/
theorem Sound.passed_eq_nil (hs : s.Sound a) (h : s.submissions = []) : s.passed = [] := by
  obtain ⟨segments, hdelivered, hdelivers⟩ := hs.delivers
  have hlen := hdelivers.wrote.length_eq
  rw [h, List.length_nil, eq_comm, List.length_eq_zero_iff] at hlen
  rw [passed, hdelivered, hlen]
  rfl

/-- All cells have been handed out once a submit has said so. -/
theorem Sound.passed_eq_selected (hs : s.Sound a)
    (h : ∃ sub ∈ s.submissions, sub.status = .completed) :
    s.passed = a.cells.filter (selects s.ranges) := by
  obtain ⟨segments, hdelivered, hdelivers⟩ := hs.delivers
  obtain ⟨sub, hsub, hdone⟩ := h
  obtain ⟨k, hk⟩ := List.mem_iff_getElem?.1 hsub
  have hall : (segments.take (k + 1)).flatten = a.cells.filter (selects s.ranges) := by
    by_contra hne
    rw [hdelivers.status k sub hk, if_neg hne] at hdone
    cases hdone
  have hle : (segments.take (k + 1)).flatten.length ≤ segments.flatten.length :=
    ((List.take_sublist _ _).flatten).length_le
  rw [hall, ← hdelivered] at hle
  rw [passed, hs.selected, List.take_of_length_le hle]

theorem tallies_fresh (hreported : s.submissions = []) (hpassed : s.passed = []) :
    s.Tallies name st := by
  refine ⟨?_, ?_⟩
  · simp [reported, hreported, hpassed]
  · simp [reported, hreported, hpassed]

/-- A submit reports of a field what the cells take that it hands out. -/
theorem Tallies.submitted (htally : s.Tallies name st) (hs : s.Sound a)
    (hst : a.stored? name = some st) (hname : name ∈ s.query.registered.map Prod.fst)
    {buffers filled : List NamedBuffers} {status : Progress} {query : TiledQuery}
    (h : s.query.submit buffers = (.ok status, filled, query)) :
    Tallies { s with
      query
      submissions := s.submissions ++ [⟨s.query, buffers, status, filled, query⟩] } name st := by
  obtain ⟨cells, htook, hcounts⟩ :=
    TiledQuery.counts_of_submit hs.registered hname (by rw [hs.array]; exact hst) h
  obtain ⟨n, hn⟩ := htook.prefixed
  have hcells : (s.query.selected.drop s.query.delivered).take cells.length = cells := by
    conv_rhs => rw [hn]
    rw [hn, TiledQuery.remaining, List.length_take, ← List.take_eq_take_min]
  have hpassed : query.selected.take query.delivered = s.passed ++ cells := by
    rw [htook.selected, htook.delivered, List.take_add, hcells]
    rfl
  refine ⟨?_, ?_⟩
  · simp only [reported, List.map_append, List.map_singleton, List.sum_append, List.sum_singleton,
      hcounts, Option.getD_some, st.counts_cells, passed, hpassed, List.length_append]
    exact congrArg (· + cells.length) htally.cells
  · simp only [reported, List.map_append, List.map_singleton, List.sum_append, List.sum_singleton,
      hcounts, Option.getD_some, st.counts_values, passed, hpassed]
    exact congrArg (· + (cells.map st.elements).sum) htally.values

/-- A request of any kind keeps the tally. -/
theorem tallies_step (ha : a.Sound) (hs : s.Sound a) (hst : a.stored? name = some st)
    (htally : s.Registers name → s.Tallies name st) (r : Request) :
    (s.step r).Registers name → (s.step r).Tallies name st := by
  have hstep := step_spec s r
  generalize s.step r = t at hstep ⊢
  cases hstep with
  | refused => exact htally
  | restricted h =>
      have hnone : s.submissions = [] := by
        have hselection := hs.selection
        rw [h.unselected] at hselection
        simpa using hselection
      intro _
      exact tallies_fresh hnone ((hs.restrict ha h).passed_eq_nil hnone)
  | registered h =>
      intro hnames
      exact ⟨(htally hnames).cells, (htally hnames).values⟩
  | submitted h =>
      intro hnames
      simp only [Registers, List.forall_mem_append, List.forall_mem_singleton] at hnames
      exact (htally hnames.1).submitted hs hst hnames.2 h

theorem tallies_foldl (ha : a.Sound) (hs : s.Sound a) (hst : a.stored? name = some st)
    (htally : s.Registers name → s.Tallies name st) (requests : List Request) :
    (requests.foldl step s).Registers name → (requests.foldl step s).Tallies name st := by
  induction requests generalizing s with
  | nil => exact htally
  | cons r rest ih => exact ih (sound_step ha hs r) (tallies_step ha hs hst htally r)

theorem tallies_run (ha : a.Sound) (hst : a.stored? name = some st) (requests : List Request)
    (hnames : (run a requests).Registers name) : (run a requests).Tallies name st :=
  tallies_foldl ha (sound_start ha) hst (fun _ => tallies_fresh rfl rfl) requests hnames

/-- The estimate of a field before the first submit is what the submits hand out of the field, if no
    ranges come in between and the submits hand out everything. -/
theorem estimate_eq_delivered (ha : a.Sound) (hst : a.stored? name = some st)
    {requests more : List Request}
    (hranges : (run a (requests ++ more)).ranges = (run a requests).ranges)
    (hdrains : (run a (requests ++ more)).Drains name) :
    (run a requests).query.estimate name st.shape =
      .ok ((run a (requests ++ more)).delivered name st.shape) := by
  have hs := sound_run ha requests
  have hlater := sound_run ha (requests ++ more)
  have hcells : (run a requests).query.cellsInside = (run a (requests ++ more)).passed := by
    rw [hlater.passed_eq_selected hdrains.completed, hranges]
    exact cellsInside_eq ha hs.array hs.ranges
  rw [TiledQuery.estimate_ok hs.isOpen (by rw [hs.array]; exact hst), hcells,
    (tallies_run ha hst _ hdrains.registers).delivered]

end Session

end SparseScan
