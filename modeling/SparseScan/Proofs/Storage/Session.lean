import SparseScan.Proofs.Storage.Room

set_option autoImplicit false

/-! # Sessions of a query

A session is whatever a caller asks of one open query, request after request: ranges, registrations
and submits in any order and number. `Session.Sound` is what every session keeps, one request after
the other (`Session.sound_step`, `Session.sound_run`). From it, `Session.run_delivers` says what the
successful submits of a session hand out: one after another the cells that were selected, none twice
and none left out, in whole tiles, whatever was registered from one submit to the next. -/

namespace SparseScan

open TiledArray (StoredField)
open TiledQuery (offsetsOf inside batchSize batchSize_le_length batchSize_tiles)

/-! ## Requests -/

/-- What a caller can ask of an open query. -/
inductive Request where
  | restrict (position : Nat) (low high : StoredValue)
  | restrictText (position : Nat) (low high : List UInt8)
  | register (name : String) (c : Capacities)
  | unregisterAll
  | submit (buffers : List NamedBuffers)

/-- A submit that was answered: the query and the buffers before and after it. -/
structure Submission where
  before : TiledQuery
  buffers : List NamedBuffers
  status : Progress
  filled : List NamedBuffers
  after : TiledQuery

/-- A query, the ranges that it accepted and the submits that it answered, in order. -/
structure Session where
  query : TiledQuery
  ranges : List (Nat × StoredValue × StoredValue) := []
  submissions : List Submission := []

namespace Session

/-- Carry out a request; one that is refused leaves no trace. -/
def step (s : Session) : Request → Session
  | .restrict position low high =>
      match s.query.restrict position low high with
      | (.ok (), query) => { s with query, ranges := s.ranges ++ [(position, low, high)] }
      | (.error _, query) => { s with query }
  | .restrictText position low high =>
      match s.query.restrictText position low high with
      | (.ok (), query) =>
          { s with query, ranges := s.ranges ++ [(position, .text low, .text high)] }
      | (.error _, query) => { s with query }
  | .register name c => { s with query := (s.query.register name c).2 }
  | .unregisterAll => { s with query := s.query.unregisterAll }
  | .submit buffers =>
      match s.query.submit buffers with
      | (.ok status, filled, query) =>
          { s with
            query
            submissions := s.submissions ++ [⟨s.query, buffers, status, filled, query⟩] }
      | (.error _, _, query) => { s with query }

/-- A session on a fresh query. -/
def run (a : TiledArray) (requests : List Request) : Session :=
  requests.foldl step { query := .ofArray a }

/-- The ranges that were accepted for a dimension. -/
def rangesOn (ranges : List (Nat × StoredValue × StoredValue)) (position : Nat) :
    List (StoredValue × StoredValue) :=
  (ranges.filter (·.1 == position)).map (·.2)

/-- Whether a cell has, on every dimension with ranges, a coordinate in one of them. -/
def selects (ranges : List (Nat × StoredValue × StoredValue)) (c : Cell) : Bool :=
  c.coords.zipIdx.all fun (v, position) =>
    (rangesOn ranges position).isEmpty || (rangesOn ranges position).any (inside v)

end Session

/-! ## What a submit hands out -/

/-- The buffers hold the cells of a stored field: their bytes one after another, the positions of
    these if they have lengths of their own, and a flag for each cell if it may be null. -/
structure NamedBuffers.Holds (b : NamedBuffers) (st : StoredField) (cells : List Cell) : Prop where
  values : b.buffers.values.StartsWith
    (cells.flatMap (if st.shape.varLen then st.packed else st.aligned))
  offsets : st.shape.varLen = true → ∃ o, b.buffers.offsets = some o ∧
    o.StartsWith ((offsetsOf st cells).flatMap (Bytes.ofNat offsetBytes))
  validity : st.shape.nullable = true → ∃ v, b.buffers.validity = some v ∧
    v.StartsWith (cells.map st.flag)

/-- What is reported of cells of a stored field. -/
def TiledArray.StoredField.counts (st : StoredField) (cells : List Cell) : ElementCounts :=
  if st.shape.varLen then ⟨cells.length, (cells.flatMap st.packed).length⟩ else ⟨0, cells.length⟩

/-- Everything registered has been filled with the cells, and reported. -/
def Submission.Wrote (sub : Submission) (cells : List Cell) : Prop :=
  ∀ r ∈ sub.before.registered, ∃ st b, sub.before.array.stored? r.1 = some st ∧
    sub.filled.find? (·.name == r.1) = some b ∧ b.Holds st cells ∧
    sub.after.counts.lookup r.1 = some (st.counts cells)

/-- The submits have handed out `segments` of the selected cells. -/
structure Delivers (tileExtent : Nat) (selected : List Cell) (submissions : List Submission)
    (segments : List (List Cell)) : Prop where
  wrote : List.Forall₂ (fun sub cells => sub.before.Provided sub.buffers → sub.Wrote cells)
    submissions segments
  inOrder : segments.flatten <+: selected
  tiles : ∀ k < segments.length, tileExtent ∣ (segments.take (k + 1)).flatten.length ∨
    (segments.take (k + 1)).flatten = selected
  status : ∀ k sub, submissions[k]? = some sub →
    sub.status = if (segments.take (k + 1)).flatten = selected then .completed else .incomplete

namespace Delivers

variable {tileExtent : Nat} {selected : List Cell} {submissions : List Submission}
  {segments : List (List Cell)} {sub : Submission} {cells : List Cell}

theorem nil : Delivers tileExtent selected [] [] where
  wrote := .nil
  inOrder := List.nil_prefix
  tiles k hk := by cases hk
  status k sub hk := by cases hk

/-- One more submit hands out one more segment. -/
theorem snoc (h : Delivers tileExtent selected submissions segments)
    (hwrote : sub.before.Provided sub.buffers → sub.Wrote cells)
    (horder : segments.flatten ++ cells <+: selected)
    (htiles : tileExtent ∣ (segments.flatten ++ cells).length ∨
      segments.flatten ++ cells = selected)
    (hstatus : sub.status = if segments.flatten ++ cells = selected then .completed
      else .incomplete) :
    Delivers tileExtent selected (submissions ++ [sub]) (segments ++ [cells]) := by
  have hlen := h.wrote.length_eq
  have hall : (segments ++ [cells]).take (segments.length + 1) = segments ++ [cells] :=
    List.take_of_length_le (by simp)
  have hflatten : (segments ++ [cells]).flatten = segments.flatten ++ cells := by simp
  refine ⟨List.rel_append h.wrote (.cons hwrote .nil), hflatten ▸ horder, ?_, ?_⟩
  · intro k hk
    rcases Nat.lt_succ_iff_lt_or_eq.1 (by simpa using hk) with hlt | rfl
    · rw [List.take_append_of_le_length hlt]
      exact h.tiles k hlt
    · rw [hall, hflatten]
      exact htiles
  · intro k sub' hsub
    rcases Nat.lt_or_ge k submissions.length with hlt | hge
    · rw [List.getElem?_append_left hlt] at hsub
      rw [List.take_append_of_le_length (by omega)]
      exact h.status k sub' hsub
    · rw [List.getElem?_append_right hge, List.getElem?_singleton] at hsub
      split at hsub
      · next hzero =>
          cases hsub
          rw [show k = segments.length by omega, hall, hflatten]
          exact hstatus
      · cases hsub

/-- What has been handed out ends at a tile or with the last selected cell. -/
theorem boundary (h : Delivers tileExtent selected submissions segments) :
    tileExtent ∣ segments.flatten.length ∨ segments.flatten = selected := by
  by_cases hnil : segments = []
  · subst hnil
    exact Or.inl (dvd_zero _)
  · have hpos := List.length_pos_iff.2 hnil
    have hlast := h.tiles (segments.length - 1) (by omega)
    rwa [Nat.sub_add_cancel hpos, List.take_length] at hlast

/-- After the last selected cell only empty segments follow. -/
theorem drop_eq_nil (h : Delivers tileExtent selected submissions segments) {k : Nat}
    (hall : (segments.take (k + 1)).flatten = selected) :
    ∀ cells ∈ segments.drop (k + 1), cells = [] := by
  have hle := h.inOrder.length_le
  rw [← List.take_append_drop (k + 1) segments, List.flatten_append, List.length_append,
    hall] at hle
  rw [← List.flatten_eq_nil_iff, ← List.length_eq_zero_iff]
  omega

/-- A query that is done stays so and hands out nothing more. -/
theorem completed_of_lt (h : Delivers tileExtent selected submissions segments) {k j : Nat}
    {later : Submission} (hk : submissions[k]? = some sub) (hdone : sub.status = .completed)
    (hkj : k < j) (hj : submissions[j]? = some later) :
    later.status = .completed ∧ segments[j]? = some [] := by
  have hall : (segments.take (k + 1)).flatten = selected := by
    by_contra hne
    rw [h.status k sub hk, if_neg hne] at hdone
    cases hdone
  have hrest := h.drop_eq_nil hall
  constructor
  · have htake : segments.take (j + 1) =
        segments.take (k + 1) ++ (segments.drop (k + 1)).take (j - k) := by
      rw [← List.take_add, show k + 1 + (j - k) = j + 1 by omega]
    have hempty : ((segments.drop (k + 1)).take (j - k)).flatten = [] :=
      List.flatten_eq_nil_iff.2 fun cells hcells => hrest cells (List.mem_of_mem_take hcells)
    rw [h.status j later hj, htake, List.flatten_append, hall, hempty, List.append_nil,
      if_pos rfl]
  · obtain ⟨cells, hcells, -⟩ := forall₂_getElem? h.wrote hj
    have hmem : cells ∈ segments.drop (k + 1) := by
      refine List.mem_of_getElem? (i := j - (k + 1)) ?_
      rw [List.getElem?_drop, show k + 1 + (j - (k + 1)) = j by omega, hcells]
    rw [hcells, hrest cells hmem]

end Delivers

/-! ## One submit -/

namespace TiledQuery

variable {q q' : TiledQuery} {buffers filled : List NamedBuffers} {status : Progress}
  {cells : List Cell} {ts : List Target}

/-- Buffers that were filled with cells hold them. -/
theorem holds_of_fill {st : StoredField} {name : String} {b : NamedBuffers} {s : ElementBuffers}
    (hoffsets : b.buffers.offsets.isSome = st.shape.varLen)
    (hvalidity : b.buffers.validity.isSome = st.shape.nullable)
    (h : fill name st cells b.buffers = .ok s) :
    NamedBuffers.Holds { b with buffers := s } st cells := by
  obtain ⟨hlayout, hstartOffsets, hstartValues, hstartValidity⟩ := fill_spec h
  refine ⟨?_, ?_, ?_⟩
  · rw [valueBytes, hoffsets] at hstartValues
    exact hstartValues
  · intro hvar
    rw [← hoffsets, ← Option.isSome_map, ← hlayout.offsets, Option.isSome_map] at hvar
    obtain ⟨o, ho⟩ := Option.isSome_iff_exists.1 hvar
    exact ⟨o, ho, hstartOffsets o ho⟩
  · intro hnull
    rw [← hvalidity, ← Option.isSome_map, ← hlayout.validity, Option.isSome_map] at hnull
    obtain ⟨v, hv⟩ := Option.isSome_iff_exists.1 hnull
    exact ⟨v, hv, hstartValidity v hv⟩

/-- A submit into buffers with the registered layouts fills everything registered with the cells
    that it takes. -/
theorem submission_wrote (hregistered : q.Registered)
    (hts : targets q.array buffers q.registered = .ok ts)
    (hfilled : fillAll (q.batch ts) ts buffers = .ok filled) (hprovided : q.Provided buffers)
    (hq' : q'.counts = countsOfAll (q.batch ts) buffers ts) :
    Submission.Wrote ⟨q, buffers, status, filled, q'⟩ (q.batch ts) := by
  intro r hr
  obtain ⟨i, hi⟩ := List.mem_iff_getElem?.1 hr
  obtain ⟨t, ht, hfor⟩ := forall₂_getElem? (targets_spec hts) hi
  obtain ⟨st, hst, hoffsets, hvalidity⟩ := hregistered.shapes r hr
  obtain ⟨b, hb, hlayout⟩ := hprovided r hr st hst
  obtain ⟨b', s, hb', hs, hfilled', hcounts⟩ :=
    submit_wrote hts hfilled hregistered.nodup (List.mem_of_getElem? ht)
  rw [List.find?_eq_getElem?_findIdx, ← hfor.index, hb', Option.some.injEq] at hb
  subst hb
  rw [hfor.field, Option.some.injEq] at hst
  subst hst
  rw [← hlayout.offsets_isSome] at hoffsets
  rw [← hlayout.validity_isSome] at hvalidity
  refine ⟨t.field, _, hfor.field, ?_, holds_of_fill hoffsets hvalidity hs, ?_⟩
  · -- the filled buffers have the names of the given ones, so they are found at the same place
    have hplace : filled.findIdx (·.name == r.1) = buffers.findIdx (·.name == r.1) := by
      have hnames := congrArg (List.findIdx (· == r.1))
        (fillAll_map (·.name) (fun _ _ _ _ => rfl) hfilled)
      rwa [List.findIdx_map, List.findIdx_map] at hnames
    rw [List.find?_eq_getElem?_findIdx]
    simp only [hplace, ← hfor.index, hfilled']
  · show q'.counts.lookup r.1 = _
    rw [hq', ← hfor.name, hcounts, countsOf, valueBytes, hoffsets, StoredField.counts]
    cases t.field.shape.varLen <;> rfl

end TiledQuery

/-! ## Selection -/

namespace Session

/-- Ranges listed by dimension hold the coordinates that lie in the ranges of their dimensions. -/
theorem insideAll_range' (g : Nat → List (StoredValue × StoredValue)) {n : Nat}
    {coords : List StoredValue} (k : Nat) (hlen : coords.length ≤ n) :
    TiledQuery.insideAll ((List.range' k n).map g) coords =
      (coords.zipIdx k).all fun (v, position) =>
        (g position).isEmpty || (g position).any (inside v) := by
  induction coords generalizing k n with
  | nil => cases n <;> rfl
  | cons v coords ih =>
      cases n with
      | zero => cases hlen
      | succ n =>
          rw [List.range'_succ, List.map_cons, List.zipIdx_cons, List.all_cons,
            TiledQuery.insideAll, ih (k + 1) (Nat.le_of_succ_le_succ hlen)]

/-- The ranges of each dimension of an array, in the order of the dimensions. -/
def rangesIn (a : TiledArray) (ranges : List (Nat × StoredValue × StoredValue)) :
    List (List (StoredValue × StoredValue)) :=
  (List.range a.schema.dimensions.length).map (rangesOn ranges)

section

variable {a : TiledArray} {q : TiledQuery} {ranges : List (Nat × StoredValue × StoredValue)}
  {position : Nat} {low high : StoredValue}

theorem cellsInside_eq (ha : a.Sound) (hq : q.array = a) (hranges : q.ranges = rangesIn a ranges) :
    q.cellsInside = a.cells.filter (selects ranges) := by
  rw [TiledQuery.cellsInside, hq]
  refine List.filter_congr fun c hc => ?_
  rw [hranges, rangesIn, List.range_eq_range']
  exact insideAll_range' _ 0 (ha.fits c hc).coords.length_eq.ge

theorem rangesOn_append (position i : Nat) :
    rangesOn (ranges ++ [(position, low, high)]) i =
      if i = position then rangesOn ranges i ++ [(low, high)] else rangesOn ranges i := by
  unfold rangesOn
  by_cases hi : i = position
  · simp [hi]
  · simp [hi, Ne.symm hi]

/-- A range more on one dimension. -/
theorem rangesIn_append (a : TiledArray) (position : Nat) :
    (rangesIn a ranges).modify position (· ++ [(low, high)]) =
      rangesIn a (ranges ++ [(position, low, high)]) := by
  refine List.ext_getElem? fun i => ?_
  rw [rangesIn, rangesIn, List.getElem?_modify, List.getElem?_map, List.getElem?_map]
  by_cases hi : i < a.schema.dimensions.length
  · rw [List.getElem?_range hi, Option.map_some, Option.map_some, rangesOn_append]
    by_cases hposition : i = position
    · simp [hposition]
    · simp [hposition, Ne.symm hposition]
  · rw [List.getElem?_eq_none (by simpa using hi)]
    rfl

end

/-! ## The invariant -/

/-- What every session on array `a` keeps. -/
structure Sound (s : Session) (a : TiledArray) : Prop where
  array : s.query.array = a
  isOpen : s.query.closed = false
  registered : s.query.Registered
  ranges : s.query.ranges = rangesIn a s.ranges
  selection : s.query.selection.isSome = !s.submissions.isEmpty
  selected : s.query.selected = a.cells.filter (selects s.ranges)
  delivers : ∃ segments, s.query.delivered = segments.flatten.length ∧
    Delivers a.tileExtent (a.cells.filter (selects s.ranges)) s.submissions segments

variable {s : Session} {a : TiledArray}

theorem sound_start (ha : a.Sound) : Sound { query := .ofArray a } a := by
  have hranges : (TiledQuery.ofArray a).ranges = rangesIn a [] := by
    have hnone : rangesOn [] = fun _ => [] := rfl
    simp [TiledQuery.ofArray, rangesIn, hnone]
  exact
    { array := rfl
      isOpen := rfl
      registered := ⟨by simp [TiledQuery.ofArray], by simp [TiledQuery.ofArray]⟩
      ranges := hranges
      selection := rfl
      selected := cellsInside_eq ha rfl hranges
      delivers := ⟨[], rfl, .nil⟩ }

/-- Before the first submit a range more changes the selection. -/
theorem Sound.restrict (hs : s.Sound a) (ha : a.Sound) {position : Nat} {low high : StoredValue}
    {query : TiledQuery} (h : s.query.TookRange query position low high) :
    Sound { s with query, ranges := s.ranges ++ [(position, low, high)] } a := by
  obtain ⟨-, -, hunselected, rfl⟩ := h
  have hnone : s.submissions = [] := by
    have hselection := hs.selection
    rw [hunselected] at hselection
    simpa using hselection
  obtain ⟨segments, hdelivered, hdelivers⟩ := hs.delivers
  have hranges : s.query.ranges.modify position (· ++ [(low, high)]) =
      rangesIn a (s.ranges ++ [(position, low, high)]) := by
    rw [hs.ranges, rangesIn_append]
  have hsegments : segments = [] := by
    have hlen := hdelivers.wrote.length_eq
    rw [hnone] at hlen
    exact List.length_eq_zero_iff.1 hlen.symm
  subst hsegments
  exact
    { array := hs.array
      isOpen := hs.isOpen
      registered := ⟨hs.registered.nodup, hs.registered.shapes⟩
      ranges := hranges
      selection := hs.selection
      selected := by
        rw [TiledQuery.selected, hunselected, Option.getD_none]
        exact cellsInside_eq ha hs.array hranges
      delivers := ⟨[], hdelivered, by
        rw [hnone]
        exact .nil⟩ }

/-- What is registered has no part in what is selected and handed out. -/
theorem Sound.withRegistered (hs : s.Sound a) {registered : List (String × Capacities)}
    (h : TiledQuery.Registered { s.query with registered }) :
    Sound { s with query := { s.query with registered } } a :=
  { array := hs.array
    isOpen := hs.isOpen
    registered := h
    ranges := hs.ranges
    selection := hs.selection
    selected := hs.selected
    delivers := hs.delivers }

/-- A submit hands out the next segment of the selection. -/
theorem Sound.submit (hs : s.Sound a) {buffers filled : List NamedBuffers} {status : Progress}
    {query : TiledQuery} (h : s.query.submit buffers = (.ok status, filled, query)) :
    Sound { s with
      query
      submissions := s.submissions ++ [⟨s.query, buffers, status, filled, query⟩] } a := by
  obtain ⟨ts, hts, hfilled, rfl, rfl⟩ := TiledQuery.submit_eq_ok h
  obtain ⟨segments, hdelivered, hdelivers⟩ := hs.delivers
  obtain ⟨rest, hrest⟩ := hdelivers.inOrder
  have hselected := hs.selected
  have hremaining : s.query.remaining = rest := by
    rw [TiledQuery.remaining, hselected, ← hrest, hdelivered, List.drop_left]
  have hbatch : s.query.batch ts = rest.take (batchSize a.tileExtent ts rest) := by
    rw [TiledQuery.batch, hremaining, hs.array]
  have hlen : (s.query.batch ts).length = batchSize a.tileExtent ts rest := by
    rw [hbatch, List.length_take, Nat.min_eq_left batchSize_le_length]
  have horder : segments.flatten ++ s.query.batch ts <+: a.cells.filter (selects s.ranges) := by
    rw [hbatch, ← hrest, List.prefix_append_right_inj]
    exact List.take_prefix _ _
  have hall : segments.flatten ++ s.query.batch ts = a.cells.filter (selects s.ranges) ↔
      (a.cells.filter (selects s.ranges)).length ≤
        segments.flatten.length + (s.query.batch ts).length := by
    rw [← List.length_append]
    exact ⟨fun heq => heq ▸ le_rfl, fun hle => horder.eq_of_length_le hle⟩
  refine
    { array := hs.array
      isOpen := hs.isOpen
      registered := ⟨hs.registered.nodup, hs.registered.shapes⟩
      ranges := hs.ranges
      selection := by simp [TiledQuery.advanced]
      selected := hs.selected
      delivers := ⟨segments ++ [s.query.batch ts], ?_, hdelivers.snoc
        (fun hprovided => TiledQuery.submission_wrote hs.registered hts hfilled hprovided rfl)
        horder ?_ ?_⟩ }
  · rw [List.flatten_concat, List.length_append, ← hdelivered]
    rfl
  · -- the segment ends at a tile if it starts at one and is not the rest
    rcases batchSize_tiles with hrows | hrows
    · right
      rw [hbatch, hrows, List.take_length, hrest]
    · rcases hdelivers.boundary with hstart | hend
      · left
        rw [List.length_append, hlen]
        exact dvd_add hstart hrows
      · right
        rw [hall, hend]
        exact Nat.le_add_right _ _
  · simp only [hall]
    rw [TiledQuery.advanced, hselected, hdelivered]

/-- What a request can do to a session. -/
inductive Step (s : Session) : Session → Prop
  | refused : Step s s
  | restricted {position : Nat} {low high : StoredValue} {query : TiledQuery}
      (h : s.query.TookRange query position low high) :
      Step s { s with query, ranges := s.ranges ++ [(position, low, high)] }
  | registered {registered : List (String × Capacities)}
      (h : s.query.Registered → TiledQuery.Registered { s.query with registered }) :
      Step s { s with query := { s.query with registered } }
  | submitted {buffers filled : List NamedBuffers} {status : Progress} {query : TiledQuery}
      (h : s.query.submit buffers = (.ok status, filled, query)) :
      Step s { s with
        query
        submissions := s.submissions ++ [⟨s.query, buffers, status, filled, query⟩] }

theorem step_spec (s : Session) (r : Request) : s.Step (s.step r) := by
  cases r with
  | restrict position low high =>
      rcases h : s.query.restrict position low high with ⟨answer, query⟩
      cases answer with
      | ok _ =>
          have htook := TiledQuery.restrict_eq_ok (congrArg Prod.fst h)
          rw [h] at htook
          simp only [step, h]
          exact .restricted htook
      | error e =>
          have hsame := TiledQuery.update_eq_error (congrArg Prod.fst h)
          simp only [step, h]
          rw [show query = s.query from (congrArg Prod.snd h).symm.trans hsame]
          exact .refused
  | restrictText position low high =>
      rcases h : s.query.restrictText position low high with ⟨answer, query⟩
      cases answer with
      | ok _ =>
          have htook := TiledQuery.restrictText_eq_ok (congrArg Prod.fst h)
          rw [h] at htook
          simp only [step, h]
          exact .restricted htook
      | error e =>
          have hsame := TiledQuery.update_eq_error (congrArg Prod.fst h)
          simp only [step, h]
          rw [show query = s.query from (congrArg Prod.snd h).symm.trans hsame]
          exact .refused
  | register name c =>
      cases hanswer : (s.query.register name c).1 with
      | error e =>
          rw [step, show (s.query.register name c).2 = s.query from
            TiledQuery.update_eq_error hanswer]
          exact .refused
      | ok _ =>
          obtain ⟨st, hst, hoffsets, hvalidity, hquery⟩ := TiledQuery.register_eq_ok hanswer
          rw [step, hquery]
          exact .registered fun hregistered => hregistered.put hst hoffsets hvalidity
  | unregisterAll =>
      exact .registered fun _ => ⟨List.nodup_nil, fun r hr => nomatch hr⟩
  | submit buffers =>
      rcases h : s.query.submit buffers with ⟨answer, filled, query⟩
      cases answer with
      | ok status =>
          simp only [step, h]
          exact .submitted h
      | error e =>
          simp only [step, h]
          rw [show query = s.query from (TiledQuery.submit_eq_error h).2]
          exact .refused

/-- A request of any kind keeps a session sound. -/
theorem sound_step (ha : a.Sound) (hs : s.Sound a) (r : Request) : (s.step r).Sound a := by
  have hstep := step_spec s r
  generalize s.step r = t at hstep ⊢
  cases hstep with
  | refused => exact hs
  | restricted h => exact hs.restrict ha h
  | registered h => exact hs.withRegistered (h hs.registered)
  | submitted h => exact hs.submit h

theorem sound_foldl (ha : a.Sound) (hs : s.Sound a) (requests : List Request) :
    (requests.foldl step s).Sound a := by
  induction requests generalizing s with
  | nil => exact hs
  | cons r rest ih => exact ih (sound_step ha hs r)

theorem sound_run (ha : a.Sound) (requests : List Request) : (run a requests).Sound a :=
  sound_foldl ha (sound_start ha) requests

/-- Once a submit has been answered, no range is accepted and the submits stay answered. -/
theorem ranges_step (hs : s.Sound a) (hsubmitted : s.submissions ≠ []) (r : Request) :
    (s.step r).ranges = s.ranges ∧ (s.step r).submissions ≠ [] := by
  have hselected : s.query.selection ≠ none := by
    rw [← Option.isSome_iff_ne_none, hs.selection]
    simpa using hsubmitted
  have hstep := step_spec s r
  generalize s.step r = t at hstep ⊢
  cases hstep with
  | refused => exact ⟨rfl, hsubmitted⟩
  | restricted h => exact absurd h.unselected hselected
  | registered h => exact ⟨rfl, hsubmitted⟩
  | submitted h => exact ⟨rfl, by simp⟩

theorem ranges_foldl (ha : a.Sound) (hs : s.Sound a) (hsubmitted : s.submissions ≠ [])
    (requests : List Request) : (requests.foldl step s).ranges = s.ranges := by
  induction requests generalizing s with
  | nil => rfl
  | cons r rest ih =>
      obtain ⟨hranges, hmore⟩ := ranges_step hs hsubmitted r
      exact (ih (sound_step ha hs r) hmore).trans hranges

/-- The submits of a session hand out the selected cells in order: each fills everything registered
    with one and the same segment, the segments follow each other without gap or overlap and end at
    tiles or with the last cell, and the status says whether that has been handed out. What is
    selected depends on the ranges accepted before the first submit, and a submit with buffers of
    the registered layouts is answered whenever something is registered. -/
theorem run_delivers {schema : Schema} {tileExtent : Nat} {cells : List Cell}
    (ha : TiledArray.ofCells schema tileExtent cells = .ok a) (requests : List Request) :
    (∃ segments, Delivers tileExtent (a.cells.filter (selects (run a requests).ranges))
        (run a requests).submissions segments ∧
      segments.flatten.Pairwise (fun x y => Cell.orderCoords x.coords y.coords ≠ .gt) ∧
      ∀ (k j : Nat) (sub later : Submission), k < j →
        (run a requests).submissions[k]? = some sub → sub.status = .completed →
        (run a requests).submissions[j]? = some later →
          later.status = .completed ∧ segments[j]? = some []) ∧
      ((run a requests).submissions ≠ [] →
        ∀ more, (run a (requests ++ more)).ranges = (run a requests).ranges) ∧
      ∀ buffers, (run a requests).query.Provided buffers →
        ((∃ status, ((run a requests).query.submit buffers).1 = .ok status) ↔
          (run a requests).query.registered ≠ []) := by
  obtain ⟨hsound, -, -⟩ := TiledArray.sound_ofCells ha
  have hextent : a.tileExtent = tileExtent := TiledArray.tileExtent_ofCells ha
  have hs := sound_run hsound requests
  obtain ⟨segments, -, hdelivers⟩ := hs.delivers
  refine ⟨⟨segments, hextent ▸ hdelivers, ?_, ?_⟩, ?_, ?_⟩
  · exact ((hsound.sorted.filter _).sublist hdelivers.inOrder.sublist)
  · intro k j sub later hkj hk hdone hj
    exact hdelivers.completed_of_lt hk hdone hkj hj
  · intro hsubmitted more
    rw [run, List.foldl_append]
    exact ranges_foldl hsound hs hsubmitted more
  · intro buffers hprovided
    refine TiledQuery.submit_ok_iff (by rwa [hs.array]) hs.isOpen ?_ hs.registered hprovided
    intro c hc
    rw [hs.selected] at hc
    rw [hs.array]
    exact List.mem_of_mem_filter hc

/-! ## Three submits -/

/-- Four rows, in tiles of two. -/
def tally : TiledArray :=
  ⟨⟨[⟨"row", .int64, false⟩], []⟩,
    [⟨[.small .int64 1], []⟩, ⟨[.small .int64 2], []⟩, ⟨[.small .int64 3], []⟩,
      ⟨[.small .int64 4], []⟩], 2⟩

/-- Buffers for as many rows. -/
def rowBuffers (capacity : Nat) (h : capacity * 8 < blockLimit) : List NamedBuffers :=
  [⟨"row", .int64, ⟨none, { width := 8, capacity, size_lt := h }, none⟩⟩]

/-- Ask for the last three rows, at first two at a time, then one. -/
def tallyRequests : List Request :=
  [.restrict 0 (.small .int64 2) (.small .int64 9), .register "row" ⟨none, 2, none⟩,
    .submit (rowBuffers 2 (by decide)), .unregisterAll, .register "row" ⟨none, 1, none⟩,
    .submit (rowBuffers 1 (by decide)), .submit (rowBuffers 1 (by decide))]

/-- The first submit takes a tile, the second one ends the selection, the third one takes
    nothing. -/
theorem tally_delivers :
    TiledArray.ofCells tally.schema 2 tally.cells = .ok tally ∧
      (run tally tallyRequests).submissions.map (·.status) =
        [.incomplete, .completed, .completed] ∧
      ∃ segments, Delivers 2 (tally.cells.drop 1) (run tally tallyRequests).submissions segments ∧
        segments[2]? = some [] := by
  have hcells : TiledArray.ofCells tally.schema 2 tally.cells = .ok tally :=
    TiledArray.ofCells_of_sorted (by decide) (by decide) (by decide +kernel) (by decide +kernel)
  have hstatuses : (run tally tallyRequests).submissions.map (·.status) =
      [.incomplete, .completed, .completed] := by decide +kernel
  have hselected : tally.cells.filter (selects (run tally tallyRequests).ranges) =
      tally.cells.drop 1 := by decide +kernel
  obtain ⟨⟨segments, hdelivers, -, hdone⟩, -, -⟩ := run_delivers hcells tallyRequests
  refine ⟨hcells, hstatuses, segments, hselected ▸ hdelivers, ?_⟩
  have hstatus : ∀ k : Nat, ((run tally tallyRequests).submissions[k]?).map (·.status) =
      [Progress.incomplete, .completed, .completed][k]? := by
    intro k
    rw [← List.getElem?_map, hstatuses]
  obtain ⟨sub, hsub, hcompleted⟩ := Option.map_eq_some_iff.1 (hstatus 1)
  obtain ⟨later, hlater, -⟩ := Option.map_eq_some_iff.1 (hstatus 2)
  exact (hdone 1 2 sub later (by decide) hsub hcompleted hlater).2

end Session

end SparseScan
