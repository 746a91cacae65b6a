import SparseScan.Proofs.Scan.Stages
import SparseScan.Proofs.Storage.Estimates
import SparseScan.Proofs.Storage.Packing

set_option autoImplicit false

/-! # Scans that need not grow

Where the estimates of all fields are within the budget, the first buffers have just as many
elements as the cells take that are served (`start_exact`), so everything registered has room for
all of them. Then the first submit completes (`Serves.submit_completes`), no round is idle
(`Sized.round_ne_idle`), and no call asks for memory (`memory_persists`). -/

namespace SparseScan

open TiledArray (StoredField)
open TiledQuery (HasRoom)

/-! ## Estimates within the budget -/

/-- The buffers for an estimate of a field are each within the budget. -/
structure Estimate.FitsIn (budget : Nat) (f : Field) (e : Estimate) : Prop where
  offsets : f.varLen = true → e.cells * offsetBytes ≤ budget
  values : e.values * f.datatype.width ≤ budget
  validity : f.nullable = true → e.cells * flagBytes ≤ budget

/-- Capacities for just what a field takes for cells; none is zero. -/
def TiledArray.StoredField.capacities (st : StoredField) (cells : List Cell) : Capacities where
  offsets := if st.shape.varLen then some (max 1 cells.length) else none
  values := max 1 (cells.map st.elements).sum
  validity := if st.shape.nullable then some (max 1 cells.length) else none

theorem TiledArray.StoredField.hasRoom_capacities (st : StoredField) (cells : List Cell) :
    HasRoom (st.capacities cells) st cells := by
  have hshaped : ∀ {shaped : Bool} {n : Nat},
      (if shaped then some (max 1 cells.length) else none) = some n → cells.length ≤ n := by
    intro shaped n hn
    cases (Option.ite_none_right_eq_some.1 hn).2
    exact Nat.le_max_right _ _
  exact ⟨Nat.le_max_right _ _, fun n hn => hshaped hn, fun n hn => hshaped hn⟩

/-- For an estimate within the budget there are as many elements as it says. -/
theorem BufferAllocator.initialCapacities_of_fits {x : BufferAllocator} {f : Field}
    {st : StoredField} {cells : List Cell} (hshape : st.shape = f.shape)
    (hfits : (st.estimate cells).FitsIn x.budget f) :
    x.initialCapacities f (st.estimate cells) = st.capacities cells := by
  have hcells := st.estimate_cells cells
  obtain ⟨hoffsets, hvalues, hvalidity⟩ := hfits
  rw [hcells] at hoffsets hvalidity
  have hvar : st.shape.varLen = f.varLen := by rw [hshape]; rfl
  have hnull : st.shape.nullable = f.nullable := by rw [hshape]; rfl
  simp only [initialCapacities, StoredField.capacities, elementsFor, hcells, hvar, hnull,
    Capacities.mk.injEq]
  refine ⟨?_, elementsWithin_of_le f.datatype.width_pos hvalues, ?_⟩
  · cases hoff : f.varLen with
    | false => rfl
    | true =>
        rw [if_pos rfl, if_pos rfl, elementsWithin_of_le (by decide) (hoffsets hoff)]
  · cases hval : f.nullable with
    | false => rfl
    | true =>
        have hflags : (st.estimate cells).validity = some cells.length := by
          simp [StoredField.estimate, hnull, hval]
        rw [if_pos rfl, if_pos rfl, hflags, Option.getD_some,
          elementsWithin_of_le (by decide) (hvalidity hval)]

/-! ## The first submit -/

section

variable {a : TiledArray} {sel : List Cell} {v : ScanView}

/-- A first submit that is answered, into buffers with room for all cells, takes all of them. -/
theorem Serves.submit_completes (hs : Serves a sel v) (hextent : 0 < a.tileExtent)
    (hfresh : v.query.delivered = 0) (hroom : v.query.Accommodates sel) {status : Progress}
    {filled : List NamedBuffers} {q : TiledQuery}
    (h : v.query.submit v.buffers = (.ok status, filled, q)) :
    status = .completed ∧ q.delivered = sel.length ∧
      List.Forall₂ (q.Wrote sel) v.buffers filled := by
  obtain ⟨ts, hts, htook, hstatus, hwrote⟩ :=
    TiledQuery.submit_spec h hs.registered hs.names_nodup
  have hremaining : v.query.remaining = sel := by
    rw [TiledQuery.remaining, hs.selected, hfresh, List.drop_zero]
  have hbatch : v.query.batch ts = sel := by
    have hgreatest := TiledQuery.isGreatest_batch (by rwa [hs.array]) hts
    have hle : v.query.remaining.length ≤ (v.query.batch ts).length := by
      refine hgreatest.2 ⟨le_rfl, Or.inr rfl, ?_⟩
      rwa [List.take_length, hremaining]
    rw [TiledQuery.batch_length] at hle
    rw [TiledQuery.batch, List.take_of_length_le hle, hremaining]
  rw [hbatch] at htook hwrote
  have hdelivered : q.delivered = sel.length := by rw [htook.delivered, hfresh, Nat.zero_add]
  refine ⟨?_, hdelivered, hwrote⟩
  rw [hstatus, htook.status, hs.selected, hdelivered, if_pos le_rfl]

end

namespace Scan

variable {a : TiledArray} {sel : List Cell} {s₀ s : Scan TiledQuery} {k : Nat}

/-! ## Calls that ask for no memory -/

/-- Growth leaves room for what there was room for. -/
theorem Sized.accommodates (h : Sized a sel s₀ k s) (hroom : s₀.query.Accommodates sel) :
    s.query.Accommodates sel := by
  intro r hr st hst
  rw [show s.query.registered = _ from h.serves.registered] at hr
  obtain ⟨b, hb, rfl⟩ := List.mem_map.1 hr
  obtain ⟨i, hi⟩ := List.mem_iff_getElem?.1 hb
  obtain ⟨b₀, hb₀, hscaled⟩ := forall₂_getElem? h.scaled.flip hi
  have hmem : b₀.registration ∈ s₀.query.registered := by
    rw [show s₀.query.registered = _ from h.initial.registered]
    exact List.mem_map.2 ⟨b₀, List.mem_of_getElem? hb₀, rfl⟩
  have hst₀ : s₀.query.array.stored? b₀.name = some st := by
    rw [show s₀.query.array = a from h.initial.array, ← hscaled.name]
    rwa [show s.query.array = a from h.serves.array] at hst
  have hfirst := hroom _ hmem st hst₀
  show HasRoom b.buffers.capacities st sel
  rw [hscaled.layout.capacities]
  exact hfirst.times (Nat.two_pow_pos k)

/-- Where there is room for all cells a round is not idle. -/
theorem Sized.round_ne_idle (ha : a.Sound) (hextent : 0 < a.tileExtent)
    (hsel : ∀ c ∈ sel, c ∈ a.cells) (h : Sized a sel s₀ k s)
    (hroom : s₀.query.Accommodates sel) (hpos : s.position = s.batch.rows)
    (hmore : s.visited < sel.length) : (round s).result ≠ .ok false := by
  intro hidle
  have hw := submitted_of_idle ha hsel h.serves hpos hmore hidle
  have hremaining : s.view.query.remaining = sel.drop s.visited := by
    rw [TiledQuery.remaining, h.serves.selected,
      show s.view.query.delivered = s.visited from h.delivered hpos]
  obtain ⟨r, hr, st, hst, hfull⟩ := hw.chose.idle (by rwa [h.serves.array]) rfl
    (by rw [hremaining]; simpa using hmore)
  refine hfull ((h.accommodates hroom r hr st hst).mono ?_)
  rw [hremaining]
  exact (List.take_sublist _ _).trans (List.drop_sublist _ _)

section

variable {Q : Type} [QueryEngine Q]

theorem close_memory (s : Scan Q) : s.close.allocator.memory = s.allocator.memory := by
  unfold close
  split
  · rfl
  · rfl

theorem handOut_memory (s : Scan Q) :
    s.handOut.scan.allocator.memory = s.allocator.memory := by
  simp only [handOut]
  split
  · exact close_memory _
  · rfl

end

/-- Where there is room for all cells, no call asks for the free memory. -/
theorem memory_persists (ha : a.Sound) (hextent : 0 < a.tileExtent)
    (hsel : ∀ c ∈ sel, c ∈ a.cells) (hroom : s₀.query.Accommodates sel) (m : Source UInt64) :
    Persists a sel s₀ (·.allocator.memory = m) where
  congr hsame h := (congrArg BufferAllocator.memory hsame.allocator).trans h
  close h := (close_memory _).trans h
  handOut h := (handOut_memory _).trans h
  fetch {k s} hsized hpos hmore h := by
    rw [submitLimit, fetch_of_round (hsized.round_ne_idle ha hextent hsel hroom hpos hmore)]
    have hround : (round s).scan.allocator.memory = m := by rw [round_allocator, h]
    exact Outcome.andThen_scan (P := fun t => t.allocator.memory = m) hround fun _ _ ht => ht

/-- Where there is room for all cells, no step is granted growth. -/
theorem Stage.stepGrowths_eq_zero (ha : a.Sound) (hextent : 0 < a.tileExtent)
    (hsel : ∀ c ∈ sel, c ∈ a.cells) (hroom : s₀.query.Accommodates sel)
    (h : Stage a sel s₀ k s) : s.stepGrowths = 0 := by
  rw [stepGrowths]
  split
  · next hfetches =>
      obtain ⟨hsized, hpos, hmore⟩ := h.fetches hfetches
      have hround := hsized.round_ne_idle ha hextent hsel hroom hpos hmore
      rw [submitLimit, granted, if_neg fun hidle => hround hidle.1]
  · rfl

theorem Stage.growths_eq_zero (ha : a.Sound) (hextent : 0 < a.tileExtent)
    (hsel : ∀ c ∈ sel, c ∈ a.cells) (hroom : s₀.query.Accommodates sel)
    (h : Stage a sel s₀ k s) (calls : List Call) : s.growths calls = 0 := by
  induction calls generalizing s k with
  | nil => rfl
  | cons c rest ih =>
      have hcall : s.callGrowths c = 0 := by
        unfold callGrowths
        split
        · exact Stage.stepGrowths_eq_zero ha hextent hsel hroom (s := s.now.2) (h.congr rfl rfl)
        · rfl
      rw [growths, hcall, ih (h.call ha hextent hsel c)]

/-! ## The start -/

section

variable {columns : List Column} {constraints : Constraints} {id : ScanId}
  {settings : ScanSettings} {memory : Source UInt64} {clock : Source Nat}

/-- The estimates of all fields are within the budget. -/
def EstimatesFit (budget : Nat) (s : Scan TiledQuery) : Prop :=
  ∀ f ∈ s.fields, ∀ e, s.query.estimate f.name f.shape = .ok e → e.FitsIn budget f

/-- The buffers of a field have just as many elements as the field takes for cells. -/
def Exact (a : TiledArray) (cells : List Cell) (f : Field) (b : NamedBuffers) : Prop :=
  FieldBuffers f b ∧ ∃ st, a.stored? f.name = some st ∧ st.shape = f.shape ∧
    b.buffers.capacities = st.capacities cells

/-- The first buffers have just as many elements as are needed, if the budget allows. -/
theorem start_exact (ha : a.Sound)
    (hs : start (TiledQuery.ofArray a) id settings columns constraints memory clock = ⟨.ok (), s⟩)
    (hserves : Serves a sel s.view) (hfits : EstimatesFit settings.bufferBudget s) :
    List.Forall₂ (Exact a sel) s.fields s.buffers := by
  rcases (start_prepared hs).2 with ⟨query, h⟩ | ⟨u, query, h, hok, hsame⟩
  · exact absurd (congrArg ScanView.buffers h.view) hserves.buffers_ne_nil
  · obtain ⟨es, bs, -, hall, hscan⟩ := provideBuffers_eq hok (congrArg ScanView.buffers h.view)
    have hbuffers : s.buffers = bs :=
      (congrArg ScanView.buffers hsame.view).trans (congrArg Scan.buffers hscan)
    have hfields : s.fields = u.fields :=
      (congrArg ScanView.fields hsame.view).trans (by rw [hscan]; rfl)
    have hquery : s.query = { u.query with
        registered := TiledQuery.putAll (bs.map NamedBuffers.registration) u.query.registered } :=
      (congrArg ScanView.query hsame.view).trans (congrArg Scan.query hscan)
    rw [← hbuffers, ← hfields] at hall
    have hcells : s.query.cellsInside = sel := by
      have hselected : s.query.selected = sel := hserves.selected
      rwa [TiledQuery.selected, show s.query.selection = none from
        (started_of_start ha hs).unselected, Option.getD_none] at hselected
    refine forall₂_of_getElem? hall.length_eq ?_
    intro i f hf
    obtain ⟨b, hb, e, hestimate, hallocate⟩ := forall₂_getElem? hall hf
    have hasked : s.query.estimate f.name f.shape = .ok e := by
      rw [hquery]
      exact hestimate
    obtain ⟨st, hst, hshape, rfl⟩ := TiledQuery.estimate_eq_ok hasked
    have hwithin := hfits f (List.mem_of_getElem? hf) _ hasked
    rw [show s.query.array = a from hserves.array] at hst
    rw [hcells] at hallocate hwithin
    refine ⟨b, hb, FieldBuffers.allocate hallocate, st, hst, hshape, ?_⟩
    obtain ⟨x, hx, rfl⟩ := map_eq_ok.1 hallocate
    rw [(ElementBuffers.allocate_hasLayout hx).capacities]
    exact BufferAllocator.initialCapacities_of_fits hshape (by rwa [h.allocator])

theorem accommodates_of_exact (hserves : Serves a sel s.view)
    (hexact : List.Forall₂ (Exact a sel) s.fields s.buffers) : s.query.Accommodates sel := by
  intro r hr st hst
  rw [show s.query.registered = _ from hserves.registered] at hr
  obtain ⟨b, hb, rfl⟩ := List.mem_map.1 hr
  obtain ⟨i, hi⟩ := List.mem_iff_getElem?.1 hb
  obtain ⟨f, -, hfield, st', hst', -, hcapacities⟩ := forall₂_getElem? hexact.flip hi
  rw [show s.query.array = a from hserves.array, NamedBuffers.registration, hfield.name, hst',
    Option.some.injEq] at hst
  subst hst
  show HasRoom b.buffers.capacities _ sel
  rw [hcapacities]
  exact st'.hasRoom_capacities sel

/-- Buffers with just as many elements hold no wider ones. -/
theorem not_outgrown_of_wrote (ha : a.Sound) (hsel : ∀ c ∈ sel, c ∈ a.cells) (hne : sel ≠ [])
    (hexact : List.Forall₂ (Exact a sel) s.fields s.buffers) {q : TiledQuery}
    {filled : List NamedBuffers} (hq : q.array = a)
    (hwrote : List.Forall₂ (q.Wrote sel) s.buffers filled) :
    ∀ f ∈ s.fields, ¬ f.outgrown a := by
  rintro f hf ⟨hvar, st, hst, hlt⟩
  obtain ⟨i, hi⟩ := List.mem_iff_getElem?.1 hf
  obtain ⟨b, hb, hfield, st', hst', hshape, hcapacities⟩ := forall₂_getElem? hexact hi
  obtain ⟨b', -, hwritten⟩ := forall₂_getElem? hwrote hb
  obtain ⟨st'', x, hst'', hfill, -⟩ := hwritten.filled
  rw [hst, Option.some.injEq] at hst'
  rw [hq, hfield.name, hst, Option.some.injEq] at hst''
  subst hst' hst''
  have hfixed : st.shape.varLen = false := by rw [hshape]; exact hvar
  have hpos : 0 < sel.length := List.length_pos_iff.2 hne
  have hcapacity : b.buffers.values.capacity = sel.length := by
    have hvalues := congrArg Capacities.values hcapacities
    rw [StoredField.capacities, st.sum_elements hfixed, Nat.max_eq_right hpos] at hvalues
    exact hvalues
  have hlen : (TiledQuery.valueBytes st b.buffers sel).length =
      sel.length * st.datatype.width := by
    rw [TiledQuery.valueBytes_length_fixed
      (fun c hc => (TiledArray.value?_spec hst (ha.fits c (hsel c hc))).1) hfixed,
      TiledQuery.valuesWritten, hfield.offsets, hvar, if_neg Bool.false_ne_true]
  have hle := (TiledQuery.roomFor_of_fill hfill).values
  rw [hlen, ElementBuffer.size, hcapacity, hfield.width] at hle
  exact absurd (Nat.le_of_mul_le_mul_left hle hpos) (Nat.not_le.2 hlt)

/-- With estimates within the budget, what is registered at the start has room for all cells. -/
theorem start_accommodates (ha : a.Sound)
    (hs : start (TiledQuery.ofArray a) id settings columns constraints memory clock = ⟨.ok (), s⟩)
    (hfits : a.admitted constraints ≠ [] → EstimatesFit settings.bufferBudget s) :
    s.query.Accommodates (a.admitted constraints) := by
  by_cases hnone : a.admitted constraints = []
  · intro r _ st _
    rw [hnone]
    exact ⟨Nat.zero_le _, fun _ _ => Nat.zero_le _, fun _ _ => Nat.zero_le _⟩
  · have hserves := (started_of_start ha hs).rows.resolve_right fun h => hnone h.2.2.1
    exact accommodates_of_exact hserves (start_exact ha hs hserves (hfits hnone))

end

/-- Estimates are exact: what a query estimates of a field before its first submit is what its
    submits hand out of the field, if no ranges come in between and they hand out everything. So the
    first buffers of a scan are enough if the estimates of its fields are within the budget: the
    first submit is answered unless the elements stored under the name of a field are wider than
    those of the field, which needs that there are no columns, and it takes all cells; no call grows
    the buffers, or as much as asks for the free memory. -/
theorem estimates_suffice {schema : Schema} {tileExtent : Nat} {cells : List Cell}
    (ha : TiledArray.ofCells schema tileExtent cells = .ok a) :
    (∀ (requests more : List Request) (name : String) (st : StoredField),
      let before := Session.run a requests
      let after := Session.run a (requests ++ more)
      a.stored? name = some st → after.ranges = before.ranges → after.Drains name →
        before.query.estimate name st.shape = .ok (after.delivered name st.shape)) ∧
    ∀ (id : ScanId) (settings : ScanSettings) (columns : List Column) (constraints : Constraints)
      (memory : Source UInt64) (clock : Source Nat) (s : Scan TiledQuery),
      let sel := a.admitted constraints
      start (TiledQuery.ofArray a) id settings columns constraints memory clock = ⟨.ok (), s⟩ →
      (sel ≠ [] → EstimatesFit settings.bufferBudget s) →
      (∀ f ∈ s.fields, f.outgrown a → f.shadowed schema ∧ columns = []) ∧
      (sel ≠ [] →
        ((∃ status, (s.query.submit s.buffers).1 = .ok status) ↔
          ∀ f ∈ s.fields, ¬ f.outgrown a) ∧
        ∀ status filled q, s.query.submit s.buffers = (.ok status, filled, q) →
          status = .completed ∧ q.delivered = sel.length ∧
            List.Forall₂ (q.Wrote sel) s.buffers filled) ∧
      ∀ calls : List Call, let t := s.afterCalls calls
        t.allocator.memory = s.allocator.memory ∧ s.growths calls = 0 ∧
          t.peakMemoryUse = s.memoryUse ∧ (t.isClosed = false → t.memoryUse = s.memoryUse) := by
  obtain ⟨hsound, -⟩ := TiledArray.sound_ofCells ha
  have hextent := TiledArray.tileExtent_pos_ofCells ha
  refine ⟨?_, ?_⟩
  · intro requests more name st before after hst hranges hdrains
    exact Session.estimate_eq_delivered hsound hst hranges hdrains
  · intro id settings columns constraints memory clock s sel hs hfits
    have hsel : ∀ c ∈ sel, c ∈ a.cells := fun c hc => TiledArray.mem_of_mem_admitted hc
    have hroom : s.query.Accommodates sel := start_accommodates hsound hs hfits
    have hstarted := started_of_start hsound hs
    refine ⟨fun f hf hout => noColumns_of_outgrown ha hs hf hout, ?_, ?_⟩
    · intro hne
      have hserves : Serves a sel s.view := hstarted.rows.resolve_right fun h => hne h.2.2.1
      have hcompletes : ∀ status filled q, s.query.submit s.buffers = (.ok status, filled, q) →
          status = .completed ∧ q.delivered = sel.length ∧
            List.Forall₂ (q.Wrote sel) s.buffers filled := fun status filled q h =>
        hserves.submit_completes hextent hstarted.delivered hroom h
      refine ⟨?_, hcompletes⟩
      rcases hsubmit : s.query.submit s.buffers with ⟨e | status, filled, q⟩
      · refine ⟨fun ⟨_, h⟩ => (nomatch h), fun hclear => ?_⟩
        obtain ⟨f, hf, hout, -⟩ :=
          hserves.outgrown_of_submit hsound hsel (congrArg Prod.fst hsubmit)
        exact absurd hout (hclear f hf)
      · refine ⟨fun _ => ?_, fun _ => ⟨status, rfl⟩⟩
        have hq : q.array = a := by
          obtain ⟨ts, -, -, rfl, -⟩ := TiledQuery.submit_eq_ok hsubmit
          exact hserves.array
        exact not_outgrown_of_wrote hsound hsel hne (start_exact hsound hs hserves (hfits hne)) hq
          (hcompletes status filled q hsubmit).2.2
    · intro calls t
      have hstart := start_stage hsound hs
      have hnone := hstart.growths_eq_zero hsound hextent hsel hroom calls
      have hunread := (memory_persists hsound hextent hsel hroom s.allocator.memory).calls hsound
        hextent hsel hstart rfl calls
      obtain ⟨hstage, -⟩ := stage_afterCalls ha hs calls
      rw [hnone] at hstage
      refine ⟨hunread, hnone, ?_, fun hopen => ?_⟩
      · rw [hstage.peak, Nat.pow_zero, Nat.one_mul]
      · rw [(hstage.doubled hopen).memoryUse, Nat.pow_zero, Nat.one_mul]

/-- A scan of four rows in tiles of two, with a budget of just the bytes that they take and no
    memory free. -/
def tallyScan : Outcome TiledQuery Unit :=
  start (TiledQuery.ofArray Session.tally) ⟨"tally"⟩ { bufferBudget := 32 }
    [⟨"row", .bigInt, true⟩] {} (.constant 0) (Source.constant 0)

theorem tallyScan_suffices :
    (Session.run Session.tally (Session.tallyRequests.take 2)).query.estimate "row"
        ⟨false, false⟩ = .ok ⟨none, 3, none⟩ ∧
      (tallyScan.scan.query.submit tallyScan.scan.buffers).1 = .ok .completed ∧
      (tallyScan.scan.afterCalls (List.replicate 5 .advance)).allocator.memory.asked = 0 ∧
      (tallyScan.scan.afterCalls [.advance, .observe]).memoryUse = 32 := by
  have hcells : TiledArray.ofCells Session.tally.schema 2 Session.tally.cells =
      .ok Session.tally :=
    TiledArray.ofCells_of_sorted (by decide) (by decide) (by decide +kernel) (by decide +kernel)
  have hstart : tallyScan = ⟨.ok (), tallyScan.scan⟩ := by
    have hresult : tallyScan.result = .ok () := by decide +kernel
    rw [← hresult]
  obtain ⟨hexact, hscans⟩ := estimates_suffice hcells
  have hfields : tallyScan.scan.fields =
      [⟨0, "row", .int64, false, false, .bigInt, .ofDimension 0⟩] := by decide +kernel
  have hestimate : tallyScan.scan.query.estimate "row" ⟨false, false⟩ = .ok ⟨none, 4, none⟩ := by
    decide +kernel
  have hfits : EstimatesFit 32 tallyScan.scan := by
    intro f hf e he
    rw [hfields, List.mem_singleton] at hf
    subst hf
    cases hestimate.symm.trans he
    exact ⟨by decide, by decide, by decide⟩
  obtain ⟨-, hfirst, hcalls⟩ := hscans _ _ _ _ _ _ _ hstart fun _ => hfits
  refine ⟨?_, ?_, ?_, ?_⟩
  · have hdrains : (Session.run Session.tally Session.tallyRequests).Drains "row" := by
      refine ⟨?_, ?_⟩
      · show ∀ sub ∈ _, _
        decide +kernel
      · decide +kernel
    have hdelivered : (Session.run Session.tally Session.tallyRequests).delivered "row"
        ⟨false, false⟩ = ⟨none, 3, none⟩ := by decide +kernel
    rw [← hdelivered]
    exact hexact (Session.tallyRequests.take 2) (Session.tallyRequests.drop 2) "row"
      ⟨.ofDimension 0, .int64, ⟨false, false⟩⟩ (by decide +kernel) (by decide +kernel) hdrains
  · obtain ⟨hanswers, hcompletes⟩ := hfirst (by decide +kernel)
    obtain ⟨status, hstatus⟩ := hanswers.2 (by
      rw [hfields]
      rintro f hf ⟨-, st, hst, hlt⟩
      rw [List.mem_singleton] at hf
      subst hf
      cases hst
      exact absurd hlt (by decide))
    rw [hstatus, (hcompletes status _ _ (by rw [← hstatus])).1]
  · rw [(hcalls _).1]
    decide +kernel
  · rw [(hcalls _).2.2.2 (by decide +kernel)]
    decide +kernel

/-! ## An attribute that is wider than the dimension of its name -/

def stretchedCells : List Cell := [⟨[.small .uint8 1], [some (.small .uint32 9)]⟩]

def stretched : TiledArray :=
  ⟨⟨[⟨"id", .uint8, false⟩], [⟨"id", .uint32, false, false⟩]⟩, stretchedCells, 1⟩

def stretchedScan : Outcome TiledQuery Unit :=
  start (TiledQuery.ofArray stretched) ⟨"stretched"⟩ {} [] {} (.constant (2 ^ 40)) (.constant 0)

/-- Without columns the scan reads the dimension. Its estimate is one element, which is within the
    budget, but the first submit writes outside the buffer and hands out nothing. -/
theorem stretchedScan_fails :
    TiledArray.ofCells stretched.schema 1 stretchedCells = .ok stretched ∧
      stretchedScan.result = .ok () ∧
      EstimatesFit ({} : ScanSettings).bufferBudget stretchedScan.scan ∧
      (stretchedScan.scan.query.submit stretchedScan.scan.buffers).1 =
        .error (.abort (.writeOutside "id" .values)) ∧
      stretchedScan.scan.advance.result =
        .error (.storage (.abort (.writeOutside "id" .values))) := by
  have hfields : stretchedScan.scan.fields =
      [⟨0, "id", .uint8, false, false, .smallInt, .ofDimension 0⟩] := by decide +kernel
  have hestimate : stretchedScan.scan.query.estimate "id" ⟨false, false⟩ =
      .ok ⟨none, 1, none⟩ := by decide +kernel
  refine ⟨?_, by decide +kernel, ?_, by decide +kernel, by decide +kernel⟩
  · exact TiledArray.ofCells_of_sorted (by decide) (by decide) (by decide +kernel)
      (by decide +kernel)
  · intro f hf e he
    rw [hfields, List.mem_singleton] at hf
    subst hf
    cases hestimate.symm.trans he
    exact ⟨by decide, by decide, by decide⟩

end Scan

end SparseScan
