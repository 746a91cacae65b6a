import SparseScan.Proofs.Scan.Footprint
import SparseScan.Proofs.Scan.Prepared
import SparseScan.Proofs.Scan.Release

set_option autoImplicit false

/-! # What a scan holds between its calls

A scan that has started serves cells, and then its buffers have all grown alike (`Sized`), or it has
no cells and no buffers, or it has been closed (`Stage`). A step keeps this account and grows the
buffers only in a fetch (`Stage.step`), and so does any run of calls (`Stage.calls`). What a fetch,
a row and the end keep, any run of calls keeps (`Persists.calls`). What is noted of the footprint is
right from the start on (`start_stage`). -/

namespace SparseScan

namespace Scan

variable {a : TiledArray} {sel : List Cell} {s₀ s t : Scan TiledQuery} {k : Nat}

/-! ## Calls -/

/-- A scan that found no cells to hand out has no buffers. -/
structure Rowless (s : Scan TiledQuery) : Prop where
  isOpen : s.isClosed = false
  upperBound : s.upperBound = 0
  bufferless : Bufferless s.view
  footprint : s.allocator.footprint = {}

/-- A scan that has been closed after `k` growths has no buffers either, but knows the peak. -/
structure Ended (a : TiledArray) (sel : List Cell) (s₀ : Scan TiledQuery) (k : Nat)
    (s : Scan TiledQuery) : Prop where
  isClosed : s.isClosed = true
  buffers : s.buffers = []
  footprint : s.allocator.footprint = ⟨0, 2 ^ k * s₀.memoryUse⟩
  needed : k = 0 ∨ 2 ^ (k - 1) < a.largestNeed s₀.fields sel

/-- Where a scan is between two calls, `k` growths after it was `s₀`. -/
inductive Stage (a : TiledArray) (sel : List Cell) (s₀ : Scan TiledQuery) :
    Nat → Scan TiledQuery → Prop
  | serving {k : Nat} {s : Scan TiledQuery} (h : Sized a sel s₀ k s) : Stage a sel s₀ k s
  | rowless {s : Scan TiledQuery} (hinitial : s₀.buffers = []) (h : Rowless s) : Stage a sel s₀ 0 s
  | ended {k : Nat} {s : Scan TiledQuery} (h : Ended a sel s₀ k s) : Stage a sel s₀ k s

instance (s : Scan TiledQuery) : Decidable (Fetches s) :=
  decidable_of_iff (s.isClosed = false ∧ s.visited < s.upperBound ∧ s.batch.rows ≤ s.position ∧
    s.status ≠ .completed) ⟨fun h => ⟨h.1, h.2.1, h.2.2.1, h.2.2.2⟩,
      fun h => ⟨h.isOpen, h.more, h.used, h.incomplete⟩⟩

/-- How many growths the next step is granted. -/
def stepGrowths (s : Scan TiledQuery) : Nat :=
  if Fetches s then granted submitLimit s else 0

/-- How many growths a call is granted; only an advance takes a step, after a reading of the
    time. -/
def callGrowths (s : Scan TiledQuery) : Call → Nat
  | .advance => s.now.2.stepGrowths
  | _ => 0

/-- How many growths calls are granted. -/
def growths (s : Scan TiledQuery) : List Call → Nat
  | [] => 0
  | c :: rest => s.callGrowths c + (s.afterCall c).growths rest

theorem close_eq (hopen : s.isClosed = false) :
    s.close.buffers = [] ∧ s.close.allocator.footprint = ⟨0, s.allocator.footprint.peak⟩ := by
  have hpeak : max s.allocator.footprint.peak 0 = s.allocator.footprint.peak := Nat.max_zero _
  rw [close, if_neg (by simp [hopen])]
  refine ⟨rfl, ?_⟩
  show Footprint.mk 0 (max s.allocator.footprint.peak 0) = _
  rw [hpeak]

theorem Sized.close (h : Sized a sel s₀ k s) : Ended a sel s₀ k s.close := by
  obtain ⟨hbuffers, hfootprint⟩ := close_eq h.serves.isOpen
  refine ⟨isClosed_close s, hbuffers, ?_, h.needed⟩
  rw [hfootprint, h.footprint, h.memoryUse]

theorem Rowless.close (h : Rowless s) (hinitial : s₀.buffers = []) :
    Ended a sel s₀ 0 s.close := by
  obtain ⟨hbuffers, hfootprint⟩ := close_eq h.isOpen
  refine ⟨isClosed_close s, hbuffers, ?_, Or.inl rfl⟩
  rw [hfootprint, h.footprint, Scan.memoryUse, hinitial]
  rfl

theorem Stage.close (h : Stage a sel s₀ k s) : Stage a sel s₀ k s.close := by
  rcases h with h | ⟨hinitial, h⟩ | h
  · exact .ended h.close
  · exact .ended (h.close hinitial)
  · rw [close_of_isClosed s h.isClosed]
    exact .ended h

/-- What a stage says does not depend on times. -/
theorem Stage.congr (h : Stage a sel s₀ k s) (hview : t.view = s.view)
    (hfootprint : t.allocator.footprint = s.allocator.footprint) : Stage a sel s₀ k t := by
  have hbuffers : t.buffers = s.buffers := congrArg ScanView.buffers hview
  have hclosed : t.isClosed = s.isClosed := congrArg ScanView.isClosed hview
  rcases h with h | ⟨hinitial, h⟩ | h
  · exact .serving (h.congr hview hfootprint)
  · refine .rowless hinitial ⟨hclosed.trans h.isOpen, ?_, hview ▸ h.bufferless, ?_⟩
    · exact (congrArg ScanView.upperBound hview).trans h.upperBound
    · exact hfootprint.trans h.footprint
  · exact .ended ⟨hclosed.trans h.isClosed, hbuffers.trans h.buffers, hfootprint.trans h.footprint,
      h.needed⟩

/-- Handing out a row of the batch touches no buffers. -/
theorem Sized.handOut (h : Sized a sel s₀ k s) (hlt : s.position < s.batch.rows)
    (hmore : s.visited < sel.length) : Sized a sel s₀ k s.handOut.scan := by
  obtain ⟨hout, hserves⟩ := handOut_serves h.serves hlt hmore
  rw [hout]
  exact ⟨h.initial, hserves, h.fields, h.scaled, h.footprint, h.aligned, h.needed⟩

/-- A step fetches only while there are cells left to serve. -/
theorem Stage.fetches (h : Stage a sel s₀ k s) (hfetches : Fetches s) :
    Sized a sel s₀ k s ∧ s.position = s.batch.rows ∧ s.visited < sel.length := by
  rcases h with h | ⟨-, h⟩ | h
  · refine ⟨h, le_antisymm h.serves.position_le_rows hfetches.used, ?_⟩
    rw [← show s.upperBound = sel.length from h.serves.upperBound]
    exact hfetches.more
  · exact absurd hfetches.more (by simp [h.upperBound])
  · exact absurd hfetches.isOpen (by simp [h.isClosed])

/-- A step that fetches grows the buffers as often as it is granted, and fails as the fetch does. -/
theorem Sized.step_fetches (ha : a.Sound) (hextent : 0 < a.tileExtent)
    (hsel : ∀ c ∈ sel, c ∈ a.cells) (h : Sized a sel s₀ k s) (hpos : s.position = s.batch.rows)
    (hmore : s.visited < sel.length) (hfetches : Fetches s) :
    Sized a sel s₀ (k + s.stepGrowths) s.step.scan ∧
      ∀ e, s.step.result = .error e → Accounted a s₀.fields e := by
  have hends := fetchEnds (fetch_ne_stalled le_rfl (Serves.isReady h.serves).room)
  obtain ⟨hsized, hvisited, hrows, herrors⟩ := hends.fetched ha hextent hsel h hpos hmore
  rw [step_of_fetches hfetches, stepGrowths, if_pos hfetches]
  generalize fetch submitLimit s = o at hsized hvisited hrows herrors ⊢
  rcases o with ⟨e | _, t⟩
  · refine ⟨hsized, ?_⟩
    rintro _ ⟨⟩
    exact herrors e rfl
  · obtain ⟨hzero, hsome⟩ := hrows rfl
    have hlt : t.position < t.batch.rows := lt_of_eq_of_lt hzero hsome
    have hleft : t.visited < sel.length := lt_of_eq_of_lt hvisited hmore
    refine ⟨hsized.handOut hlt hleft, ?_⟩
    intro e he
    rw [Outcome.andThen_ok, (handOut_serves hsized.serves hlt hleft).1] at he
    cases he

theorem Stage.step (ha : a.Sound) (hextent : 0 < a.tileExtent) (hsel : ∀ c ∈ sel, c ∈ a.cells)
    (h : Stage a sel s₀ k s) : Stage a sel s₀ (k + s.stepGrowths) s.step.scan ∧
      ∀ e, s.step.result = .error e → Accounted a s₀.fields e := by
  by_cases hfetches : Fetches s
  · obtain ⟨hserving, hpos, hmore⟩ := h.fetches hfetches
    obtain ⟨hsized, herrors⟩ := hserving.step_fetches ha hextent hsel hpos hmore hfetches
    exact ⟨.serving hsized, herrors⟩
  · obtain ⟨more, hok⟩ := step_of_not_fetches hfetches
    rw [stepGrowths, if_neg hfetches]
    refine ⟨?_, fun e he => nomatch hok.symm.trans he⟩
    unfold Scan.step
    split_ifs with hclosed hbound hrows hdone
    · exact h
    · exact h.close
    · rcases h with h | ⟨-, h⟩ | h
      · refine .serving (h.handOut hrows ?_)
        rw [← show s.upperBound = sel.length from h.serves.upperBound]
        exact Nat.not_le.1 hbound
      · rw [h.upperBound] at hbound
        exact absurd (Nat.zero_le _) hbound
      · exact absurd h.isClosed hclosed
    · exact h.close
    · exact absurd ⟨by simpa using hclosed, Nat.not_le.1 hbound, Nat.not_lt.1 hrows, hdone⟩ hfetches

theorem now_same (s : Scan TiledQuery) : SameButTime s.now.2 s := ⟨rfl, rfl, rfl⟩

theorem advance_same (s : Scan TiledQuery) : SameButTime s.advance.scan s.now.2.step.scan := by
  unfold Scan.advance
  exact ⟨timed_view _ _ _, timed_allocator _ _ _, rfl⟩

theorem openTime_same (s : Scan TiledQuery) : SameButTime s.openTime.2 s := by
  unfold openTime
  split
  · exact ⟨rfl, rfl, rfl⟩
  · exact now_same s

/-- A call keeps the account, and an advance fails only for what is accounted for. -/
theorem Stage.advance (ha : a.Sound) (hextent : 0 < a.tileExtent) (hsel : ∀ c ∈ sel, c ∈ a.cells)
    (h : Stage a sel s₀ k s) : Stage a sel s₀ (k + s.callGrowths .advance) s.advance.scan ∧
      ∀ e, s.advance.result = .error e → Accounted a s₀.fields e := by
  have hnow : Stage a sel s₀ k s.now.2 := h.congr rfl rfl
  obtain ⟨hstep, herrors⟩ := hnow.step ha hextent hsel
  have hsame := advance_same s
  refine ⟨hstep.congr hsame.view (congrArg _ hsame.allocator), ?_⟩
  rw [Scan.advance, timed_result]
  exact herrors

theorem Stage.call (ha : a.Sound) (hextent : 0 < a.tileExtent) (hsel : ∀ c ∈ sel, c ∈ a.cells)
    (h : Stage a sel s₀ k s) (c : Call) : Stage a sel s₀ (k + s.callGrowths c) (s.afterCall c) := by
  rcases c with _ | _ | _ | _
  · exact (h.advance ha hextent hsel).1
  · exact h.close
  · have hsame := openTime_same s
    exact h.congr hsame.view (congrArg _ hsame.allocator)
  · exact h

theorem Stage.calls (ha : a.Sound) (hextent : 0 < a.tileExtent) (hsel : ∀ c ∈ sel, c ∈ a.cells)
    (h : Stage a sel s₀ k s) (calls : List Call) :
    Stage a sel s₀ (k + s.growths calls) (s.afterCalls calls) := by
  induction calls generalizing s k with
  | nil => exact h
  | cons c rest ih =>
      have hrest := ih (h.call ha hextent hsel c)
      rw [Nat.add_assoc] at hrest
      exact hrest

/-! ## What calls keep -/

/-- What a scan keeps when it fetches, hands out a row or is closed, and at any time. -/
structure Persists (a : TiledArray) (sel : List Cell) (s₀ : Scan TiledQuery)
    (P : Scan TiledQuery → Prop) : Prop where
  congr : ∀ {s t : Scan TiledQuery}, SameButTime t s → P s → P t
  close : ∀ {s : Scan TiledQuery}, P s → P s.close
  handOut : ∀ {s : Scan TiledQuery}, P s → P s.handOut.scan
  fetch : ∀ {k : Nat} {s : Scan TiledQuery}, Sized a sel s₀ k s → s.position = s.batch.rows →
    s.visited < sel.length → P s → P (fetch submitLimit s).scan

section

variable {P : Scan TiledQuery → Prop}

/-- A step that does not fetch hands out a row, or closes the scan, or does nothing. -/
theorem step_unfetched (hclose : ∀ {s : Scan TiledQuery}, P s → P s.close)
    (hhandOut : ∀ {s : Scan TiledQuery}, P s → P s.handOut.scan) (hnot : ¬ Fetches s) (hs : P s) :
    P s.step.scan := by
  unfold Scan.step
  split_ifs with hclosed hbound hrows hdone
  · exact hs
  · exact hclose hs
  · exact hhandOut hs
  · exact hclose hs
  · exact absurd ⟨by simpa using hclosed, Nat.not_le.1 hbound, Nat.not_lt.1 hrows, hdone⟩ hnot

theorem Persists.step (hP : Persists a sel s₀ P) (h : Stage a sel s₀ k s) (hs : P s) :
    P s.step.scan := by
  by_cases hfetches : Fetches s
  · obtain ⟨hsized, hpos, hmore⟩ := h.fetches hfetches
    rw [step_of_fetches hfetches]
    exact Outcome.andThen_scan (P := P) (hP.fetch hsized hpos hmore hs) fun _ _ => hP.handOut
  · exact step_unfetched hP.close hP.handOut hfetches hs

theorem Persists.call (hP : Persists a sel s₀ P) (h : Stage a sel s₀ k s) (hs : P s) (c : Call) :
    P (s.afterCall c) := by
  rcases c with _ | _ | _ | _
  · have hnow : P s.now.2 := hP.congr (now_same s) hs
    exact hP.congr (advance_same s) (hP.step (s := s.now.2) (h.congr rfl rfl) hnow)
  · exact hP.close hs
  · exact hP.congr (openTime_same s) hs
  · exact hs

/-- What persists holds after any calls. -/
theorem Persists.calls (hP : Persists a sel s₀ P) (ha : a.Sound) (hextent : 0 < a.tileExtent)
    (hsel : ∀ c ∈ sel, c ∈ a.cells) (h : Stage a sel s₀ k s) (hs : P s) (calls : List Call) :
    P (s.afterCalls calls) := by
  induction calls generalizing s k with
  | nil => exact hs
  | cons c rest ih => exact ih (h.call ha hextent hsel c) (hP.call h hs c)

end

/-! ## The start -/

/-- What is noted of the footprint is what the buffers take, and has never been more. -/
def Noted (s : Scan TiledQuery) : Prop :=
  s.allocator.footprint = ⟨s.memoryUse, s.memoryUse⟩

theorem start_noted {q : TiledQuery} {id : ScanId} {settings : ScanSettings}
    {columns : List Column} {constraints : Constraints} {memory : Source UInt64}
    {clock : Source Nat}
    (hs : start q id settings columns constraints memory clock = ⟨.ok (), s⟩) : Noted s := by
  rcases (start_prepared hs).2 with ⟨query, h⟩ | ⟨u, query, h, hok, hsame⟩
  · have hbuffers : s.buffers = [] := congrArg ScanView.buffers h.view
    rw [Noted, h.allocator, Scan.memoryUse, hbuffers]
    rfl
  · obtain ⟨es, bs, -, -, hscan⟩ := provideBuffers_eq hok (congrArg ScanView.buffers h.view)
    have hbuffers : s.buffers = bs :=
      (congrArg ScanView.buffers hsame.view).trans (congrArg Scan.buffers hscan)
    have hallocator : s.allocator = u.allocator.record bs :=
      hsame.allocator.trans (congrArg Scan.allocator hscan)
    rw [Noted, hallocator, h.allocator, Scan.memoryUse, hbuffers]
    show Footprint.mk (NamedBuffers.footprint bs) (max 0 (NamedBuffers.footprint bs)) = _
    rw [Nat.zero_max]

/-- A scan that has started serves cells, with its buffers at their first size, or has none. -/
theorem start_stage {id : ScanId} {settings : ScanSettings} {columns : List Column}
    {constraints : Constraints} {memory : Source UInt64} {clock : Source Nat} (ha : a.Sound)
    (hs : start (TiledQuery.ofArray a) id settings columns constraints memory clock = ⟨.ok (), s⟩) :
    Stage a (a.admitted constraints) s 0 s := by
  have hstarted := started_of_start ha hs
  have hnoted : Noted s := start_noted hs
  rcases hstarted.rows with hserves | ⟨hopen, hupper, -, hbufferless⟩
  · refine .serving ⟨hserves, hserves, rfl, ?_, hnoted, Or.inr ?_, Or.inl rfl⟩
    · refine List.forall₂_same.2 ?_
      intro b hb
      obtain ⟨f, -, hfield, -⟩ := hserves.field_of_mem hb
      exact ⟨rfl, rfl, by rw [Nat.pow_zero, Capacities.times_one]; exact hfield.layout⟩
    · rw [show s.query.delivered = 0 from hstarted.delivered]
      exact Nat.dvd_zero _
  · refine .rowless hbufferless.buffers ⟨hopen, hupper, hbufferless, ?_⟩
    rw [hnoted, Scan.memoryUse, show s.buffers = [] from hbufferless.buffers]
    rfl

/-! ## Whole runs -/

/-- The buffers of an open scan have `2 ^ k` times the capacities that they have in `s₀`, for
    elements of the same widths, and the query knows of just these, in the order of the fields. -/
structure Doubled (k : Nat) (s₀ s : Scan TiledQuery) : Prop where
  scaled : List.Forall₂ (NamedBuffers.Scaled (2 ^ k)) s₀.buffers s.buffers
  registered : s.query.registered = s.buffers.map NamedBuffers.registration
  named : s.buffers.map (·.name) = s.fields.map Field.name ∨ s.upperBound = 0 ∧ s.buffers = []
  memoryUse : s.memoryUse = 2 ^ k * s₀.memoryUse

theorem Stage.doubled (h : Stage a sel s₀ k s) (hopen : s.isClosed = false) : Doubled k s₀ s := by
  rcases h with h | ⟨hinitial, h⟩ | h
  · exact ⟨h.scaled, h.serves.registered, Or.inl (forall₂_names h.serves.buffers), h.memoryUse⟩
  · have hbuffers : s.buffers = [] := h.bufferless.buffers
    refine ⟨?_, ?_, Or.inr ⟨h.upperBound, hbuffers⟩, ?_⟩
    · rw [hinitial, hbuffers]
      exact .nil
    · rw [hbuffers]
      exact h.bufferless.registered
    · rw [Scan.memoryUse, Scan.memoryUse, hbuffers, hinitial]
      rfl
  · rw [h.isClosed] at hopen
    cases hopen

theorem Stage.peak (h : Stage a sel s₀ k s) : s.peakMemoryUse = 2 ^ k * s₀.memoryUse := by
  rcases h with h | ⟨hinitial, h⟩ | h
  · rw [peakMemoryUse, h.footprint, h.memoryUse]
  · rw [peakMemoryUse, h.footprint, Scan.memoryUse, hinitial]
    rfl
  · rw [peakMemoryUse, h.footprint]

/-- A closed scan has no buffers left. -/
theorem Stage.memoryUse_of_isClosed (h : Stage a sel s₀ k s) (hclosed : s.isClosed = true) :
    s.memoryUse = 0 := by
  rcases h with h | ⟨-, h⟩ | h
  · rw [show s.isClosed = false from h.serves.isOpen] at hclosed
    cases hclosed
  · rw [h.isOpen] at hclosed
    cases hclosed
  · rw [Scan.memoryUse, h.buffers]
    rfl

section

variable {schema : Schema} {tileExtent : Nat} {cells : List Cell} {id : ScanId}
  {settings : ScanSettings} {columns : List Column} {constraints : Constraints}
  {memory : Source UInt64} {clock : Source Nat}

/-- The account of a scan over all calls, and what the next call can fail with. -/
theorem stage_afterCalls (ha : TiledArray.ofCells schema tileExtent cells = .ok a)
    (hs : start (TiledQuery.ofArray a) id settings columns constraints memory clock = ⟨.ok (), s⟩)
    (calls : List Call) :
    Stage a (a.admitted constraints) s (s.growths calls) (s.afterCalls calls) ∧
      ∀ e, (s.afterCalls calls).advance.result = .error e → Accounted a s.fields e := by
  obtain ⟨hsound, -⟩ := TiledArray.sound_ofCells ha
  have hextent := TiledArray.tileExtent_pos_ofCells ha
  have hsel : ∀ c ∈ a.admitted constraints, c ∈ a.cells := fun c hc =>
    TiledArray.mem_of_mem_admitted hc
  have hstage := (start_stage hsound hs).calls hsound hextent hsel calls
  rw [Nat.zero_add] at hstage
  exact ⟨hstage, (hstage.advance hsound hextent hsel).2⟩

/-- Fields are outgrown only by what is found in their place, for want of columns. -/
theorem noColumns_of_outgrown (ha : TiledArray.ofCells schema tileExtent cells = .ok a)
    (hs : start (TiledQuery.ofArray a) id settings columns constraints memory clock = ⟨.ok (), s⟩)
    {f : Field} (hf : f ∈ s.fields) (hout : f.outgrown a) :
    f.shadowed schema ∧ columns = [] := by
  obtain ⟨hsound, hschema, -⟩ := TiledArray.sound_ofCells ha
  obtain ⟨hprojected, hshadowed⟩ := project_spec (started_of_start hsound hs).fields
  have hshadow := shadowed_of_outgrown hprojected hf hout
  exact ⟨hschema ▸ hshadow, hshadowed f hf hshadow⟩

/-- Between any two calls, all buffers of an open scan have `2 ^ k` times the capacities that they
    began with, where `k` is how many growths have been granted; the query knows of just these, and
    they are the most that the scan has taken. A closed scan takes nothing. A call fails for want of
    memory, or because the elements stored under the name of a field are wider than those of the
    field, which needs that there are no columns. -/
theorem start_scales_buffers (ha : TiledArray.ofCells schema tileExtent cells = .ok a)
    (hs : start (TiledQuery.ofArray a) id settings columns constraints memory clock = ⟨.ok (), s⟩) :
    (∀ f ∈ s.fields, f.outgrown a → f.shadowed schema ∧ columns = []) ∧
    ∀ calls : List Call, let t := s.afterCalls calls
      (t.isClosed = false → Doubled (s.growths calls) s t) ∧
      t.peakMemoryUse = 2 ^ s.growths calls * s.memoryUse ∧
      (t.isClosed = true → t.memoryUse = 0) ∧
      t.close.memoryUse = 0 ∧ t.close.peakMemoryUse = t.peakMemoryUse ∧
      ∀ e, t.advance.result = .error e → Accounted a s.fields e := by
  refine ⟨fun f hf hout => noColumns_of_outgrown ha hs hf hout, ?_⟩
  intro calls t
  obtain ⟨hstage, herrors⟩ := stage_afterCalls ha hs calls
  have hclosed := hstage.close
  refine ⟨hstage.doubled, hstage.peak, hstage.memoryUse_of_isClosed, ?_, ?_, herrors⟩
  · exact hclosed.memoryUse_of_isClosed (isClosed_close t)
  · exact hclosed.peak.trans hstage.peak.symm

end

/-- A scan of rows in tiles of two, into a buffer for one of them, with memory enough. -/
def ampleScan : Outcome TiledQuery Unit :=
  start (TiledQuery.ofArray pairs) ⟨"pairs"⟩ { bufferBudget := 8 } [⟨"row", .bigInt, true⟩] {}
    (.constant 1000) (Source.constant 0)

/-- Its first call doubles the buffer, and so does what the query knows of it. -/
theorem ampleScan_doubles :
    Doubled 1 ampleScan.scan (ampleScan.scan.afterCalls [.openTime, .advance]) ∧
      (ampleScan.scan.afterCalls [.openTime, .advance]).query.registered =
        [("row", ⟨none, 2, none⟩)] ∧
      (ampleScan.scan.afterCalls [.openTime, .advance]).memoryUse = 16 ∧
      (ampleScan.scan.afterCalls [.openTime, .advance]).close.peakMemoryUse = 16 := by
  have hcells : TiledArray.ofCells pairs.schema 2 pairs.cells = .ok pairs :=
    TiledArray.ofCells_of_sorted (by decide) (by decide) (by decide +kernel) (by decide +kernel)
  have hstart : ampleScan = ⟨.ok (), ampleScan.scan⟩ := by
    have hresult : ampleScan.result = .ok () := by decide +kernel
    rw [← hresult]
  obtain ⟨hopen, hpeak, -, -, hclose, -⟩ :=
    (start_scales_buffers hcells hstart).2 [.openTime, .advance]
  have hgrowths : ampleScan.scan.growths [.openTime, .advance] = 1 := by decide +kernel
  have huse : ampleScan.scan.memoryUse = 8 := by decide +kernel
  have hdoubled := hopen (by decide +kernel)
  rw [hgrowths] at hdoubled hpeak
  refine ⟨hdoubled, by decide +kernel, ?_, ?_⟩
  · rw [hdoubled.memoryUse, huse]
    rfl
  · rw [hclose, hpeak, huse]
    rfl

/-! ## An attribute that is wider than the dimension of its name -/

def outgrownCells : List Cell :=
  [⟨[.small .int8 1], [some (.small .int64 7)]⟩, ⟨[.small .int8 2], [some (.small .int64 8)]⟩]

def outgrown : TiledArray :=
  ⟨⟨[⟨"row", .int8, false⟩], [⟨"row", .int64, false, false⟩]⟩, outgrownCells, 1⟩

/-- Without columns the scan reads the dimension, and the elements of the attribute do not fit into
    its buffer: the first submit writes outside it. -/
theorem outgrownScan_writes_outside :
    TiledArray.ofCells outgrown.schema 1 outgrownCells = .ok outgrown ∧
      let started := start (TiledQuery.ofArray outgrown) ⟨"outgrown"⟩ {} [] {}
        (Source.constant (2 ^ 40)) (Source.constant 0)
      started.result = .ok () ∧ started.scan.isClosed = false ∧
        (started.scan.query.submit started.scan.buffers).1 =
          .error (.abort (.writeOutside "row" .values)) ∧
        started.scan.advance.result = .error (.storage (.abort (.writeOutside "row" .values))) := by
  refine ⟨?_, ?_⟩
  · exact TiledArray.ofCells_of_sorted (by decide) (by decide) (by decide +kernel)
      (by decide +kernel)
  · decide +kernel

end Scan

end SparseScan
