import Mathlib.Data.List.MinMax
import SparseScan.Proofs.Scan.Fetching

set_option autoImplicit false

/-! # What a scan takes of memory

Between two calls all buffers have `2 ^ k` times the capacities that they began with, where `k` is
how many growths have been granted, the query knows of just these capacities, and what is noted of
the footprint is true (`Sized`). A growth is granted only where some buffer had no room for a tile,
so `2 ^ (k - 1)` is less than the most that a tile needs. `FetchEnds.fetched` keeps this over a
fetch. -/

namespace SparseScan

open TiledArray (StoredField)

/-! ## What tiles need -/

/-- The tiles of cells; those behind the last cell are empty. -/
def tilesOf (extent : Nat) (cells : List Cell) : List (List Cell) :=
  (List.range cells.length).map fun i => (cells.drop (i * extent)).take extent

/-- The elements that a tile needs: one for each cell of offsets and of flags, and those of its
    values in each field, as it is stored. -/
def TiledArray.needs (a : TiledArray) (fields : List Field) (tile : List Cell) : List Nat :=
  tile.length :: fields.filterMap fun f =>
    (a.stored? f.name).map fun st => (tile.map st.elements).sum

/-- The most elements of one buffer that a tile needs. -/
def TiledArray.largestNeed (a : TiledArray) (fields : List Field) (cells : List Cell) : Nat :=
  ((tilesOf a.tileExtent cells).flatMap (a.needs fields)).foldr max 0

section

variable {a : TiledArray} {fields : List Field} {cells : List Cell} {i n : Nat}

theorem le_largestNeed (hi : i < cells.length)
    (hn : n ∈ a.needs fields ((cells.drop (i * a.tileExtent)).take a.tileExtent)) :
    n ≤ a.largestNeed fields cells := by
  have htile : (cells.drop (i * a.tileExtent)).take a.tileExtent ∈ tilesOf a.tileExtent cells :=
    List.mem_map.2 ⟨i, List.mem_range.2 hi, rfl⟩
  exact List.le_max_of_le' 0 (List.mem_flatMap.2 ⟨_, htile, hn⟩) le_rfl

/-- A tile without room needs more than every capacity. -/
theorem lt_largestNeed {c : Capacities} {f : Field} {st : StoredField} {m : Nat}
    (hextent : 0 < a.tileExtent) (hdvd : a.tileExtent ∣ n) (hn : n < cells.length)
    (hf : f ∈ fields) (hst : a.stored? f.name = some st) (hc : c.AtLeast m)
    (hroom : ¬ TiledQuery.HasRoom c st ((cells.drop n).take a.tileExtent)) :
    m < a.largestNeed fields cells := by
  obtain ⟨i, rfl⟩ := hdvd
  rw [Nat.mul_comm] at hn hroom
  have hi : i < cells.length := (Nat.le_mul_of_pos_right i hextent).trans_lt hn
  rcases hc.lt_of_not_hasRoom hroom with hlt | hlt
  · exact hlt.trans_le (le_largestNeed hi (List.mem_cons_self ..))
  · refine hlt.trans_le (le_largestNeed hi (List.mem_cons_of_mem _ ?_))
    exact List.mem_filterMap.2 ⟨f, hf, by rw [hst, Option.map_some]⟩

end

namespace Scan

/-! ## Open scans -/

/-- An open scan whose buffers have grown `k` times since it was `s₀`. -/
structure Sized (a : TiledArray) (sel : List Cell) (s₀ : Scan TiledQuery) (k : Nat)
    (s : Scan TiledQuery) : Prop where
  initial : Serves a sel s₀.view
  serves : Serves a sel s.view
  fields : s.fields = s₀.fields
  scaled : List.Forall₂ (NamedBuffers.Scaled (2 ^ k)) s₀.buffers s.buffers
  footprint : s.allocator.footprint = ⟨s.memoryUse, s.memoryUse⟩
  /-- The query has handed out whole tiles, or everything. -/
  aligned : sel.length ≤ s.query.delivered ∨ a.tileExtent ∣ s.query.delivered
  needed : k = 0 ∨ 2 ^ (k - 1) < a.largestNeed s₀.fields sel

variable {a : TiledArray} {sel : List Cell} {s₀ s t : Scan TiledQuery} {k : Nat}

theorem memoryUse_of_scaled (hs : Serves a sel s₀.view) {n : Nat}
    (h : List.Forall₂ (NamedBuffers.Scaled n) s₀.buffers t.buffers) :
    t.memoryUse = n * s₀.memoryUse := by
  refine NamedBuffers.footprint_scaled ?_ h
  intro b hb
  obtain ⟨f, -, hfield, -⟩ := hs.field_of_mem hb
  exact hfield.layout

theorem Sized.memoryUse (h : Sized a sel s₀ k s) : s.memoryUse = 2 ^ k * s₀.memoryUse :=
  memoryUse_of_scaled h.initial h.scaled

/-- A capacity is at least a power of two. -/
theorem Sized.atLeast (h : Sized a sel s₀ k s) {b : NamedBuffers} (hb : b ∈ s.buffers) :
    b.buffers.capacities.AtLeast (2 ^ k) := by
  obtain ⟨i, hi⟩ := List.mem_iff_getElem?.1 hb
  obtain ⟨b₀, hb₀, hscaled⟩ := forall₂_getElem? h.scaled.flip hi
  obtain ⟨f, -, hfield, -⟩ := h.initial.field_of_mem (List.mem_of_getElem? hb₀)
  have hleast := hfield.room.1.times (2 ^ k)
  rwa [← hscaled.layout.capacities, Nat.mul_one] at hleast

/-- What the view and the footprint say holds of every scan that has them. -/
theorem Sized.congr (h : Sized a sel s₀ k s) (hview : t.view = s.view)
    (hfootprint : t.allocator.footprint = s.allocator.footprint) : Sized a sel s₀ k t := by
  have hbuffers : t.buffers = s.buffers := congrArg ScanView.buffers hview
  have hquery : t.query = s.query := congrArg ScanView.query hview
  refine ⟨h.initial, hview ▸ h.serves, ?_, ?_, ?_, ?_, h.needed⟩
  · exact (congrArg ScanView.fields hview).trans h.fields
  · rw [hbuffers]
    exact h.scaled
  · rw [hfootprint, h.footprint, Scan.memoryUse, Scan.memoryUse, hbuffers]
  · rw [hquery]
    exact h.aligned

/-- The query of a scan whose batch is used up has handed out as much as the scan. -/
theorem Sized.delivered (h : Sized a sel s₀ k s) (hpos : s.position = s.batch.rows) :
    s.query.delivered = s.visited := by
  have hdelivered : s.query.delivered = s.visited + (s.batch.rows - s.position) :=
    h.serves.delivered
  omega

/-- Where the batch of an open scan is used up and cells are left, the next tile begins. -/
theorem Sized.dvd_visited (h : Sized a sel s₀ k s) (hpos : s.position = s.batch.rows)
    (hmore : s.visited < sel.length) : a.tileExtent ∣ s.visited := by
  have haligned := h.aligned
  rw [h.delivered hpos] at haligned
  exact haligned.resolve_left (Nat.not_le.2 hmore)

/-- A submit keeps capacities and footprint. -/
theorem Sized.submitted (h : Sized a sel s₀ k s) {w : ScanView} {cells : List Cell}
    (hw : Submitted a sel s.view w cells) (hbuffers : t.buffers = w.buffers)
    (hallocator : t.allocator = s.allocator) :
    List.Forall₂ (NamedBuffers.Scaled (2 ^ k)) s₀.buffers t.buffers ∧
      t.allocator.footprint = ⟨t.memoryUse, t.memoryUse⟩ := by
  have hscaled : List.Forall₂ (NamedBuffers.Scaled (2 ^ k)) s₀.buffers t.buffers := by
    rw [hbuffers]
    exact NamedBuffers.forall₂_scaled_fill h.scaled hw.wrote
  refine ⟨hscaled, ?_⟩
  rw [hallocator, h.footprint, h.memoryUse, memoryUse_of_scaled h.initial hscaled]

/-- A submit that takes cells, and the copy of what it wrote. -/
theorem Sized.loaded (h : Sized a sel s₀ k s) (hpos : s.position = s.batch.rows)
    (hmore : s.visited < sel.length) {w : ScanView} {cells : List Cell}
    (hw : Submitted a sel s.view w cells) (ht : Serves a sel t.view)
    (hview : t.view = { w with position := 0, batch := t.batch })
    (hallocator : t.allocator = s.allocator) : Sized a sel s₀ k t := by
  have hquery : t.query = w.query := congrArg ScanView.query hview
  have hvisited : s.query.delivered = s.visited := h.delivered hpos
  obtain ⟨hscaled, hfootprint⟩ := h.submitted hw (congrArg ScanView.buffers hview) hallocator
  refine ⟨h.initial, ht, ?_, hscaled, hfootprint, ?_, h.needed⟩
  · exact ((congrArg ScanView.fields hview).trans hw.fields).trans h.fields
  · have hdelivered : t.query.delivered = s.visited + cells.length := by
      rw [hquery]
      exact hw.delivered
    have htiles := hw.chose.tiles
    rw [TiledQuery.remaining, h.serves.selected, h.serves.array, List.length_drop,
      show s.view.query.delivered = s.visited from hvisited] at htiles
    rw [hdelivered]
    rcases htiles with hall | htiles
    · left
      omega
    · exact Or.inr (Nat.dvd_add (h.dvd_visited hpos hmore) htiles)

/-- A submit that takes nothing, because some buffer has no room for the next tile. -/
theorem Sized.idle (hextent : 0 < a.tileExtent) (h : Sized a sel s₀ k s)
    (hpos : s.position = s.batch.rows) (hmore : s.visited < sel.length)
    (ht : Submitted a sel s.view t.view []) (hallocator : t.allocator = s.allocator) :
    Sized a sel s₀ k t ∧ 2 ^ k < a.largestNeed s₀.fields sel := by
  have hvisited : s.view.query.delivered = s.visited := h.delivered hpos
  have hdelivered : t.query.delivered = s.visited := ht.delivered
  obtain ⟨hscaled, hfootprint⟩ := h.submitted ht rfl hallocator
  constructor
  · refine ⟨h.initial, ht.serves_idle h.serves hpos hmore, ht.fields.trans h.fields, hscaled,
      hfootprint, ?_, h.needed⟩
    rw [hdelivered]
    exact Or.inr (h.dvd_visited hpos hmore)
  · have hremaining : s.view.query.remaining = sel.drop s.visited := by
      rw [TiledQuery.remaining, h.serves.selected, hvisited]
    have hidle := ht.chose.idle
    rw [hremaining, h.serves.array, h.serves.registered] at hidle
    obtain ⟨r, hr, st, hst, hroom⟩ := hidle hextent rfl (by simpa using hmore)
    obtain ⟨b, hb, rfl⟩ := List.mem_map.1 hr
    obtain ⟨f, hf, hfield, -⟩ := h.serves.field_of_mem hb
    have hname : b.registration.1 = f.name := hfield.name
    rw [hname] at hst
    have hfields : f ∈ s₀.fields := h.fields ▸ hf
    exact lt_largestNeed hextent (h.dvd_visited hpos hmore) hmore hfields hst (h.atLeast hb) hroom

/-- Growth that is granted doubles everything. -/
theorem Sized.grown (h : Sized a sel s₀ k s) (hneed : 2 ^ k < a.largestNeed s₀.fields sel)
    {grown : List NamedBuffers}
    (hgrown : List.Forall₂ (fun b b' => b.double = .ok b') s.buffers grown)
    (hview : t.view = { s.view with
      buffers := grown
      query := { s.query with registered := grown.map NamedBuffers.registration } })
    (hfootprint : t.allocator.footprint =
      s.allocator.footprint.record (NamedBuffers.footprint grown)) :
    Sized a sel s₀ (k + 1) t := by
  have hbuffers : t.buffers = grown := congrArg ScanView.buffers hview
  have hquery := congrArg ScanView.query hview
  have hscaled : List.Forall₂ (NamedBuffers.Scaled (2 ^ (k + 1))) s₀.buffers t.buffers := by
    rw [hbuffers, Nat.pow_succ']
    exact NamedBuffers.forall₂_scaled_double h.scaled hgrown
  have huse : t.memoryUse = 2 * s.memoryUse := by
    rw [memoryUse_of_scaled h.initial hscaled, h.memoryUse, Nat.pow_succ', Nat.mul_assoc]
  refine ⟨h.initial, ?_, (congrArg ScanView.fields hview).trans h.fields, hscaled, ?_, ?_,
    Or.inr hneed⟩
  · rw [hview]
    exact Serves.grown h.serves hgrown
  · rw [hfootprint, h.footprint, ← hbuffers]
    show Footprint.mk t.memoryUse (max s.memoryUse t.memoryUse) = _
    rw [Nat.max_eq_right (by omega)]
  · rw [show t.query = _ from hquery]
    exact h.aligned

/-! ## Fetching -/

/-- What a call can fail with: memory that cannot be had, or elements too wide for their buffer. -/
def Accounted (a : TiledArray) (fields : List Field) (e : ScanError) : Prop :=
  (∃ m, e = .memory m ∧ ReadsTooLittle m) ∨
    ∃ f ∈ fields, f.outgrown a ∧ e = .storage (.abort (.writeOutside f.name .values))

/-- A round that is idle has submitted the query and taken nothing. -/
theorem submitted_of_idle (ha : a.Sound) (hsel : ∀ c ∈ sel, c ∈ a.cells) (hs : Serves a sel s.view)
    (hpos : s.position = s.batch.rows) (hmore : s.visited < sel.length)
    (hidle : (round s).result = .ok false) : Submitted a sel s.view (round s).scan.view [] := by
  rcases round_of_serves ha hsel hs hpos hmore with ⟨f, -, -, herror, -⟩ | ⟨-, hw⟩ | ⟨hok, -⟩
  · rw [hidle] at herror
    cases herror
  · exact hw
  · rw [hidle] at hok
    cases hok

/-- An idle round and the growth behind it leave an open scan where it was, with larger buffers if
    the growth is granted. -/
theorem Sized.grow_idle (ha : a.Sound) (hextent : 0 < a.tileExtent)
    (hsel : ∀ c ∈ sel, c ∈ a.cells) (h : Sized a sel s₀ k s) (hpos : s.position = s.batch.rows)
    (hmore : s.visited < sel.length) (hidle : (round s).result = .ok false)
    {o : Outcome TiledQuery Unit} (ho : o = (round s).scan.timed "grow_buffers" grow) :
    o.scan.position = s.position ∧ o.scan.batch = s.batch ∧ o.scan.visited = s.visited ∧
      ((∃ m, o.result = .error (.memory m) ∧ ReadsTooLittle m ∧ Sized a sel s₀ k o.scan) ∨
        o.result = .ok () ∧ Sized a sel s₀ (k + 1) o.scan) := by
  have hw := submitted_of_idle ha hsel h.serves hpos hmore hidle
  obtain ⟨hidled, hneed⟩ := h.idle hextent hpos hmore hw (round_allocator s)
  have hnow : Sized a sel s₀ k (round s).scan.now.2 := hidled.congr rfl rfl
  have hplace := agrees_of_place (grow_place (round s).scan.now.2)
  have hresult : o.result = (round s).scan.now.2.grow.result := by rw [ho, timed_result]
  have hafter : o.scan.view = (round s).scan.now.2.grow.scan.view := by rw [ho, timed_view]
  have hallocator : o.scan.allocator = (round s).scan.now.2.grow.scan.allocator := by
    rw [ho, timed_allocator]
  refine ⟨?_, ?_, ?_, ?_⟩
  · exact (congrArg ScanView.position hafter).trans (hplace.position.trans hw.position)
  · exact (congrArg ScanView.batch hafter).trans (hplace.batch.trans hw.batch)
  · exact (congrArg ScanView.visited hafter).trans (hplace.visited.trans hw.visited)
  · rcases grow_of_serves hnow.serves with ⟨m, herror, hview, hfootprint⟩ |
      ⟨hok, grown, hgrown, hview, hfootprint⟩
    · rw [← hallocator] at hfootprint
      exact Or.inl ⟨m, hresult.trans herror, grow_readsTooLittle herror,
        hnow.congr (hafter.trans hview) hfootprint⟩
    · rw [← hallocator] at hfootprint
      exact Or.inr ⟨hresult.trans hok, hnow.grown hneed hgrown (hafter.trans hview) hfootprint⟩

/-- What a fetch comes to, `k` growths after the scan was `s₀`: it brings rows, or fails in a way
    that is accounted for, and hands out none. -/
structure Fetched (a : TiledArray) (sel : List Cell) (s₀ : Scan TiledQuery) (k : Nat)
    (s : Scan TiledQuery) (o : Outcome TiledQuery Unit) : Prop where
  sized : Sized a sel s₀ k o.scan
  visited : o.scan.visited = s.visited
  rows : o.result = .ok () → o.scan.position = 0 ∧ 0 < o.scan.batch.rows
  errors : ∀ e, o.result = .error e → Accounted a s₀.fields e

theorem Sized.round_done (ha : a.Sound) (hsel : ∀ c ∈ sel, c ∈ a.cells) (h : Sized a sel s₀ k s)
    (hpos : s.position = s.batch.rows) (hmore : s.visited < sel.length)
    (hround : (round s).result ≠ .ok false) :
    Fetched a sel s₀ k s ((round s).andThen fun _ t => ⟨.ok (), t⟩) := by
  have hallocator := round_allocator s
  have hcases := round_of_serves ha hsel h.serves hpos hmore
  generalize round s = o at hround hallocator hcases ⊢
  rcases o with ⟨result, t⟩
  rcases hcases with ⟨f, hf, hout, rfl, hview⟩ | ⟨hidle, -⟩ |
    ⟨rfl, hserves, hrows, w, cells, hw, hview⟩
  · refine ⟨h.congr hview (congrArg _ hallocator), congrArg ScanView.visited hview,
      fun hok => (nomatch hok), ?_⟩
    rintro _ ⟨⟩
    exact Or.inr ⟨f, h.fields ▸ hf, hout, rfl⟩
  · exact absurd hidle hround
  · refine ⟨h.loaded hpos hmore hw hserves hview hallocator, ?_, fun _ => ⟨?_, hrows⟩,
      fun e he => (nomatch he)⟩
    · exact (congrArg ScanView.visited hview).trans hw.visited
    · exact congrArg ScanView.position hview

/-- A fetch grows the buffers as often as it is granted, and brings rows unless it fails. -/
theorem FetchEnds.fetched {j : Nat} {o : Outcome TiledQuery Unit} (hends : FetchEnds s j o)
    (ha : a.Sound) (hextent : 0 < a.tileExtent) (hsel : ∀ c ∈ sel, c ∈ a.cells)
    (h : Sized a sel s₀ k s) (hpos : s.position = s.batch.rows) (hmore : s.visited < sel.length) :
    Fetched a sel s₀ (k + j) s o := by
  induction hends generalizing k with
  | done hround => exact h.round_done ha hsel hpos hmore hround
  | @refused s e hidle hgrow =>
      obtain ⟨-, -, hvisited, hgrown⟩ := h.grow_idle ha hextent hsel hpos hmore hidle rfl
      rcases hgrown with ⟨m, herror, hlittle, hsized⟩ | ⟨hok, -⟩
      · rw [hgrow] at herror
        cases herror
        refine ⟨hsized, hvisited, fun hok => (nomatch hok), ?_⟩
        rintro _ ⟨⟩
        exact Or.inl ⟨m, rfl, hlittle⟩
      · rw [hgrow] at hok
        cases hok
  | @grown s j o hidle hgrow hrest ih =>
      obtain ⟨hposition, hbatch, hvisited, hgrown⟩ :=
        h.grow_idle ha hextent hsel hpos hmore hidle rfl
      rcases hgrown with ⟨m, herror, -⟩ | ⟨-, hlarger⟩
      · rw [hgrow] at herror
        cases herror
      · -- the batch is still used up, so the loop goes on as it began
        have hfetched := ih hlarger (by rw [hposition, hbatch, hpos]) (by rwa [hvisited])
        have hsized := hfetched.sized
        rw [Nat.add_right_comm, Nat.add_assoc] at hsized
        exact ⟨hsized, hfetched.visited.trans hvisited, hfetched.rows, hfetched.errors⟩

end Scan

end SparseScan
