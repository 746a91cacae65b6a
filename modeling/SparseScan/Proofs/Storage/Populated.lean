import SparseScan.Proofs.Storage.Atomic
import SparseScan.Proofs.Storage.Session

set_option autoImplicit false

/-! # The populated box

The populated bounds of an array with cells are the smallest box around them
(`populated_tight`): they exist, every coordinate lies between the bounds of its dimension, and both
bounds are coordinates of cells. A query takes them as ranges, unless lengths vary on a dimension
that does not hold texts, and a query with these ranges selects every cell. -/

namespace SparseScan

open TiledQuery (inside)

/-! ## There are bounds -/

namespace TiledArray

theorem widen_ok {d : Dimension} {b : StoredValue × StoredValue} {v : StoredValue}
    (hb : d.Bounds b) (hv : v.Ordered d.datatype.form) : ∃ b', widen b v = .ok b' := by
  obtain ⟨l, hl, -⟩ := StoredValue.order_compares hv hb.low
  obtain ⟨u, hu, -⟩ := StoredValue.order_compares hv hb.high
  unfold widen
  rw [hl, hu]
  exact ⟨_, rfl⟩

theorem widenAll_ok {ds : List Dimension} {bs : List (StoredValue × StoredValue)}
    {vs : List StoredValue} (hbs : List.Forall₂ Dimension.Bounds ds bs)
    (hvs : List.Forall₂ Dimension.Holds ds vs) : ∃ bs', widenAll bs vs = .ok bs' := by
  induction hbs generalizing vs with
  | nil => exact ⟨[], by cases hvs; rfl⟩
  | cons hb _ ih =>
      cases hvs with
      | cons hv hvs =>
          obtain ⟨b', hb'⟩ := widen_ok hb hv.ordered
          obtain ⟨rest, hrest⟩ := ih hvs
          exact ⟨b' :: rest, by simp only [widenAll, hb', hrest, Except.map]⟩

/-- Coordinates of one dimension always compare, so widening goes on to the last cell. -/
theorem foldlM_widenAll_ok {s : Schema} {cells : List Cell} {bs : List (StoredValue × StoredValue)}
    (hbs : List.Forall₂ Dimension.Bounds s.dimensions bs) (hcells : ∀ c ∈ cells, c.Fits s) :
    ∃ bs', cells.foldlM (fun bounds c => widenAll bounds c.coords) bs = .ok bs' := by
  induction cells generalizing bs with
  | nil => exact ⟨bs, rfl⟩
  | cons c rest ih =>
      rw [List.forall_mem_cons] at hcells
      obtain ⟨mid, hmid⟩ := widenAll_ok hbs hcells.1.coords
      obtain ⟨bs', hbs'⟩ := ih (widenAll_spec hmid hbs hcells.1.coords).1 hcells.2
      exact ⟨bs', by rw [List.foldlM_cons, bind_eq_ok]; exact ⟨mid, hmid, hbs'⟩⟩

theorem populated_ok {a : TiledArray} (ha : a.Sound) (hne : a.cells ≠ []) :
    ∃ bounds, a.populated = .ok (some bounds) := by
  have hfits := ha.fits
  unfold populated
  cases hcells : a.cells with
  | nil => exact absurd hcells hne
  | cons first rest =>
      rw [hcells, List.forall_mem_cons] at hfits
      obtain ⟨bounds, hbounds⟩ := foldlM_widenAll_ok (bounds_self hfits.1.coords).1 hfits.2
      exact ⟨bounds, by simp only [hbounds]⟩

/-! ## The bounds are coordinates -/

/-- A value is the coordinate of a cell on the dimension at a position. -/
def Populates (a : TiledArray) (position : Nat) (v : StoredValue) : Prop :=
  ∃ c ∈ a.cells, c.coords[position]? = some v

theorem populated_populates {a : TiledArray} (ha : a.Sound)
    {bounds : List (StoredValue × StoredValue)} (h : a.populated = .ok (some bounds)) :
    List.Forall₂ (fun position b => a.Populates position b.1 ∧ a.Populates position b.2)
      (List.range a.schema.dimensions.length) bounds := by
  refine populated_keeps h fun c hc => ?_
  refine forall₂_of_getElem? ?_ fun i position hi => ?_
  · rw [List.length_range, (ha.fits c hc).coords.length_eq]
  · obtain ⟨hlt, rfl⟩ := List.getElem?_eq_some_iff.1 hi
    rw [List.getElem_range]
    rw [List.length_range, (ha.fits c hc).coords.length_eq] at hlt
    exact ⟨_, List.getElem?_eq_getElem hlt, c, hc, List.getElem?_eq_getElem hlt⟩

/-- On one dimension the bounds are around all coordinates, and are two of them. -/
theorem populated_at {a : TiledArray} (ha : a.Sound) {bounds : List (StoredValue × StoredValue)}
    (h : a.populated = .ok (some bounds)) {position : Nat} {b : StoredValue × StoredValue}
    (hb : bounds[position]? = some b) :
    (∀ c ∈ a.cells, ∃ v, c.coords[position]? = some v ∧ b.1.atMost v = true ∧
        v.atMost b.2 = true) ∧
      a.Populates position b.1 ∧ a.Populates position b.2 := by
  obtain ⟨hordered, hinside⟩ := (populated_spec ha h).2 bounds rfl
  obtain ⟨hlt, -⟩ := List.getElem?_eq_some_iff.1 hb
  have hrange : (List.range a.schema.dimensions.length)[position]? = some position :=
    List.getElem?_range (hordered.length_eq ▸ hlt)
  obtain ⟨_, hb', hpopulates⟩ := forall₂_getElem? (populated_populates ha h) hrange
  cases hb.symm.trans hb'
  refine ⟨?_, hpopulates⟩
  intro c hc
  obtain ⟨v, hv, hbetween⟩ := forall₂_getElem? (hinside c hc).flip hb
  exact ⟨v, hv, by simpa [inside] using hbetween⟩

end TiledArray

/-! ## The bounds as ranges -/

/-- The request that restricts a dimension to a pair of bounds. -/
def Request.within (d : Dimension) (position : Nat) (b : StoredValue × StoredValue) : Request :=
  match d.varLen, b with
  | true, (.text low, .text high) => .restrictText position low high
  | _, (low, high) => .restrict position low high

/-- The requests that restrict every dimension to its bounds. -/
def Request.withinAll (ds : List Dimension) (bounds : List (StoredValue × StoredValue)) :
    List Request :=
  (ds.zip bounds).zipIdx.map fun r => .within r.1.1 r.2 r.1.2

/-- A dimension on which a range can be asked for: only texts have lengths of their own. -/
def Dimension.Restrictable (d : Dimension) : Prop :=
  d.varLen = true → d.datatype.isText = true

instance (d : Dimension) : Decidable d.Restrictable := inferInstanceAs (Decidable (_ → _))

namespace Session

/-- One range for each dimension, with the bounds of the dimension as its ends. -/
def boxRanges (bounds : List (StoredValue × StoredValue)) (first : Nat) :
    List (Nat × StoredValue × StoredValue) :=
  (bounds.zipIdx first).map fun (b, position) => (position, b)

theorem mem_boxRanges {bounds : List (StoredValue × StoredValue)}
    {r : Nat × StoredValue × StoredValue} (h : r ∈ boxRanges bounds 0) :
    bounds[r.1]? = some r.2 := by
  obtain ⟨⟨b, position⟩, hb, rfl⟩ := List.mem_map.1 h
  exact List.mem_zipIdx_iff_getElem?.1 hb

/-- Ranges with the bounds of their dimensions as ends select every cell in the box. -/
theorem selects_of_bounds {ranges : List (Nat × StoredValue × StoredValue)}
    {bounds : List (StoredValue × StoredValue)} {c : Cell}
    (hc : List.Forall₂ (fun v b => inside v b = true) c.coords bounds)
    (hranges : ∀ r ∈ ranges, bounds[r.1]? = some r.2) : selects ranges c = true := by
  refine List.all_eq_true.2 ?_
  rintro ⟨v, position⟩ hv
  obtain ⟨b, hb, hin⟩ := forall₂_getElem? hc (List.mem_zipIdx_iff_getElem?.1 hv)
  rw [Bool.or_eq_true, List.isEmpty_iff, List.any_eq_true]
  cases hrest : rangesOn ranges position with
  | nil => exact Or.inl rfl
  | cons r rest =>
      have hmem : r ∈ rangesOn ranges position := hrest ▸ List.mem_cons_self
      obtain ⟨x, hx, rfl⟩ := List.mem_map.1 hmem
      obtain ⟨hmemRanges, hposition⟩ := List.mem_filter.1 hx
      have hbounds := hranges x hmemRanges
      rw [beq_iff_eq.1 hposition, hb, Option.some.injEq] at hbounds
      exact Or.inr ⟨x.2, List.mem_cons_self, hbounds ▸ hin⟩

/-- Bounds that a query takes as a range of the dimension. -/
structure TakesBounds (d : Dimension) (b : StoredValue × StoredValue) : Prop where
  restrictable : d.Restrictable
  low : d.Holds b.1
  high : d.Holds b.2
  inOrder : b.1.atMost b.2 = true

/-- The populated bounds can be asked for, as far as a range can be. -/
theorem takesBounds_populated {a : TiledArray} (ha : a.Sound)
    {bounds : List (StoredValue × StoredValue)} (h : a.populated = .ok (some bounds))
    (hrestrictable : ∀ d ∈ a.schema.dimensions, d.Restrictable) :
    List.Forall₂ TakesBounds a.schema.dimensions bounds := by
  obtain ⟨hordered, -⟩ := (TiledArray.populated_spec ha h).2 bounds rfl
  refine forall₂_of_getElem? hordered.length_eq fun i d hd => ?_
  obtain ⟨b, hb, hinOrder⟩ := forall₂_getElem? hordered hd
  obtain ⟨_, hb', hlow, hhigh⟩ := forall₂_getElem? (TiledArray.populated_holds ha h) hd
  cases hb.symm.trans hb'
  exact ⟨b, hb, hrestrictable d (List.mem_of_getElem? hd), hlow, hhigh, hinOrder.inOrder⟩

variable {s : Session}

theorem step_restrict {position : Nat} {low high : StoredValue}
    (h : (s.query.restrict position low high).1 = .ok ()) :
    s.step (.restrict position low high) =
      { s with
        query := (s.query.restrict position low high).2
        ranges := s.ranges ++ [(position, low, high)] } := by
  rcases hrequest : s.query.restrict position low high with ⟨answer, query⟩
  rw [hrequest] at h
  subst h
  simp only [step, hrequest]

theorem step_restrictText {position : Nat} {low high : List UInt8}
    (h : (s.query.restrictText position low high).1 = .ok ()) :
    s.step (.restrictText position low high) =
      { s with
        query := (s.query.restrictText position low high).2
        ranges := s.ranges ++ [(position, .text low, .text high)] } := by
  rcases hrequest : s.query.restrictText position low high with ⟨answer, query⟩
  rw [hrequest] at h
  subst h
  simp only [step, hrequest]

/-- A session takes the bounds of a dimension as a range. -/
theorem step_within {d : Dimension} {position : Nat} {b : StoredValue × StoredValue}
    (hopen : s.query.closed = false) (hselection : s.query.selection = none)
    (hd : s.query.array.schema.dimensions[position]? = some d) (h : TakesBounds d b) :
    ∃ query, s.query.TookRange query position b.1 b.2 ∧
      s.step (.within d position b) = { s with query, ranges := s.ranges ++ [(position, b)] } := by
  obtain ⟨low, high⟩ := b
  cases hvar : d.varLen with
  | false =>
      have hok : (s.query.restrict position low high).1 = .ok () :=
        TiledQuery.restrict_ok_iff.2 ⟨hopen, hselection, d, hd, hvar, hvar ▸ h.low.fits,
          hvar ▸ h.high.fits, h.inOrder⟩
      refine ⟨_, TiledQuery.restrict_eq_ok hok, ?_⟩
      simpa only [Request.within, hvar] using step_restrict hok
  | true =>
      have htext : d.datatype.form = .text := by
        simpa [Datatype.isText] using h.restrictable hvar
      obtain ⟨lowText, rfl⟩ := StoredValue.exists_text (htext ▸ h.low.ordered)
      obtain ⟨highText, rfl⟩ := StoredValue.exists_text (htext ▸ h.high.ordered)
      have hok : (s.query.restrictText position lowText highText).1 = .ok () :=
        TiledQuery.restrictText_ok_iff.2 ⟨hopen, hselection, d, hd, hvar, h.inOrder⟩
      refine ⟨_, TiledQuery.restrictText_eq_ok hok, ?_⟩
      simpa only [Request.within, hvar] using step_restrictText hok

/-- Asked dimension by dimension, a session takes the bounds of all of them. -/
theorem foldl_withinAll {ds : List Dimension} {bounds : List (StoredValue × StoredValue)}
    (h : List.Forall₂ TakesBounds ds bounds) {first : Nat} (hopen : s.query.closed = false)
    (hselection : s.query.selection = none)
    (hds : ∀ i d, ds[i]? = some d → s.query.array.schema.dimensions[first + i]? = some d) :
    ((((ds.zip bounds).zipIdx first).map fun r => Request.within r.1.1 r.2 r.1.2).foldl step
      s).ranges = s.ranges ++ boxRanges bounds first := by
  induction h generalizing first s with
  | nil => exact (List.append_nil _).symm
  | @cons d b ds bounds hb _ ih =>
      have hd : s.query.array.schema.dimensions[first]? = some d := hds 0 d rfl
      obtain ⟨query, htook, hstep⟩ := step_within hopen hselection hd hb
      rw [List.zip_cons_cons, List.zipIdx_cons, List.map_cons, List.foldl_cons, hstep, ih]
      · rw [boxRanges, boxRanges, List.zipIdx_cons, List.map_cons, List.append_assoc]
        rfl
      · rw [htook.query]
        exact hopen
      · rw [htook.query]
        exact hselection
      · intro i d hi
        rw [htook.query, Nat.add_assoc, Nat.add_comm 1]
        exact hds (i + 1) d hi

end Session

/-- Ranges that are the bounds of each dimension hold what is in the box. -/
theorem TiledQuery.insideAll_box {coords : List StoredValue}
    {bounds : List (StoredValue × StoredValue)}
    (h : List.Forall₂ (fun v b => inside v b = true) coords bounds) :
    insideAll (bounds.map fun b => [b]) coords = true := by
  induction h with
  | nil => rfl
  | cons hv _ ih => simp [insideAll, hv, ih]

namespace TiledArray

/-- An open query on an array that has cells answers one pair of bounds for each dimension. Every
    cell has its coordinate between them, and both are the coordinate of a cell. A query whose range
    on each dimension are these bounds selects every cell, and a session can ask for them as long as
    only dimensions of texts have elements with lengths of their own. -/
theorem populated_tight {schema : Schema} {tileExtent : Nat} {cells : List Cell} {a : TiledArray}
    (ha : ofCells schema tileExtent cells = .ok a) (hne : cells ≠ []) :
    ∃ bounds : List (StoredValue × StoredValue),
      (∀ q : TiledQuery, q.array = a → q.closed = false →
        (QueryEngine.populated q).1 = .ok (some bounds)) ∧
      bounds.length = schema.dimensions.length ∧
      (∀ (position : Nat) (b : StoredValue × StoredValue), bounds[position]? = some b →
        (∀ c ∈ cells, ∃ v, c.coords[position]? = some v ∧
          b.1.atMost v = true ∧ v.atMost b.2 = true) ∧
        (∃ c ∈ cells, c.coords[position]? = some b.1) ∧
        ∃ c ∈ cells, c.coords[position]? = some b.2) ∧
      (∀ q : TiledQuery, q.array = a → q.ranges = bounds.map (fun b => [b]) →
        q.cellsInside = a.cells) ∧
      ((∀ d ∈ schema.dimensions, d.Restrictable) →
        (Session.run a (Request.withinAll schema.dimensions bounds)).ranges =
            Session.boxRanges bounds 0 ∧
          (Session.run a (Request.withinAll schema.dimensions bounds)).query.selected =
            a.cells) := by
  obtain ⟨hsound, rfl, hperm⟩ := sound_ofCells ha
  have hcells : a.cells ≠ [] := fun hnil => hne (List.nil_perm.1 (hnil ▸ hperm))
  obtain ⟨bounds, hbounds⟩ := populated_ok hsound hcells
  obtain ⟨hordered, hinside⟩ := (populated_spec hsound hbounds).2 bounds rfl
  refine ⟨bounds, ?_, hordered.length_eq.symm, ?_, ?_, ?_⟩
  · rintro q rfl hopen
    exact (if_neg (by simp [hopen])).trans hbounds
  · intro position b hb
    obtain ⟨haround, ⟨cl, hcl, hlow⟩, cu, hcu, hhigh⟩ := populated_at hsound hbounds hb
    exact ⟨fun c hc => haround c (hperm.mem_iff.2 hc), ⟨cl, hperm.mem_iff.1 hcl, hlow⟩, cu,
      hperm.mem_iff.1 hcu, hhigh⟩
  · rintro q rfl hranges
    rw [TiledQuery.cellsInside, hranges, List.filter_eq_self]
    exact fun c hc => TiledQuery.insideAll_box (hinside c hc)
  · intro hrestrictable
    have htakes := Session.takesBounds_populated hsound hbounds hrestrictable
    have hranges : (Session.run a (Request.withinAll a.schema.dimensions bounds)).ranges =
        Session.boxRanges bounds 0 :=
      Session.foldl_withinAll htakes rfl rfl fun i d hd => by rwa [Nat.zero_add]
    refine ⟨hranges, ?_⟩
    rw [(Session.sound_run hsound _).selected, hranges, List.filter_eq_self]
    exact fun c hc => Session.selects_of_bounds (hinside c hc) fun _ => Session.mem_boxRanges

/-- Three cells on two dimensions, in the order of the first one only. -/
def scattered : TiledArray :=
  ⟨⟨[⟨"x", .int64, false⟩, ⟨"name", .stringAscii, true⟩], []⟩,
    [⟨[.small .int64 1, .text [98]], []⟩, ⟨[.small .int64 2, .text [99, 99]], []⟩,
      ⟨[.small .int64 3, .text [97]], []⟩], 2⟩

/-- The box of the three cells, and a session that asks for it. -/
theorem populated_tight_scattered :
    ofCells scattered.schema 2 scattered.cells = .ok scattered ∧ scattered.cells ≠ [] ∧
      (QueryEngine.populated (TiledQuery.ofArray scattered)).1 =
        .ok (some [(.small .int64 1, .small .int64 3), (.text [97], .text [99, 99])]) ∧
      (Session.run scattered [.restrict 0 (.small .int64 1) (.small .int64 3),
        .restrictText 1 [97] [99, 99]]).query.selected = scattered.cells := by
  have ha : ofCells scattered.schema 2 scattered.cells = .ok scattered :=
    ofCells_of_sorted (by decide) (by decide) (by decide +kernel) (by decide +kernel)
  have hne : scattered.cells ≠ [] := by decide
  have hbox : scattered.populated =
      .ok (some [(.small .int64 1, .small .int64 3), (.text [97], .text [99, 99])]) := by
    decide +kernel
  obtain ⟨bounds, hpopulated, -, -, -, hselected⟩ := populated_tight ha hne
  have hbounds := (hpopulated (.ofArray scattered) rfl rfl).symm.trans hbox
  simp only [Except.ok.injEq, Option.some.injEq] at hbounds
  subst hbounds
  exact ⟨ha, hne, hbox, (hselected (by decide)).2⟩

end TiledArray

end SparseScan
