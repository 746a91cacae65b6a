import SparseScan.Proofs.Scan.Rows

set_option autoImplicit false

/-! # How a scan starts

`start_spec` takes a successful start apart: the scan either serves the cells that lie in the hulls
of all dimensions, or there are none and it has no rows. -/

namespace SparseScan

open TiledQuery (inside insideAll)

/-! ## The cells inside the hulls -/

/-- Whether coordinates lie in the hulls of their dimensions. -/
def withinHulls (constraints : Constraints) :
    List Dimension → List (StoredValue × StoredValue) → List StoredValue → Bool
  | d :: dims, populated :: bounds, v :: coords =>
      (match d.hull (constraints.get? d.name) populated with
        | .ok (some hull) => inside v hull
        | _ => false) && withinHulls constraints dims bounds coords
  | _, _, _ => true

/-- The cells whose coordinates lie in the hulls of all dimensions, in order; none when a dimension
    has no hull. -/
def TiledArray.admitted (a : TiledArray) (constraints : Constraints) : List Cell :=
  match a.populated with
  | .ok (some bounds) =>
      a.cells.filter fun c => withinHulls constraints a.schema.dimensions bounds c.coords
  | _ => []

theorem TiledArray.mem_of_mem_admitted {a : TiledArray} {constraints : Constraints} {c : Cell}
    (h : c ∈ a.admitted constraints) : c ∈ a.cells := by
  unfold admitted at h
  split at h
  · exact List.mem_of_mem_filter h
  · cases h

namespace Scan

variable {constraints : Constraints} {position : Nat} {dims : List Dimension}
  {bounds : List (StoredValue × StoredValue)}

/-! ## Ranges -/

/-- Coordinates lie in the ranges of a query exactly when they lie in the hulls. -/
theorem insideAll_of_hulls {ranges : List (StoredValue × StoredValue)}
    (h : hulls constraints position dims bounds = .ok (some ranges)) :
    ranges.length = dims.length ∧ ∀ coords,
      insideAll (ranges.map fun r => [r]) coords = withinHulls constraints dims bounds coords := by
  induction dims generalizing position bounds ranges with
  | nil =>
      simp only [hulls, Except.ok.injEq, Option.some.injEq] at h
      subst h
      exact ⟨rfl, fun coords => by simp [insideAll, withinHulls]⟩
  | cons d dims ih =>
      cases bounds with
      | nil => cases h
      | cons populated bounds =>
          simp only [hulls] at h
          split at h
          · cases h
          · cases h
          · next hull hhull =>
              split at h
              · cases h
              · next rest hrest =>
                  rw [Except.ok.injEq] at h
                  obtain ⟨others, rfl, rfl⟩ := Option.map_eq_some_iff.1 h
                  obtain ⟨hlen, hinside⟩ := ih hrest
                  refine ⟨congrArg (· + 1) hlen, ?_⟩
                  intro coords
                  cases coords with
                  | nil => rfl
                  | cons v coords =>
                      simp only [List.map_cons, insideAll, withinHulls, hhull, hinside]
                      simp

/-- Without a hull for some dimension there are no coordinates inside. -/
theorem withinHulls_of_hulls_none
    (h : hulls constraints position dims bounds = .ok none)
    {coords : List StoredValue} (hlen : coords.length = dims.length) :
    withinHulls constraints dims bounds coords = false := by
  induction dims generalizing position bounds coords with
  | nil => cases h
  | cons d dims ih =>
      cases bounds with
      | nil => cases h
      | cons populated bounds =>
          cases coords with
          | nil => cases hlen
          | cons v coords =>
              simp only [hulls] at h
              split at h
              · cases h
              · next hnone => simp only [withinHulls, hnone, Bool.false_and]
              · next hull hhull =>
                  split at h
                  · cases h
                  · next rest hrest =>
                      rw [Except.ok.injEq, Option.map_eq_none_iff] at h
                      subst h
                      rw [withinHulls, ih hrest (Nat.succ.inj hlen), Bool.and_false]

/-- Without a hull for some dimension no cell is admitted. -/
theorem admitted_of_hulls_none {a : TiledArray} (ha : a.Sound)
    (hpopulated : a.populated = .ok (some bounds))
    (hnone : hulls constraints 0 a.schema.dimensions bounds = .ok none) :
    a.admitted constraints = [] := by
  rw [TiledArray.admitted, hpopulated]
  refine List.filter_eq_nil_iff.2 ?_
  intro c hc
  have hlen := (ha.fits c hc).coords.length_eq
  simp [withinHulls_of_hulls_none hnone hlen.symm]

/-- The cells inside the ranges of a query that is restricted to the hulls are those admitted. -/
theorem cellsInside_of_hulls {q : TiledQuery} {ranges : List (StoredValue × StoredValue)}
    (hpopulated : q.array.populated = .ok (some bounds))
    (hhulls : hulls constraints 0 q.array.schema.dimensions bounds = .ok (some ranges))
    (hranges : q.ranges = ranges.map fun r => [r]) :
    q.cellsInside = q.array.admitted constraints := by
  rw [TiledQuery.cellsInside, TiledArray.admitted, hpopulated, hranges]
  simp only [(insideAll_of_hulls hhulls).2]

end Scan

namespace Scan

variable {s : Scan TiledQuery}

/-- Restricting a dimension changes no more than the query. -/
theorem restrict_scan (s : Scan TiledQuery) (position : Nat) (d : Dimension)
    (low high : StoredValue) :
    ∃ query, (s.restrict position d low high).scan = { s with query } := by
  unfold restrict
  split
  · split
    · exact ⟨_, rfl⟩
    · exact ⟨s.query, rfl⟩
  · exact ⟨_, rfl⟩

theorem restrictFrom_scan (position : Nat)
    (ranges : List (Dimension × StoredValue × StoredValue)) (s : Scan TiledQuery) :
    ∃ query, (restrictFrom position ranges s).scan = { s with query } := by
  induction ranges generalizing position s with
  | nil => exact ⟨s.query, rfl⟩
  | cons r rest ih =>
      refine Outcome.andThen_scan (P := fun t => ∃ query, t = { s with query })
        (restrict_scan ..) ?_
      rintro _ t ⟨query, rfl⟩
      exact ih (position + 1) { s with query }

theorem restrictAll_scan (s : Scan TiledQuery) (dims : List Dimension) (constraints : Constraints)
    (populated : List (StoredValue × StoredValue)) :
    ∃ query, (s.restrictAll dims constraints populated).scan = { s with query } := by
  unfold restrictAll
  split
  · exact ⟨s.query, rfl⟩
  · exact ⟨s.query, rfl⟩
  · exact Outcome.andThen_scan (P := fun t => ∃ query, t = { s with query })
      (restrictFrom_scan ..) fun _ _ ht => ht

theorem restrict_eq_ok {position : Nat} {d : Dimension} {low high : StoredValue}
    (h : (s.restrict position d low high).result = .ok ()) :
    low.atMost high = true ∧ (s.restrict position d low high).scan = { s with
      query := { s.query with
        ranges := s.query.ranges.modify position (· ++ [(low, high)]) } } := by
  unfold restrict at h ⊢
  by_cases hvar : d.varLen = true
  · rw [if_pos hvar] at h ⊢
    cases low with
    | int k n => cases h
    | float f x => cases h
    | text low =>
        cases high with
        | int k n => cases h
        | float f x => cases h
        | text high =>
            obtain ⟨hask, hscan⟩ := ask_eq_ok h
            have htook := TiledQuery.restrictText_eq_ok hask
            exact ⟨htook.inOrder,
              hscan.trans (congrArg (fun query => { s with query }) htook.query)⟩
  · rw [if_neg hvar] at h ⊢
    obtain ⟨hask, hscan⟩ := ask_eq_ok h
    have htook := TiledQuery.restrict_eq_ok hask
    exact ⟨htook.inOrder, hscan.trans (congrArg (fun query => { s with query }) htook.query)⟩

theorem modify_length_append {α : Type} (f : α → α) (xs ys : List α) (y : α) :
    (xs ++ y :: ys).modify xs.length f = xs ++ f y :: ys := by
  induction xs with
  | nil => rfl
  | cons x xs ih => rw [List.cons_append, List.length_cons, List.modify_succ_cons, ih]; rfl

/-- Restricting the dimensions from one on gives each of them its one range, which is in order. -/
theorem restrictFrom_spec {position : Nat} {pairs : List (Dimension × StoredValue × StoredValue)}
    (done : List (List (StoredValue × StoredValue)))
    (h : (restrictFrom position pairs s).result = .ok ()) (hdone : done.length = position)
    (hranges : s.query.ranges = done ++ pairs.map fun _ => []) :
    (∀ p ∈ pairs, p.2.1.atMost p.2.2 = true) ∧ (restrictFrom position pairs s).scan = { s with
      query := { s.query with ranges := done ++ pairs.map fun p => [p.2] } } := by
  induction pairs generalizing position done s with
  | nil =>
      simp only [List.map_nil] at hranges ⊢
      rw [← hranges]
      exact ⟨fun p hp => (nomatch hp), rfl⟩
  | cons p pairs ih =>
      obtain ⟨d, low, high⟩ := p
      simp only [restrictFrom] at h ⊢
      obtain ⟨⟨⟩, hrestrict, hnext⟩ := Outcome.andThen_ok_inv h
      rw [hnext] at h ⊢
      obtain ⟨horder, hscan⟩ := restrict_eq_ok hrestrict
      rw [hscan] at h ⊢
      have hmodify : s.query.ranges.modify position (· ++ [(low, high)]) =
          (done ++ [[(low, high)]]) ++ pairs.map fun _ => [] := by
        rw [hranges, List.map_cons, ← hdone, modify_length_append, List.append_assoc]
        rfl
      obtain ⟨hrest, hafter⟩ := ih _ h (by simp [hdone]) hmodify
      refine ⟨?_, ?_⟩
      · intro p hp
        rcases List.mem_cons.1 hp with rfl | hp
        · exact horder
        · exact hrest p hp
      · rw [hafter]
        simp

/-! ## Buffers -/

theorem estimates_spec {fs : List Field} {es : List Estimate}
    (h : (estimates fs s).result = .ok es) : (estimates fs s).scan = s ∧
      List.Forall₂ (fun f e => s.query.estimate f.name f.shape = .ok e) fs es := by
  induction fs generalizing es with
  | nil =>
      cases h
      exact ⟨rfl, .nil⟩
  | cons f fs ih =>
      simp only [estimates] at h ⊢
      obtain ⟨e, hask, hnext⟩ := Outcome.andThen_ok_inv h
      rw [hnext] at h ⊢
      obtain ⟨hestimate, hscan⟩ := ask_eq_ok hask
      change _ = s at hscan
      rw [hscan] at h ⊢
      obtain ⟨rest, hrest, hnext⟩ := Outcome.andThen_ok_inv h
      rw [hnext] at h ⊢
      cases h
      obtain ⟨hsame, hall⟩ := ih hrest
      exact ⟨hsame, .cons hestimate hall⟩

/-- Every field gets the buffers for its estimate, and they are registered one after the other. -/
theorem addBuffers_spec {pairs : List (Field × Estimate)}
    (h : (addBuffers pairs s).result = .ok ()) : ∃ bs,
      List.Forall₂ (fun (p : Field × Estimate) b => s.allocator.allocate p.1 p.2 = .ok b) pairs bs ∧
      (addBuffers pairs s).scan = { s with
        buffers := s.buffers ++ bs
        query := { s.query with
          registered :=
            TiledQuery.putAll (bs.map NamedBuffers.registration) s.query.registered } } := by
  induction pairs generalizing s with
  | nil => exact ⟨[], .nil, by simp [addBuffers, TiledQuery.putAll]⟩
  | cons p pairs ih =>
      obtain ⟨f, e⟩ := p
      simp only [addBuffers] at h ⊢
      split at h
      · cases h
      · next b hb =>
          obtain ⟨⟨⟩, hask, hnext⟩ := Outcome.andThen_ok_inv h
          rw [hnext] at h ⊢
          rw [register_spec hask] at h ⊢
          obtain ⟨bs, hbs, hscan⟩ := ih h
          refine ⟨b :: bs, .cons hb hbs, hscan.trans ?_⟩
          have hname : b.name = f.name := (FieldBuffers.allocate hb).name
          simp only [List.append_assoc, List.singleton_append, List.map_cons, TiledQuery.putAll,
            List.foldl_cons, NamedBuffers.registration, hname]

/-- Fields that have estimates are stored in their shapes. -/
theorem storedFields_of_estimates {q : TiledQuery} {fs : List Field} {es : List Estimate}
    (h : List.Forall₂ (fun f e => q.estimate f.name f.shape = .ok e) fs es) :
    StoredFields q.array fs := by
  intro f hf
  obtain ⟨i, hi⟩ := List.mem_iff_getElem?.1 hf
  obtain ⟨e, -, he⟩ := forall₂_getElem? h hi
  obtain ⟨st, hst, hshape, -⟩ := TiledQuery.estimate_eq_ok he
  exact ⟨st, hst, hshape⟩

/-- The buffers of a field are allocated for its estimate. -/
def Furnished (s : Scan TiledQuery) (f : Field) (b : NamedBuffers) : Prop :=
  ∃ e, s.query.estimate f.name f.shape = .ok e ∧ s.allocator.allocate f e = .ok b

theorem fieldBuffers_of_furnished {fields : List Field} {bs : List NamedBuffers}
    (h : List.Forall₂ s.Furnished fields bs) : List.Forall₂ FieldBuffers fields bs :=
  h.imp fun _ _ ⟨_, _, hb⟩ => FieldBuffers.allocate hb

/-- Every field of a scan gets the buffers for its estimate; they are registered one after the other
    and noted, and the estimate of the first field bounds the rows. -/
theorem provideBuffers_eq (h : s.provideBuffers.result = .ok ()) (hbuffers : s.buffers = []) :
    ∃ es bs, List.Forall₂ (fun f e => s.query.estimate f.name f.shape = .ok e) s.fields es ∧
      List.Forall₂ s.Furnished s.fields bs ∧
      s.provideBuffers.scan = { s with
        upperBound := (es.head?.map (·.cells)).getD 0
        buffers := bs
        allocator := s.allocator.record bs
        query := { s.query with
          registered :=
            TiledQuery.putAll (bs.map NamedBuffers.registration) s.query.registered } } := by
  unfold provideBuffers at h ⊢
  obtain ⟨es, hes, hnext⟩ := Outcome.andThen_ok_inv h
  rw [hnext] at h ⊢
  obtain ⟨hsame, hall⟩ := estimates_spec hes
  rw [hsame] at h ⊢
  obtain ⟨⟨⟩, hadd, hnext⟩ := Outcome.andThen_ok_inv h
  rw [hnext]
  obtain ⟨bs, hbs, hscan⟩ := addBuffers_spec hadd
  rw [hscan]
  refine ⟨es, bs, hall, ?_, by simp only [hbuffers, List.nil_append]⟩
  refine forall₂_of_getElem? ?_ ?_
  · rw [← hbs.length_eq, List.length_zip, hall.length_eq, Nat.min_self]
  · intro i f hf
    obtain ⟨e, he, hestimate⟩ := forall₂_getElem? hall hf
    have hzip : (s.fields.zip es)[i]? = some (f, e) := List.getElem?_zip_eq_some.2 ⟨hf, he⟩
    obtain ⟨b, hb, hallocate⟩ := forall₂_getElem? hbs hzip
    exact ⟨b, hb, e, hestimate, hallocate⟩

theorem provideBuffers_spec (h : s.provideBuffers.result = .ok ()) (hne : s.fields ≠ [])
    (hnodup : (s.fields.map Field.name).Nodup) (hregistered : s.query.registered = [])
    (hbuffers : s.buffers = []) :
    StoredFields s.query.array s.fields ∧ ∃ bs, List.Forall₂ FieldBuffers s.fields bs ∧
      s.provideBuffers.scan.view = { s.view with
        upperBound := s.query.cellsInside.length
        buffers := bs
        query := { s.query with registered := bs.map NamedBuffers.registration } } := by
  obtain ⟨es, bs, hall, hfurnished, hscan⟩ := provideBuffers_eq h hbuffers
  have hbs := fieldBuffers_of_furnished hfurnished
  -- the first estimate counts the cells, whatever its field
  have hfirst : (es.head?.map (·.cells)).getD 0 = s.query.cellsInside.length := by
    generalize s.fields = fields at hall hne
    cases hall with
    | nil => exact absurd rfl hne
    | cons he _ =>
        obtain ⟨st, -, -, rfl⟩ := TiledQuery.estimate_eq_ok he
        exact st.estimate_cells _
  have hput : TiledQuery.putAll (bs.map NamedBuffers.registration) [] =
      bs.map NamedBuffers.registration := by
    refine TiledQuery.putAll_of_nodup ?_
    rw [List.nil_append, List.map_map]
    show (bs.map (·.name)).Nodup
    rwa [forall₂_names hbs]
  refine ⟨storedFields_of_estimates hall, bs, hbs, ?_⟩
  rw [hscan, hfirst, hregistered, hput]
  rfl

/-! ## Hulls and buffers together -/

theorem restrictAll_spec {dims : List Dimension} {constraints : Constraints}
    {populated : List (StoredValue × StoredValue)} {more : Bool}
    (h : (s.restrictAll dims constraints populated).result = .ok more)
    (hranges : s.query.ranges = dims.map fun _ => []) :
    more = false ∧ hulls constraints 0 dims populated = .ok none ∧
        (s.restrictAll dims constraints populated).scan = s ∨
      more = true ∧ ∃ ranges, hulls constraints 0 dims populated = .ok (some ranges) ∧
        (∀ r ∈ ranges, r.1.atMost r.2 = true) ∧
        (s.restrictAll dims constraints populated).scan = { s with
          query := { s.query with ranges := ranges.map fun r => [r] } } := by
  unfold restrictAll at h ⊢
  split at h
  · cases h
  · next hnone =>
      cases h
      exact Or.inl ⟨rfl, hnone, rfl⟩
  · next ranges hsome =>
      obtain ⟨⟨⟩, hrestrict, hnext⟩ := Outcome.andThen_ok_inv h
      rw [hnext] at h ⊢
      cases h
      have hlen := (insideAll_of_hulls hsome).1
      obtain ⟨horder, hscan⟩ := restrictFrom_spec [] hrestrict rfl (by
        rw [hranges, List.nil_append]
        have hfst : (dims.zip ranges).map Prod.fst = dims := List.map_fst_zip (by omega)
        conv_lhs => rw [← hfst, List.map_map]
        rfl)
      have hsnd : (dims.zip ranges).map Prod.snd = ranges := List.map_snd_zip (by omega)
      refine Or.inr ⟨rfl, ranges, hsome, ?_, hscan.trans ?_⟩
      · intro r hr
        rw [← hsnd] at hr
        obtain ⟨p, hp, rfl⟩ := List.mem_map.1 hr
        exact horder p hp
      · conv_rhs => rw [← hsnd, List.map_map]
        rfl

/-! ## The start -/

/-- What a scan sees before its first call. -/
def freshView (q : TiledQuery) : ScanView where
  query := q
  fields := []
  buffers := []
  batch := {}
  status := .unstarted
  position := 0
  visited := 0
  upperBound := 0
  isClosed := false

/-- There are no buffers, and none are registered. -/
structure Bufferless (v : ScanView) : Prop where
  buffers : v.buffers = []
  registered : v.query.registered = []

/-- A scan that has started: it serves the cells inside the hulls, or there are none and it has no
    rows. -/
structure Started (a : TiledArray) (columns : List Column) (constraints : Constraints)
    (v : ScanView) : Prop where
  fields : a.schema.project columns = .ok v.fields
  visited : v.visited = 0
  delivered : v.query.delivered = 0
  unselected : v.query.selection = none
  resolved : ∃ populated, a.populated = .ok populated ∧ ∀ bounds, populated = some bounds →
    ∃ ranges, hulls constraints 0 a.schema.dimensions bounds = .ok ranges ∧
      ∀ rs, ranges = some rs → ∀ r ∈ rs, r.1.atMost r.2 = true
  rows : Serves a (a.admitted constraints) v ∨
    v.isClosed = false ∧ v.upperBound = 0 ∧ a.admitted constraints = [] ∧ Bufferless v

/-- Buffers for all fields of a query that is restricted to the hulls let the scan serve the cells
    inside them. -/
theorem provideBuffers_started {a : TiledArray} {columns : List Column} {constraints : Constraints}
    {bounds ranges : List (StoredValue × StoredValue)} {q : TiledQuery} {fields : List Field}
    (hpopulated : a.populated = .ok (some bounds))
    (hhulls : hulls constraints 0 a.schema.dimensions bounds = .ok (some ranges))
    (horder : ∀ r ∈ ranges, r.1.atMost r.2 = true)
    (hq : q = { TiledQuery.ofArray a with
      stats := q.stats, ranges := ranges.map fun r => [r] })
    (hview : s.view = { freshView q with fields })
    (hfields : a.schema.project columns = .ok fields) (h : s.provideBuffers.result = .ok ()) :
    Started a columns constraints s.provideBuffers.scan.view := by
  have hprojected := (project_spec hfields).1
  have hsq : s.query = q := congrArg ScanView.query hview
  have hsf : s.fields = fields := congrArg ScanView.fields hview
  obtain ⟨hstored, bs, hbs, hafter⟩ := provideBuffers_spec h (by rw [hsf]; exact hprojected.ne_nil)
    (by rw [hsf]; exact hprojected.nodup) (by rw [hsq, hq]; rfl)
    (congrArg ScanView.buffers hview)
  have harray : q.array = a := by rw [hq]; rfl
  have hcells : q.cellsInside = a.admitted constraints := by
    rw [← harray] at hpopulated hhulls ⊢
    exact cellsInside_of_hulls hpopulated hhulls (by rw [hq])
  rw [hsq, hsf, harray] at hstored
  rw [hsf] at hbs
  rw [hafter, hview, hsq]
  have hdelivered : q.delivered = 0 := by rw [hq]; rfl
  have hunselected : q.selection = none := by rw [hq]; rfl
  refine ⟨hfields, rfl, hdelivered, hunselected,
    ⟨_, hpopulated, fun _ hb => ⟨some ranges, ?_, ?_⟩⟩, Or.inl ?_⟩
  · cases hb
    exact hhulls
  · rintro _ ⟨⟩
    exact horder
  exact
    { isOpen := rfl
      queryOpen := by
        show q.closed = false
        rw [hq]
        rfl
      array := harray
      selected := by
        show q.selection.getD q.cellsInside = _
        rw [hcells, hunselected, Option.getD_none]
      registered := rfl
      fields := hprojected
      stored := hstored
      buffers := hbs
      upperBound := congrArg List.length hcells
      visited_le := Nat.zero_le _
      position_le_visited := le_rfl
      position_le_rows := Nat.zero_le _
      delivered := hdelivered
      completed := fun hdone => by cases hdone
      batch := fun hrows => absurd rfl hrows }

/-- Restricting the query and providing buffers start the scan, whether there are hulls or not. -/
theorem restrictAll_started {a : TiledArray} {columns : List Column} {constraints : Constraints}
    {bounds : List (StoredValue × StoredValue)} {q : TiledQuery} {fields : List Field}
    (ha : a.Sound) (hpopulated : a.populated = .ok (some bounds))
    (hq : q = { TiledQuery.ofArray a with stats := q.stats })
    (hview : s.view = { freshView q with fields })
    (hfields : a.schema.project columns = .ok fields) {o : Outcome TiledQuery Unit}
    (ho : o = (s.timed "set_ranges"
      (·.restrictAll a.schema.dimensions constraints bounds)).andThen fun more s =>
        if more then s.timed "init_query_buffers" provideBuffers else ⟨.ok (), s⟩)
    (h : o.result = .ok ()) : Started a columns constraints o.scan.view := by
  subst ho
  have hsq : s.query = q := congrArg ScanView.query hview
  obtain ⟨more, hrestrict, hnext⟩ := Outcome.andThen_ok_inv h
  rw [hnext] at h ⊢
  have hranges : s.query.ranges = a.schema.dimensions.map fun _ => [] := by
    rw [hsq, hq]
    rfl
  rcases restrictAll_spec (s := s.now.2) hrestrict hranges with
    ⟨rfl, hnone, hsame⟩ | ⟨rfl, ranges, hsome, horder, hsame⟩
  · -- without ranges there are no buffers either, and nothing to hand out
    have hrestricted := congrArg view hsame
    have hafter : (s.timed "set_ranges"
        (·.restrictAll a.schema.dimensions constraints bounds)).scan.view = s.view := hrestricted
    rw [if_neg Bool.false_ne_true, hafter, hview]
    refine ⟨hfields, rfl, by rw [hq]; rfl, by rw [hq]; rfl,
      ⟨_, hpopulated, fun _ hb => ⟨none, ?_, fun _ hr => (nomatch hr)⟩⟩,
      Or.inr ⟨rfl, rfl, admitted_of_hulls_none ha hpopulated hnone, rfl, ?_⟩⟩
    · cases hb
      exact hnone
    · show q.registered = []
      rw [hq]
      rfl
  · have hafter : (s.timed "set_ranges"
        (·.restrictAll a.schema.dimensions constraints bounds)).scan.view = { s.view with
          query := { s.query with ranges := ranges.map fun r => [r] } } := congrArg view hsame
    rw [if_pos rfl] at h ⊢
    refine provideBuffers_started (q := { q with ranges := ranges.map fun r => [r] })
      hpopulated hsome horder (by rw [hq]) (hafter.trans ?_) hfields h
    rw [hview, hsq]
    rfl

/-- Once it has its schema, its fields and the populated bounds, a scan has started. -/
theorem prepare_started {a : TiledArray} {columns : List Column} {constraints : Constraints}
    {q : TiledQuery} (ha : a.Sound) (hq : q = { TiledQuery.ofArray a with stats := q.stats })
    (hview : s.view = freshView q) (h : (s.prepare columns constraints).result = .ok ()) :
    Started a columns constraints (s.prepare columns constraints).scan.view := by
  have harray : q.array = a := by rw [hq]; rfl
  have hsq : s.query = q := congrArg ScanView.query hview
  unfold prepare at h ⊢
  obtain ⟨schema, hschema, hnext⟩ := Outcome.andThen_ok_inv h
  rw [hnext] at h ⊢
  obtain ⟨hanswer, hscan⟩ := ask_eq_ok hschema
  have hschemaEq := TiledQuery.whileOpen_eq_ok hanswer
  rw [Except.ok.injEq, hsq, harray] at hschemaEq
  subst hschemaEq
  change _ = s at hscan
  rw [hscan] at h ⊢
  split at h
  · cases h
  · next fields hfields =>
      obtain ⟨populated, hpopulated, hnext⟩ := Outcome.andThen_ok_inv h
      rw [hnext] at h ⊢
      obtain ⟨hanswer, hscan⟩ := ask_eq_ok hpopulated
      have hpop := TiledQuery.whileOpen_eq_ok hanswer
      change s.query.array.populated = _ at hpop
      rw [hsq, harray] at hpop
      change _ = { s with fields } at hscan
      rw [hscan] at h ⊢
      have hwith : ({ s with fields } : Scan TiledQuery).view = { freshView q with fields } := by
        rw [← hview]
        rfl
      -- from here on only the view of the scan matters
      generalize ({ s with fields } : Scan TiledQuery) = t at h hwith ⊢
      cases populated with
      | none =>
          dsimp only
          rw [hwith]
          refine ⟨hfields, rfl, by rw [hq]; rfl, by rw [hq]; rfl,
            ⟨none, hpop, fun _ hb => (nomatch hb)⟩, Or.inr ⟨rfl, rfl, ?_, rfl, ?_⟩⟩
          · rw [TiledArray.admitted, hpop]
          · show q.registered = []
            rw [hq]
            rfl
      | some bounds =>
          refine restrictAll_started ha hpop hq hwith hfields ?_ h
          dsimp only
          congr 1
          funext more s
          cases more <;> rfl

/-- A scan that starts serves the cells inside the hulls, or there are none and it has no rows. -/
theorem start_spec {a : TiledArray} {id : ScanId} {settings : ScanSettings}
    {columns : List Column} {constraints : Constraints} {memory : Source UInt64}
    {clock : Source Nat} (ha : a.Sound)
    (h : (start (TiledQuery.ofArray a) id settings columns constraints memory clock).result =
      .ok ()) :
    Started a columns constraints
      (start (TiledQuery.ofArray a) id settings columns constraints memory clock).scan.view := by
  unfold start at h ⊢
  simp only at h ⊢
  split at h
  · cases h
  · split at h
    · next t ht =>
        have hresult := congrArg Outcome.result ht
        have hscan := congrArg (fun o => o.scan.view) ht
        rw [timed_result] at hresult
        refine Eq.mp (congrArg _ hscan) ?_
        exact prepare_started (q := QueryEngine.keepStats (TiledQuery.ofArray a) settings.keepStats)
          ha rfl rfl hresult
    · cases h

theorem started_of_start {a : TiledArray} {id : ScanId} {settings : ScanSettings}
    {columns : List Column} {constraints : Constraints} {memory : Source UInt64}
    {clock : Source Nat} (ha : a.Sound)
    (hs : start (TiledQuery.ofArray a) id settings columns constraints memory clock = ⟨.ok (), s⟩) :
    Started a columns constraints s.view := by
  have hstarted := start_spec ha (congrArg Outcome.result hs)
  rwa [show (start _ _ _ _ _ _ _).scan = s from congrArg Outcome.scan hs] at hstarted

end Scan

end SparseScan
