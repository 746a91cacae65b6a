import SparseScan.Proofs.Constraint.Crossing
import SparseScan.Proofs.Scan.Contents

set_option autoImplicit false

/-! # When a range is refused

A query refuses a range whose ends cross, and then the scan does not start.
`range_refused_iff_overshoots` says that this happens exactly when a constraint overshoots: any
other constraint that no stored value satisfies leaves a scan without rows. -/

namespace SparseScan

/-! ## Requests that refuse a range -/

/-- An error is as `P` says if it is that the ends of a range cross. -/
def CrossesAs (P : ArrayError → Prop) (e : ArrayError) : Prop := e.isCrossing = true → P e

theorem crossesAs_of_not_crossing {P : ArrayError → Prop} (e : ArrayError)
    (he : e.isCrossing = false) (_ : e.aborts = false) : CrossesAs P e := by
  intro hcross
  rw [he] at hcross
  cases hcross

/-- Before the first submit, the ends alone decide whether a query takes a range. -/
theorem TiledQuery.withRange_of_order (q : TiledQuery) (position : Nat) {low high : StoredValue}
    {o : Ordering} (hq : q.selection = none) (h : low.order high = .ok o) :
    (q.withRange position low high = .error (.rangeCrossed position low high) ↔ o = .gt) ∧
      ((∃ q', q.withRange position low high = .ok q') ↔ o ≠ .gt) := by
  unfold withRange
  rw [hq, Option.isSome_none, if_neg Bool.false_ne_true, h]
  cases o <;> simp

/-! ## Steps of a start -/

namespace Outcome

variable {Q α β : Type}

/-- If a step fails because the ends of a range cross, then as `P` says. -/
def RefusesOnly (P : ArrayError → Prop) (o : Outcome Q α) : Prop :=
  ∀ e, o.result = .error (.storage e) → e.isCrossing = true → P e

variable {P : ArrayError → Prop} {o : Outcome Q α}

theorem RefusesOnly.andThen {next : α → Scan Q → Outcome Q β} (ho : o.RefusesOnly P)
    (hnext : ∀ a, o.result = .ok a → (next a o.scan).RefusesOnly P) :
    (o.andThen next).RefusesOnly P := by
  obtain ⟨result, s⟩ := o
  cases result with
  | ok a => exact hnext a rfl
  | error e =>
      rintro _ ⟨⟩
      exact ho _ rfl

theorem refusesOnly_of_ok {a : α} (h : o.result = .ok a) : o.RefusesOnly P := by
  intro e he
  rw [h] at he
  cases he

theorem refusesOnly_of_error {e : ScanError} (h : o.result = .error e)
    (he : ∀ e', e = .storage e' → e'.isCrossing = false) : o.RefusesOnly P := by
  intro e' he' hcross
  rw [h, Except.error.injEq] at he'
  rw [he e' he'] at hcross
  cases hcross

end Outcome

namespace Scan

variable {P : ArrayError → Prop} {s : Scan TiledQuery} {α : Type}

theorem refusesOnly_ask {request : TiledQuery → Except ArrayError α × TiledQuery}
    (h : FailsAs (CrossesAs P) (request s.query).1) : (s.ask request).RefusesOnly P := by
  intro e he
  cases hanswer : (request s.query).1 with
  | ok a => simp [ask, hanswer, Except.mapError] at he
  | error e' =>
      simp only [ask, hanswer, Except.mapError, Except.error.injEq, ScanError.storage.injEq] at he
      exact h e (by rw [hanswer, he])

theorem refusesOnly_restrict {position : Nat} {d : Dimension} {low high : StoredValue} :
    (s.restrict position d low high).RefusesOnly
      fun e => e = .rangeCrossed position low high ∧ low.order high = .ok .gt := by
  unfold restrict
  split
  · split
    · exact refusesOnly_ask
        (TiledQuery.failsAs_restrictText crossesAs_of_not_crossing fun hgt _ => ⟨rfl, hgt⟩)
    · exact Outcome.refusesOnly_of_error rfl fun _ h => by cases h
  · exact refusesOnly_ask
      (TiledQuery.failsAs_restrict crossesAs_of_not_crossing fun hgt _ => ⟨rfl, hgt⟩)

/-- Restricting the dimensions from one on is refused only for a range of theirs that is crossed. -/
theorem refusesOnly_restrictFrom {position : Nat}
    {pairs : List (Dimension × StoredValue × StoredValue)} :
    (restrictFrom position pairs s).RefusesOnly fun e => ∃ (i : Nat) (d : Dimension) (low high : _),
      pairs[i]? = some (d, low, high) ∧ e = .rangeCrossed (position + i) low high ∧
        low.order high = .ok .gt := by
  induction pairs generalizing position s with
  | nil => exact Outcome.refusesOnly_of_ok rfl
  | cons p pairs ih =>
      obtain ⟨d, low, high⟩ := p
      refine Outcome.RefusesOnly.andThen ?_ ?_
      · intro e he hcross
        obtain ⟨rfl, hgt⟩ := refusesOnly_restrict e he hcross
        exact ⟨0, d, low, high, rfl, rfl, hgt⟩
      · intro _ _ e he hcross
        obtain ⟨i, d', low', high', hi, rfl, hgt⟩ := ih e he hcross
        exact ⟨i + 1, d', low', high', hi, by rw [Nat.add_right_comm, Nat.add_assoc], hgt⟩

/-! ## The whole start -/

variable {constraints : Constraints} {position : Nat} {dims : List Dimension}
  {bounds ranges : List (StoredValue × StoredValue)}

/-- Each range of a query is the hull of its dimension. -/
theorem hulls_getElem? (h : hulls constraints position dims bounds = .ok (some ranges)) {i : Nat}
    {d : Dimension} {b : StoredValue × StoredValue} (hd : dims[i]? = some d)
    (hb : bounds[i]? = some b) :
    ∃ r, ranges[i]? = some r ∧ d.hull (constraints.get? d.name) b = .ok (some r) := by
  induction dims generalizing position bounds ranges i with
  | nil => cases hd
  | cons d' dims ih =>
      cases bounds with
      | nil => cases hb
      | cons b' bounds =>
          simp only [hulls] at h
          split at h
          · cases h
          · cases h
          · next r hr =>
              split at h
              · cases h
              · next rest hrest =>
                  rw [Except.ok.injEq] at h
                  obtain ⟨others, rfl, rfl⟩ := Option.map_eq_some_iff.1 h
                  cases i with
                  | zero =>
                      cases hd
                      cases hb
                      exact ⟨r, rfl, hr⟩
                  | succ i => exact ih hrest hd hb

theorem refusesOnly_hulls (s : Scan TiledQuery) {e : ScanError}
    (h : hulls constraints position dims bounds = .error e) :
    (⟨.error e, s⟩ : Outcome TiledQuery α).RefusesOnly P := by
  refine Outcome.refusesOnly_of_error rfl ?_
  rintro e' rfl
  induction dims generalizing position bounds with
  | nil => cases h
  | cons d dims ih =>
      cases bounds with
      | nil =>
          cases h
          rfl
      | cons b bounds =>
          simp only [hulls] at h
          split at h
          · cases h
          · cases h
          · split at h
            · next hrest =>
                cases h
                exact ih hrest
            · cases h

theorem refusesOnly_provideBuffers : s.provideBuffers.RefusesOnly P := by
  have hestimates : ∀ (fs : List Field) (s : Scan TiledQuery), (estimates fs s).RefusesOnly P := by
    intro fs
    induction fs with
    | nil => exact fun s => Outcome.refusesOnly_of_ok rfl
    | cons f fs ih =>
        exact fun s => (refusesOnly_ask
          (TiledQuery.failsAs_estimate crossesAs_of_not_crossing _ _)).andThen fun _ _ =>
          (ih _).andThen fun _ _ => Outcome.refusesOnly_of_ok rfl
  have haddBuffers : ∀ (pairs : List (Field × Estimate)) (s : Scan TiledQuery),
      (addBuffers pairs s).RefusesOnly P := by
    intro pairs
    induction pairs with
    | nil => exact fun s => Outcome.refusesOnly_of_ok rfl
    | cons p pairs ih =>
        intro s
        unfold addBuffers
        split
        · exact Outcome.refusesOnly_of_error rfl fun _ h => by cases h
        · exact (refusesOnly_ask
            (TiledQuery.failsAs_register crossesAs_of_not_crossing _ _)).andThen fun _ _ => ih _
  exact (hestimates _ _).andThen fun _ _ => (haddBuffers _ _).andThen fun _ _ =>
    Outcome.refusesOnly_of_ok rfl

/-- A constraint on a dimension of array `a` that overshoots what is populated. -/
def Overshot (a : TiledArray) (constraints : Constraints) (position : Nat) : Prop :=
  ∃ d c populated bounds, a.populated = .ok (some populated) ∧
    a.schema.dimensions[position]? = some d ∧ populated[position]? = some bounds ∧
    constraints.get? d.name = some c ∧ c.overshoots d bounds

theorem refusesOnly_restrictAll {a : TiledArray} (ha : a.Sound)
    (hnan : ∀ name c, constraints.get? name = some c → c.nanFree)
    (hpopulated : a.populated = .ok (some bounds)) :
    (s.restrictAll a.schema.dimensions constraints bounds).RefusesOnly fun e =>
      ∃ position low high, e = .rangeCrossed position low high ∧
        Overshot a constraints position := by
  have hbounds := ((TiledArray.populated_spec ha hpopulated).2 bounds rfl).1
  unfold restrictAll
  split
  · next e he => exact refusesOnly_hulls s he
  · exact Outcome.refusesOnly_of_ok rfl
  · next ranges hranges =>
      refine Outcome.RefusesOnly.andThen (fun e he hcross => ?_) fun _ _ =>
        Outcome.refusesOnly_of_ok rfl
      obtain ⟨i, d, low, high, hi, rfl, hgt⟩ := refusesOnly_restrictFrom e he hcross
      rw [Nat.zero_add]
      obtain ⟨hd, hr⟩ := List.getElem?_zip_eq_some.1 hi
      obtain ⟨b, hb, hbound⟩ := forall₂_getElem? hbounds hd
      obtain ⟨_, hr', hhull⟩ := hulls_getElem? hranges hd hb
      cases hr.symm.trans hr'
      refine ⟨i, low, high, rfl, ?_⟩
      cases hc : constraints.get? d.name with
      | none =>
          -- the range of an unconstrained dimension is the populated one, which is in order
          rw [hc, Dimension.hull, Except.ok.injEq, Option.some.injEq] at hhull
          rw [hhull] at hbound
          exact absurd hbound.inOrder
            ((StoredValue.not_atMost_iff hbound.low hbound.high).2 hgt)
      | some c =>
          rw [hc] at hhull
          exact ⟨d, c, bounds, b, hpopulated, hd, hb, hc,
            (hull_crosses_iff (hnan _ c hc) hbound.low hbound.high hbound.inOrder hhull).1 hgt⟩

theorem refusesOnly_prepare {a : TiledArray} {columns : List Column} (ha : a.Sound)
    (hnan : ∀ name c, constraints.get? name = some c → c.nanFree) (hs : s.query.array = a) :
    (s.prepare columns constraints).RefusesOnly fun e =>
      ∃ position low high, e = .rangeCrossed position low high ∧
        Overshot a constraints position := by
  unfold prepare
  refine (refusesOnly_ask (.whileOpen crossesAs_of_not_crossing (failsAs_ok _))).andThen
    fun schema hschema => ?_
  obtain ⟨hanswer, hscan⟩ := ask_eq_ok hschema
  have hschemaEq := TiledQuery.whileOpen_eq_ok hanswer
  rw [Except.ok.injEq, hs] at hschemaEq
  subst hschemaEq
  change _ = s at hscan
  rw [hscan]
  split
  · exact Outcome.refusesOnly_of_error rfl fun _ h => by cases h
  · next fields _ =>
      refine (refusesOnly_ask (.whileOpen crossesAs_of_not_crossing
        (TiledQuery.failsAs_populated crossesAs_of_not_crossing _))).andThen
          fun populated hpopulated => ?_
      have hpop := TiledQuery.whileOpen_eq_ok (ask_eq_ok hpopulated).1
      change s.query.array.populated = _ at hpop
      rw [hs] at hpop
      cases populated with
      | none => exact Outcome.refusesOnly_of_ok rfl
      | some bounds =>
          refine Outcome.RefusesOnly.andThen
            (refusesOnly_restrictAll (s := now _ |>.2) ha hnan hpop) fun more _ => ?_
          cases more with
          | false => exact Outcome.refusesOnly_of_ok rfl
          | true => exact refusesOnly_provideBuffers (s := now _ |>.2)

/-- A start that fails for a crossed range fails for a constraint that overshoots. -/
theorem refusesOnly_start {a : TiledArray} {id : ScanId} {settings : ScanSettings}
    {columns : List Column} {memory : Source UInt64} {clock : Source Nat} (ha : a.Sound)
    (hnan : ∀ name c, constraints.get? name = some c → c.nanFree) :
    (start (TiledQuery.ofArray a) id settings columns constraints memory clock).RefusesOnly fun e =>
      ∃ position low high, e = .rangeCrossed position low high ∧
        Overshot a constraints position := by
  unfold start
  simp only
  split
  · exact Outcome.refusesOnly_of_error rfl fun _ h => by cases h
  · split
    · exact Outcome.refusesOnly_of_ok rfl
    · next e t ht =>
        have hresult := congrArg Outcome.result ht
        rw [timed_result] at hresult
        rintro e' ⟨⟩
        exact refusesOnly_prepare ha hnan rfl e' hresult

/-! ## Refusal -/

/-- The ends of a range are refused by the query exactly when the constraint overshoots. -/
theorem hull_refused_iff {d : Dimension} {c : Constraint} {b : StoredValue × StoredValue}
    {low high : StoredValue} (hnan : c.nanFree) (hb : d.Bounds b)
    (h : d.hull (some c) b = .ok (some (low, high))) :
    (low.atMost high = true ↔ ¬ c.overshoots d b) ∧
      ∀ (q : TiledQuery) (position : Nat), q.selection = none →
        (q.withRange position low high = .error (.rangeCrossed position low high) ↔
          c.overshoots d b) ∧
        ((∃ q', q.withRange position low high = .ok q') ↔ ¬ c.overshoots d b) := by
  have hcrosses := hull_crosses_iff hnan hb.low hb.high hb.inOrder h
  obtain ⟨hlow, hhigh⟩ := hull_ordered hnan hb.low hb.high h
  obtain ⟨o, ho, -⟩ := StoredValue.order_compares hlow hhigh
  have hgt : low.order high = .ok .gt ↔ o = .gt := by rw [ho, Except.ok.injEq]
  refine ⟨?_, ?_⟩
  · rw [← hcrosses, ← StoredValue.not_atMost_iff hlow hhigh, not_not]
  · intro q position hq
    obtain ⟨hrefused, htaken⟩ := q.withRange_of_order position hq ho
    rw [hrefused, htaken, ← hcrosses, hgt]
    exact ⟨Iff.rfl, Iff.rfl⟩

/-- A scan that starts after all its hulls were found has no constraint that overshoots. -/
theorem not_overshot_of_started {a : TiledArray} {columns : List Column} (ha : a.Sound)
    (hnan : ∀ name c, constraints.get? name = some c → c.nanFree)
    (hs : Started a columns constraints s.view) (hpopulated : a.populated = .ok (some bounds))
    (hhulls : hulls constraints 0 a.schema.dimensions bounds = .ok (some ranges)) (position : Nat) :
    ¬ Overshot a constraints position := by
  rintro ⟨d, c, populated, b, hpopulated', hd, hb, hc, hover⟩
  cases hpopulated.symm.trans hpopulated'
  have hbounds := ((TiledArray.populated_spec ha hpopulated).2 bounds rfl).1
  obtain ⟨_, hb', hbound⟩ := forall₂_getElem? hbounds hd
  cases hb.symm.trans hb'
  obtain ⟨⟨low, high⟩, hr, hhull⟩ := hulls_getElem? hhulls hd hb
  rw [hc] at hhull
  obtain ⟨_, hpopulated', hresolved⟩ := hs.resolved
  cases hpopulated.symm.trans hpopulated'
  obtain ⟨_, hhulls', hinOrder⟩ := hresolved bounds rfl
  cases hhulls.symm.trans hhulls'
  have horder := hinOrder ranges rfl _ (List.mem_of_getElem? hr)
  exact (hull_refused_iff (hnan _ c hc) hbound hhull).1.1 horder hover

/-- A hull is handed over with crossed ends, and refused, exactly when the constraint overshoots:
    all its intervals lie beyond the populated values on a side where one of them has no limit. A
    scan does not start with such a constraint, once there are hulls for all dimensions, and a range
    that keeps it from starting is due to one. Otherwise, when the hulls hold no cell, the scan has
    no rows. -/
theorem range_refused_iff_overshoots (d : Dimension) (c : Constraint)
    (b : StoredValue × StoredValue) (hnan : c.nanFree) (hb : d.Bounds b) :
    (∀ low high, d.hull (some c) b = .ok (some (low, high)) →
      (low.atMost high = true ↔ ¬ c.overshoots d b) ∧
        ∀ (q : TiledQuery) (position : Nat), q.selection = none →
          (q.withRange position low high = .error (.rangeCrossed position low high) ↔
            c.overshoots d b) ∧
          ((∃ q', q.withRange position low high = .ok q') ↔ ¬ c.overshoots d b)) ∧
      ∀ (schema : Schema) (tileExtent : Nat) (cells : List Cell) (a : TiledArray)
        (constraints : Constraints), TiledArray.ofCells schema tileExtent cells = .ok a →
        (∀ name c, constraints.get? name = some c → c.nanFree) →
        ∀ (id : ScanId) (settings : ScanSettings) (columns : List Column) (memory : Source UInt64)
          (clock : Source Nat) (o : Outcome TiledQuery Unit),
          start (TiledQuery.ofArray a) id settings columns constraints memory clock = o →
          (∀ position low high, o.result = .error (.storage (.rangeCrossed position low high)) →
            Overshot a constraints position) ∧
          (o.result = .ok () → ∀ bounds ranges, a.populated = .ok (some bounds) →
            hulls constraints 0 a.schema.dimensions bounds = .ok (some ranges) →
              ∀ position, ¬ Overshot a constraints position) ∧
          (o.result = .ok () → o.scan.NeverFails → a.admitted constraints = [] →
            o.scan.HandsOut a []) := by
  refine ⟨fun low high h => hull_refused_iff hnan hb h, ?_⟩
  rintro schema tileExtent cells a constraints ha hnan id settings columns memory clock o rfl
  have hsound := (TiledArray.sound_ofCells ha).1
  refine ⟨?_, ?_, ?_⟩
  · intro position low high hrefused
    obtain ⟨_, _, _, hcrossed, hover⟩ := refusesOnly_start hsound hnan _ hrefused rfl
    cases hcrossed
    exact hover
  · intro hok bounds ranges hpopulated hhulls
    exact not_overshot_of_started hsound hnan (start_spec hsound hok) hpopulated hhulls
  · intro hok hfails hnone
    have hrows := (start_spec hsound hok).handsOut hsound hfails
    rw [hnone] at hrows
    exact hrows

/-! ## Beyond the populated values -/

/-- An array with the coordinates zero and one hundred. -/
def hundred : TiledArray :=
  ⟨⟨[⟨"row", .int64, false⟩], []⟩,
    [⟨[.small .int64 0], []⟩, ⟨[.small .int64 100], []⟩], 1⟩

theorem ofCells_hundred : TiledArray.ofCells hundred.schema 1 hundred.cells = .ok hundred :=
  TiledArray.ofCells_of_sorted (by decide) (by decide) (by decide +kernel) (by decide +kernel)

/-- Coordinates greater than one thousand, of which there are none. -/
def beyondHundred : Constraints :=
  ⟨[("row", ⟨.bigInt, .intervals [.above (.long ⟨1000, by decide⟩)]⟩)]⟩

/-- A scan of the array under that constraint, with time standing still. -/
def hundredScan : Outcome TiledQuery Unit :=
  start (TiledQuery.ofArray hundred) ⟨"hundred"⟩ {} [⟨"row", .bigInt, true⟩] beyondHundred
    (Source.constant (2 ^ 40)) (Source.constant 0)

theorem beyondHundred_nanFree {name : String} {c : Constraint}
    (h : beyondHundred.get? name = some c) : c.nanFree := by
  simp only [beyondHundred, Constraints.get?, List.lookup_cons, List.lookup_nil] at h
  split at h
  · cases h
    rintro _ ⟨⟩ i hi v hv
    obtain rfl := List.mem_singleton.1 hi
    simp only [Interval.above, Endpoint.after, Endpoint.unlimited, Option.some.injEq,
      reduceCtorEq, or_false] at hv
    subst hv
    rfl
  · cases h

/-- The constraint overshoots the populated values, and for that reason the query refuses the range
    between them. -/
theorem hundredScan_overshot :
    Overshot hundred beyondHundred 0 ∧
      (TiledQuery.ofArray hundred).withRange 0 (.int .int64 ⟨1001, by decide⟩)
          (.int .int64 ⟨100, by decide⟩) = .error (.rangeCrossed 0 (.int .int64 ⟨1001, by decide⟩)
            (.int .int64 ⟨100, by decide⟩)) := by
  have hnan := beyondHundred_nanFree (show beyondHundred.get? "row" = some _ from rfl)
  obtain ⟨hrange, hscan⟩ := range_refused_iff_overshoots ⟨"row", .int64, false⟩ _
    (.int .int64 ⟨0, by decide⟩, .int .int64 ⟨100, by decide⟩) hnan
    ⟨⟨rfl, rfl⟩, ⟨rfl, rfl⟩, by decide⟩
  obtain ⟨hover, -⟩ := hscan hundred.schema 1 hundred.cells hundred beyondHundred ofCells_hundred
    (fun _ _ => beyondHundred_nanFree) _ _ _ _ _ hundredScan rfl
  have hrefused : hundredScan.result = .error (.storage (.rangeCrossed 0
      (.int .int64 ⟨1001, by decide⟩) (.int .int64 ⟨100, by decide⟩))) := by decide +kernel
  obtain ⟨d, c, populated, b, hpopulated, hd, hb, hc, hovershoots⟩ := hover 0 _ _ hrefused
  refine ⟨hover 0 _ _ hrefused, ?_⟩
  have hbox : hundred.populated = .ok (some [(.int .int64 ⟨0, by decide⟩,
    .int .int64 ⟨100, by decide⟩)]) := by decide +kernel
  cases hbox.symm.trans hpopulated
  cases hd
  cases hb
  cases hc
  exact ((hrange _ _ (by decide +kernel)).2 _ 0 rfl).1.2 hovershoots

/-- No stored value satisfies the constraint, and yet the hull has bounds, which are crossed, and
    the scan does not start. -/
theorem hundredScan_refused :
    Dimension.hull ⟨"row", .int64, false⟩ (beyondHundred.get? "row")
        (.int .int64 ⟨0, by decide⟩, .int .int64 ⟨100, by decide⟩) =
      .ok (some (.int .int64 ⟨1001, by decide⟩, .int .int64 ⟨100, by decide⟩)) ∧
    (StoredValue.int .int64 ⟨1001, by decide⟩).atMost (.int .int64 ⟨100, by decide⟩) = false ∧
    hundredScan.result = .error (.storage (.rangeCrossed 0 (.int .int64 ⟨1001, by decide⟩)
      (.int .int64 ⟨100, by decide⟩))) := by
  decide +kernel

end Scan

end SparseScan
