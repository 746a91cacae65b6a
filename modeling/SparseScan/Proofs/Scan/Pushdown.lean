import SparseScan.Proofs.Constraint.Coverage
import SparseScan.Proofs.Scan.Contents

set_option autoImplicit false

/-! # Pushing constraints down to the query

The ranges of a query are coarser than the constraints they come from. `start_keeps_matching` says
that they are nowhere finer: no cell that satisfies the constraints is missing from the rows. -/

namespace SparseScan

open TiledQuery (inside)

/-- Whether coordinates satisfy the constraints on their dimensions. -/
def Constraints.satisfiedBy (t : Constraints) (dims : List Dimension) (coords : List StoredValue) :
    Prop :=
  List.Forall₂ (fun d v => ∀ c, t.get? d.name = some c → c.admits d.datatype v) dims coords

/-- The literals of the constraints on some dimensions are exact. -/
def Constraints.exactIn (t : Constraints) (dims : List Dimension) : Prop :=
  ∀ d ∈ dims, ∀ c, t.get? d.name = some c → c.exactIn d.datatype

namespace Scan

variable {constraints : Constraints}

/-- A populated coordinate that satisfies the constraint on its dimension lies in the hull. -/
theorem inside_hull_of_admits {d : Dimension} {b : StoredValue × StoredValue} {v : StoredValue}
    {r : Option (StoredValue × StoredValue)}
    (h : d.hull (constraints.get? d.name) b = .ok r)
    (hexact : ∀ c, constraints.get? d.name = some c → c.exactIn d.datatype) (hd : d.Holds v)
    (htop : v.hasTopByte = false) (hinside : inside v b = true)
    (hadmits : ∀ c, constraints.get? d.name = some c → c.admits d.datatype v) :
    ∃ hull, r = some hull ∧ inside v hull = true := by
  cases hc : constraints.get? d.name with
  | none =>
      rw [hc] at h
      cases h
      exact ⟨b, rfl, hinside⟩
  | some c =>
      rw [hc] at h
      exact hull_covers (hexact c hc) h hd.ordered htop hinside (hadmits c hc)

/-- Populated coordinates that satisfy the constraints lie in the hulls, so there are hulls. -/
theorem withinHulls_of_satisfiedBy {position : Nat} {dims : List Dimension}
    {bounds : List (StoredValue × StoredValue)} {coords : List StoredValue}
    {ranges : Option (List (StoredValue × StoredValue))}
    (h : hulls constraints position dims bounds = .ok ranges) (hexact : constraints.exactIn dims)
    (hholds : List.Forall₂ Dimension.Holds dims coords)
    (hinside : List.Forall₂ (fun v b => inside v b = true) coords bounds)
    (htop : ∀ v ∈ coords, v.hasTopByte = false) (hsat : constraints.satisfiedBy dims coords) :
    ranges ≠ none ∧ withinHulls constraints dims bounds coords = true := by
  induction hholds generalizing position bounds ranges with
  | nil =>
      cases h
      exact ⟨Option.some_ne_none _, rfl⟩
  | @cons d v dims coords hd _ ih =>
      cases hinside with
      | @cons _ b _ bounds hv hinside =>
          obtain _ | ⟨hadmits, hsat⟩ := hsat
          have hhull := fun r hr => inside_hull_of_admits (r := r) hr
            (hexact d (List.mem_cons_self ..)) hd (htop v (List.mem_cons_self ..)) hv hadmits
          simp only [hulls] at h
          split at h
          · cases h
          · next hnone =>
              -- a dimension without a hull admits none of its coordinates
              obtain ⟨hull, hsome, -⟩ := hhull _ hnone
              cases hsome
          · next hull hsome =>
              obtain ⟨_, heq, hin⟩ := hhull _ hsome
              cases heq
              split at h
              · cases h
              · next rest hrest =>
                  obtain ⟨hne, hwithin⟩ := ih hrest
                    (fun d hd => hexact d (List.mem_cons_of_mem _ hd)) hinside
                    (fun v hv => htop v (List.mem_cons_of_mem _ hv)) hsat
                  rw [Except.ok.injEq] at h
                  refine ⟨?_, ?_⟩
                  · rw [← h]
                    simpa using hne
                  · simp only [withinHulls, hsome, hin, hwithin, Bool.and_self]

/-- No cell that satisfies the constraints is missing from the rows of a scan: it is among them as
    often as it is in the array. Where some dimension has no hull, there is no such cell. -/
theorem start_keeps_matching {schema : Schema} {tileExtent : Nat} {cells : List Cell}
    {a : TiledArray} {id : ScanId} {settings : ScanSettings} {columns : List Column}
    {memory : Source UInt64} {clock : Source Nat} {s : Scan TiledQuery}
    (ha : TiledArray.ofCells schema tileExtent cells = .ok a)
    (hexact : constraints.exactIn schema.dimensions)
    (htop : ∀ c ∈ cells, ∀ v ∈ c.coords, v.hasTopByte = false)
    (hs : start (TiledQuery.ofArray a) id settings columns constraints memory clock = ⟨.ok (), s⟩)
    (hok : s.NeverFails) :
    s.HandsOut a (a.admitted constraints) ∧
      (∀ c ∈ cells, constraints.satisfiedBy schema.dimensions c.coords →
        (a.admitted constraints).count c = cells.count c) ∧
      ∀ bounds, a.populated = .ok (some bounds) →
        hulls constraints 0 schema.dimensions bounds = .ok none →
          ∀ c ∈ cells, ¬ constraints.satisfiedBy schema.dimensions c.coords := by
  obtain ⟨hsound, hschema, hperm⟩ := TiledArray.sound_ofCells ha
  have hstarted := start_spec hsound (congrArg Outcome.result hs)
  rw [show (start _ _ _ _ _ _ _).scan = s from congrArg Outcome.scan hs] at hstarted
  subst hschema
  -- the hulls that the start found hold each cell that satisfies the constraints
  have hwithin : ∀ bounds ranges, a.populated = .ok (some bounds) →
      hulls constraints 0 a.schema.dimensions bounds = .ok ranges → ∀ c ∈ cells,
        constraints.satisfiedBy a.schema.dimensions c.coords →
          ranges ≠ none ∧ withinHulls constraints a.schema.dimensions bounds c.coords = true := by
    intro bounds ranges hpopulated hranges c hc hsat
    have hmem := hperm.mem_iff.2 hc
    exact withinHulls_of_satisfiedBy hranges hexact (hsound.fits c hmem).coords
      (((TiledArray.populated_spec hsound hpopulated).2 bounds rfl).2 c hmem) (htop c hc) hsat
  refine ⟨hstarted.handsOut hsound hok, ?_, fun bounds hpopulated hnone c hc hsat =>
    (hwithin bounds none hpopulated hnone c hc hsat).1 rfl⟩
  intro c hc hsat
  obtain ⟨populated, hpopulated, hresolved⟩ := hstarted.resolved
  cases populated with
  | none =>
      have hempty := (TiledArray.populated_spec hsound hpopulated).1.1 rfl
      have hmem := hperm.mem_iff.2 hc
      rw [hempty] at hmem
      cases hmem
  | some bounds =>
      -- the cells of the array are those given, and the filter keeps all that match
      obtain ⟨ranges, hranges, -⟩ := hresolved bounds rfl
      rw [← hperm.count_eq]
      simp only [TiledArray.admitted, hpopulated]
      exact List.count_filter (hwithin bounds ranges hpopulated hranges c hc hsat).2

/-! ## Months under a constraint on days -/

/-- An array with the first three months of the epoch. -/
def months : TiledArray :=
  ⟨⟨[⟨"month", .dateTime .month, false⟩], []⟩,
    [⟨[.int .int64 ⟨0, by decide⟩], []⟩, ⟨[.int .int64 ⟨1, by decide⟩], []⟩,
      ⟨[.int .int64 ⟨2, by decide⟩], []⟩], 2⟩

theorem ofCells_months : TiledArray.ofCells months.schema 2 months.cells = .ok months :=
  TiledArray.ofCells_of_sorted (by decide) (by decide) (by decide +kernel) (by decide +kernel)

/-- The days after the first one of the epoch. -/
def afterFirstDay : Constraints :=
  ⟨[("month", ⟨.date, .intervals [.above (.long ⟨0, by decide⟩)]⟩)]⟩

/-- A scan of the months under that constraint, with time standing still. -/
def monthScan : Outcome TiledQuery Unit :=
  start (TiledQuery.ofArray months) ⟨"months"⟩ {} [⟨"month", .date, true⟩] afterFirstDay
    (Source.constant (2 ^ 40)) (Source.constant 0)

theorem afterFirstDay_exactIn : afterFirstDay.exactIn months.schema.dimensions := by
  intro d hd c hc is his i hi
  obtain rfl := List.mem_singleton.1 hd
  cases hc
  cases his
  obtain rfl := List.mem_singleton.1 hi
  exact ⟨fun l _ => trivial, fun l _ => trivial⟩

theorem satisfiedBy_february :
    afterFirstDay.satisfiedBy months.schema.dimensions [.int .int64 ⟨1, by decide⟩] := by
  refine .cons (fun c hc => ?_) .nil
  cases hc
  refine ⟨.ofInt 31, by rfl, _, List.mem_singleton_self _, ⟨.ofInt 0, rfl, ?_⟩, trivial⟩
  have hside : (Interval.above (.long ⟨0, by decide⟩)).low.side = .after := rfl
  rw [if_pos hside, Meaning.ofInt_lt]
  decide

/-- February begins after the first day, so it is a row. -/
theorem monthScan_february :
    monthScan.scan.HandsOut months (months.admitted afterFirstDay) ∧
      (months.admitted afterFirstDay).count ⟨[.int .int64 ⟨1, by decide⟩], []⟩ = 1 := by
  have hstart : monthScan = ⟨.ok (), monthScan.scan⟩ := by
    have hresult : monthScan.result = .ok () := by decide +kernel
    rw [← hresult]
  have hok : monthScan.scan.NeverFails :=
    neverFails_of_ends (n := 2) (by decide +kernel) (by decide +kernel)
  obtain ⟨hrows, hcount, -⟩ := start_keeps_matching ofCells_months afterFirstDay_exactIn
    (by decide) hstart hok
  refine ⟨hrows, (hcount _ ?_ satisfiedBy_february).trans ?_⟩
  · decide
  · decide

end Scan

end SparseScan
