import SparseScan.Proofs.Scan.Contents

set_option autoImplicit false

/-! # Constraints that are not on dimensions

A scan looks constraints up by the names of the dimensions and of nothing else. A constraint on any
other column leaves it as it is (`start_congr`). But the names of attributes and dimensions are not
kept apart: a constraint on an attribute that has the name of a dimension restricts the dimension
(`start_erase`). -/

namespace SparseScan

open TiledQuery (inside)

namespace Constraints

/-- The constraint on one column alone. -/
def only (t : Constraints) (name : String) : Constraints := ⟨t.entries.filter (·.1 == name)⟩

theorem get?_only (t : Constraints) (name other : String) :
    (t.only name).get? other = if other = name then t.get? other else none := by
  obtain ⟨entries⟩ := t
  induction entries with
  | nil => simp [only, get?]
  | cons e rest ih =>
      simp only [only, get?] at ih ⊢
      by_cases h : e.1 = name
      · rw [List.filter_cons_of_pos (by simp [h]), List.lookup_cons, List.lookup_cons]
        cases hn : other == e.1 with
        | true =>
            have ho : other = e.1 := by simpa using hn
            simp [ho, h]
        | false => exact ih
      · rw [List.filter_cons_of_neg (by simp [h]), ih, List.lookup_cons]
        by_cases ho : other = name
        · have hn : (other == e.1) = false := by simp [ho, Ne.symm h]
          rw [hn]
        · simp [ho]

/-- Constraints that agree on some dimensions. -/
def AgreeOn (t t' : Constraints) (dims : List Dimension) : Prop :=
  ∀ d ∈ dims, t.get? d.name = t'.get? d.name

theorem agreeOn_erase {dims : List Dimension} {name : String} (t : Constraints)
    (h : name ∉ dims.map Dimension.name) : t.AgreeOn (t.erase name) dims := by
  intro d hd
  have hne : d.name ≠ name := by
    rintro rfl
    exact h (List.mem_map_of_mem hd)
  rw [get?_erase, if_neg hne]

end Constraints

namespace Scan

variable {t t' : Constraints}

/-! ## Dimensions alone are looked up -/

section

variable {dims : List Dimension}

theorem hulls_congr (h : t.AgreeOn t' dims) (position : Nat)
    (populated : List (StoredValue × StoredValue)) :
    hulls t position dims populated = hulls t' position dims populated := by
  induction dims generalizing position populated with
  | nil => rfl
  | cons d dims ih =>
      cases populated with
      | nil => rfl
      | cons bounds populated =>
          simp only [hulls]
          rw [h d (List.mem_cons_self ..),
            ih (fun d' hd' => h d' (List.mem_cons_of_mem _ hd')) (position + 1) populated]

theorem restrictAll_congr (h : t.AgreeOn t' dims) (s : Scan TiledQuery)
    (populated : List (StoredValue × StoredValue)) :
    s.restrictAll dims t populated = s.restrictAll dims t' populated := by
  rw [restrictAll, restrictAll, hulls_congr h]

end

theorem prepare_congr {s : Scan TiledQuery} (columns : List Column)
    (h : t.AgreeOn t' s.query.array.schema.dimensions) :
    s.prepare columns t = s.prepare columns t' := by
  unfold prepare
  refine Outcome.andThen_congr ?_
  intro schema hask
  obtain ⟨hanswer, -⟩ := ask_eq_ok hask
  obtain rfl := Except.ok.inj (TiledQuery.whileOpen_eq_ok hanswer)
  simp only [restrictAll_congr h]

/-- Two scans over an array start alike if the constraints agree on its dimensions. -/
theorem start_congr {a : TiledArray} (h : t.AgreeOn t' a.schema.dimensions) (id : ScanId)
    (settings : ScanSettings) (columns : List Column) (memory : Source UInt64)
    (clock : Source Nat) :
    start (TiledQuery.ofArray a) id settings columns t memory clock =
      start (TiledQuery.ofArray a) id settings columns t' memory clock := by
  unfold start timed
  simp only
  rw [prepare_congr columns h]

end Scan

/-! ## One constraint more -/

section

variable {t : Constraints}

/-- Populated coordinates lie in the hulls exactly if they do without one constraint, and for this
    constraint alone. -/
theorem withinHulls_erase_only (name : String) {dims : List Dimension}
    {bounds : List (StoredValue × StoredValue)} {coords : List StoredValue}
    (h : List.Forall₂ (fun v b => inside v b = true) coords bounds) :
    withinHulls t dims bounds coords =
      (withinHulls (t.erase name) dims bounds coords &&
        withinHulls (t.only name) dims bounds coords) := by
  induction h generalizing dims with
  | nil => simp [withinHulls]
  | @cons v b coords bounds hv _ ih =>
      cases dims with
      | nil => rfl
      | cons d dims =>
          have hfree : d.hull none b = .ok (some b) := rfl
          simp only [withinHulls, Constraints.get?_erase, Constraints.get?_only]
          rw [ih]
          by_cases hname : d.name = name
          · rw [if_pos hname, if_pos hname, hfree]
            simp [hv, Bool.and_left_comm]
          · rw [if_neg hname, if_neg hname, hfree]
            simp [hv, Bool.and_assoc]

/-- The cells that are admitted are those admitted without one constraint and for it alone. -/
theorem TiledArray.admitted_erase_only (name : String) {a : TiledArray} (ha : a.Sound) :
    a.admitted t =
      (a.admitted (t.erase name)).filter fun c => c ∈ a.admitted (t.only name) := by
  cases hpopulated : a.populated with
  | error e => simp [admitted, hpopulated]
  | ok populated =>
      cases populated with
      | none => simp [admitted, hpopulated]
      | some bounds =>
          have hinside := ((populated_spec ha hpopulated).2 bounds rfl).2
          simp only [admitted, hpopulated, List.filter_filter]
          refine List.filter_congr ?_
          intro c hc
          rw [withinHulls_erase_only name (hinside c hc), Bool.and_comm]
          simp [hc]

end

namespace Scan

variable {schema : Schema} {tileExtent : Nat} {cells : List Cell} {a : TiledArray}

/-- Lifting the constraint on a name that no dimension has changes nothing at all. If dimensions
    have it, the scan hands out those of the rows that are also admitted for this constraint alone,
    whatever else has the name. -/
theorem start_erase (ha : TiledArray.ofCells schema tileExtent cells = .ok a) (t : Constraints)
    (name : String) (id : ScanId) (settings : ScanSettings) (columns : List Column)
    (memory : Source UInt64) (clock : Source Nat) :
    (name ∉ schema.dimensions.map Dimension.name →
      start (TiledQuery.ofArray a) id settings columns t memory clock =
        start (TiledQuery.ofArray a) id settings columns (t.erase name) memory clock) ∧
    ∀ s s' : Scan TiledQuery,
      start (TiledQuery.ofArray a) id settings columns t memory clock = ⟨.ok (), s⟩ →
      start (TiledQuery.ofArray a) id settings columns (t.erase name) memory clock =
        ⟨.ok (), s'⟩ →
      s.NeverFails → s'.NeverFails →
        s.fields = s'.fields ∧ s'.HandsOut a (a.admitted (t.erase name)) ∧
        s.HandsOut a
          ((a.admitted (t.erase name)).filter fun c => c ∈ a.admitted (t.only name)) := by
  obtain ⟨hsound, rfl, -⟩ := TiledArray.sound_ofCells ha
  constructor
  · intro hname
    exact start_congr (t.agreeOn_erase hname) id settings columns memory clock
  · intro s s' hs hs' hok hok'
    have hstarted := started_of_start hsound hs
    have hstarted' := started_of_start hsound hs'
    refine ⟨?_, hstarted'.handsOut hsound hok', ?_⟩
    · exact Except.ok.inj (hstarted.fields.symm.trans hstarted'.fields)
    · rw [← TiledArray.admitted_erase_only name hsound]
      exact hstarted.handsOut hsound hok

/-! ## Constraints on attributes -/

/-- The one constraint that a column is two. -/
def isTwo (name : String) : Constraints :=
  ⟨[(name, ⟨.tinyInt, .intervals [.point (.long ⟨2, IntKind.holds_small .int64 2⟩)]⟩)]⟩

/-- Two cells with an attribute of some name. -/
def rowsWith (name : String) : TiledArray :=
  ⟨⟨[⟨"row", .int64, false⟩], [⟨name, .int8, false, false⟩]⟩, homonymCells, 1⟩

theorem ofCells_rowsWith (name : String) :
    TiledArray.ofCells (rowsWith name).schema 1 homonymCells = .ok (rowsWith name) :=
  TiledArray.ofCells_of_sorted (by decide) rfl rfl (by decide +kernel)

/-- A scan for the attribute under constraints, with time standing still. -/
def rowsWithScan (name : String) (t : Constraints) : Outcome TiledQuery Unit :=
  start (TiledQuery.ofArray (rowsWith name)) ⟨"homonyms"⟩ {} [⟨name, .tinyInt, false⟩] t
    (Source.constant (2 ^ 40)) (Source.constant 0)

/-- A constraint on an attribute with a name of its own restricts no rows: there are two, of which
    the first has another value. -/
theorem rowsWithScan_value :
    rowsWithScan "value" (isTwo "value") = rowsWithScan "value" {} ∧
      ∃ s, rowsWithScan "value" (isTwo "value") = ⟨.ok (), s⟩ ∧
        s.HandsOut (rowsWith "value") homonymCells := by
  obtain ⟨hlift, hrows⟩ := start_erase (ofCells_rowsWith "value") (isTwo "value") "value"
    ⟨"homonyms"⟩ {} [⟨"value", .tinyInt, false⟩] (Source.constant (2 ^ 40)) (Source.constant 0)
  have hsame : rowsWithScan "value" (isTwo "value") = rowsWithScan "value" {} := hlift (by decide)
  have hstart : rowsWithScan "value" {} = ⟨.ok (), (rowsWithScan "value" {}).scan⟩ := by
    have hresult : (rowsWithScan "value" {}).result = .ok () := by decide +kernel
    rw [← hresult]
  have hok : (rowsWithScan "value" {}).scan.NeverFails :=
    neverFails_of_ends (n := 2) (by decide +kernel) (by decide +kernel)
  obtain ⟨-, hout, -⟩ := hrows _ _ (hsame.trans hstart) hstart hok hok
  have hall : (rowsWith "value").admitted ((isTwo "value").erase "value") = homonymCells := by
    decide +kernel
  exact ⟨hsame, _, hsame.trans hstart, hall ▸ hout⟩

/-- The constraint on an attribute with the name of the dimension leaves no rows, as no coordinate
    is two. Without it there are two, of which the second has this value. -/
theorem rowsWithScan_row :
    TiledArray.ofCells (rowsWith "row").schema 1 homonymCells = .ok (rowsWith "row") ∧
      (rowsWith "row").schema.project [⟨"row", .tinyInt, false⟩] =
        .ok [⟨0, "row", .int8, false, false, .tinyInt, .ofAttribute⟩] ∧
      (isTwo "row").erase "row" = {} ∧
      (rowsWithScan "row" (isTwo "row")).result = .ok () ∧
      ((rowsWithScan "row" (isTwo "row")).scan.advances 0).result = .ok false ∧
      (rowsWithScan "row" {}).result = .ok () ∧
      ((rowsWithScan "row" {}).scan.advances 1).result = .ok true ∧
      ((rowsWithScan "row" {}).scan.advances 1).scan.long 0 = .ok ⟨2, by decide⟩ :=
  ⟨ofCells_rowsWith "row", by decide +kernel⟩

end Scan

end SparseScan
