import SparseScan.Proofs.Scan.Start

set_option autoImplicit false

/-! # What a scan returns

`start_returns_admitted` joins the start of a scan with its run: the rows are the cells inside the
hulls of all dimensions, each once and in order, and every field shows the value that it stands
for, except a dimension that is read for want of columns and has the name of an attribute. -/

namespace SparseScan.Scan

variable {a : TiledArray} {columns : List Column} {constraints : Constraints}
  {s : Scan TiledQuery}

/-- A scan without rows ends with the first call. -/
theorem handsOut_nil (hopen : s.isClosed = false) (hupper : s.upperBound = 0) :
    s.HandsOut a [] := by
  refine ⟨fun n c hc => (nomatch hc), ?_⟩
  have hstep : step s.now.2 = s.now.2.finish := by
    rw [step, if_neg (by rw [show s.now.2.isClosed = false from hopen]; exact Bool.false_ne_true),
      if_pos (by rw [show s.now.2.upperBound = 0 from hupper]; exact Nat.zero_le _)]
  exact congrArg Outcome.result hstep

theorem Started.handsOut (ha : a.Sound) (hs : Started a columns constraints s.view)
    (hok : s.NeverFails) : s.HandsOut a (a.admitted constraints) := by
  rcases hs.rows with hserves | ⟨hopen, hupper, hnil, -⟩
  · exact handsOut_of_serves ha (fun c hc => TiledArray.mem_of_mem_admitted hc) hserves hs.visited
      hok
  · rw [hnil]
    exact handsOut_nil hopen hupper

/-- The rows of a scan are the cells inside the hulls of all dimensions, each once and in the
    row-major order of the array, and then the scan ends. A field shows what is stored under its
    name; that is what the field stands for unless it is shadowed, which happens only to the
    dimension that is read when there are no columns. -/
theorem start_returns_admitted {schema : Schema} {tileExtent : Nat} {cells : List Cell}
    {id : ScanId} {settings : ScanSettings} {memory : Source UInt64} {clock : Source Nat}
    (ha : TiledArray.ofCells schema tileExtent cells = .ok a)
    (hs : start (TiledQuery.ofArray a) id settings columns constraints memory clock = ⟨.ok (), s⟩)
    (hok : s.NeverFails) :
    (a.cells.Perm cells ∧
        a.cells.Pairwise fun x y => Cell.orderCoords x.coords y.coords ≠ .gt) ∧
      (∀ n c, (a.admitted constraints)[n]? = some c →
        (s.advances n).result = .ok true ∧ (s.advances n).scan.ShowsCell a c ∧
          ∀ ordinal f, s.fields[ordinal]? = some f → ¬ f.shadowed schema →
            (s.advances n).scan.ShowsValue ordinal f (f.valueIn schema c)) ∧
      (s.advances (a.admitted constraints).length).result = .ok false ∧
      ∀ f ∈ s.fields, f.shadowed schema → columns = [] := by
  obtain ⟨hsound, hschema, hperm⟩ := TiledArray.sound_ofCells ha
  have hstarted := start_spec hsound (congrArg Outcome.result hs)
  rw [show (start _ _ _ _ _ _ _).scan = s from congrArg Outcome.scan hs] at hstarted
  obtain ⟨hprojected, hshadowed⟩ := project_spec hstarted.fields
  obtain ⟨hrows, hends⟩ := hstarted.handsOut hsound hok
  subst hschema
  refine ⟨⟨hperm, hsound.sorted⟩, ?_, hends, hshadowed⟩
  intro n c hc
  obtain ⟨hresult, hfields, hshows⟩ := hrows n c hc
  refine ⟨hresult, hshows, ?_⟩
  intro ordinal f hf hclear
  -- a scan that has a row serves the cells, so all its fields are stored
  have hstored : StoredFields a s.fields := by
    rcases hstarted.rows with hserves | ⟨-, -, hnil, -⟩
    · exact hserves.stored
    · rw [hnil] at hc
      cases hc
  have hmem := List.mem_of_getElem? hf
  obtain ⟨st, hst, hshape⟩ := hstored f hmem
  have hreads := hprojected.reads f hmem hclear st hst
  rw [← hreads.value? c]
  exact hshows ordinal f (hfields ▸ hf) st hst ⟨hshape, Or.inr (by rw [hreads.datatype])⟩

/-! ## An array whose attribute has the name of its dimension -/

/-- The cells of the array, in which the dimension has eight bytes and the attribute has one. -/
def homonymCells : List Cell :=
  [⟨[.int .int64 ⟨7, by decide⟩], [some (.int .int8 ⟨1, by decide⟩)]⟩,
    ⟨[.int .int64 ⟨8, by decide⟩], [some (.int .int8 ⟨2, by decide⟩)]⟩]

def homonyms : TiledArray :=
  ⟨⟨[⟨"row", .int64, false⟩], [⟨"row", .int8, false, false⟩]⟩, homonymCells, 1⟩

theorem ofCells_homonyms : TiledArray.ofCells homonyms.schema 1 homonymCells = .ok homonyms :=
  TiledArray.ofCells_of_sorted (by decide) (by decide) (by decide +kernel) (by decide +kernel)

/-- A scan of the array for some columns, with time standing still. -/
def homonymScan (columns : List Column) : Outcome TiledQuery Unit :=
  start (TiledQuery.ofArray homonyms) ⟨"homonyms"⟩ {} columns {} (Source.constant (2 ^ 40))
    (Source.constant 0)

/-- The column of the name is the attribute. -/
theorem homonymScan_column :
    ((homonymScan [⟨"row", .tinyInt, false⟩]).scan.advances 1).scan.ShowsValue 0
      ⟨0, "row", .int8, false, false, .tinyInt, .ofAttribute⟩
      (some (.int .int8 ⟨2, by decide⟩)) := by
  have hstart : homonymScan [⟨"row", .tinyInt, false⟩] =
      ⟨.ok (), (homonymScan [⟨"row", .tinyInt, false⟩]).scan⟩ := by
    have hresult : (homonymScan [⟨"row", .tinyInt, false⟩]).result = .ok () := by decide +kernel
    rw [← hresult]
  have hok : (homonymScan [⟨"row", .tinyInt, false⟩]).scan.NeverFails :=
    neverFails_of_ends (n := 2) (by decide +kernel) (by decide +kernel)
  obtain ⟨-, hrows, -⟩ := start_returns_admitted ofCells_homonyms hstart hok
  have hcell : (homonyms.admitted {})[1]? = homonymCells[1]? := by decide +kernel
  have hfield : (homonymScan [⟨"row", .tinyInt, false⟩]).scan.fields[0]? =
      some ⟨0, "row", .int8, false, false, .tinyInt, .ofAttribute⟩ := by
    decide +kernel
  exact (hrows 1 _ hcell).2.2 0 _ hfield (fun h => Bool.false_ne_true h.1)

/-- Without columns the scan reads the dimension, and is handed the bytes of both attribute values
    as one coordinate. -/
theorem homonymScan_noColumns :
    (homonymScan []).result = .ok () ∧
      ((homonymScan []).scan.advances 0).result = .ok true ∧
      ((homonymScan []).scan.advances 1).result = .ok true ∧
      ((homonymScan []).scan.advances 2).result = .ok false ∧
      ((homonymScan []).scan.advances 0).scan.fields =
        [⟨0, "row", .int64, false, false, .bigInt, .ofDimension 0⟩] ∧
      ((homonymScan []).scan.advances 0).scan.bytes 0 = .ok [1, 2, 0, 0, 0, 0, 0, 0] ∧
      (StoredValue.int .int64 ⟨7, by decide⟩).encode = [7, 0, 0, 0, 0, 0, 0, 0] := by
  decide +kernel

end SparseScan.Scan
