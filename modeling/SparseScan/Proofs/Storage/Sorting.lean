import SparseScan.Proofs.Storage.TiledArray

set_option autoImplicit false

/-! # Building an array sorts its cells

`TiledArray.ofCells_sorts`: an array has exactly the cells that it was given, in row-major order
and, at equal coordinates, in the order in which they came. It is refused only for one of the
causes that `Cell.Misfit` lists, for empty tiles or for want of a dimension.

Row-major order is stated in the order of the stored values (`Cell.Before`, `Cell.Tied`). Cells
that fit one schema compare as their keys do, and these are linearly ordered; so the sort is the
stable sort of a linear order, whatever forms the dimensions have. -/

namespace SparseScan

/-- A sort keeps the members of a class in their order, if they are all at most one another. -/
theorem filter_mergeSort {α κ : Type} [LinearOrder κ] (key : α → κ) {p : α → Bool} (xs : List α)
    (hp : ∀ x y, p x = true → p y = true → key x ≤ key y) :
    (xs.mergeSort fun x y => decide (key x ≤ key y)).filter p = xs.filter p := by
  have hsorted : (xs.filter p).Pairwise fun x y => decide (key x ≤ key y) = true := by
    refine List.pairwise_of_forall_mem_list ?_
    intro x hx y hy
    exact decide_eq_true (hp x y (List.mem_filter.1 hx).2 (List.mem_filter.1 hy).2)
  have hsub : (xs.filter p).Sublist (xs.mergeSort fun x y => decide (key x ≤ key y)) :=
    List.sublist_mergeSort (by simpa using fun a b c => le_trans)
      (by simpa using fun a b => le_total _ _) hsorted List.filter_sublist
  have hkept := hsub.filter p
  simp only [List.filter_filter, Bool.and_self] at hkept
  -- the class has as many members before the sort as after it
  exact (hkept.eq_of_length ((List.mergeSort_perm _ _).filter p).length_eq.symm).symm

namespace Cell

/-! ## Cells at the same coordinates -/

/-- Coordinates below others: on the first dimension on which they differ. -/
inductive Before : List StoredValue → List StoredValue → Prop
  | differ {v w : StoredValue} {vs ws : List StoredValue} (h : v.order w = .ok .lt) :
      Before (v :: vs) (w :: ws)
  | agree {v w : StoredValue} {vs ws : List StoredValue} (h : v.order w = .ok .eq)
      (hrest : Before vs ws) : Before (v :: vs) (w :: ws)

/-- Coordinates that are equal in the order of every dimension, as the two zeros are. -/
def Tied (vs ws : List StoredValue) : Prop := List.Forall₂ (fun v w => v.order w = .ok .eq) vs ws

instance (vs ws : List StoredValue) : Decidable (Tied vs ws) :=
  inferInstanceAs (Decidable (List.Forall₂ (fun v w => v.order w = .ok .eq) vs ws))

theorem map_key_of_tied {vs ws : List StoredValue} (h : Tied vs ws) :
    vs.map StoredValue.key = ws.map StoredValue.key := by
  refine (map_eq_map_of_forall₂ h fun v w hvw => ?_).symm
  obtain ⟨hv, hw⟩ := StoredValue.ordered_of_order hvw
  exact ((StoredValue.order_eq_iff hv hw).1 hvw).symm

section

variable {ds : List Dimension} {xs ys : List StoredValue}

theorem tied_iff (hx : List.Forall₂ Dimension.Holds ds xs)
    (hy : List.Forall₂ Dimension.Holds ds ys) :
    Tied xs ys ↔ xs.map StoredValue.key = ys.map StoredValue.key := by
  constructor
  · exact map_key_of_tied
  · intro h
    induction hx generalizing ys with
    | nil =>
        cases hy
        exact .nil
    | cons hxd _ ih =>
        cases hy with
        | cons hyd hys =>
            rw [List.map_cons, List.map_cons, List.cons.injEq] at h
            exact .cons ((StoredValue.order_eq_iff hxd.ordered hyd.ordered).2 h.1) (ih hys h.2)

theorem before_of_key_lt (hx : List.Forall₂ Dimension.Holds ds xs)
    (hy : List.Forall₂ Dimension.Holds ds ys)
    (h : xs.map StoredValue.key < ys.map StoredValue.key) : Before xs ys := by
  induction hx generalizing ys with
  | nil =>
      cases hy
      exact absurd h (List.not_lt_nil _)
  | cons hxd _ ih =>
      cases hy with
      | cons hyd hys =>
          rw [List.map_cons, List.map_cons, List.cons_lt_cons_iff] at h
          rcases h with hlt | ⟨heq, hlt⟩
          · exact .differ ((StoredValue.order_lt_iff hxd.ordered hyd.ordered).2 hlt)
          · exact .agree ((StoredValue.order_eq_iff hxd.ordered hyd.ordered).2 heq) (ih hys hlt)

end

/-- In the order of keys, cells that fit are in row-major order. -/
theorem before_or_tied {s : Schema} {x y : Cell} (hx : x.Fits s) (hy : y.Fits s)
    (h : x.key ≤ y.key) : Before x.coords y.coords ∨ Tied x.coords y.coords := by
  rcases h.lt_or_eq with hlt | heq
  · exact Or.inl (before_of_key_lt hx.coords hy.coords hlt)
  · exact Or.inr ((tied_iff hx.coords hy.coords).2 heq)

/-! ## Cells that do not fit -/

/-- A value that is not of the datatype of a field, or not of its width. -/
def Mismatch (d : Datatype) (varLen : Bool) (v : StoredValue) : Prop :=
  v.form ≠ d.form ∨ varLen = false ∧ v.size ≠ d.width

theorem mismatch_iff {d : Datatype} {varLen : Bool} {v : StoredValue} :
    Mismatch d varLen v ↔ ¬ fitsField d varLen v = true := by
  cases varLen <;> simp [Mismatch, fitsField, StoredValue.hasType, ← not_and_or]

/-- What keeps a cell out of an array of schema `s`. -/
inductive Misfit (s : Schema) (c : Cell) : Prop
  | coordinateCount (h : c.coords.length ≠ s.dimensions.length)
  | valueCount (h : c.values.length ≠ s.attributes.length)
  | coordinate {d : Dimension} {v : StoredValue} (h : (d, v) ∈ s.dimensions.zip c.coords)
      (hv : Mismatch d.datatype d.varLen v)
  | notANumber {v : StoredValue} (h : v ∈ c.coords) (hv : v.isNaN = true)
  | value {a : Attribute} {v : StoredValue} (h : (a, some v) ∈ s.attributes.zip c.values)
      (hv : Mismatch a.datatype a.varLen v)
  | missing {a : Attribute} (h : (a, none) ∈ s.attributes.zip c.values)
      (ha : a.nullable = false)

theorem not_fits_of_misfit {s : Schema} {c : Cell} (h : c.Misfit s) : ¬ c.Fits s := by
  rintro ⟨hcoords, hvalues⟩
  cases h with
  | coordinateCount h => exact h hcoords.length_eq.symm
  | valueCount h => exact h hvalues.length_eq.symm
  | coordinate h hv => exact mismatch_iff.1 hv (List.forall₂_zip hcoords h).fits
  | notANumber h hv =>
      obtain ⟨i, hi⟩ := List.mem_iff_getElem?.1 h
      obtain ⟨d, -, hd⟩ := forall₂_getElem? hcoords.flip hi
      rw [hd.ordered.notNaN] at hv
      cases hv
  | value h hv => exact mismatch_iff.1 hv ((List.forall₂_zip hvalues h).fits _ rfl)
  | missing h ha =>
      rw [(List.forall₂_zip hvalues h).nullable rfl] at ha
      cases ha

/-- A cell fits exactly if nothing keeps it out. -/
theorem misfit_iff {s : Schema} {c : Cell} : c.Misfit s ↔ ¬ c.Fits s := by
  refine ⟨not_fits_of_misfit, ?_⟩
  intro hnot
  by_contra hmis
  refine hnot ⟨List.forall₂_iff_zip.2 ⟨?_, ?_⟩, List.forall₂_iff_zip.2 ⟨?_, ?_⟩⟩
  · by_contra hlen
    exact hmis (.coordinateCount fun h => hlen h.symm)
  · intro d v hdv
    have hfits : fitsField d.datatype d.varLen v = true := by
      by_contra hno
      exact hmis (.coordinate hdv (mismatch_iff.2 hno))
    refine ⟨hfits, fitsField_form hfits, ?_⟩
    by_contra hnan
    exact hmis (.notANumber (List.of_mem_zip hdv).2 (eq_true_of_ne_false hnan))
  · by_contra hlen
    exact hmis (.valueCount fun h => hlen h.symm)
  · intro a v hav
    constructor
    · rintro x rfl
      by_contra hno
      exact hmis (.value hav (mismatch_iff.2 hno))
    · rintro rfl
      by_contra hno
      exact hmis (.missing hav (eq_false_of_ne_true hno))

end Cell

/-! ## Arrays -/

namespace TiledArray

variable {schema : Schema} {tileExtent : Nat} {cells : List Cell}

/-- What an array holds is sorted by the keys of its cells. -/
theorem cells_ofCells {a : TiledArray} (h : ofCells schema tileExtent cells = .ok a) :
    a.cells = cells.mergeSort fun x y => decide (x.key ≤ y.key) := by
  obtain ⟨-, -, hfits, rfl⟩ := ofCells_eq_ok_iff.1 h
  exact mergeSort_cells_eq hfits

/-- Cells at pairwise different coordinates have one order. -/
theorem ofCells_of_perm {a : TiledArray} (h : ofCells schema tileExtent cells = .ok a)
    {cells' : List Cell} (hperm : cells'.Perm cells)
    (hapart : cells.Pairwise fun x y => ¬ Cell.Tied x.coords y.coords) :
    ofCells schema tileExtent cells' = .ok a := by
  obtain ⟨hextent, hdimensions, hfits, rfl⟩ := ofCells_eq_ok_iff.1 h
  have hfits' : ∀ c ∈ cells', c.Fits schema := fun c hc => hfits c (hperm.mem_iff.1 hc)
  refine ofCells_eq_ok_iff.2 ⟨hextent, hdimensions, hfits', ?_⟩
  rw [mergeSort_cells_eq hfits, mergeSort_cells_eq hfits', TiledArray.mk.injEq]
  refine ⟨rfl, ?_, rfl⟩
  have hkeys : (cells.map Cell.key).Nodup := by
    refine List.pairwise_map.2 (hapart.imp_of_mem ?_)
    intro x y hx hy hxy heq
    exact hxy ((Cell.tied_iff (hfits x hx).coords (hfits y hy).coords).2 heq)
  refine List.Perm.eq_of_pairwise ?_ (pairwise_mergeSort_key cells') (pairwise_mergeSort_key cells)
    (((List.mergeSort_perm _ _).trans hperm).trans (List.mergeSort_perm _ _).symm)
  -- cells of one key are one cell, since no other has that key
  intro x y hx hy hxy hyx
  have hx' := hperm.mem_iff.1 (List.mem_mergeSort.1 hx)
  exact List.inj_on_of_nodup_map hkeys hx' (List.mem_mergeSort.1 hy) (le_antisymm hxy hyx)

/-- An array is refused only for what its schema, tiles and cells show. -/
theorem ofCells_error_iff : (∃ e, ofCells schema tileExtent cells = .error e) ↔
    tileExtent = 0 ∨ schema.dimensions = [] ∨ ∃ c ∈ cells, c.Misfit schema := by
  have hok : (∃ a, ofCells schema tileExtent cells = .ok a) ↔
      tileExtent ≠ 0 ∧ schema.dimensions ≠ [] ∧ ∀ c ∈ cells, c.Fits schema := by
    constructor
    · rintro ⟨a, ha⟩
      obtain ⟨hextent, hdimensions, hfits, -⟩ := ofCells_eq_ok_iff.1 ha
      exact ⟨hextent, hdimensions, hfits⟩
    · rintro ⟨hextent, hdimensions, hfits⟩
      exact ⟨_, ofCells_eq_ok_iff.2 ⟨hextent, hdimensions, hfits, rfl⟩⟩
  have hmisfit : (∃ c ∈ cells, c.Misfit schema) ↔ ¬ ∀ c ∈ cells, c.Fits schema := by
    simp only [Cell.misfit_iff, not_forall, exists_prop]
  rw [exists_error_iff, hok, hmisfit, not_and_or, not_and_or, not_not, not_not]

/-- Building an array is a stable sort of the cells by their coordinates; where no two cells have
    equal coordinates, the order in which they are given is no matter. An array is refused exactly
    for empty tiles, without dimensions, or for a cell that does not fit. -/
theorem ofCells_sorts (schema : Schema) (tileExtent : Nat) (cells : List Cell) :
    (∀ a, ofCells schema tileExtent cells = .ok a →
      a.schema = schema ∧ a.tileExtent = tileExtent ∧ a.cells.Perm cells ∧
      a.cells.Pairwise (fun x y => Cell.Before x.coords y.coords ∨ Cell.Tied x.coords y.coords) ∧
      (∀ vs : List StoredValue, a.cells.filter (fun x => Cell.Tied vs x.coords) =
        cells.filter fun x => Cell.Tied vs x.coords) ∧
      (cells.Pairwise (fun x y => ¬ Cell.Tied x.coords y.coords) →
        ∀ cells' : List Cell, cells'.Perm cells → ofCells schema tileExtent cells' = .ok a)) ∧
    ((∃ e, ofCells schema tileExtent cells = .error e) ↔
      tileExtent = 0 ∨ schema.dimensions = [] ∨ ∃ c ∈ cells, c.Misfit schema) := by
  constructor
  · intro a ha
    obtain ⟨hsound, hschema, hperm⟩ := sound_ofCells ha
    have hcells := cells_ofCells ha
    refine ⟨hschema, tileExtent_ofCells ha, hperm, ?_, ?_, ?_⟩
    · have hsorted := pairwise_mergeSort_key cells
      rw [← hcells] at hsorted
      refine hsorted.imp_of_mem ?_
      intro x y hx hy hle
      exact Cell.before_or_tied (hsound.fits x hx) (hsound.fits y hy) hle
    · -- cells that are tied to the same coordinates have the same key
      intro vs
      rw [hcells]
      refine filter_mergeSort Cell.key cells ?_
      intro x y hx hy
      have hkeys := (Cell.map_key_of_tied (of_decide_eq_true hx)).symm.trans
        (Cell.map_key_of_tied (of_decide_eq_true hy))
      exact le_of_eq hkeys
    · intro hapart cells' hperm'
      exact ofCells_of_perm ha hperm' hapart
  · exact ofCells_error_iff

/-- Readings at a level and under a tag. -/
def readings : Schema :=
  ⟨[⟨"level", .float64, false⟩, ⟨"tag", .stringAscii, true⟩], [⟨"count", .int8, false, true⟩]⟩

/-- A reading; the level is given by sign and magnitude. -/
def reading (negative : Bool) (magnitude : Nat) (tag : List UInt8) (count : Option StoredValue) :
    Cell :=
  ⟨[.float .double (.ofMagnitude negative magnitude), .text tag], [count]⟩

/-- The two zeros are one level: their readings stay in the order of insertion, behind a level below
    zero and a lesser tag. A level that is not a number is refused. -/
theorem ofCells_readings :
    let below := reading true 1 [] none
    let other := reading false 0 [97] (some (.small .int8 2))
    let first := reading true 0 [97, 98] (some (.small .int8 1))
    let second := reading false 0 [97, 98] (some (.small .int8 3))
    ofCells readings 2 [first, other, second, below] =
        .ok ⟨readings, [below, other, first, second], 2⟩ ∧
      [below, other, first, second].filter (fun x => Cell.Tied first.coords x.coords) =
        [first, second] ∧
      ∃ e, ofCells readings 2 [first, ⟨[.float .double (.nan false), .text []], [none]⟩] =
        .error e := by
  intro below other first second
  have hbuilt : ofCells readings 2 [first, other, second, below] =
      .ok ⟨readings, [below, other, first, second], 2⟩ := by cbv
  obtain ⟨-, -, -, -, hstable, -⟩ := (ofCells_sorts _ _ _).1 _ hbuilt
  refine ⟨hbuilt, (hstable first.coords).trans (by decide +kernel), ?_⟩
  refine (ofCells_sorts _ _ _).2.2 (Or.inr (Or.inr ⟨_, List.mem_cons_of_mem _ (.head _), ?_⟩))
  exact .notANumber (.head _) (by decide)

end TiledArray

end SparseScan
