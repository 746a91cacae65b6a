import Mathlib.Data.List.Sort
import SparseScan.Proofs.Success
import SparseScan.Proofs.Value.Neighbours
import SparseScan.Storage.TiledQuery

set_option autoImplicit false

/-! # What an array holds

`TiledArray.ofCells` admits only cells that fit the schema and sorts them (`sound_ofCells`).
`populated_spec` says that the populated bounds of an array are in order and that every coordinate
lies between them. -/

namespace SparseScan

theorem forall₂_getElem? {α β : Type} {R : α → β → Prop} {as : List α} {bs : List β}
    (h : List.Forall₂ R as bs) {i : Nat} {a : α} (ha : as[i]? = some a) :
    ∃ b, bs[i]? = some b ∧ R a b := by
  induction h generalizing i with
  | nil => cases ha
  | cons hab _ ih =>
      cases i with
      | zero =>
          cases ha
          exact ⟨_, rfl, hab⟩
      | succ i => exact ih ha

theorem forall₂_of_getElem? {α β : Type} {R : α → β → Prop} {as : List α} {bs : List β}
    (hlen : as.length = bs.length)
    (h : ∀ (i : Nat) a, as[i]? = some a → ∃ b, bs[i]? = some b ∧ R a b) :
    List.Forall₂ R as bs := by
  refine List.forall₂_of_length_eq_of_get hlen ?_
  intro i hi hi'
  obtain ⟨b, hb, hR⟩ := h i _ (List.getElem?_eq_getElem hi)
  obtain ⟨_, rfl⟩ := List.getElem?_eq_some_iff.1 hb
  exact hR

/-- Lists whose members agree in `f` and `g` have the same images. -/
theorem map_eq_map_of_forall₂ {α β γ : Type} {R : α → β → Prop} {f : α → γ} {g : β → γ}
    {as : List α} {bs : List β} (h : List.Forall₂ R as bs) (hR : ∀ a b, R a b → g b = f a) :
    bs.map g = as.map f := by
  rw [← List.forall₂_eq_eq_eq, List.forall₂_map_left_iff, List.forall₂_map_right_iff]
  exact h.flip.imp fun b a hab => hR a b hab

/-! ## Cells that fit -/

/-- A value that can stand on a dimension. -/
structure Dimension.Holds (d : Dimension) (v : StoredValue) : Prop where
  fits : fitsField d.datatype d.varLen v = true
  ordered : v.Ordered d.datatype.form

/-- A value, or null, that can stand in an attribute. -/
structure Attribute.Holds (a : Attribute) (v : Option StoredValue) : Prop where
  fits : ∀ x, v = some x → fitsField a.datatype a.varLen x = true
  nullable : v = none → a.nullable = true

/-- A cell that can stand in an array of schema `s`. -/
structure Cell.Fits (s : Schema) (c : Cell) : Prop where
  coords : List.Forall₂ Dimension.Holds s.dimensions c.coords
  values : List.Forall₂ Attribute.Holds s.attributes c.values

theorem fitsField_form {d : Datatype} {varLen : Bool} {v : StoredValue}
    (h : fitsField d varLen v = true) : v.form = d.form := by
  simp only [fitsField, StoredValue.hasType, Bool.and_eq_true, beq_iff_eq] at h
  exact h.1

theorem ensureStorable_eq_ok {name : String} {d : Datatype} {varLen : Bool} {v : StoredValue} :
    ensureStorable name d varLen v = .ok () ↔ fitsField d varLen v = true := by
  unfold ensureStorable
  split <;> simp_all

theorem Dimension.holds_iff {d : Dimension} {v : StoredValue} : d.Holds v ↔
    ensureStorable d.name d.datatype d.varLen v = .ok () ∧ v.atMost v = true := by
  constructor
  · intro h
    exact ⟨ensureStorable_eq_ok.2 h.fits, (StoredValue.atMost_iff h.ordered h.ordered).2 le_rfl⟩
  · rintro ⟨hstore, hself⟩
    have hfits := ensureStorable_eq_ok.1 hstore
    have hord := (StoredValue.atMost_ordered hself).1
    rw [fitsField_form hfits] at hord
    exact ⟨hfits, hord⟩

theorem Attribute.holds_none_iff {a : Attribute} : a.Holds none ↔ a.nullable = true :=
  ⟨fun h => h.nullable rfl, fun h => ⟨fun _ hx => (nomatch hx), fun _ => h⟩⟩

theorem Attribute.holds_some_iff {a : Attribute} {v : StoredValue} :
    a.Holds (some v) ↔ ensureStorable a.name a.datatype a.varLen v = .ok () := by
  rw [ensureStorable_eq_ok]
  refine ⟨fun h => h.fits v rfl, fun h => ⟨?_, fun hnone => (nomatch hnone)⟩⟩
  rintro _ ⟨⟩
  exact h

namespace Cell

theorem ensureCoords_eq_ok_iff {ds : List Dimension} {cs : List StoredValue}
    (hlen : cs.length = ds.length) :
    ensureCoords ds cs = .ok () ↔ List.Forall₂ Dimension.Holds ds cs := by
  induction ds generalizing cs with
  | nil =>
      obtain rfl := List.length_eq_zero_iff.1 hlen
      exact iff_of_true rfl .nil
  | cons d ds ih =>
      cases cs with
      | nil => cases hlen
      | cons v vs =>
          rw [List.forall₂_cons, Dimension.holds_iff, ← ih (Nat.succ.inj hlen)]
          cases hstore : ensureStorable d.name d.datatype d.varLen v with
          | error e => simp [ensureCoords, hstore]
          | ok u => by_cases hself : v.atMost v = true <;> simp [ensureCoords, hstore, hself]

theorem ensureValues_eq_ok_iff {as : List Attribute} {vs : List (Option StoredValue)}
    (hlen : vs.length = as.length) :
    ensureValues as vs = .ok () ↔ List.Forall₂ Attribute.Holds as vs := by
  induction as generalizing vs with
  | nil =>
      obtain rfl := List.length_eq_zero_iff.1 hlen
      exact iff_of_true rfl .nil
  | cons a as ih =>
      cases vs with
      | nil => cases hlen
      | cons v vs =>
          rw [List.forall₂_cons, ← ih (Nat.succ.inj hlen)]
          cases v with
          | none =>
              rw [Attribute.holds_none_iff]
              by_cases hnull : a.nullable = true <;> simp [ensureValues, hnull]
          | some x =>
              rw [Attribute.holds_some_iff]
              cases hstore : ensureStorable a.name a.datatype a.varLen x <;>
                simp [ensureValues, hstore]

/-- The check of a cell lets through just the cells that fit. -/
theorem ensureFits_eq_ok_iff {s : Schema} {c : Cell} : ensureFits s c = .ok () ↔ c.Fits s := by
  constructor
  · intro h
    unfold ensureFits at h
    split at h
    · cases h
    · next hcoords =>
        split at h
        · cases h
        · next hvalues =>
            split at h
            · cases h
            · next hensured =>
                exact ⟨(ensureCoords_eq_ok_iff (not_not.1 hcoords)).1 hensured,
                  (ensureValues_eq_ok_iff (not_not.1 hvalues)).1 h⟩
  · intro h
    have hcoords := h.coords.length_eq.symm
    have hvalues := h.values.length_eq.symm
    rw [ensureFits, if_neg (not_not.2 hcoords), if_neg (not_not.2 hvalues),
      (ensureCoords_eq_ok_iff hcoords).2 h.coords]
    exact (ensureValues_eq_ok_iff hvalues).2 h.values

/-! ## Row-major order -/

/-- The place of a cell in row-major order: the places of its coordinates. -/
def key (c : Cell) : List (List ℤ) := c.coords.map StoredValue.key

/-- Coordinates on the same dimensions compare as the lists of their keys. -/
theorem orderCoords_compares {ds : List Dimension} {xs ys : List StoredValue}
    (hx : List.Forall₂ Dimension.Holds ds xs) (hy : List.Forall₂ Dimension.Holds ds ys) :
    (orderCoords xs ys).Compares (xs.map StoredValue.key) (ys.map StoredValue.key) := by
  induction hx generalizing ys with
  | nil =>
      cases hy
      exact rfl
  | cons hxd _ ih =>
      cases hy with
      | cons hyd hys =>
          obtain ⟨o, ho, hcmp⟩ := StoredValue.order_compares hxd.ordered hyd.ordered
          simp only [orderCoords, ho, List.map_cons]
          cases o with
          | lt => exact List.cons_lt_cons_iff.2 (Or.inl hcmp)
          | gt => exact List.cons_lt_cons_iff.2 (Or.inl hcmp)
          | eq =>
              -- equal first coordinates leave the order to the others
              have hhead : StoredValue.key _ = StoredValue.key _ := hcmp
              rw [hhead]
              exact StoredValue.compares_cons (ih hys)

end Cell

namespace TiledArray

/-- Every cell of the array fits its schema, and they are in row-major order. -/
structure Sound (a : TiledArray) : Prop where
  fits : ∀ c ∈ a.cells, c.Fits a.schema
  sorted : a.cells.Pairwise fun x y => Cell.orderCoords x.coords y.coords ≠ .gt

/-- On cells that fit, the sort compares keys, which are linearly ordered. -/
theorem mergeSort_cells_eq {schema : Schema} {cells : List Cell}
    (hfits : ∀ c ∈ cells, c.Fits schema) :
    (cells.mergeSort fun x y => Cell.orderCoords x.coords y.coords != .gt) =
      cells.mergeSort fun x y => decide (x.key ≤ y.key) := by
  have hmap := List.map_mergeSort (f := id) (l := cells)
    (r := fun x y => Cell.orderCoords x.coords y.coords != .gt)
    (s := fun x y => decide (x.key ≤ y.key)) fun x hx y hy => by
      have hcmp := Cell.orderCoords_compares (hfits x hx).coords (hfits y hy).coords
      rw [Bool.eq_iff_iff, bne_iff_ne, decide_eq_true_iff, hcmp.ne_gt]
      rfl
  rwa [List.map_id, List.map_id] at hmap

/-- Sorting by keys puts them in order. -/
theorem pairwise_mergeSort_key (cells : List Cell) :
    (cells.mergeSort fun x y => decide (x.key ≤ y.key)).Pairwise fun x y => x.key ≤ y.key := by
  have hsorted : (cells.mergeSort fun x y => decide (x.key ≤ y.key)).Pairwise
      fun x y => decide (x.key ≤ y.key) = true :=
    List.pairwise_mergeSort (by simpa using fun a b c => le_trans)
      (by simpa using fun a b => le_total _ _) cells
  simpa using hsorted

/-- Sorting puts cells that fit in row-major order. -/
theorem pairwise_mergeSort_cells {schema : Schema} {cells : List Cell}
    (hfits : ∀ c ∈ cells, c.Fits schema) :
    (cells.mergeSort fun x y => Cell.orderCoords x.coords y.coords != .gt).Pairwise fun x y =>
      Cell.orderCoords x.coords y.coords ≠ .gt := by
  rw [mergeSort_cells_eq hfits]
  refine (pairwise_mergeSort_key cells).imp_of_mem fun {x y} hx hy hle => ?_
  have hcmp := Cell.orderCoords_compares (hfits x (List.mem_mergeSort.1 hx)).coords
    (hfits y (List.mem_mergeSort.1 hy)).coords
  exact hcmp.ne_gt.2 hle

/-- An array can be built of cells that fit, if it has a dimension and its tiles hold cells. -/
theorem ofCells_eq_ok_iff {schema : Schema} {tileExtent : Nat} {cells : List Cell}
    {a : TiledArray} : ofCells schema tileExtent cells = .ok a ↔
      tileExtent ≠ 0 ∧ schema.dimensions ≠ [] ∧ (∀ c ∈ cells, c.Fits schema) ∧
        ⟨schema, cells.mergeSort fun x y => Cell.orderCoords x.coords y.coords != .gt,
          tileExtent⟩ = a := by
  unfold ofCells
  by_cases hextent : tileExtent = 0
  · simp [hextent]
  · by_cases hdimensions : schema.dimensions = []
    · simp [hextent, hdimensions]
    · have hall : (cells.forM (Cell.ensureFits schema) = .ok ()) ↔ ∀ c ∈ cells, c.Fits schema := by
        simp only [forM_eq_ok, Cell.ensureFits_eq_ok_iff]
      cases hcheck : cells.forM (Cell.ensureFits schema) with
      | error e => simp [hextent, hdimensions, ← hall, hcheck]
      | ok u => simp [hextent, hdimensions, ← hall, hcheck]

/-- An array is made of the cells that it is given, all of which fit. -/
theorem sound_ofCells {schema : Schema} {tileExtent : Nat} {cells : List Cell} {a : TiledArray}
    (h : ofCells schema tileExtent cells = .ok a) : a.Sound ∧ a.schema = schema ∧
      a.cells.Perm cells := by
  obtain ⟨-, -, hfits, rfl⟩ := ofCells_eq_ok_iff.1 h
  exact ⟨⟨fun c hc => hfits c (List.mem_mergeSort.1 hc), pairwise_mergeSort_cells hfits⟩, rfl,
    List.mergeSort_perm _ _⟩

theorem tileExtent_ofCells {schema : Schema} {tileExtent : Nat} {cells : List Cell} {a : TiledArray}
    (h : ofCells schema tileExtent cells = .ok a) : a.tileExtent = tileExtent := by
  obtain ⟨-, -, -, rfl⟩ := ofCells_eq_ok_iff.1 h
  rfl

theorem tileExtent_pos_ofCells {schema : Schema} {tileExtent : Nat} {cells : List Cell}
    {a : TiledArray} (h : ofCells schema tileExtent cells = .ok a) : 0 < a.tileExtent := by
  rw [tileExtent_ofCells h]
  exact Nat.pos_of_ne_zero (ofCells_eq_ok_iff.1 h).1

/-- Cells that fit and are in row-major order make an array as they are. -/
theorem ofCells_of_sorted {schema : Schema} {tileExtent : Nat} {cells : List Cell}
    (hextent : tileExtent ≠ 0) (hdimensions : schema.dimensions.isEmpty = false)
    (hfits : cells.forM (Cell.ensureFits schema) = .ok ())
    (hsorted : cells.Pairwise fun x y => (Cell.orderCoords x.coords y.coords != .gt) = true) :
    ofCells schema tileExtent cells = .ok ⟨schema, cells, tileExtent⟩ := by
  rw [ofCells, if_neg hextent, hdimensions, if_neg Bool.false_ne_true, hfits]
  simp only [List.mergeSort_of_pairwise hsorted]

end TiledArray

/-- Every kind of integer holds the numbers below 128. -/
theorem IntKind.holds_small (k : IntKind) (n : Nat) : k.Holds ((n % 128 : Nat) : Int) := by
  have hlt : n % 128 < 128 := Nat.mod_lt n (by decide)
  cases k <;> simp [Holds, least, greatest, size, signed, bytes] <;> omega

/-- A number below 128 as a stored integer. -/
def StoredValue.small (k : IntKind) (n : Nat) : StoredValue :=
  .int k ⟨(n % 128 : Nat), k.holds_small n⟩

/-! ## The populated box -/

open TiledQuery (inside)

/-- Bounds of a dimension in order. -/
structure Dimension.Bounds (d : Dimension) (b : StoredValue × StoredValue) : Prop where
  low : b.1.Ordered d.datatype.form
  high : b.2.Ordered d.datatype.form
  inOrder : b.1.atMost b.2 = true

namespace TiledArray

theorem widen_spec {d : Dimension} {b b' : StoredValue × StoredValue} {v : StoredValue}
    (h : widen b v = .ok b') (hb : d.Bounds b) (hv : v.Ordered d.datatype.form) :
    d.Bounds b' ∧ inside v b' = true ∧ ∀ w, inside w b = true → inside w b' = true := by
  obtain ⟨low, high⟩ := b
  obtain ⟨low', high'⟩ := b'
  obtain ⟨hlow, hhigh, hle⟩ := hb
  obtain ⟨l, hl, hlcmp⟩ := StoredValue.order_compares hv hlow
  obtain ⟨u, hu, hucmp⟩ := StoredValue.order_compares hv hhigh
  simp only [widen, hl, hu, Except.ok.injEq, Prod.mk.injEq] at h
  obtain ⟨hlow', hhigh'⟩ := h
  have hself : v.atMost v = true := (StoredValue.atMost_iff hv hv).2 le_rfl
  -- both ends move outward, and the new value lies between them
  have hnewLow : low'.Ordered d.datatype.form ∧ low'.atMost low = true ∧ low'.atMost v = true := by
    rw [← hlow']
    split
    · next hlt =>
        subst hlt
        exact ⟨hv, (StoredValue.atMost_iff hv hlow).2 (le_of_lt hlcmp), hself⟩
    · next hge =>
        exact ⟨hlow, (StoredValue.atMost_iff hlow hlow).2 le_rfl,
          (StoredValue.atMost_iff hlow hv).2 (hlcmp.ne_lt.1 hge)⟩
  have hnewHigh : high'.Ordered d.datatype.form ∧ high.atMost high' = true ∧
      v.atMost high' = true := by
    rw [← hhigh']
    split
    · next hgt =>
        subst hgt
        exact ⟨hv, (StoredValue.atMost_iff hhigh hv).2 (le_of_lt hucmp), hself⟩
    · next hle =>
        exact ⟨hhigh, (StoredValue.atMost_iff hhigh hhigh).2 le_rfl,
          (StoredValue.atMost_iff hv hhigh).2 (hucmp.ne_gt.1 hle)⟩
  obtain ⟨hlowOrd, hlowLe, hlowV⟩ := hnewLow
  obtain ⟨hhighOrd, hhighLe, hhighV⟩ := hnewHigh
  refine ⟨⟨hlowOrd, hhighOrd, StoredValue.atMost_trans hlowV hhighV⟩, ?_, ?_⟩
  · simp only [inside, hlowV, hhighV, Bool.and_self]
  · intro w hw
    simp only [inside, Bool.and_eq_true] at hw ⊢
    exact ⟨StoredValue.atMost_trans hlowLe hw.1, StoredValue.atMost_trans hw.2 hhighLe⟩

theorem widenAll_spec {ds : List Dimension} {bs bs' : List (StoredValue × StoredValue)}
    {vs : List StoredValue} (h : widenAll bs vs = .ok bs')
    (hbs : List.Forall₂ Dimension.Bounds ds bs) (hvs : List.Forall₂ Dimension.Holds ds vs) :
    List.Forall₂ Dimension.Bounds ds bs' ∧ List.Forall₂ (fun v b => inside v b = true) vs bs' ∧
      ∀ ws, List.Forall₂ (fun w b => inside w b = true) ws bs →
        List.Forall₂ (fun w b => inside w b = true) ws bs' := by
  induction hbs generalizing vs bs' with
  | nil =>
      cases hvs
      cases h
      exact ⟨.nil, .nil, fun ws hws => hws⟩
  | cons hb hbs ih =>
      cases hvs with
      | cons hv hvs =>
          simp only [widenAll] at h
          split at h
          · cases h
          · next b' hb' =>
              obtain ⟨rest, hrest, rfl⟩ := map_eq_ok.1 h
              obtain ⟨hbounds, hin, hkeep⟩ := widen_spec hb' hb hv.ordered
              obtain ⟨hboundsRest, hinRest, hkeepRest⟩ := ih hrest hvs
              refine ⟨.cons hbounds hboundsRest, .cons hin hinRest, ?_⟩
              intro ws hws
              cases hws with
              | cons hw hws => exact .cons (hkeep _ hw) (hkeepRest _ hws)

/-- Widening over cells that fit keeps what was inside and takes the coordinates of all of them
    in. -/
theorem foldlM_widenAll_spec {s : Schema} {cells : List Cell}
    {bs bs' : List (StoredValue × StoredValue)}
    (h : cells.foldlM (fun bounds c => widenAll bounds c.coords) bs = .ok bs')
    (hbs : List.Forall₂ Dimension.Bounds s.dimensions bs) (hcells : ∀ c ∈ cells, c.Fits s) :
    List.Forall₂ Dimension.Bounds s.dimensions bs' ∧
      (∀ c ∈ cells, List.Forall₂ (fun v b => inside v b = true) c.coords bs') ∧
      ∀ ws, List.Forall₂ (fun w b => inside w b = true) ws bs →
        List.Forall₂ (fun w b => inside w b = true) ws bs' := by
  induction cells generalizing bs with
  | nil =>
      cases h
      exact ⟨hbs, fun c hc => (nomatch hc), fun ws hws => hws⟩
  | cons c rest ih =>
      rw [List.foldlM_cons, bind_eq_ok] at h
      obtain ⟨mid, hmid, hrest⟩ := h
      obtain ⟨hmidBounds, hc, hkeep⟩ :=
        widenAll_spec hmid hbs (hcells c (List.mem_cons_self ..)).coords
      obtain ⟨hbounds, hall, hkeepRest⟩ :=
        ih hrest hmidBounds fun x hx => hcells x (List.mem_cons_of_mem _ hx)
      refine ⟨hbounds, ?_, fun ws hws => hkeepRest ws (hkeep ws hws)⟩
      intro x hx
      rcases List.mem_cons.1 hx with rfl | hx
      · exact hkeepRest _ hc
      · exact hall x hx

/-- The coordinates of one cell bound themselves. -/
theorem bounds_self {ds : List Dimension} {vs : List StoredValue}
    (h : List.Forall₂ Dimension.Holds ds vs) :
    List.Forall₂ Dimension.Bounds ds (vs.map fun v => (v, v)) ∧
      List.Forall₂ (fun v b => inside v b = true) vs (vs.map fun v => (v, v)) := by
  induction h with
  | nil => exact ⟨.nil, .nil⟩
  | cons hv _ ih =>
      have hself := (StoredValue.atMost_iff hv.ordered hv.ordered).2 le_rfl
      exact ⟨.cons ⟨hv.ordered, hv.ordered, hself⟩ ih.1, .cons (by simp [inside, hself]) ih.2⟩

/-- The populated bounds are in order and have all coordinates between them. -/
theorem populated_spec {a : TiledArray} (ha : a.Sound)
    {r : Option (List (StoredValue × StoredValue))} (h : a.populated = .ok r) :
    (r = none ↔ a.cells = []) ∧ ∀ bounds, r = some bounds →
      List.Forall₂ Dimension.Bounds a.schema.dimensions bounds ∧
        ∀ c ∈ a.cells, List.Forall₂ (fun v b => inside v b = true) c.coords bounds := by
  have hfits := ha.fits
  unfold populated at h
  split at h
  · next hnil =>
      cases h
      exact ⟨iff_of_true rfl hnil, fun bounds hb => (nomatch hb)⟩
  · next first rest hcells =>
      split at h
      · cases h
      · next bounds hfold =>
          cases h
          rw [hcells] at hfits ⊢
          -- the box starts as the first cell, and takes in the others one after another
          obtain ⟨hstart, hself⟩ := bounds_self (hfits first (List.mem_cons_self ..)).coords
          obtain ⟨hbounds, hall, hkeep⟩ := foldlM_widenAll_spec hfold hstart
            fun c hc => hfits c (List.mem_cons_of_mem _ hc)
          refine ⟨by simp, ?_⟩
          intro _ hb
          cases hb
          refine ⟨hbounds, ?_⟩
          intro c hc
          rcases List.mem_cons.1 hc with rfl | hc
          · exact hkeep _ hself
          · exact hall c hc

/-- A bound stays or moves to the coordinate. -/
theorem widen_keeps {P : StoredValue → Prop} {b b' : StoredValue × StoredValue} {v : StoredValue}
    (h : widen b v = .ok b') (hb : P b.1 ∧ P b.2) (hv : P v) : P b'.1 ∧ P b'.2 := by
  unfold widen at h
  split at h
  · cases h
  · cases h
  · cases h
    constructor
    · dsimp only
      split
      · exact hv
      · exact hb.1
    · dsimp only
      split
      · exact hv
      · exact hb.2

section

variable {δ : Type} {P : δ → StoredValue → Prop} {ds : List δ}

theorem widenAll_keeps {bs bs' : List (StoredValue × StoredValue)} {vs : List StoredValue}
    (h : widenAll bs vs = .ok bs') (hbs : List.Forall₂ (fun d b => P d b.1 ∧ P d b.2) ds bs)
    (hvs : List.Forall₂ P ds vs) : List.Forall₂ (fun d b => P d b.1 ∧ P d b.2) ds bs' := by
  induction hbs generalizing vs bs' with
  | nil =>
      cases hvs
      cases h
      exact .nil
  | cons hb hbs ih =>
      cases hvs with
      | cons hv hvs =>
          simp only [widenAll] at h
          split at h
          · cases h
          · next b' hb' =>
              obtain ⟨rest, hrest, rfl⟩ := map_eq_ok.1 h
              exact .cons (widen_keeps hb' hb hv) (ih hrest hvs)

theorem foldlM_widenAll_keeps {cells : List Cell} {bs bs' : List (StoredValue × StoredValue)}
    (h : cells.foldlM (fun bounds c => widenAll bounds c.coords) bs = .ok bs')
    (hbs : List.Forall₂ (fun d b => P d b.1 ∧ P d b.2) ds bs)
    (hcells : ∀ c ∈ cells, List.Forall₂ P ds c.coords) :
    List.Forall₂ (fun d b => P d b.1 ∧ P d b.2) ds bs' := by
  induction cells generalizing bs with
  | nil =>
      cases h
      exact hbs
  | cons c rest ih =>
      rw [List.foldlM_cons, bind_eq_ok] at h
      obtain ⟨mid, hmid, hrest⟩ := h
      rw [List.forall_mem_cons] at hcells
      exact ih hrest (widenAll_keeps hmid hbs hcells.1) hcells.2

/-- What holds of the coordinates of every cell, dimension by dimension, holds of the populated
    bounds. -/
theorem populated_keeps {a : TiledArray} {bounds : List (StoredValue × StoredValue)}
    (h : a.populated = .ok (some bounds)) (hcells : ∀ c ∈ a.cells, List.Forall₂ P ds c.coords) :
    List.Forall₂ (fun d b => P d b.1 ∧ P d b.2) ds bounds := by
  unfold populated at h
  split at h
  · cases h
  · next first rest hall =>
      rw [hall, List.forall_mem_cons] at hcells
      split at h
      · cases h
      · next bounds' hfold =>
          cases h
          refine foldlM_widenAll_keeps hfold ?_ hcells.2
          exact List.forall₂_map_right_iff.2 (hcells.1.imp fun _ _ hv => ⟨hv, hv⟩)

end

/-- The populated bounds can stand on their dimensions. -/
theorem populated_holds {a : TiledArray} (ha : a.Sound) {bounds : List (StoredValue × StoredValue)}
    (h : a.populated = .ok (some bounds)) :
    List.Forall₂ (fun d b => d.Holds b.1 ∧ d.Holds b.2) a.schema.dimensions bounds :=
  populated_keeps h fun c hc => (ha.fits c hc).coords

end TiledArray

end SparseScan
