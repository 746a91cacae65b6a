import SparseScan.Proofs.Storage.TiledArray

set_option autoImplicit false

/-! # What projected fields read

The array looks up a field by its name alone and finds attributes first, and so does the schema that
a column is projected by: `Schema.field?_asStored` says that both lookups answer alike. So what is
stored under the name of a projected field is what the field stands for (`project_spec`), unless the
field is *shadowed*: the dimension that a scan without columns reads is not looked up, and an
attribute may have the same name. -/

namespace SparseScan

/-! ## Fields of a schema -/

/-- The value of a cell that a field stands for, none for null. -/
def Field.valueIn (f : Field) (s : Schema) (c : Cell) : Option StoredValue :=
  match f.origin with
  | .ofAttribute => c.values[s.attributes.findIdx (·.name == f.name)]?.join
  | .ofDimension position => c.coords[position]?

/-- Whether a field stands for a dimension whose name an attribute has as well. -/
def Field.shadowed (f : Field) (s : Schema) : Prop :=
  f.isDimension = true ∧ (s.attribute? f.name).isSome = true

theorem find?_zipIdx {α : Type} (p : α → Bool) (xs : List α) (n : Nat) :
    (xs.zipIdx n).find? (fun x => p x.1) = (xs.find? p).map fun a => (a, n + xs.findIdx p) := by
  induction xs generalizing n with
  | nil => rfl
  | cons x xs ih =>
      rw [List.zipIdx_cons, List.find?_cons, List.find?_cons, List.findIdx_cons]
      cases hp : p x with
      | true => simp
      | false =>
          simp only [ih, cond_false]
          congr 1
          funext a
          congr 1
          omega

namespace TiledArray

variable {a : TiledArray} {name : String} {st : StoredField}

/-- The stored field of a name, with attributes found first. -/
theorem stored?_eq_some (h : a.stored? name = some st) :
    (∃ attr, a.schema.attribute? name = some attr ∧
        st = ⟨.ofAttribute (a.schema.attributes.findIdx (·.name == name)), attr.datatype,
          ⟨attr.varLen, attr.nullable⟩⟩) ∨
      a.schema.attribute? name = none ∧ ∃ position d,
        a.schema.dimension? name = some (position, d) ∧
          st = ⟨.ofDimension position, d.datatype, ⟨d.varLen, false⟩⟩ := by
  unfold stored? at h
  rw [find?_zipIdx fun x : Attribute => x.name == name] at h
  cases hattr : a.schema.attributes.find? (fun x => x.name == name) with
  | some attr =>
      simp only [hattr, Option.map_some, Option.some.injEq, Nat.zero_add] at h
      exact Or.inl ⟨attr, hattr, h.symm⟩
  | none =>
      simp only [hattr, Option.map_none] at h
      split at h
      · next position d hd =>
          cases h
          exact Or.inr ⟨hattr, position, d, hd, rfl⟩
      · cases h

theorem dimension?_eq_some {s : Schema} {position : Nat} {d : Dimension}
    (h : s.dimension? name = some (position, d)) :
    s.dimensions[position]? = some d ∧ d.name = name := by
  unfold Schema.dimension? at h
  rw [find?_zipIdx fun x : Dimension => x.name == name, Option.map_map] at h
  obtain ⟨found, hfind, hpos⟩ := Option.map_eq_some_iff.1 h
  simp only [Function.comp_apply, Prod.mk.injEq, Nat.zero_add] at hpos
  obtain ⟨rfl, rfl⟩ := hpos
  refine ⟨?_, by simpa using List.find?_some hfind⟩
  rw [← List.find?_eq_getElem?_findIdx, hfind]

/-- A stored field has, in every cell that fits, a value that fits it, or null if it may be. -/
theorem value?_spec {c : Cell} (h : a.stored? name = some st) (hc : c.Fits a.schema) :
    (∀ v, st.value? c = some v → fitsField st.datatype st.shape.varLen v = true) ∧
      (st.value? c = none → st.shape.nullable = true) := by
  rcases stored?_eq_some h with ⟨attr, hattr, rfl⟩ | ⟨-, position, d, hd, rfl⟩
  · have hget : a.schema.attributes[a.schema.attributes.findIdx (·.name == name)]? = some attr := by
      rw [← List.find?_eq_getElem?_findIdx]
      exact hattr
    obtain ⟨v, hv, hholds⟩ := forall₂_getElem? hc.values hget
    simp only [StoredField.value?, hv, Option.join_some]
    exact ⟨hholds.fits, hholds.nullable⟩
  · obtain ⟨v, hv, hholds⟩ := forall₂_getElem? hc.coords (dimension?_eq_some hd).1
    simp only [StoredField.value?, hv]
    refine ⟨?_, fun hnone => nomatch hnone⟩
    rintro _ ⟨⟩
    exact hholds.fits

/-- A value of a field with elements of one width takes one element, and so does a null. -/
theorem StoredField.aligned_length {c : Cell}
    (hfits : ∀ v, st.value? c = some v → fitsField st.datatype st.shape.varLen v = true)
    (hfixed : st.shape.varLen = false) : (st.aligned c).length = st.datatype.width := by
  unfold StoredField.aligned
  split
  · next v hv =>
      have hsize := hfits v hv
      simp only [fitsField, hfixed, Bool.false_or, Bool.and_eq_true, beq_iff_eq] at hsize
      rw [StoredValue.encode_length, hsize.2]
  · exact List.length_replicate

/-- Cells of a field with elements of one width take an element each. -/
theorem StoredField.sum_elements (hfixed : st.shape.varLen = false) (cells : List Cell) :
    (cells.map st.elements).sum = cells.length := by
  have hone : st.elements = fun _ => 1 := by
    funext cell
    simp [StoredField.elements, hfixed]
  simp [hone]

/-- A value of a field with lengths of their own takes its bytes, and a null takes none. -/
theorem StoredField.packed_length (hvar : st.shape.varLen = true) (c : Cell) :
    (st.packed c).length = st.elements c := by
  unfold StoredField.packed StoredField.elements
  rw [if_pos hvar]
  cases st.value? c with
  | none => rfl
  | some v => exact v.encode_length

end TiledArray

/-! ## Columns -/

/-- What a field stands for, in the terms of the array. -/
def Field.asStored (f : Field) (s : Schema) : TiledArray.StoredField where
  origin :=
    match f.origin with
    | .ofAttribute => .ofAttribute (s.attributes.findIdx (·.name == f.name))
    | .ofDimension position => .ofDimension position
  datatype := f.datatype
  shape := f.shape

namespace Schema

/-- A field keeps the position of its column and the name. -/
theorem field?_column {s : Schema} {ordinal : Nat} {col : Column} {f : Field}
    (h : s.field? ordinal col = some f) :
    f.ordinal = ordinal ∧ f.name = col.name := by
  unfold field? at h
  split at h
  · next attr hattr =>
      cases h
      exact ⟨rfl, by simpa using List.find?_some hattr⟩
  · split at h
    · next position d hd =>
        cases h
        exact ⟨rfl, (TiledArray.dimension?_eq_some hd).2⟩
    · cases h

/-- The array finds under the name of a column what the schema resolves the column to. -/
theorem field?_asStored (a : TiledArray) (ordinal : Nat) (col : Column) :
    a.stored? col.name = (a.schema.field? ordinal col).map (·.asStored a.schema) := by
  rw [TiledArray.stored?, find?_zipIdx fun x : Attribute => x.name == col.name, field?, attribute?]
  cases hattr : a.schema.attributes.find? (·.name == col.name) with
  | some attr =>
      have hname : attr.name = col.name := by simpa using List.find?_some hattr
      simp [Field.asStored, Field.shape, hname]
  | none =>
      cases a.schema.dimension? col.name with
      | some found => rfl
      | none => rfl

variable {s : Schema} {done fields : List Field} {columns : List Column}

/-- The fields that columns resolve to, the first of them at position `n`. -/
def Resolves (s : Schema) (n : Nat) (columns : List Column) (fields : List Field) : Prop :=
  List.Forall₂ (fun c f => s.field? c.2 c.1 = some f) (columns.zipIdx n) fields

theorem resolves_nil {n : Nat} : s.Resolves n [] fields ↔ fields = [] :=
  List.forall₂_nil_left_iff

theorem resolves_cons {n : Nat} {c : Column} : s.Resolves n (c :: columns) fields ↔
    ∃ f rest, s.field? n c = some f ∧ s.Resolves (n + 1) columns rest ∧ fields = f :: rest :=
  List.forall₂_cons_left_iff

/-- Columns are projected exactly if their names are new and all of them resolve. -/
theorem projectFrom_eq_ok_iff (hdone : (done.map Field.name).Nodup) :
    s.projectFrom done columns = .ok fields ↔
      (done.map Field.name ++ columns.map Column.name).Nodup ∧
        ∃ new, s.Resolves done.length columns new ∧ fields = done ++ new := by
  induction columns generalizing done with
  | nil =>
      simp only [projectFrom, Except.ok.injEq, List.map_nil, List.append_nil, resolves_nil,
        exists_eq_left, hdone, true_and]
      exact eq_comm
  | cons c rest ih =>
      simp only [projectFrom, resolves_cons]
      by_cases hold : c.name ∈ done.map Field.name
      · rw [if_pos (by simpa using hold)]
        simp only [reduceCtorEq, false_iff, List.map_cons, List.nodup_append]
        exact fun h => h.1.2.2 _ hold _ (List.mem_cons_self ..) rfl
      · rw [if_neg (by simpa using hold)]
        cases hf : s.field? done.length c with
        | none => simp
        | some f =>
            -- the new field takes the next position and the name of the column
            have hname := (field?_column hf).2
            have hnext : ((done ++ [f]).map Field.name).Nodup := by
              rw [List.map_append, List.map_singleton, hname, ← List.concat_eq_append]
              exact hdone.concat hold
            rw [ih hnext, List.map_append, List.map_singleton, hname, List.append_assoc]
            simp [and_assoc]

theorem Resolves.ordinals {n : Nat} (h : s.Resolves n columns fields) :
    fields.map Field.ordinal = List.range' n fields.length := by
  rw [map_eq_map_of_forall₂ h fun c f hf => (field?_column hf).1, ← h.length_eq,
    List.length_zipIdx]
  exact List.zipIdx_map_snd n columns

theorem Resolves.names {n : Nat} (h : s.Resolves n columns fields) :
    fields.map Field.name = columns.map Column.name := by
  calc fields.map Field.name
      = (columns.zipIdx n).map (Column.name ∘ Prod.fst) :=
        map_eq_map_of_forall₂ h fun c f hf => (field?_column hf).2
    _ = columns.map Column.name := by rw [← List.map_map, List.zipIdx_map_fst]

/-- A field of a column is found in the array, as what it stands for. -/
theorem Resolves.asStored {a : TiledArray} {n : Nat} (h : a.schema.Resolves n columns fields)
    {f : Field} (hf : f ∈ fields) : a.stored? f.name = some (f.asStored a.schema) := by
  obtain ⟨i, hi⟩ := List.mem_iff_getElem?.1 hf
  obtain ⟨c, -, hc⟩ := forall₂_getElem? h.flip hi
  rw [(field?_column hc).2, field?_asStored a c.2, hc, Option.map_some]

/-! ## Projections -/

/-- Columns are projected to the fields that they resolve to, and refused if a name is repeated or
    the schema does not have it. -/
theorem project_eq_ok_iff (hne : columns ≠ []) : s.project columns = .ok fields ↔
    (columns.map Column.name).Nodup ∧ s.Resolves 0 columns fields := by
  have hfrom : s.project columns = s.projectFrom [] columns := by
    cases columns with
    | nil => exact absurd rfl hne
    | cons c rest => rfl
  rw [hfrom, projectFrom_eq_ok_iff (by simp)]
  simp

end Schema

/-- The field that is read when there are no columns. -/
def Dimension.alone (d : Dimension) : Field where
  ordinal := 0
  name := d.name
  datatype := d.datatype
  varLen := d.varLen
  nullable := false
  columnType := d.datatype.columnType
  origin := .ofDimension 0

theorem Schema.project_nil {s : Schema} {fields : List Field} : s.project [] = .ok fields ↔
    ∃ d, s.dimensions.head? = some d ∧ fields = [d.alone] := by
  unfold Schema.project
  cases s.dimensions with
  | nil => simp
  | cons d rest => simp [Dimension.alone, eq_comm]

namespace TiledArray

variable {a : TiledArray} {d : Dimension} {f : Field}

/-- A shadowed field is found as an attribute. -/
theorem asStored_ne_of_shadowed {st : StoredField} (h : a.stored? f.name = some st)
    (hshadow : f.shadowed a.schema) : st ≠ f.asStored a.schema := by
  obtain ⟨hdim, hattr⟩ := hshadow
  rcases stored?_eq_some h with ⟨attr, -, rfl⟩ | ⟨hnone, -⟩
  · unfold Field.isDimension at hdim
    split at hdim
    · cases hdim
    · next position horigin => simp [Field.asStored, horigin]
  · rw [hnone] at hattr
    cases hattr

/-- Something is stored under the name of the first dimension: the dimension, unless an attribute
    has its name. -/
theorem stored?_alone (hd : a.schema.dimensions.head? = some d) :
    ∃ st, a.stored? d.name = some st ∧
      (¬ d.alone.shadowed a.schema → st = d.alone.asStored a.schema) := by
  obtain ⟨rest, hdims⟩ := List.head?_eq_some_iff.1 hd
  -- the lookup is that of a column with the name of the dimension
  rw [Schema.field?_asStored a 0 ⟨d.name, d.datatype.columnType, true⟩, Schema.field?]
  cases hattr : a.schema.attribute? d.name with
  | some attr =>
      refine ⟨_, rfl, fun hshadow => absurd ⟨rfl, ?_⟩ hshadow⟩
      exact Option.isSome_iff_exists.2 ⟨attr, hattr⟩
  | none =>
      have hfirst : a.schema.dimension? d.name = some (0, d) := by
        simp [Schema.dimension?, hdims]
      rw [hfirst]
      exact ⟨_, rfl, fun _ => rfl⟩

/-- Something is stored under the name of each field of a projection: what the field stands for,
    unless it is the dimension that is read without columns, and shadowed. -/
theorem stored?_of_project {columns : List Column} {fields : List Field}
    (h : a.schema.project columns = .ok fields) (hf : f ∈ fields) :
    (f.shadowed a.schema → columns = []) ∧
      ∃ st, a.stored? f.name = some st ∧ (st = f.asStored a.schema ↔ ¬ f.shadowed a.schema) := by
  by_cases hcolumns : columns = []
  · subst hcolumns
    obtain ⟨d, hd, rfl⟩ := Schema.project_nil.1 h
    obtain rfl := List.mem_singleton.1 hf
    obtain ⟨st, hst, hfound⟩ := stored?_alone hd
    refine ⟨fun _ => rfl, st, hst, ⟨?_, hfound⟩⟩
    exact fun hsame hshadow => asStored_ne_of_shadowed hst hshadow hsame
  · have hst := ((Schema.project_eq_ok_iff hcolumns).1 h).2.asStored hf
    have hclear : ¬ f.shadowed a.schema :=
      fun hshadow => asStored_ne_of_shadowed hst hshadow rfl
    exact ⟨fun hshadow => absurd hshadow hclear, _, hst, iff_of_true rfl hclear⟩

end TiledArray

/-- What the array stores under the name of a field is what the field stands for. -/
structure Field.Reads (f : Field) (s : Schema) (st : TiledArray.StoredField) : Prop where
  datatype : st.datatype = f.datatype
  value? : ∀ c, st.value? c = f.valueIn s c

theorem Field.asStored_reads (f : Field) (s : Schema) : f.Reads s (f.asStored s) := by
  refine ⟨rfl, fun c => ?_⟩
  unfold TiledArray.StoredField.value? Field.valueIn Field.asStored
  cases f.origin <;> rfl

/-- Fields with names of their own, each of which reads what it stands for unless it is shadowed. -/
structure ProjectedFields (a : TiledArray) (fields : List Field) : Prop where
  ne_nil : fields ≠ []
  nodup : (fields.map Field.name).Nodup
  reads : ∀ f ∈ fields, ¬ f.shadowed a.schema →
    ∀ st, a.stored? f.name = some st → f.Reads a.schema st

/-- The fields of a projection have names of their own, and there is at least one. -/
theorem project_names {s : Schema} {columns : List Column} {fields : List Field}
    (h : s.project columns = .ok fields) : fields ≠ [] ∧ (fields.map Field.name).Nodup := by
  by_cases hcolumns : columns = []
  · subst hcolumns
    obtain ⟨d, -, rfl⟩ := Schema.project_nil.1 h
    exact ⟨List.cons_ne_nil _ _, List.nodup_singleton _⟩
  · obtain ⟨hnodup, hresolves⟩ := (Schema.project_eq_ok_iff hcolumns).1 h
    have hnames := hresolves.names
    refine ⟨?_, by rwa [hnames]⟩
    rintro rfl
    exact hcolumns (List.map_eq_nil_iff.1 hnames.symm)

/-- The fields of a projection have names of their own, and none is shadowed unless it is the
    dimension that is read when there are no columns. -/
theorem project_spec {a : TiledArray} {columns : List Column} {fields : List Field}
    (h : a.schema.project columns = .ok fields) :
    ProjectedFields a fields ∧ ∀ f ∈ fields, f.shadowed a.schema → columns = [] := by
  obtain ⟨hne, hnodup⟩ := project_names h
  refine ⟨⟨hne, hnodup, ?_⟩, fun f hf => (TiledArray.stored?_of_project h hf).1⟩
  intro f hf hclear st hst
  obtain ⟨-, st', hst', hfound⟩ := TiledArray.stored?_of_project h hf
  rw [Option.some.inj (hst.symm.trans hst'), hfound.2 hclear]
  exact f.asStored_reads a.schema

end SparseScan
