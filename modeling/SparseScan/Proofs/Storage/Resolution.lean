import SparseScan.Buffer.Allocator
import SparseScan.Proofs.Storage.Requests

set_option autoImplicit false

/-! # Columns and the lookup of the array

What a projection resolves a column to, the array finds and serves: it has an estimate for the field
and takes the capacities of its buffers (`TiledArray.project_agrees`). Only the dimension that is
read without columns can be shadowed by an attribute of its name, and is refused then if the
attribute has another shape. -/

namespace SparseScan

open TiledArray (StoredField)

/-- An open query on the array estimates the field, whatever its state, and takes the initial
    capacities for every estimate. -/
def Field.Served (f : Field) (a : TiledArray) : Prop :=
  ∀ q : TiledQuery, q.array = a → q.closed = false →
    (∃ e, q.estimate f.name f.shape = .ok e) ∧
      ∀ (m : BufferAllocator) (e : Estimate),
        (q.register f.name (m.initialCapacities f e)).1 = .ok ()

theorem BufferAllocator.initialCapacities_shape (m : BufferAllocator) (f : Field) (e : Estimate) :
    (m.initialCapacities f e).offsets.isSome = f.shape.varLen ∧
      (m.initialCapacities f e).validity.isSome = f.shape.nullable := by
  cases hvar : f.varLen <;> cases hnull : f.nullable <;>
    simp [initialCapacities, Field.shape, hvar, hnull]

/-- A field is served exactly if what is stored under its name has its shape. -/
theorem Field.served_iff {f : Field} {a : TiledArray} {st : StoredField}
    (hst : a.stored? f.name = some st) : f.Served a ↔ st.shape = f.shape := by
  constructor
  · intro h
    obtain ⟨⟨e, he⟩, -⟩ := h (TiledQuery.ofArray a) rfl rfl
    obtain ⟨st', hst', hshape, -⟩ := TiledQuery.estimate_eq_ok he
    rw [← hshape, Option.some.inj (hst.symm.trans hst')]
  · rintro hshape q rfl hopen
    refine ⟨⟨_, hshape ▸ TiledQuery.estimate_ok hopen hst⟩, ?_⟩
    intro m e
    obtain ⟨hoffsets, hvalidity⟩ := m.initialCapacities_shape f e
    rw [← hshape] at hoffsets hvalidity
    rw [TiledQuery.register_ok hopen hst hoffsets hvalidity]

/-! ## Columns without a field -/

namespace Schema

variable {s : Schema} {name : String} {col : Column} {columns : List Column}

theorem attribute?_isSome : (s.attribute? name).isSome = true ↔
    name ∈ s.attributes.map Attribute.name := by
  simp [attribute?, List.find?_isSome]

theorem dimension?_isSome : (s.dimension? name).isSome = true ↔
    name ∈ s.dimensions.map Dimension.name := by
  rw [dimension?, Option.isSome_map, find?_zipIdx fun d : Dimension => d.name == name,
    Option.isSome_map]
  simp [List.find?_isSome]

/-- A column has a field if the schema has its name. -/
theorem field?_isSome (ordinal : Nat) : (s.field? ordinal col).isSome = true ↔
    col.name ∈ s.attributes.map Attribute.name ∨ col.name ∈ s.dimensions.map Dimension.name := by
  rw [← attribute?_isSome, ← dimension?_isSome, field?]
  cases s.attribute? col.name with
  | some attr => simp
  | none => cases s.dimension? col.name <;> simp

/-- Columns resolve exactly if the schema has all of their names. -/
theorem exists_resolves {n : Nat} : (∃ new, s.Resolves n columns new) ↔ ∀ c ∈ columns,
    c.name ∈ s.attributes.map Attribute.name ∨ c.name ∈ s.dimensions.map Dimension.name := by
  induction columns generalizing n with
  | nil => simp [resolves_nil]
  | cons c rest ih =>
      rw [List.forall_mem_cons, ← ih (n := n + 1), ← field?_isSome n,
        Option.isSome_iff_exists]
      simp only [resolves_cons]
      constructor
      · rintro ⟨_, f, new, hf, hnew, -⟩
        exact ⟨⟨f, hf⟩, new, hnew⟩
      · rintro ⟨⟨f, hf⟩, new, hnew⟩
        exact ⟨_, f, new, hf, hnew, rfl⟩

theorem project_error_iff (hne : columns ≠ []) : (∃ e, s.project columns = .error e) ↔
    ¬ (columns.map Column.name).Nodup ∨ ∃ c ∈ columns,
      c.name ∉ s.attributes.map Attribute.name ∧ c.name ∉ s.dimensions.map Dimension.name := by
  have hok : (∃ fields, s.project columns = .ok fields) ↔ (columns.map Column.name).Nodup ∧
      ∀ c ∈ columns, c.name ∈ s.attributes.map Attribute.name ∨
        c.name ∈ s.dimensions.map Dimension.name := by
    simp only [project_eq_ok_iff hne, exists_and_left, exists_resolves]
  rw [exists_error_iff, hok, not_and_or]
  simp only [not_forall, not_or, exists_prop]

end Schema

namespace TiledArray

/-- The fields of a projection are those of its columns, in their order, and the array finds each
    of them as what it stands for and serves it. The only exception is the dimension that is read
    without columns: it is not found if an attribute shadows it, and not served if the attribute
    has another shape. Columns are refused exactly if a name is repeated or unknown. -/
theorem project_agrees (a : TiledArray) (columns : List Column) :
    (∀ fields, a.schema.project columns = .ok fields →
      fields.map Field.ordinal = List.range fields.length ∧
      (fields.map Field.name).Nodup ∧
      (columns ≠ [] → fields.map Field.name = columns.map Column.name) ∧
      (columns = [] → ∃ d, a.schema.dimensions.head? = some d ∧ fields = [d.alone]) ∧
      ∀ f ∈ fields, (f.shadowed a.schema → columns = []) ∧
        ∃ st, a.stored? f.name = some st ∧
          (st = f.asStored a.schema ↔ ¬ f.shadowed a.schema) ∧
          (f.Served a ↔ st.shape = f.shape)) ∧
    (columns ≠ [] → ((∃ e, a.schema.project columns = .error e) ↔
      ¬ (columns.map Column.name).Nodup ∨
        ∃ c ∈ columns, c.name ∉ a.schema.attributes.map Attribute.name ∧
          c.name ∉ a.schema.dimensions.map Dimension.name)) := by
  constructor
  · intro fields h
    refine ⟨?_, (project_names h).2, ?_, ?_, ?_⟩
    · by_cases hcolumns : columns = []
      · subst hcolumns
        obtain ⟨d, -, rfl⟩ := Schema.project_nil.1 h
        rfl
      · rw [((Schema.project_eq_ok_iff hcolumns).1 h).2.ordinals, List.range_eq_range']
    · intro hcolumns
      exact ((Schema.project_eq_ok_iff hcolumns).1 h).2.names
    · rintro rfl
      exact Schema.project_nil.1 h
    · intro f hf
      obtain ⟨hcolumns, st, hst, hfound⟩ := stored?_of_project h hf
      exact ⟨hcolumns, st, hst, hfound, Field.served_iff hst⟩
  · exact Schema.project_error_iff

/-! ## Shadowed rows -/

/-- One cell at row 7, whose attribute is called as the dimension is. -/
def oneShadowed : TiledArray :=
  ⟨⟨[⟨"row", .int64, false⟩], [⟨"row", .int64, false, true⟩]⟩,
    [⟨[.small .int64 7], [some (.small .int64 1)]⟩], 1⟩

/-- The attribute is projected by its name, found and served. -/
theorem project_oneShadowed :
    ∃ f, oneShadowed.schema.project [⟨"row", .bigInt, false⟩] = .ok [f] ∧
      oneShadowed.stored? "row" = some (f.asStored oneShadowed.schema) ∧ f.Served oneShadowed ∧
      ∃ e, oneShadowed.schema.project [⟨"row", .bigInt, false⟩, ⟨"row", .bigInt, true⟩] =
        .error e := by
  refine ⟨⟨0, "row", .int64, false, true, .bigInt, .ofAttribute⟩, by decide, by decide, ?_, ?_⟩
  · obtain ⟨-, -, -, -, hfields⟩ := (project_agrees oneShadowed [⟨"row", .bigInt, false⟩]).1
      [⟨0, "row", .int64, false, true, .bigInt, .ofAttribute⟩] (by decide)
    obtain ⟨-, st, hst, -, hserved⟩ := hfields _ (List.mem_singleton_self _)
    have hfound : st = ⟨.ofAttribute 0, .int64, ⟨false, true⟩⟩ :=
      Option.some.inj (hst.symm.trans (by decide))
    exact hserved.2 (hfound ▸ rfl)
  · exact ((project_agrees oneShadowed _).2 (by decide)).2 (Or.inl (by decide))

/-- Without columns the dimension is projected, but the attribute is found: another position and
    another shape, so that the estimate and the capacities of the field are refused. -/
theorem project_nil_oneShadowed :
    let f : Field := ⟨0, "row", .int64, false, false, .bigInt, .ofDimension 0⟩
    let q := TiledQuery.ofArray oneShadowed
    TiledArray.ofCells oneShadowed.schema 1 oneShadowed.cells = .ok oneShadowed ∧
      oneShadowed.schema.project [] = .ok [f] ∧
      oneShadowed.stored? f.name = some ⟨.ofAttribute 0, .int64, ⟨false, true⟩⟩ ∧
      q.estimate f.name f.shape = .error (.estimateMismatch f.name f.shape) ∧
      ∀ (m : BufferAllocator) (e : Estimate), (q.register f.name (m.initialCapacities f e)).1 =
        .error (.shapeMismatch f.name (m.initialCapacities f e)) := by
  refine ⟨?_, by decide, by decide, by decide +kernel, fun m e => rfl⟩
  exact ofCells_of_sorted (by decide) (by decide) (by decide +kernel) (by decide +kernel)

end TiledArray

end SparseScan
