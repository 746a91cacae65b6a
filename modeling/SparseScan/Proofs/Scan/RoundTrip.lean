import SparseScan.Proofs.Scan.Rows
import SparseScan.Proofs.Value.Encoding

set_option autoImplicit false

/-! # From cells to rows and back

`read_written_cells` is the round trip of a field: what is written of cells into buffers with room
for it can be read, row by row, as the values of the cells, whatever the buffers held before. -/

namespace SparseScan

open TiledArray (StoredField)
open TiledQuery (fill countsOf valueBytes RoomFor)

/-- A cell that a stored field can hold: with a value of its datatype, as wide as an element unless
    elements have lengths of their own, or with a null where there may be one. -/
structure TiledArray.StoredField.Admits (st : StoredField) (c : Cell) : Prop where
  fits : ∀ v, st.value? c = some v → fitsField st.datatype st.shape.varLen v = true
  nullable : st.value? c = none → st.shape.nullable = true

/-- Buffers of the shape of a field, of any capacities and contents. -/
structure ElementBuffers.HasShape (s : ElementBuffers) (f : Field) : Prop where
  offsets : s.offsets.isSome = f.varLen
  validity : s.validity.isSome = f.nullable

namespace FieldBatch

variable {f : Field} {st : StoredField} {name : String} {cells : List Cell}
  {s s' : ElementBuffers} {b : FieldBatch}

/-- The bytes of fixed-length elements fill the value buffer in full elements. -/
theorem aligned_le_size (hdatatype : st.datatype = f.datatype) (hvar : st.shape.varLen = false)
    (hoffsets : s.offsets.isSome = false) (hcells : ∀ c ∈ cells, st.Admits c)
    (hfill : fill name st cells s = .ok s') :
    cells.length * f.datatype.width ≤ s'.values.size := by
  obtain ⟨-, -, hstart, -⟩ := TiledQuery.fill_spec hfill
  have hle := ElementBuffer.length_le_of_startsWith hstart
  have hlen : (valueBytes st s cells).length = cells.length * st.datatype.width := by
    rw [valueBytes, if_neg (by simp [hoffsets])]
    exact flatMap_length_of_forall _ fun c hc => st.aligned_length (hcells c hc).fits hvar
  rwa [hlen, hdatatype] at hle

/-- A row that shows a value has it in stored form. -/
theorem stored_of_bytesAt {i : Nat} {v : StoredValue} (hb : b.bytesAt i = .ok v.encode)
    (htype : v.hasType b.datatype = true) : b.stored i = .ok v := by
  simp only [stored, hb, StoredValue.decode_encode htype, Except.mapError]

/-- Cells that are written into buffers with room for them are read back: there is one row for each
    cell, with the encoding of its value, or the bytes that stand for null, and the value in stored
    form is the one that was written. -/
theorem read_written_cells (hshape : st.shape = f.shape) (hdatatype : st.datatype = f.datatype)
    (hbuffers : s.HasShape f) (hcells : ∀ c ∈ cells, st.Admits c) (hroom : RoomFor st cells s) :
    ∃ s' b, fill name st cells s = .ok s' ∧ ofBuffers f s' (countsOf st cells s) = .ok b ∧
      b.rows = cells.length ∧ ∀ i c, cells[i]? = some c →
        b.bytesAt i = .ok (f.shownBytes (st.value? c)) ∧ b.isNull i = (st.value? c).isNone ∧
          ∀ v, st.value? c = some v → b.stored i = .ok v := by
  have hvar : st.shape.varLen = f.varLen := by rw [hshape]; rfl
  have hdec : Decodes f st := ⟨hshape, Or.inr (congrArg Datatype.width hdatatype)⟩
  obtain ⟨s', hfill⟩ : ∃ s', fill name st cells s = .ok s' := TiledQuery.fill_of_roomFor hroom
  obtain ⟨b, hread⟩ : ∃ b, ofBuffers f s' (countsOf st cells s) = .ok b := by
    refine ofBuffers_of_fill hshape hfill ?_
    intro hfixed
    exact aligned_le_size hdatatype (hvar.trans hfixed) (hbuffers.offsets.trans hfixed) hcells hfill
  have hshows : b.Shows st cells := ofBuffers_shows hdec hbuffers.offsets hbuffers.validity
    (fun c hc => ⟨(hcells c hc).fits, (hcells c hc).nullable⟩) hfill hread
  refine ⟨s', b, hfill, hread, hshows.rows, ?_⟩
  intro i c hc
  have hbytes : b.bytesAt i = .ok (f.shownBytes (st.value? c)) := by
    rw [← shown_eq_shownBytes hdec]
    exact hshows.bytesAt i c hc
  refine ⟨hbytes, hshows.isNull i c hc, ?_⟩
  intro v hv
  rw [hv, Field.shownBytes] at hbytes
  refine stored_of_bytesAt hbytes ?_
  have hfits := (hcells c (List.mem_of_getElem? hc)).fits v hv
  simp only [fitsField, Bool.and_eq_true] at hfits
  rw [(ofBuffers_eq_ok hread).1, ← hdatatype]
  exact hfits.1

/-- Three notes, the second one null, in buffers that still hold bytes of an earlier batch. -/
theorem read_written_notes :
    let st : StoredField := ⟨.ofAttribute 0, .stringUtf8, ⟨true, true⟩⟩
    let f : Field := ⟨0, "note", .stringUtf8, true, true, .varchar, .ofAttribute⟩
    let cells : List Cell :=
      [⟨[], [some (.text [104, 105])]⟩, ⟨[], [none]⟩, ⟨[], [some (.text [33])]⟩]
    let s : ElementBuffers :=
      ⟨some ⟨8, 3, List.replicate 24 255, by decide, by decide⟩,
        ⟨1, 4, [1, 2, 3, 4], by decide, by decide⟩, some ⟨1, 3, [0, 1, 0], by decide, by decide⟩⟩
    ∃ s' b, fill "note" st cells s = .ok s' ∧ ofBuffers f s' (countsOf st cells s) = .ok b ∧
      b.rows = 3 ∧ b.bytesAt 0 = .ok [104, 105] ∧ b.bytesAt 1 = .ok [] ∧ b.isNull 1 = true ∧
        b.stored 2 = .ok (.text [33]) := by
  intro st f cells s
  have hcells : ∀ c ∈ cells, st.Admits c := by
    simp only [cells, List.mem_cons, List.not_mem_nil, or_false, forall_eq_or_imp, forall_eq]
    refine ⟨⟨?_, ?_⟩, ⟨?_, ?_⟩, ⟨?_, ?_⟩⟩ <;>
      simp [st, StoredField.value?, fitsField, StoredValue.hasType, StoredValue.form,
        Datatype.form]
  have hroom : RoomFor st cells s := by
    refine ⟨?_, by decide, ?_⟩
    · rintro o ⟨⟩
      decide
    · rintro v ⟨⟩
      decide
  obtain ⟨s', b, hfill, hread, hrows, hshows⟩ : ∃ s' b, fill "note" st cells s = .ok s' ∧
      ofBuffers f s' (countsOf st cells s) = .ok b ∧ b.rows = cells.length ∧ _ :=
    read_written_cells rfl rfl ⟨rfl, rfl⟩ hcells hroom
  exact ⟨s', b, hfill, hread, hrows, (hshows 0 _ rfl).1, (hshows 1 _ rfl).1, (hshows 1 _ rfl).2.1,
    (hshows 2 _ rfl).2.2 _ rfl⟩

end FieldBatch

end SparseScan
