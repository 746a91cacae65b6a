import SparseScan.Proofs.Storage.Fill
import SparseScan.Scan.Batch

set_option autoImplicit false

/-! # Reading back what a submit wrote

`FieldBatch.ofBuffers_shows` is the round trip of one field: a batch copied out of buffers that a
submit filled has one row for each cell, with the bytes of the cell's value and its nullity. -/

namespace SparseScan

open TiledArray (StoredField)
open TiledQuery (offsetsOf valueBytes fill countsOf)

/-- The bytes of a cell that a reader of a stored field is shown. -/
def TiledArray.StoredField.shown (st : StoredField) (c : Cell) : List UInt8 :=
  if st.shape.varLen then st.packed c else st.aligned c

theorem ElementBuffer.size_lt_addressSpace (b : ElementBuffer) : b.size < addressSpace := by
  have hlt : b.size < blockLimit := b.size_lt
  have hblock : blockLimit ≤ addressSpace := by decide
  omega

namespace FieldBatch

/-! ## Rows of bytes -/

theorem words_flatMap {ns : List Nat} (h : ∀ n ∈ ns, n < addressSpace) :
    words (ns.flatMap (Bytes.ofNat offsetBytes)) = ns := by
  have hlen : ∀ xs : List Nat, (xs.flatMap (Bytes.ofNat offsetBytes)).length =
      xs.length * offsetBytes := fun xs =>
    flatMap_length_of_forall _ fun n _ => Bytes.ofNat_length _ n
  have hpos : 0 < offsetBytes := by decide
  refine List.ext_getElem? ?_
  intro i
  rw [words, List.getElem?_map, hlen, Nat.mul_div_cancel _ hpos]
  by_cases hi : i < ns.length
  · rw [List.getElem?_range hi, Option.map_some, List.getElem?_eq_getElem hi]
    have hslice := flatMap_slice (Bytes.ofNat offsetBytes) (List.getElem?_eq_getElem hi)
    rw [hlen, List.length_take, Nat.min_eq_left (Nat.le_of_lt hi), Bytes.ofNat_length] at hslice
    have hword : 256 ^ offsetBytes = addressSpace := by decide
    rw [hslice, Bytes.toNat_ofNat, hword, Nat.mod_eq_of_lt (h _ (List.getElem_mem hi))]
  · have hge : ns.length ≤ i := Nat.le_of_not_lt hi
    rw [List.getElem?_eq_none (by simpa using hge), List.getElem?_eq_none hge, Option.map_none]

section

variable {b : FieldBatch} {cells : List Cell} {i : Nat} {c : Cell}

/-- A row of one width ends where it should, or the end is not a word. -/
theorem span_of_width (hoffsets : b.offsets = none)
    (hlt : (i + 1) * b.datatype.width < addressSpace) :
    b.span i = .ok (i * b.datatype.width, (i + 1) * b.datatype.width) := by
  have hfirst : i * b.datatype.width < addressSpace :=
    (Nat.mul_le_mul_right _ (Nat.le_succ i)).trans_lt hlt
  simp only [span, hoffsets, byteSize, if_pos hfirst, if_pos hlt]
  rfl

/-- Rows of one width follow each other. -/
theorem bytesAt_of_width {g : Cell → List UInt8} (hoffsets : b.offsets = none)
    (hvalues : b.values = cells.flatMap g) (hrows : b.rows = cells.length)
    (hwidth : ∀ c ∈ cells, (g c).length = b.datatype.width)
    (hsize : b.values.length < addressSpace) (hc : cells[i]? = some c) :
    b.bytesAt i = .ok (g c) := by
  obtain ⟨hlt, -⟩ := List.getElem?_eq_some_iff.1 hc
  have hfirst : ((cells.take i).flatMap g).length = i * b.datatype.width := by
    rw [flatMap_length_of_forall g fun x hx => hwidth x (List.mem_of_mem_take hx),
      List.length_take, Nat.min_eq_left (Nat.le_of_lt hlt)]
  have hlast : (i + 1) * b.datatype.width = i * b.datatype.width + (g c).length := by
    rw [Nat.succ_mul, hwidth c (List.mem_of_getElem? hc)]
  have hle : i * b.datatype.width + (g c).length ≤ b.values.length := by
    rw [← hfirst, ← flatMap_take_length_succ g hc, hvalues]
    exact flatMap_take_length_le g cells (i + 1)
  have hslice := flatMap_slice g hc
  rw [hfirst, ← hvalues] at hslice
  rw [bytesAt, if_neg (by omega), span_of_width hoffsets (by omega)]
  simp only
  rw [hlast, if_pos (by omega), Nat.add_sub_cancel_left, hslice]

/-- Rows with lengths of their own start where the offsets say. -/
theorem bytesAt_of_offsets {st : StoredField} (hoffsets : b.offsets = some (offsetsOf st cells))
    (hvalues : b.values = cells.flatMap st.packed) (hrows : b.rows = cells.length)
    (hc : cells[i]? = some c) : b.bytesAt i = .ok (st.packed c) := by
  obtain ⟨hlt, -⟩ := List.getElem?_eq_some_iff.1 hc
  have hsucc := flatMap_take_length_succ st.packed hc
  have hle := flatMap_take_length_le st.packed cells (i + 1)
  have hslice := flatMap_slice st.packed hc
  -- the last row ends with the values, every other one where the next one starts
  have hlast : (offsetsOf st cells).getD (i + 1) b.values.length =
      ((cells.take (i + 1)).flatMap st.packed).length := by
    rw [List.getD_eq_getElem?_getD, TiledQuery.offsetsOf_getElem?]
    split
    · rfl
    · rw [Option.getD_none, hvalues, List.take_of_length_le (by omega)]
  have hspan : b.span i = .ok (((cells.take i).flatMap st.packed).length,
      ((cells.take (i + 1)).flatMap st.packed).length) := by
    simp only [span, hoffsets, hlast]
    split
    · next hzero =>
        subst hzero
        rfl
    · rw [TiledQuery.offsetsOf_getElem?, if_pos hlt]
  rw [← hvalues] at hle hslice
  rw [bytesAt, if_neg (by omega), hspan]
  simp only
  rw [if_pos (by omega), hsucc, Nat.add_sub_cancel_left, hslice]

end

/-! ## The round trip -/

/-- Each row of the batch shows what is stored in the cell at the same position. -/
structure Shows (b : FieldBatch) (st : StoredField) (cells : List Cell) : Prop where
  rows : b.rows = cells.length
  bytesAt : ∀ i c, cells[i]? = some c → b.bytesAt i = .ok (st.shown c)
  isNull : ∀ i c, cells[i]? = some c → b.isNull i = (st.value? c).isNone

theorem read_eq_ok {name : String} {role : BufferRole} {b : ElementBuffer} {n : Nat}
    {bytes : List UInt8} (h : read name role b n = .ok bytes) : b.take? n = some bytes := by
  unfold read at h
  split at h
  · next hb =>
      cases h
      exact hb
  · cases h

/-- What is read out of a buffer are its first bytes, and it has so many. -/
theorem read_eq_take {name : String} {role : BufferRole} {b : ElementBuffer} {n : Nat}
    {bytes : List UInt8} (h : read name role b n = .ok bytes) :
    n ≤ b.size ∧ bytes.length = n ∧ bytes = b.bytes.take n := by
  have htaken := read_eq_ok h
  have hle : n ≤ b.size := by
    unfold ElementBuffer.take? at htaken
    split at htaken
    · next hle => exact hle
    · cases htaken
  rw [b.take?_eq n hle, Option.some.injEq] at htaken
  subst htaken
  exact ⟨hle, by rw [List.length_take, b.bytes_length, Nat.min_eq_left hle], rfl⟩

/-- What is read out of a buffer is what it starts with, if it is as much. -/
theorem read_of_startsWith {name : String} {role : BufferRole} {b : ElementBuffer} {n : Nat}
    {bytes out : List UInt8} (h : read name role b n = .ok out) (hstart : b.StartsWith bytes)
    (hn : n = bytes.length) : out = bytes := by
  subst hn
  have hread := read_eq_ok h
  rw [ElementBuffer.take?_of_startsWith hstart, Option.some.injEq] at hread
  exact hread.symm

theorem length_lt_of_startsWith {b : ElementBuffer} {bytes : List UInt8} (h : b.StartsWith bytes) :
    bytes.length < addressSpace :=
  (ElementBuffer.length_le_of_startsWith h).trans_lt b.size_lt_addressSpace

theorem byteSize_eq_ok {count width n : Nat} :
    byteSize count width = .ok n ↔ count * width < addressSpace ∧ n = count * width := by
  unfold byteSize
  split
  · next hlt => simp [hlt, eq_comm]
  · next hge => simp [hge]

theorem valueSize_eq_ok {f : Field} {counts : ElementCounts} {n : Nat} :
    valueSize f counts = .ok n ↔
      (f.varLen = false → counts.rows f * f.datatype.width < addressSpace) ∧
        n = if f.varLen then counts.values else counts.rows f * f.datatype.width := by
  unfold valueSize
  cases f.varLen with
  | true => simp [eq_comm]
  | false => simp [byteSize_eq_ok]

theorem readWords_eq_ok {name : String} {rows : Nat} {b : ElementBuffer} {ws : List Nat}
    (h : readWords name rows b = .ok ws) :
    ∃ bytes, read name .offsets b (rows * offsetBytes) = .ok bytes ∧ ws = words bytes := by
  simp only [readWords, bind_eq_ok, pure_eq_ok, byteSize_eq_ok] at h
  obtain ⟨_, ⟨-, rfl⟩, bytes, hread, rfl⟩ := h
  exact ⟨bytes, hread, rfl⟩

theorem ofBuffers_eq_ok {f : Field} {s : ElementBuffers} {counts : ElementCounts} {b : FieldBatch}
    (h : ofBuffers f s counts = .ok b) :
    b.datatype = f.datatype ∧ b.nullable = f.nullable ∧
      b.rows = counts.rows f ∧
      read f.name .values s.values
        (if f.varLen then counts.values else b.rows * f.datatype.width) = .ok b.values ∧
      onPresent (readWords f.name b.rows) (if f.varLen then s.offsets else none) = .ok b.offsets ∧
      onPresent (fun o => read f.name .validity o b.rows)
        (if f.nullable then s.validity else none) = .ok b.validity := by
  simp only [ofBuffers, bind_eq_ok, pure_eq_ok] at h
  obtain ⟨size, hsize, values, hvalues, offsets, hoffsets, validity, hvalidity, rfl⟩ := h
  refine ⟨rfl, rfl, rfl, ?_, hoffsets, hvalidity⟩
  rw [← (valueSize_eq_ok.1 hsize).2]
  exact hvalues

theorem read_of_le {name : String} {role : BufferRole} {b : ElementBuffer} {n : Nat}
    (h : n ≤ b.size) : ∃ bytes, read name role b n = .ok bytes := by
  unfold read ElementBuffer.take?
  rw [if_pos h]
  exact ⟨_, rfl⟩

theorem readWords_of_le {name : String} {rows : Nat} {b : ElementBuffer}
    (h : rows * offsetBytes ≤ b.size) : ∃ ws, readWords name rows b = .ok ws := by
  obtain ⟨bytes, hread⟩ : ∃ bytes, read name .offsets b _ = .ok bytes := read_of_le h
  refine ⟨words bytes, ?_⟩
  simp only [readWords, bind_eq_ok, pure_eq_ok, byteSize_eq_ok]
  exact ⟨_, ⟨h.trans_lt b.size_lt_addressSpace, rfl⟩, bytes, hread, rfl⟩

/-- What buffers can back is read. Then every size is a word. -/
theorem ofBuffers_of_le {f : Field} {s : ElementBuffers} {counts : ElementCounts}
    (hvalues : (if f.varLen then counts.values else counts.rows f * f.datatype.width) ≤
      s.values.size)
    (hoffsets : f.varLen = true → ∀ o, s.offsets = some o → counts.rows f * offsetBytes ≤ o.size)
    (hvalidity : f.nullable = true → ∀ v, s.validity = some v → counts.rows f ≤ v.size) :
    ∃ b, ofBuffers f s counts = .ok b := by
  have hsize : valueSize f counts =
      .ok (if f.varLen then counts.values else counts.rows f * f.datatype.width) := by
    refine valueSize_eq_ok.2 ⟨fun hfixed => ?_, rfl⟩
    rw [if_neg (by simp [hfixed])] at hvalues
    exact hvalues.trans_lt s.values.size_lt_addressSpace
  obtain ⟨values, hvaluesRead⟩ : ∃ bytes, read f.name .values s.values _ = .ok bytes :=
    read_of_le hvalues
  obtain ⟨offsets, hoffsetsRead⟩ : ∃ y, onPresent (readWords f.name (counts.rows f))
      (if f.varLen then s.offsets else none) = .ok y :=
    onPresent_ok fun o ho => by
      obtain ⟨hvar, hpresent⟩ := Option.ite_none_right_eq_some.1 ho
      exact readWords_of_le (hoffsets hvar o hpresent)
  obtain ⟨validity, hvalidityRead⟩ : ∃ y,
      onPresent (fun o => read f.name .validity o (counts.rows f))
        (if f.nullable then s.validity else none) = .ok y :=
    onPresent_ok fun v hv => by
      obtain ⟨hnullable, hpresent⟩ := Option.ite_none_right_eq_some.1 hv
      exact read_of_le (hvalidity hnullable v hpresent)
  refine ⟨⟨f.datatype, f.isDimension, f.nullable, counts.rows f, values, offsets, validity⟩, ?_⟩
  simp only [ofBuffers, bind_eq_ok, pure_eq_ok]
  exact ⟨_, hsize, values, hvaluesRead, offsets, hoffsetsRead, validity, hvalidityRead, rfl⟩

section

variable {f : Field} {st : StoredField} {name : String} {cells : List Cell}
  {s s' : ElementBuffers} {b : FieldBatch} {i : Nat} {c : Cell}

/-- Positions among bytes that a buffer holds are words. -/
theorem offsetsOf_lt {values : ElementBuffer} (h : values.StartsWith (cells.flatMap st.packed)) :
    ∀ n ∈ offsetsOf st cells, n < addressSpace := by
  intro n hn
  obtain ⟨j, hj⟩ := List.mem_iff_getElem?.1 hn
  rw [TiledQuery.offsetsOf_getElem?] at hj
  split at hj
  · cases hj
    exact (flatMap_take_length_le st.packed cells j).trans_lt (length_lt_of_startsWith h)
  · cases hj

theorem bytesAt_ofBuffers_varLen (hvar : f.varLen = true) (hst : st.shape.varLen = true)
    (hoffsets : s.offsets.isSome = true) (hfill : fill name st cells s = .ok s')
    (h : ofBuffers f s' (countsOf st cells s) = .ok b) (hc : cells[i]? = some c) :
    b.bytesAt i = .ok (st.packed c) := by
  obtain ⟨hlayout, hstartOffsets, hstartValues, -⟩ := TiledQuery.fill_spec hfill
  obtain ⟨-, -, hrows, hvalues, hoffs, -⟩ := ofBuffers_eq_ok h
  rw [hvar, if_pos rfl] at hvalues hoffs
  rw [ElementCounts.rows, if_pos hvar, countsOf, if_pos hst] at hrows
  have hpacked : valueBytes st s cells = cells.flatMap st.packed := by
    rw [valueBytes, if_pos hoffsets]
  rw [hpacked] at hstartValues
  have hvals : b.values = cells.flatMap st.packed := by
    refine read_of_startsWith hvalues hstartValues ?_
    rw [countsOf, if_pos hst, hpacked]
  have hsome : s'.offsets.isSome = true := by
    rw [← hoffsets, ← Option.isSome_map, hlayout.offsets, Option.isSome_map]
  obtain ⟨o, ho⟩ := Option.isSome_iff_exists.1 hsome
  have hstart := hstartOffsets o ho
  have hlen := TiledQuery.offsetBytes_length st cells
  have hoffsetWords : b.offsets = some (offsetsOf st cells) := by
    rw [ho] at hoffs
    obtain ⟨ws, hread, hbytes⟩ := map_eq_ok.1 hoffs
    obtain ⟨raw, hraw, rfl⟩ := readWords_eq_ok hread
    rw [← hbytes, read_of_startsWith hraw hstart (by rw [hrows, hlen]),
      words_flatMap (offsetsOf_lt hstartValues)]
  exact bytesAt_of_offsets hoffsetWords hvals hrows hc

theorem bytesAt_ofBuffers_fixed (hvar : f.varLen = false) (hst : st.shape.varLen = false)
    (hoffsets : s.offsets.isSome = false) (hwidth : st.datatype.width = f.datatype.width)
    (hcells : ∀ c ∈ cells, (st.aligned c).length = st.datatype.width)
    (hfill : fill name st cells s = .ok s') (h : ofBuffers f s' (countsOf st cells s) = .ok b)
    (hc : cells[i]? = some c) : b.bytesAt i = .ok (st.aligned c) := by
  obtain ⟨-, -, hstartValues, -⟩ := TiledQuery.fill_spec hfill
  obtain ⟨hdatatype, -, hrows, hvalues, hoffs, -⟩ := ofBuffers_eq_ok h
  rw [hvar, if_neg Bool.false_ne_true] at hvalues hoffs
  rw [ElementCounts.rows, if_neg (by simp [hvar]), countsOf, if_neg (by simp [hst])] at hrows
  have haligned : valueBytes st s cells = cells.flatMap st.aligned := by
    rw [valueBytes, if_neg (by simp [hoffsets])]
  rw [haligned] at hstartValues
  have hlen : (cells.flatMap st.aligned).length = cells.length * f.datatype.width := by
    rw [flatMap_length_of_forall _ hcells, hwidth]
  have hvals : b.values = cells.flatMap st.aligned := by
    refine read_of_startsWith hvalues hstartValues ?_
    rw [hrows, ← hlen]
  refine bytesAt_of_width (by simpa [onPresent, eq_comm] using hoffs) hvals hrows ?_ ?_ hc
  · rw [hdatatype, ← hwidth]
    exact hcells
  · rw [hvals]
    exact length_lt_of_startsWith hstartValues

theorem isNull_ofBuffers (hnull : st.shape.nullable = f.nullable)
    (hvalidity : s.validity.isSome = f.nullable)
    (hcells : ∀ c ∈ cells, st.value? c = none → st.shape.nullable = true)
    (hrows : b.rows = cells.length) (hfill : fill name st cells s = .ok s')
    (h : ofBuffers f s' (countsOf st cells s) = .ok b) (hc : cells[i]? = some c) :
    b.isNull i = (st.value? c).isNone := by
  obtain ⟨hlayout, -, -, hstartValidity⟩ := TiledQuery.fill_spec hfill
  obtain ⟨-, hnullable, -, -, -, hflags⟩ := ofBuffers_eq_ok h
  cases hf : f.nullable with
  | false =>
      rw [isNull, hnullable, hf, Bool.false_and]
      -- a field without validity flags holds no nulls
      cases hv : st.value? c with
      | some v => rfl
      | none =>
          have htrue := hcells c (List.mem_of_getElem? hc) hv
          rw [hnull, hf] at htrue
          cases htrue
  | true =>
      have hsome : s'.validity.isSome = true := by
        rw [← hf, ← hvalidity, ← Option.isSome_map, hlayout.validity, Option.isSome_map]
      obtain ⟨v, hv⟩ := Option.isSome_iff_exists.1 hsome
      rw [if_pos hf, hv] at hflags
      obtain ⟨flags, hread, hflags⟩ := map_eq_ok.1 hflags
      have hall : flags = cells.map st.flag :=
        read_of_startsWith hread (hstartValidity v hv) (by rw [List.length_map, hrows])
      simp only [isNull, hnullable, hf, ← hflags, hall, Option.bind_some, List.getElem?_map, hc,
        Option.map_some, StoredField.flag, Bool.true_and]
      cases st.value? c <;> rfl

end

/-- A stored field is read by `f` when it has the shape of `f` and, unless elements have lengths of
    their own, elements of the same width. -/
structure Decodes (f : Field) (st : StoredField) : Prop where
  shape : st.shape = f.shape
  width : f.varLen = true ∨ st.datatype.width = f.datatype.width

/-- The rows that a submit reports are the cells that it wrote. -/
theorem countsOf_rows {f : Field} {st : StoredField} (hshape : st.shape = f.shape)
    (cells : List Cell) (s : ElementBuffers) :
    (countsOf st cells s).rows f = cells.length := by
  have hvar : st.shape.varLen = f.varLen := by rw [hshape]; rfl
  rw [ElementCounts.rows, countsOf, hvar]
  split <;> rfl

theorem ofBuffers_rows {f : Field} {st : StoredField} {cells : List Cell} {s s' : ElementBuffers}
    {b : FieldBatch} (hshape : st.shape = f.shape)
    (h : ofBuffers f s' (countsOf st cells s) = .ok b) : b.rows = cells.length :=
  (ofBuffers_eq_ok h).2.2.1.trans (countsOf_rows hshape cells s)

/-- Buffers that a submit filled can be read, if as many elements as there are cells fit into the
    value buffer. -/
theorem ofBuffers_of_fill {f : Field} {st : StoredField} {name : String} {cells : List Cell}
    {s s' : ElementBuffers} (hshape : st.shape = f.shape) (hfill : fill name st cells s = .ok s')
    (hvalues : f.varLen = false → cells.length * f.datatype.width ≤ s'.values.size) :
    ∃ b, ofBuffers f s' (countsOf st cells s) = .ok b := by
  have hvar : st.shape.varLen = f.varLen := by rw [hshape]; rfl
  obtain ⟨-, hstartOffsets, hstartValues, hstartValidity⟩ := TiledQuery.fill_spec hfill
  refine ofBuffers_of_le ?_ ?_ ?_ <;> rw [countsOf_rows hshape]
  · split
    · next htrue =>
        rw [countsOf, if_pos (hvar.trans htrue)]
        exact ElementBuffer.length_le_of_startsWith hstartValues
    · next hfalse => exact hvalues (Bool.eq_false_iff.2 hfalse)
  · intro _ o ho
    have hle := ElementBuffer.length_le_of_startsWith (hstartOffsets o ho)
    rwa [TiledQuery.offsetBytes_length] at hle
  · intro _ v hv
    have hle := ElementBuffer.length_le_of_startsWith (hstartValidity v hv)
    rwa [List.length_map] at hle

/-- A batch copied out of buffers that a submit filled shows the cells it wrote. -/
theorem ofBuffers_shows {f : Field} {st : StoredField} {name : String} {cells : List Cell}
    {s s' : ElementBuffers} {b : FieldBatch} (hdec : Decodes f st)
    (hoffsets : s.offsets.isSome = f.varLen) (hvalidity : s.validity.isSome = f.nullable)
    (hcells : ∀ c ∈ cells,
      (∀ v, st.value? c = some v → fitsField st.datatype st.shape.varLen v = true) ∧
        (st.value? c = none → st.shape.nullable = true))
    (hfill : fill name st cells s = .ok s')
    (h : ofBuffers f s' (countsOf st cells s) = .ok b) : b.Shows st cells := by
  obtain ⟨hshape, hwidth⟩ := hdec
  have hvar : st.shape.varLen = f.varLen := by rw [hshape]; rfl
  have hnull : st.shape.nullable = f.nullable := by rw [hshape]; rfl
  have hrows := ofBuffers_rows hshape h
  refine ⟨hrows, fun i c hc => ?_, fun i c hc =>
    isNull_ofBuffers hnull hvalidity (fun c hc => (hcells c hc).2) hrows hfill h hc⟩
  unfold StoredField.shown
  split
  · next hst =>
      rw [hst] at hvar
      exact bytesAt_ofBuffers_varLen hvar.symm hst (hoffsets.trans hvar.symm) hfill h hc
  · next hst =>
      rw [Bool.not_eq_true] at hst
      rw [hst] at hvar
      refine bytesAt_ofBuffers_fixed hvar.symm hst (hoffsets.trans hvar.symm) ?_
        (fun c hc => st.aligned_length (hcells c hc).1 hst) hfill h hc
      exact hwidth.resolve_left (by simp [← hvar])

/-! ## Failures of accessors -/

section

variable {b : FieldBatch} {row : Nat} {e : ScanError}

/-- An accessor fails as the bytes of the row do, or on a value that it does not read. -/
theorem stored_eq_error (h : b.stored row = .error e) :
    b.bytesAt row = .error e ∨ ∃ v, e = .value v := by
  unfold stored at h
  split at h
  · next he =>
      cases h
      exact Or.inl he
  · obtain ⟨v, -, rfl⟩ := mapError_eq_error.1 h
    exact Or.inr ⟨v, rfl⟩

theorem long_eq_error (h : b.long row = .error e) :
    b.bytesAt row = .error e ∨ ∃ v, e = .value v := by
  unfold long at h
  split at h
  any_goals
    cases h
    exact Or.inr ⟨_, rfl⟩
  · split at h
    · next he =>
        cases h
        exact stored_eq_error he
    · cases h
    · cases h
      exact Or.inr ⟨_, rfl⟩
  · split at h
    · next he =>
        cases h
        exact stored_eq_error he
    · split at h
      · cases h
        exact Or.inr ⟨_, rfl⟩
      · obtain ⟨v, -, rfl⟩ := mapError_eq_error.1 h
        exact Or.inr ⟨v, rfl⟩
  · split at h
    · next he =>
        cases h
        exact stored_eq_error he
    · obtain ⟨v, -, rfl⟩ := mapError_eq_error.1 h
      exact Or.inr ⟨v, rfl⟩

theorem double_eq_error (h : b.double row = .error e) :
    b.bytesAt row = .error e ∨ ∃ v, e = .value v := by
  unfold double at h
  split at h
  · split at h
    · next he =>
        cases h
        exact stored_eq_error he
    · obtain ⟨v, -, rfl⟩ := mapError_eq_error.1 h
      exact Or.inr ⟨v, rfl⟩
  · cases h
    exact Or.inr ⟨_, rfl⟩

theorem boolean_eq_error (h : b.boolean row = .error e) :
    b.bytesAt row = .error e ∨ ∃ v, e = .value v := by
  unfold boolean at h
  split at h
  · cases h
  · split at h
    · cases h
      exact Or.inr ⟨_, rfl⟩
    · split at h
      · next he =>
          cases h
          exact stored_eq_error he
      · split at h
        · cases h
          exact Or.inr ⟨_, rfl⟩
        · cases h

end

end FieldBatch

end SparseScan
