import SparseScan.Proofs.Buffer.Allocator
import SparseScan.Proofs.Scan.Batch

set_option autoImplicit false

/-! # What backs a batch

A batch is copied out of buffers as far as the reported counts say. It is accepted exactly when the
buffers hold all of it, and is otherwise refused, unless a size that is computed on the way is not a
word (`Overflows`): that ends the run. An accepted batch can be read at every row, with one
exception: rows of elements with lengths of their own, but without offsets, are as wide as one
element, and the end of such a row may not be a word (`Outruns`). All this is
`ofBuffers_backed_iff`. -/

namespace SparseScan

/-- The offset buffer, if it is used. -/
def ElementBuffers.usedOffsets (s : ElementBuffers) (f : Field) : Option ElementBuffer :=
  if f.varLen then s.offsets else none

/-- The validity buffer, if it is used. -/
def ElementBuffers.usedValidity (s : ElementBuffers) (f : Field) : Option ElementBuffer :=
  if f.nullable then s.validity else none

/-- The buffers hold all that is reported of a field, sizes being exact. -/
structure ElementBuffers.Backs (s : ElementBuffers) (f : Field) (counts : ElementCounts) :
    Prop where
  values : (if f.varLen then counts.values else counts.rows f * f.datatype.width) ≤ s.values.size
  offsets : ∀ o, s.usedOffsets f = some o → counts.rows f * offsetBytes ≤ o.size
  validity : ∀ v, s.usedValidity f = some v → counts.rows f ≤ v.size

/-- A buffer does not hold what is reported of a field. -/
def ElementBuffers.Lacks (s : ElementBuffers) (f : Field) (counts : ElementCounts) :
    BufferRole → Prop
  | .values =>
      s.values.size < if f.varLen then counts.values else counts.rows f * f.datatype.width
  | .offsets => ∃ o, s.usedOffsets f = some o ∧ o.size < counts.rows f * offsetBytes
  | .validity => ∃ v, s.usedValidity f = some v ∧ v.size < counts.rows f

/-- A size that is computed of the rows is not a word: that of values of one length or, once the
    values are there, that of offsets. -/
def ElementBuffers.Overflows (s : ElementBuffers) (f : Field) (counts : ElementCounts) : Prop :=
  f.varLen = false ∧ addressSpace ≤ counts.rows f * f.datatype.width ∨
    (s.usedOffsets f).isSome = true ∧ counts.values ≤ s.values.size ∧
      addressSpace ≤ counts.rows f * offsetBytes

/-- A row is as wide as one element although elements have lengths of their own, and its end is not
    a word. -/
structure ElementBuffers.Outruns (s : ElementBuffers) (f : Field) (row : Nat) : Prop where
  varLen : f.varLen = true
  offsets : s.offsets = none
  overflows : addressSpace ≤ (row + 1) * f.datatype.width

/-- There is an answer, be it a value or an error. -/
def Returns {α : Type} (answer : Except ScanError α) : Prop :=
  ∀ e, answer = .error e → e.aborts = false

namespace FieldBatch

/-- Every accessor answers for a row, whether there is such a row or not. -/
structure Answers (b : FieldBatch) (row : Nat) : Prop where
  bytesAt : Returns (b.bytesAt row)
  long : Returns (b.long row)
  double : Returns (b.double row)
  boolean : Returns (b.boolean row)

/-! ## Reading rows -/

section

variable {b : FieldBatch} {row : Nat}

theorem returns_of_le (hrow : b.rows ≤ row) : Returns (b.bytesAt row) := by
  rw [bytesAt, if_pos hrow]
  rintro _ ⟨⟩
  rfl

/-- What is wrong with a span that is there is an error. -/
theorem returns_of_span {first last : Nat} (hspan : b.span row = .ok (first, last)) :
    Returns (b.bytesAt row) := by
  intro e he
  rw [bytesAt, hspan] at he
  simp only at he
  split at he
  · cases he
    rfl
  · split at he
    · cases he
    · cases he
      rfl

/-- What fails as the bytes of a row do, or on a value, answers if they do. -/
theorem returns_of_bytesAt {α : Type} {answer : Except ScanError α} (h : Returns (b.bytesAt row))
    (hfails : ∀ e, answer = .error e → b.bytesAt row = .error e ∨ ∃ v, e = .value v) :
    Returns answer := by
  intro e he
  rcases hfails e he with hbytes | ⟨v, rfl⟩
  · exact h e hbytes
  · rfl

theorem answers_of_bytesAt (h : Returns (b.bytesAt row)) : b.Answers row where
  bytesAt := h
  long := returns_of_bytesAt h fun _ => long_eq_error
  double := returns_of_bytesAt h fun _ => double_eq_error
  boolean := returns_of_bytesAt h fun _ => boolean_eq_error

/-- With an offset for it a row has a span. -/
theorem span_of_offsets {offsets : List Nat} (hoffsets : b.offsets = some offsets)
    (hrow : row < offsets.length) : ∃ first last, b.span row = .ok (first, last) := by
  rcases Nat.eq_zero_or_pos row with rfl | hpos
  · simp [span, hoffsets]
  · simp [span, hoffsets, hpos.ne', List.getElem?_eq_getElem hrow]

/-- Without offsets a row whose end is not a word ends the run. -/
theorem bytesAt_overflow (hoffsets : b.offsets = none) (hrow : row < b.rows)
    (hoverflow : addressSpace ≤ (row + 1) * b.datatype.width) :
    ∃ count, b.bytesAt row = .error (.storage (.abort (.sizeOverflow count b.datatype.width))) := by
  by_cases hfirst : row * b.datatype.width < addressSpace
  · refine ⟨row + 1, ?_⟩
    simp [bytesAt, span, hoffsets, byteSize, Nat.not_le.2 hrow, hfirst, Nat.not_lt.2 hoverflow,
      bind, Except.bind]
  · refine ⟨row, ?_⟩
    simp [bytesAt, span, hoffsets, byteSize, Nat.not_le.2 hrow, hfirst, bind, Except.bind]

/-- Without offsets a row has the bytes of one element, if the values go so far. -/
theorem bytesAt_width (hoffsets : b.offsets = none) (hrow : row < b.rows)
    (hsize : b.values.length < addressSpace)
    (hle : (row + 1) * b.datatype.width ≤ b.values.length) :
    ∃ bytes, b.bytesAt row = .ok bytes ∧ bytes.length = b.datatype.width := by
  rw [bytesAt, if_neg (by omega), span_of_width hoffsets (hle.trans_lt hsize)]
  simp only
  rw [Nat.succ_mul] at hle ⊢
  rw [if_pos (by omega)]
  refine ⟨_, rfl, ?_⟩
  rw [List.length_take, List.length_drop]
  omega

end

/-! ## What is refused -/

section

variable {f : Field} {s : ElementBuffers} {counts : ElementCounts} {b : FieldBatch}
  {e : ArrayError}

theorem byteSize_eq_error {count width : Nat} : byteSize count width = .error e ↔
    e = .abort (.sizeOverflow count width) ∧ addressSpace ≤ count * width := by
  unfold byteSize
  split
  · next hlt => simp [hlt]
  · next hge => simp [Nat.not_lt.1 hge, eq_comm]

theorem read_eq_error {name : String} {role : BufferRole} {b : ElementBuffer} {n : Nat} :
    read name role b n = .error e ↔ e = .overrun name role ∧ b.size < n := by
  unfold read ElementBuffer.take?
  by_cases hle : n ≤ b.size
  · simp [hle, Nat.not_lt.2 hle]
  · simp [hle, Nat.not_le.1 hle, eq_comm]

theorem words_length (bytes : List UInt8) : (words bytes).length = bytes.length / offsetBytes := by
  simp [words]

/-- Offsets that have been read are in the buffer, one for each row. -/
theorem offsets_of_readWords {name : String} {rows : Nat} {used : Option ElementBuffer}
    {o : ElementBuffer} {offsets : Option (List Nat)}
    (h : onPresent (readWords name rows) used = .ok offsets) (hused : used = some o) :
    rows * offsetBytes ≤ o.size ∧ ∃ ws, offsets = some ws ∧ ws.length = rows := by
  subst hused
  obtain ⟨ws, hwords, hsome⟩ := map_eq_ok.1 h
  obtain ⟨bytes, hread, rfl⟩ := readWords_eq_ok hwords
  obtain ⟨hle, hlen, -⟩ := read_eq_take hread
  refine ⟨hle, _, hsome.symm, ?_⟩
  rw [words_length, hlen, Nat.mul_div_cancel _ (by decide)]

/-- Sizes that have been computed are words. -/
theorem not_overflows {size : Nat} (hsize : valueSize f counts = .ok size)
    (hoffsets : ∀ o, s.usedOffsets f = some o → counts.values ≤ s.values.size →
      counts.rows f * offsetBytes < addressSpace) : ¬ s.Overflows f counts := by
  rintro (⟨hfixed, hoverflow⟩ | ⟨hused, hvalues, hoverflow⟩)
  · exact absurd ((valueSize_eq_ok.1 hsize).1 hfixed) (Nat.not_lt.2 hoverflow)
  · obtain ⟨o, ho⟩ := Option.isSome_iff_exists.1 hused
    exact absurd (hoffsets o ho hvalues) (Nat.not_lt.2 hoverflow)

/-- Sizes that are words and are not there are refused. -/
theorem ofBuffers_eq_error (h : ofBuffers f s counts = .error e) :
    s.Overflows f counts ∧ (∃ count width, e = .abort (.sizeOverflow count width)) ∨
      ¬ s.Overflows f counts ∧ ∃ role, e = .overrun f.name role ∧ s.Lacks f counts role := by
  have hvar : ∀ {o}, s.usedOffsets f = some o → f.varLen = true := fun ho =>
    (Option.ite_none_right_eq_some.1 ho).1
  simp only [ofBuffers, bind_eq_error, pure, Except.pure, reduceCtorEq, and_false, exists_false,
    or_false] at h
  rcases h with hsize | ⟨size, hsize, hvalues | ⟨values, hvalues, hoffsets |
    ⟨offsets, hoffsets, hvalidity⟩⟩⟩
  · -- the size of the values
    unfold valueSize at hsize
    split at hsize
    · cases hsize
    · next hfixed =>
        obtain ⟨rfl, hoverflow⟩ := byteSize_eq_error.1 hsize
        exact Or.inl ⟨Or.inl ⟨Bool.eq_false_iff.2 hfixed, hoverflow⟩, _, _, rfl⟩
  · obtain ⟨rfl, hlt⟩ := read_eq_error.1 hvalues
    rw [(valueSize_eq_ok.1 hsize).2] at hlt
    refine Or.inr ⟨not_overflows hsize fun o ho hle => ?_, .values, rfl, hlt⟩
    rw [if_pos (hvar ho)] at hlt
    exact absurd hle (Nat.not_le.2 hlt)
  · obtain ⟨o, ho, hwords⟩ := onPresent_eq_error hoffsets
    simp only [readWords, bind_eq_error, byteSize_eq_error, byteSize_eq_ok, pure, Except.pure,
      reduceCtorEq, and_false, exists_false, or_false] at hwords
    have hle := (read_eq_take hvalues).1
    rw [(valueSize_eq_ok.1 hsize).2, if_pos (hvar ho)] at hle
    rcases hwords with ⟨rfl, hoverflow⟩ | ⟨_, ⟨hword, rfl⟩, hread⟩
    · -- the size of the offsets
      exact Or.inl ⟨Or.inr ⟨by rw [ElementBuffers.usedOffsets, ho]; rfl, hle, hoverflow⟩, _, _, rfl⟩
    · obtain ⟨rfl, hlt⟩ := read_eq_error.1 hread
      exact Or.inr ⟨not_overflows hsize fun _ _ _ => hword, .offsets, rfl, o, ho, hlt⟩
  · obtain ⟨v, hv, hread⟩ := onPresent_eq_error hvalidity
    obtain ⟨rfl, hlt⟩ := read_eq_error.1 hread
    refine Or.inr ⟨not_overflows hsize fun o ho _ => ?_, .validity, rfl, v, hv, hlt⟩
    exact (offsets_of_readWords hoffsets ho).1.trans_lt o.size_lt_addressSpace

/-- What the buffers do not hold is not accepted, and all else is. -/
theorem ok_iff_backs : (∃ b, ofBuffers f s counts = .ok b) ↔ s.Backs f counts := by
  constructor
  · rintro ⟨b, h⟩
    obtain ⟨-, -, hrows, hvalues, hoffsets, hvalidity⟩ := ofBuffers_eq_ok h
    rw [hrows] at hvalues hoffsets hvalidity
    refine ⟨(read_eq_take hvalues).1, fun o ho => (offsets_of_readWords hoffsets ho).1, ?_⟩
    intro v hv
    rw [show (if f.nullable then s.validity else none) = some v from hv] at hvalidity
    obtain ⟨flags, hread, -⟩ := map_eq_ok.1 hvalidity
    exact (read_eq_take hread).1
  · intro h
    refine ofBuffers_of_le h.values (fun hvar o ho => ?_) fun hnullable v hv => ?_
    · exact h.offsets o (by rw [ElementBuffers.usedOffsets, if_pos hvar, ho])
    · exact h.validity v (by rw [ElementBuffers.usedValidity, if_pos hnullable, hv])

/-! ## What is accepted -/

/-- What is copied of a field that has been accepted, by size. -/
structure Copied (b : FieldBatch) (f : Field) (s : ElementBuffers) (counts : ElementCounts) :
    Prop where
  datatype : b.datatype = f.datatype
  rows : b.rows = counts.rows f
  values : b.values.length =
    if f.varLen then counts.values else counts.rows f * f.datatype.width
  values_lt : b.values.length < addressSpace
  offsets : b.offsets.map List.length = (s.usedOffsets f).map fun _ => b.rows

theorem copied_of_ok (h : ofBuffers f s counts = .ok b) : b.Copied f s counts := by
  obtain ⟨hdatatype, -, hrows, hvalues, hoffsets, -⟩ := ofBuffers_eq_ok h
  obtain ⟨hle, hlen, -⟩ := read_eq_take hvalues
  refine ⟨hdatatype, hrows, hrows ▸ hlen, ?_, ?_⟩
  · exact (hlen ▸ hle).trans_lt s.values.size_lt_addressSpace
  · rcases onPresent_eq_ok.1 hoffsets with ⟨hused, hnone⟩ | ⟨o, -, hused, -, -⟩
    · rw [ElementBuffers.usedOffsets, hused, hnone]
      rfl
    · obtain ⟨-, ws, hsome, hlen⟩ := offsets_of_readWords hoffsets hused
      rw [ElementBuffers.usedOffsets, hused, hsome, Option.map_some, Option.map_some, hlen]

namespace Copied

variable (h : b.Copied f s counts) {row : Nat}

include h

theorem offsets_none (hunused : s.usedOffsets f = none) : b.offsets = none := by
  rw [← Option.map_eq_none_iff, h.offsets, hunused]
  rfl

/-- A row of a fixed-length field has the bytes of one element. -/
theorem bytesAt_fixed (hfixed : f.varLen = false) (hrow : row < b.rows) :
    ∃ bytes, b.bytesAt row = .ok bytes ∧ bytes.length = f.datatype.width := by
  have hunused : s.usedOffsets f = none := if_neg (by simp [hfixed])
  have hlen := h.values
  rw [if_neg (by simp [hfixed]), ← h.rows] at hlen
  rw [← h.datatype] at hlen ⊢
  refine bytesAt_width (h.offsets_none hunused) hrow h.values_lt ?_
  rw [hlen]
  exact Nat.mul_le_mul_right _ hrow

/-- A row whose end is not a word ends the run. -/
theorem bytesAt_outruns (hrow : row < b.rows) (houtruns : s.Outruns f row) :
    ∃ count, b.bytesAt row = .error (.storage (.abort (.sizeOverflow count f.datatype.width))) := by
  have hunused : s.usedOffsets f = none := by
    rw [ElementBuffers.usedOffsets, if_pos houtruns.varLen, houtruns.offsets]
  rw [← h.datatype]
  refine bytesAt_overflow (h.offsets_none hunused) hrow ?_
  rw [h.datatype]
  exact houtruns.overflows

/-- Any other row can be read: it has an offset, or its end is a word. -/
theorem answers (hrow : ¬ (row < b.rows ∧ s.Outruns f row)) : b.Answers row := by
  refine answers_of_bytesAt ?_
  rcases Nat.lt_or_ge row b.rows with hlt | hge
  · cases hused : s.usedOffsets f with
    | some o =>
        have hcount := h.offsets
        rw [hused, Option.map_some] at hcount
        obtain ⟨offsets, hsome, hlen⟩ := Option.map_eq_some_iff.1 hcount
        obtain ⟨first, last, hspan⟩ := span_of_offsets hsome (hlen ▸ hlt)
        exact returns_of_span hspan
    | none =>
        cases hvar : f.varLen with
        | false =>
            obtain ⟨bytes, hok, -⟩ := h.bytesAt_fixed hvar hlt
            rw [hok]
            rintro _ ⟨⟩
        | true =>
            rw [ElementBuffers.usedOffsets, if_pos hvar] at hused
            refine returns_of_span (span_of_width (h.offsets_none ?_) ?_)
            · rw [ElementBuffers.usedOffsets, if_pos hvar, hused]
            · rw [h.datatype]
              exact Nat.not_le.1 fun hge => hrow ⟨hlt, hvar, hused, hge⟩
  · exact returns_of_le hge

end Copied

/-- A batch is accepted just if the buffers back it, and then it has the rows that were reported.
    What is not accepted is refused for what a buffer lacks, unless a size that is computed on the
    way is not a word, which ends the run. Every row of an accepted batch, and every one behind it,
    has an answer; for a fixed-length field these are the bytes of one element. The exception are
    rows of elements with lengths of their own, but without offsets: reading such a row ends the run
    if its end is not a word. -/
theorem ofBuffers_backed_iff (f : Field) (s : ElementBuffers) (counts : ElementCounts) :
    ((∃ b, ofBuffers f s counts = .ok b) ↔ s.Backs f counts) ∧
    (∀ e, ofBuffers f s counts = .error e →
      s.Overflows f counts ∧ (∃ count width, e = .abort (.sizeOverflow count width)) ∨
        ¬ s.Overflows f counts ∧ ∃ role, e = .overrun f.name role ∧ s.Lacks f counts role) ∧
    ∀ b, ofBuffers f s counts = .ok b →
      b.rows = counts.rows f ∧
      (f.varLen = false → ∀ row < b.rows, ∃ bytes,
        b.bytesAt row = .ok bytes ∧ bytes.length = f.datatype.width) ∧
      ∀ row,
        (¬ (row < b.rows ∧ s.Outruns f row) → b.Answers row) ∧
        (row < b.rows → s.Outruns f row → ∃ count, b.bytesAt row =
          .error (.storage (.abort (.sizeOverflow count f.datatype.width)))) := by
  refine ⟨ok_iff_backs, fun e => ofBuffers_eq_error, fun b hok => ?_⟩
  have h := copied_of_ok hok
  refine ⟨h.rows, fun hfixed row => h.bytesAt_fixed hfixed, fun row => ?_⟩
  exact ⟨h.answers, h.bytesAt_outruns⟩

end

/-! ## Counts that no memory backs -/

/-- A field of integers with eight bytes each. -/
def countsField : Field := ⟨0, "n", .int64, false, false, .bigInt, .ofAttribute⟩

/-- The elements of three integers. -/
def threeElements : ElementBuffers :=
  ⟨none, { width := 8, capacity := 3, size_lt := by decide }, none⟩

/-- Three elements back as many rows. They are refused for as many rows as have a size, and end the
    run for one more. -/
theorem ofBuffers_threeElements :
    (∃ b, ofBuffers countsField threeElements ⟨0, 3⟩ = .ok b ∧ b.rows = 3 ∧
      ∀ row, b.Answers row) ∧
      ofBuffers countsField threeElements ⟨0, 2 ^ 61 - 1⟩ = .error (.overrun "n" .values) ∧
      ofBuffers countsField threeElements ⟨0, 2 ^ 61⟩ =
        .error (.abort (.sizeOverflow (2 ^ 61) 8)) := by
  obtain ⟨hok, -, hbatch⟩ := ofBuffers_backed_iff countsField threeElements ⟨0, 3⟩
  obtain ⟨b, hb⟩ := hok.2 ⟨by decide, nofun, nofun⟩
  obtain ⟨hrows, -, hanswers⟩ := hbatch b hb
  refine ⟨⟨b, hb, hrows, fun row => (hanswers row).1 fun h => ?_⟩, by decide, by decide⟩
  exact Bool.noConfusion h.2.varLen

/-- A field of lists of integers. -/
def listsField : Field := ⟨0, "n", .int64, true, false, .bigInt, .ofAttribute⟩

/-- Room for no integers, and no offsets. -/
def noElements : ElementBuffers :=
  ⟨none, { width := 8, capacity := 0, size_lt := by decide }, none⟩

/-- Without offsets any number of rows without bytes is accepted. The last of these has no answer,
    not even an error. -/
theorem ofBuffers_noElements : ∃ b, ofBuffers listsField noElements ⟨2 ^ 61, 0⟩ = .ok b ∧
    b.rows = 2 ^ 61 ∧
    b.bytesAt (2 ^ 61 - 1) = .error (.storage (.abort (.sizeOverflow (2 ^ 61) 8))) :=
  ⟨⟨.int64, false, false, 2 ^ 61, [], none, none⟩, rfl, rfl, rfl⟩

end FieldBatch

end SparseScan
