import SparseScan.Proofs.Constraint.Patterns
import SparseScan.Proofs.Constraint.Returned
import SparseScan.Proofs.Scan.RoundTrip

set_option autoImplicit false

/-! # Looking up a coordinate by its returned value

A row shows the coordinate of a dimension as a literal of the column's own type. Datetimes apart, an
equality with that literal has exactly the coordinate as its hull (`hull_of_literal`), in all
datatypes: an integer travels as a long, which for the upper half of the unsigned 64-bit integers is
their bit pattern, and a single-precision number as its bit pattern, signed zeros and NaN payloads
included (`unpackReal?_eq_some_iff`). -/

namespace SparseScan

-- powers in the sense of the core library, whatever else is imported
attribute [local instance (high)] instPowNat

/-! ## Single precision in a long -/

theorem realPattern_bounds (x : Binary .single) :
    -2 ^ 31 ≤ realPattern x ∧ realPattern x < 2 ^ 31 := by
  have hmagnitude : x.magnitude.val < 2 ^ 31 := x.magnitude.isLt
  have hbits : x.toBits = (if x.negative then 2 ^ 31 else 0) + x.magnitude.val := rfl
  unfold realPattern
  rw [hbits]
  split <;> omega

/-- The pattern of a number in a long is its bit pattern, whatever the sign. -/
theorem realPattern_emod (x : Binary .single) : realPattern x % 2 ^ 32 = x.toBits := by
  have hlt : x.toBits < 2 ^ 32 := x.toBits_lt
  unfold realPattern
  split <;> omega

/-- A long carries a single-precision number exactly when it is the pattern of that number, so the
    number arrives bit for bit. -/
theorem unpackReal?_eq_some_iff {x : Binary .single} {n : Long} :
    unpackReal? n = some x ↔ packReal x = n := by
  constructor
  · intro h
    unfold unpackReal? at h
    split at h
    · next hbounds =>
        obtain rfl := Option.some.inj h
        have hbits := realPattern_emod (Binary.ofBits (n.val % 2 ^ 32).toNat)
        have hbounds' := realPattern_bounds (Binary.ofBits (n.val % 2 ^ 32).toNat)
        have hlt : (n.val % 2 ^ 32).toNat < 2 ^ (FloatFormat.single.magnitudeBits + 1) := by
          have hwidth : FloatFormat.single.magnitudeBits + 1 = 32 := rfl
          rw [hwidth]
          omega
        rw [Binary.toBits_ofBits hlt] at hbits
        refine Subtype.ext ?_
        simp only [packReal]
        omega
    · cases h
  · rintro rfl
    have hbounds := realPattern_bounds x
    have hbits := realPattern_emod x
    have hval : (packReal x).val = realPattern x := rfl
    rw [unpackReal?, hval, if_pos hbounds, hbits, Int.toNat_natCast, Binary.ofBits_toBits]

/-! ## Returned literals -/

/-- The long with a two's complement pattern. -/
def longOfPattern (pattern : Nat) : Long :=
  ⟨IntKind.int64.ofPattern pattern, IntKind.int64.ofPattern_holds pattern⟩

/-- The literal that a value travels as: integers as longs and single-precision numbers as their bit
    pattern in one. -/
def StoredValue.literal : StoredValue → Literal
  | int _ n => .long (longOfPattern (n.val % IntKind.int64.size).toNat)
  | float .single x => .long (packReal x)
  | float .double x => .double x
  | text bytes => .bytes bytes

/-- The value of a row as a reader asks for it: as a double in a column of doubles, as bytes in a
    column of text, and as a long in every other column. -/
def FieldBatch.literal (b : FieldBatch) (row : Nat) : Except ScanError Literal :=
  match b.datatype.form with
  | .int _ | .float .single => (b.long row).map .long
  | .float .double => (b.double row).map .double
  | .text => (b.bytesAt row).map .bytes

theorem Datatype.eq_float32 {d : Datatype} (h : d.form = .float .single) : d = .float32 := by
  cases d <;> simp_all [Datatype.form]

theorem Datatype.eq_float64 {d : Datatype} (h : d.form = .float .double) : d = .float64 := by
  cases d <;> simp_all [Datatype.form]

/-- Columns of integers are read as longs, as they are stored. -/
theorem FieldBatch.long_of_stored {b : FieldBatch} {row : Nat} {k : IntKind} {v : StoredValue}
    (hd : ∀ unit, b.datatype ≠ .dateTime unit) (hform : b.datatype.form = .int k)
    (hstored : b.stored row = .ok v) : b.long row = v.toLong.mapError .value := by
  unfold long
  split <;> simp_all [Datatype.form]

/-- A row that shows a value returns its literal. -/
theorem FieldBatch.literal_of_bytesAt {b : FieldBatch} {row : Nat} {c : StoredValue}
    (hd : ∀ unit, b.datatype ≠ .dateTime unit) (hc : c.hasType b.datatype = true)
    (hrow : b.bytesAt row = .ok c.encode) : b.literal row = .ok c.literal := by
  have hstored := stored_of_bytesAt hrow hc
  have hform : b.datatype.form = c.form := by
    rw [StoredValue.hasType, beq_iff_eq] at hc
    exact hc.symm
  rcases c with ⟨k, n⟩ | ⟨_ | _, x⟩ | bytes
  · simp only [literal, hform, StoredValue.form, long_of_stored hd hform hstored]
    rfl
  · simp only [literal, long, Datatype.eq_float32 hform, hstored]
    rfl
  · simp only [literal, double, Datatype.eq_float64 hform, hstored]
    rfl
  · simp only [literal, hform, StoredValue.form, hrow]
    rfl

/-! ## Back to stored values -/

section

variable {d : Dimension} {t : ColumnType} {c : StoredValue} {l : Literal}
  {populated : StoredValue × StoredValue}

theorem Datatype.columnType_ne_real {k : IntKind} {d : Datatype} (h : d.form = .int k) :
    d.columnType ≠ .real := by
  intro hreal
  cases d with
  | dateTime unit => cases unit <;> cases hreal
  | float32 => cases h
  | _ => cases hreal

theorem storedEnd_of_ofLiteral {d : Dimension} (hd : ∀ unit, d.datatype ≠ .dateTime unit)
    (h : StoredValue.ofLiteral d.datatype t l = .ok c) (rounding : Rounding) :
    d.storedEnd t l rounding = .ok c := by
  simp only [Dimension.storedEnd, h]
  split
  · next unit n hunit => exact absurd hunit (hd unit)
  · rfl

namespace StoredValue

/-- A long is the integer of a range of longs that it was read from. -/
theorem ofLiteral_int_literal {d : Datatype} {k : IntKind} (hd : d.form = .int k)
    (hk : k ≠ .uint64) (n : k.Value) :
    ofLiteral d d.columnType (int k n).literal = .ok (int k n) := by
  obtain ⟨m, hm, hval⟩ := toLong_int hk n
  have hlong : (int k n).literal = .long m := congrArg Literal.long (Except.ok.inj hm)
  have hfits : k.ofInt? m.val = some n := IntKind.ofInt?_eq_some_iff.2 hval.symm
  simp only [ofLiteral, hd, hlong, Number.ofLiteral, Datatype.columnType_ne_real hd, if_false,
    toInteger, hk, false_and, fitInteger, hfits]

/-- A long is the unsigned 64-bit integer that it is the pattern of. -/
theorem ofLiteral_count_literal (n : IntKind.uint64.Value) :
    ofLiteral .uint64 .bigInt (int .uint64 n).literal = .ok (int .uint64 n) := by
  let column : Dimension := ⟨"", .uint64, false⟩
  obtain ⟨m, hm⟩ : ∃ m, (int .uint64 n).toLong = .ok m := ⟨_, rfl⟩
  have hlong : (int .uint64 n).literal = .long m := congrArg Literal.long (Except.ok.inj hm)
  have hend : column.storedEnd .bigInt (.long m) .up =
      .ok (.int .uint64 ⟨patternCount m, patternCount_holds m⟩) := storedEnd_long rfl m .up
  have hcount : (⟨patternCount m, patternCount_holds m⟩ : IntKind.uint64.Value) = n :=
    Subtype.ext (patternCount_of_toLong hm)
  rw [hcount] at hend
  rw [hlong]
  exact storedEnd_of_not_dateTime (by rintro unit ⟨⟩) hend

theorem ofLiteral_single_literal {x : Binary .single} (hx : x.isNaN = false) :
    ofLiteral .float32 .real (float .single x).literal = .ok (float .single x) := by
  have hunpack : unpackReal? (packReal x) = some x := unpackReal?_eq_some_iff.2 rfl
  simp only [literal, ofLiteral, Datatype.form, Number.ofLiteral, if_true, hunpack, toFloat,
    (Binary.convert_double hx).2]

/-- The literal of a value becomes the value again in a column of the datatype's own type. -/
theorem ofLiteral_literal {d : Datatype} (hc : c.Ordered d.form) :
    ofLiteral d d.columnType c.literal = .ok c := by
  rcases hform : d.form with k | f | _
  · rw [hform] at hc
    obtain ⟨n, rfl⟩ := exists_int hc
    by_cases hk : k = .uint64
    · subst hk
      obtain rfl := Datatype.eq_uint64 hform
      exact ofLiteral_count_literal n
    · exact ofLiteral_int_literal hform hk n
  · rw [hform] at hc
    obtain ⟨x, rfl, hx⟩ := exists_float hc
    cases f with
    | single =>
        obtain rfl := Datatype.eq_float32 hform
        exact ofLiteral_single_literal hx
    | double =>
        simp only [ofLiteral, hform, literal, Number.ofLiteral, toFloat]
  · rw [hform] at hc
    obtain ⟨bytes, rfl⟩ := exists_text hc
    simp only [ofLiteral, hform, literal]

end StoredValue

/-- An interval of one literal is one stored value if the literal becomes that value however it is
    rounded. -/
theorem storedEnds_point_of_storedEnd (h : ∀ rounding, d.storedEnd t l rounding = .ok c) :
    (Interval.point l).storedEnds d t = .ok (some c, some c) := by
  have hlow : d.lowEnd t (.on l) = .ok (some c) := by
    simp only [Dimension.lowEnd, Endpoint.on, h, Except.map]
  have hhigh : d.highEnd t (.on l) = .ok (some c) := by
    simp only [Dimension.highEnd, Endpoint.on, h, Except.map]
  have hend : (if (Interval.point l).isPoint then (Interval.point l).low
      else (Interval.point l).high) = .on l := by split <;> rfl
  simp only [Interval.storedEnds, hend, hhigh]
  rw [show (Interval.point l).low = .on l from rfl, hlow]

/-- The hull of an equality with the literal that a row returns is the coordinate that the row
    shows. In a column of single precision the literal carries the coordinate bit for bit, and would
    do so for any other bit pattern. -/
theorem hull_of_literal {b : FieldBatch} {row : Nat} (hd : ∀ unit, d.datatype ≠ .dateTime unit)
    (hb : b.datatype = d.datatype) (hc : c.Ordered d.datatype.form)
    (hrow : b.bytesAt row = .ok c.encode) (populated : StoredValue × StoredValue) :
    (∃ l, b.literal row = .ok l ∧
        d.hull (some ⟨d.datatype.columnType, .intervals [.point l]⟩) populated =
          .ok (some (c, c))) ∧
      ∀ (x : Binary .single) (n : Long), unpackReal? n = some x ↔ packReal x = n := by
  refine ⟨⟨c.literal, ?_, ?_⟩, fun x n => unpackReal?_eq_some_iff⟩
  · refine FieldBatch.literal_of_bytesAt (hb ▸ hd) ?_ hrow
    rw [hb, StoredValue.hasType, hc.form, beq_self_eq_true]
  · have hself : c.atMost c = true := (StoredValue.atMost_iff hc hc).2 le_rfl
    refine hull_of_storedEnds (storedEnds_point_of_storedEnd ?_)
      (crossed_eq_false ((reachesDown_some _ _).2 hself) ((reachesUp_some _ _).2 hself))
    exact storedEnd_of_ofLiteral hd (StoredValue.ofLiteral_literal hc)

/-- The counts three and 2 ^ 64 - 1 in a column. -/
def countColumn : FieldBatch :=
  ⟨.uint64, true, false, 2, [3, 0, 0, 0, 0, 0, 0, 0, 255, 255, 255, 255, 255, 255, 255, 255],
    none, none⟩

/-- The greatest count is returned as minus one, which is looked up as the greatest count. -/
theorem hull_of_literal_count :
    countColumn.literal 1 = .ok (.long ⟨-1, by decide⟩) ∧
      (⟨"k", .uint64, false⟩ : Dimension).hull
          (some ⟨.bigInt, .intervals [.point (.long ⟨-1, by decide⟩)]⟩)
          (.int .uint64 ⟨3, by decide⟩, .int .uint64 ⟨2 ^ 64 - 1, by decide⟩) =
        .ok (some (.int .uint64 ⟨2 ^ 64 - 1, by decide⟩, .int .uint64 ⟨2 ^ 64 - 1, by decide⟩)) ∧
      unpackReal? ⟨-2 ^ 31, by decide⟩ = some (.ofBits 0x80000000) := by
  have hrow : countColumn.bytesAt 1 =
      .ok (StoredValue.int .uint64 ⟨2 ^ 64 - 1, by decide⟩).encode := by decide +kernel
  have hliteral : countColumn.literal 1 = .ok (.long ⟨-1, by decide⟩) := by decide +kernel
  obtain ⟨⟨l, hl, hhull⟩, hreal⟩ := hull_of_literal (d := ⟨"k", .uint64, false⟩)
    (by rintro unit ⟨⟩) rfl (ordered_count _) hrow
    (.int .uint64 ⟨3, by decide⟩, .int .uint64 ⟨2 ^ 64 - 1, by decide⟩)
  obtain rfl := Except.ok.inj (hl.symm.trans hliteral)
  exact ⟨hliteral, hhull, (hreal _ _).2 (by decide +kernel)⟩

end

end SparseScan
