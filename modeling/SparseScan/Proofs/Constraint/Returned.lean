import SparseScan.Proofs.Constraint.Coverage

set_option autoImplicit false

/-! # Equality with a returned datetime

A datetime that a scan returns is the relational value of a stored count. Mapped back, it gives the
first and the last count with that value (`TimeUnit.storedCount?_of_relationalValue?`), so an
equality with it keeps the count. What can go wrong are the limits of the stored range: where many
counts make one relational unit, the range breaks off inside its first and its last relational unit,
and the first or the last count of those is no long. `hull_of_returned` says that an equality fails
for these two values and for no other. -/

namespace SparseScan

/-! ## Counts with one relational value -/

namespace TimeUnit

variable {unit : TimeUnit}

/-- The first count with the relational value of `count`. -/
def firstCount (unit : TimeUnit) (count : Int) : Int :=
  match unit.scale with
  | .countsPerUnit n => count / n * n
  | _ => count

/-- The last count with the relational value of `count`. -/
def lastCount (unit : TimeUnit) (count : Int) : Int :=
  match unit.scale with
  | .countsPerUnit n => count / n * n + n - 1
  | _ => count

theorem firstCount_le (unit : TimeUnit) (count : Int) : unit.firstCount count ≤ count := by
  have hpos := unit.factor_pos
  unfold factor at hpos
  unfold firstCount
  generalize unit.scale = scale at hpos ⊢
  cases scale with
  | countsPerUnit n => exact Int.ediv_mul_le count hpos.ne'
  | unitsPerCount n => exact le_rfl
  | months n => exact le_rfl

theorem le_lastCount (unit : TimeUnit) (count : Int) : count ≤ unit.lastCount count := by
  have hpos := unit.factor_pos
  unfold factor at hpos
  unfold lastCount
  generalize unit.scale = scale at hpos ⊢
  cases scale with
  | countsPerUnit n =>
      have hlt := Int.lt_ediv_add_one_mul_self count hpos
      rw [Int.add_mul, Int.one_mul] at hlt
      exact Int.le_sub_one_iff.2 hlt
  | unitsPerCount n => exact le_rfl
  | months n => exact le_rfl

/-- A relational value comes from the counts between the first and the last one that it is mapped
    back to. -/
theorem storedCount?_of_relationalValue? {count value : Int}
    (h : unit.relationalValue? count = some value) :
    unit.storedCount? value .up = some (unit.firstCount count) ∧
      unit.storedCount? value .down = some (unit.lastCount count) := by
  have hpos := unit.factor_pos
  unfold factor at hpos
  unfold relationalValue? at h
  unfold storedCount? firstCount lastCount
  generalize unit.scale = scale at hpos h ⊢
  cases scale with
  | countsPerUnit n =>
      cases h
      exact ⟨rfl, rfl⟩
  | unitsPerCount n =>
      cases h
      simp [Int.mul_ediv_cancel _ hpos.ne']
  | months n =>
      simp [Calendar.monthOf?_of_monthStart? h, Int.mul_ediv_cancel _ hpos.ne']

/-! ## Limits of the stored range -/

/-- Whether `value` is the relational value of a limit of the stored range, in a unit of which many
    counts make one relational unit. -/
def atLimit (unit : TimeUnit) (limit value : Int) : Prop :=
  ∃ n, unit.scale = .countsPerUnit n ∧ value = limit / n

/-- The stored range neither starts at the start of a relational unit nor ends at the end of one. -/
theorem limits_inside {n : Int} (h : unit.scale = .countsPerUnit n) :
    IntKind.int64.least % n ≠ 0 ∧ IntKind.int64.greatest % n ≠ n - 1 := by
  cases unit <;> simp only [scale, TimeMeasure.countsPerUnit.injEq, reduceCtorEq] at h <;>
    subst h <;> decide

theorem atLimit_iff {n limit value : Int} (h : unit.scale = .countsPerUnit n) :
    unit.atLimit limit value ↔ value = limit / n := by
  simp [atLimit, h]

/-- Units of which one count makes at least one relational unit have no such limits. -/
theorem not_atLimit {limit value : Int} (h : ∀ n, unit.scale ≠ .countsPerUnit n) :
    ¬ unit.atLimit limit value := by
  rintro ⟨n, hn, -⟩
  exact h n hn

section

variable {count value : Int}

theorem firstCount_holds_iff (hcount : IntKind.int64.Holds count)
    (h : unit.relationalValue? count = some value) :
    IntKind.int64.Holds (unit.firstCount count) ↔ ¬ unit.atLimit IntKind.int64.least value := by
  have hle := (unit.firstCount_le count).trans hcount.2
  by_cases hfiner : ∃ n, unit.scale = .countsPerUnit n
  · obtain ⟨n, hn⟩ := hfiner
    have hpos : 0 < n := by simpa [factor, hn] using unit.factor_pos
    have hvalue : count / n = value := by simpa [relationalValue?, hn] using h
    have hlow := Int.ediv_le_ediv hpos hcount.1
    -- the first count is no multiple of the factor, so it fits if the least count comes before it
    have hne : IntKind.int64.least ≠ count / n * n := by
      intro heq
      refine (limits_inside hn).1 ?_
      rw [heq, Int.mul_emod_left]
    have hlt : IntKind.int64.least / n < count / n ↔ IntKind.int64.least < count / n * n :=
      Int.ediv_lt_iff_lt_mul hpos
    simp only [firstCount, hn] at hle ⊢
    rw [atLimit_iff hn, ← hvalue, IntKind.Holds, and_iff_left hle, hne.le_iff_lt, ← hlt]
    omega
  · rw [not_exists] at hfiner
    refine iff_of_true ⟨?_, hle⟩ (not_atLimit hfiner)
    unfold firstCount
    split
    · next n hn => exact absurd hn (hfiner n)
    · exact hcount.1

theorem lastCount_holds_iff (hcount : IntKind.int64.Holds count)
    (h : unit.relationalValue? count = some value) :
    IntKind.int64.Holds (unit.lastCount count) ↔ ¬ unit.atLimit IntKind.int64.greatest value := by
  have hge := hcount.1.trans (unit.le_lastCount count)
  by_cases hfiner : ∃ n, unit.scale = .countsPerUnit n
  · obtain ⟨n, hn⟩ := hfiner
    have hpos : 0 < n := by simpa [factor, hn] using unit.factor_pos
    have hvalue : count / n = value := by simpa [relationalValue?, hn] using h
    have hhigh := Int.ediv_le_ediv hpos hcount.2
    have hrest := (limits_inside hn).2
    have hsplit := Int.ediv_mul_add_emod IntKind.int64.greatest n
    have hless := Int.emod_lt_of_pos IntKind.int64.greatest hpos
    simp only [lastCount, hn] at hge ⊢
    rw [atLimit_iff hn, ← hvalue, IntKind.Holds, and_iff_right hge]
    constructor
    · intro hfits heq
      rw [heq] at hfits
      omega
    · intro hne
      -- a whole relational unit more still fits
      have hnext := Int.mul_le_mul_of_nonneg_right
        (Int.add_one_le_iff.2 (lt_of_le_of_ne hhigh hne)) hpos.le
      have hnonneg := Int.emod_nonneg IntKind.int64.greatest hpos.ne'
      rw [Int.add_mul, Int.one_mul] at hnext
      omega
  · rw [not_exists] at hfiner
    refine iff_of_true ⟨hge, ?_⟩ (not_atLimit hfiner)
    unfold lastCount
    split
    · next n hn => exact absurd hn (hfiner n)
    · exact hcount.2

end

/-! ## Longs -/

section

variable {value : Long} {rounding : Rounding} {count : Int}

theorem ofRelational_of_holds (h : unit.storedCount? value.val rounding = some count)
    (hcount : IntKind.int64.Holds count) :
    unit.ofRelational value rounding = .ok ⟨count, hcount⟩ := by
  simp [ofRelational, h, IntKind.ofInt?, hcount]

theorem ofRelational_of_not_holds (h : unit.storedCount? value.val rounding = some count)
    (hcount : ¬ IntKind.int64.Holds count) :
    unit.ofRelational value rounding = .error (.datetimeOutOfRange value unit) := by
  simp [ofRelational, h, IntKind.ofInt?, hcount]

end

end TimeUnit

/-! ## Equality -/

section

variable {d : Dimension} {unit : TimeUnit} {t : ColumnType} {raw value : Long}
  {populated : StoredValue × StoredValue}

theorem storedEnd_dateTime (hd : d.datatype = .dateTime unit) (ht : t ≠ .real) (value : Long)
    (rounding : Rounding) : d.storedEnd t (.long value) rounding =
      match unit.ofRelational value rounding with
      | .ok count => .ok (.int .int64 count)
      | .error e => .error (.value e) := by
  have hfits : IntKind.int64.ofInt? value.val = some value := IntKind.ofInt?_eq_some_iff.2 rfl
  cases h : unit.ofRelational value rounding <;>
    simp only [Dimension.storedEnd, hd, StoredValue.ofLiteral, Datatype.form,
      StoredValue.Number.ofLiteral, ht, if_false, StoredValue.toInteger, reduceCtorEq, false_and,
      StoredValue.fitInteger, hfits, h]

theorem storedEnds_point (t : ColumnType) (value : Long) :
    (Interval.point (.long value)).storedEnds d t =
      match d.storedEnd t (.long value) .up with
      | .error e => .error e
      | .ok low =>
          match d.storedEnd t (.long value) .down with
          | .error e => .error e
          | .ok high => .ok (some low, some high) := by
  have hpoint : (Interval.point (.long value)).isPoint = true := by
    simp [Interval.isPoint, Interval.point, Endpoint.on, Literal.same]
  unfold Interval.storedEnds
  rw [if_pos hpoint]
  simp only [Interval.point, Endpoint.on, Dimension.lowEnd, Dimension.highEnd]
  cases d.storedEnd t (.long value) .up with
  | error e => rfl
  | ok low => cases d.storedEnd t (.long value) .down <;> rfl

theorem hull_of_storedEnds {i : Interval} {low high : StoredValue}
    (h : i.storedEnds d t = .ok (some low, some high))
    (hcross : Hull.crossed (some low) (some high) = .ok false) :
    d.hull (some ⟨t, .intervals [i]⟩) populated = .ok (some (low, high)) := by
  simp [Dimension.hull, Hull.addIntervals, h, Hull.add, hcross, Hull.addLow, Hull.addHigh,
    Except.map, Hull.bounds]

theorem hull_of_storedEnds_error {i : Interval} {e : ConstraintError}
    (h : i.storedEnds d t = .error e) :
    d.hull (some ⟨t, .intervals [i]⟩) populated = .error e := by
  simp [Dimension.hull, Hull.addIntervals, h, Except.map]

/-- An equality with a returned datetime keeps the count it was read from, unless the value is that
    of a limit of the stored range. Then one of the counts that it is mapped to is none, and the
    constraint is refused. -/
theorem hull_of_returned (hd : d.datatype = .dateTime unit) (ht : t ≠ .real)
    (h : unit.toRelational raw = .ok value) (populated : StoredValue × StoredValue) :
    (¬ unit.atLimit IntKind.int64.least value.val →
        ¬ unit.atLimit IntKind.int64.greatest value.val →
        ∃ lo hi : Long, unit.ofRelational value .up = .ok lo ∧
          unit.ofRelational value .down = .ok hi ∧ lo.val ≤ raw.val ∧ raw.val ≤ hi.val ∧
          d.hull (some ⟨t, .intervals [.point (.long value)]⟩) populated =
            .ok (some (.int .int64 lo, .int .int64 hi))) ∧
      (unit.atLimit IntKind.int64.least value.val →
        unit.ofRelational value .up = .error (.datetimeOutOfRange value unit)) ∧
      (unit.atLimit IntKind.int64.greatest value.val →
        unit.ofRelational value .down = .error (.datetimeOutOfRange value unit)) ∧
      (unit.atLimit IntKind.int64.least value.val ∨
          unit.atLimit IntKind.int64.greatest value.val →
        d.hull (some ⟨t, .intervals [.point (.long value)]⟩) populated =
          .error (.value (.datetimeOutOfRange value unit))) := by
  have hrelational := TimeUnit.toRelational_eq_ok h
  obtain ⟨hup, hdown⟩ := TimeUnit.storedCount?_of_relationalValue? hrelational
  have hfirst := TimeUnit.firstCount_holds_iff raw.property hrelational
  have hlast := TimeUnit.lastCount_holds_iff raw.property hrelational
  have hbefore := unit.firstCount_le raw.val
  have hafter := unit.le_lastCount raw.val
  have hrefusedUp : unit.atLimit IntKind.int64.least value.val →
      unit.ofRelational value .up = .error (.datetimeOutOfRange value unit) :=
    fun hlimit => TimeUnit.ofRelational_of_not_holds hup fun hholds => hfirst.1 hholds hlimit
  have hrefusedDown : unit.atLimit IntKind.int64.greatest value.val →
      unit.ofRelational value .down = .error (.datetimeOutOfRange value unit) :=
    fun hlimit => TimeUnit.ofRelational_of_not_holds hdown fun hholds => hlast.1 hholds hlimit
  refine ⟨fun hleast hgreatest => ?_, hrefusedUp, hrefusedDown, fun hlimit => ?_⟩
  · have hlo := TimeUnit.ofRelational_of_holds hup (hfirst.2 hleast)
    have hhi := TimeUnit.ofRelational_of_holds hdown (hlast.2 hgreatest)
    have hreachDown := (reachesDown_some _ _).2
      ((StoredValue.int_atMost_iff ⟨_, hfirst.2 hleast⟩ raw).2 hbefore)
    have hreachUp := (reachesUp_some _ _).2
      ((StoredValue.int_atMost_iff raw ⟨_, hlast.2 hgreatest⟩).2 hafter)
    refine ⟨_, _, hlo, hhi, hbefore, hafter,
      hull_of_storedEnds ?_ (crossed_eq_false hreachDown hreachUp)⟩
    simp only [storedEnds_point, storedEnd_dateTime hd ht, hlo, hhi]
  · refine hull_of_storedEnds_error ?_
    simp only [storedEnds_point, storedEnd_dateTime hd ht]
    by_cases hleast : unit.atLimit IntKind.int64.least value.val
    · rw [hrefusedUp hleast]
    · -- the low end is there, and the high end is missing
      have hlo := TimeUnit.ofRelational_of_holds hup (hfirst.2 hleast)
      simp only [hlo, hrefusedDown (hlimit.resolve_left hleast)]

/-- The seventh attosecond is returned as millisecond zero, which keeps it. -/
theorem hull_of_returned_seven :
    ∃ lo hi : Long, lo.val ≤ 7 ∧ 7 ≤ hi.val ∧
      (⟨"t", .dateTime .attosecond, false⟩ : Dimension).hull
          (some ⟨.timestamp, .intervals [.point (.long ⟨0, by decide⟩)]⟩)
          (.int .int64 ⟨7, by decide⟩, .int .int64 ⟨7, by decide⟩) =
        .ok (some (.int .int64 lo, .int .int64 hi)) := by
  have hzero : TimeUnit.attosecond.toRelational ⟨7, by decide⟩ = .ok ⟨0, by decide⟩ := by
    decide +kernel
  have hlimits : ¬ TimeUnit.attosecond.atLimit IntKind.int64.least 0 ∧
      ¬ TimeUnit.attosecond.atLimit IntKind.int64.greatest 0 := by
    rw [TimeUnit.atLimit_iff rfl, TimeUnit.atLimit_iff rfl]
    decide +kernel
  obtain ⟨lo, hi, -, -, hbefore, hafter, hhull⟩ :=
    (hull_of_returned (d := ⟨"t", .dateTime .attosecond, false⟩) rfl
      (by decide : ColumnType.timestamp ≠ .real) hzero
      (.int .int64 ⟨7, by decide⟩, .int .int64 ⟨7, by decide⟩)).1 hlimits.1 hlimits.2
  exact ⟨lo, hi, hbefore, hafter, hhull⟩

/-- The least count of attoseconds is returned as a millisecond of which the first attosecond is no
    count, so an equality with it is refused. -/
theorem hull_refuses_returned :
    TimeUnit.attosecond.toRelational ⟨-2 ^ 63, by decide⟩ = .ok ⟨-9224, by decide⟩ ∧
      TimeUnit.attosecond.ofRelational ⟨-9224, by decide⟩ .up =
        .error (.datetimeOutOfRange ⟨-9224, by decide⟩ .attosecond) ∧
      (⟨"t", .dateTime .attosecond, false⟩ : Dimension).hull
          (some ⟨.timestamp, .intervals [.point (.long ⟨-9224, by decide⟩)]⟩)
          (.int .int64 ⟨-2 ^ 63, by decide⟩, .int .int64 ⟨0, by decide⟩) =
        .error (.value (.datetimeOutOfRange ⟨-9224, by decide⟩ .attosecond)) := by
  decide +kernel

end

end SparseScan
