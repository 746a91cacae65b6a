import SparseScan.Datetime
import SparseScan.Proofs.Calendar

set_option autoImplicit false

/-! # Rounding of datetimes

A stored count has the relational value that it is read as. Rounding a relational value up gives the
first count at or after it and rounding down the last at or before it: `TimeUnit.up_le_iff` and
`TimeUnit.le_down_iff`. -/

namespace SparseScan

/-! ## Months and days -/

namespace Calendar

theorem le_monthStart_of_first {d : Int} (hd : d = monthStart (monthOf d)) (m : Int) :
    d ≤ monthStart m ↔ monthOf d ≤ m := by
  conv_lhs => rw [hd]
  exact monthStart_strictMono.le_iff_le

/-- A day that is not the first of its month comes before the starts of the later months only. -/
theorem le_monthStart_of_not_first {d : Int} (hd : ¬ d = monthStart (monthOf d)) (m : Int) :
    d ≤ monthStart m ↔ monthOf d < m := by
  have hstart := (monthStart_le_iff (monthOf d) d).2 le_rfl
  constructor
  · intro hle
    by_contra hback
    have hearlier := monthStart_strictMono.monotone (not_lt.1 hback)
    omega
  · intro hlt
    by_contra hback
    have hlater := (monthStart_le_iff m d).1 (le_of_not_ge hback)
    omega

end Calendar

/-! ## Units -/

namespace TimeUnit

variable {unit : TimeUnit}

/-- The factor of a scale. -/
def factor (unit : TimeUnit) : Int :=
  match unit.scale with
  | .countsPerUnit n => n
  | .unitsPerCount n => n
  | .months n => n

theorem factor_pos (unit : TimeUnit) : 0 < unit.factor := by
  cases unit <;> decide

/-- Division that rounds up. -/
theorem ceil_le_iff {n : Int} (hn : 0 < n) (value count : Int) :
    (if value % n = 0 then value / n else value / n + 1) ≤ count ↔ value ≤ count * n := by
  have hfloor : value / n < count ↔ value < count * n := Int.ediv_lt_iff_lt_mul hn
  have hsplit := Int.ediv_mul_add_emod value n
  split
  · next hexact =>
      rw [hexact, Int.add_zero] at hsplit
      conv_rhs => rw [← hsplit]
      exact (Int.mul_le_mul_right hn).symm
  · next hrest =>
      rw [Int.add_one_le_iff, hfloor]
      refine ⟨le_of_lt, fun hle => lt_of_le_of_ne hle fun heq => hrest ?_⟩
      rw [heq, Int.mul_emod_left]

section

variable {value count stored relational : Int}

/-- Rounding up gives the first count whose relational value is the value or more. -/
theorem up_le_iff (hstored : unit.storedCount? value .up = some stored)
    (hrelational : unit.relationalValue? count = some relational) :
    stored ≤ count ↔ value ≤ relational := by
  have hpos := unit.factor_pos
  unfold factor at hpos
  unfold storedCount? at hstored
  unfold relationalValue? at hrelational
  generalize unit.scale = scale at hpos hstored hrelational
  cases scale with
  | countsPerUnit n =>
      cases hstored
      cases hrelational
      exact (Int.le_ediv_iff_mul_le hpos).symm
  | unitsPerCount n =>
      cases hstored
      cases hrelational
      exact ceil_le_iff hpos value count
  | months n =>
      obtain ⟨⟨m, first⟩, hm, rfl⟩ := Option.map_eq_some_iff.1 hstored
      obtain ⟨rfl, hfirst⟩ := Calendar.monthOf?_eq_some hm
      rw [Calendar.monthStart?_eq_some hrelational]
      cases first with
      | true =>
          rw [Calendar.le_monthStart_of_first (hfirst.1 rfl)]
          simpa only [true_and] using ceil_le_iff hpos (Calendar.monthOf value) count
      | false =>
          -- the month has begun, so the count must be of a later one
          rw [Calendar.le_monthStart_of_not_first fun hd => Bool.false_ne_true (hfirst.2 hd)]
          simp only [Bool.false_eq_true, false_and, if_false]
          exact Int.add_one_le_iff.trans (Int.ediv_lt_iff_lt_mul hpos)

/-- Rounding down gives the last count whose relational value is the value or less. -/
theorem le_down_iff (hstored : unit.storedCount? value .down = some stored)
    (hrelational : unit.relationalValue? count = some relational) :
    count ≤ stored ↔ relational ≤ value := by
  have hpos := unit.factor_pos
  unfold factor at hpos
  unfold storedCount? at hstored
  unfold relationalValue? at hrelational
  generalize unit.scale = scale at hpos hstored hrelational
  cases scale with
  | countsPerUnit n =>
      cases hstored
      cases hrelational
      rw [← Int.lt_add_one_iff, ← Int.lt_add_one_iff (b := value), Int.ediv_lt_iff_lt_mul hpos,
        Int.sub_add_cancel, Int.add_mul, Int.one_mul]
  | unitsPerCount n =>
      cases hstored
      cases hrelational
      exact Int.le_ediv_iff_mul_le hpos
  | months n =>
      obtain ⟨⟨m, first⟩, hm, rfl⟩ := Option.map_eq_some_iff.1 hstored
      obtain ⟨rfl, -⟩ := Calendar.monthOf?_eq_some hm
      rw [Calendar.monthStart?_eq_some hrelational, Calendar.monthStart_le_iff]
      exact Int.le_ediv_iff_mul_le hpos

end

/-! ## Longs -/

theorem toRelational_eq_ok {count value : Long} (h : unit.toRelational count = .ok value) :
    unit.relationalValue? count.val = some value.val := by
  unfold toRelational at h
  split at h
  · next v hv =>
      cases h
      obtain ⟨n, hn, hfits⟩ := Option.bind_eq_some_iff.1 hv
      rw [hn, IntKind.ofInt?_eq_some_iff.1 hfits]
  · cases h

theorem ofRelational_eq_ok {value count : Long} {rounding : Rounding}
    (h : unit.ofRelational value rounding = .ok count) :
    unit.storedCount? value.val rounding = some count.val := by
  unfold ofRelational at h
  split at h
  · next c hc =>
      cases h
      obtain ⟨n, hn, hfits⟩ := Option.bind_eq_some_iff.1 hc
      rw [hn, IntKind.ofInt?_eq_some_iff.1 hfits]
  · cases h

end TimeUnit

end SparseScan
