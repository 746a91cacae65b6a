import SparseScan.Proofs.Calendar

set_option autoImplicit false

/-! # Dates

A `Date` is a year, a month and a day of the month, and `Date.next` is the rule of the calendar:
after the last day of a month comes the first of the next. A day counted from the epoch is the date
that so many steps lead to or, for a negative count, the date from which so many steps lead to the
epoch (`Date.IsDay`).

The conversions of months and days know nothing of dates: they count leap years and look up the days
before a month. `Date.isDay_iff` finds the number of a date by these counts, and
`conversions_follow_dates` reads both conversions off the dates. -/

namespace SparseScan.Calendar

/-- A date of the calendar. January is month zero; the days of a month are counted from one. -/
structure Date where
  year : Int
  month : Nat
  day : Nat
  month_lt : month < 12
  one_le_day : 1 ≤ day
  day_le : day ≤ monthLength (isLeap year) month

namespace Date

/-- The first of January 1970. -/
def epoch : Date := ⟨1970, 0, 1, by decide, by decide, by decide⟩

/-- The day after a date. -/
def next (date : Date) : Date :=
  if h : date.day < monthLength (isLeap date.year) date.month then
    ⟨date.year, date.month, date.day + 1, date.month_lt, Nat.le_add_left 1 _, h⟩
  else if h : date.month < 11 then
    ⟨date.year, date.month + 1, 1, Nat.succ_lt_succ h, le_rfl, monthLength_pos _ _⟩
  else ⟨date.year + 1, 0, 1, by decide, le_rfl, monthLength_pos _ _⟩

/-- The first day of the month that is so many months from January 1970. -/
def firstOf (m : Int) : Date :=
  ⟨1970 + m / 12, (m % 12).toNat, 1, by omega, le_rfl, monthLength_pos _ _⟩

/-- Months from January 1970 to the month of a date. -/
def months (date : Date) : Int := 12 * (date.year - 1970) + date.month

/-- A date is so many days after the epoch, or before it when the number is negative. -/
def IsDay (date : Date) : Int → Prop
  | .ofNat n => next^[n] epoch = date
  | .negSucc n => next^[n + 1] date = epoch

/-! ## The number of a date -/

/-- Days from the epoch to a date. -/
def number (date : Date) : Int := monthStart date.months + (date.day - 1)

theorem number_epoch : epoch.number = 0 := by decide

theorem yearOfMonth_months (date : Date) : yearOfMonth date.months = date.year := by
  have hmonth := date.month_lt
  unfold yearOfMonth months
  omega

theorem months_emod (date : Date) : (date.months % 12).toNat = date.month := by
  have hmonth := date.month_lt
  unfold months
  omega

theorem monthStart_months_succ (date : Date) :
    monthStart (date.months + 1) =
      monthStart date.months + monthLength (isLeap date.year) date.month := by
  rw [monthStart_succ, yearOfMonth_months, months_emod]

/-- A step leads to the date with the next number. -/
theorem number_next (date : Date) : date.next.number = date.number + 1 := by
  have hmonth := date.month_lt
  have hday := date.day_le
  have hlength := date.monthStart_months_succ
  unfold next
  split
  · simp only [number, months]
    omega
  · next hend =>
      -- the day is the last of its month, and the first of the next month follows
      have hlast : date.day = monthLength (isLeap date.year) date.month := by omega
      split
      · have hmonths : 12 * (date.year - 1970) + ((date.month + 1 : Nat) : Int) =
            date.months + 1 := by
          unfold months
          omega
        simp only [number, months, hmonths] at *
        omega
      · have hmonths : 12 * (date.year + 1 - 1970) + ((0 : Nat) : Int) = date.months + 1 := by
          unfold months
          omega
        simp only [number, months, hmonths] at *
        omega

theorem number_iterate_next (date : Date) (n : Nat) :
    (next^[n] date).number = date.number + n := by
  induction n with
  | zero => simp
  | succ n ih =>
      rw [Function.iterate_succ_apply', number_next, ih]
      push_cast
      ring

/-- The number of a date lies between the starts of its month and of the next. -/
theorem monthOf_number (date : Date) : monthOf date.number = date.months := by
  have hone := date.one_le_day
  have hday := date.day_le
  have hlength := date.monthStart_months_succ
  have hstart := monthStart_le_iff date.months date.number
  have hend := monthStart_le_iff (date.months + 1) date.number
  unfold number at *
  omega

theorem number_eq_monthStart_iff (date : Date) :
    date.number = monthStart date.months ↔ date.day = 1 := by
  have hone := date.one_le_day
  unfold number
  omega

theorem number_injective : Function.Injective number := by
  intro date date' h
  have hmonths : date.months = date'.months := by rw [← monthOf_number, h, monthOf_number]
  have hyear : date.year = date'.year := by
    rw [← yearOfMonth_months, hmonths, yearOfMonth_months]
  have hmonth : date.month = date'.month := by rw [← months_emod, hmonths, months_emod]
  have hday : date.day = date'.day := by
    unfold number at h
    rw [hmonths] at h
    omega
  cases date
  cases date'
  simp_all

/-- The steps from the epoch, or to it, are counted by the number. -/
theorem isDay_iff {date : Date} {d : Int} : date.IsDay d ↔ date.number = d := by
  cases d with
  | ofNat n =>
      rw [IsDay, ← number_injective.eq_iff, number_iterate_next, number_epoch]
      rw [zero_add, eq_comm]
      rfl
  | negSucc n =>
      rw [IsDay, ← number_injective.eq_iff, number_iterate_next, number_epoch]
      omega

/-! ## The date of a number -/

/-- The date with a given number. -/
def ofNumber (d : Int) : Date where
  year := yearOfMonth (monthOf d)
  month := (monthOf d % 12).toNat
  day := (d - monthStart (monthOf d)).toNat + 1
  month_lt := by omega
  one_le_day := Nat.le_add_left 1 _
  day_le := by
    have hlength := monthLength_pos (isLeap (yearOfMonth (monthOf d))) (monthOf d % 12).toNat
    have hend := monthStart_le_iff (monthOf d + 1) d
    rw [monthStart_succ] at hend
    omega

theorem months_ofNumber (d : Int) : (ofNumber d).months = monthOf d := by
  unfold months ofNumber
  exact (month_eq (monthOf d)).symm

theorem number_ofNumber (d : Int) : (ofNumber d).number = d := by
  have hstart := (monthStart_le_iff (monthOf d) d).2 le_rfl
  rw [number, months_ofNumber]
  simp only [ofNumber]
  omega

/-- Every day is a date. -/
theorem exists_isDay (d : Int) : ∃ date : Date, date.IsDay d :=
  ⟨ofNumber d, isDay_iff.2 (number_ofNumber d)⟩

/-! ## Months and days of dates -/

/-- A day is in the month of its date, and the first of that month if its date says so. -/
theorem monthOf?_of_isDay {date : Date} {d : Int} (h : date.IsDay d) :
    monthOf? d =
      if hasYear date.year then some (date.months, decide (date.day = 1)) else none := by
  obtain rfl := isDay_iff.1 h
  have hfirst : (date.number == monthStart date.months) = decide (date.day = 1) :=
    Bool.eq_iff_iff.2 (by simp [number_eq_monthStart_iff])
  rw [monthOf?, ← yearOfMonth_monthOf, monthOf_number, yearOfMonth_months, hfirst]

theorem months_firstOf (m : Int) : (firstOf m).months = m := by
  simp only [months, firstOf]
  omega

theorem number_firstOf (m : Int) : (firstOf m).number = monthStart m := by
  rw [(number_eq_monthStart_iff (firstOf m)).2 rfl, months_firstOf]

/-- A month starts on the day that is the first of the month. -/
theorem monthStart?_eq_some_iff_isDay {m d : Int} :
    monthStart? m = some d ↔ hasYear (firstOf m).year = true ∧ (firstOf m).IsDay d := by
  rw [monthStart?_eq_some_iff, isDay_iff, number_firstOf, eq_comm (a := d)]
  rfl

end Date

/-! ## Conversions -/

/-- A month is found again from its first day, and that day is marked as the first. A day that is
    found in a month lies between the start of that month and the start of the next, and is marked
    as the first just if it is the start.

    Both conversions are what the dates say, stepping day by day from the epoch. Every day is a
    date, and as long as the year of the date is one that has dates, the day is found in the month
    of the date and marked as its first just if the date is. A month starts on the day of its first
    date, as long as this has such a year. -/
theorem conversions_follow_dates :
    (∀ m d : Int, monthStart? m = some d → monthOf? d = some (m, true)) ∧
    (∀ (d m : Int) (first : Bool), monthOf? d = some (m, first) →
      ∃ s, monthStart? m = some s ∧ s ≤ d ∧ (first = true ↔ s = d) ∧
        ∀ t, monthStart? (m + 1) = some t → d < t) ∧
    (∀ d : Int, ∃ date : Date, date.IsDay d) ∧
    (∀ (date : Date) (d : Int), date.IsDay d → monthOf? d =
      if hasYear date.year then some (date.months, decide (date.day = 1)) else none) ∧
    ∀ m d : Int, monthStart? m = some d ↔
      hasYear (Date.firstOf m).year = true ∧ (Date.firstOf m).IsDay d := by
  refine ⟨fun _ _ => monthOf?_of_monthStart?, ?_, Date.exists_isDay,
    fun _ _ => Date.monthOf?_of_isDay, fun _ _ => Date.monthStart?_eq_some_iff_isDay⟩
  intro d m first h
  obtain ⟨date, hdate⟩ := Date.exists_isDay d
  rw [Date.monthOf?_of_isDay hdate] at h
  obtain rfl := Date.isDay_iff.1 hdate
  have hone := date.one_le_day
  have hday := date.day_le
  split at h
  · next hyear =>
      cases h
      rw [← date.yearOfMonth_months] at hyear
      refine ⟨monthStart date.months, monthStart?_eq_some_iff.2 ⟨hyear, rfl⟩, ?_, ?_, ?_⟩
      · unfold Date.number
        omega
      · rw [decide_eq_true_iff, ← date.number_eq_monthStart_iff, eq_comm]
      · intro t ht
        rw [monthStart?_eq_some ht, date.monthStart_months_succ]
        unfold Date.number
        omega
  · cases h

/-- The 29th of February 1972. -/
def leapDay : Date := ⟨1972, 1, 29, by decide, by decide, by decide⟩

/-- December 1969 starts 31 days before the epoch. The leap day is day 789; its month starts on day
    761 and ends before day 790. No month comes after that of the last day. -/
theorem conversions_follow_dates_leapDay :
    monthStart? (-1) = some (-31) ∧ monthOf? (-31) = some (-1, true) ∧
      leapDay.IsDay 789 ∧ monthOf? 789 = some (25, false) ∧
      monthStart? 25 = some 761 ∧ (761 : Int) ≤ 789 ∧
      monthStart? 26 = some 790 ∧ (789 : Int) < 790 ∧
      monthOf? 95026236 = some (3122075, false) ∧ monthStart? 3122076 = none := by
  obtain ⟨hback, hbetween, -, hdates, -⟩ := conversions_follow_dates
  have hdecember : monthStart? (-1) = some (-31) := by decide
  have hday : leapDay.IsDay 789 := Date.isDay_iff.2 (by decide)
  have hleap : monthOf? 789 = some (25, false) := hdates leapDay 789 hday
  have hfebruary : monthStart? 25 = some 761 := by decide
  have hmarch : monthStart? 26 = some 790 := by decide
  obtain ⟨s, hs, hle, -, hlt⟩ := hbetween 789 25 false hleap
  rw [hfebruary, Option.some.injEq] at hs
  subst hs
  exact ⟨hdecember, hback _ _ hdecember, hday, hleap, hfebruary, hle, hmarch, hlt 790 hmarch,
    by decide, by decide⟩

end SparseScan.Calendar
