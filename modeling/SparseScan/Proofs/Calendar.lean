import Mathlib.Tactic
import SparseScan.Calendar

set_option autoImplicit false

/-! # The months of the calendar in order

`monthStart_le_iff` says that a month starts on or before a day exactly when it is at most the month
the day falls in, and `monthStart_succ` that the next month starts as many days later as the month
is long. Together they place every day between the starts of two consecutive months. -/

namespace SparseScan.Calendar

/-! ## Years -/

theorem yearStart_succ (y : Int) :
    yearStart (y + 1) = yearStart y + 365 + if isLeap y then 1 else 0 := by
  have h4 : (y + 1 - 1) / 4 = (y - 1) / 4 + if y % 4 = 0 then 1 else 0 := by
    split <;> omega
  have h100 : (y + 1 - 1) / 100 = (y - 1) / 100 + if y % 100 = 0 then 1 else 0 := by
    split <;> omega
  have h400 : (y + 1 - 1) / 400 = (y - 1) / 400 + if y % 400 = 0 then 1 else 0 := by
    split <;> omega
  simp only [yearStart, h4, h100, h400, isLeap, Bool.and_eq_true, Bool.or_eq_true, beq_iff_eq,
    bne_iff_ne]
  split_ifs <;> omega

theorem yearStart_strictMono : StrictMono yearStart := by
  refine strictMono_int_of_lt_succ ?_
  intro y
  rw [yearStart_succ]
  split <;> omega

/-- A day falls in a year exactly when it lies between the starts of the year and of the next. -/
theorem yearOf_spec (d : Int) : yearStart (yearOf d) ≤ d ∧ d < yearStart (yearOf d + 1) := by
  -- the guess misses the year by at most one
  have hlow : yearStart (1970 + 400 * d / 146097 - 1) ≤ d := by
    unfold yearStart
    omega
  have hhigh : d < yearStart (1970 + 400 * d / 146097 + 1 + 1) := by
    unfold yearStart
    omega
  unfold yearOf
  simp only
  split
  · next hbefore =>
      rw [Int.sub_add_cancel]
      exact ⟨hlow, hbefore⟩
  · next hfrom =>
      split
      · next hafter => exact ⟨hafter, hhigh⟩
      · next hbefore => exact ⟨not_lt.1 hfrom, not_le.1 hbefore⟩

/-! ## Months of a year -/

/-- The days of each month of a year, January being month zero. -/
def monthLength (leap : Bool) (month : Nat) : Nat :=
  match month with
  | 1 => if leap then 29 else 28
  | 3 | 5 | 8 | 10 => 30
  | _ => 31

theorem monthLength_pos (leap : Bool) (n : Nat) : 0 < monthLength leap n := by
  unfold monthLength
  split
  · cases leap <;> decide
  all_goals decide

theorem daysBefore_succ (leap : Bool) {n : Nat} (hn : n < 11) :
    daysBefore leap (n + 1) = daysBefore leap n + monthLength leap n := by
  cases leap <;> interval_cases n <;> rfl

theorem daysBefore_lt (leap : Bool) {n : Nat} (hn : n < 11) :
    daysBefore leap n < daysBefore leap (n + 1) := by
  have hlength := monthLength_pos leap n
  rw [daysBefore_succ leap hn]
  omega

/-- December ends the year. -/
theorem daysBefore_december (leap : Bool) :
    daysBefore leap 11 + monthLength leap 11 = 365 + if leap then 1 else 0 := by
  cases leap <;> rfl

/-- The table repeats its last entry beyond the twelve months. -/
theorem daysBefore_mono (leap : Bool) : Monotone (daysBefore leap) := by
  refine monotone_nat_of_le_succ ?_
  intro n
  by_cases hn : n < 11
  · exact (daysBefore_lt leap hn).le
  · obtain ⟨k, rfl⟩ := Nat.exists_eq_add_of_le' (not_lt.1 hn)
    cases leap <;> exact le_of_eq rfl

/-- Every month starts in its year. -/
theorem daysBefore_bounds (leap : Bool) {n : Nat} (hn : n < 12) :
    0 ≤ daysBefore leap n ∧ daysBefore leap n < 365 + if leap then 1 else 0 := by
  cases leap <;> interval_cases n <;> decide

/-- Of the numbers below `k`, those up to some one have a property that passes downward. -/
theorem lt_countP_range_iff {p : Nat → Bool} (hp : ∀ n, p (n + 1) = true → p n = true) {n k : Nat}
    (hn : n < k) : n < (List.range k).countP p ↔ p n = true := by
  have hdown : ∀ m j, p (m + j) = true → p m = true := by
    intro m j
    induction j with
    | zero => exact id
    | succ j ih => exact fun h => ih (hp _ h)
  induction k with
  | zero => cases hn
  | succ k ih =>
      rw [List.range_succ, List.countP_append, List.countP_singleton]
      by_cases hk : p k = true
      · have hall : (List.range k).countP p = k := by
          rw [List.countP_eq_length.2, List.length_range]
          intro m hm
          obtain ⟨j, rfl⟩ := Nat.exists_eq_add_of_lt (List.mem_range.1 hm)
          exact hdown m (j + 1) hk
        obtain ⟨j, rfl⟩ := Nat.exists_eq_add_of_le (Nat.lt_succ_iff.1 hn)
        simp only [hall, hk, if_true, hn, hdown n j hk]
      · rw [if_neg hk, Nat.add_zero]
        rcases Nat.lt_succ_iff_lt_or_eq.1 hn with hlt | rfl
        · exact ih hlt
        · have hle := List.countP_le_length (p := p) (l := List.range n)
          rw [List.length_range] at hle
          simp [hk, hle]

/-- A month of a year starts on or before a day of the year exactly when it is at most the month of
    that day. -/
theorem daysBefore_le_iff (leap : Bool) {n : Nat} {day : Int} (hn : n < 12) (hday : 0 ≤ day) :
    daysBefore leap n ≤ day ↔ n ≤ monthInYear leap day := by
  cases n with
  | zero => exact iff_of_true (by cases leap <;> exact hday) (Nat.zero_le _)
  | succ n =>
      have hn : n < 11 := Nat.succ_lt_succ_iff.1 hn
      unfold monthInYear
      rw [Nat.succ_le_iff, lt_countP_range_iff (fun m hm => ?_) hn, decide_eq_true_iff]
      rw [decide_eq_true_iff] at hm ⊢
      exact (daysBefore_mono leap (Nat.le_succ _)).trans hm

theorem monthInYear_le (leap : Bool) (day : Int) : monthInYear leap day ≤ 11 := by
  have hle := List.countP_le_length
    (p := fun n => decide (daysBefore leap (n + 1) ≤ day)) (l := List.range 11)
  rwa [List.length_range] at hle

/-! ## Months -/

/-- A month is its year together with its place in the year. -/
theorem month_eq (m : Int) : m = 12 * (yearOfMonth m - 1970) + (m % 12).toNat := by
  unfold yearOfMonth
  omega

/-- A month starts on or before a day exactly when it is at most the month the day falls in. -/
theorem monthStart_le_iff (m d : Int) : monthStart m ≤ d ↔ m ≤ monthOf d := by
  have hm := month_eq m
  have hn : (m % 12).toNat < 12 := by omega
  obtain ⟨hstart, hend⟩ := yearOf_spec d
  obtain ⟨hnonneg, hlast⟩ := daysBefore_bounds (isLeap (yearOfMonth m)) hn
  have hmonth := monthInYear_le (isLeap (yearOf d)) (d - yearStart (yearOf d))
  unfold monthStart monthOf
  generalize yearOfMonth m = y at *
  generalize (m % 12).toNat = n at *
  rcases lt_trichotomy y (yearOf d) with hy | rfl | hy
  · -- an earlier year ends before the day
    have hnext := yearStart_strictMono.monotone (Int.add_one_le_iff.2 hy)
    rw [yearStart_succ] at hnext
    refine iff_of_true ?_ ?_ <;> omega
  · -- in the year of the day the place of the month decides
    have hplace := daysBefore_le_iff (isLeap (yearOf d)) hn (Int.sub_nonneg.2 hstart)
    rw [hm, ← le_sub_iff_add_le', hplace]
    omega
  · -- a later year starts after the day
    have hnext := yearStart_strictMono.monotone (Int.add_one_le_iff.2 hy)
    refine iff_of_false ?_ ?_ <;> omega

/-- The next month starts when the days of the month are over. -/
theorem monthStart_succ (m : Int) :
    monthStart (m + 1) =
      monthStart m + monthLength (isLeap (yearOfMonth m)) (m % 12).toNat := by
  unfold monthStart
  by_cases hlast : (m % 12).toNat = 11
  · -- after December comes the start of the next year
    have hyear : yearOfMonth (m + 1) = yearOfMonth m + 1 := by
      unfold yearOfMonth
      omega
    have hplace : ((m + 1) % 12).toNat = 0 := by omega
    have hfirst : ∀ leap, daysBefore leap 0 = 0 := by decide
    have hend := daysBefore_december (isLeap (yearOfMonth m))
    rw [hyear, hplace, hlast, hfirst, yearStart_succ]
    omega
  · have hyear : yearOfMonth (m + 1) = yearOfMonth m := by
      unfold yearOfMonth
      omega
    have hplace : ((m + 1) % 12).toNat = (m % 12).toNat + 1 := by omega
    rw [hyear, hplace, daysBefore_succ _ (by omega), Int.add_assoc]

theorem monthStart_strictMono : StrictMono monthStart := by
  refine strictMono_int_of_lt_succ ?_
  intro m
  have hlength := monthLength_pos (isLeap (yearOfMonth m)) (m % 12).toNat
  rw [monthStart_succ]
  omega

theorem monthOf_monthStart (m : Int) : monthOf (monthStart m) = m := by
  refine le_antisymm ?_ ((monthStart_le_iff m _).1 le_rfl)
  rw [← monthStart_strictMono.le_iff_le, monthStart_le_iff]

theorem yearOfMonth_monthOf (d : Int) : yearOfMonth (monthOf d) = yearOf d := by
  have hmonth := monthInYear_le (isLeap (yearOf d)) (d - yearStart (yearOf d))
  unfold yearOfMonth monthOf
  omega

/-! ## Months that have dates -/

section

variable {m d : Int}

theorem monthStart?_eq_some_iff :
    monthStart? m = some d ↔ hasYear (yearOfMonth m) = true ∧ d = monthStart m := by
  unfold monthStart?
  split
  · next hdates => simp [hdates, eq_comm]
  · next hdates => simp [hdates]

theorem monthStart?_eq_some (h : monthStart? m = some d) : d = monthStart m :=
  (monthStart?_eq_some_iff.1 h).2

theorem monthStart?_hasYear (h : monthStart? m = some d) : hasYear (yearOfMonth m) = true :=
  (monthStart?_eq_some_iff.1 h).1

theorem monthOf?_eq_some {first : Bool} (h : monthOf? d = some (m, first)) :
    m = monthOf d ∧ (first = true ↔ d = monthStart m) := by
  unfold monthOf? at h
  split at h
  · simp only [Option.some.injEq, Prod.mk.injEq] at h
    obtain ⟨rfl, rfl⟩ := h
    simp
  · cases h

/-- A month is found again from its first day. -/
theorem monthOf?_of_monthStart? (h : monthStart? m = some d) : monthOf? d = some (m, true) := by
  obtain ⟨hdates, rfl⟩ := monthStart?_eq_some_iff.1 h
  have hyear := yearOfMonth_monthOf (monthStart m)
  rw [monthOf_monthStart] at hyear
  rw [monthOf?, ← hyear, if_pos hdates, monthOf_monthStart, beq_self_eq_true]

end

end SparseScan.Calendar
