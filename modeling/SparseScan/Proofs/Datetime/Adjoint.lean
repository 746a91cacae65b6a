import SparseScan.Proofs.Constraint.Returned

set_option autoImplicit false

/-! # Rounding of datetimes as an adjoint of reading them

`TimeUnit.ofRelational` turns a comparison of relational values into one of stored counts, on either
side (`TimeUnit.ofRelational_adjoint`). It fails for values beyond the counts only: a relational
value between those of two counts is mapped to a count between the two, in months and years too,
since the year of a day between two months that have dates has dates. -/

namespace SparseScan

/-! ## Days between months that have dates -/

namespace Calendar

theorem yearOfMonth_mono : Monotone yearOfMonth := by
  intro m m' hle
  unfold yearOfMonth
  omega

theorem hasYear_between {y y' y'' : Int} (h : hasYear y = true) (h'' : hasYear y'' = true)
    (hle : y ≤ y') (hle' : y' ≤ y'') : hasYear y' = true := by
  simp only [hasYear, Bool.and_eq_true, decide_eq_true_eq] at h h'' ⊢
  exact ⟨h.1.trans hle, hle'.trans h''.2⟩

/-- A day between the starts of two months that have dates has a month. -/
theorem monthOf?_between {m m' first last d : Int} (hfirst : monthStart? m = some first)
    (hlast : monthStart? m' = some last) (hle : first ≤ d) (hle' : d ≤ last) :
    ∃ r, monthOf? d = some r := by
  rw [monthStart?_eq_some hfirst, monthStart_le_iff] at hle
  have hmonth : monthOf d ≤ m' := by
    rw [monthStart?_eq_some hlast] at hle'
    exact monthStart_strictMono.le_iff_le.1 (((monthStart_le_iff _ d).2 le_rfl).trans hle')
  have hdates : hasYear (yearOf d) = true := by
    rw [← yearOfMonth_monthOf]
    exact hasYear_between (monthStart?_hasYear hfirst) (monthStart?_hasYear hlast)
      (yearOfMonth_mono hle) (yearOfMonth_mono hmonth)
  exact ⟨_, by rw [monthOf?, if_pos hdates]⟩

end Calendar

/-! ## Values between those of two counts -/

namespace TimeUnit

variable {unit : TimeUnit}

theorem storedCount?_between {before after first last value : Int}
    (hfirst : unit.relationalValue? before = some first)
    (hlast : unit.relationalValue? after = some last) (hle : first ≤ value) (hle' : value ≤ last)
    (rounding : Rounding) : ∃ stored, unit.storedCount? value rounding = some stored := by
  unfold relationalValue? at hfirst hlast
  unfold storedCount?
  generalize unit.scale = scale at hfirst hlast ⊢
  cases scale with
  | countsPerUnit n => cases rounding <;> exact ⟨_, rfl⟩
  | unitsPerCount n => cases rounding <;> exact ⟨_, rfl⟩
  | months n =>
      obtain ⟨r, hr⟩ := Calendar.monthOf?_between hfirst hlast hle hle'
      cases rounding <;> simp [hr]

/-- A count between two longs is a long. -/
theorem ofRelational_of_between {value before after : Long} {rounding : Rounding} {stored : Int}
    (h : unit.storedCount? value.val rounding = some stored) (hle : before.val ≤ stored)
    (hle' : stored ≤ after.val) : ∃ count, unit.ofRelational value rounding = .ok count :=
  ⟨_, ofRelational_of_holds h ⟨before.property.1.trans hle, hle'.trans after.property.2⟩⟩

/-- A stored count is read as the value or more exactly when it is at least the value rounded up,
    and as the value or less exactly when it is at most the value rounded down. There are such
    counts for every value that lies between the relational values of two stored counts. -/
theorem ofRelational_adjoint (unit : TimeUnit) (value : Long) :
    (∀ up, unit.ofRelational value .up = .ok up → ∀ count x, unit.toRelational count = .ok x →
        (value.val ≤ x.val ↔ up.val ≤ count.val)) ∧
      (∀ down, unit.ofRelational value .down = .ok down →
        ∀ count x, unit.toRelational count = .ok x →
          (x.val ≤ value.val ↔ count.val ≤ down.val)) ∧
      ∀ before after first last, unit.toRelational before = .ok first →
        unit.toRelational after = .ok last →
          (first.val < value.val → value.val ≤ last.val →
            ∃ up, unit.ofRelational value .up = .ok up) ∧
          (first.val ≤ value.val → value.val < last.val →
            ∃ down, unit.ofRelational value .down = .ok down) := by
  refine ⟨?_, ?_, ?_⟩
  · intro up hup count x hx
    exact (up_le_iff (ofRelational_eq_ok hup) (toRelational_eq_ok hx)).symm
  · intro down hdown count x hx
    exact (le_down_iff (ofRelational_eq_ok hdown) (toRelational_eq_ok hx)).symm
  · intro before after first last hbefore hafter
    have hfirst := toRelational_eq_ok hbefore
    have hlast := toRelational_eq_ok hafter
    constructor
    · intro hlt hle
      obtain ⟨stored, hstored⟩ := storedCount?_between hfirst hlast hlt.le hle .up
      have hover : before.val < stored := by
        rwa [← not_le, up_le_iff hstored hfirst, not_le]
      exact ofRelational_of_between hstored hover.le ((up_le_iff hstored hlast).2 hle)
    · intro hle hlt
      obtain ⟨stored, hstored⟩ := storedCount?_between hfirst hlast hle hlt.le .down
      have hunder : stored < after.val := by
        rwa [← not_le, le_down_iff hstored hlast, not_le]
      exact ofRelational_of_between hstored ((le_down_iff hstored hfirst).2 hle) hunder.le

/-- The 15th of February 1970 lies between the first days of February and March, so it is rounded to
    these two months. -/
theorem ofRelational_adjoint_february :
    month.ofRelational ⟨45, by decide⟩ .up = .ok ⟨2, by decide⟩ ∧
      month.ofRelational ⟨45, by decide⟩ .down = .ok ⟨1, by decide⟩ ∧
      ∀ count x, month.toRelational count = .ok x →
        ((45 : Int) ≤ x.val ↔ (2 : Int) ≤ count.val) ∧
          (x.val ≤ (45 : Int) ↔ count.val ≤ (1 : Int)) := by
  have hfirst : month.toRelational ⟨1, by decide⟩ = .ok ⟨31, by decide⟩ := by decide +kernel
  have hlast : month.toRelational ⟨2, by decide⟩ = .ok ⟨59, by decide⟩ := by decide +kernel
  obtain ⟨hup, hdown, hbetween⟩ := ofRelational_adjoint month ⟨45, by decide⟩
  obtain ⟨hexistsUp, hexistsDown⟩ := hbetween _ _ _ _ hfirst hlast
  obtain ⟨up, htwo⟩ := hexistsUp (by decide) (by decide)
  obtain ⟨down, hone⟩ := hexistsDown (by decide) (by decide)
  obtain rfl : up = ⟨2, by decide⟩ := Except.ok.inj (htwo.symm.trans (by decide +kernel))
  obtain rfl : down = ⟨1, by decide⟩ := Except.ok.inj (hone.symm.trans (by decide +kernel))
  exact ⟨htwo, hone, fun count x hx => ⟨hup _ htwo count x hx, hdown _ hone count x hx⟩⟩

end TimeUnit

end SparseScan
