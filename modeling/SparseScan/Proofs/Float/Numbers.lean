import SparseScan.Float.Rounding
import SparseScan.Proofs.Constraint.Meaning
import SparseScan.Proofs.Value.Neighbours

set_option autoImplicit false

/-! # The numbers of a float format

Floats are ordered by rank as the numbers they are (`Binary.number?_lt_iff`), and rounding changes
nothing that the format can represent (`FloatFormat.nearest_units`). Hence a single-precision number
is the same number in double precision and comes back from there unchanged. -/

namespace SparseScan

namespace FloatFormat

variable (f : FloatFormat)

/-! ## Units -/

/-- The significand of a magnitude, at most all fraction bits and the one before them. -/
def significand (m : Nat) : Nat :=
  if m / 2 ^ f.fractionBits = 0 then m % 2 ^ f.fractionBits
  else 2 ^ f.fractionBits + m % 2 ^ f.fractionBits

theorem significand_lt (m : Nat) : f.significand m < 2 * 2 ^ f.fractionBits := by
  have hfraction : m % 2 ^ f.fractionBits < 2 ^ f.fractionBits := Nat.mod_lt _ (Nat.two_pow_pos _)
  unfold significand
  split <;> omega

theorem units_eq (m : Nat) :
    f.units m = f.significand m * 2 ^ (m / 2 ^ f.fractionBits - 1) := by
  unfold units significand
  simp only
  split
  · next hzero => rw [hzero, Nat.zero_sub, Nat.pow_zero, Nat.mul_one]
  · rfl

theorem units_add_one (m : Nat) : f.units m < f.units (m + 1) := by
  have hfraction : m % 2 ^ f.fractionBits < 2 ^ f.fractionBits := Nat.mod_lt _ (Nat.two_pow_pos _)
  have hsplit := Nat.div_add_mod m (2 ^ f.fractionBits)
  have hpos : 0 < 2 ^ f.fractionBits := Nat.two_pow_pos _
  unfold units
  simp only
  generalize 2 ^ f.fractionBits = p at *
  generalize m % p = r at *
  generalize m / p = e at *
  by_cases hcarry : r + 1 = p
  · -- the fraction is full, so the next magnitude starts a new exponent
    have hdiv : (m + 1) / p = e + 1 := by
      rw [← hsplit, Nat.add_assoc, hcarry, Nat.mul_add_div hpos, Nat.div_self hpos]
    have hmod : (m + 1) % p = 0 := by
      rw [← hsplit, Nat.add_assoc, hcarry, Nat.mul_add_mod, Nat.mod_self]
    rw [hdiv, hmod, if_neg (Nat.succ_ne_zero e), Nat.add_sub_cancel]
    cases e with
    | zero => simp only [if_true, Nat.pow_zero]; omega
    | succ e =>
        rw [if_neg (Nat.succ_ne_zero e), Nat.add_sub_cancel, Nat.pow_succ]
        have hstep : 0 < 2 ^ e := Nat.two_pow_pos e
        nlinarith
  · have hdiv : (m + 1) / p = e := by
      rw [← hsplit, Nat.add_assoc, Nat.mul_add_div hpos, Nat.div_eq_of_lt (by omega), Nat.add_zero]
    have hmod : (m + 1) % p = r + 1 := by
      rw [← hsplit, Nat.add_assoc, Nat.mul_add_mod, Nat.mod_eq_of_lt (by omega)]
    rw [hdiv, hmod]
    split
    · exact Nat.lt_succ_self r
    · exact Nat.mul_lt_mul_of_pos_right (by omega) (Nat.two_pow_pos _)

theorem units_strictMono : StrictMono f.units := strictMono_nat_of_lt_succ f.units_add_one

theorem units_zero : f.units 0 = 0 := by
  simp [units]

/-! ## Rounding what needs none -/

end FloatFormat

theorem roundHalfEven_mul (n : Nat) {d : Nat} (hd : 0 < d) : roundHalfEven (n * d) d = n := by
  unfold roundHalfEven
  simp only [Nat.mul_div_cancel n hd, Nat.mul_mod_left, Nat.mul_zero, if_pos hd]

namespace FloatFormat

variable (f : FloatFormat)

/-- Below twice the first normal magnitude, magnitudes count the units one by one. -/
theorem units_of_lt {m : Nat} (hm : m < 2 * 2 ^ f.fractionBits) : f.units m = m := by
  have hsplit := Nat.div_add_mod m (2 ^ f.fractionBits)
  unfold units
  simp only
  split
  · next hzero => rwa [hzero, Nat.mul_zero, Nat.zero_add] at hsplit
  · next hpos =>
      have hone : m / 2 ^ f.fractionBits = 1 :=
        Nat.le_antisymm (Nat.lt_succ_iff.1 (Nat.div_lt_of_lt_mul (by omega)))
          (Nat.one_le_iff_ne_zero.2 hpos)
      rw [hone, Nat.mul_one] at hsplit
      rw [hone, Nat.sub_self, Nat.pow_zero, Nat.mul_one, hsplit]

/-- Beyond, the units double with each exponent. -/
theorem units_add {m : Nat} (hm : 2 ^ f.fractionBits ≤ m) :
    f.units (m + 2 ^ f.fractionBits) = 2 * f.units m := by
  have hpos : 0 < 2 ^ f.fractionBits := Nat.two_pow_pos _
  obtain ⟨e, he⟩ := Nat.exists_eq_add_of_le' (Nat.div_pos hm hpos)
  unfold units
  simp only [Nat.add_div_right _ hpos, Nat.add_mod_right, he]
  rw [if_neg (Nat.succ_ne_zero _), if_neg (Nat.succ_ne_zero _), Nat.add_sub_cancel,
    Nat.add_sub_cancel, Nat.pow_succ]
  ring

theorem significand_of_normal {m : Nat} (hm : 2 ^ f.fractionBits ≤ m) :
    f.significand m = 2 ^ f.fractionBits + m % 2 ^ f.fractionBits :=
  if_neg (Nat.div_pos hm (Nat.two_pow_pos _)).ne'

/-- The exponent of a normal magnitude is the place of the leading bit of its units. -/
theorem log2_units {m : Nat} (hm : 2 ^ f.fractionBits ≤ m) :
    Nat.log2 (f.units m) = f.fractionBits + (m / 2 ^ f.fractionBits - 1) := by
  have hlt := f.significand_lt m
  have hle : 2 ^ f.fractionBits ≤ f.significand m := by
    rw [f.significand_of_normal hm]
    exact Nat.le_add_right _ _
  have hpos : 0 < 2 ^ f.fractionBits := Nat.two_pow_pos _
  have hstep : 0 < 2 ^ (m / 2 ^ f.fractionBits - 1) := Nat.two_pow_pos _
  rw [f.units_eq, Nat.log2_eq_iff (Nat.mul_ne_zero (by omega) hstep.ne'), Nat.pow_succ, Nat.pow_add,
    Nat.mul_right_comm]
  exact ⟨Nat.mul_le_mul_right _ hle, Nat.mul_lt_mul_of_pos_right (by omega) hstep⟩

/-- A number of the format is the nearest to itself. -/
theorem nearest_units (m : Nat) {den : Nat} (hden : 0 < den) :
    f.nearest (f.units m * den) den = m := by
  unfold nearest
  simp only [Nat.mul_div_cancel _ hden]
  by_cases hsmall : m < 2 ^ f.fractionBits
  · -- a subnormal number is not shifted, and its units are its magnitude
    have hshift : Nat.log2 m - f.fractionBits = 0 := by
      by_cases hzero : m = 0
      · rw [hzero, Nat.log2_zero, Nat.zero_sub]
      · exact Nat.sub_eq_zero_of_le ((Nat.log2_lt hzero).2 hsmall).le
    rw [f.units_of_lt (by omega), hshift, Nat.pow_zero, Nat.mul_one, roundHalfEven_mul m hden,
      Nat.zero_mul, Nat.zero_add]
  · -- the shift of a normal number leaves its significand
    have hnormal := not_lt.1 hsmall
    have hsplit := Nat.div_add_mod m (2 ^ f.fractionBits)
    obtain ⟨e, he⟩ := Nat.exists_eq_add_of_le' (Nat.div_pos hnormal (Nat.two_pow_pos _))
    rw [f.log2_units hnormal, Nat.add_sub_cancel_left, f.units_eq, he, Nat.add_sub_cancel,
      Nat.mul_assoc, Nat.mul_comm (2 ^ e) den,
      roundHalfEven_mul _ (Nat.mul_pos hden (Nat.two_pow_pos e)), f.significand_of_normal hnormal]
    rw [he] at hsplit
    linarith

/-- Every product of a significand and a power of two is the units of a magnitude. -/
theorem exists_units {s : Nat} (hs : s < 2 * 2 ^ f.fractionBits) (j : Nat) :
    ∃ m, f.units m = s * 2 ^ j := by
  induction j with
  | zero => exact ⟨s, by rw [f.units_of_lt hs, Nat.pow_zero, Nat.mul_one]⟩
  | succ j ih =>
      obtain ⟨m, hm⟩ := ih
      rw [Nat.pow_succ, ← Nat.mul_assoc, ← hm]
      by_cases hsmall : m < 2 ^ f.fractionBits
      · exact ⟨2 * m, by rw [f.units_of_lt (by omega), f.units_of_lt (by omega), Nat.mul_comm]⟩
      · exact ⟨_, (f.units_add (not_lt.1 hsmall)).trans (Nat.mul_comm _ _)⟩

end FloatFormat

/-! ## Order -/

namespace Binary

variable {f : FloatFormat} {x y : Binary f} {a b : Extended}

/-- The units of a finite number with its sign. -/
def signedUnits (x : Binary f) : ℤ := if x.negative then -(x.units : ℤ) else x.units

theorem signedUnits_lt_iff : x.signedUnits < y.signedUnits ↔ x.rank < y.rank := by
  have hzero : ∀ m, 0 < f.units m ↔ 0 < m := fun m => by
    conv_rhs => rw [← f.units_strictMono.lt_iff_lt, f.units_zero]
  have hxy := f.units_strictMono.lt_iff_lt (a := x.magnitude.val) (b := y.magnitude.val)
  have hyx := f.units_strictMono.lt_iff_lt (a := y.magnitude.val) (b := x.magnitude.val)
  have hx := hzero x.magnitude.val
  have hy := hzero y.magnitude.val
  unfold signedUnits rank units
  split <;> split <;> omega

/-- The number that a finite float is. -/
theorem number?_of_isFinite (hx : x.isFinite = true) :
    x.number? = some (.ofRat (x.signedUnits / 2 ^ f.scale)) := by
  have hnan : x.isNaN = false := by
    simp only [isFinite, isNaN, decide_eq_true_eq, decide_eq_false_iff_not] at hx ⊢
    omega
  unfold number? signedUnits
  rw [hnan, hx, if_neg Bool.false_ne_true, if_pos rfl]
  cases x.negative <;> simp

theorem isNaN_of_number? (hx : x.number? = some a) : x.isNaN = false := by
  by_contra hnan
  rw [number?, if_pos (by simpa using hnan)] at hx
  cases hx

/-- A float that is a number is finite, or one of the infinities at the ends of the order. -/
theorem number?_cases (hx : x.number? = some a) :
    (x.isFinite = true ∧ a = .ofRat (x.signedUnits / 2 ^ f.scale) ∧
        -(f.infinity : ℤ) < x.rank ∧ x.rank < f.infinity) ∨
      (a = ⊥ ∧ x.rank = -(f.infinity : ℤ)) ∨ (a = ⊤ ∧ x.rank = f.infinity) := by
  by_cases hfinite : x.isFinite = true
  · refine Or.inl ⟨hfinite, ?_⟩
    rw [number?_of_isFinite hfinite, Option.some.injEq] at hx
    simp only [isFinite, decide_eq_true_eq] at hfinite
    refine ⟨hx.symm, ?_⟩
    unfold rank
    split <;> omega
  · right
    unfold number? at hx
    split at hx
    · cases hx
    · next hnan =>
        have hmagnitude : x.magnitude.val = f.infinity := by
          simp only [isNaN, isFinite, decide_eq_true_eq] at hnan hfinite
          omega
        split at hx
        · next hneg =>
            cases hx
            exact Or.inl ⟨rfl, by rw [rank, if_pos hneg, hmagnitude]⟩
        · next hpos =>
            cases hx
            exact Or.inr ⟨rfl, by rw [rank, if_neg hpos, hmagnitude]⟩

/-- Floats are ordered by rank as the numbers they are. -/
theorem number?_lt_iff (hx : x.number? = some a) (hy : y.number? = some b) :
    a < b ↔ x.rank < y.rank := by
  have hinf := infinity_pos f
  rcases number?_cases hx with ⟨-, rfl, hlx, hhx⟩ | ⟨rfl, hrx⟩ | ⟨rfl, hrx⟩
  · rcases number?_cases hy with ⟨-, rfl, -, -⟩ | ⟨rfl, hry⟩ | ⟨rfl, hry⟩
    · have hscale : (0 : ℚ) < 2 ^ f.scale := by positivity
      rw [Extended.ofRat_lt, div_lt_div_iff_of_pos_right hscale, Int.cast_lt, signedUnits_lt_iff]
    · exact iff_of_false not_lt_bot (by omega)
    · exact iff_of_true (Extended.ofRat_lt_top _) (by omega)
  · rcases number?_cases hy with ⟨-, rfl, hly, hhy⟩ | ⟨rfl, hry⟩ | ⟨rfl, hry⟩
    · exact iff_of_true (Extended.bot_lt_ofRat _) (by omega)
    · exact iff_of_false (lt_irrefl _) (by omega)
    · exact iff_of_true bot_lt_top (by omega)
  · refine iff_of_false (not_lt_of_ge (le_top : b ≤ ⊤)) ?_
    rcases number?_cases hy with ⟨-, -, -, hhy⟩ | ⟨-, hry⟩ | ⟨-, hry⟩ <;> omega

theorem number?_le_iff (hx : x.number? = some a) (hy : y.number? = some b) :
    a ≤ b ↔ x.rank ≤ y.rank := by
  rw [← not_lt, number?_lt_iff hy hx, not_lt]

theorem isNaN_of_isFinite (hx : x.isFinite = true) : x.isNaN = false := by
  simp only [isFinite, isNaN, decide_eq_true_eq, decide_eq_false_iff_not] at hx ⊢
  omega

theorem exists_number? (hx : x.isNaN = false) : ∃ a, x.number? = some a := by
  unfold number?
  rw [hx, if_neg Bool.false_ne_true]
  split
  · exact ⟨_, rfl⟩
  · split <;> exact ⟨_, rfl⟩

/-- Floats of equal rank are one number, like the two zeros. -/
theorem number?_eq_of_rank (hx : x.isNaN = false) (hy : y.isNaN = false) (h : x.rank = y.rank) :
    x.number? = y.number? := by
  obtain ⟨a, ha⟩ := exists_number? hx
  obtain ⟨b, hb⟩ := exists_number? hy
  rw [ha, hb, le_antisymm ((number?_le_iff ha hb).2 h.le) ((number?_le_iff hb ha).2 h.ge)]

/-- A float that is an integer is that number. -/
theorem number?_of_integer? {n : ℤ} (hx : x.integer? = some n) :
    x.number? = some (.ofRat n) := by
  unfold integer? at hx
  split at hx
  · next hwhole =>
      simp only [Bool.and_eq_true, beq_iff_eq] at hwhole
      obtain ⟨hfinite, hmod⟩ := hwhole
      obtain ⟨k, hk⟩ := Nat.dvd_of_mod_eq_zero hmod
      have hpos : (0 : ℚ) < 2 ^ f.scale := by positivity
      rw [hk, Nat.mul_div_cancel_left _ (Nat.two_pow_pos _), Option.some.injEq] at hx
      rw [number?_of_isFinite hfinite, ← hx, signedUnits, hk, eq_comm]
      congr 2
      rw [eq_div_iff hpos.ne']
      split <;> push_cast <;> ring
  · cases hx

/-! ## Conversion -/

/-- Floats of the same sign and the same units, counted in the larger scale, are one number. -/
theorem number?_eq_of_units {g : FloatFormat} {z : Binary g} (hx : x.isFinite = true)
    (hz : z.isFinite = true) (hsign : z.negative = x.negative)
    (hunits : z.units * 2 ^ f.scale = x.units * 2 ^ g.scale) : z.number? = x.number? := by
  rw [number?_of_isFinite hx, number?_of_isFinite hz]
  congr 2
  have hf : (0 : ℚ) < 2 ^ f.scale := by positivity
  have hg : (0 : ℚ) < 2 ^ g.scale := by positivity
  have hcast : (z.units : ℚ) * 2 ^ f.scale = x.units * 2 ^ g.scale := by exact_mod_cast hunits
  rw [div_eq_div_iff hg.ne' hf.ne', signedUnits, signedUnits, hsign]
  split <;> push_cast <;> linarith

/-- A number of both formats is the nearest one of the other format. -/
theorem convert_eq {g : FloatFormat} (hx : x.isFinite = true) {m : Nat}
    (hm : g.units m * 2 ^ f.scale = x.units * 2 ^ g.scale) :
    (x.convert : Binary g) = ofMagnitude x.negative m := by
  unfold convert
  rw [isNaN_of_isFinite hx, hx, if_neg Bool.false_ne_true, if_pos rfl, ofRatio, ← hm,
    g.nearest_units _ (Nat.two_pow_pos _)]

theorem ofMagnitude_of_le (negative : Bool) {m : Nat} (hm : m ≤ f.infinity) :
    ofMagnitude negative m =
      (⟨negative, m, hm.trans_lt f.infinity_lt⟩ : Binary f) := by
  simp only [ofMagnitude, Nat.min_eq_left hm]

theorem infinite_of_not_isFinite (hnan : x.isNaN = false) (hx : ¬ x.isFinite = true) :
    x = infinite x.negative := by
  obtain ⟨negative, m⟩ := x
  simp only [isNaN, isFinite, decide_eq_true_eq, decide_eq_false_iff_not] at hnan hx
  rw [infinite, ofMagnitude_of_le negative le_rfl]
  simp only [mk.injEq, Fin.ext_iff, true_and]
  omega

theorem isNaN_infinite (negative : Bool) : (infinite negative : Binary f).isNaN = false :=
  isNaN_ofMagnitude _ _

theorem isFinite_infinite (negative : Bool) : (infinite negative : Binary f).isFinite = false := by
  simp [infinite, ofMagnitude, isFinite]

theorem number?_infinite (negative : Bool) :
    (infinite negative : Binary f).number? = some (if negative then ⊥ else ⊤) := by
  rw [number?, isNaN_infinite, isFinite_infinite, if_neg Bool.false_ne_true,
    if_neg Bool.false_ne_true]
  cases negative <;> rfl

/-- The infinities of both formats are the same numbers. -/
theorem convert_infinite {g : FloatFormat} (negative : Bool) :
    ((infinite negative : Binary f).convert : Binary g) = infinite negative := by
  rw [convert, isNaN_infinite, isFinite_infinite, if_neg Bool.false_ne_true,
    if_neg Bool.false_ne_true]
  rfl

/-- A single-precision number is one of double precision. -/
theorem exists_double {x : Binary .single} (hx : x.isFinite = true) :
    ∃ m < FloatFormat.double.infinity, FloatFormat.double.units m * 2 ^ FloatFormat.single.scale =
      x.units * 2 ^ FloatFormat.double.scale := by
  have hfits : 2 * 2 ^ FloatFormat.single.fractionBits <
      2 * 2 ^ FloatFormat.double.fractionBits := by
    decide
  have hroom : FloatFormat.single.units FloatFormat.single.infinity * 2 ^ FloatFormat.double.scale <
      FloatFormat.double.units FloatFormat.double.infinity * 2 ^ FloatFormat.single.scale := by
    decide +kernel
  obtain ⟨k, hk⟩ : ∃ k, 2 ^ FloatFormat.double.scale = 2 ^ k * 2 ^ FloatFormat.single.scale :=
    ⟨925, by decide +kernel⟩
  obtain ⟨m, hm⟩ := FloatFormat.exists_units .double
    ((FloatFormat.significand_lt .single x.magnitude.val).trans hfits)
    (x.magnitude.val / 2 ^ FloatFormat.single.fractionBits - 1 + k)
  rw [Nat.pow_add, ← Nat.mul_assoc, ← FloatFormat.units_eq] at hm
  have hunits : FloatFormat.double.units m * 2 ^ FloatFormat.single.scale =
      x.units * 2 ^ FloatFormat.double.scale := by
    rw [hm, hk, Nat.mul_assoc, units]
  refine ⟨m, ?_, hunits⟩
  -- the units of a finite single-precision number stay below those of the greater infinity
  simp only [isFinite, decide_eq_true_eq] at hx
  rw [← (FloatFormat.units_strictMono .double).lt_iff_lt]
  refine Nat.lt_of_mul_lt_mul_right (a := 2 ^ FloatFormat.single.scale) ?_
  have hless : x.units < FloatFormat.single.units FloatFormat.single.infinity :=
    FloatFormat.units_strictMono .single hx
  have hscaled : x.units * 2 ^ FloatFormat.double.scale <
      FloatFormat.single.units FloatFormat.single.infinity * 2 ^ FloatFormat.double.scale :=
    Nat.mul_lt_mul_of_pos_right hless (by positivity)
  rw [hunits]
  exact hscaled.trans hroom

/-- Converting to double precision keeps the number, and converting back restores it. -/
theorem convert_double {x : Binary .single} (hx : x.isNaN = false) :
    (x.convert : Binary .double).number? = x.number? ∧
      ((x.convert : Binary .double).convert : Binary .single) = x := by
  by_cases hfinite : x.isFinite = true
  · obtain ⟨m, hm, hunits⟩ := exists_double hfinite
    have hconvert := convert_eq hfinite hunits
    rw [ofMagnitude_of_le _ hm.le] at hconvert
    have hdouble : (x.convert : Binary .double).isFinite = true := by
      rw [hconvert]
      simpa only [isFinite, decide_eq_true_eq] using hm
    have hsame : (x.convert : Binary .double).units * 2 ^ FloatFormat.single.scale =
        x.units * 2 ^ FloatFormat.double.scale := by
      rw [hconvert]
      exact hunits
    constructor
    · exact number?_eq_of_units hfinite hdouble (by rw [hconvert]) hsame
    · rw [convert_eq hdouble hsame.symm, hconvert]
      simp only [isFinite, decide_eq_true_eq] at hfinite
      exact ofMagnitude_of_le _ hfinite.le
  · rw [infinite_of_not_isFinite hx hfinite, convert_infinite, convert_infinite,
      number?_infinite, number?_infinite]
    exact ⟨rfl, rfl⟩

end Binary

end SparseScan
