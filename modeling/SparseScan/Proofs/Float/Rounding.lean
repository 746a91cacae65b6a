import SparseScan.Proofs.Float.Numbers
import SparseScan.Proofs.Value.Meaning

set_option autoImplicit false

/-! # Rounding keeps the order

Rounding to the nearest number never passes a number of the format: it is monotone
(`FloatFormat.nearest_mono`) and leaves the numbers of the format where they are. A float that is
`Near` an exact number is on no wrong side of any float; `Number.toFloat_near` says that of every
number that becomes a float. The float and the exact number can still be on different sides of each
other, so a strict comparison with one is not a strict comparison with the other. -/

namespace SparseScan

/-! ## Fractions -/

section

variable {a b d : Nat}

theorem div_le_roundHalfEven (a d : Nat) : a / d ≤ roundHalfEven a d := by
  unfold roundHalfEven
  simp only
  split
  · exact le_rfl
  · split
    · omega
    · split <;> omega

theorem roundHalfEven_le_succ (a d : Nat) : roundHalfEven a d ≤ a / d + 1 := by
  unfold roundHalfEven
  simp only
  split
  · omega
  · split
    · exact le_rfl
    · split <;> omega

theorem roundHalfEven_mono (d : Nat) (hab : a ≤ b) : roundHalfEven a d ≤ roundHalfEven b d := by
  have hdiv := Nat.div_le_div_right (c := d) hab
  rcases hdiv.lt_or_eq with hlt | heq
  · -- the whole parts differ, and neither rounding crosses an integer
    have ha := roundHalfEven_le_succ a d
    have hb := div_le_roundHalfEven b d
    omega
  · -- of equal whole parts the greater remainder decides
    have hmod : a % d ≤ b % d := by
      have hasplit := Nat.div_add_mod a d
      have hbsplit := Nat.div_add_mod b d
      rw [heq] at hasplit
      omega
    unfold roundHalfEven
    simp only [heq]
    split_ifs <;> omega

theorem roundHalfEven_le (hd : 0 < d) {n : Nat} (h : a ≤ n * d) : roundHalfEven a d ≤ n := by
  rw [← roundHalfEven_mul n hd]
  exact roundHalfEven_mono d h

theorem le_roundHalfEven (hd : 0 < d) {n : Nat} (h : n * d ≤ a) : n ≤ roundHalfEven a d := by
  rw [← roundHalfEven_mul n hd]
  exact roundHalfEven_mono d h

end

/-! ## Magnitudes -/

namespace FloatFormat

variable (f : FloatFormat) {a b den : Nat}

/-- How many fraction bits `nearest` drops from a whole part. -/
def shift (whole : Nat) : Nat := Nat.log2 whole - f.fractionBits

theorem nearest_eq (a den : Nat) :
    f.nearest a den = f.shift (a / den) * 2 ^ f.fractionBits +
      roundHalfEven a (den * 2 ^ f.shift (a / den)) := rfl

theorem shift_mono {m n : Nat} (h : m ≤ n) : f.shift m ≤ f.shift n := by
  unfold shift
  by_cases hm : m = 0
  · simp [hm]
  · have hn : n ≠ 0 := by omega
    have hlog : Nat.log2 m ≤ Nat.log2 n := by
      rw [Nat.le_log2 hn]
      exact (Nat.log2_self_le hm).trans h
    omega

/-- What is dropped leaves one bit more than the fraction at most. -/
theorem lt_shift (n : Nat) : n < 2 ^ (f.fractionBits + 1 + f.shift n) := by
  by_cases hn : n = 0
  · simp [hn]
  · rw [← Nat.log2_lt hn]
    unfold shift
    omega

/-- What is dropped, if anything, leaves the whole fraction. -/
theorem shift_le {n : Nat} (h : 0 < f.shift n) : 2 ^ (f.fractionBits + f.shift n) ≤ n := by
  have hn : n ≠ 0 := by
    rintro rfl
    simp [shift] at h
  rw [← Nat.le_log2 hn]
  unfold shift at h ⊢
  omega

/-- Rounding to the nearest magnitude is monotone. -/
theorem nearest_mono (hden : 0 < den) (hab : a ≤ b) : f.nearest a den ≤ f.nearest b den := by
  rw [nearest_eq, nearest_eq]
  rcases (f.shift_mono (Nat.div_le_div_right (c := den) hab)).lt_or_eq with hlt | heq
  · -- the significand of the first carries to the next exponent at most, and the second is there
    have hupper : roundHalfEven a (den * 2 ^ f.shift (a / den)) ≤ 2 ^ (f.fractionBits + 1) := by
      refine roundHalfEven_le (Nat.mul_pos hden (Nat.two_pow_pos _)) ?_
      have hwhole := (Nat.div_lt_iff_lt_mul hden).1 (f.lt_shift (a / den))
      rw [Nat.pow_add, Nat.mul_assoc, Nat.mul_comm _ den] at hwhole
      exact hwhole.le
    have hlower : 2 ^ f.fractionBits ≤ roundHalfEven b (den * 2 ^ f.shift (b / den)) := by
      refine le_roundHalfEven (Nat.mul_pos hden (Nat.two_pow_pos _)) ?_
      have hwhole := (Nat.le_div_iff_mul_le hden).1 (f.shift_le (by omega : 0 < f.shift (b / den)))
      rwa [Nat.pow_add, Nat.mul_assoc, Nat.mul_comm _ den] at hwhole
    calc f.shift (a / den) * 2 ^ f.fractionBits + roundHalfEven a (den * 2 ^ f.shift (a / den))
        ≤ f.shift (a / den) * 2 ^ f.fractionBits + 2 ^ (f.fractionBits + 1) :=
          Nat.add_le_add_left hupper _
      _ = (f.shift (a / den) + 1) * 2 ^ f.fractionBits + 2 ^ f.fractionBits := by ring
      _ ≤ f.shift (b / den) * 2 ^ f.fractionBits +
            roundHalfEven b (den * 2 ^ f.shift (b / den)) :=
          Nat.add_le_add (Nat.mul_le_mul_right _ hlt) hlower
  · rw [heq]
    exact Nat.add_le_add_left (roundHalfEven_mono _ hab) _

theorem nearest_le {m : Nat} (hden : 0 < den) (h : a ≤ f.units m * den) : f.nearest a den ≤ m := by
  rw [← f.nearest_units m hden]
  exact f.nearest_mono hden h

theorem le_nearest {m : Nat} (hden : 0 < den) (h : f.units m * den ≤ a) : m ≤ f.nearest a den := by
  rw [← f.nearest_units m hden]
  exact f.nearest_mono hden h

end FloatFormat

/-! ## Floats -/

namespace Binary

variable {f g : FloatFormat} {x y : Binary f} {a : Extended}

/-- No float is on the wrong side of `y` for a float that stands in for `a`. -/
def Near (y : Binary f) (a : Extended) : Prop :=
  ∀ (x : Binary f) (b : Extended), x.number? = some b →
    (a ≤ b → y.rank ≤ x.rank) ∧ (b ≤ a → x.rank ≤ y.rank)

theorem near_of_number? (hy : y.number? = some a) : y.Near a := by
  intro x b hx
  exact ⟨(number?_le_iff hy hx).1, (number?_le_iff hx hy).1⟩

/-- A float near a number of the format is that number. -/
theorem Near.rank_eq (hy : y.Near a) (hx : x.number? = some a) : y.rank = x.rank := by
  obtain ⟨hle, hge⟩ := hy x a hx
  exact le_antisymm (hle le_rfl) (hge le_rfl)

theorem signedUnits_neg (x : Binary f) : x.neg.signedUnits = -x.signedUnits := by
  unfold signedUnits units neg
  cases x.negative <;> simp

theorem magnitude_le (hx : x.isNaN = false) : x.magnitude.val ≤ f.infinity := by
  simpa [isNaN] using hx

/-- A fraction with a sign, as `ofRatio` takes it. -/
def signed (negative : Bool) (num : Nat) : ℤ := if negative then -(num : ℤ) else num

theorem signed_not (negative : Bool) (num : Nat) :
    signed (!negative) num = -signed negative num := by
  cases negative <;> simp [signed]

theorem neg_ofRatio (negative : Bool) (num den : Nat) :
    (ofRatio negative num den : Binary f).neg = ofRatio (!negative) num den := rfl

theorem rank_ofRatio (negative : Bool) (num den : Nat) :
    (ofRatio negative num den : Binary f).rank =
      signed negative (min (f.nearest (num * 2 ^ f.scale) den) f.infinity) := by
  cases negative <;> rfl

theorem rank_ofRatio_bounds (negative : Bool) (num den : Nat) :
    -(f.infinity : ℤ) ≤ (ofRatio negative num den : Binary f).rank ∧
      (ofRatio negative num den : Binary f).rank ≤ f.infinity := by
  rw [rank_ofRatio]
  unfold signed
  split <;> omega

/-- A fraction rounds to no more than a float that is at least the fraction. -/
theorem rank_ofRatio_le {negative : Bool} {num den : Nat} (hden : 0 < den)
    (hx : x.isNaN = false)
    (h : signed negative num * 2 ^ f.scale ≤ x.signedUnits * den) :
    (ofRatio negative num den : Binary f).rank ≤ x.rank := by
  have hm := magnitude_le hx
  rw [rank_ofRatio]
  unfold signed signedUnits rank at *
  cases negative
  · cases hneg : x.negative
    · -- both positive: the nearest magnitude stays below that of the float
      simp only [hneg, Bool.false_eq_true, if_false] at h ⊢
      have hnum : num * 2 ^ f.scale ≤ f.units x.magnitude.val * den := by exact_mod_cast h
      have hle := f.nearest_le hden hnum
      omega
    · -- a negative float at least a positive fraction: both are zero
      simp only [hneg, Bool.false_eq_true, if_false, if_true] at h ⊢
      have hsum : num * 2 ^ f.scale + x.units * den = 0 := by
        have hle : (num * 2 ^ f.scale + x.units * den : ℤ) ≤ 0 := by linarith
        exact Nat.le_zero.1 (by exact_mod_cast hle)
      obtain ⟨hnum, hunits⟩ := Nat.add_eq_zero_iff.1 hsum
      have hle : f.nearest (num * 2 ^ f.scale) den ≤ 0 := f.nearest_le hden (by simp [hnum])
      have hzero : x.magnitude.val = 0 := by
        refine f.units_strictMono.injective (Eq.trans ?_ f.units_zero.symm)
        exact (Nat.mul_eq_zero.1 hunits).resolve_right hden.ne'
      omega
  · cases hneg : x.negative
    · simp only [if_true, Bool.false_eq_true, if_false]
      omega
    · -- both negative: the nearest magnitude stays above that of the float
      simp only [hneg, if_true] at h ⊢
      have hnum : f.units x.magnitude.val * den ≤ num * 2 ^ f.scale := by
        have : (x.units * den : ℤ) ≤ num * 2 ^ f.scale := by linarith
        exact_mod_cast this
      have hle := f.le_nearest hden hnum
      omega

/-- A fraction rounds to no less than a float that is at most the fraction. -/
theorem le_rank_ofRatio {negative : Bool} {num den : Nat} (hden : 0 < den)
    (hx : x.isNaN = false)
    (h : x.signedUnits * den ≤ signed negative num * 2 ^ f.scale) :
    x.rank ≤ (ofRatio negative num den : Binary f).rank := by
  have hflip : (ofRatio (!negative) num den : Binary f).rank ≤ x.neg.rank :=
    rank_ofRatio_le hden (by rwa [isNaN_neg]) (by rw [signed_not, signedUnits_neg]; linarith)
  rw [← neg_ofRatio, rank_neg, rank_neg] at hflip
  omega

/-- A fraction rounds to a float near it. -/
theorem ofRatio_near {negative : Bool} {num den : Nat} (hden : 0 < den) :
    (ofRatio negative num den : Binary f).Near (.ofRat (signed negative num / den)) := by
  intro x b hx
  have hnan := isNaN_of_number? hx
  have hscale : (0 : ℚ) < 2 ^ f.scale := by positivity
  have hdenq : (0 : ℚ) < den := by exact_mod_cast hden
  obtain ⟨hlow, hhigh⟩ := rank_ofRatio_bounds (f := f) negative num den
  rcases number?_cases hx with ⟨-, rfl, -, -⟩ | ⟨rfl, hrank⟩ | ⟨rfl, hrank⟩
  · rw [Extended.ofRat_le, Extended.ofRat_le, div_le_div_iff₀ hdenq hscale,
      div_le_div_iff₀ hscale hdenq]
    constructor
    · intro h
      exact rank_ofRatio_le hden hnan (by exact_mod_cast h)
    · intro h
      exact le_rank_ofRatio hden hnan (by exact_mod_cast h)
  · exact ⟨fun h => absurd h (not_le_of_gt (Extended.bot_lt_ofRat _)), fun _ => by omega⟩
  · exact ⟨fun _ => by omega, fun h => absurd h (not_le_of_gt (Extended.ofRat_lt_top _))⟩

theorem ofInt_near (n : ℤ) : (ofInt n : Binary f).Near (.ofRat n) := by
  have hratio : (ofInt n : Binary f).Near (.ofRat (signed (decide (n < 0)) n.natAbs / (1 : ℕ))) :=
    ofRatio_near Nat.one_pos
  have hsigned : signed (decide (n < 0)) n.natAbs = n := by
    unfold signed
    by_cases hneg : n < 0
    · simp [hneg, abs_of_neg]
    · simp [hneg, abs_of_nonneg (not_lt.1 hneg)]
  rwa [hsigned, Nat.cast_one, div_one] at hratio

theorem convert_near (hx : x.number? = some a) : (x.convert : Binary g).Near a := by
  have hnan := isNaN_of_number? hx
  by_cases hfinite : x.isFinite = true
  · rw [number?_of_isFinite hfinite, Option.some.injEq] at hx
    have hratio : (ofRatio x.negative x.units (2 ^ f.scale) : Binary g).Near
        (.ofRat (signed x.negative x.units / (2 ^ f.scale : ℕ))) :=
      ofRatio_near (Nat.two_pow_pos f.scale)
    rw [convert, hnan, hfinite, if_neg Bool.false_ne_true, if_pos rfl, ← hx]
    simpa [signed, signedUnits] using hratio
  · -- the infinities are numbers of every format
    rw [infinite_of_not_isFinite hnan hfinite] at hx ⊢
    rw [convert_infinite]
    rw [number?_infinite] at hx
    exact near_of_number? ((number?_infinite _).trans hx)

end Binary

/-! ## Literals -/

namespace StoredValue

variable {f : FloatFormat} {d : Datatype} {t : ColumnType} {l : Literal} {s : StoredValue}
  {m : Meaning}

/-- A number becomes a float near it. -/
theorem Number.toFloat_near {n : Number} (h : n.meaning? = some m) :
    ∃ a, m = .number a ∧ (toFloat f n).Near a := by
  cases n with
  | whole n =>
      cases h
      refine ⟨_, rfl, ?_⟩
      cases f <;> exact Binary.ofInt_near n
  | real x =>
      obtain ⟨a, ha, rfl⟩ := Option.map_eq_some_iff.1 h
      refine ⟨a, rfl, ?_⟩
      cases f with
      | single => exact Binary.convert_near ha
      | double => exact Binary.near_of_number? ha

/-- A literal becomes a float near what it stands for. -/
theorem ofLiteral_near (hd : d.form = .float f) (h : ofLiteral d t l = .ok s)
    (hm : l.meaning? t = some m) : ∃ a y, m = .number a ∧ s = float f y ∧ y.Near a := by
  unfold ofLiteral at h
  rw [hd] at h
  simp only at h
  split at h
  · next n hn =>
      cases h
      obtain ⟨a, rfl, hnear⟩ := Number.toFloat_near (f := f) (Number.ofLiteral_meaning hn hm)
      exact ⟨a, _, rfl, rfl, hnear⟩
  · cases h

end StoredValue

end SparseScan
