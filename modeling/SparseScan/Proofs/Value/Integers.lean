import SparseScan.Proofs.Value.Meaning

set_option autoImplicit false

/-! # Literals in integer datatypes

A literal becomes a value of an integer datatype exactly when it stands for an integer of the range,
and then it becomes that very integer (`ofLiteral_integer_iff`). The way of a double through 128
bits changes nothing: a float is read as an integer only if it is one
(`Binary.integer?_eq_some_iff`), and an integer that was clamped is in no range. One kind of literal
is taken for a bit pattern instead: a negative long where the datatype is the unsigned 64-bit
integers. -/

namespace SparseScan

/-! ## Integers among the numbers -/

theorem Extended.ofRat_inj {a b : ℚ} : Extended.ofRat a = .ofRat b ↔ a = b := by
  simp only [ofRat, WithBot.coe_inj, WithTop.coe_inj]

theorem Meaning.ofInt_inj {a b : ℤ} : Meaning.ofInt a = .ofInt b ↔ a = b := by
  simp only [ofInt, number.injEq, Extended.ofRat_inj, Int.cast_inj]

namespace Binary

variable {f : FloatFormat} {x : Binary f} {n : ℤ}

theorem number?_eq_none_iff : x.number? = none ↔ x.isNaN = true := by
  constructor
  · intro hnone
    by_contra hx
    obtain ⟨a, ha⟩ := exists_number? (by simpa using hx)
    rw [hnone] at ha
    cases ha
  · intro hx
    rw [number?, if_pos hx]

/-- A float that is a rational number is finite. -/
theorem isFinite_of_number? {q : ℚ} (hx : x.number? = some (.ofRat q)) : x.isFinite = true := by
  rcases number?_cases hx with ⟨hfinite, -, -, -⟩ | ⟨hbot, -⟩ | ⟨htop, -⟩
  · exact hfinite
  · exact absurd hbot (Extended.bot_lt_ofRat q).ne'
  · exact absurd htop (Extended.ofRat_lt_top q).ne

theorem natAbs_signedUnits (x : Binary f) : x.signedUnits.natAbs = x.units := by
  unfold signedUnits
  split <;> simp

/-- A float is read as an integer exactly when the number that it is is that integer. -/
theorem integer?_eq_some_iff : x.integer? = some n ↔ x.number? = some (.ofRat n) := by
  refine ⟨number?_of_integer?, fun hx => ?_⟩
  have hfinite := isFinite_of_number? hx
  have hsigned : x.signedUnits = n * 2 ^ f.scale := by
    have hpos : (0 : ℚ) < 2 ^ f.scale := by positivity
    have hratio := hx
    rw [number?_of_isFinite hfinite, Option.some.injEq, Extended.ofRat_inj,
      div_eq_iff hpos.ne'] at hratio
    exact_mod_cast hratio
  have hwhole : x.units % 2 ^ f.scale = 0 := by
    rw [← natAbs_signedUnits, hsigned, Int.natAbs_mul, Int.natAbs_pow]
    exact Nat.mul_mod_left _ _
  -- so the float is read as some integer, and a float is only one number
  obtain ⟨m, hm⟩ : ∃ m, x.integer? = some m := by
    unfold integer?
    rw [if_pos (by simp [hfinite, hwhole])]
    exact ⟨_, rfl⟩
  have hsame := number?_of_integer? hm
  rw [hx, Option.some.injEq, Extended.ofRat_inj, Int.cast_inj] at hsame
  rw [hm, hsame]

/-- A single-precision number is the same number in double precision, and a NaN stays one. -/
theorem number?_convert_double (x : Binary .single) :
    (x.convert : Binary .double).number? = x.number? := by
  by_cases hx : x.isNaN = true
  · have hnan : (x.convert : Binary .double).isNaN = true := by
      rw [convert, if_pos hx]
      simp [isNaN, nan, FloatFormat.fractionBits]
    rw [number?_eq_none_iff.2 hnan, number?_eq_none_iff.2 hx]
  · exact (convert_double (by simpa using hx)).1

end Binary

/-- Whether a literal in a column of type `t` is the bit pattern of an integer of range `k`: a
    column of longs has no other literal for an unsigned integer beyond them. -/
def Literal.isPattern (k : IntKind) (t : ColumnType) : Literal → Prop
  | .long n => k = .uint64 ∧ t ≠ .real ∧ n.val < 0
  | _ => False

namespace StoredValue

variable {d : Datatype} {k : IntKind} {t : ColumnType} {l : Literal}

/-! ## Numbers of literals -/

/-- The number of a literal means what the literal does; of a NaN neither means anything. -/
theorem Number.meaning?_ofLiteral {n : Number} (h : Number.ofLiteral d t l = .ok n) :
    n.meaning? = l.meaning? t := by
  cases l with
  | boolean b =>
      cases h
      rfl
  | long m =>
      simp only [Number.ofLiteral, Literal.meaning?] at h ⊢
      split at h
      · next ht =>
          split at h
          · next x hx =>
              cases h
              rw [if_pos ht, hx, Option.bind_some, Number.meaning?, x.number?_convert_double]
          · cases h
      · next ht =>
          cases h
          rw [if_neg ht, Number.meaning?]
  | double x =>
      cases h
      rfl
  | bytes bs => cases h

/-- A literal that has no number stands for no integer. -/
theorem Number.meaning?_ne_of_error {e : ValueError} (h : Number.ofLiteral d t l = .error e)
    (m : ℤ) : l.meaning? t ≠ some (.ofInt m) := by
  cases l with
  | boolean b => cases h
  | long n =>
      simp only [Number.ofLiteral] at h
      split at h
      · next ht =>
          split at h
          · cases h
          · next hnone => simp [Literal.meaning?, ht, hnone]
      · cases h
  | double x => cases h
  | bytes bs => simp [Literal.meaning?, Meaning.ofInt]

/-- Only a literal that is a bit pattern has a negative integer where the range is the unsigned
    64-bit one. -/
theorem Number.nonneg_of_not_isPattern {m : ℤ} (h : Number.ofLiteral d t l = .ok (.whole m))
    (hl : ¬ l.isPattern k t) (hk : k = .uint64) : 0 ≤ m := by
  cases l with
  | boolean b =>
      cases h
      cases b <;> simp
  | long n =>
      simp only [Number.ofLiteral] at h
      split at h
      · split at h <;> cases h
      · next ht =>
          cases h
          exact not_lt.1 fun hneg => hl ⟨hk, ht, hneg⟩
  | double x => cases h
  | bytes bs => cases h

/-! ## Integers of a range -/

theorem fitInteger_eq_ok_iff {m : ℤ} {s : StoredValue} :
    fitInteger k d m = .ok s ↔ ∃ v : k.Value, s = int k v ∧ m = v.val := by
  constructor
  · intro h
    obtain ⟨v, hs, hv⟩ := fitInteger_eq_ok h
    exact ⟨v, hs, hv.symm⟩
  · rintro ⟨v, rfl, rfl⟩
    simp only [fitInteger, IntKind.ofInt?_eq_some_iff.2 rfl]

/-- An integer of a range passes through 128 bits as it is, and no other integer becomes it. -/
theorem clamp128_eq_iff (v : k.Value) (n : ℤ) : clamp128 n = v.val ↔ n = v.val := by
  constructor
  · intro h
    exact (clamp128_eq h.symm).symm
  · rintro rfl
    have hleast : -2 ^ 127 ≤ k.least := by cases k <;> decide
    have hgreatest : k.greatest ≤ 2 ^ 127 - 1 := by cases k <;> decide
    obtain ⟨hlow, hhigh⟩ := v.property
    unfold clamp128
    omega

/-- A number goes into a range exactly as the integer of it that it means. -/
theorem toInteger_eq_ok_iff {n : Number} {s : StoredValue}
    (hn : ∀ m, n = .whole m → k = .uint64 → 0 ≤ m) :
    toInteger k d n = .ok s ↔ ∃ v : k.Value, s = int k v ∧ n.meaning? = some (.ofInt v.val) := by
  cases n with
  | whole m =>
      have hguard : ¬ (k = .uint64 ∧ m < 0) := fun h => not_lt.2 (hn m rfl h.1) h.2
      simp only [toInteger, if_neg hguard, fitInteger_eq_ok_iff, Number.meaning?,
        Option.some.injEq, Meaning.ofInt_inj]
  | real x =>
      have hmeaning : ∀ m : ℤ,
          (Number.real x).meaning? = some (.ofInt m) ↔ x.integer? = some m := by
        intro m
        rw [Binary.integer?_eq_some_iff, Number.meaning?, Option.map_eq_some_iff]
        simp only [Meaning.ofInt, Meaning.number.injEq, exists_eq_right]
      simp only [hmeaning, toInteger]
      cases hx : x.integer? with
      | none => simp
      | some m => simp only [fitInteger_eq_ok_iff, clamp128_eq_iff, Option.some.injEq]

/-- A negative long is the bit pattern of an integer beyond the range of longs. -/
theorem ofLiteral_pattern {n : Long} (hd : d.form = .int .uint64) (ht : t ≠ .real)
    (hn : n.val < 0) : ∃ v : IntKind.uint64.Value,
      ofLiteral d t (.long n) = .ok (int .uint64 v) ∧ v.val = n.val + 2 ^ 64 := by
  have hbounds := IntKind.value_bounds (k := .int64) (by decide) n
  have hholds : IntKind.uint64.Holds (n.val + 2 ^ 64) := by
    have hleast : IntKind.uint64.least = 0 := by decide
    have hgreatest : IntKind.uint64.greatest = 2 ^ 64 - 1 := by decide
    unfold IntKind.Holds
    rw [hleast, hgreatest]
    omega
  refine ⟨⟨_, hholds⟩, ?_, rfl⟩
  simp only [ofLiteral, hd, Number.ofLiteral, if_neg ht, toInteger, hn, and_self, if_true]
  exact fitInteger_eq_ok_iff.2 ⟨⟨_, hholds⟩, rfl, rfl⟩

/-! ## Literals -/

/-- A literal becomes a value of an integer datatype exactly as the integer of the range that it
    stands for, and is refused if it stands for no such integer. The exception is a negative long
    that is a bit pattern: it always becomes the unsigned 64-bit integer with that pattern. -/
theorem ofLiteral_integer_iff (hd : d.form = .int k) (t : ColumnType) (l : Literal) :
    (¬ l.isPattern k t →
      (∀ s, ofLiteral d t l = .ok s ↔
        ∃ v : k.Value, s = int k v ∧ l.meaning? t = some (.ofInt v.val)) ∧
      ((∃ e, ofLiteral d t l = .error e) ↔
        ∀ m : ℤ, k.Holds m → l.meaning? t ≠ some (.ofInt m))) ∧
    ∀ n : Long, l = .long n → l.isPattern k t →
      ∃ v : k.Value, ofLiteral d t l = .ok (int k v) ∧ v.val = n.val + 2 ^ 64 := by
  constructor
  · intro hl
    have hvalue : ∀ s, ofLiteral d t l = .ok s ↔
        ∃ v : k.Value, s = int k v ∧ l.meaning? t = some (.ofInt v.val) := by
      intro s
      unfold ofLiteral
      rw [hd]
      cases hnumber : Number.ofLiteral d t l with
      | ok n =>
          rw [← Number.meaning?_ofLiteral hnumber]
          refine toInteger_eq_ok_iff fun m hm hk => ?_
          rw [hm] at hnumber
          exact Number.nonneg_of_not_isPattern hnumber hl hk
      | error e =>
          have hnone := Number.meaning?_ne_of_error hnumber
          simp [hnone]
    refine ⟨hvalue, ?_⟩
    constructor
    · rintro ⟨e, he⟩ m hm hmeaning
      have hok := (hvalue (int k ⟨m, hm⟩)).2 ⟨⟨m, hm⟩, rfl, hmeaning⟩
      rw [he] at hok
      cases hok
    · intro hnone
      cases hresult : ofLiteral d t l with
      | error e => exact ⟨e, rfl⟩
      | ok s =>
          obtain ⟨v, -, hmeaning⟩ := (hvalue s).1 hresult
          exact absurd hmeaning (hnone v.val v.property)
  · rintro n rfl ⟨rfl, ht, hn⟩
    exact ofLiteral_pattern hd ht hn

/-- The single-precision number minus one. -/
def minusOne : Binary .single := Binary.ofBits 0xBF800000

/-- Into unsigned 64-bit integers go the double `2 ^ 63`, as the number that it is, and the long
    minus one, as a bit pattern. The single-precision number minus one does not. -/
theorem ofLiteral_integer_uint64 :
    ofLiteral .uint64 .bigInt (.double (Binary.ofBits 0x43E0000000000000)) =
        .ok (int .uint64 ⟨2 ^ 63, by decide⟩) ∧
      (∃ v : IntKind.uint64.Value, ofLiteral .uint64 .bigInt (.long ⟨-1, by decide⟩) =
        .ok (int .uint64 v) ∧ v.val = -1 + 2 ^ 64) ∧
      ∃ e, ofLiteral .uint64 .real (.long (packReal minusOne)) = .error e := by
  refine ⟨?_, ?_, ?_⟩
  · obtain ⟨hvalue, -⟩ := (ofLiteral_integer_iff (d := .uint64) rfl .bigInt
      (.double (Binary.ofBits 0x43E0000000000000))).1 id
    have hinteger : (Binary.ofBits 0x43E0000000000000 : Binary .double).integer? =
        some (2 ^ 63) := by decide +kernel
    refine (hvalue _).2 ⟨_, rfl, ?_⟩
    rw [Literal.meaning?, Binary.number?_of_integer? hinteger, Option.map_some, Meaning.ofInt]
  · exact (ofLiteral_integer_iff (d := .uint64) rfl .bigInt (.long ⟨-1, by decide⟩)).2 _ rfl
      ⟨rfl, by decide, by decide⟩
  · obtain ⟨-, hrefused⟩ := (ofLiteral_integer_iff (d := .uint64) rfl .real
      (.long (packReal minusOne))).1 fun h => h.2.1 rfl
    have hinteger : minusOne.integer? = some (-1) := by decide +kernel
    have hcarried : unpackReal? (packReal minusOne) = some minusOne := by decide
    refine hrefused.2 fun m hm hmeaning => ?_
    rw [Literal.meaning?, if_pos rfl, hcarried, Option.bind_some,
      Binary.number?_of_integer? hinteger, Option.map_some, Option.some.injEq] at hmeaning
    rw [← Meaning.ofInt_inj.1 hmeaning] at hm
    exact absurd hm (by decide)

end StoredValue

end SparseScan
