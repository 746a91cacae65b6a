import SparseScan.Proofs.Float.Numbers
import SparseScan.Proofs.Value.Conversion

set_option autoImplicit false

/-! # Conversions keep meanings

A literal that becomes a value of a dimension means the same as that value
(`StoredValue.ofLiteral_meaning`), and stored values are ordered as what they mean
(`StoredValue.meaning_compares`). Datetimes, which mean something else than the count that is
stored, and unsigned 64-bit integers, which are read as signed ones, are left out. -/

namespace SparseScan

/-! ## Literals -/

/-- A literal with a meaning is not a NaN. -/
theorem Literal.isNaN_of_meaning {t : ColumnType} {l : Literal} {a : Meaning}
    (h : l.meaning? t = some a) : l.isNaN t = false := by
  cases l with
  | boolean b => rfl
  | long n =>
      simp only [Literal.meaning?] at h
      split at h
      · next ht =>
          obtain ⟨y, hy, -⟩ := Option.map_eq_some_iff.1 h
          obtain ⟨x, hx, hnumber⟩ := Option.bind_eq_some_iff.1 hy
          rw [Literal.isNaN, hx, Option.any_some, Binary.isNaN_of_number? hnumber, Bool.and_false]
      · next ht => rw [Literal.isNaN, beq_eq_false_iff_ne.2 ht, Bool.false_and]
  | double x =>
      obtain ⟨y, hy, -⟩ := Option.map_eq_some_iff.1 h
      exact Binary.isNaN_of_number? hy
  | bytes bs => rfl

/-- Equal literals mean the same. -/
theorem Literal.meaning?_of_same {t : ColumnType} {l l' : Literal} (h : l.same l' = true) :
    l.meaning? t = l'.meaning? t := by
  cases l with
  | boolean b =>
      cases l' with
      | boolean b' => rw [beq_iff_eq.1 h]
      | _ => cases h
  | long n =>
      cases l' with
      | long n' => rw [beq_iff_eq.1 h]
      | _ => cases h
  | double x =>
      cases l' with
      | double y =>
          -- the two zeros are equal, so ranks decide and not bit patterns
          simp only [Literal.same, Binary.same, Bool.and_eq_true, Bool.not_eq_true',
            beq_iff_eq] at h
          exact congrArg (Option.map _) (Binary.number?_eq_of_rank h.1.1 h.1.2 h.2)
      | _ => cases h
  | bytes bs =>
      cases l' with
      | bytes bs' => rw [beq_iff_eq.1 h]
      | _ => cases h

/-- Whether a literal of a column of type `t` becomes a value of datatype `d` without rounding: in
    datatypes of floats only the literals that the column carries do, and unsigned 64-bit integers
    are not the numbers that the column carries. -/
def Literal.exactIn (d : Datatype) (t : ColumnType) (l : Literal) : Prop :=
  match d, l with
  | .uint64, _ => False
  | .float32, .long _ => t = .real
  | .float32, _ => False
  | .float64, .double _ => t = .double
  | .float64, _ => False
  | _, _ => True

theorem Datatype.eq_uint64 {d : Datatype} (h : d.form = .int .uint64) : d = .uint64 := by
  cases d <;> simp_all [Datatype.form]

/-! ## Integers -/

namespace StoredValue

section

variable {d : Datatype} {k : IntKind}

/-- A reader sees the integer that is stored. -/
theorem toLong_int (hk : k ≠ .uint64) (n : k.Value) :
    ∃ c : Long, (int k n).toLong = .ok c ∧ c.val = n.val := by
  obtain ⟨hlow, hhigh⟩ := IntKind.value_bounds hk n
  have hsize : IntKind.int64.size = 2 ^ 64 := by decide
  refine ⟨_, rfl, ?_⟩
  simp only [IntKind.ofPattern, hsize, IntKind.signed, true_and]
  push_cast
  have hpos : 0 ≤ n.val % 2 ^ 64 := Int.emod_nonneg _ (by norm_num)
  split <;> omega

theorem meaning?_int (hk : k ≠ .uint64) (hd : ∀ unit, d ≠ .dateTime unit) (n : k.Value) :
    (int k n).meaning? d = some (.ofInt n.val) := by
  obtain ⟨c, hc, hval⟩ := toLong_int hk n
  unfold meaning?
  simp only [hc, hval]

theorem meaning?_dateTime {unit : TimeUnit} {n : Long} {m : Meaning}
    (h : (int .int64 n).meaning? (.dateTime unit) = some m) :
    ∃ value, unit.toRelational n = .ok value ∧ m = .ofInt value.val := by
  obtain ⟨c, hc, hval⟩ := toLong_int (k := .int64) (by decide) n
  obtain rfl : c = n := Subtype.ext hval
  unfold meaning? at h
  simp only [hc] at h
  split at h
  · next value hvalue =>
      cases h
      exact ⟨value, hvalue, rfl⟩
  · cases h

end

/-! ## Literals in stored form -/

section

variable {d : Datatype} {t : ColumnType} {l : Literal} {s : StoredValue} {a : Meaning}

/-- What a number stands for, if it is one. -/
def Number.meaning? : Number → Option Meaning
  | .whole n => some (.ofInt n)
  | .real x => x.number?.map .number

theorem Number.ofLiteral_meaning {n : Number} (h : Number.ofLiteral d t l = .ok n)
    (ha : l.meaning? t = some a) : n.meaning? = some a := by
  cases l with
  | boolean b =>
      cases h
      exact ha
  | long m =>
      simp only [Number.ofLiteral, Literal.meaning?] at h ha
      split at h
      · next ht =>
          rw [if_pos ht] at ha
          split at h
          · next x hx =>
              cases h
              rw [hx, Option.bind_some] at ha
              obtain ⟨y, hy, rfl⟩ := Option.map_eq_some_iff.1 ha
              have hnan := Binary.isNaN_of_number? hy
              rw [Number.meaning?, (Binary.convert_double hnan).1, hy, Option.map_some]
          · cases h
      · next ht =>
          cases h
          rwa [if_neg ht] at ha
  | double x =>
      cases h
      exact ha
  | bytes bs => cases h

theorem clamp128_eq {k : IntKind} {n : ℤ} {v : k.Value} (h : v.val = clamp128 n) : v.val = n := by
  have hleast : -2 ^ 127 < k.least := by cases k <;> decide
  have hgreatest : k.greatest < 2 ^ 127 - 1 := by cases k <;> decide
  obtain ⟨hlow, hhigh⟩ := v.property
  unfold clamp128 at h
  omega

/-- Into an integer datatype a number never changes. -/
theorem toInteger_meaning {k : IntKind} {n : Number} (hk : k ≠ .uint64)
    (h : toInteger k d n = .ok s) (ha : n.meaning? = some a) :
    ∃ v : k.Value, s = int k v ∧ a = .ofInt v.val := by
  cases n with
  | whole n =>
      simp only [toInteger, hk, false_and, if_false] at h
      obtain ⟨v, rfl, rfl⟩ := fitInteger_eq_ok h
      cases ha
      exact ⟨v, rfl, rfl⟩
  | real x =>
      simp only [toInteger] at h
      split at h
      · next n hn =>
          obtain ⟨v, rfl, hv⟩ := fitInteger_eq_ok h
          rw [Number.meaning?, Binary.number?_of_integer? hn] at ha
          cases ha
          exact ⟨v, rfl, by rw [clamp128_eq hv, Meaning.ofInt]⟩
      · cases h

theorem ofLiteral_int {k : IntKind} (hd : d.form = .int k) (hk : k ≠ .uint64)
    (h : ofLiteral d t l = .ok s) (ha : l.meaning? t = some a) :
    ∃ v : k.Value, s = int k v ∧ a = .ofInt v.val := by
  unfold ofLiteral at h
  rw [hd] at h
  simp only at h
  split at h
  · next n hn => exact toInteger_meaning hk h (Number.ofLiteral_meaning hn ha)
  · cases h

/-- In a column of four-byte floats a long carries a single-precision number. -/
theorem ofLiteral_single {n : Long} (h : ofLiteral .float32 .real (.long n) = .ok s)
    (ha : (Literal.long n).meaning? .real = some a) : s.meaning? .float32 = some a := by
  simp only [Literal.meaning?, if_true] at ha
  obtain ⟨y, hy, rfl⟩ := Option.map_eq_some_iff.1 ha
  obtain ⟨x, hx, hnumber⟩ := Option.bind_eq_some_iff.1 hy
  have hnan := Binary.isNaN_of_number? hnumber
  simp only [ofLiteral, Datatype.form, Number.ofLiteral, if_true, hx, Except.ok.injEq,
    toFloat] at h
  rw [(Binary.convert_double hnan).2] at h
  rw [← h, meaning?, hnumber, Option.map_some]

theorem ofLiteral_double {x : Binary .double} (h : ofLiteral .float64 .double (.double x) = .ok s)
    (ha : (Literal.double x).meaning? .double = some a) : s.meaning? .float64 = some a := by
  simp only [ofLiteral, Datatype.form, Number.ofLiteral, Except.ok.injEq, toFloat] at h
  rw [← h]
  exact ha

theorem ofLiteral_text (hd : d.form = .text) (h : ofLiteral d t l = .ok s)
    (ha : l.meaning? t = some a) : s.meaning? d = some a := by
  unfold ofLiteral at h
  rw [hd] at h
  simp only at h
  split at h
  · cases h
    exact ha
  · cases h

/-- An exact literal means what the stored value means that it becomes. -/
theorem ofLiteral_meaning (hl : l.exactIn d t) (hd : ∀ unit, d ≠ .dateTime unit)
    (h : ofLiteral d t l = .ok s) (ha : l.meaning? t = some a) : s.meaning? d = some a := by
  cases hform : d.form with
  | int k =>
      have hk : k ≠ .uint64 := by
        rintro rfl
        rw [Datatype.eq_uint64 hform] at hl
        exact hl
      obtain ⟨v, rfl, rfl⟩ := ofLiteral_int hform hk h ha
      exact meaning?_int hk hd v
  | float f =>
      cases d with
      | float32 =>
          cases l with
          | long n =>
              obtain rfl : t = .real := hl
              exact ofLiteral_single h ha
          | _ => exact hl.elim
      | float64 =>
          cases l with
          | double x =>
              obtain rfl : t = .double := hl
              exact ofLiteral_double h ha
          | _ => exact hl.elim
      | _ => cases hform
  | text => exact ofLiteral_text hform h ha

end

/-! ## Order -/

theorem text_lt_iff (a b : List UInt8) : a < b ↔ (text a).key < (text b).key := by
  simp only [key]
  induction a generalizing b with
  | nil =>
      cases b with
      | nil => simp
      | cons y ys => simp
  | cons x xs ih =>
      cases b with
      | nil => simp
      | cons y ys =>
          simp only [List.map_cons, List.cons_lt_cons_iff, ih, Nat.cast_lt, Nat.cast_inj,
            UInt8.lt_iff_toNat_lt, UInt8.toNat_inj]

/-- Values of a datatype are ordered as what they mean. -/
theorem meaning_compares {d : Datatype} {v w : StoredValue} {m n : Meaning}
    (hu : d ≠ .uint64) (hd : ∀ unit, d ≠ .dateTime unit) (hv : v.Ordered d.form)
    (hw : w.Ordered d.form) (hm : v.meaning? d = some m) (hn : w.meaning? d = some n) :
    (m.lt n ↔ v.key < w.key) ∧ (m.le n ↔ v.key ≤ w.key) := by
  cases hform : d.form with
  | int k =>
      have hk : k ≠ .uint64 := by
        rintro rfl
        exact hu (Datatype.eq_uint64 hform)
      rw [hform] at hv hw
      obtain ⟨x, rfl⟩ := exists_int hv
      obtain ⟨y, rfl⟩ := exists_int hw
      rw [meaning?_int hk hd, Option.some.injEq] at hm hn
      subst hm hn
      simp only [Meaning.ofInt_lt, Meaning.ofInt_le, key, singleton_lt_iff, singleton_le_iff,
        and_self]
  | float f =>
      rw [hform] at hv hw
      obtain ⟨x, rfl, -⟩ := exists_float hv
      obtain ⟨y, rfl, -⟩ := exists_float hw
      obtain ⟨p, hp, rfl⟩ := Option.map_eq_some_iff.1 hm
      obtain ⟨q, hq, rfl⟩ := Option.map_eq_some_iff.1 hn
      simp only [key, singleton_lt_iff, singleton_le_iff]
      exact ⟨Binary.number?_lt_iff hp hq, Binary.number?_le_iff hp hq⟩
  | text =>
      rw [hform] at hv hw
      obtain ⟨x, rfl⟩ := exists_text hv
      obtain ⟨y, rfl⟩ := exists_text hw
      cases hm
      cases hn
      refine ⟨text_lt_iff x y, ?_⟩
      rw [Meaning.le, ← List.not_lt, text_lt_iff, not_lt]

end StoredValue

end SparseScan
