import SparseScan.Proofs.Constraint.Coverage
import SparseScan.Proofs.Success

set_option autoImplicit false

/-! # The stored ends of an interval are exact

What an interval admits lies between its stored ends. Here is the converse, end by end
(`admitsAbove_of_reachesDown`, `admitsBelow_of_reachesUp`): a coordinate that an end lets in is on
the right side of the endpoint, since its meaning and that of the literal are ordered one way or the
other. A single value takes its high end from its low endpoint; `highEnd_of_same` says that its own
high endpoint would have given the same. `storedEnds_exact` puts both together. -/

namespace SparseScan

/-! ## Sorts of meanings -/

/-- Whether a meaning is text. -/
def Meaning.isText : Meaning → Bool
  | number _ => false
  | text _ => true

/-- Meanings of one sort are ordered one way or the other. -/
theorem Meaning.lt_of_not_le {a b : Meaning} (hsort : a.isText = b.isText) (h : ¬ a.le b) :
    b.lt a := by
  cases a with
  | number x =>
      cases b with
      | number y => exact not_le.1 (show ¬ x ≤ y from h)
      | text y => cases hsort
  | text x =>
      cases b with
      | number y => cases hsort
      | text y => exact List.not_le.1 h

theorem Meaning.le_of_not_lt {a b : Meaning} (hsort : a.isText = b.isText) (h : ¬ a.lt b) :
    b.le a := by
  cases a with
  | number x =>
      cases b with
      | number y => exact not_lt.1 (show ¬ x < y from h)
      | text y => cases hsort
  | text x =>
      cases b with
      | number y => cases hsort
      | text y => exact List.not_lt.1 h

theorem Binary.isNaN_of_convert {f g : FloatFormat} {x : Binary f}
    (h : (x.convert : Binary g).isNaN = false) : x.isNaN = false := by
  by_contra hnan
  rw [Bool.not_eq_false] at hnan
  have hstays : (Binary.nan x.negative : Binary g).isNaN = true := by
    cases g <;> simp [isNaN, nan, FloatFormat.fractionBits]
  rw [convert, if_pos hnan, hstays] at h
  cases h

namespace StoredValue

variable {d : Datatype} {t : ColumnType} {l : Literal} {s v : StoredValue} {m : Meaning}

/-- Texts mean texts, and nothing else does. -/
theorem isText_of_meaning (h : v.meaning? d = some m) : m.isText = true ↔ v.form = .text := by
  cases v with
  | int k n =>
      simp only [meaning?, toLong] at h
      split at h
      · split at h
        · cases h
          simp [Meaning.ofInt, Meaning.isText, form]
        · cases h
      · cases h
        simp [Meaning.ofInt, Meaning.isText, form]
  | float f x =>
      obtain ⟨y, -, rfl⟩ := Option.map_eq_some_iff.1 h
      simp [Meaning.isText, form]
  | text bytes =>
      cases h
      simp [Meaning.isText, form]

/-- Every coordinate means something, unless it is a datetime without a relational value. -/
theorem exists_meaning (hv : v.Ordered d.form)
    (hd : ∀ unit, d = .dateTime unit → (v.meaning? d).isSome = true) :
    ∃ m, v.meaning? d = some m := by
  by_cases hunit : ∃ unit, d = .dateTime unit
  · obtain ⟨unit, rfl⟩ := hunit
    exact Option.isSome_iff_exists.1 (hd unit rfl)
  · cases v with
    | int k n =>
        simp only [meaning?, toLong]
        split
        · next unit => exact absurd ⟨unit, rfl⟩ hunit
        · exact ⟨_, rfl⟩
    | float f x =>
        obtain ⟨y, hy⟩ := Binary.exists_number? hv.notNaN
        exact ⟨.number y, by rw [meaning?, hy, Option.map_some]⟩
    | text bytes => exact ⟨_, rfl⟩

/-! ## Literals in stored form -/

theorem Number.exists_meaning {n : Number} (h : Number.ofLiteral d t l = .ok n)
    (hn : n.isNaN = false) : ∃ x, l.meaning? t = some (.number x) := by
  cases l with
  | boolean b => exact ⟨_, rfl⟩
  | long n =>
      simp only [Number.ofLiteral] at h
      simp only [Literal.meaning?]
      split at h
      · next ht =>
          split at h
          · next x hx =>
              cases h
              obtain ⟨y, hy⟩ := Binary.exists_number? (Binary.isNaN_of_convert hn)
              exact ⟨y, by rw [if_pos ht, hx, Option.bind_some, hy, Option.map_some]⟩
          · cases h
      · next ht => exact ⟨_, by rw [if_neg ht, Meaning.ofInt]⟩
  | double x =>
      cases h
      obtain ⟨y, hy⟩ := Binary.exists_number? hn
      exact ⟨y, by rw [Literal.meaning?, hy, Option.map_some]⟩
  | bytes bs => cases h

theorem Number.isNaN_of_toInteger {k : IntKind} {n : Number} (h : toInteger k d n = .ok s) :
    n.isNaN = false := by
  cases n with
  | whole n => rfl
  | real x =>
      simp only [toInteger] at h
      split at h
      · next n hn => exact Binary.isNaN_of_number? (Binary.number?_of_integer? hn)
      · cases h

theorem Number.isNaN_of_toFloat {f : FloatFormat} {n : Number} (h : (toFloat f n).isNaN = false) :
    n.isNaN = false := by
  cases n with
  | whole n => rfl
  | real x =>
      cases f with
      | single => exact Binary.isNaN_of_convert h
      | double => exact h

/-- A literal that becomes a value other than a NaN means something, and text only in text. -/
theorem ofLiteral_exists_meaning (h : ofLiteral d t l = .ok s) (hs : s.isNaN = false) :
    ∃ a, l.meaning? t = some a ∧ (a.isText = true ↔ d.form = .text) := by
  unfold ofLiteral at h
  split at h
  · next hform =>
      split at h
      · next bytes => exact ⟨.text bytes, rfl, fun _ => hform, fun _ => rfl⟩
      · cases h
  · next k hform =>
      split at h
      · next n hn =>
          obtain ⟨x, hx⟩ := Number.exists_meaning hn (Number.isNaN_of_toInteger h)
          exact ⟨.number x, hx, by simp [Meaning.isText, hform]⟩
      · cases h
  · next f hform =>
      split at h
      · next n hn =>
          cases h
          obtain ⟨x, hx⟩ := Number.exists_meaning hn (Number.isNaN_of_toFloat hs)
          exact ⟨.number x, hx, by simp [Meaning.isText, hform]⟩
      · cases h

/-- A value with a neighbour is not a NaN. -/
theorem isNaN_of_above {u : StoredValue} (h : v.above = .ok u) : v.isNaN = false := by
  cases v with
  | float f x =>
      cases hn : x.isNaN with
      | true => simp [above, above?, Binary.above?, hn] at h
      | false => exact hn
  | _ => rfl

theorem isNaN_of_below {u : StoredValue} (h : v.below = .ok u) : v.isNaN = false := by
  cases v with
  | float f x =>
      cases hn : x.isNaN with
      | true => simp [below, below?, Binary.below?, Binary.above?, Binary.isNaN_neg, hn] at h
      | false => exact hn
  | _ => rfl

end StoredValue

/-! ## Ends that reach no further -/

section

variable {d : Dimension} {t : ColumnType} {e : Endpoint} {i : Interval} {l : Literal}
  {v s : StoredValue} {m : Meaning} {rounding : Rounding}

/-- The literal of a stored end means something, of the sort of the coordinates. -/
theorem storedEnd_exists_meaning (h : d.storedEnd t l rounding = .ok s) (hs : s.isNaN = false)
    (hv : v.Means d.datatype m) : ∃ a, l.meaning? t = some a ∧ a.isText = m.isText := by
  have hliteral : ∃ stored, StoredValue.ofLiteral d.datatype t l = .ok stored ∧
      stored.isNaN = false := by
    unfold Dimension.storedEnd at h
    split at h
    · cases h
    · next stored hstored =>
        refine ⟨stored, hstored, ?_⟩
        split at h
        · rfl
        · cases h
          exact hs
  obtain ⟨stored, hstored, hnan⟩ := hliteral
  obtain ⟨a, ha, hsort⟩ := StoredValue.ofLiteral_exists_meaning hstored hnan
  refine ⟨a, ha, ?_⟩
  rw [Bool.eq_iff_iff, hsort, StoredValue.isText_of_meaning hv.meaning, hv.ordered.form]

/-- A coordinate that the low end lets in lies above the low endpoint. -/
theorem admitsAbove_of_reachesDown {low : Option StoredValue} (he : e.exactIn d.datatype t)
    (hv : v.Means d.datatype m) (h : d.lowEnd t e = .ok low) (hreach : reachesDown low v) :
    e.admitsAbove t m := by
  unfold Endpoint.admitsAbove
  cases low with
  | none =>
      rw [lowEnd_eq_none h]
      trivial
  | some low =>
      rw [reachesDown_some] at hreach
      have hlow : low.isNaN = false := (StoredValue.atMost_ordered hreach).1.notNaN
      obtain ⟨l, hl, hend⟩ := lowEnd_eq_some h
      simp only [hl]
      rcases hend with ⟨hon, hs⟩ | ⟨hafter, n, hn, habove⟩
      · obtain ⟨a, ha, hsort⟩ := storedEnd_exists_meaning hs hlow hv
        refine ⟨a, ha, ?_⟩
        rw [hon, if_neg (by decide)]
        rw [StoredValue.atMost_iff (storedEnd_ordered hs (Literal.isNaN_of_meaning ha))
          hv.ordered] at hreach
        by_contra hle
        have hback := (storedEnd_rounds (he l hl) ha hs v m hv).2 (Meaning.lt_of_not_le hsort hle)
        exact absurd hreach (not_le.2 hback)
      · -- the coordinate is beyond the value whose neighbour the end is
        obtain ⟨a, ha, hsort⟩ := storedEnd_exists_meaning hn (StoredValue.isNaN_of_above habove) hv
        refine ⟨a, ha, ?_⟩
        rw [hafter, if_pos rfl]
        obtain ⟨hordered, hnext⟩ := StoredValue.above_spec habove
          (storedEnd_ordered hn (Literal.isNaN_of_meaning ha))
        rw [StoredValue.atMost_iff hordered hv.ordered, ← hnext v hv.ordered] at hreach
        by_contra hlt
        have hback := (storedEnd_rounds (he l hl) ha hn v m hv).1 (Meaning.le_of_not_lt hsort hlt)
        exact absurd hreach (not_lt.2 hback)

/-- A coordinate that the high end lets in lies below the high endpoint. -/
theorem admitsBelow_of_reachesUp {high : Option StoredValue} (he : e.exactIn d.datatype t)
    (hv : v.Means d.datatype m) (htop : v.hasTopByte = false) (h : d.highEnd t e = .ok high)
    (hreach : reachesUp high v) : e.admitsBelow t m := by
  unfold Endpoint.admitsBelow
  cases high with
  | none =>
      rw [highEnd_eq_none h]
      trivial
  | some high =>
      rw [reachesUp_some] at hreach
      have hhigh : high.isNaN = false := (StoredValue.atMost_ordered hreach).2.notNaN
      obtain ⟨l, hl, hend⟩ := highEnd_eq_some h
      simp only [hl]
      rcases hend with ⟨hon, hs⟩ | ⟨hbefore, n, hn, hbelow⟩
      · obtain ⟨a, ha, hsort⟩ := storedEnd_exists_meaning hs hhigh hv
        refine ⟨a, ha, ?_⟩
        rw [hon, if_neg (by decide)]
        rw [StoredValue.atMost_iff hv.ordered
          (storedEnd_ordered hs (Literal.isNaN_of_meaning ha))] at hreach
        by_contra hle
        have hback := (storedEnd_rounds (he l hl) ha hs v m hv).2
          (Meaning.lt_of_not_le hsort.symm hle)
        exact absurd hreach (not_le.2 hback)
      · -- the coordinate is short of the value whose neighbour the end is
        obtain ⟨a, ha, hsort⟩ := storedEnd_exists_meaning hn (StoredValue.isNaN_of_below hbelow) hv
        refine ⟨a, ha, ?_⟩
        rw [hbefore, if_pos rfl]
        obtain ⟨hordered, hprevious⟩ := StoredValue.below_spec hbelow
          (storedEnd_ordered hn (Literal.isNaN_of_meaning ha))
        rw [StoredValue.atMost_iff hv.ordered hordered,
          ← hprevious v hv.ordered htop] at hreach
        by_contra hlt
        have hback := (storedEnd_rounds (he l hl) ha hn v m hv).1
          (Meaning.le_of_not_lt hsort.symm hlt)
        exact absurd hreach (not_lt.2 hback)

end

/-! ## Single values -/

/-- Floats that are equal as numbers are the same, or the two zeros. -/
theorem Binary.eq_or_zero_of_same {f : FloatFormat} {x y : Binary f} (h : x.same y = true) :
    x = y ∨ x.magnitude.val = 0 ∧ y.magnitude.val = 0 := by
  simp only [same, Bool.and_eq_true, beq_iff_eq] at h
  exact eq_or_zero_of_rank_eq h.2

/-- The two zeros are the same integer. -/
theorem Binary.integer?_of_same {f : FloatFormat} {x y : Binary f} (h : x.same y = true) :
    x.integer? = y.integer? := by
  rcases eq_or_zero_of_same h with rfl | ⟨hx, hy⟩
  · rfl
  · simp [integer?, isFinite, units, hx, hy, FloatFormat.units_zero]

theorem Literal.same_symm {a b : Literal} (h : a.same b = true) : b.same a = true := by
  cases a <;> cases b <;> simp_all [same, Binary.same]

theorem StoredValue.atMost_float_of_same {f : FloatFormat} {x y : Binary f}
    (h : x.same y = true) (v : StoredValue) : v.atMost (.float f y) = v.atMost (.float f x) := by
  simp only [Binary.same, Bool.and_eq_true, Bool.not_eq_true', beq_iff_eq] at h
  obtain ⟨⟨hx, hy⟩, hrank⟩ := h
  cases v with
  | float g z =>
      by_cases hg : g = f
      · subst hg
        cases hz : z.isNaN <;> simp [atMost, order, hx, hy, hz, hrank]
      · simp only [atMost, order, hg, if_false]
  | _ => rfl

section

variable {d : Dimension} {t : ColumnType} {i : Interval} {a b : Literal} {s : StoredValue}
  {rounding : Rounding}

/-- Equal literals become one value, or two zeros. -/
theorem StoredValue.ofLiteral_of_same {d : Datatype} (ha : a.exactIn d t)
    (hsame : a.same b = true) (h : ofLiteral d t a = .ok s) :
    ofLiteral d t b = .ok s ∨ ∃ x y : Binary .double, s = .float .double x ∧
      ofLiteral d t b = .ok (.float .double y) ∧ x.same y = true := by
  by_cases heq : a = b
  · exact Or.inl (heq ▸ h)
  · -- only floats can be equal without being the same
    obtain ⟨x, y, rfl, rfl⟩ : ∃ x y, a = .double x ∧ b = .double y := by
      cases a <;> cases b <;> simp_all [Literal.same, Subtype.ext_iff]
    cases hform : d.form with
    | int k =>
        left
        simp only [ofLiteral, hform, Number.ofLiteral, toInteger] at h ⊢
        rw [← Binary.integer?_of_same hsame]
        split at h
        · exact h
        · cases h
    | float f =>
        right
        cases d with
        | float64 =>
            cases h
            exact ⟨x, y, rfl, rfl, hsame⟩
        | float32 => exact ha.elim
        | _ => cases hform
    | text =>
        simp only [ofLiteral, hform] at h
        cases h

/-- The stored values of equal literals have the same values up to them. -/
theorem storedEnd_of_same (ha : a.exactIn d.datatype t) (hsame : a.same b = true)
    (h : d.storedEnd t a rounding = .ok s) :
    ∃ s', d.storedEnd t b rounding = .ok s' ∧ ∀ v : StoredValue, v.atMost s' = v.atMost s := by
  rcases hstored : StoredValue.ofLiteral d.datatype t a with e | stored
  · simp only [Dimension.storedEnd, hstored] at h
    cases h
  · rcases StoredValue.ofLiteral_of_same ha hsame hstored with hb | ⟨x, y, rfl, hb, hxy⟩
    · refine ⟨s, ?_, fun v => rfl⟩
      rw [← h]
      simp only [Dimension.storedEnd, hstored, hb]
    · have hfloat : ∀ (c : Literal) (z : Binary .double),
          StoredValue.ofLiteral d.datatype t c = .ok (.float .double z) →
          d.storedEnd t c rounding = .ok (.float .double z) := by
        intro c z hz
        simp only [Dimension.storedEnd, hz]
        cases d.datatype <;> rfl
      rw [hfloat a x hstored, Except.ok.injEq] at h
      subst h
      exact ⟨_, hfloat b y hb, StoredValue.atMost_float_of_same hxy⟩

/-- Equal literals give high ends that let the same values in. -/
theorem highEnd_of_same {high : Option StoredValue} (ha : a.exactIn d.datatype t)
    (hsame : a.same b = true) (h : d.highEnd t (.on a) = .ok high) :
    ∃ high', d.highEnd t (.on b) = .ok high' ∧ ∀ v, reachesUp high' v ↔ reachesUp high v := by
  obtain ⟨s, hs, rfl⟩ := map_eq_ok.1 h
  obtain ⟨s', hs', hsame'⟩ := storedEnd_of_same ha hsame hs
  refine ⟨some s', map_eq_ok.2 ⟨s', hs', rfl⟩, fun v => ?_⟩
  rw [reachesUp_some, reachesUp_some, hsame']

/-- The stored ends of an interval, each from its own endpoint, whether it is a single value or
    not. -/
def Interval.ownEnds (i : Interval) (d : Dimension) (t : ColumnType) :
    Except ConstraintError (Option StoredValue × Option StoredValue) := do
  let low ← d.lowEnd t i.low
  let high ← d.highEnd t i.high
  return (low, high)

theorem ownEnds_eq_ok {low high : Option StoredValue} :
    i.ownEnds d t = .ok (low, high) ↔
      d.lowEnd t i.low = .ok low ∧ d.highEnd t i.high = .ok high := by
  simp only [Interval.ownEnds, bind_eq_ok, pure_eq_ok, Prod.mk.injEq]
  constructor
  · rintro ⟨low, hlow, high, hhigh, rfl, rfl⟩
    exact ⟨hlow, hhigh⟩
  · rintro ⟨hlow, hhigh⟩
    exact ⟨low, hlow, high, hhigh, rfl, rfl⟩

theorem storedEnds_ok_iff {low high : Option StoredValue} : i.storedEnds d t = .ok (low, high) ↔
    d.lowEnd t i.low = .ok low ∧ d.highEnd t i.highEndpoint = .ok high := by
  refine ⟨storedEnds_eq_ok, ?_⟩
  rintro ⟨hlow, hhigh⟩
  unfold Interval.highEndpoint at hhigh
  simp only [Interval.storedEnds, hlow, hhigh]

/-- A single value has ends exactly where its endpoints on their own do, and they let the same
    values in. -/
theorem highEnd_highEndpoint (hi : i.exactIn d.datatype t) :
    (∀ high, d.highEnd t i.highEndpoint = .ok high → ∃ high', d.highEnd t i.high = .ok high' ∧
      ∀ v, reachesUp high' v ↔ reachesUp high v) ∧
    ∀ high', d.highEnd t i.high = .ok high' → ∃ high, d.highEnd t i.highEndpoint = .ok high := by
  unfold Interval.highEndpoint
  split
  · next hpoint =>
      obtain ⟨a, b, rfl, hsame⟩ := isPoint_iff.1 hpoint
      refine ⟨fun high h => highEnd_of_same (hi.1 a rfl) hsame h, fun high' h => ?_⟩
      obtain ⟨high, hhigh, -⟩ := highEnd_of_same (hi.2 b rfl) (Literal.same_symm hsame) h
      exact ⟨high, hhigh⟩
  · exact ⟨fun high h => ⟨high, h, fun v => Iff.rfl⟩, fun high' h => ⟨high', h⟩⟩

/-- The stored ends of an interval with exact literals let in the coordinates that mean something
    that the interval admits, and no others. Where the interval is a single value, its endpoints on
    their own have the same ends. -/
theorem storedEnds_exact (hi : i.exactIn d.datatype t) :
    (∀ low high, i.storedEnds d t = .ok (low, high) →
      ∀ v : StoredValue, v.Ordered d.datatype.form → v.hasTopByte = false →
        (∀ unit, d.datatype = .dateTime unit → (v.meaning? d.datatype).isSome = true) →
        (reachesDown low v ∧ reachesUp high v ↔
          ∃ m, v.meaning? d.datatype = some m ∧ i.admits t m)) ∧
    (∀ low high, i.storedEnds d t = .ok (low, high) → ∃ high', i.ownEnds d t = .ok (low, high') ∧
      ∀ v, reachesUp high' v ↔ reachesUp high v) ∧
    ∀ low high', i.ownEnds d t = .ok (low, high') → ∃ high, i.storedEnds d t = .ok (low, high) := by
  obtain ⟨hown, hshort⟩ := highEnd_highEndpoint hi
  refine ⟨?_, ?_, ?_⟩
  · intro low high h v hv htop hdateTime
    obtain ⟨m, hm⟩ := StoredValue.exists_meaning hv hdateTime
    have hmeans : v.Means d.datatype m := ⟨hv, hm⟩
    constructor
    · rintro ⟨hdown, hup⟩
      obtain ⟨hlow, hhigh⟩ := storedEnds_eq_ok h
      obtain ⟨high', hhigh', hsame⟩ := hown high hhigh
      exact ⟨m, hm, admitsAbove_of_reachesDown hi.1 hmeans hlow hdown,
        admitsBelow_of_reachesUp hi.2 hmeans htop hhigh' ((hsame v).2 hup)⟩
    · rintro ⟨m', hm', hadmits⟩
      rw [hm, Option.some.injEq] at hm'
      subst hm'
      exact storedEnds_reach hi hmeans htop h hadmits
  · intro low high h
    obtain ⟨hlow, hhigh⟩ := storedEnds_ok_iff.1 h
    obtain ⟨high', hhigh', hsame⟩ := hown high hhigh
    exact ⟨high', ownEnds_eq_ok.2 ⟨hlow, hhigh'⟩, hsame⟩
  · intro low high' h
    obtain ⟨hlow, hhigh'⟩ := ownEnds_eq_ok.1 h
    obtain ⟨high, hhigh⟩ := hshort high' hhigh'
    exact ⟨high, storedEnds_ok_iff.2 ⟨hlow, hhigh⟩⟩

end

/-! ## Months between two days -/

/-- A dimension of months. -/
def monthDimension : Dimension := ⟨"month", .dateTime .month, false⟩

/-- The days after the middle of January 1970 and before that of February. -/
def midJanuaryToFebruary : Interval :=
  ⟨.after (.long ⟨14, by decide⟩), .before (.long ⟨45, by decide⟩)⟩

/-- Both ends fall within a month, and only February begins between them. -/
theorem storedEnds_exact_february :
    (∃ m, (StoredValue.int .int64 ⟨1, by decide⟩).meaning? (.dateTime .month) = some m ∧
      midJanuaryToFebruary.admits .date m) ∧
    ¬ ∃ m, (StoredValue.int .int64 ⟨0, by decide⟩).meaning? (.dateTime .month) = some m ∧
      midJanuaryToFebruary.admits .date m := by
  have hexact : midJanuaryToFebruary.exactIn monthDimension.datatype .date :=
    ⟨fun l _ => trivial, fun l _ => trivial⟩
  have hends : midJanuaryToFebruary.storedEnds monthDimension .date =
      .ok (some (.int .int64 ⟨1, by decide⟩), some (.int .int64 ⟨1, by decide⟩)) := by
    decide +kernel
  have hreaches := (storedEnds_exact hexact).1 _ _ hends
  constructor
  · refine (hreaches _ ⟨rfl, rfl⟩ rfl fun unit _ => by decide +kernel).1 ?_
    rw [reachesDown_some, reachesUp_some]
    decide
  · intro hadmitted
    have hbetween := (hreaches _ ⟨rfl, rfl⟩ rfl fun unit _ => by decide +kernel).2 hadmitted
    rw [reachesDown_some, reachesUp_some] at hbetween
    exact absurd hbetween (by decide)

end SparseScan
