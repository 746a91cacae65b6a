import SparseScan.Proofs.Constraint.Coverage
import SparseScan.Proofs.Float.Rounding

set_option autoImplicit false

/-! # Intervals with rounded ends

A literal in a constraint on floats becomes the nearest float of the dimension, and where the
interval excludes the literal its end is the neighbour of that float. The rounding alone loses
nothing. With the step it can: a literal that lies below a float and rounds up to it steps over the
float, which the interval admits. `storedEnds_keep_float_iff` says that an interval loses no other
coordinate. -/

namespace SparseScan

/-- An endpoint that excludes its literal, where the literal becomes the coordinate `v`. -/
def Endpoint.skips (e : Endpoint) (d : Dimension) (t : ColumnType) (v : StoredValue) : Prop :=
  e.side ≠ .on ∧ ∃ l s, e.value = some l ∧
    StoredValue.ofLiteral d.datatype t l = .ok s ∧ s.key = v.key

/-- The literal of an endpoint, if it has one, means what some coordinate means. -/
def Endpoint.isStored (e : Endpoint) (d : Datatype) (t : ColumnType) : Prop :=
  ∀ l, e.value = some l → ∃ w a, l.meaning? t = some a ∧ StoredValue.Means w d a

section

variable {d : Dimension} {t : ColumnType} {f : FloatFormat} {e : Endpoint} {i : Interval}
  {v s : StoredValue} {m a : Meaning} {l : Literal} {rounding : Rounding}

theorem Datatype.ne_dateTime (hd : d.datatype.form = .float f) (unit : TimeUnit) :
    d.datatype ≠ .dateTime unit := by
  intro h
  rw [h] at hd
  cases hd

/-- The float that a literal becomes is on no wrong side of any coordinate. -/
theorem ofLiteral_rounds (hd : d.datatype.form = .float f) (ha : l.meaning? t = some a)
    (h : StoredValue.ofLiteral d.datatype t l = .ok s) (hv : v.Means d.datatype m) :
    (a.le m → s.key ≤ v.key) ∧ (m.le a → v.key ≤ s.key) := by
  obtain ⟨number, y, rfl, rfl, hnear⟩ := StoredValue.ofLiteral_near hd h ha
  have hordered := hv.ordered
  rw [hd] at hordered
  obtain ⟨x, rfl, -⟩ := StoredValue.exists_float hordered
  obtain ⟨b, hb, rfl⟩ := Option.map_eq_some_iff.1 hv.meaning
  simp only [StoredValue.key, StoredValue.singleton_le_iff]
  exact hnear x b hb

/-- A coordinate with the meaning of a literal is what the literal becomes. -/
theorem key_eq_of_means (hd : d.datatype.form = .float f) (ha : l.meaning? t = some a)
    (h : StoredValue.ofLiteral d.datatype t l = .ok s) (hv : v.Means d.datatype a) :
    s.key = v.key := by
  obtain ⟨number, y, rfl, rfl, hnear⟩ := StoredValue.ofLiteral_near hd h ha
  have hordered := hv.ordered
  rw [hd] at hordered
  obtain ⟨x, rfl, -⟩ := StoredValue.exists_float hordered
  obtain ⟨b, hb, hab⟩ := Option.map_eq_some_iff.1 hv.meaning
  cases hab
  simp only [StoredValue.key, List.cons.injEq, and_true]
  exact hnear.rank_eq hb

theorem skips_iff (hl : e.value = some l) (hside : e.side ≠ .on)
    (hs : StoredValue.ofLiteral d.datatype t l = .ok s) : e.skips d t v ↔ s.key = v.key := by
  constructor
  · rintro ⟨-, l', s', hl', hs', hkey⟩
    rw [hl, Option.some.injEq] at hl'
    subst hl'
    rw [hs, Except.ok.injEq] at hs'
    rw [hs', hkey]
  · intro hkey
    exact ⟨hside, l, s, hl, hs, hkey⟩

theorem not_skips_of_on (hside : e.side = .on) : ¬ e.skips d t v := fun hskips => hskips.1 hside

theorem hasTopByte_of_float (hd : d.datatype.form = .float f) (hv : v.Ordered d.datatype.form) :
    v.hasTopByte = false := by
  rw [hd] at hv
  obtain ⟨x, rfl, -⟩ := StoredValue.exists_float hv
  rfl

theorem not_skips_of_none (hl : e.value = none) : ¬ e.skips d t v := by
  rintro ⟨-, l, -, hl', -⟩
  rw [hl] at hl'
  cases hl'

/-! ## Single ends -/

theorem lowEnd_side {low : Option StoredValue} (hl : e.value = some l) (hside : e.side ≠ .on)
    (h : d.lowEnd t e = .ok low) : e.side = .after := by
  cases low with
  | none =>
      rw [lowEnd_eq_none h] at hl
      cases hl
  | some low =>
      obtain ⟨-, -, ⟨hon, -⟩ | ⟨hafter, -⟩⟩ := lowEnd_eq_some h
      · exact absurd hon hside
      · exact hafter

theorem highEnd_side {high : Option StoredValue} (hl : e.value = some l) (hside : e.side ≠ .on)
    (h : d.highEnd t e = .ok high) : e.side = .before := by
  cases high with
  | none =>
      rw [highEnd_eq_none h] at hl
      cases hl
  | some high =>
      obtain ⟨-, -, ⟨hon, -⟩ | ⟨hbefore, -⟩⟩ := highEnd_eq_some h
      · exact absurd hon hside
      · exact hbefore

theorem lowEnd_reachesDown_iff {low : Option StoredValue} (hd : d.datatype.form = .float f)
    (hv : v.Means d.datatype m) (h : d.lowEnd t e = .ok low) (hadmits : e.admitsAbove t m) :
    reachesDown low v ↔ ¬ e.skips d t v := by
  cases low with
  | none => exact iff_of_true (reachesDown_none v) (not_skips_of_none (lowEnd_eq_none h))
  | some low =>
      obtain ⟨l, hl, hend⟩ := lowEnd_eq_some h
      simp only [Endpoint.admitsAbove, hl] at hadmits
      obtain ⟨a, ha, hside⟩ := hadmits
      have hnan := Literal.isNaN_of_meaning ha
      rw [reachesDown_some]
      rcases hend with ⟨hon, hs⟩ | ⟨hafter, n, hn, habove⟩
      · -- the end is what the literal becomes, and the literal is at most the coordinate
        rw [hon, if_neg (by decide)] at hside
        have hstored := storedEnd_of_not_dateTime (Datatype.ne_dateTime hd) hs
        rw [StoredValue.atMost_iff (storedEnd_ordered hs hnan) hv.ordered]
        exact iff_of_true ((ofLiteral_rounds hd ha hstored hv).1 hside) (not_skips_of_on hon)
      · -- the end is the neighbour, so what the literal becomes has to stay below the coordinate
        rw [hafter, if_pos rfl] at hside
        have hstored := storedEnd_of_not_dateTime (Datatype.ne_dateTime hd) hn
        have hle := (ofLiteral_rounds hd ha hstored hv).1 (Meaning.le_of_lt hside)
        obtain ⟨hordered, hnext⟩ := StoredValue.above_spec habove (storedEnd_ordered hn hnan)
        rw [StoredValue.atMost_iff hordered hv.ordered, ← hnext v hv.ordered,
          skips_iff hl (by simp [hafter]) hstored, lt_iff_le_and_ne, and_iff_right hle]

theorem highEnd_reachesUp_iff {high : Option StoredValue} (hd : d.datatype.form = .float f)
    (hv : v.Means d.datatype m) (h : d.highEnd t e = .ok high) (hadmits : e.admitsBelow t m) :
    reachesUp high v ↔ ¬ e.skips d t v := by
  cases high with
  | none => exact iff_of_true (reachesUp_none v) (not_skips_of_none (highEnd_eq_none h))
  | some high =>
      obtain ⟨l, hl, hend⟩ := highEnd_eq_some h
      simp only [Endpoint.admitsBelow, hl] at hadmits
      obtain ⟨a, ha, hside⟩ := hadmits
      have hnan := Literal.isNaN_of_meaning ha
      rw [reachesUp_some]
      rcases hend with ⟨hon, hs⟩ | ⟨hbefore, n, hn, hbelow⟩
      · rw [hon, if_neg (by decide)] at hside
        have hstored := storedEnd_of_not_dateTime (Datatype.ne_dateTime hd) hs
        rw [StoredValue.atMost_iff hv.ordered (storedEnd_ordered hs hnan)]
        exact iff_of_true ((ofLiteral_rounds hd ha hstored hv).2 hside) (not_skips_of_on hon)
      · rw [hbefore, if_pos rfl] at hside
        have hstored := storedEnd_of_not_dateTime (Datatype.ne_dateTime hd) hn
        have hle := (ofLiteral_rounds hd ha hstored hv).2 (Meaning.le_of_lt hside)
        obtain ⟨hordered, hprevious⟩ := StoredValue.below_spec hbelow (storedEnd_ordered hn hnan)
        have hkey : ¬ e.skips d t v ↔ v.key ≠ n.key := by
          rw [skips_iff hl (by simp [hbefore]) hstored, ne_comm]
        rw [StoredValue.atMost_iff hv.ordered hordered,
          ← hprevious v hv.ordered (hasTopByte_of_float hd hv.ordered), hkey, lt_iff_le_and_ne,
          and_iff_right hle]

/-- A literal that is a float of the dimension becomes that float, which it excludes. -/
theorem not_skips_of_isStored (hd : d.datatype.form = .float f) (hv : v.Means d.datatype m)
    (he : e.isStored d.datatype t)
    (hstrict : ∀ l, e.value = some l → e.side ≠ .on →
      ∃ a, l.meaning? t = some a ∧ (a.lt m ∨ m.lt a)) : ¬ e.skips d t v := by
  rintro ⟨hside, l, s, hl, hs, hkey⟩
  obtain ⟨w, a, ha, hw⟩ := he l hl
  obtain ⟨a', ha', hlt⟩ := hstrict l hl hside
  rw [ha, Option.some.injEq] at ha'
  subst ha'
  rw [key_eq_of_means hd ha hs hw] at hkey
  have hunsigned : d.datatype ≠ .uint64 := by
    intro hu
    rw [hu] at hd
    cases hd
  have hplain := Datatype.ne_dateTime hd
  rcases hlt with hlt | hlt
  · have hless := (StoredValue.meaning_compares hunsigned hplain hw.ordered hv.ordered hw.meaning
      hv.meaning).1.1 hlt
    exact hless.ne hkey
  · have hless := (StoredValue.meaning_compares hunsigned hplain hv.ordered hw.ordered hv.meaning
      hw.meaning).1.1 hlt
    exact hless.ne' hkey

theorem low_not_skips {low : Option StoredValue} (hd : d.datatype.form = .float f)
    (hv : v.Means d.datatype m) (h : d.lowEnd t e = .ok low) (hadmits : e.admitsAbove t m)
    (he : e.isStored d.datatype t) : ¬ e.skips d t v := by
  refine not_skips_of_isStored hd hv he fun l hl hside => ?_
  simp only [Endpoint.admitsAbove, hl] at hadmits
  obtain ⟨a, ha, hbetween⟩ := hadmits
  rw [if_pos (lowEnd_side hl hside h)] at hbetween
  exact ⟨a, ha, Or.inl hbetween⟩

theorem high_not_skips {high : Option StoredValue} (hd : d.datatype.form = .float f)
    (hv : v.Means d.datatype m) (h : d.highEnd t e = .ok high) (hadmits : e.admitsBelow t m)
    (he : e.isStored d.datatype t) : ¬ e.skips d t v := by
  refine not_skips_of_isStored hd hv he fun l hl hside => ?_
  simp only [Endpoint.admitsBelow, hl] at hadmits
  obtain ⟨a, ha, hbetween⟩ := hadmits
  rw [if_pos (highEnd_side hl hside h)] at hbetween
  exact ⟨a, ha, Or.inr hbetween⟩

/-! ## Intervals -/

/-- The endpoints of a single value exclude nothing. -/
theorem highEndpoint_skips_iff : i.highEndpoint.skips d t v ↔ i.high.skips d t v := by
  unfold Interval.highEndpoint
  split
  · next hpoint =>
      obtain ⟨a, b, rfl, -⟩ := isPoint_iff.1 hpoint
      exact iff_of_false (not_skips_of_on rfl) (not_skips_of_on rfl)
  · exact Iff.rfl

/-- The stored ends of an interval let in a coordinate that the interval admits unless an excluded
    literal became that coordinate. A literal that is a float of the dimension never does. -/
theorem storedEnds_keep_float_iff {low high : Option StoredValue}
    (hd : d.datatype.form = .float f) (h : i.storedEnds d t = .ok (low, high))
    (hv : v.Means d.datatype m) (hadmits : i.admits t m) :
    (reachesDown low v ∧ reachesUp high v ↔ ¬ i.low.skips d t v ∧ ¬ i.high.skips d t v) ∧
      (i.low.isStored d.datatype t → ¬ i.low.skips d t v) ∧
      (i.high.isStored d.datatype t → ¬ i.high.skips d t v) := by
  obtain ⟨hlow, hhigh⟩ := storedEnds_eq_ok h
  have hbelow := highEndpoint_admitsBelow hadmits.2
  refine ⟨?_, low_not_skips hd hv hlow hadmits.1, fun hstored => ?_⟩
  · rw [lowEnd_reachesDown_iff hd hv hlow hadmits.1, highEnd_reachesUp_iff hd hv hhigh hbelow,
      highEndpoint_skips_iff]
  · by_cases hpoint : i.isPoint = true
    · obtain ⟨a, b, rfl, -⟩ := isPoint_iff.1 hpoint
      exact not_skips_of_on rfl
    · rw [Interval.highEndpoint, if_neg hpoint] at hhigh
      exact high_not_skips hd hv hhigh hadmits.2 hstored

end

/-! ## One half -/

/-- One half in single precision. -/
def half : Binary .single := .ofBits 0x3f000000

/-- The greatest double below one half. -/
def belowHalf : Binary .double := .ofBits 0x3fdfffffffffffff

theorem half_means : ∃ x, half.number? = some x ∧ (half.convert : Binary .double).number? = some x ∧
    (StoredValue.float .single half).Means .float32 (.number x) := by
  obtain ⟨x, hx⟩ := Binary.exists_number? (x := half) (by decide +kernel)
  refine ⟨x, hx, ?_, ⟨rfl, by decide +kernel⟩, ?_⟩
  · rw [(Binary.convert_double (by decide +kernel)).1, hx]
  · rw [StoredValue.meaning?, hx, Option.map_some]

/-- One half is above a quarter and stays so. -/
theorem storedEnds_keep_half :
    (Interval.above (.double (.ofBits 0x3fd0000000000000))).storedEnds ⟨"x", .float32, false⟩
        .double = .ok (some (.float .single (.ofBits 0x3e800001)), none) ∧
      reachesDown (some (.float .single (.ofBits 0x3e800001))) (.float .single half) := by
  have hends : (Interval.above (.double (.ofBits 0x3fd0000000000000))).storedEnds
      ⟨"x", .float32, false⟩ .double = .ok (some (.float .single (.ofBits 0x3e800001)), none) := by
    decide +kernel
  obtain ⟨x, -, hdouble, hmeans⟩ := half_means
  obtain ⟨y, hy⟩ := Binary.exists_number? (x := (Binary.ofBits 0x3fd0000000000000 : Binary .double))
    (by decide +kernel)
  have hadmits : (Interval.above (.double (.ofBits 0x3fd0000000000000))).admits .double
      (.number x) := by
    refine ⟨⟨.number y, by simp [Literal.meaning?, hy], ?_⟩, trivial⟩
    exact (Binary.number?_lt_iff hy hdouble).2 (by decide +kernel)
  refine ⟨hends, ((storedEnds_keep_float_iff rfl hends hmeans hadmits).1.2 ⟨?_, ?_⟩).1⟩
  · rintro ⟨-, l, s, hl, hs, hkey⟩
    cases hl
    have hquarter : StoredValue.ofLiteral .float32 .double (.double (.ofBits 0x3fd0000000000000)) =
        .ok (.float .single (.ofBits 0x3e800000)) := by
      decide +kernel
    rw [hquarter, Except.ok.injEq] at hs
    subst hs
    exact absurd hkey (by decide +kernel)
  · exact not_skips_of_none rfl

/-- One half is above the double before it, but that double becomes one half. -/
theorem storedEnds_lose_half :
    (Interval.above (.double belowHalf)).storedEnds ⟨"x", .float32, false⟩ .double =
        .ok (some (.float .single (.ofBits 0x3f000001)), none) ∧
      ¬ reachesDown (some (.float .single (.ofBits 0x3f000001))) (.float .single half) ∧
      ∃ m, (StoredValue.float .single half).Means .float32 m ∧
        (Interval.above (.double belowHalf)).admits .double m := by
  obtain ⟨x, -, hdouble, hmeans⟩ := half_means
  obtain ⟨y, hy⟩ := Binary.exists_number? (x := belowHalf) (by decide +kernel)
  refine ⟨by decide +kernel, by simp only [reachesDown_some]; decide +kernel, .number x, hmeans,
    ⟨.number y, by simp [Literal.meaning?, hy], ?_⟩, trivial⟩
  exact (Binary.number?_lt_iff hy hdouble).2 (by decide +kernel)

end SparseScan
