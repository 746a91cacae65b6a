import SparseScan.Proofs.Constraint.Ends
import SparseScan.Proofs.Constraint.Hull
import SparseScan.Proofs.Constraint.Meaning

set_option autoImplicit false

/-! # Unsigned counts behind signed longs

A dimension of unsigned 64-bit counts is read as longs with the same bit patterns, so constraints
order the upper half of the counts below the lower half. The hull orders counts as they are.
`hull_keeps_count` says which counts it keeps: those on the side of the sign boundary where all
markers of their interval lie, and in general whatever lies between the live intervals in the order
of counts. -/

namespace SparseScan

/-! ## Patterns -/

/-- The count with the bit pattern of a long. -/
def patternCount (n : Long) : ℤ := if n.val < 0 then n.val + 2 ^ 64 else n.val

theorem long_bounds (n : Long) : -2 ^ 63 ≤ n.val ∧ n.val < 2 ^ 63 :=
  IntKind.value_bounds (by decide) n

theorem count_bounds (k : IntKind.uint64.Value) : 0 ≤ k.val ∧ k.val < 2 ^ 64 := by
  obtain ⟨hlow, hhigh⟩ := k.property
  have hleast : IntKind.uint64.least = 0 := by decide
  have hgreatest : IntKind.uint64.greatest = 2 ^ 64 - 1 := by decide
  omega

/-- The long that carries a count has its pattern. -/
theorem patternCount_of_toLong {k : IntKind.uint64.Value} {n : Long}
    (h : (StoredValue.int .uint64 k).toLong = .ok n) : patternCount n = k.val := by
  obtain ⟨hk, hlt⟩ := count_bounds k
  simp only [StoredValue.toLong, Except.ok.injEq] at h
  rw [← h]
  have hsize : IntKind.int64.size = 2 ^ 64 := by decide
  have hmod : (k.val % (2 ^ 64 : ℕ)).toNat = k.val.toNat := by
    rw [Int.emod_eq_of_lt hk (by exact_mod_cast hlt)]
  simp only [patternCount, IntKind.ofPattern, hsize, hmod, IntKind.signed, true_and]
  rw [Nat.mod_eq_of_lt (by omega)]
  split <;> split <;> omega

/-- Longs of one sign are ordered as their patterns are. -/
theorem patternCount_le_iff {a b : Long} (h : a.val < 0 ↔ b.val < 0) :
    patternCount a ≤ patternCount b ↔ a.val ≤ b.val := by
  unfold patternCount
  split <;> split <;> omega

theorem patternCount_lt_iff {a b : Long} (h : a.val < 0 ↔ b.val < 0) :
    patternCount a < patternCount b ↔ a.val < b.val := by
  unfold patternCount
  split <;> split <;> omega

/-- Patterns order the negative longs above the others. -/
theorem patternCount_lt_of_sign {a b : Long} (ha : 0 ≤ a.val) (hb : b.val < 0) :
    patternCount a < patternCount b := by
  have hlt := (long_bounds a).2
  have hge := (long_bounds b).1
  rw [patternCount, patternCount, if_neg (by omega), if_pos hb]
  omega

/-! ## Intervals in the order of counts -/

/-- Whether the values of an endpoint are longs. -/
def Endpoint.isLong (e : Endpoint) : Prop := ∀ v, e.value = some v → ∃ n, v = .long n

/-- Whether a count lies above a low endpoint in the order of counts. -/
def Endpoint.countsFrom (e : Endpoint) (k : ℤ) : Prop :=
  ∀ n, e.value = some (.long n) → if e.side = .after then patternCount n < k else patternCount n ≤ k

/-- Whether a count lies below a high endpoint in the order of counts. -/
def Endpoint.countsTo (e : Endpoint) (k : ℤ) : Prop :=
  ∀ n, e.value = some (.long n) →
    if e.side = .before then k < patternCount n else k ≤ patternCount n

/-- Whether some count lies between the endpoints of an interval in the order of counts. -/
def Interval.holdsCount (i : Interval) : Prop :=
  ∃ k : IntKind.uint64.Value, i.low.countsFrom k.val ∧ i.high.countsTo k.val

/-- Whether the markers of an interval have the sign of `n`. -/
def Interval.signedAs (i : Interval) (n : Long) : Prop :=
  ∀ l, i.low.value = some (.long l) ∨ i.high.value = some (.long l) → (l.val < 0 ↔ n.val < 0)

/-! ## Stored ends -/

theorem patternCount_holds (n : Long) : IntKind.uint64.Holds (patternCount n) := by
  have hleast : IntKind.uint64.least = 0 := by decide
  have hgreatest : IntKind.uint64.greatest = 2 ^ 64 - 1 := by decide
  obtain ⟨hge, hlt⟩ := long_bounds n
  unfold IntKind.Holds patternCount
  split <;> omega

section

variable {d : Dimension} {e : Endpoint} {k : IntKind.uint64.Value}

theorem storedEnd_long (hd : d.datatype = .uint64) (n : Long) (rounding : Rounding) :
    d.storedEnd .bigInt (.long n) rounding =
      .ok (.int .uint64 ⟨patternCount n, patternCount_holds n⟩) := by
  have hfit : StoredValue.ofLiteral .uint64 .bigInt (.long n) =
      .ok (.int .uint64 ⟨patternCount n, patternCount_holds n⟩) := by
    have hholds := patternCount_holds n
    unfold patternCount at hholds
    simp only [StoredValue.ofLiteral, Datatype.form, StoredValue.Number.ofLiteral,
      StoredValue.toInteger, StoredValue.fitInteger, IntKind.ofInt?, patternCount, true_and,
      reduceCtorEq, if_false]
    split at hholds
    · next hneg => simp only [hneg, if_true, hholds, dif_pos]
    · next hneg => simp only [hneg, if_false, hholds, dif_pos]
  simp only [Dimension.storedEnd, hd, hfit]

theorem ordered_count (k : IntKind.uint64.Value) :
    (StoredValue.int .uint64 k).Ordered (.int .uint64) := ⟨rfl, rfl⟩

/-- A low end lets in the counts from its endpoint on. -/
theorem reachesDown_iff_countsFrom {low : Option StoredValue} (hd : d.datatype = .uint64)
    (he : e.isLong) (h : d.lowEnd .bigInt e = .ok low) :
    reachesDown low (.int .uint64 k) ↔ e.countsFrom k.val := by
  cases low with
  | none => simp [Endpoint.countsFrom, lowEnd_eq_none h]
  | some l =>
      obtain ⟨v, hv, hside⟩ := lowEnd_eq_some h
      obtain ⟨n, rfl⟩ := he v hv
      simp only [reachesDown_some, Endpoint.countsFrom, hv, Option.some.injEq, Literal.long.injEq,
        forall_eq']
      rcases hside with ⟨hon, hs⟩ | ⟨hafter, s, hs, habove⟩
      · rw [storedEnd_long hd] at hs
        cases hs
        rw [StoredValue.int_atMost_iff, hon]
        rfl
      · rw [storedEnd_long hd] at hs
        cases hs
        obtain ⟨hl, hnext⟩ := StoredValue.above_spec habove (ordered_count _)
        rw [StoredValue.atMost_iff hl (ordered_count k), ← hnext _ (ordered_count k), if_pos hafter]
        exact StoredValue.singleton_lt_iff _ _

/-- A high end lets in the counts up to its endpoint. -/
theorem reachesUp_iff_countsTo {high : Option StoredValue} (hd : d.datatype = .uint64)
    (he : e.isLong) (h : d.highEnd .bigInt e = .ok high) :
    reachesUp high (.int .uint64 k) ↔ e.countsTo k.val := by
  cases high with
  | none => simp [Endpoint.countsTo, highEnd_eq_none h]
  | some u =>
      obtain ⟨v, hv, hside⟩ := highEnd_eq_some h
      obtain ⟨n, rfl⟩ := he v hv
      simp only [reachesUp_some, Endpoint.countsTo, hv, Option.some.injEq, Literal.long.injEq,
        forall_eq']
      rcases hside with ⟨hon, hs⟩ | ⟨hbefore, s, hs, hbelow⟩
      · rw [storedEnd_long hd] at hs
        cases hs
        rw [StoredValue.int_atMost_iff, hon]
        rfl
      · rw [storedEnd_long hd] at hs
        cases hs
        obtain ⟨hu, hprev⟩ := StoredValue.below_spec hbelow (ordered_count _)
        rw [StoredValue.atMost_iff (ordered_count k) hu, ← hprev _ (ordered_count k) rfl,
          if_pos hbefore]
        exact StoredValue.singleton_lt_iff _ _

end

/-! ## What the hull keeps -/

section

variable {d : Dimension} {t : ColumnType} {i : Interval} {low high : Option StoredValue}
  {k : IntKind.uint64.Value} {n : Long}

/-- Whether the markers of an interval are longs. -/
def Interval.isLong (i : Interval) : Prop := i.low.isLong ∧ i.high.isLong

theorem highEndpoint_of_isLong (hi : i.isLong) : i.highEndpoint = i.high := by
  unfold Interval.highEndpoint
  split
  · next hpoint =>
      obtain ⟨a, b, rfl, hsame⟩ := isPoint_iff.1 hpoint
      obtain ⟨x, rfl⟩ := hi.1 a rfl
      obtain ⟨y, rfl⟩ := hi.2 b rfl
      have hxy : x = y := beq_iff_eq.1 hsame
      rw [hxy]
  · rfl

/-- The stored ends of an interval let in the counts between its endpoints, and cross exactly when
    there are none. -/
theorem storedEnds_counts (hd : d.datatype = .uint64) (hi : i.isLong)
    (h : i.storedEnds d .bigInt = .ok (low, high)) :
    (∀ k, reachesDown low (.int .uint64 k) ↔ i.low.countsFrom k.val) ∧
      (∀ k, reachesUp high (.int .uint64 k) ↔ i.high.countsTo k.val) ∧
      (Hull.crossed low high = .ok false ↔ i.holdsCount) := by
  obtain ⟨hlow, hhigh⟩ := storedEnds_eq_ok h
  rw [highEndpoint_of_isLong hi] at hhigh
  have hdown := fun k => reachesDown_iff_countsFrom (k := k) hd hi.1 hlow
  have hup := fun k => reachesUp_iff_countsTo (k := k) hd hi.2 hhigh
  refine ⟨hdown, hup, ?_⟩
  have hfree : i.nanFree .bigInt := by
    rintro v (hv | hv)
    · obtain ⟨m, rfl⟩ := hi.1 v hv
      rfl
    · obtain ⟨m, rfl⟩ := hi.2 v hv
      rfl
  obtain ⟨hlowOrd, hhighOrd⟩ := storedEnds_ordered h hfree
  have hform : d.datatype.form = .int .uint64 := by rw [hd]; rfl
  rw [hform] at hlowOrd hhighOrd
  rw [crossed_eq_false_iff hlowOrd hhighOrd (ordered_count ⟨0, by decide⟩)]
  constructor
  · rintro ⟨v, hv, hvdown, hvup⟩
    obtain ⟨x, rfl⟩ := StoredValue.exists_int hv
    exact ⟨x, (hdown x).1 hvdown, (hup x).1 hvup⟩
  · rintro ⟨x, hfrom, hto⟩
    exact ⟨_, ordered_count x, (hdown x).2 hfrom, (hup x).2 hto⟩

/-- An endpoint that lets in the relational value of a count lets in the count exactly when its
    marker, if any, has the same sign. -/
theorem countsFrom_iff (hk : patternCount n = k.val)
    (h : i.low.admitsAbove .bigInt (.ofInt n.val)) :
    i.low.countsFrom k.val ↔ ∀ l, i.low.value = some (.long l) → (l.val < 0 ↔ n.val < 0) := by
  rw [← hk]
  unfold Endpoint.countsFrom
  refine forall_congr' fun l => imp_congr_right fun hl => ?_
  simp only [Endpoint.admitsAbove, hl, Literal.meaning?, reduceCtorEq, if_false,
    Option.some.injEq, exists_eq_left', Meaning.ofInt_lt, Meaning.ofInt_le] at h
  by_cases hsign : l.val < 0 ↔ n.val < 0
  · rw [patternCount_lt_iff hsign, patternCount_le_iff hsign]
    exact iff_of_true h hsign
  · -- a negative marker below the value is a count above it
    refine iff_of_false ?_ hsign
    have hneg : l.val < 0 ∧ 0 ≤ n.val := by split at h <;> omega
    have hlt := patternCount_lt_of_sign hneg.2 hneg.1
    split <;> omega

theorem countsTo_iff (hk : patternCount n = k.val)
    (h : i.high.admitsBelow .bigInt (.ofInt n.val)) :
    i.high.countsTo k.val ↔ ∀ l, i.high.value = some (.long l) → (l.val < 0 ↔ n.val < 0) := by
  rw [← hk]
  unfold Endpoint.countsTo
  refine forall_congr' fun l => imp_congr_right fun hl => ?_
  simp only [Endpoint.admitsBelow, hl, Literal.meaning?, reduceCtorEq, if_false,
    Option.some.injEq, exists_eq_left', Meaning.ofInt_lt, Meaning.ofInt_le] at h
  by_cases hsign : l.val < 0 ↔ n.val < 0
  · rw [patternCount_lt_iff hsign.symm, patternCount_le_iff hsign.symm]
    exact iff_of_true h hsign
  · -- a marker above a negative value is a count below it
    refine iff_of_false ?_ hsign
    have hneg : n.val < 0 ∧ 0 ≤ l.val := by split at h <;> omega
    have hlt := patternCount_lt_of_sign hneg.2 hneg.1
    split <;> omega

end

/-- Whether bounds, if there are any, have a value between them. -/
def keeps (bounds : Option (StoredValue × StoredValue)) (v : StoredValue) : Prop :=
  ∃ low high, bounds = some (low, high) ∧ low.atMost v = true ∧ v.atMost high = true

section

variable {d : Dimension} {c : Constraint} {is : List Interval}
  {populated : StoredValue × StoredValue} {r : Option (StoredValue × StoredValue)}

theorem keeps_iff {v : StoredValue} (hc : c.admitted = .intervals is)
    (h : d.hull (some c) populated = .ok r) (hlow : populated.1.atMost v = true)
    (hhigh : v.atMost populated.2 = true) :
    keeps r v ↔ (∃ e ∈ liveEnds d c.columnType is, reachesDown e.1 v) ∧
      ∃ e ∈ liveEnds d c.columnType is, reachesUp e.2 v := by
  cases r with
  | none =>
      have hnil := (hull_eq_none_iff hc h).1 rfl
      simp [keeps, hnil]
  | some bounds =>
      rw [← hull_contains_iff hc h hlow hhigh]
      constructor
      · rintro ⟨low, high, hbounds, hin⟩
        cases hbounds
        exact hin
      · intro hin
        exact ⟨_, _, rfl, hin⟩

/-- The hull of a constraint on unsigned counts keeps a populated count exactly when some interval
    starts at or below it and some interval ends at or above it in the order of counts, intervals
    that hold no count apart. So it keeps a count whose relational value an interval admits if all
    markers of the interval have the sign of that value, and when the interval is the only one, it
    keeps no other. -/
theorem hull_keeps_count (hd : d.datatype = .uint64) (ht : c.columnType = .bigInt)
    (hc : c.admitted = .intervals is) (hlong : ∀ i ∈ is, i.isLong)
    (h : d.hull (some c) populated = .ok r) (k : IntKind.uint64.Value) (n : Long)
    (hn : (StoredValue.int .uint64 k).toLong = .ok n)
    (hlow : populated.1.atMost (.int .uint64 k) = true)
    (hhigh : (StoredValue.int .uint64 k).atMost populated.2 = true) :
    (keeps r (.int .uint64 k) ↔
        (∃ i ∈ is, i.holdsCount ∧ i.low.countsFrom k.val) ∧
          ∃ i ∈ is, i.holdsCount ∧ i.high.countsTo k.val) ∧
      (∀ i ∈ is, i.admits .bigInt (.ofInt n.val) → i.signedAs n → keeps r (.int .uint64 k)) ∧
      (∀ i, is = [i] → i.admits .bigInt (.ofInt n.val) → keeps r (.int .uint64 k) →
        i.signedAs n) := by
  -- each reach of a live interval is a reach of its endpoints in the order of counts
  have hends := storedEnds_of_hull hc h
  rw [ht] at hends
  have hpattern := patternCount_of_toLong hn
  have hfrom : (∃ e ∈ liveEnds d .bigInt is, reachesDown e.1 (.int .uint64 k)) ↔
      ∃ i ∈ is, i.holdsCount ∧ i.low.countsFrom k.val :=
    exists_liveEnds_iff hends fun i hi low high hstored => by
      obtain ⟨hdown, -, hlive⟩ := storedEnds_counts hd (hlong i hi) hstored
      rw [hlive, hdown]
  have hto : (∃ e ∈ liveEnds d .bigInt is, reachesUp e.2 (.int .uint64 k)) ↔
      ∃ i ∈ is, i.holdsCount ∧ i.high.countsTo k.val :=
    exists_liveEnds_iff hends fun i hi low high hstored => by
      obtain ⟨-, hup, hlive⟩ := storedEnds_counts hd (hlong i hi) hstored
      rw [hlive, hup]
  have hkeeps : keeps r (.int .uint64 k) ↔
      (∃ i ∈ is, i.holdsCount ∧ i.low.countsFrom k.val) ∧
        ∃ i ∈ is, i.holdsCount ∧ i.high.countsTo k.val := by
    rw [keeps_iff hc h hlow hhigh, ht, hfrom, hto]
  refine ⟨hkeeps, ?_, ?_⟩
  · intro i hi hadmits hsigned
    have hcount : i.low.countsFrom k.val ∧ i.high.countsTo k.val :=
      ⟨(countsFrom_iff hpattern hadmits.1).2 fun l hl => hsigned l (Or.inl hl),
        (countsTo_iff hpattern hadmits.2).2 fun l hl => hsigned l (Or.inr hl)⟩
    exact hkeeps.2 ⟨⟨i, hi, ⟨k, hcount⟩, hcount.1⟩, i, hi, ⟨k, hcount⟩, hcount.2⟩
  · rintro i rfl hadmits hkept
    obtain ⟨⟨j, hj, -, hcountFrom⟩, j', hj', -, hcountTo⟩ := hkeeps.1 hkept
    rw [List.mem_singleton] at hj hj'
    subst hj hj'
    rintro l (hl | hl)
    · exact (countsFrom_iff hpattern hadmits.1).1 hcountFrom l hl
    · exact (countsTo_iff hpattern hadmits.2).1 hcountTo l hl

theorem hull_keeps_three :
    keeps (some (.int .uint64 ⟨2, by decide⟩, .int .uint64 ⟨5, by decide⟩))
      (.int .uint64 ⟨3, by decide⟩) := by
  have hhull : (⟨"k", .uint64, false⟩ : Dimension).hull
      (some ⟨.bigInt, .intervals [⟨.on (.long ⟨2, by decide⟩), .on (.long ⟨5, by decide⟩)⟩]⟩)
      (.int .uint64 ⟨0, by decide⟩, .int .uint64 ⟨2 ^ 64 - 1, by decide⟩) =
        .ok (some (.int .uint64 ⟨2, by decide⟩, .int .uint64 ⟨5, by decide⟩)) := by
    decide +kernel
  refine (hull_keeps_count rfl rfl rfl ?_ hhull ⟨3, by decide⟩ ⟨3, by decide⟩ (by decide +kernel)
    (by decide +kernel) (by decide +kernel)).2.1 _ (List.mem_singleton_self _) ?_ ?_
  · intro i hi
    rw [List.mem_singleton] at hi
    subst hi
    constructor <;> exact fun v hv => ⟨_, (Option.some.inj hv).symm⟩
  · exact ⟨⟨_, rfl, (Meaning.ofInt_le _ _).2 (by decide)⟩,
      _, rfl, (Meaning.ofInt_le _ _).2 (by decide)⟩
  · rintro l (hl | hl) <;> cases hl <;> decide

/-- From minus one to five there are counts, but minus one is the greatest of all. -/
theorem hull_loses_count :
    (⟨"k", .uint64, false⟩ : Dimension).hull
        (some ⟨.bigInt, .intervals [⟨.on (.long ⟨-1, by decide⟩), .on (.long ⟨5, by decide⟩)⟩]⟩)
        (.int .uint64 ⟨3, by decide⟩, .int .uint64 ⟨2 ^ 64 - 1, by decide⟩) = .ok none ∧
      Constraint.admits
        ⟨.bigInt, .intervals [⟨.on (.long ⟨-1, by decide⟩), .on (.long ⟨5, by decide⟩)⟩]⟩ .uint64
        (.int .uint64 ⟨3, by decide⟩) := by
  refine ⟨by decide +kernel, _, rfl, _, List.mem_singleton_self _, ?_, ?_⟩
  · exact ⟨_, rfl, (Meaning.ofInt_le _ _).2 (by decide)⟩
  · exact ⟨_, rfl, (Meaning.ofInt_le _ _).2 (by decide)⟩

end

end SparseScan
