import SparseScan.Proofs.Constraint.Ends
import SparseScan.Proofs.Constraint.Hull
import SparseScan.Proofs.Datetime
import SparseScan.Proofs.Value.Meaning
import SparseScan.Storage.TiledQuery

set_option autoImplicit false

/-! # A hull loses no value

A coordinate that an interval admits lies between the stored ends of the interval, however the ends
were rounded (`storedEnds_reach`), and so the hull of a constraint holds every populated coordinate
that the constraint admits (`hull_covers`). -/

namespace SparseScan

/-! ## Rounded ends -/

/-- A coordinate of datatype `d` that means `m`. -/
structure StoredValue.Means (v : StoredValue) (d : Datatype) (m : Meaning) : Prop where
  ordered : v.Ordered d.form
  meaning : v.meaning? d = some m

/-- The coordinates from `s` on are those that mean `a` or more. -/
def RoundsUp (d : Datatype) (a : Meaning) (s : StoredValue) : Prop :=
  ∀ (v : StoredValue) (m : Meaning), v.Means d m →
    (a.le m → s.key ≤ v.key) ∧ (m.lt a → v.key < s.key)

/-- The coordinates up to `s` are those that mean `a` or less. -/
def RoundsDown (d : Datatype) (a : Meaning) (s : StoredValue) : Prop :=
  ∀ (v : StoredValue) (m : Meaning), v.Means d m →
    (m.le a → v.key ≤ s.key) ∧ (a.lt m → s.key < v.key)

section

variable {d : Dimension} {t : ColumnType} {l : Literal} {s : StoredValue} {a : Meaning}
  {rounding : Rounding}

theorem storedEnd_of_not_dateTime (hd : ∀ unit, d.datatype ≠ .dateTime unit)
    (h : d.storedEnd t l rounding = .ok s) : StoredValue.ofLiteral d.datatype t l = .ok s := by
  unfold Dimension.storedEnd at h
  split at h
  · cases h
  · next stored hstored =>
      split at h
      · next unit n hunit => exact absurd hunit (hd unit)
      · cases h
        exact hstored

theorem storedEnd_of_dateTime {unit : TimeUnit} (hd : d.datatype = .dateTime unit)
    (ha : l.meaning? t = some a) (h : d.storedEnd t l rounding = .ok s) :
    ∃ n count : Long, a = .ofInt n.val ∧
      unit.storedCount? n.val rounding = some count.val ∧ s = .int .int64 count := by
  unfold Dimension.storedEnd at h
  split at h
  · cases h
  · next stored hstored =>
      rw [hd] at hstored h
      obtain ⟨n, rfl, rfl⟩ := StoredValue.ofLiteral_int rfl (by decide) hstored ha
      simp only at h
      split at h
      · next count hcount =>
          cases h
          exact ⟨n, count, rfl, TimeUnit.ofRelational_eq_ok hcount, rfl⟩
      · cases h

/-- A datetime coordinate is a count with a relational value. -/
theorem StoredValue.Means.exists_count {unit : TimeUnit} {v : StoredValue} {m : Meaning}
    (h : v.Means (.dateTime unit) m) :
    ∃ count value : Long, v = .int .int64 count ∧ m = .ofInt value.val ∧
      unit.relationalValue? count.val = some value.val := by
  obtain ⟨count, rfl⟩ := StoredValue.exists_int (n := .int64) h.ordered
  obtain ⟨value, hvalue, rfl⟩ := StoredValue.meaning?_dateTime h.meaning
  exact ⟨count, value, rfl, rfl, TimeUnit.toRelational_eq_ok hvalue⟩

theorem roundsUp_count {unit : TimeUnit} {value : ℤ} {stored : Long}
    (h : unit.storedCount? value .up = some stored.val) :
    RoundsUp (.dateTime unit) (.ofInt value) (.int .int64 stored) := by
  intro v m hv
  obtain ⟨count, relational, rfl, rfl, hrelational⟩ := hv.exists_count
  have hiff := TimeUnit.up_le_iff h hrelational
  simp only [Meaning.ofInt_le, Meaning.ofInt_lt, StoredValue.key, StoredValue.singleton_le_iff,
    StoredValue.singleton_lt_iff]
  omega

theorem roundsDown_count {unit : TimeUnit} {value : ℤ} {stored : Long}
    (h : unit.storedCount? value .down = some stored.val) :
    RoundsDown (.dateTime unit) (.ofInt value) (.int .int64 stored) := by
  intro v m hv
  obtain ⟨count, relational, rfl, rfl, hrelational⟩ := hv.exists_count
  have hiff := TimeUnit.le_down_iff h hrelational
  simp only [Meaning.ofInt_le, Meaning.ofInt_lt, StoredValue.key, StoredValue.singleton_le_iff,
    StoredValue.singleton_lt_iff]
  omega

/-- Where values are ordered as what they mean, a value that means `a` has the others on the side of
    `a` where they belong. -/
theorem StoredValue.Means.rounds {d : Datatype} (hu : d ≠ .uint64)
    (hd : ∀ unit, d ≠ .dateTime unit) (hs : s.Means d a) : RoundsUp d a s ∧ RoundsDown d a s := by
  constructor
  · intro v m hv
    obtain ⟨-, hle⟩ := meaning_compares hu hd hs.ordered hv.ordered hs.meaning hv.meaning
    obtain ⟨hlt, -⟩ := meaning_compares hu hd hv.ordered hs.ordered hv.meaning hs.meaning
    exact ⟨hle.1, hlt.1⟩
  · intro v m hv
    obtain ⟨-, hle⟩ := meaning_compares hu hd hv.ordered hs.ordered hv.meaning hs.meaning
    obtain ⟨hlt, -⟩ := meaning_compares hu hd hs.ordered hv.ordered hs.meaning hv.meaning
    exact ⟨hle.1, hlt.1⟩

/-- The stored value of a literal comes at or after the literal when it is rounded up, and at or
    before it when it is rounded down. -/
theorem storedEnd_rounds (hl : l.exactIn d.datatype t) (ha : l.meaning? t = some a)
    (h : d.storedEnd t l rounding = .ok s) :
    match rounding with
      | .up => RoundsUp d.datatype a s
      | .down => RoundsDown d.datatype a s := by
  by_cases hd : ∃ unit, d.datatype = .dateTime unit
  · obtain ⟨unit, hunit⟩ := hd
    obtain ⟨n, stored, rfl, hstored, rfl⟩ := storedEnd_of_dateTime hunit ha h
    rw [hunit]
    cases rounding with
    | up => exact roundsUp_count hstored
    | down => exact roundsDown_count hstored
  · have hplain : ∀ unit, d.datatype ≠ .dateTime unit := fun unit hunit => hd ⟨unit, hunit⟩
    have hsigned : d.datatype ≠ .uint64 := fun hu => by
      rw [hu] at hl
      exact hl
    have hs := storedEnd_of_not_dateTime hplain h
    have hmeans : s.Means d.datatype a :=
      ⟨StoredValue.ofLiteral_ordered hs (Literal.isNaN_of_meaning ha),
        StoredValue.ofLiteral_meaning hl hplain hs ha⟩
    obtain ⟨hup, hdown⟩ := hmeans.rounds hsigned hplain
    cases rounding with
    | up => exact hup
    | down => exact hdown

/-! ## Ends that reach a coordinate -/

variable {e : Endpoint} {i : Interval} {v : StoredValue} {m : Meaning}

/-- The literal of an endpoint, if it has one, is exact. -/
def Endpoint.exactIn (e : Endpoint) (d : Datatype) (t : ColumnType) : Prop :=
  ∀ l, e.value = some l → l.exactIn d t

theorem lowEnd_reachesDown {low : Option StoredValue} (he : e.exactIn d.datatype t)
    (hv : v.Means d.datatype m) (h : d.lowEnd t e = .ok low) (hadmits : e.admitsAbove t m) :
    reachesDown low v := by
  rintro s rfl
  obtain ⟨l, hl, hend⟩ := lowEnd_eq_some h
  simp only [Endpoint.admitsAbove, hl] at hadmits
  obtain ⟨a, ha, hside⟩ := hadmits
  have hnan := Literal.isNaN_of_meaning ha
  rcases hend with ⟨hon, hs⟩ | ⟨hafter, n, hn, hs⟩
  · rw [hon, if_neg (by decide)] at hside
    rw [StoredValue.atMost_iff (storedEnd_ordered hs hnan) hv.ordered]
    exact (storedEnd_rounds (he l hl) ha hs v m hv).1 hside
  · -- the end is the neighbour of a value that lies below the coordinate
    rw [hafter, if_pos rfl] at hside
    obtain ⟨hordered, hnext⟩ := StoredValue.above_spec hs (storedEnd_ordered hn hnan)
    rw [StoredValue.atMost_iff hordered hv.ordered, ← hnext v hv.ordered]
    exact (storedEnd_rounds (he l hl) ha hn v m hv).2 hside

theorem highEnd_reachesUp {high : Option StoredValue} (he : e.exactIn d.datatype t)
    (hv : v.Means d.datatype m) (htop : v.hasTopByte = false) (h : d.highEnd t e = .ok high)
    (hadmits : e.admitsBelow t m) : reachesUp high v := by
  rintro s rfl
  obtain ⟨l, hl, hend⟩ := highEnd_eq_some h
  simp only [Endpoint.admitsBelow, hl] at hadmits
  obtain ⟨a, ha, hside⟩ := hadmits
  have hnan := Literal.isNaN_of_meaning ha
  rcases hend with ⟨hon, hs⟩ | ⟨hbefore, n, hn, hs⟩
  · rw [hon, if_neg (by decide)] at hside
    rw [StoredValue.atMost_iff hv.ordered (storedEnd_ordered hs hnan)]
    exact (storedEnd_rounds (he l hl) ha hs v m hv).1 hside
  · -- the end is the neighbour of a value that lies above the coordinate
    rw [hbefore, if_pos rfl] at hside
    obtain ⟨hordered, hprevious⟩ := StoredValue.below_spec hs (storedEnd_ordered hn hnan)
    rw [StoredValue.atMost_iff hv.ordered hordered, ← hprevious v hv.ordered htop]
    exact (storedEnd_rounds (he l hl) ha hn v m hv).2 hside

/-- The low endpoint of a single value admits from below what the high one does. -/
theorem highEndpoint_admitsBelow (h : i.high.admitsBelow t m) :
    i.highEndpoint.admitsBelow t m := by
  unfold Interval.highEndpoint
  split
  · next hpoint =>
      obtain ⟨a, b, rfl, hsame⟩ := isPoint_iff.1 hpoint
      obtain ⟨u, hu, hle⟩ := h
      exact ⟨u, (Literal.meaning?_of_same hsame).trans hu, hle⟩
  · exact h

/-- The literals of an interval are exact. -/
def Interval.exactIn (i : Interval) (d : Datatype) (t : ColumnType) : Prop :=
  i.low.exactIn d t ∧ i.high.exactIn d t

/-- What an interval admits lies between its stored ends. -/
theorem storedEnds_reach {low high : Option StoredValue} (hi : i.exactIn d.datatype t)
    (hv : v.Means d.datatype m) (htop : v.hasTopByte = false)
    (h : i.storedEnds d t = .ok (low, high)) (hadmits : i.admits t m) :
    reachesDown low v ∧ reachesUp high v := by
  obtain ⟨hlow, hhigh⟩ := storedEnds_eq_ok h
  have hexact : i.highEndpoint.exactIn d.datatype t := by
    unfold Interval.highEndpoint
    split
    · exact hi.1
    · exact hi.2
  exact ⟨lowEnd_reachesDown hi.1 hv hlow hadmits.1,
    highEnd_reachesUp hexact hv htop hhigh (highEndpoint_admitsBelow hadmits.2)⟩

end

/-! ## Hulls -/

/-- The literals of a constraint are exact. -/
def Constraint.exactIn (c : Constraint) (d : Datatype) : Prop :=
  ∀ is, c.admitted = .intervals is → ∀ i ∈ is, i.exactIn d c.columnType

/-- The hull of a constraint holds every populated coordinate that the constraint admits; where
    there is no hull, it admits none. -/
theorem hull_covers {d : Dimension} {c : Constraint} {populated : StoredValue × StoredValue}
    {v : StoredValue} {r : Option (StoredValue × StoredValue)} (hc : c.exactIn d.datatype)
    (h : d.hull (some c) populated = .ok r) (hv : v.Ordered d.datatype.form)
    (htop : v.hasTopByte = false) (hin : TiledQuery.inside v populated = true)
    (hadmits : c.admits d.datatype v) :
    ∃ hull, r = some hull ∧ TiledQuery.inside v hull = true := by
  simp only [TiledQuery.inside, Bool.and_eq_true] at hin ⊢
  unfold Constraint.admits at hadmits
  split at hadmits
  · next heverything =>
      simp only [Dimension.hull, heverything, Except.ok.injEq] at h
      exact ⟨populated, h.symm, hin⟩
  · exact hadmits.elim
  · next is hintervals =>
      obtain ⟨m, hm, i, hi, hbetween⟩ := hadmits
      obtain ⟨low, high, hends⟩ := storedEnds_of_hull hintervals h i hi
      obtain ⟨hdown, hup⟩ := storedEnds_reach (hc is hintervals i hi) ⟨hv, hm⟩ htop hends hbetween
      have hlive := mem_liveEnds.2 ⟨i, hi, hends, crossed_eq_false hdown hup⟩
      cases r with
      | none =>
          rw [(hull_eq_none_iff hintervals h).1 rfl] at hlive
          cases hlive
      | some hull =>
          exact ⟨hull, rfl, (hull_contains_iff hintervals h hin.1 hin.2).2
            ⟨⟨_, hlive, hdown⟩, ⟨_, hlive, hup⟩⟩⟩

end SparseScan
