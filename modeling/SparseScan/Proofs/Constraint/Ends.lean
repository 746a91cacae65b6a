import SparseScan.Constraint.Hull
import SparseScan.Proofs.Value.Conversion

set_option autoImplicit false

/-! # The stored ends of an interval

`lowEnd_eq_some` and `highEnd_eq_some` say where an end comes from: the stored value of the literal,
or the neighbour of it where the literal is excluded. Ends of intervals without NaN are values of
the dimension's stored form (`storedEnds_ordered`). -/

namespace SparseScan

/-! ## Single ends -/

section

variable {d : Dimension} {t : ColumnType} {e : Endpoint} {s : StoredValue}

theorem lowEnd_eq_some (h : d.lowEnd t e = .ok (some s)) :
    ∃ v, e.value = some v ∧ (e.side = .on ∧ d.storedEnd t v .up = .ok s ∨
      e.side = .after ∧ ∃ n, d.storedEnd t v .down = .ok n ∧ n.above = .ok s) := by
  obtain ⟨value, side⟩ := e
  cases value with
  | none => cases h
  | some v =>
      refine ⟨v, rfl, ?_⟩
      cases side with
      | before => cases h
      | on =>
          cases hs : d.storedEnd t v .up with
          | error e => simp [Dimension.lowEnd, hs, Except.map] at h
          | ok n =>
              simp only [Dimension.lowEnd, hs, Except.map, Except.ok.injEq, Option.some.injEq] at h
              exact Or.inl ⟨rfl, by rw [h]⟩
      | after =>
          cases hs : d.storedEnd t v .down with
          | error e => simp [Dimension.lowEnd, hs] at h
          | ok n =>
              cases ha : n.above with
              | error e => simp [Dimension.lowEnd, hs, ha, Except.map, Except.mapError] at h
              | ok u =>
                  simp only [Dimension.lowEnd, hs, ha, Except.map, Except.mapError,
                    Except.ok.injEq, Option.some.injEq] at h
                  exact Or.inr ⟨rfl, n, rfl, by rw [ha, h]⟩

theorem highEnd_eq_some (h : d.highEnd t e = .ok (some s)) :
    ∃ v, e.value = some v ∧ (e.side = .on ∧ d.storedEnd t v .down = .ok s ∨
      e.side = .before ∧ ∃ n, d.storedEnd t v .up = .ok n ∧ n.below = .ok s) := by
  obtain ⟨value, side⟩ := e
  cases value with
  | none => cases h
  | some v =>
      refine ⟨v, rfl, ?_⟩
      cases side with
      | after => cases h
      | on =>
          cases hs : d.storedEnd t v .down with
          | error e => simp [Dimension.highEnd, hs, Except.map] at h
          | ok n =>
              simp only [Dimension.highEnd, hs, Except.map, Except.ok.injEq, Option.some.injEq] at h
              exact Or.inl ⟨rfl, by rw [h]⟩
      | before =>
          cases hs : d.storedEnd t v .up with
          | error e => simp [Dimension.highEnd, hs] at h
          | ok n =>
              cases hb : n.below with
              | error e => simp [Dimension.highEnd, hs, hb, Except.map, Except.mapError] at h
              | ok u =>
                  simp only [Dimension.highEnd, hs, hb, Except.map, Except.mapError,
                    Except.ok.injEq, Option.some.injEq] at h
                  exact Or.inr ⟨rfl, n, rfl, by rw [hb, h]⟩

theorem lowEnd_eq_none (h : d.lowEnd t e = .ok none) : e.value = none := by
  obtain ⟨value, side⟩ := e
  cases value with
  | none => rfl
  | some v =>
      exfalso
      cases side with
      | before => cases h
      | on => cases hs : d.storedEnd t v .up <;> simp [Dimension.lowEnd, hs, Except.map] at h
      | after =>
          cases hs : d.storedEnd t v .down with
          | error e => simp [Dimension.lowEnd, hs] at h
          | ok n =>
              cases ha : n.above <;>
                simp [Dimension.lowEnd, hs, ha, Except.map, Except.mapError] at h

theorem highEnd_eq_none (h : d.highEnd t e = .ok none) : e.value = none := by
  obtain ⟨value, side⟩ := e
  cases value with
  | none => rfl
  | some v =>
      exfalso
      cases side with
      | after => cases h
      | on => cases hs : d.storedEnd t v .down <;> simp [Dimension.highEnd, hs, Except.map] at h
      | before =>
          cases hs : d.storedEnd t v .up with
          | error e => simp [Dimension.highEnd, hs] at h
          | ok n =>
              cases hb : n.below <;>
                simp [Dimension.highEnd, hs, hb, Except.map, Except.mapError] at h

/-! ## Both ends -/

variable {i : Interval} {low high : Option StoredValue}

/-- The endpoint that decides the high end: that of a single value is the low one. -/
def Interval.highEndpoint (i : Interval) : Endpoint := if i.isPoint then i.low else i.high

theorem isPoint_iff :
    i.isPoint = true ↔ ∃ a b, i = ⟨.on a, .on b⟩ ∧ a.same b = true := by
  obtain ⟨⟨low, lowSide⟩, ⟨high, highSide⟩⟩ := i
  cases low with
  | none => simp [Interval.isPoint, Endpoint.on]
  | some a =>
      cases high with
      | none => simp [Interval.isPoint, Endpoint.on]
      | some b =>
          simp only [Interval.isPoint, Bool.and_eq_true, beq_iff_eq, Endpoint.on,
            Interval.mk.injEq, Endpoint.mk.injEq, Option.some.injEq]
          constructor
          · rintro ⟨⟨hlow, hhigh⟩, hsame⟩
            exact ⟨a, b, ⟨⟨rfl, hlow⟩, rfl, hhigh⟩, hsame⟩
          · rintro ⟨_, _, ⟨⟨rfl, hlow⟩, rfl, hhigh⟩, hsame⟩
            exact ⟨⟨hlow, hhigh⟩, hsame⟩

theorem storedEnds_eq_ok (h : i.storedEnds d t = .ok (low, high)) :
    d.lowEnd t i.low = .ok low ∧ d.highEnd t i.highEndpoint = .ok high := by
  unfold Interval.storedEnds at h
  simp only at h
  split at h
  · cases h
  · next l hl =>
      split at h
      · cases h
      · next u hu =>
          cases h
          exact ⟨hl, hu⟩

/-- No endpoint of an interval is a NaN. -/
def Interval.nanFree (i : Interval) (t : ColumnType) : Prop :=
  ∀ v, i.low.value = some v ∨ i.high.value = some v → v.isNaN t = false

theorem storedEnd_ordered {v : Literal} {rounding : Rounding}
    (h : d.storedEnd t v rounding = .ok s) (hv : v.isNaN t = false) :
    s.Ordered d.datatype.form := by
  unfold Dimension.storedEnd at h
  split at h
  · cases h
  · next stored hstored =>
      have hord := StoredValue.ofLiteral_ordered hstored hv
      split at h
      · next unit n hd =>
          split at h
          · cases h
            rw [hd]
            exact ⟨rfl, rfl⟩
          · cases h
      · cases h
        exact hord

theorem storedEnds_ordered (h : i.storedEnds d t = .ok (low, high)) (hi : i.nanFree t) :
    (∀ l, low = some l → l.Ordered d.datatype.form) ∧
      ∀ u, high = some u → u.Ordered d.datatype.form := by
  obtain ⟨hlow, hhigh⟩ := storedEnds_eq_ok h
  constructor
  · rintro l rfl
    obtain ⟨v, hv, ⟨-, hs⟩ | ⟨-, n, hs, ha⟩⟩ := lowEnd_eq_some hlow
    · exact storedEnd_ordered hs (hi v (Or.inl hv))
    · exact (StoredValue.above_spec ha (storedEnd_ordered hs (hi v (Or.inl hv)))).1
  · rintro u rfl
    obtain ⟨v, hv, hside⟩ := highEnd_eq_some hhigh
    have hn : v.isNaN t = false := by
      unfold Interval.highEndpoint at hv
      split at hv
      · exact hi v (Or.inl hv)
      · exact hi v (Or.inr hv)
    rcases hside with ⟨-, hs⟩ | ⟨-, n, hs, hb⟩
    · exact storedEnd_ordered hs hn
    · exact (StoredValue.below_spec hb (storedEnd_ordered hs hn)).1

end

end SparseScan
