import SparseScan.Proofs.Constraint.Ends
import SparseScan.Proofs.Constraint.Hull
import SparseScan.Storage.TiledQuery

set_option autoImplicit false

/-! # When the bounds of a hull cross

A hull takes the populated bound on a side where some interval has no limit. If all intervals lie
beyond the populated values on that very side, the bound is on the wrong side of the other one: the
constraint *overshoots*. `Hull.Spans.crosses_iff` says that bounds cross in no other case. -/

namespace SparseScan

/-! ## Overshooting -/

/-- Every one of the live intervals starts above `b`, and one of them has no upper limit. -/
def overshootsAbove (live : List (Option StoredValue × Option StoredValue)) (b : StoredValue) :
    Prop :=
  (∃ e ∈ live, e.2 = none) ∧ ∀ e ∈ live, ∃ l, e.1 = some l ∧ l.order b = .ok .gt

/-- Every one of the live intervals ends below `a`, and one of them has no lower limit. -/
def overshootsBelow (live : List (Option StoredValue × Option StoredValue)) (a : StoredValue) :
    Prop :=
  (∃ e ∈ live, e.1 = none) ∧ ∀ e ∈ live, ∃ h, e.2 = some h ∧ a.order h = .ok .gt

/-- Whether all intervals of a constraint that can hold a stored value lie beyond the populated
    values, on a side where one of them has no limit. -/
def Constraint.overshoots (c : Constraint) (d : Dimension) (populated : StoredValue × StoredValue) :
    Prop :=
  match c.admitted with
  | .intervals is =>
      overshootsAbove (liveEnds d c.columnType is) populated.2 ∨
        overshootsBelow (liveEnds d c.columnType is) populated.1
  | _ => False

/-- No endpoint of a constraint is a NaN. -/
def Constraint.nanFree (c : Constraint) : Prop :=
  ∀ is, c.admitted = .intervals is → ∀ i ∈ is, i.nanFree c.columnType

/-- Ends in the order of stored form `k` that do not cross. -/
def endsInOrder (k : StoredForm) (e : Option StoredValue × Option StoredValue) : Prop :=
  (∀ l, e.1 = some l → l.Ordered k) ∧ (∀ h, e.2 = some h → h.Ordered k) ∧
    ∀ l h, e.1 = some l → e.2 = some h → l.key ≤ h.key

theorem endsInOrder_of_mem {d : Dimension} {t : ColumnType} {is : List Interval}
    {e : Option StoredValue × Option StoredValue} (hnan : ∀ i ∈ is, i.nanFree t)
    (he : e ∈ liveEnds d t is) : endsInOrder d.datatype.form e := by
  obtain ⟨low, high⟩ := e
  obtain ⟨i, hi, hends, hlive⟩ := mem_liveEnds.1 he
  obtain ⟨hlow, hhigh⟩ := storedEnds_ordered hends (hnan i hi)
  refine ⟨hlow, hhigh, ?_⟩
  rintro l h rfl rfl
  obtain ⟨o, ho, hcmp⟩ := StoredValue.order_compares (hlow l rfl) (hhigh h rfl)
  simp only [Hull.crossed, ho, Except.map, Except.ok.injEq] at hlive
  exact hcmp.ne_gt.1 (by simpa using hlive)

/-! ## Crossing -/

section

variable {k : StoredForm} {live : List (Option StoredValue × Option StoredValue)}
  {a b low high : StoredValue}

theorem Hull.Spans.bounds_ordered {h : Hull} (hspan : h.Spans live)
    (hlive : ∀ e ∈ live, endsInOrder k e) (ha : a.Ordered k) (hb : b.Ordered k)
    (hbounds : h.bounds (a, b) = some (low, high)) : low.Ordered k ∧ high.Ordered k := by
  obtain ⟨hne, hlow, hhigh⟩ := Hull.bounds_eq_some hspan hbounds
  constructor
  · rcases hspan.low.chosen_spec (by simpa using hne) a with ⟨-, heq⟩ | ⟨-, hmem, -⟩
    · rw [hlow, heq]
      exact ha
    · obtain ⟨e, he, hend⟩ := List.mem_map.1 hmem
      rw [hlow]
      exact (hlive e he).1 _ hend
  · rcases hspan.high.chosen_spec (by simpa using hne) b with ⟨-, heq⟩ | ⟨-, hmem, -⟩
    · rw [hhigh, heq]
      exact hb
    · obtain ⟨e, he, hend⟩ := List.mem_map.1 hmem
      rw [hhigh]
      exact (hlive e he).2.1 _ hend

/-- The low bound lies above `b` exactly when every live interval starts above it. -/
theorem Hull.Spans.low_gt_iff {h : Hull} (hspan : h.Spans live)
    (hlive : ∀ e ∈ live, endsInOrder k e) (ha : a.Ordered k) (hb : b.Ordered k)
    (hab : a.atMost b = true) (hbounds : h.bounds (a, b) = some (low, high)) :
    low.order b = .ok .gt ↔ ∀ e ∈ live, ∃ l, e.1 = some l ∧ l.order b = .ok .gt := by
  have hlow := (hspan.bounds_ordered hlive ha hb hbounds).1
  obtain ⟨hne, heq, -⟩ := Hull.bounds_eq_some hspan hbounds
  rw [← StoredValue.not_atMost_iff hlow hb, heq, hspan.low.not_chosen_iff (by simpa using hne)
    (P := fun l => l.atMost b = true) hab fun _ _ => StoredValue.atMost_trans, List.forall_mem_map]
  refine forall₂_congr fun e he => exists_congr fun l => and_congr_right fun hl => ?_
  exact StoredValue.not_atMost_iff ((hlive e he).1 l hl) hb

/-- The high bound lies below `a` exactly when every live interval ends below it. -/
theorem Hull.Spans.high_lt_iff {h : Hull} (hspan : h.Spans live)
    (hlive : ∀ e ∈ live, endsInOrder k e) (ha : a.Ordered k) (hb : b.Ordered k)
    (hab : a.atMost b = true) (hbounds : h.bounds (a, b) = some (low, high)) :
    a.order high = .ok .gt ↔ ∀ e ∈ live, ∃ u, e.2 = some u ∧ a.order u = .ok .gt := by
  have hhigh := (hspan.bounds_ordered hlive ha hb hbounds).2
  obtain ⟨hne, -, heq⟩ := Hull.bounds_eq_some hspan hbounds
  rw [← StoredValue.not_atMost_iff ha hhigh, heq, hspan.high.not_chosen_iff (by simpa using hne)
    (P := fun u => a.atMost u = true) hab fun _ _ hle hin => StoredValue.atMost_trans hin hle,
    List.forall_mem_map]
  refine forall₂_congr fun e he => exists_congr fun u => and_congr_right fun hu => ?_
  exact StoredValue.not_atMost_iff ha ((hlive e he).2.1 u hu)

/-- Bounds of which neither is populated do not cross: the interval that the low one comes from ends
    at or below the high one. -/
theorem Hull.Spans.low_le_high {h : Hull} (hspan : h.Spans live)
    (hlive : ∀ e ∈ live, endsInOrder k e) (hlows : none ∉ live.map Prod.fst)
    (hhighs : none ∉ live.map Prod.snd) (hbounds : h.bounds (a, b) = some (low, high)) :
    low.key ≤ high.key := by
  obtain ⟨hne, rfl, rfl⟩ := Hull.bounds_eq_some hspan hbounds
  rcases hspan.low.chosen_spec (by simpa using hne) a with ⟨hnone, -⟩ | ⟨-, hlowMem, -⟩
  · exact absurd hnone hlows
  · rcases hspan.high.chosen_spec (by simpa using hne) b with ⟨hnone, -⟩ | ⟨-, hhighMem, hall⟩
    · exact absurd hnone hhighs
    · obtain ⟨⟨_, hi⟩, he, hlo⟩ := List.mem_map.1 hlowMem
      obtain ⟨e', he', hhi⟩ := List.mem_map.1 hhighMem
      cases hi with
      | none => exact absurd (List.mem_map.2 ⟨_, he, rfl⟩) hhighs
      | some u =>
          obtain ⟨-, hu, hle⟩ := hlive _ he
          refine (hle _ u hlo rfl).trans ?_
          rcases hall u (List.mem_map.2 ⟨_, he, rfl⟩) with heq | hle
          · rw [heq]
          · exact (StoredValue.atMost_iff (hu u rfl) ((hlive e' he').2.1 _ hhi)).1 hle

/-- The bounds of a hull cross exactly when the live intervals overshoot. -/
theorem Hull.Spans.crosses_iff {h : Hull} (hspan : h.Spans live)
    (hlive : ∀ e ∈ live, endsInOrder k e) (ha : a.Ordered k) (hb : b.Ordered k)
    (hab : a.atMost b = true) (hbounds : h.bounds (a, b) = some (low, high)) :
    low.order high = .ok .gt ↔ overshootsAbove live b ∨ overshootsBelow live a := by
  obtain ⟨hne, hlow, hhigh⟩ := Hull.bounds_eq_some hspan hbounds
  have hnoLow : none ∈ live.map Prod.fst ↔ ∃ e ∈ live, e.1 = none := List.mem_map
  have hnoHigh : none ∈ live.map Prod.snd ↔ ∃ e ∈ live, e.2 = none := List.mem_map
  -- an overshoot has an end wherever its side of the hull takes one from the intervals
  have habove : none ∈ live.map Prod.fst → ¬ overshootsAbove live b := by
    rintro hnone ⟨-, hall⟩
    obtain ⟨e, he, hopen⟩ := hnoLow.1 hnone
    obtain ⟨l, hl, -⟩ := hall e he
    rw [hopen] at hl
    cases hl
  have hbelow : none ∈ live.map Prod.snd → ¬ overshootsBelow live a := by
    rintro hnone ⟨-, hall⟩
    obtain ⟨e, he, hopen⟩ := hnoHigh.1 hnone
    obtain ⟨l, hl, -⟩ := hall e he
    rw [hopen] at hl
    cases hl
  by_cases hopenHigh : none ∈ live.map Prod.snd
  · -- the high bound is the populated one
    rw [hspan.high.isOpen_iff.2 hopenHigh, if_pos rfl] at hhigh
    subst hhigh
    rw [hspan.low_gt_iff hlive ha hb hab hbounds]
    simp only [overshootsAbove, hnoHigh.1 hopenHigh, true_and, hbelow hopenHigh, or_false]
  · by_cases hopenLow : none ∈ live.map Prod.fst
    · rw [hspan.low.isOpen_iff.2 hopenLow, if_pos rfl] at hlow
      subst hlow
      rw [hspan.high_lt_iff hlive ha hb hab hbounds]
      simp only [overshootsBelow, hnoLow.1 hopenLow, true_and, habove hopenLow, false_or]
    · obtain ⟨hlowOrd, hhighOrd⟩ := hspan.bounds_ordered hlive ha hb hbounds
      rw [StoredValue.order_gt_iff hlowOrd hhighOrd]
      refine iff_of_false (hspan.low_le_high hlive hopenLow hopenHigh hbounds).not_gt ?_
      rintro (⟨hnone, -⟩ | ⟨hnone, -⟩)
      · exact hopenHigh (hnoHigh.2 hnone)
      · exact hopenLow (hnoLow.2 hnone)

end

section

variable {d : Dimension} {c : Constraint} {populated : StoredValue × StoredValue}
  {low high : StoredValue}

theorem hull_ordered (hnan : c.nanFree) (ha : populated.1.Ordered d.datatype.form)
    (hb : populated.2.Ordered d.datatype.form)
    (h : d.hull (some c) populated = .ok (some (low, high))) :
    low.Ordered d.datatype.form ∧ high.Ordered d.datatype.form := by
  cases hc : c.admitted with
  | everything =>
      simp only [Dimension.hull, hc, Except.ok.injEq, Option.some.injEq] at h
      rw [h] at ha hb
      exact ⟨ha, hb⟩
  | nothing => simp [Dimension.hull, hc] at h
  | intervals is =>
      obtain ⟨hull, hspan, hbounds⟩ := hull_intervals hc h
      exact hspan.bounds_ordered (fun e he => endsInOrder_of_mem (hnan is hc) he) ha hb hbounds.symm

/-- The bounds of a dimension cross exactly when the constraint overshoots. -/
theorem hull_crosses_iff (hnan : c.nanFree) (ha : populated.1.Ordered d.datatype.form)
    (hb : populated.2.Ordered d.datatype.form) (hab : populated.1.atMost populated.2 = true)
    (h : d.hull (some c) populated = .ok (some (low, high))) :
    low.order high = .ok .gt ↔ c.overshoots d populated := by
  cases hc : c.admitted with
  | everything =>
      simp only [Dimension.hull, hc, Except.ok.injEq, Option.some.injEq] at h
      simp only [Constraint.overshoots, hc, iff_false]
      rw [h] at ha hb hab
      exact fun hgt => (StoredValue.not_atMost_iff ha hb).2 hgt hab
  | nothing => simp [Dimension.hull, hc] at h
  | intervals is =>
      obtain ⟨hull, hspan, hbounds⟩ := hull_intervals hc h
      simp only [Constraint.overshoots, hc]
      exact hspan.crosses_iff (fun e he => endsInOrder_of_mem (hnan is hc) he) ha hb hab
        hbounds.symm

end

end SparseScan
