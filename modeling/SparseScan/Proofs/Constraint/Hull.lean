import SparseScan.Constraint.Hull
import SparseScan.Proofs.Value.Order

set_option autoImplicit false

/-! # What a hull reaches over

`liveEnds` are the stored ends of those intervals of a constraint that can hold a stored value. The
hull of a dimension is determined by them: `hull_eq_none_iff` says that it is missing exactly when
there are none, and `hull_contains_iff` that a populated value lies in it exactly when one of them
reaches down to the value and one reaches up to it. -/

namespace SparseScan

/-! ## Live intervals -/

/-- The stored ends of the intervals whose ends do not cross, in order. -/
def liveEnds (d : Dimension) (t : ColumnType) (is : List Interval) :
    List (Option StoredValue × Option StoredValue) :=
  is.filterMap fun i =>
    match i.storedEnds d t with
    | .ok (low, high) => if Hull.crossed low high = .ok false then some (low, high) else none
    | .error _ => none

theorem mem_liveEnds {d : Dimension} {t : ColumnType} {is : List Interval}
    {low high : Option StoredValue} :
    (low, high) ∈ liveEnds d t is ↔
      ∃ i ∈ is, i.storedEnds d t = .ok (low, high) ∧ Hull.crossed low high = .ok false := by
  simp only [liveEnds, List.mem_filterMap]
  constructor
  · rintro ⟨i, hi, h⟩
    split at h
    · next hends =>
        split at h
        · next hlive =>
            cases h
            exact ⟨i, hi, hends, hlive⟩
        · cases h
    · cases h
  · rintro ⟨i, hi, hends, hlive⟩
    exact ⟨i, hi, by simp [hends, hlive]⟩

/-- What holds of some live ends holds of the ends of some interval. -/
theorem exists_liveEnds_iff {d : Dimension} {t : ColumnType} {is : List Interval}
    {P : Option StoredValue × Option StoredValue → Prop} {Q : Interval → Prop}
    (hends : ∀ i ∈ is, ∃ low high, i.storedEnds d t = .ok (low, high))
    (hPQ : ∀ i ∈ is, ∀ low high, i.storedEnds d t = .ok (low, high) →
      (Hull.crossed low high = .ok false ∧ P (low, high) ↔ Q i)) :
    (∃ e ∈ liveEnds d t is, P e) ↔ ∃ i ∈ is, Q i := by
  constructor
  · rintro ⟨⟨low, high⟩, hmem, hP⟩
    obtain ⟨i, hi, hstored, hlive⟩ := mem_liveEnds.1 hmem
    exact ⟨i, hi, (hPQ i hi low high hstored).1 ⟨hlive, hP⟩⟩
  · rintro ⟨i, hi, hQ⟩
    obtain ⟨low, high, hstored⟩ := hends i hi
    obtain ⟨hlive, hP⟩ := (hPQ i hi low high hstored).2 hQ
    exact ⟨_, mem_liveEnds.2 ⟨i, hi, hstored, hlive⟩, hP⟩

/-- Whether a low end, or no limit, lets `v` in. -/
def reachesDown (low : Option StoredValue) (v : StoredValue) : Prop :=
  ∀ l, low = some l → l.atMost v = true

/-- Whether a high end, or no limit, lets `v` in. -/
def reachesUp (high : Option StoredValue) (v : StoredValue) : Prop :=
  ∀ h, high = some h → v.atMost h = true

@[simp] theorem reachesDown_none (v : StoredValue) : reachesDown none v := by simp [reachesDown]

@[simp] theorem reachesUp_none (v : StoredValue) : reachesUp none v := by simp [reachesUp]

@[simp] theorem reachesDown_some (l v : StoredValue) :
    reachesDown (some l) v ↔ l.atMost v = true := by simp [reachesDown]

@[simp] theorem reachesUp_some (h v : StoredValue) :
    reachesUp (some h) v ↔ v.atMost h = true := by simp [reachesUp]

/-- Ends that let some value in do not cross. -/
theorem crossed_eq_false {low high : Option StoredValue} {v : StoredValue}
    (hlow : reachesDown low v) (hhigh : reachesUp high v) :
    Hull.crossed low high = .ok false := by
  cases low with
  | none => rfl
  | some l =>
      cases high with
      | none => rfl
      | some h =>
          have hlh := StoredValue.atMost_trans (hlow l rfl) (hhigh h rfl)
          unfold StoredValue.atMost at hlh
          split at hlh
          · next o ho => cases o <;> simp_all [Hull.crossed, Except.map]
          · cases hlh

/-- Ordered ends do not cross exactly when they let some value of their order in. -/
theorem crossed_eq_false_iff {k : StoredForm} {low high : Option StoredValue} {w : StoredValue}
    (hlow : ∀ l, low = some l → l.Ordered k) (hhigh : ∀ h, high = some h → h.Ordered k)
    (hw : w.Ordered k) :
    Hull.crossed low high = .ok false ↔
      ∃ v, v.Ordered k ∧ reachesDown low v ∧ reachesUp high v := by
  constructor
  · intro hlive
    -- an end of the interval is in it; where there is none, everything is
    cases low with
    | some l =>
        have hl := hlow l rfl
        refine ⟨l, hl, (reachesDown_some l l).2 ((StoredValue.atMost_iff hl hl).2 le_rfl), ?_⟩
        cases high with
        | none => exact reachesUp_none l
        | some h =>
            rw [reachesUp_some]
            by_contra hgt
            rw [StoredValue.not_atMost_iff hl (hhigh h rfl)] at hgt
            simp [Hull.crossed, hgt, Except.map] at hlive
    | none =>
        cases high with
        | some h =>
            have hh := hhigh h rfl
            exact ⟨h, hh, reachesDown_none h,
              (reachesUp_some h h).2 ((StoredValue.atMost_iff hh hh).2 le_rfl)⟩
        | none => exact ⟨w, hw, reachesDown_none w, reachesUp_none w⟩
  · rintro ⟨v, -, hdown, hup⟩
    exact crossed_eq_false hdown hup

/-! ## One side of a hull -/

/-- What a hull knows of the ends on one side: whether one of them is no limit, and the outermost of
    the others, `le` being the order toward the outside. -/
structure Outermost (le : StoredValue → StoredValue → Prop) (ends : List (Option StoredValue))
    (isOpen : Bool) (value : Option StoredValue) : Prop where
  isOpen_iff : isOpen = true ↔ none ∈ ends
  mem : ∀ m, value = some m → some m ∈ ends
  le_all : ∀ l, some l ∈ ends → ∃ m, value = some m ∧ (m = l ∨ le m l)

namespace Outermost

variable {le : StoredValue → StoredValue → Prop} {ends : List (Option StoredValue)} {isOpen : Bool}
  {value : Option StoredValue}

theorem nil : Outermost le [] false none where
  isOpen_iff := by simp
  mem := by simp
  le_all := by simp

theorem append_none (h : Outermost le ends isOpen value) :
    Outermost le (ends ++ [none]) true value where
  isOpen_iff := by simp
  mem m hm := List.mem_append_left _ (h.mem m hm)
  le_all l hl := h.le_all l (by simpa using hl)

theorem append_first {v : StoredValue} (h : Outermost le ends isOpen none) :
    Outermost le (ends ++ [some v]) isOpen (some v) where
  isOpen_iff := by simp [h.isOpen_iff]
  mem m hm := by simp [hm]
  le_all l hl := by
    rcases List.mem_append.1 hl with hl | hl
    · obtain ⟨m, hm, -⟩ := h.le_all l hl
      cases hm
    · exact ⟨v, rfl, Or.inl (by simpa [eq_comm] using hl)⟩

theorem append_some {a v m : StoredValue} (h : Outermost le ends isOpen (some a))
    (htrans : ∀ x y z, le x y → le y z → le x z) (hmem : m = a ∨ m = v) (hma : le m a)
    (hmv : le m v) : Outermost le (ends ++ [some v]) isOpen (some m) where
  isOpen_iff := by simp [h.isOpen_iff]
  mem x hx := by
    cases hx
    rcases hmem with rfl | rfl
    · exact List.mem_append_left _ (h.mem _ rfl)
    · simp
  le_all l hl := by
    rcases List.mem_append.1 hl with hl | hl
    · obtain ⟨m', hm', hle⟩ := h.le_all l hl
      cases hm'
      rcases hle with rfl | hle
      · exact ⟨m, rfl, Or.inr hma⟩
      · exact ⟨m, rfl, Or.inr (htrans _ _ _ hma hle)⟩
    · obtain rfl : l = v := by simpa using hl
      exact ⟨m, rfl, Or.inr hmv⟩

/-- The end that a hull takes: the bound `p` if some end is no limit, else the outermost one. -/
theorem chosen_spec (h : Outermost le ends isOpen value) (hne : ends ≠ []) (p : StoredValue) :
    none ∈ ends ∧ (if isOpen then p else value.getD p) = p ∨
      none ∉ ends ∧ some (if isOpen then p else value.getD p) ∈ ends ∧
        ∀ l, some l ∈ ends → (if isOpen then p else value.getD p) = l ∨
          le (if isOpen then p else value.getD p) l := by
  by_cases ho : isOpen = true
  · exact Or.inl ⟨h.isOpen_iff.1 ho, by simp [ho]⟩
  · right
    have hnone : none ∉ ends := fun hmem => ho (h.isOpen_iff.2 hmem)
    simp only [ho, Bool.false_eq_true, if_false]
    -- every end is a limit, so the first one shows that there is an outermost
    obtain ⟨first, hfirst⟩ := List.exists_mem_of_ne_nil ends hne
    cases first with
    | none => exact absurd hfirst hnone
    | some l =>
        obtain ⟨m, hm, -⟩ := h.le_all l hfirst
        refine ⟨hnone, by simpa [hm] using h.mem m hm, ?_⟩
        intro l' hl'
        obtain ⟨m', hm', hle⟩ := h.le_all l' hl'
        rw [hm, Option.some.injEq] at hm'
        subst hm'
        simpa [hm] using hle

/-- A property of ends that passes outward holds of the chosen end exactly when some end is no limit
    or has it. -/
theorem chosen_iff (h : Outermost le ends isOpen value) (hne : ends ≠ []) {p : StoredValue}
    {P : StoredValue → Prop} (hp : P p) (hmono : ∀ a b, le a b → P b → P a) :
    P (if isOpen then p else value.getD p) ↔ ∃ e ∈ ends, ∀ l, e = some l → P l := by
  rcases h.chosen_spec hne p with ⟨hnone, heq⟩ | ⟨hnone, hmem, hall⟩
  · rw [heq]
    exact iff_of_true hp ⟨none, hnone, fun l hl => by cases hl⟩
  · constructor
    · intro hP
      exact ⟨_, hmem, fun l hl => Option.some.inj hl ▸ hP⟩
    · rintro ⟨e, he, hreach⟩
      cases e with
      | none => exact absurd he hnone
      | some l =>
          rcases hall l he with heq | hle
          · rw [heq]
            exact hreach l rfl
          · exact hmono _ _ hle (hreach l rfl)

/-- Such a property fails of the chosen end exactly when all ends are limits without it. -/
theorem not_chosen_iff (h : Outermost le ends isOpen value) (hne : ends ≠ []) {p : StoredValue}
    {P : StoredValue → Prop} (hp : P p) (hmono : ∀ a b, le a b → P b → P a) :
    ¬ P (if isOpen then p else value.getD p) ↔ ∀ e ∈ ends, ∃ l, e = some l ∧ ¬ P l := by
  rw [h.chosen_iff hne hp hmono]
  push Not
  rfl

end Outermost

/-! ## Both sides -/

/-- The hull `h` is that of the live ends `live`. -/
structure Hull.Spans (h : Hull) (live : List (Option StoredValue × Option StoredValue)) : Prop where
  satisfiable : h.satisfiable = true ↔ live ≠ []
  low : Outermost (fun a b => a.atMost b = true) (live.map Prod.fst) h.openLow h.low
  high : Outermost (fun a b => b.atMost a = true) (live.map Prod.snd) h.openHigh h.high

namespace Hull

variable {h h' : Hull} {ends : List (Option StoredValue)}

theorem addLow_spec {low : Option StoredValue} (hadd : h.addLow low = .ok h')
    (hout : Outermost (fun a b => a.atMost b = true) ends h.openLow h.low) :
    Outermost (fun a b => a.atMost b = true) (ends ++ [low]) h'.openLow h'.low ∧
      h'.openHigh = h.openHigh ∧ h'.high = h.high ∧ h'.satisfiable = h.satisfiable := by
  cases low with
  | none =>
      cases hadd
      exact ⟨hout.append_none, rfl, rfl, rfl⟩
  | some v =>
      simp only [addLow] at hadd
      split at hadd
      · next hnone =>
          cases hadd
          rw [hnone] at hout
          exact ⟨hout.append_first, rfl, rfl, rfl⟩
      · next a hsome =>
          rw [hsome] at hout
          cases hl : a.least v with
          | error e => simp [hl, Except.map] at hadd
          | ok l =>
              simp only [hl, Except.map, Except.ok.injEq] at hadd
              subst hadd
              obtain ⟨hmem, hla, hlv⟩ := StoredValue.least_spec hl
              exact ⟨hout.append_some (fun _ _ _ => StoredValue.atMost_trans) hmem hla hlv,
                rfl, rfl, rfl⟩

theorem addHigh_spec {high : Option StoredValue} (hadd : h.addHigh high = .ok h')
    (hout : Outermost (fun a b => b.atMost a = true) ends h.openHigh h.high) :
    Outermost (fun a b => b.atMost a = true) (ends ++ [high]) h'.openHigh h'.high ∧
      h'.openLow = h.openLow ∧ h'.low = h.low ∧ h'.satisfiable = h.satisfiable := by
  cases high with
  | none =>
      cases hadd
      exact ⟨hout.append_none, rfl, rfl, rfl⟩
  | some v =>
      simp only [addHigh] at hadd
      split at hadd
      · next hnone =>
          cases hadd
          rw [hnone] at hout
          exact ⟨hout.append_first, rfl, rfl, rfl⟩
      · next a hsome =>
          rw [hsome] at hout
          cases hg : a.greatest v with
          | error e => simp [hg, Except.map] at hadd
          | ok g =>
              simp only [hg, Except.map, Except.ok.injEq] at hadd
              subst hadd
              obtain ⟨hmem, hag, hvg⟩ := StoredValue.greatest_spec hg
              exact ⟨hout.append_some (fun _ _ _ hxy hyz => StoredValue.atMost_trans hyz hxy)
                hmem hag hvg, rfl, rfl, rfl⟩

/-- Crossed ends leave a hull as it is; others are taken in. -/
theorem add_spec {live : List (Option StoredValue × Option StoredValue)}
    {low high : Option StoredValue} (hadd : h.add low high = .ok h') (hspan : h.Spans live) :
    crossed low high = .ok true ∧ h' = h ∨
      crossed low high = .ok false ∧ h'.Spans (live ++ [(low, high)]) := by
  unfold add at hadd
  split at hadd
  · cases hadd
  · next hcross =>
      cases hadd
      exact Or.inl ⟨hcross, rfl⟩
  · next hlive =>
      right
      split at hadd
      · cases hadd
      · next mid hmid =>
          obtain ⟨hlow, hmidOpen, hmidHigh, hmidSat⟩ := addLow_spec hmid hspan.low
          have hmidOut := hspan.high
          rw [← hmidOpen, ← hmidHigh] at hmidOut
          obtain ⟨hhigh, hopen, hval, hsat⟩ := addHigh_spec hadd hmidOut
          refine ⟨hlive, ⟨?_, ?_, ?_⟩⟩
          · simp [hsat, hmidSat]
          · rw [List.map_append, hopen, hval]
            exact hlow
          · rw [List.map_append]
            exact hhigh

/-- A hull that starts over `live` and takes in intervals spans their live ends as well. -/
theorem addIntervals_spec {d : Dimension} {t : ColumnType} {is : List Interval}
    {live : List (Option StoredValue × Option StoredValue)}
    (hadd : h.addIntervals d t is = .ok h') (hspan : h.Spans live) :
    h'.Spans (live ++ liveEnds d t is) := by
  induction is generalizing h live with
  | nil =>
      cases hadd
      simpa [liveEnds] using hspan
  | cons i rest ih =>
      simp only [addIntervals] at hadd
      split at hadd
      · cases hadd
      · next low high hends =>
          split at hadd
          · cases hadd
          · next mid hmid =>
              rcases add_spec hmid hspan with ⟨hcross, rfl⟩ | ⟨hlive, hmidSpan⟩
              · have hsame : liveEnds d t (i :: rest) = liveEnds d t rest := by
                  simp [liveEnds, hends, hcross]
                rw [hsame]
                exact ih hadd hspan
              · have hmore : liveEnds d t (i :: rest) = (low, high) :: liveEnds d t rest := by
                  simp [liveEnds, hends, hlive]
                rw [hmore, List.append_cons]
                exact ih hadd hmidSpan

/-- Intervals that are taken in have stored ends. -/
theorem storedEnds_of_addIntervals {d : Dimension} {t : ColumnType} {is : List Interval}
    (hadd : h.addIntervals d t is = .ok h') :
    ∀ i ∈ is, ∃ low high, i.storedEnds d t = .ok (low, high) := by
  induction is generalizing h with
  | nil => simp
  | cons i rest ih =>
      simp only [addIntervals] at hadd
      split at hadd
      · cases hadd
      · next low high hends =>
          split at hadd
          · cases hadd
          · next mid hmid =>
              intro j hj
              rcases List.mem_cons.1 hj with rfl | hj
              · exact ⟨low, high, hends⟩
              · exact ih hadd j hj

theorem spans_empty : ({} : Hull).Spans [] := ⟨by simp, .nil, .nil⟩

variable {live : List (Option StoredValue × Option StoredValue)}
  {populated : StoredValue × StoredValue}

theorem bounds_eq_none_iff (hspan : h.Spans live) : h.bounds populated = none ↔ live = [] := by
  have hsat := hspan.satisfiable
  unfold bounds
  by_cases hs : h.satisfiable = true
  · simp [hs, hsat.1 hs]
  · have hnil : live = [] := not_not.1 fun hne => hs (hsat.2 hne)
    simp [hs, hnil]

/-- Each bound is the chosen end of its side. -/
theorem bounds_eq_some {low high : StoredValue} (hspan : h.Spans live)
    (hb : h.bounds populated = some (low, high)) :
    live ≠ [] ∧ low = (if h.openLow then populated.1 else h.low.getD populated.1) ∧
      high = (if h.openHigh then populated.2 else h.high.getD populated.2) := by
  have hne : live ≠ [] := fun hnil => by
    rw [(bounds_eq_none_iff hspan).2 hnil] at hb
    cases hb
  simp only [bounds, hspan.satisfiable.2 hne, if_true, Option.some.injEq, Prod.mk.injEq] at hb
  exact ⟨hne, hb.1.symm, hb.2.symm⟩

end Hull

/-! ## The hull of a dimension -/

section

variable {d : Dimension} {c : Constraint} {is : List Interval}
  {populated : StoredValue × StoredValue} {r : Option (StoredValue × StoredValue)}

theorem hull_intervals (hc : c.admitted = .intervals is) (h : d.hull (some c) populated = .ok r) :
    ∃ hull : Hull, hull.Spans (liveEnds d c.columnType is) ∧ r = hull.bounds populated := by
  unfold Dimension.hull at h
  simp only [hc] at h
  cases is with
  | nil => cases h
  | cons i rest =>
      simp only at h
      cases hadd : Hull.addIntervals {} d c.columnType (i :: rest) with
      | error e => simp [hadd, Except.map] at h
      | ok hull =>
          simp only [hadd, Except.map, Except.ok.injEq] at h
          exact ⟨hull, by simpa using Hull.addIntervals_spec hadd Hull.spans_empty, h.symm⟩

theorem storedEnds_of_hull (hc : c.admitted = .intervals is)
    (h : d.hull (some c) populated = .ok r) :
    ∀ i ∈ is, ∃ low high, i.storedEnds d c.columnType = .ok (low, high) := by
  unfold Dimension.hull at h
  simp only [hc] at h
  cases is with
  | nil => cases h
  | cons i rest =>
      simp only at h
      cases hadd : Hull.addIntervals {} d c.columnType (i :: rest) with
      | error e => simp [hadd, Except.map] at h
      | ok hull => exact Hull.storedEnds_of_addIntervals hadd

theorem hull_eq_none_iff (hc : c.admitted = .intervals is)
    (h : d.hull (some c) populated = .ok r) : r = none ↔ liveEnds d c.columnType is = [] := by
  obtain ⟨hull, hspan, rfl⟩ := hull_intervals hc h
  exact Hull.bounds_eq_none_iff hspan

/-- A populated value lies in a hull exactly when some live interval reaches down to it and some
    live interval reaches up to it. -/
theorem hull_contains_iff {low high v : StoredValue} (hc : c.admitted = .intervals is)
    (h : d.hull (some c) populated = .ok (some (low, high)))
    (hlow : populated.1.atMost v = true) (hhigh : v.atMost populated.2 = true) :
    (low.atMost v = true ∧ v.atMost high = true) ↔
      (∃ e ∈ liveEnds d c.columnType is, reachesDown e.1 v) ∧
        ∃ e ∈ liveEnds d c.columnType is, reachesUp e.2 v := by
  obtain ⟨hull, hspan, hb⟩ := hull_intervals hc h
  obtain ⟨hne, rfl, rfl⟩ := Hull.bounds_eq_some hspan hb.symm
  refine and_congr ?_ ?_
  · rw [hspan.low.chosen_iff (by simpa using hne) (P := fun a => a.atMost v = true) hlow
      fun _ _ => StoredValue.atMost_trans]
    simp only [List.mem_map, exists_exists_and_eq_and, reachesDown]
  · rw [hspan.high.chosen_iff (by simpa using hne) (P := fun a => v.atMost a = true) hhigh
      fun _ _ hab hb => StoredValue.atMost_trans hb hab]
    simp only [List.mem_map, exists_exists_and_eq_and, reachesUp]

end

end SparseScan
