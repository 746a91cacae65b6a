import SparseScan.Proofs.Constraint.Hull
import SparseScan.Proofs.Success

set_option autoImplicit false

/-! # The hull of the intervals that do not cross

`Dimension.hull` takes in the ends of its intervals one after the other. Here is what it comes to,
without the fold: where the ends can be compared with each other there is a result, and it is that
of the intervals whose ends do not cross, the outermost end on each side or the populated bound
where one of them has no limit (`IsHull`). So neither the order of the intervals nor those that
cross make a difference (`hull_of_uncrossed`). -/

namespace SparseScan

/-! ## Ends that do not cross -/

/-- The stored ends of an interval, a missing one being no limit. -/
abbrev Ends : Type := Option StoredValue × Option StoredValue

/-- Whether both ends are there and the low one lies above the high one. -/
def Ends.cross : Ends → Bool
  | (some l, some h) => decide (l.order h = .ok .gt)
  | _ => false

/-- The values that the ends are. -/
def Ends.values (e : Ends) : List StoredValue := e.1.toList ++ e.2.toList

/-- The ends that a stored value can lie between: those that do not cross. -/
def uncrossed (ends : List Ends) : List Ends := ends.filter fun e => !e.cross

/-- Each two of the values that the ends are can be compared. -/
def MutuallyComparable (ends : List Ends) : Prop :=
  (ends.flatMap Ends.values).Pairwise StoredValue.Comparable

instance (ends : List Ends) : Decidable (MutuallyComparable ends) :=
  inferInstanceAs (Decidable (List.Pairwise _ _))

theorem MutuallyComparable.perm {ends ends' : List Ends} (hperm : ends.Perm ends')
    (h : MutuallyComparable ends) : MutuallyComparable ends' :=
  ((hperm.flatMap_right Ends.values).pairwise_iff StoredValue.Comparable.symm).1 h

namespace Hull

variable {h : Hull} {e : Ends} {ends : List Ends}

theorem crossed_eq_true_iff : crossed e.1 e.2 = .ok true ↔ e.cross = true := by
  obtain ⟨low, high⟩ := e
  rcases low with _ | l
  · simp [crossed, Ends.cross]
  · rcases high with _ | u
    · simp [crossed, Ends.cross]
    · rcases ho : l.order u with err | o
      · simp [crossed, Ends.cross, ho, Except.map]
      · simp [crossed, Ends.cross, ho, Except.map]

/-- Comparable ends cross or do not. -/
theorem crossed_of_comparable (hcomp : ∀ l u, e = (some l, some u) → l.Comparable u)
    (hcross : e.cross = false) : crossed e.1 e.2 = .ok false := by
  have hne : crossed e.1 e.2 ≠ .ok true := by simp [crossed_eq_true_iff, hcross]
  obtain ⟨low, high⟩ := e
  rcases low with _ | l
  · rfl
  · rcases high with _ | u
    · rfl
    · obtain ⟨o, ho⟩ := hcomp l u rfl
      simpa [crossed, ho, Except.map] using hne

/-! ## Taking in ends -/

/-- Take the ends of intervals into account, one after the other. -/
def addEnds (h : Hull) (ends : List Ends) : Except ValueError Hull :=
  ends.foldlM (fun h e => h.add e.1 e.2) h

theorem addEnds_cons (h : Hull) (e : Ends) (ends : List Ends) :
    h.addEnds (e :: ends) = h.add e.1 e.2 >>= fun h => h.addEnds ends := rfl

/-- Intervals are taken in by their ends. -/
theorem addIntervals_eq_addEnds {d : Dimension} {t : ColumnType} {is : List Interval}
    (hends : List.Forall₂ (fun i e => i.storedEnds d t = .ok e) is ends) (h : Hull) :
    h.addIntervals d t is = (h.addEnds ends).mapError .value := by
  induction hends generalizing h with
  | nil => rfl
  | cons hstored _ ih =>
      simp only [addIntervals, hstored, addEnds_cons]
      rcases h.add _ _ with err | h'
      · rfl
      · exact ih h'

/-- Ends that cross add nothing. -/
theorem addEnds_uncrossed (h : Hull) (ends : List Ends) :
    h.addEnds (uncrossed ends) = h.addEnds ends := by
  induction ends generalizing h with
  | nil => rfl
  | cons e ends ih =>
      by_cases hcross : e.cross = true
      · have hskip : h.add e.1 e.2 = .ok h := by simp only [add, crossed_eq_true_iff.2 hcross]
        rw [addEnds_cons, hskip, uncrossed, List.filter_cons_of_neg (by simp [hcross])]
        exact ih h
      · rw [uncrossed, List.filter_cons_of_pos (by simp [hcross]), addEnds_cons, addEnds_cons]
        exact bind_congr fun h' => ih h'

theorem addLow_ok {low : Option StoredValue}
    (hcomp : ∀ a v, h.low = some a → low = some v → a.Comparable v) :
    ∃ h', h.addLow low = .ok h' ∧ h'.high = h.high ∧
      ∀ a, h'.low = some a → h.low = some a ∨ low = some a := by
  rcases low with _ | v
  · exact ⟨_, rfl, rfl, fun a ha => Or.inl ha⟩
  · rcases hlow : h.low with _ | a
    · refine ⟨{ h with low := some v }, by simp only [addLow, hlow], rfl, ?_⟩
      exact fun a ha => Or.inr ha
    · obtain ⟨l, hl⟩ := StoredValue.least_ok (hcomp a v hlow rfl)
      refine ⟨{ h with low := some l }, by simp only [addLow, hlow, hl, Except.map], rfl, ?_⟩
      intro b hb
      rw [← hb]
      exact (StoredValue.least_spec hl).1.imp (by simp [eq_comm]) (by simp [eq_comm])

theorem addHigh_ok {high : Option StoredValue}
    (hcomp : ∀ a v, h.high = some a → high = some v → a.Comparable v) :
    ∃ h', h.addHigh high = .ok h' ∧ h'.low = h.low ∧
      ∀ a, h'.high = some a → h.high = some a ∨ high = some a := by
  rcases high with _ | v
  · exact ⟨_, rfl, rfl, fun a ha => Or.inl ha⟩
  · rcases hhigh : h.high with _ | a
    · refine ⟨{ h with high := some v }, by simp only [addHigh, hhigh], rfl, ?_⟩
      exact fun a ha => Or.inr ha
    · obtain ⟨g, hg⟩ := StoredValue.greatest_ok (hcomp a v hhigh rfl)
      refine ⟨{ h with high := some g }, by simp only [addHigh, hhigh, hg, Except.map], rfl, ?_⟩
      intro b hb
      rw [← hb]
      exact (StoredValue.greatest_spec hg).1.imp (by simp [eq_comm]) (by simp [eq_comm])

/-- The values that a hull remembers can be compared with `v`. -/
def ComparableWith (h : Hull) (v : StoredValue) : Prop :=
  ∀ a, h.low = some a ∨ h.high = some a → a.Comparable v

/-- Ends that can be compared with each other and with what the hull remembers are taken in, and
    what it remembers then comes from either. -/
theorem add_ok (hcomp : ∀ l u, e = (some l, some u) → l.Comparable u)
    (hseen : ∀ v ∈ e.values, h.ComparableWith v) :
    ∃ h', h.add e.1 e.2 = .ok h' ∧ ∀ v, h.ComparableWith v →
      (∀ a ∈ e.values, a.Comparable v) → h'.ComparableWith v := by
  by_cases hcross : e.cross = true
  · exact ⟨h, by simp only [add, crossed_eq_true_iff.2 hcross], fun v hv _ => hv⟩
  · have hlive := crossed_of_comparable hcomp (by simpa using hcross)
    obtain ⟨mid, hmid, hmidHigh, hmidLow⟩ :
        ∃ mid, { h with satisfiable := true }.addLow e.1 = .ok mid ∧ mid.high = h.high ∧
          ∀ a, mid.low = some a → h.low = some a ∨ e.1 = some a := by
      refine addLow_ok ?_
      intro a v ha hv
      exact hseen v (by simp [Ends.values, hv]) a (Or.inl ha)
    obtain ⟨h', hh', hlow, hhigh⟩ : ∃ h', mid.addHigh e.2 = .ok h' ∧ h'.low = mid.low ∧
        ∀ a, h'.high = some a → mid.high = some a ∨ e.2 = some a := by
      refine addHigh_ok ?_
      intro a v ha hv
      exact hseen v (by simp [Ends.values, hv]) a (Or.inr (hmidHigh ▸ ha))
    refine ⟨h', by simp only [add, hlive, hmid, hh'], ?_⟩
    intro v hv hnew a ha
    rcases ha with ha | ha
    · rcases hmidLow a (hlow ▸ ha) with hold | hend
      · exact hv a (Or.inl hold)
      · exact hnew a (by simp [Ends.values, hend])
    · rcases hhigh a ha with hold | hend
      · exact hv a (Or.inr (hmidHigh ▸ hold))
      · exact hnew a (by simp [Ends.values, hend])

/-- Ends that can be compared with each other are all taken in. -/
theorem addEnds_ok (hcomp : MutuallyComparable ends)
    (hseen : ∀ v ∈ ends.flatMap Ends.values, h.ComparableWith v) :
    ∃ h', h.addEnds ends = .ok h' := by
  induction ends generalizing h with
  | nil => exact ⟨h, rfl⟩
  | cons e ends ih =>
      simp only [MutuallyComparable, List.flatMap_cons, List.pairwise_append] at hcomp
      simp only [List.flatMap_cons, List.mem_append] at hseen
      obtain ⟨hown, hrest, hacross⟩ := hcomp
      have hpair : ∀ l u, e = (some l, some u) → l.Comparable u := by
        rintro l u rfl
        simpa [Ends.values] using hown
      obtain ⟨mid, hmid, hkeeps⟩ := add_ok hpair fun v hv => hseen v (Or.inl hv)
      rw [addEnds_cons, hmid]
      refine ih hrest ?_
      intro v hv
      exact hkeeps v (hseen v (Or.inr hv)) fun a ha => hacross a ha v hv

end Hull

/-! ## What the hull of a dimension is -/

/-- The bound `v` of a hull on one side, `le` being the order toward the outside: the populated
    bound `p` where some end is no limit, else the outermost end. -/
def IsBound (le : StoredValue → StoredValue → Prop) (ends : List (Option StoredValue))
    (p v : StoredValue) : Prop :=
  none ∈ ends ∧ v = p ∨ none ∉ ends ∧ some v ∈ ends ∧ ∀ u, some u ∈ ends → v = u ∨ le v u

/-- The hull of intervals with such ends: none if there are none, else the least low end and the
    greatest high end, or the populated bound where one of them has no limit. -/
def IsHull (ends : List Ends) (populated : StoredValue × StoredValue) :
    Option (StoredValue × StoredValue) → Prop
  | none => ends = []
  | some (low, high) => ends ≠ [] ∧
      IsBound (fun a b => a.atMost b = true) (ends.map Prod.fst) populated.1 low ∧
      IsBound (fun a b => b.atMost a = true) (ends.map Prod.snd) populated.2 high

/-- Bounds that are missing together or at the same places. -/
def SameBounds : Option (StoredValue × StoredValue) → Option (StoredValue × StoredValue) → Prop :=
  Option.Rel fun b b' => b.1.SamePlace b'.1 ∧ b.2.SamePlace b'.2

/-- There is one bound, up to its place, for ends that are the same in some order. -/
theorem IsBound.samePlace {le : StoredValue → StoredValue → Prop}
    {ends ends' : List (Option StoredValue)} {p v v' : StoredValue}
    (hle : ∀ a b, le a b → le b a → a.order b = .ok .eq) (hmem : ∀ x, x ∈ ends ↔ x ∈ ends')
    (h : IsBound le ends p v) (h' : IsBound le ends' p v') : v.SamePlace v' := by
  rcases h with ⟨hnone, rfl⟩ | ⟨hnone, hin, hall⟩
  · rcases h' with ⟨-, rfl⟩ | ⟨hnone', -⟩
    · exact Or.inl rfl
    · exact absurd ((hmem none).1 hnone) hnone'
  · rcases h' with ⟨hnone', -⟩ | ⟨-, hin', hall'⟩
    · exact absurd ((hmem none).2 hnone') hnone
    · rcases hall v' ((hmem _).2 hin') with heq | hout
      · exact Or.inl heq
      · rcases hall' v ((hmem _).1 hin) with heq | hout'
        · exact Or.inl heq.symm
        · exact Or.inr (hle v v' hout hout')

theorem IsHull.sameBounds {ends ends' : List Ends} {populated : StoredValue × StoredValue}
    {r r' : Option (StoredValue × StoredValue)} (hperm : ends.Perm ends')
    (h : IsHull ends populated r) (h' : IsHull ends' populated r') : SameBounds r r' := by
  rcases r with _ | ⟨low, high⟩
  · rcases r' with _ | ⟨low', high'⟩
    · exact .none
    · rw [show ends = [] from h, List.nil_perm] at hperm
      exact absurd hperm h'.1
  · rcases r' with _ | ⟨low', high'⟩
    · rw [show ends' = [] from h', List.perm_nil] at hperm
      exact absurd hperm h.1
    · obtain ⟨-, hlow, hhigh⟩ := h
      obtain ⟨-, hlow', hhigh'⟩ := h'
      refine .some ⟨hlow.samePlace ?_ (fun x => (hperm.map Prod.fst).mem_iff) hlow',
        hhigh.samePlace ?_ (fun x => (hperm.map Prod.snd).mem_iff) hhigh'⟩
      · exact fun a b => StoredValue.order_eq_of_atMost
      · exact fun a b hab hba => StoredValue.order_eq_of_atMost hba hab

section

variable {d : Dimension} {t : ColumnType} {is : List Interval} {ends : List Ends}
  {populated : StoredValue × StoredValue} {r : Option (StoredValue × StoredValue)}

theorem liveEnds_eq_uncrossed
    (hends : List.Forall₂ (fun i e => i.storedEnds d t = .ok e) is ends)
    (hcomp : ∀ e ∈ ends, ∀ l u, e = (some l, some u) → l.Comparable u) :
    liveEnds d t is = uncrossed ends := by
  induction hends with
  | nil => rfl
  | @cons i e is ends hstored _ ih =>
      rw [List.forall_mem_cons] at hcomp
      have hrest := ih hcomp.2
      simp only [liveEnds, uncrossed] at hrest ⊢
      by_cases hcross : e.cross = true
      · have hcrossed : Hull.crossed e.1 e.2 = .ok true := Hull.crossed_eq_true_iff.2 hcross
        simp [hstored, hcrossed, hcross, hrest]
      · have hlive := Hull.crossed_of_comparable hcomp.1 (by simpa using hcross)
        simp [hstored, hlive, hcross, hrest]

/-- A hull of intervals, if there is a result, is that of the uncrossed ends. -/
theorem isHull_of_hull (hends : List.Forall₂ (fun i e => i.storedEnds d t = .ok e) is ends)
    (hcomp : ∀ e ∈ ends, ∀ l u, e = (some l, some u) → l.Comparable u)
    (h : d.hull (some ⟨t, .intervals is⟩) populated = .ok r) :
    IsHull (uncrossed ends) populated r := by
  obtain ⟨hull, hspan, rfl⟩ := hull_intervals rfl h
  rw [liveEnds_eq_uncrossed hends hcomp] at hspan
  rcases hbounds : hull.bounds populated with _ | ⟨low, high⟩
  · exact (Hull.bounds_eq_none_iff hspan).1 hbounds
  · obtain ⟨hne, rfl, rfl⟩ := Hull.bounds_eq_some hspan hbounds
    exact ⟨hne, hspan.low.chosen_spec (by simpa using hne) populated.1,
      hspan.high.chosen_spec (by simpa using hne) populated.2⟩

theorem hull_eq_addEnds (hne : is ≠ [])
    (hends : List.Forall₂ (fun i e => i.storedEnds d t = .ok e) is ends) :
    d.hull (some ⟨t, .intervals is⟩) populated =
      ((({} : Hull).addEnds (uncrossed ends)).mapError .value).map (·.bounds populated) := by
  rw [Hull.addEnds_uncrossed, ← Hull.addIntervals_eq_addEnds hends]
  rcases is with _ | ⟨i, is⟩
  · exact absurd rfl hne
  · rfl

theorem MutuallyComparable.pair (hcomp : MutuallyComparable ends) :
    ∀ e ∈ ends, ∀ l u, e = (some l, some u) → l.Comparable u := by
  rintro _ he l u rfl
  have hown := (List.pairwise_flatMap.1 hcomp).1 _ he
  simpa [Ends.values] using hown

/-- Where the ends can be compared with each other there is a hull. -/
theorem exists_hull (hne : is ≠ [])
    (hends : List.Forall₂ (fun i e => i.storedEnds d t = .ok e) is ends)
    (hcomp : MutuallyComparable ends) (populated : StoredValue × StoredValue) :
    ∃ r, d.hull (some ⟨t, .intervals is⟩) populated = .ok r ∧
      IsHull (uncrossed ends) populated r := by
  have hfresh : ∀ v ∈ ends.flatMap Ends.values, ({} : Hull).ComparableWith v := by
    rintro v - a (ha | ha) <;> cases ha
  obtain ⟨hull, hadd⟩ := Hull.addEnds_ok hcomp hfresh
  have hr : d.hull (some ⟨t, .intervals is⟩) populated = .ok (hull.bounds populated) := by
    rw [hull_eq_addEnds hne hends, Hull.addEnds_uncrossed, hadd]
    rfl
  exact ⟨_, hr, isHull_of_hull hends hcomp.pair hr⟩

/-- An interval without limits leaves the populated bounds. -/
theorem IsHull.of_unlimited (h : IsHull ends populated r) (hmem : (none, none) ∈ ends) :
    r = some populated := by
  have hlow : none ∈ ends.map Prod.fst := List.mem_map.2 ⟨_, hmem, rfl⟩
  have hhigh : none ∈ ends.map Prod.snd := List.mem_map.2 ⟨_, hmem, rfl⟩
  rcases r with _ | ⟨low, high⟩
  · rw [show ends = [] from h] at hmem
    cases hmem
  · obtain ⟨-, hlowBound, hhighBound⟩ := h
    rcases hlowBound with ⟨-, rfl⟩ | ⟨hnone, -⟩
    · rcases hhighBound with ⟨-, rfl⟩ | ⟨hnone, -⟩
      · rfl
      · exact absurd hhigh hnone
    · exact absurd hlow hnone

theorem storedEnds_unlimited {i : Interval} (hlow : i.low.isUnlimited = true)
    (hhigh : i.high.isUnlimited = true) : i.storedEnds d t = .ok (none, none) := by
  obtain ⟨⟨low, lowSide⟩, ⟨high, highSide⟩⟩ := i
  simp only [Endpoint.isUnlimited, Option.isNone_iff_eq_none] at hlow hhigh
  subst hlow hhigh
  simp [Interval.storedEnds, Interval.isPoint, Dimension.lowEnd, Dimension.highEnd]

/-- Intervals whose stored ends can be compared with each other have a hull, that of the ends that
    do not cross. It is the same, up to values at one place, for the intervals in any other order,
    and exactly the same for other intervals that differ in crossing ones only. A trivial constraint
    has the populated bounds, whatever else it says, and so has a dimension without one. -/
theorem hull_of_uncrossed (hne : is ≠ [])
    (hends : is.mapM (fun i => i.storedEnds d t) = .ok ends) (hcomp : MutuallyComparable ends)
    (populated : StoredValue × StoredValue) :
    (∃ r, d.hull (some ⟨t, .intervals is⟩) populated = .ok r ∧
      IsHull (uncrossed ends) populated r ∧
      (∀ js, is.Perm js → ∃ r', d.hull (some ⟨t, .intervals js⟩) populated = .ok r' ∧
        SameBounds r r') ∧
      (∀ js ends', js ≠ [] → js.mapM (fun i => i.storedEnds d t) = .ok ends' →
        uncrossed ends' = uncrossed ends →
          d.hull (some ⟨t, .intervals js⟩) populated = .ok r) ∧
      ((⟨t, .intervals is⟩ : Constraint).isTrivial = true → r = some populated)) ∧
    d.hull (some ⟨t, .everything⟩) populated = .ok (some populated) ∧
    d.hull none populated = .ok (some populated) := by
  have hstored := mapM_eq_ok.1 hends
  obtain ⟨r, hr, hhull⟩ := exists_hull hne hstored hcomp populated
  refine ⟨⟨r, hr, hhull, ?_, ?_, ?_⟩, rfl, rfl⟩
  · intro js hperm
    obtain ⟨ends', hstored', hperm'⟩ := List.perm_comp_forall₂ hperm.symm hstored
    have hne' : js ≠ [] := fun hnil => hne (List.perm_nil.1 (hnil ▸ hperm))
    obtain ⟨r', hr', hhull'⟩ := exists_hull hne' hstored' (hcomp.perm hperm'.symm) populated
    exact ⟨r', hr', hhull.sameBounds (hperm'.symm.filter _) hhull'⟩
  · intro js ends' hne' hends' hsame
    rw [hull_eq_addEnds hne' (mapM_eq_ok.1 hends'), hsame, ← hull_eq_addEnds hne hstored, hr]
  · intro htrivial
    obtain ⟨i, hi, hunlimited⟩ := List.any_eq_true.1 htrivial
    rw [Bool.and_eq_true] at hunlimited
    have hopen : i.storedEnds d t = .ok (none, none) :=
      storedEnds_unlimited hunlimited.1 hunlimited.2
    have hlive := mem_liveEnds.2 ⟨i, hi, hopen, rfl⟩
    rw [liveEnds_eq_uncrossed hstored hcomp.pair] at hlive
    exact hhull.of_unlimited hlive

end

/-! ## Two zeros -/

/-- A dimension of doubles. -/
def xDimension : Dimension := ⟨"x", .float64, false⟩

/-- From minus zero to one, above and below one at the same time, and from zero on. -/
def zeroIntervals : List Interval :=
  [⟨.on (.double (.ofBits 0x8000000000000000)), .on (.double (.ofBits 0x3ff0000000000000))⟩,
    ⟨.after (.double (.ofBits 0x3ff0000000000000)), .before (.double (.ofBits 0x3ff0000000000000))⟩,
    .atLeast (.double (.ofBits 0))]

/-- Their stored ends, of which the second ones cross. -/
def zeroEnds : List Ends :=
  [(some (.float .double (.ofBits 0x8000000000000000)),
      some (.float .double (.ofBits 0x3ff0000000000000))),
    (some (.float .double (.ofBits 0x3ff0000000000001)),
      some (.float .double (.ofBits 0x3fefffffffffffff))),
    (some (.float .double (.ofBits 0)), none)]

/-- The doubles from minus one to four. -/
def zeroPopulated : StoredValue × StoredValue :=
  (.float .double (.ofBits 0xbff0000000000000), .float .double (.ofBits 0x4010000000000000))

/-- The hull starts at the zero that comes first in the list, and both zeros are at one place. -/
theorem hull_of_zeroIntervals :
    xDimension.hull (some ⟨.double, .intervals zeroIntervals⟩) zeroPopulated =
        .ok (some (.float .double (.ofBits 0x8000000000000000), zeroPopulated.2)) ∧
      xDimension.hull (some ⟨.double, .intervals zeroIntervals.reverse⟩) zeroPopulated =
        .ok (some (.float .double (.ofBits 0), zeroPopulated.2)) ∧
      SameBounds (some (.float .double (.ofBits 0x8000000000000000), zeroPopulated.2))
        (some (.float .double (.ofBits 0), zeroPopulated.2)) := by
  have hends : zeroIntervals.mapM (fun i => i.storedEnds xDimension .double) = .ok zeroEnds := by
    decide +kernel
  have hcomp : MutuallyComparable zeroEnds := by decide +kernel
  have hhull : xDimension.hull (some ⟨.double, .intervals zeroIntervals⟩) zeroPopulated =
      .ok (some (.float .double (.ofBits 0x8000000000000000), zeroPopulated.2)) := by
    decide +kernel
  have hreverse : xDimension.hull (some ⟨.double, .intervals zeroIntervals.reverse⟩)
      zeroPopulated = .ok (some (.float .double (.ofBits 0), zeroPopulated.2)) := by
    decide +kernel
  have hne : zeroIntervals ≠ [] := List.cons_ne_nil _ _
  obtain ⟨⟨r, hr, -, hperm, -⟩, -⟩ := hull_of_uncrossed hne hends hcomp zeroPopulated
  obtain ⟨r', hr', hsame⟩ := hperm _ (List.reverse_perm _).symm
  rw [hhull, Except.ok.injEq] at hr
  rw [hreverse, Except.ok.injEq] at hr'
  subst hr hr'
  exact ⟨hhull, hreverse, hsame⟩

end SparseScan
