import SparseScan.Proofs.Constraint.Ends
import SparseScan.Proofs.Constraint.Hull
import SparseScan.Proofs.Storage.Atomic
import SparseScan.Proofs.Value.Encoding
import SparseScan.Proofs.Value.Steps

set_option autoImplicit false

/-! # Hulls as ranges

A dimension of fixed length takes a range only if its ends are values that can stand on it. The ends
of a hull are literals, neighbours of literals or populated bounds. If the literals are values of
the dimension, so are the ends, but for the neighbours of texts: the text next to one of a single
byte has another length (`SteppedUp`, `SteppedDown`), and a query refuses a range that ends there
(`restrict_hull_refused_iff`). -/

namespace SparseScan

/-! ## Sizes -/

namespace StoredValue

variable {v u : StoredValue} {d : Datatype}

theorem size_ne_of_above (h : v.above = .ok u) (hv : v.form = .text) : u.size ≠ v.size := by
  obtain ⟨bytes, rfl⟩ := exists_text (hv ▸ ordered_of_above h)
  rw [above_eq_ok] at h
  cases h
  simp [size]

theorem size_ne_of_below (h : v.below = .ok u) (hv : v.form = .text) : u.size ≠ v.size := by
  obtain ⟨bytes, rfl⟩ := exists_text (hv ▸ ordered_of_below h)
  obtain ⟨down, hdown, rfl⟩ := Option.map_eq_some_iff.1 (below_eq_ok.1 h)
  rcases bytesBelow?_cases hdown with rfl | ⟨init, last, rfl, rfl, -⟩ <;> simp [size]

theorem fitsField_fixed_iff :
    fitsField d false v = true ↔ v.form = d.form ∧ v.size = d.width := by
  simp [fitsField, hasType]

/-- A step that changes the length of texts leads out of a field of fixed length just if the field
    is one of texts. -/
theorem fitsField_step_iff (hv : fitsField d false v = true) (hform : u.form = v.form)
    (hne : v.form = .text → u.size ≠ v.size) :
    u.form = d.form ∧ (u.size = d.width ↔ ¬ d.isText = true) := by
  obtain ⟨hvForm, hvSize⟩ := fitsField_fixed_iff.1 hv
  refine ⟨hform.trans hvForm, fun hsize htext => ?_, fun htext => ?_⟩
  · refine hne ?_ (hsize.trans hvSize.symm)
    rw [hvForm]
    simpa [Datatype.isText] using htext
  · have hother : u.form ≠ .text := by
      rw [hform, hvForm]
      simpa [Datatype.isText] using htext
    rw [size_eq_bytes hother, hform, hvForm, Datatype.width]

end StoredValue

/-! ## Ends -/

/-- The intervals of a constraint that has some. -/
def Constraint.intervals (c : Constraint) : List Interval :=
  match c.admitted with
  | .intervals is => is
  | _ => []

/-- Whether a literal of a column of type `t` is a value of the dimension. -/
def Dimension.Takes (d : Dimension) (t : ColumnType) (v : Literal) : Prop :=
  ∃ s, StoredValue.ofLiteral d.datatype t v = .ok s ∧ fitsField d.datatype d.varLen s = true

/-- All literals of a constraint are values of the dimension. -/
def Constraint.WithinDimension (c : Constraint) (d : Dimension) : Prop :=
  ∀ i ∈ c.intervals, ∀ v, i.low.value = some v ∨ i.high.value = some v → d.Takes c.columnType v

section

variable {d : Dimension} {t : ColumnType} {e : Endpoint} {s : StoredValue}

theorem storedEnd_fits {v : Literal} {rounding : Rounding} (hv : d.Takes t v)
    (h : d.storedEnd t v rounding = .ok s) : fitsField d.datatype d.varLen s = true := by
  obtain ⟨stored, hstored, hfits⟩ := hv
  unfold Dimension.storedEnd at h
  rw [hstored] at h
  simp only at h
  split at h
  · next unit n hd =>
      -- rounding leaves the form
      split at h
      · cases h
        exact hfits
      · cases h
  · cases h
    exact hfits

theorem lowEnd_size_iff (hfixed : d.varLen = false) (hv : ∀ v, e.value = some v → d.Takes t v)
    (h : d.lowEnd t e = .ok (some s)) : s.form = d.datatype.form ∧
      (s.size = d.datatype.width ↔ ¬ (d.datatype.isText = true ∧ e.side = .after)) := by
  obtain ⟨v, hvalue, ⟨hside, hs⟩ | ⟨hside, n, hs, habove⟩⟩ := lowEnd_eq_some h
  all_goals
    have hfits := storedEnd_fits (hv v hvalue) hs
    rw [hfixed] at hfits
  · obtain ⟨hform, hsize⟩ := StoredValue.fitsField_fixed_iff.1 hfits
    exact ⟨hform, iff_of_true hsize (by simp [hside])⟩
  · have hform := (StoredValue.above_spec habove (StoredValue.ordered_of_above habove)).1.form
    simpa only [hside, and_true] using
      StoredValue.fitsField_step_iff hfits hform (StoredValue.size_ne_of_above habove)

theorem highEnd_size_iff (hfixed : d.varLen = false) (hv : ∀ v, e.value = some v → d.Takes t v)
    (h : d.highEnd t e = .ok (some s)) : s.form = d.datatype.form ∧
      (s.size = d.datatype.width ↔ ¬ (d.datatype.isText = true ∧ e.side = .before)) := by
  obtain ⟨v, hvalue, ⟨hside, hs⟩ | ⟨hside, n, hs, hbelow⟩⟩ := highEnd_eq_some h
  all_goals
    have hfits := storedEnd_fits (hv v hvalue) hs
    rw [hfixed] at hfits
  · obtain ⟨hform, hsize⟩ := StoredValue.fitsField_fixed_iff.1 hfits
    exact ⟨hform, iff_of_true hsize (by simp [hside])⟩
  · have hform := (StoredValue.below_spec hbelow (StoredValue.ordered_of_below hbelow)).1.form
    simpa only [hside, and_true] using
      StoredValue.fitsField_step_iff hfits hform (StoredValue.size_ne_of_below hbelow)

end

/-! ## Hulls -/

namespace Dimension

/-- The low end of an interval of a constraint whose endpoint lies on a side of its literal. -/
def LowEndAt (d : Dimension) (constraint : Option Constraint) (side : Side) (low : StoredValue) :
    Prop :=
  ∃ c ∈ constraint, ∃ i ∈ c.intervals, i.low.side = side ∧
    d.lowEnd c.columnType i.low = .ok (some low)

/-- The high end of an interval of a constraint whose endpoint lies on a side of its literal. -/
def HighEndAt (d : Dimension) (constraint : Option Constraint) (side : Side) (high : StoredValue) :
    Prop :=
  ∃ c ∈ constraint, ∃ i ∈ c.intervals, i.highEndpoint.side = side ∧
    d.highEnd c.columnType i.highEndpoint = .ok (some high)

/-- A bound that is the text above an excluded one. -/
def SteppedUp (d : Dimension) (constraint : Option Constraint) (low : StoredValue) : Prop :=
  d.datatype.isText = true ∧ d.LowEndAt constraint .after low

/-- A bound that is the text below an excluded one. -/
def SteppedDown (d : Dimension) (constraint : Option Constraint) (high : StoredValue) : Prop :=
  d.datatype.isText = true ∧ d.HighEndAt constraint .before high

end Dimension

section

variable {d : Dimension} {constraint : Option Constraint} {populated : StoredValue × StoredValue}
  {low high v : StoredValue} {side : Side}

/-- Each bound of a hull is populated or the end of an interval. -/
theorem hull_cases (h : d.hull constraint populated = .ok (some (low, high))) :
    (low = populated.1 ∨ ∃ side, d.LowEndAt constraint side low) ∧
      (high = populated.2 ∨ ∃ side, d.HighEndAt constraint side high) := by
  rcases constraint with _ | c
  · cases h
    exact ⟨Or.inl rfl, Or.inl rfl⟩
  · cases hc : c.admitted with
    | everything =>
        simp only [Dimension.hull, hc, Except.ok.injEq, Option.some.injEq] at h
        exact ⟨Or.inl (congrArg Prod.fst h).symm, Or.inl (congrArg Prod.snd h).symm⟩
    | nothing => simp [Dimension.hull, hc] at h
    | intervals is =>
        obtain ⟨hull, hspan, hbounds⟩ := hull_intervals hc h
        obtain ⟨hne, hlow, hhigh⟩ := Hull.bounds_eq_some hspan hbounds.symm
        have hmem : ∀ i ∈ is, i ∈ c.intervals := by
          simp [Constraint.intervals, hc]
        constructor
        · rcases hspan.low.chosen_spec (by simpa using hne) populated.1 with
            ⟨-, heq⟩ | ⟨-, hend, -⟩
          · exact Or.inl (hlow.trans heq)
          · rw [← hlow] at hend
            obtain ⟨⟨_, u⟩, he, rfl⟩ := List.mem_map.1 hend
            obtain ⟨i, hi, hends, -⟩ := mem_liveEnds.1 he
            exact Or.inr ⟨_, c, rfl, i, hmem i hi, rfl, (storedEnds_eq_ok hends).1⟩
        · rcases hspan.high.chosen_spec (by simpa using hne) populated.2 with
            ⟨-, heq⟩ | ⟨-, hend, -⟩
          · exact Or.inl (hhigh.trans heq)
          · rw [← hhigh] at hend
            obtain ⟨⟨l, _⟩, he, rfl⟩ := List.mem_map.1 hend
            obtain ⟨i, hi, hends, -⟩ := mem_liveEnds.1 he
            exact Or.inr ⟨_, c, rfl, i, hmem i hi, rfl, (storedEnds_eq_ok hends).2⟩

theorem lowEndAt_size_iff (hfixed : d.varLen = false)
    (hwithin : ∀ c, constraint = some c → c.WithinDimension d)
    (h : d.LowEndAt constraint side low) : low.form = d.datatype.form ∧
      (low.size = d.datatype.width ↔ ¬ (d.datatype.isText = true ∧ side = .after)) := by
  obtain ⟨c, hc, i, hi, rfl, hend⟩ := h
  exact lowEnd_size_iff hfixed (fun v hv => hwithin c hc i hi v (Or.inl hv)) hend

theorem highEndAt_size_iff (hfixed : d.varLen = false)
    (hwithin : ∀ c, constraint = some c → c.WithinDimension d)
    (h : d.HighEndAt constraint side high) : high.form = d.datatype.form ∧
      (high.size = d.datatype.width ↔ ¬ (d.datatype.isText = true ∧ side = .before)) := by
  obtain ⟨c, hc, i, hi, rfl, hend⟩ := h
  refine highEnd_size_iff hfixed (fun v hv => hwithin c hc i hi v ?_) hend
  unfold Interval.highEndpoint at hv
  split at hv
  · exact Or.inl hv
  · exact Or.inr hv

/-- If ends fit but for those on an excluded side of texts, so does a bound that fits or is an end.
    -/
theorem size_iff_of_ends {EndAt : Side → Prop} {excluded : Side}
    (hcases : fitsField d.datatype false v = true ∨ ∃ side, EndAt side)
    (hend : ∀ side, EndAt side → v.form = d.datatype.form ∧
      (v.size = d.datatype.width ↔ ¬ (d.datatype.isText = true ∧ side = excluded))) :
    v.form = d.datatype.form ∧
      (v.size = d.datatype.width ↔ ¬ (d.datatype.isText = true ∧ EndAt excluded)) := by
  have hexcluded : v.size = d.datatype.width →
      ¬ (d.datatype.isText = true ∧ EndAt excluded) := by
    rintro hsize ⟨htext, hat⟩
    exact (hend excluded hat).2.1 hsize ⟨htext, rfl⟩
  rcases hcases with hfits | ⟨side, hat⟩
  · obtain ⟨hform, hsize⟩ := StoredValue.fitsField_fixed_iff.1 hfits
    exact ⟨hform, iff_of_true hsize (hexcluded hsize)⟩
  · obtain ⟨hform, hsize⟩ := hend side hat
    refine ⟨hform, hexcluded, fun hstep => hsize.2 ?_⟩
    rintro ⟨htext, rfl⟩
    exact hstep ⟨htext, hat⟩

/-- The bounds of a hull are of the datatype, and of its width unless they are stepped to. -/
theorem hull_size_iff (hfixed : d.varLen = false)
    (hwithin : ∀ c, constraint = some c → c.WithinDimension d)
    (hlow : fitsField d.datatype false populated.1 = true)
    (hhigh : fitsField d.datatype false populated.2 = true)
    (h : d.hull constraint populated = .ok (some (low, high))) :
    (low.form = d.datatype.form ∧
      (low.size = d.datatype.width ↔ ¬ d.SteppedUp constraint low)) ∧
    high.form = d.datatype.form ∧
      (high.size = d.datatype.width ↔ ¬ d.SteppedDown constraint high) := by
  obtain ⟨hlowCases, hhighCases⟩ := hull_cases h
  constructor
  · refine size_iff_of_ends (hlowCases.imp_left ?_) fun _ => lowEndAt_size_iff hfixed hwithin
    rintro rfl
    exact hlow
  · refine size_iff_of_ends (hhighCases.imp_left ?_) fun _ => highEndAt_size_iff hfixed hwithin
    rintro rfl
    exact hhigh

end

/-! ## Ranges -/

namespace TiledQuery

section

variable {q : TiledQuery} {position : Nat} {d : Dimension} {low high v : StoredValue}

theorem withRange_ne_wrongDatatype {name : String} {datatype : Datatype} :
    q.withRange position low high ≠ .error (.wrongDatatype name datatype v) := by
  unfold withRange
  split
  · exact nofun
  · split <;> exact nofun

/-- An open query answers a request as the request is. -/
theorem update_error_iff {request : Except ArrayError TiledQuery} {e : ArrayError}
    (hopen : q.closed = false) : (q.update request).1 = .error e ↔ request = .error e := by
  unfold update whileOpen
  rw [hopen, if_neg Bool.false_ne_true]
  cases request <;> simp

/-- A range is refused for the first of its ends that cannot stand on the dimension. -/
theorem restrict_wrongDatatype_iff (hopen : q.closed = false)
    (hd : q.array.schema.dimensions[position]? = some d) (hfixed : d.varLen = false) :
    (q.restrict position low high).1 = .error (.wrongDatatype d.name d.datatype v) ↔
      ¬ fitsField d.datatype false low = true ∧ v = low ∨
        fitsField d.datatype false low = true ∧
          ¬ fitsField d.datatype false high = true ∧ v = high := by
  rw [restrict, update_error_iff hopen, dimension_eq_ok.2 hd]
  by_cases hlow : fitsField d.datatype false low = true
  · by_cases hhigh : fitsField d.datatype false high = true
    · simp [bind, Except.bind, hfixed, ensureStorable, hlow, hhigh, withRange_ne_wrongDatatype]
    · simp [bind, Except.bind, hfixed, ensureStorable, hlow, hhigh, @eq_comm _ v]
  · simp [bind, Except.bind, hfixed, ensureStorable, hlow, @eq_comm _ v]

end

/-- On a dimension of fixed length, whose literals in a constraint are values of it, the bounds of
    the hull are values of it as well, but for texts that have been stepped to: these have another
    length, and a query refuses the range for the first of them. -/
theorem restrict_hull_refused_iff {schema : Schema} {tileExtent : Nat} {cells : List Cell}
    {a : TiledArray} {bounds : List (StoredValue × StoredValue)} {position : Nat} {d : Dimension}
    {populated : StoredValue × StoredValue} {constraint : Option Constraint}
    {low high : StoredValue} (ha : TiledArray.ofCells schema tileExtent cells = .ok a)
    (hbounds : a.populated = .ok (some bounds)) (hd : a.schema.dimensions[position]? = some d)
    (hpopulated : bounds[position]? = some populated) (hfixed : d.varLen = false)
    (hwithin : ∀ c, constraint = some c → c.WithinDimension d)
    (h : d.hull constraint populated = .ok (some (low, high))) :
    (low.hasType d.datatype = true ∧ high.hasType d.datatype = true) ∧
      (fitsField d.datatype false low = true ↔ ¬ d.SteppedUp constraint low) ∧
      (fitsField d.datatype false high = true ↔ ¬ d.SteppedDown constraint high) ∧
      ∀ q : TiledQuery, q.array = a → q.closed = false → ∀ v,
        ((q.restrict position low high).1 = .error (.wrongDatatype d.name d.datatype v) ↔
          d.SteppedUp constraint low ∧ v = low ∨
            ¬ d.SteppedUp constraint low ∧ d.SteppedDown constraint high ∧ v = high) := by
  obtain ⟨_, hb, hlowHolds, hhighHolds⟩ :=
    forall₂_getElem? (TiledArray.populated_holds (TiledArray.sound_ofCells ha).1 hbounds) hd
  cases hpopulated.symm.trans hb
  obtain ⟨⟨hlowForm, hlowSize⟩, hhighForm, hhighSize⟩ := hull_size_iff hfixed hwithin
    (hfixed ▸ hlowHolds.fits) (hfixed ▸ hhighHolds.fits) h
  have hlow : fitsField d.datatype false low = true ↔ ¬ d.SteppedUp constraint low := by
    rw [StoredValue.fitsField_fixed_iff, hlowSize, and_iff_right hlowForm]
  have hhigh : fitsField d.datatype false high = true ↔ ¬ d.SteppedDown constraint high := by
    rw [StoredValue.fitsField_fixed_iff, hhighSize, and_iff_right hhighForm]
  refine ⟨⟨beq_iff_eq.2 hlowForm, beq_iff_eq.2 hhighForm⟩, hlow, hhigh, ?_⟩
  rintro q rfl hopen v
  rw [restrict_wrongDatatype_iff hopen hd hfixed, hlow, hhigh, not_not, not_not]

/-! ## A dimension of letters -/

/-- A dimension with a byte of text. -/
def letterDimension : Dimension := ⟨"c", .char, false⟩

/-- Three rows with a letter each. -/
def letters : TiledArray :=
  ⟨⟨[letterDimension], []⟩,
    [⟨[.text [97]], []⟩, ⟨[.text [98]], []⟩, ⟨[.text [99]], []⟩], 1⟩

theorem ofCells_letters : TiledArray.ofCells letters.schema 1 letters.cells = .ok letters :=
  TiledArray.ofCells_of_sorted (by decide) (by decide) (by decide +kernel) (by decide +kernel)

/-- The letters from one on, or after it. -/
def fromLetter (side : Side) (letter : UInt8) : Constraint :=
  ⟨.varchar, .intervals [⟨⟨some (.bytes [letter]), side⟩, .unlimited⟩]⟩

theorem fromLetter_within (side : Side) (letter : UInt8) :
    (fromLetter side letter).WithinDimension letterDimension := by
  intro i hi v hv
  obtain rfl := List.mem_singleton.1 hi
  simp only [Endpoint.unlimited, Option.some.injEq, reduceCtorEq, or_false] at hv
  subst hv
  exact ⟨.text [letter], rfl, rfl⟩

/-- The letters from the second on are a range, and a query does not refuse it for its ends. -/
theorem fromSecondLetter_taken :
    letterDimension.hull (some (fromLetter .on 98)) (.text [97], .text [99]) =
        .ok (some (.text [98], .text [99])) ∧
      ∀ v, ((ofArray letters).restrict 0 (.text [98]) (.text [99])).1 ≠
        .error (.wrongDatatype "c" .char v) := by
  have hhull : letterDimension.hull (some (fromLetter .on 98)) (.text [97], .text [99]) =
      .ok (some (.text [98], .text [99])) := by decide +kernel
  refine ⟨hhull, fun v hrefused => ?_⟩
  have hwithin : ∀ c, some (fromLetter .on 98) = some c → c.WithinDimension letterDimension := by
    rintro _ ⟨⟩
    exact fromLetter_within .on 98
  have hbounds : letters.populated = .ok (some [(.text [97], .text [99])]) := by decide +kernel
  have hd : letters.schema.dimensions[0]? = some letterDimension := rfl
  obtain ⟨-, -, -, hanswer⟩ :=
    restrict_hull_refused_iff ofCells_letters hbounds hd rfl rfl hwithin hhull
  rcases (hanswer (ofArray letters) rfl rfl v).1 hrefused with
    ⟨⟨-, c, hc, i, hi, hside, -⟩, -⟩ | ⟨-, ⟨-, c, hc, i, hi, hside, -⟩, -⟩
  all_goals
    cases hc
    obtain rfl := List.mem_singleton.1 hi
    cases hside

/-- The letters after the first start with a text of two bytes, and a query refuses them. -/
theorem afterFirstLetter_refused :
    letterDimension.hull (some (fromLetter .after 97)) (.text [97], .text [99]) =
        .ok (some (.text [97, 0], .text [99])) ∧
      fitsField .char false (.text [97, 0]) = false ∧
      ((ofArray letters).restrict 0 (.text [97, 0]) (.text [99])).1 =
        .error (.wrongDatatype "c" .char (.text [97, 0])) := by
  decide +kernel

end TiledQuery

end SparseScan
