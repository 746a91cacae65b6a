import SparseScan.Proofs.Value.Neighbours

set_option autoImplicit false

/-! # Steps to a neighbour

A value has a neighbour above it unless it is `Topmost`, and one below it unless it is `Bottommost`.
A step up is undone by a step down (`below_above`). `neighbours_exact` puts this together with what
the neighbours are: nothing lies between them and the value, save that a step down from a byte
string passes over strings with the greatest byte in them. -/

namespace SparseScan

/-! ## Floats -/

namespace Binary

variable {f : FloatFormat} {x u : Binary f}

theorem above?_eq_none_iff : x.above? = none ↔ x.isNaN = true ∨ x = infinite false := by
  obtain ⟨negative, m⟩ := x
  have hinf := infinity_pos f
  have hinfinite : (⟨negative, m⟩ : Binary f) = infinite false ↔
      negative = false ∧ m.val = f.infinity := by
    simp [infinite, ofMagnitude, Fin.ext_iff]
  rw [hinfinite]
  unfold above? isNaN
  simp only [decide_eq_true_eq]
  split_ifs with hnan hzero hneg hlt
  · simp [hnan]
  · simp [hzero, hinf.ne]
  · simp [hnan, hneg]
  · simp [hnan, hlt.ne]
  · have heq : m.val = f.infinity := by omega
    simp [hneg, heq]

theorem neg_neg (x : Binary f) : x.neg.neg = x := by
  simp [neg]

theorem below?_eq_none_iff : x.below? = none ↔ x.isNaN = true ∨ x = infinite true := by
  have hneg : x.neg = infinite false ↔ x = infinite true := by
    constructor
    · intro h
      rw [← neg_neg x, h]
      rfl
    · rintro rfl
      rfl
  rw [below?, Option.map_eq_none_iff, above?_eq_none_iff, isNaN_neg, hneg]

/-- No float lies below negative infinity. -/
theorem rank_infinite_le (hx : x.isNaN = false) : (infinite true : Binary f).rank ≤ x.rank := by
  have hle : x.magnitude.val ≤ f.infinity := by simpa [isNaN] using hx
  rw [infinite, rank_ofMagnitude_true le_rfl]
  unfold rank
  split <;> omega

/-- A step up can be undone. Zero keeps its rank on the way, but not its sign. -/
theorem below?_above? (hx : x.isNaN = false) (h : x.above? = some u) :
    ∃ y, u.below? = some y ∧ y.isNaN = false ∧ y.rank = x.rank := by
  obtain ⟨hu, hrank⟩ := above?_spec h
  cases hbelow : u.below? with
  | none =>
      rcases below?_eq_none_iff.1 hbelow with hnan | rfl
      · rw [hu] at hnan
        cases hnan
      · have hle := rank_infinite_le hx
        omega
  | some y =>
      obtain ⟨hy, hback⟩ := below?_spec hbelow
      exact ⟨y, rfl, hy, by omega⟩

end Binary

namespace StoredValue

/-! ## Ends of the order -/

/-- Whether nothing lies above a value: it is the greatest integer of its range, positive infinity
    or not a number. -/
def Topmost : StoredValue → Prop
  | int k n => n.val = k.greatest
  | float _ x => x.isNaN = true ∨ x = .infinite false
  | text _ => False

/-- Whether nothing lies below a value: it is the least integer of its range, negative infinity, not
    a number or the empty string. -/
def Bottommost : StoredValue → Prop
  | int k n => n.val = k.least
  | float _ x => x.isNaN = true ∨ x = .infinite true
  | text bytes => bytes = []

section

variable {v u : StoredValue}

theorem above_eq_ok : v.above = .ok u ↔ v.above? = some u := by
  unfold above
  split <;> simp_all

theorem below_eq_ok : v.below = .ok u ↔ v.below? = some u := by
  unfold below
  split <;> simp_all

theorem above_eq_error_iff : (∃ e, v.above = .error e) ↔ v.Topmost := by
  have hnone : (∃ e, v.above = .error e) ↔ v.above? = none := by
    unfold above
    split <;> simp_all
  rw [hnone]
  cases v with
  | int k n =>
      obtain ⟨hlow, hhigh⟩ := n.property
      simp only [above?, Option.map_eq_none_iff, IntKind.ofInt?_eq_none_iff, IntKind.Holds, Topmost]
      omega
  | float f x => rw [above?, Option.map_eq_none_iff, Binary.above?_eq_none_iff, Topmost]
  | text bytes => simp [above?, Topmost]

theorem bytesBelow?_eq_none_iff {bytes : List UInt8} : bytesBelow? bytes = none ↔ bytes = [] := by
  unfold bytesBelow?
  split
  · next hlast => simpa using hlast
  · next last hlast =>
      have hne : bytes ≠ [] := by
        rintro rfl
        cases hlast
      split <;> simp [hne]

theorem below_eq_error_iff : (∃ e, v.below = .error e) ↔ v.Bottommost := by
  have hnone : (∃ e, v.below = .error e) ↔ v.below? = none := by
    unfold below
    split <;> simp_all
  rw [hnone]
  cases v with
  | int k n =>
      obtain ⟨hlow, hhigh⟩ := n.property
      simp only [below?, Option.map_eq_none_iff, IntKind.ofInt?_eq_none_iff, IntKind.Holds,
        Bottommost]
      omega
  | float f x => rw [below?, Option.map_eq_none_iff, Binary.below?_eq_none_iff, Bottommost]
  | text bytes => rw [below?, Option.map_eq_none_iff, bytesBelow?_eq_none_iff, Bottommost]

theorem ends_of_isNaN (h : v.isNaN = true) : v.Topmost ∧ v.Bottommost := by
  cases v with
  | int k n => cases h
  | float f x => exact ⟨Or.inl h, Or.inl h⟩
  | text bytes => cases h

/-- A value with a neighbour above it has a place in the order. -/
theorem ordered_of_above (h : v.above = .ok u) : v.Ordered v.form := by
  refine ⟨rfl, Bool.eq_false_iff.2 fun hnan => ?_⟩
  obtain ⟨e, he⟩ := above_eq_error_iff.2 (ends_of_isNaN hnan).1
  rw [h] at he
  cases he

theorem ordered_of_below (h : v.below = .ok u) : v.Ordered v.form := by
  refine ⟨rfl, Bool.eq_false_iff.2 fun hnan => ?_⟩
  obtain ⟨e, he⟩ := below_eq_error_iff.2 (ends_of_isNaN hnan).2
  rw [h] at he
  cases he

/-! ## Steps down -/

/-- A step down leads below the value. -/
theorem below_lt (h : v.below = .ok u) : u.key < v.key := by
  have hv := ordered_of_below h
  obtain ⟨hu, hnext⟩ := below_spec h hv
  cases v with
  | int k n =>
      obtain ⟨m, rfl⟩ := exists_int hu
      exact (hnext _ hu rfl).2 le_rfl
  | float f x =>
      obtain ⟨y, rfl, -⟩ := exists_float hu
      exact (hnext _ hu rfl).2 le_rfl
  | text bytes =>
      -- the string below may have the greatest byte in it
      obtain ⟨down, hdown, rfl⟩ := Option.map_eq_some_iff.1 (below_eq_ok.1 h)
      exact bytesBelow?_lt hdown

/-- A step down undoes a step up, but for the sign of zero. -/
theorem below_above (h : v.above = .ok u) : ∃ w, u.below = .ok w ∧ w.key = v.key := by
  have hv := ordered_of_above h
  rw [above_eq_ok] at h
  simp only [below_eq_ok]
  cases v with
  | int k n =>
      obtain ⟨m, hm, rfl⟩ := Option.map_eq_some_iff.1 h
      have hback : k.ofInt? (m.val - 1) = some n := by
        rw [IntKind.ofInt?_eq_some_iff, IntKind.ofInt?_eq_some_iff.1 hm, Int.add_sub_cancel]
      exact ⟨int k n, by rw [below?, hback, Option.map_some], rfl⟩
  | float f x =>
      obtain ⟨y, hy, rfl⟩ := Option.map_eq_some_iff.1 h
      obtain ⟨z, hz, -, hrank⟩ := Binary.below?_above? hv.notNaN hy
      exact ⟨float f z, by rw [below?, hz, Option.map_some], by rw [key, key, hrank]⟩
  | text bytes =>
      cases h
      refine ⟨text bytes, ?_, rfl⟩
      simp [below?, bytesBelow?]

end

/-! ## Neighbours -/

/-- The neighbours of a value are exact. What exceeds the value is what starts at the neighbour
    above it, and what is less is what ends at the neighbour below it; among byte strings this
    leaves out those with the greatest byte, but the step down leads below the value all the same.
    There is no neighbour above just the greatest integer of a range, positive infinity and what is
    not a number, and none below just the least integer, negative infinity, what is not a number and
    the empty string. A step up can be undone by a step down. -/
theorem neighbours_exact (v : StoredValue) :
    (∀ u, v.above = .ok u → ∀ w, v.Comparable w →
      (v.order w = .ok .lt ↔ u.atMost w = true)) ∧
    (∀ u, v.below = .ok u → u.order v = .ok .lt ∧ ∀ w, v.Comparable w → w.hasTopByte = false →
      (w.order v = .ok .lt ↔ w.atMost u = true)) ∧
    ((∃ e, v.above = .error e) ↔ v.Topmost) ∧
    ((∃ e, v.below = .error e) ↔ v.Bottommost) ∧
    ∀ u, v.above = .ok u → ∃ w, u.below = .ok w ∧ w.order v = .ok .eq := by
  refine ⟨?_, ?_, above_eq_error_iff, below_eq_error_iff, ?_⟩
  · rintro u hu w ⟨o, ho⟩
    obtain ⟨hv, hw⟩ := ordered_of_order ho
    obtain ⟨hordered, hnext⟩ := above_spec hu hv
    rw [order_lt_iff hv hw, atMost_iff hordered hw]
    exact hnext w hw
  · intro u hu
    have hv := ordered_of_below hu
    obtain ⟨hordered, hnext⟩ := below_spec hu hv
    refine ⟨(order_lt_iff hordered hv).2 (below_lt hu), ?_⟩
    rintro w ⟨o, ho⟩ htop
    have hw := (ordered_of_order ho).2
    rw [order_lt_iff hw hv, atMost_iff hw hordered]
    exact hnext w hw htop
  · intro u hu
    obtain ⟨w, hw, hkey⟩ := below_above hu
    have hv := ordered_of_above hu
    have hordered := (above_spec hu hv).1
    refine ⟨w, hw, (order_eq_iff (below_spec hw hordered).1 hv).2 hkey⟩

/-- Above the greatest negative number is a zero, and the step down from there leads back. -/
theorem neighbours_exact_greatestNegative :
    let v : StoredValue := float .single (.ofBits 0x80000001)
    v.above = .ok (float .single (.ofBits 0x80000000)) ∧
      v.order (float .single (.ofBits 0)) = .ok .lt ∧
      ∃ w, (float .single (.ofBits 0x80000000)).below = .ok w ∧ w.order v = .ok .eq := by
  intro v
  have habove : v.above = .ok (float .single (.ofBits 0x80000000)) := by decide +kernel
  obtain ⟨hup, -, -, -, hback⟩ := neighbours_exact v
  refine ⟨habove, ?_, hback _ habove⟩
  exact (hup _ habove (float .single (.ofBits 0)) ⟨.lt, by decide +kernel⟩).2 (by decide +kernel)

end StoredValue

end SparseScan
