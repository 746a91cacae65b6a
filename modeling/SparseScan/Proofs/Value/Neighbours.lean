import SparseScan.Proofs.Value.Order

set_option autoImplicit false

/-! # Neighbours in the order of stored values

`StoredValue.above_spec` and `StoredValue.below_spec` say that nothing lies between a value and its
neighbour: excluding the value itself is the same as starting or ending at the neighbour. Byte
strings with the greatest byte in them are the exception below a string. -/

namespace SparseScan

/-! ## Floats -/

namespace Binary

variable {f : FloatFormat} {x u : Binary f}

theorem isNaN_ofMagnitude (negative : Bool) (m : Nat) :
    (ofMagnitude negative m : Binary f).isNaN = false := by
  simp [isNaN, ofMagnitude]

theorem rank_ofMagnitude_false {m : Nat} (hm : m ≤ f.infinity) :
    (ofMagnitude false m : Binary f).rank = m := by
  simp [rank, ofMagnitude, Nat.min_eq_left hm]

theorem rank_ofMagnitude_true {m : Nat} (hm : m ≤ f.infinity) :
    (ofMagnitude true m : Binary f).rank = -m := by
  simp [rank, ofMagnitude, Nat.min_eq_left hm]

theorem infinity_pos (f : FloatFormat) : 0 < f.infinity := by
  cases f <;> decide

theorem rank_neg (x : Binary f) : x.neg.rank = -x.rank := by
  unfold rank neg
  cases x.negative <;> simp

theorem isNaN_neg (x : Binary f) : x.neg.isNaN = x.isNaN := rfl

/-- The sign and the magnitude are read off the rank, save that both zeros have one rank. -/
theorem eq_or_zero_of_rank_eq {y : Binary f} (h : x.rank = y.rank) :
    x = y ∨ x.magnitude.val = 0 ∧ y.magnitude.val = 0 := by
  obtain ⟨xNegative, x⟩ := x
  obtain ⟨yNegative, y⟩ := y
  simp only [rank] at h ⊢
  by_cases hsign : xNegative = yNegative
  · subst hsign
    have hmagnitude : x.val = y.val := by split at h <;> omega
    exact Or.inl (by rw [Fin.ext hmagnitude])
  · -- numbers of different signs have one rank only at zero
    refine Or.inr ?_
    cases xNegative <;> cases yNegative <;>
      simp only [not_true_eq_false, Bool.false_eq_true, if_false, if_true] at h hsign <;> omega

theorem above?_spec (h : x.above? = some u) : u.isNaN = false ∧ u.rank = x.rank + 1 := by
  unfold above? at h
  split at h
  · cases h
  · next hn =>
      have hle : x.magnitude.val ≤ f.infinity := by simpa [isNaN] using hn
      split at h
      · next hzero =>
          -- both zeros have rank zero, and the least positive magnitude is above them
          cases h
          refine ⟨isNaN_ofMagnitude _ _, ?_⟩
          rw [rank_ofMagnitude_false (infinity_pos f)]
          simp [rank, hzero]
      · next hpos =>
          split at h
          · next hneg =>
              cases h
              refine ⟨isNaN_ofMagnitude _ _, ?_⟩
              rw [rank_ofMagnitude_true (by omega), rank, if_pos hneg]
              omega
          · next hneg =>
              split at h
              · next hlt =>
                  cases h
                  refine ⟨isNaN_ofMagnitude _ _, ?_⟩
                  rw [rank_ofMagnitude_false hlt, rank, if_neg hneg]
                  push_cast
                  rfl
              · cases h

theorem below?_spec (h : x.below? = some u) : u.isNaN = false ∧ u.rank = x.rank - 1 := by
  obtain ⟨v, hv, rfl⟩ := Option.map_eq_some_iff.1 h
  obtain ⟨hn, hr⟩ := above?_spec hv
  refine ⟨by rw [isNaN_neg, hn], ?_⟩
  rw [rank_neg, hr, rank_neg]
  omega

end Binary

/-! ## Byte strings -/

theorem nil_le_key (w : List ℤ) : [] ≤ w := not_lt.1 (List.not_lt_nil w)

theorem cons_le_cons_key (x y : ℤ) (xs ys : List ℤ) :
    x :: xs ≤ y :: ys ↔ x < y ∨ x = y ∧ xs ≤ ys := by
  rw [← not_lt, List.cons_lt_cons_iff, ← not_lt]
  rcases lt_trichotomy x y with h | h | h
  · simp [h, h.not_gt, h.ne']
  · simp [h]
  · simp [h, h.not_gt, h.ne']

/-- Nothing lies between a string and the one with a zero byte after it. -/
theorem lt_iff_append_zero_le (a w : List ℤ) (hw : ∀ b ∈ w, 0 ≤ b) : a < w ↔ a ++ [0] ≤ w := by
  induction a generalizing w with
  | nil =>
      cases w with
      | nil => simp
      | cons y ys =>
          have hy : 0 ≤ y := hw y (List.mem_cons_self ..)
          refine iff_of_true (List.nil_lt_cons _ _) ?_
          rw [List.nil_append, cons_le_cons_key]
          rcases hy.lt_or_eq with h | h
          · exact Or.inl h
          · exact Or.inr ⟨h, nil_le_key _⟩
  | cons x xs ih =>
      cases w with
      | nil => simp
      | cons y ys =>
          rw [List.cons_append, List.cons_lt_cons_iff, cons_le_cons_key,
            ih ys fun b hb => hw b (List.mem_cons_of_mem _ hb)]

/-- Nothing lies between a string that ends in a zero byte and the one without it. -/
theorem lt_append_zero_iff_le (a w : List ℤ) (hw : ∀ b ∈ w, 0 ≤ b) : w < a ++ [0] ↔ w ≤ a := by
  rw [← not_le, ← lt_iff_append_zero_le a w hw, not_lt]

/-- Among strings without the greatest byte, nothing lies between a string and the one whose last
    byte is lowered by one and followed by the greatest byte. -/
theorem lt_append_iff_le (a w : List ℤ) (l : ℤ) (hw : ∀ b ∈ w, b < 255) :
    w < a ++ [l] ↔ w ≤ a ++ [l - 1, 255] := by
  induction a generalizing w with
  | nil =>
      cases w with
      | nil => exact iff_of_true (List.nil_lt_cons _ _) (nil_le_key _)
      | cons y ys =>
          rw [List.nil_append, List.nil_append, List.cons_lt_cons_iff, cons_le_cons_key]
          -- strings of the same first byte stop short of the greatest byte that follows
          have hys : ys ≤ [255] := by
            cases ys with
            | nil => exact nil_le_key _
            | cons z zs =>
                have hz : z < 255 := hw z (by simp)
                exact (cons_le_cons_key ..).2 (Or.inl hz)
          have hnil : ¬ ys < [] := List.not_lt_nil _
          simp only [hys, hnil, and_true, and_false, or_false]
          omega
  | cons x xs ih =>
      cases w with
      | nil => exact iff_of_true (List.nil_lt_cons _ _) (nil_le_key _)
      | cons y ys =>
          rw [List.cons_append, List.cons_append, List.cons_lt_cons_iff, cons_le_cons_key,
            ih ys fun b hb => hw b (List.mem_cons_of_mem _ hb)]

namespace StoredValue

/-- Whether the value is a byte string with the greatest byte in it. -/
def hasTopByte : StoredValue → Bool
  | text bytes => bytes.contains 0xFF
  | _ => false

theorem key_text_nonneg (bytes : List UInt8) : ∀ b ∈ (text bytes).key, 0 ≤ b := by
  simp [key]

theorem key_text_lt {bytes : List UInt8} (h : (text bytes).hasTopByte = false) :
    ∀ b ∈ (text bytes).key, b < 255 := by
  intro b hb
  obtain ⟨x, hx, rfl⟩ := List.mem_map.1 hb
  have hne : x ≠ 0xFF := fun he => by
    subst he
    simp [hasTopByte, hx] at h
  have htop : x.toNat ≠ 255 := fun he => hne (UInt8.toNat_inj.1 he)
  have hlt : x.toNat < 256 := x.toNat_lt
  omega

/-! ## Neighbours -/

section

variable {k : StoredForm} {v w : StoredValue}

theorem exists_int {n : IntKind} (hw : w.Ordered (.int n)) : ∃ m, w = int n m := by
  obtain ⟨hform, -⟩ := hw
  cases w with
  | int l m =>
      cases hform
      exact ⟨m, rfl⟩
  | float f x => cases hform
  | text bytes => cases hform

theorem exists_float {f : FloatFormat} (hw : w.Ordered (.float f)) :
    ∃ y, w = float f y ∧ y.isNaN = false := by
  obtain ⟨hform, hn⟩ := hw
  cases w with
  | int l m => cases hform
  | float g y =>
      cases hform
      exact ⟨y, rfl, hn⟩
  | text bytes => cases hform

theorem exists_text (hw : w.Ordered .text) : ∃ bytes, w = text bytes := by
  obtain ⟨hform, -⟩ := hw
  cases w with
  | int l m => cases hform
  | float g y => cases hform
  | text bytes => exact ⟨bytes, rfl⟩

theorem singleton_lt_iff (a b : ℤ) : [a] < [b] ↔ a < b := by
  simp [List.cons_lt_cons_iff]

theorem singleton_le_iff (a b : ℤ) : [a] ≤ [b] ↔ a ≤ b := by
  rw [cons_le_cons_key]
  simp only [le_refl, and_true]
  omega

theorem int_atMost_iff {n : IntKind} (a b : n.Value) :
    (int n a).atMost (int n b) = true ↔ a.val ≤ b.val := by
  rw [atMost_iff (k := .int n) ⟨rfl, rfl⟩ ⟨rfl, rfl⟩]
  exact singleton_le_iff _ _

/-- What `above` answers is the least value above: a value exceeds `v` exactly from there on. -/
theorem above_spec {u : StoredValue} (h : v.above = .ok u) (hv : v.Ordered k) :
    u.Ordered k ∧ ∀ w : StoredValue, w.Ordered k → (v.key < w.key ↔ u.key ≤ w.key) := by
  have hsome : v.above? = some u := by
    unfold above at h
    split at h <;> simp_all
  cases v with
  | int n m =>
      obtain rfl : k = .int n := hv.form.symm
      obtain ⟨x, hx, rfl⟩ := Option.map_eq_some_iff.1 hsome
      have hval := IntKind.ofInt?_eq_some_iff.1 hx
      refine ⟨⟨rfl, rfl⟩, ?_⟩
      intro w hw
      obtain ⟨y, rfl⟩ := exists_int hw
      simp only [key, singleton_lt_iff, singleton_le_iff, hval]
      omega
  | float f x =>
      obtain rfl : k = .float f := hv.form.symm
      obtain ⟨y, hy, rfl⟩ := Option.map_eq_some_iff.1 hsome
      obtain ⟨hn, hr⟩ := Binary.above?_spec hy
      refine ⟨⟨rfl, hn⟩, ?_⟩
      intro w hw
      obtain ⟨z, rfl, -⟩ := exists_float hw
      simp only [key, singleton_lt_iff, singleton_le_iff, hr]
      omega
  | text bytes =>
      obtain rfl : k = .text := hv.form.symm
      cases hsome
      refine ⟨⟨rfl, rfl⟩, ?_⟩
      intro w hw
      obtain ⟨other, rfl⟩ := exists_text hw
      have hsucc := lt_iff_append_zero_le (text bytes).key _ (key_text_nonneg other)
      simpa [key] using hsucc

/-- The two ways to a string below: a final zero byte is dropped, any other final byte is lowered by
    one and followed by the greatest byte. -/
theorem bytesBelow?_cases {bytes down : List UInt8} (h : bytesBelow? bytes = some down) :
    bytes = down ++ [0] ∨ ∃ init last, bytes = init ++ [last] ∧ down = init ++ [last - 1, 0xFF] ∧
      ((last - 1).toNat : ℤ) = last.toNat - 1 := by
  unfold bytesBelow? at h
  split at h
  · cases h
  · next last hlast =>
      obtain ⟨init, rfl⟩ := List.getLast?_eq_some_iff.1 hlast
      rw [List.dropLast_concat] at h
      split at h
      · next hzero =>
          cases h
          exact Or.inl (by rw [hzero])
      · next hzero =>
          cases h
          have hpos : 0 < last.toNat := Nat.pos_of_ne_zero fun he => hzero (UInt8.toNat_inj.1 he)
          have hone : (1 : UInt8) ≤ last := UInt8.le_iff_toNat_le.2 hpos
          refine Or.inr ⟨init, last, rfl, rfl, ?_⟩
          rw [UInt8.toNat_sub_of_le _ _ hone, UInt8.toNat_one]
          omega

/-- What `bytesBelow?` answers is the greatest string below, among those without the greatest
    byte. -/
theorem bytesBelow?_spec {bytes down other : List UInt8} (h : bytesBelow? bytes = some down)
    (htop : (text other).hasTopByte = false) :
    (text other).key < (text bytes).key ↔ (text other).key ≤ (text down).key := by
  rcases bytesBelow?_cases h with rfl | ⟨init, last, rfl, rfl, hpred⟩
  · simpa [key] using lt_append_zero_iff_le (text down).key _ (key_text_nonneg other)
  · have hbelow := lt_append_iff_le (text init).key _ last.toNat (key_text_lt htop)
    simpa [key, hpred] using hbelow

theorem bytesBelow?_lt {bytes down : List UInt8} (h : bytesBelow? bytes = some down) :
    (text down).key < (text bytes).key := by
  rcases bytesBelow?_cases h with rfl | ⟨init, last, rfl, rfl, hpred⟩
  · simpa [key] using (lt_append_zero_iff_le (text down).key _ (key_text_nonneg down)).2 le_rfl
  · simp only [key, List.map_append, List.map_cons, List.map_nil, hpred]
    exact List.append_left_lt (List.cons_lt_cons_iff.2 (Or.inl (by omega)))

/-- What `below` answers is the greatest value below, among those without the greatest byte. -/
theorem below_spec {u : StoredValue} (h : v.below = .ok u) (hv : v.Ordered k) :
    u.Ordered k ∧ ∀ w : StoredValue, w.Ordered k → w.hasTopByte = false →
      (w.key < v.key ↔ w.key ≤ u.key) := by
  have hsome : v.below? = some u := by
    unfold below at h
    split at h <;> simp_all
  cases v with
  | int n m =>
      obtain rfl : k = .int n := hv.form.symm
      obtain ⟨x, hx, rfl⟩ := Option.map_eq_some_iff.1 hsome
      have hval := IntKind.ofInt?_eq_some_iff.1 hx
      refine ⟨⟨rfl, rfl⟩, ?_⟩
      intro w hw _
      obtain ⟨y, rfl⟩ := exists_int hw
      simp only [key, singleton_lt_iff, singleton_le_iff, hval]
      omega
  | float f x =>
      obtain rfl : k = .float f := hv.form.symm
      obtain ⟨y, hy, rfl⟩ := Option.map_eq_some_iff.1 hsome
      obtain ⟨hn, hr⟩ := Binary.below?_spec hy
      refine ⟨⟨rfl, hn⟩, ?_⟩
      intro w hw _
      obtain ⟨z, rfl, -⟩ := exists_float hw
      simp only [key, singleton_lt_iff, singleton_le_iff, hr]
      omega
  | text bytes =>
      obtain rfl : k = .text := hv.form.symm
      obtain ⟨down, hdown, rfl⟩ := Option.map_eq_some_iff.1 hsome
      refine ⟨⟨rfl, rfl⟩, ?_⟩
      intro w hw htop
      obtain ⟨other, rfl⟩ := exists_text hw
      exact bytesBelow?_spec hdown htop

end

end StoredValue

end SparseScan
