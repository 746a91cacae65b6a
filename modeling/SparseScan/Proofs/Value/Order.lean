import Mathlib
import SparseScan.Value.Order

set_option autoImplicit false

/-! # The linear order of stored values

Values of one stored form are linearly ordered, NaN apart. `StoredValue.key` maps each of them into
one linear order, the lists of integers: `order_compares` says that comparing two values is
comparing their keys, and everything else about the order is read off there. -/

namespace SparseScan.StoredValue

/-! ## Keys -/

/-- Whether the value is a float that is not a number. -/
def isNaN : StoredValue → Bool
  | float _ x => x.isNaN
  | _ => false

/-- A value of stored form `k` that has a place in the order of that form. -/
structure Ordered (k : StoredForm) (v : StoredValue) : Prop where
  form : v.form = k
  notNaN : v.isNaN = false

/-- The place of a value in the order of its stored form; byte strings are compared byte by byte. -/
def key : StoredValue → List ℤ
  | int _ n => [n.val]
  | float _ x => [x.rank]
  | text bytes => bytes.map fun b => (b.toNat : ℤ)

theorem compare_compares_singleton (x y : ℤ) : (compare x y).Compares [x] [y] := by
  rcases lt_trichotomy x y with h | h | h
  · rw [compare_lt_iff_lt.2 h]
    exact List.cons_lt_cons_iff.2 (Or.inl h)
  · rw [compare_eq_iff_eq.2 h, h]
    exact rfl
  · rw [compare_gt_iff_gt.2 h]
    exact List.cons_lt_cons_iff.2 (Or.inl h)

/-- Equal heads leave the order to the tails. -/
theorem compares_cons {α : Type} [LinearOrder α] {o : Ordering} {x : α} {xs ys : List α}
    (h : o.Compares xs ys) : o.Compares (x :: xs) (x :: ys) := by
  cases o with
  | lt => exact List.cons_lt_cons_iff.2 (Or.inr ⟨rfl, h⟩)
  | eq => exact congrArg _ h
  | gt => exact List.cons_lt_cons_iff.2 (Or.inr ⟨rfl, h⟩)

theorem orderBytes_compares (a b : List UInt8) :
    (orderBytes a b).Compares (text a).key (text b).key := by
  simp only [key]
  induction a generalizing b with
  | nil =>
      cases b with
      | nil => exact rfl
      | cons y ys => exact List.nil_lt_cons _ _
  | cons x xs ih =>
      cases b with
      | nil => exact List.nil_lt_cons _ _
      | cons y ys =>
          simp only [orderBytes, List.map_cons]
          rcases lt_trichotomy x.toNat y.toNat with h | h | h
          · rw [Std.compare_eq_lt.2 (UInt8.lt_iff_toNat_lt.2 h)]
            exact List.cons_lt_cons_iff.2 (Or.inl (by exact_mod_cast h))
          · rw [UInt8.toNat_inj.1 h, Std.compare_self, Ordering.eq_then]
            exact compares_cons (ih ys)
          · rw [Std.compare_eq_gt.2 (UInt8.lt_iff_toNat_lt.2 h)]
            exact List.cons_lt_cons_iff.2 (Or.inl (by exact_mod_cast h))

/-- Two values of one order compare as their keys do. -/
theorem order_compares {k : StoredForm} {a b : StoredValue} (ha : a.Ordered k)
    (hb : b.Ordered k) : ∃ o, a.order b = .ok o ∧ o.Compares a.key b.key := by
  obtain ⟨hak, han⟩ := ha
  obtain ⟨hbk, hbn⟩ := hb
  subst hak
  cases a with
  | int k x =>
      cases b with
      | int l y =>
          simp only [form, StoredForm.int.injEq] at hbk
          exact ⟨_, by simp only [order, hbk, if_true], compare_compares_singleton _ _⟩
      | float g y => cases hbk
      | text y => cases hbk
  | float f x =>
      cases b with
      | int l y => cases hbk
      | float g y =>
          simp only [form, StoredForm.float.injEq] at hbk
          simp only [isNaN] at han hbn
          exact ⟨_, by simp [order, hbk, han, hbn], compare_compares_singleton _ _⟩
      | text y => cases hbk
  | text x =>
      cases b with
      | int l y => cases hbk
      | float g y => cases hbk
      | text y => exact ⟨_, rfl, orderBytes_compares x y⟩

/-- Values compare only if both have a place in the order of one stored form. -/
theorem ordered_of_order {a b : StoredValue} {o : Ordering} (h : a.order b = .ok o) :
    a.Ordered a.form ∧ b.Ordered a.form := by
  cases a with
  | int k x =>
      cases b with
      | int l y =>
          simp only [order] at h
          split at h
          · next hkl => exact ⟨⟨rfl, rfl⟩, ⟨by rw [form, form, hkl], rfl⟩⟩
          · cases h
      | float g y => cases h
      | text y => cases h
  | float f x =>
      cases b with
      | int l y => cases h
      | float g y =>
          simp only [order] at h
          split at h
          · next hfg =>
              subst hfg
              split at h
              · cases h
              · next hn =>
                  simp only [Bool.or_eq_true, not_or, Bool.not_eq_true] at hn
                  exact ⟨⟨rfl, hn.1⟩, ⟨rfl, hn.2⟩⟩
          · cases h
      | text y => cases h
  | text x =>
      cases b with
      | int l y => cases h
      | float g y => cases h
      | text y => exact ⟨⟨rfl, rfl⟩, ⟨rfl, rfl⟩⟩

/-! ## Comparisons -/

section

variable {k : StoredForm} {a b : StoredValue}

theorem atMost_iff (ha : a.Ordered k) (hb : b.Ordered k) : a.atMost b = true ↔ a.key ≤ b.key := by
  obtain ⟨o, ho, hcmp⟩ := order_compares ha hb
  rw [← hcmp.ne_gt]
  simp [atMost, ho]

theorem order_gt_iff (ha : a.Ordered k) (hb : b.Ordered k) :
    a.order b = .ok .gt ↔ b.key < a.key := by
  obtain ⟨o, ho, hcmp⟩ := order_compares ha hb
  rw [← hcmp.eq_gt, ho, Except.ok.injEq]

theorem order_lt_iff (ha : a.Ordered k) (hb : b.Ordered k) :
    a.order b = .ok .lt ↔ a.key < b.key := by
  obtain ⟨o, ho, hcmp⟩ := order_compares ha hb
  rw [← hcmp.eq_lt, ho, Except.ok.injEq]

theorem order_eq_iff (ha : a.Ordered k) (hb : b.Ordered k) :
    a.order b = .ok .eq ↔ a.key = b.key := by
  obtain ⟨o, ho, hcmp⟩ := order_compares ha hb
  rw [← hcmp.eq_eq, ho, Except.ok.injEq]

theorem not_atMost_iff (ha : a.Ordered k) (hb : b.Ordered k) :
    ¬ a.atMost b = true ↔ a.order b = .ok .gt := by
  rw [atMost_iff ha hb, order_gt_iff ha hb, not_le]

theorem atMost_ordered (h : a.atMost b = true) : a.Ordered a.form ∧ b.Ordered a.form := by
  unfold atMost at h
  split at h
  · next o ho => exact ordered_of_order ho
  · cases h

theorem atMost_trans {c : StoredValue} (hab : a.atMost b = true) (hbc : b.atMost c = true) :
    a.atMost c = true := by
  obtain ⟨ha, hb⟩ := atMost_ordered hab
  have hc := (atMost_ordered hbc).2
  rw [hb.form] at hc
  exact (atMost_iff ha hc).2 (((atMost_iff ha hb).1 hab).trans ((atMost_iff hb hc).1 hbc))

/-! ## Least and greatest -/

theorem least_spec {l : StoredValue} (h : a.least b = .ok l) :
    (l = a ∨ l = b) ∧ l.atMost a = true ∧ l.atMost b = true := by
  unfold least at h
  split at h
  · next ho =>
      cases h
      obtain ⟨ha, hb⟩ := ordered_of_order ho
      have hlt := (order_gt_iff ha hb).1 ho
      exact ⟨Or.inr rfl, (atMost_iff hb ha).2 hlt.le, (atMost_iff hb hb).2 le_rfl⟩
  · next o hne ho =>
      cases h
      obtain ⟨ha, hb⟩ := ordered_of_order ho
      refine ⟨Or.inl rfl, (atMost_iff ha ha).2 le_rfl, ?_⟩
      simpa [atMost, ho] using hne
  · cases h

theorem greatest_spec {g : StoredValue} (h : a.greatest b = .ok g) :
    (g = a ∨ g = b) ∧ a.atMost g = true ∧ b.atMost g = true := by
  unfold greatest at h
  split at h
  · next ho =>
      cases h
      obtain ⟨ha, hb⟩ := ordered_of_order ho
      refine ⟨Or.inr rfl, ?_, (atMost_iff hb hb).2 le_rfl⟩
      simp [atMost, ho]
  · next o hne ho =>
      cases h
      obtain ⟨ha, hb⟩ := ordered_of_order ho
      obtain ⟨o', ho', hcmp⟩ := order_compares ha hb
      rw [ho, Except.ok.injEq] at ho'
      subst ho'
      exact ⟨Or.inl rfl, (atMost_iff ha ha).2 le_rfl, (atMost_iff hb ha).2 (hcmp.ne_lt.1 hne)⟩
  · cases h

/-! ## Comparable values -/

/-- Whether two values have an order. -/
def Comparable (a b : StoredValue) : Prop := ∃ o, a.order b = .ok o

/-- Whether two values are one, or equal in their order, as the two zeros are. -/
def SamePlace (a b : StoredValue) : Prop := a = b ∨ a.order b = .ok .eq

instance (a b : StoredValue) : Decidable (a.Comparable b) :=
  decidable_of_iff ((a.order b).isOk = true) <| by
    rcases h : a.order b with e | o <;> simp [Comparable, h, Except.isOk, Except.toBool]

theorem Comparable.symm (h : a.Comparable b) : b.Comparable a := by
  obtain ⟨o, ho⟩ := h
  obtain ⟨ha, hb⟩ := ordered_of_order ho
  obtain ⟨o', ho', -⟩ := order_compares hb ha
  exact ⟨o', ho'⟩

theorem order_eq_of_atMost (hab : a.atMost b = true) (hba : b.atMost a = true) :
    a.order b = .ok .eq := by
  obtain ⟨ha, hb⟩ := atMost_ordered hab
  obtain ⟨o, ho, hcmp⟩ := order_compares ha hb
  have hle : a.key ≤ b.key := (atMost_iff ha hb).1 hab
  have hge : b.key ≤ a.key := (atMost_iff hb ha).1 hba
  rw [ho, hcmp.eq_eq.2 (le_antisymm hle hge)]

theorem least_ok (h : a.Comparable b) : ∃ l, a.least b = .ok l := by
  obtain ⟨o, ho⟩ := h
  rcases o with _ | _ | _ <;> simp [least, ho]

theorem greatest_ok (h : a.Comparable b) : ∃ g, a.greatest b = .ok g := by
  obtain ⟨o, ho⟩ := h
  rcases o with _ | _ | _ <;> simp [greatest, ho]

end

end SparseScan.StoredValue
