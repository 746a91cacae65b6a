import SparseScan.Proofs.Constraint.Meaning
import SparseScan.Proofs.Value.Neighbours

set_option autoImplicit false

/-! # Values that literals become

A literal that is not a NaN becomes, if anything, an ordered value of the stored form of its
datatype (`StoredValue.ofLiteral_ordered`). -/

namespace SparseScan

/-! ## Ranges -/

/-- All ranges but the unsigned 64-bit one are ranges of longs. -/
theorem IntKind.value_bounds {k : IntKind} (hk : k ≠ .uint64) (n : k.Value) :
    -2 ^ 63 ≤ n.val ∧ n.val < 2 ^ 63 := by
  have hleast : -2 ^ 63 ≤ k.least := by cases k <;> decide
  have hgreatest : k.greatest < 2 ^ 63 := by
    cases k with
    | uint64 => exact absurd rfl hk
    | _ => decide
  exact ⟨hleast.trans n.property.1, n.property.2.trans_lt hgreatest⟩

/-! ## Literals -/

theorem Binary.isNaN_convert {f g : FloatFormat} {x : Binary f} (h : x.isNaN = false) :
    (x.convert : Binary g).isNaN = false := by
  unfold Binary.convert
  rw [h, if_neg Bool.false_ne_true]
  split <;> exact Binary.isNaN_ofMagnitude _ _

namespace StoredValue

theorem fitInteger_eq_ok {k : IntKind} {d : Datatype} {n : ℤ} {s : StoredValue}
    (h : fitInteger k d n = .ok s) : ∃ v : k.Value, s = int k v ∧ v.val = n := by
  unfold fitInteger at h
  split at h
  · next v hv =>
      cases h
      exact ⟨v, rfl, IntKind.ofInt?_eq_some_iff.1 hv⟩
  · cases h

theorem toInteger_ordered {k : IntKind} {d : Datatype} {n : Number} {s : StoredValue}
    (h : toInteger k d n = .ok s) : s.Ordered (.int k) := by
  have hint : ∃ m, fitInteger k d m = .ok s := by
    cases n with
    | whole n =>
        simp only [toInteger] at h
        split at h
        · exact ⟨_, h⟩
        · exact ⟨_, h⟩
    | real x =>
        simp only [toInteger] at h
        split at h
        · exact ⟨_, h⟩
        · cases h
  obtain ⟨m, hm⟩ := hint
  obtain ⟨v, rfl, -⟩ := fitInteger_eq_ok hm
  exact ⟨rfl, rfl⟩

/-- Whether a number is a float that is not one. -/
def Number.isNaN : Number → Bool
  | .whole _ => false
  | .real x => x.isNaN

theorem Number.isNaN_ofLiteral {d : Datatype} {t : ColumnType} {v : Literal} {n : Number}
    (h : Number.ofLiteral d t v = .ok n) (hv : v.isNaN t = false) : n.isNaN = false := by
  cases v with
  | boolean b =>
      cases h
      rfl
  | long m =>
      simp only [Number.ofLiteral] at h
      split at h
      · next ht =>
          split at h
          · next x hx =>
              cases h
              simp only [Literal.isNaN, ht, hx, BEq.rfl, Option.any_some, Bool.true_and] at hv
              exact Binary.isNaN_convert hv
          · cases h
      · cases h
        rfl
  | double x =>
      cases h
      exact hv
  | bytes bs => cases h

theorem isNaN_toFloat {f : FloatFormat} {n : Number} (h : n.isNaN = false) :
    (toFloat f n).isNaN = false := by
  cases n with
  | whole n => cases f <;> exact Binary.isNaN_ofMagnitude _ _
  | real x =>
      cases f with
      | single => exact Binary.isNaN_convert h
      | double => exact h

theorem ofLiteral_ordered {d : Datatype} {t : ColumnType} {v : Literal} {s : StoredValue}
    (h : ofLiteral d t v = .ok s) (hv : v.isNaN t = false) : s.Ordered d.form := by
  unfold ofLiteral at h
  split at h
  · next hform =>
      rw [hform]
      split at h
      · cases h
        exact ⟨rfl, rfl⟩
      · cases h
  · next k hform =>
      rw [hform]
      split at h
      · exact toInteger_ordered h
      · cases h
  · next f hform =>
      rw [hform]
      split at h
      · next n hn =>
          cases h
          exact ⟨rfl, isNaN_toFloat (Number.isNaN_ofLiteral hn hv)⟩
      · cases h

end StoredValue

end SparseScan
