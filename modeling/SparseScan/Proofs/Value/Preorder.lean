import SparseScan.Constraint.Hull
import SparseScan.Proofs.Value.Neighbours

set_option autoImplicit false

/-! # Stored values are totally preordered

The values of one stored form, NaN apart, are in a total preorder in which only the two zeros of a
float format are equal without being one value (`order_eq_iff_identical`). The lesser and the
greater of two values are there just where the values compare (`Picks`). Folding them over a list
gives an extreme value of the list, at one place for every order of the list (`Picks.foldsTo`). A
hull takes in the ends of its intervals by these folds. -/

namespace SparseScan

namespace StoredValue

variable {a b c : StoredValue}

/-! ## Where there is an order -/

theorem comparable_iff :
    a.Comparable b ↔ a.form = b.form ∧ a.isNaN = false ∧ b.isNaN = false := by
  constructor
  · rintro ⟨o, ho⟩
    obtain ⟨ha, hb⟩ := ordered_of_order ho
    exact ⟨hb.form.symm, ha.notNaN, hb.notNaN⟩
  · rintro ⟨hform, ha, hb⟩
    obtain ⟨o, ho, -⟩ := order_compares ⟨rfl, ha⟩ ⟨hform.symm, hb⟩
    exact ⟨o, ho⟩

/-- Whatever the answer, it is how the keys compare: as numbers, or byte by byte. -/
theorem compares_of_order {o : Ordering} (h : a.order b = .ok o) : o.Compares a.key b.key := by
  obtain ⟨ha, hb⟩ := ordered_of_order h
  obtain ⟨o', ho', hcmp⟩ := order_compares ha hb
  rw [h, Except.ok.injEq] at ho'
  rwa [ho']

theorem order_of_form_ne (h : a.form ≠ b.form) :
    a.order b = .error (.incomparable a.form b.form) := by
  cases a with
  | int k x =>
      cases b with
      | int l y =>
          have hkl : k ≠ l := fun hkl => h (congrArg StoredForm.int hkl)
          rw [order, if_neg hkl, form, form]
      | float g y => rfl
      | text y => rfl
  | float f x =>
      cases b with
      | int l y => rfl
      | float g y =>
          have hfg : f ≠ g := fun hfg => h (congrArg StoredForm.float hfg)
          rw [order, if_neg hfg, form, form]
      | text y => rfl
  | text x =>
      cases b with
      | int l y => rfl
      | float g y => rfl
      | text y => exact absurd rfl h

theorem order_of_isNaN (hform : a.form = b.form) (h : a.isNaN = true ∨ b.isNaN = true) :
    a.order b = .error (.unordered a b) := by
  cases a with
  | float f x =>
      cases b with
      | float g y =>
          cases hform
          have hnan : (x.isNaN || y.isNaN) = true := Bool.or_eq_true_iff.2 h
          rw [order, if_pos rfl, if_pos hnan]
      | int l y => cases hform
      | text y => cases hform
  | int k x => cases b <;> simp_all [form, isNaN]
  | text x => cases b <;> simp_all [form, isNaN]

/-- What keeps two values from being compared: their forms, or else a NaN. -/
theorem order_eq_error_iff {e : ValueError} :
    a.order b = .error e ↔
      a.form ≠ b.form ∧ e = .incomparable a.form b.form ∨
      a.form = b.form ∧ (a.isNaN = true ∨ b.isNaN = true) ∧ e = .unordered a b := by
  by_cases hform : a.form = b.form
  · by_cases hnan : a.isNaN = true ∨ b.isNaN = true
    · rw [order_of_isNaN hform hnan, Except.error.injEq, eq_comm (b := e)]
      simp [hform, hnan]
    · obtain ⟨o, ho⟩ : a.Comparable b := comparable_iff.2 ⟨hform, by simpa using hnan⟩
      simp [ho, hform, hnan]
  · rw [order_of_form_ne hform, Except.error.injEq, eq_comm (b := e)]
    simp [hform]

/-! ## The laws of the order -/

/-- The values in the other order compare the other way. -/
theorem order_swap {o : Ordering} (h : a.order b = .ok o) : b.order a = .ok o.swap := by
  obtain ⟨ha, hb⟩ := ordered_of_order h
  obtain ⟨p, hp, hcmp⟩ := order_compares hb ha
  rw [hp, hcmp.inj (Ordering.compares_swap.2 (compares_of_order h))]

theorem order_trans {o p : Ordering} (hab : a.order b = .ok o) (hbc : b.order c = .ok p)
    (ho : o ≠ .gt) (hp : p ≠ .gt) : a.order c = .ok (o.then p) := by
  obtain ⟨ha, hb⟩ := ordered_of_order hab
  have hc := (ordered_of_order hbc).2
  rw [hb.form] at hc
  cases o with
  | lt =>
      have hlt := (order_lt_iff ha hb).1 hab
      cases p with
      | lt => exact (order_lt_iff ha hc).2 (hlt.trans ((order_lt_iff hb hc).1 hbc))
      | eq => exact (order_lt_iff ha hc).2 (hlt.trans_eq ((order_eq_iff hb hc).1 hbc))
      | gt => exact absurd rfl hp
  | eq =>
      have heq := (order_eq_iff ha hb).1 hab
      cases p with
      | lt => exact (order_lt_iff ha hc).2 (heq.trans_lt ((order_lt_iff hb hc).1 hbc))
      | eq => exact (order_eq_iff ha hc).2 (heq.trans ((order_eq_iff hb hc).1 hbc))
      | gt => exact absurd rfl hp
  | gt => exact absurd rfl ho

/-- Whether a value is one of the two zeros of a float format. -/
def IsZero : StoredValue → Prop
  | float _ x => x.magnitude.val = 0
  | _ => False

/-- Values of one form share their place if they are one value or both zero. -/
theorem key_eq_iff {k : StoredForm} (ha : a.Ordered k) (hb : b.Ordered k) :
    a.key = b.key ↔ a = b ∨ a.IsZero ∧ b.IsZero := by
  cases k with
  | int n =>
      obtain ⟨x, rfl⟩ := exists_int ha
      obtain ⟨y, rfl⟩ := exists_int hb
      simp [key, IsZero, Subtype.ext_iff]
  | float f =>
      obtain ⟨x, rfl, -⟩ := exists_float ha
      obtain ⟨y, rfl, -⟩ := exists_float hb
      simp only [key, IsZero, List.cons.injEq, and_true, float.injEq, heq_eq_eq, true_and]
      refine ⟨Binary.eq_or_zero_of_rank_eq, ?_⟩
      rintro (rfl | ⟨hx, hy⟩)
      · rfl
      · simp [Binary.rank, hx, hy]
  | text =>
      obtain ⟨x, rfl⟩ := exists_text ha
      obtain ⟨y, rfl⟩ := exists_text hb
      have hbytes : Function.Injective fun byte : UInt8 => (byte.toNat : ℤ) := by
        intro byte byte' h
        exact UInt8.toNat_inj.1 (Int.ofNat_inj.1 h)
      simp [key, IsZero, (List.map_injective_iff.2 hbytes).eq_iff]

theorem order_eq_iff_identical :
    a.order b = .ok .eq ↔ a.Comparable b ∧ (a = b ∨ a.IsZero ∧ b.IsZero) := by
  constructor
  · intro h
    obtain ⟨ha, hb⟩ := ordered_of_order h
    exact ⟨⟨_, h⟩, (key_eq_iff ha hb).1 ((order_eq_iff ha hb).1 h)⟩
  · rintro ⟨⟨o, ho⟩, hsame⟩
    obtain ⟨ha, hb⟩ := ordered_of_order ho
    exact (order_eq_iff ha hb).2 ((key_eq_iff ha hb).2 hsame)

/-! ## The outer of two values -/

/-- A choice between two values that there is just for those that compare. It is the outer one of
    them, `le` being the order toward the outside, in which both ways lead to one place only. -/
structure Picks (pick : StoredValue → StoredValue → Except ValueError StoredValue)
    (le : StoredValue → StoredValue → Prop) : Prop where
  ok_iff : ∀ a b, (∃ m, pick a b = .ok m) ↔ a.Comparable b
  outer : ∀ a b m, pick a b = .ok m → (m = a ∨ m = b) ∧ le m a ∧ le m b
  trans : ∀ a b c, le a b → le b c → le a c
  order_eq : ∀ a b, le a b → le b a → a.order b = .ok .eq

/-- What fails where the order fails answers for values that compare only. -/
theorem comparable_of_ok {pick : StoredValue → StoredValue → Except ValueError StoredValue}
    (hfail : ∀ e, a.order b = .error e → pick a b = .error e) {m : StoredValue}
    (h : pick a b = .ok m) : a.Comparable b := by
  cases ho : a.order b with
  | ok o => exact ⟨o, ho⟩
  | error e =>
      rw [hfail e ho] at h
      cases h

theorem picks_least : Picks least fun a b => a.atMost b = true where
  ok_iff a b := by
    refine ⟨?_, least_ok⟩
    rintro ⟨l, hl⟩
    exact comparable_of_ok (fun e he => by rw [least, he]) hl
  outer _ _ _ := least_spec
  trans _ _ _ := atMost_trans
  order_eq _ _ := order_eq_of_atMost

theorem picks_greatest : Picks greatest fun a b => b.atMost a = true where
  ok_iff a b := by
    refine ⟨?_, greatest_ok⟩
    rintro ⟨g, hg⟩
    exact comparable_of_ok (fun e he => by rw [greatest, he]) hg
  outer _ _ _ := greatest_spec
  trans _ _ _ hab hbc := atMost_trans hbc hab
  order_eq _ _ hab hba := order_eq_of_atMost hba hab

/-! ## The outermost of many values -/

/-- The choice between the values of a list, one after the other; of none there is none. -/
def pickAll (pick : StoredValue → StoredValue → Except ValueError StoredValue) :
    List StoredValue → Except ValueError (Option StoredValue)
  | [] => .ok none
  | v :: vs => (vs.foldlM pick v).map some

/-- Values that compare with each other have an outermost one among them. The choice between them
    answers it, and in every other order of the values one at the same place. -/
def FoldsTo (pick : StoredValue → StoredValue → Except ValueError StoredValue)
    (le : StoredValue → StoredValue → Prop) : Prop :=
  ∀ vs ws : List StoredValue, vs ≠ [] → (∀ a ∈ vs, ∀ b ∈ vs, a.Comparable b) → vs.Perm ws →
    ∃ m m', pickAll pick vs = .ok (some m) ∧ pickAll pick ws = .ok (some m') ∧
      m ∈ vs ∧ (∀ v ∈ vs, le m v) ∧ m.order m' = .ok .eq

namespace Picks

variable {pick : StoredValue → StoredValue → Except ValueError StoredValue}
  {le : StoredValue → StoredValue → Prop}

/-- Choosing on and on ends at one of the values, which is outermost. -/
theorem foldlM_spec (h : Picks pick le) {v : StoredValue} {vs : List StoredValue}
    (hcomp : ∀ a ∈ v :: vs, ∀ b ∈ v :: vs, a.Comparable b) :
    ∃ m, vs.foldlM pick v = .ok m ∧ m ∈ v :: vs ∧ ∀ u ∈ v :: vs, le m u := by
  induction vs generalizing v with
  | nil =>
      obtain ⟨m, hm⟩ := (h.ok_iff v v).2 (hcomp v (by simp) v (by simp))
      obtain ⟨hmem, hle, -⟩ := h.outer v v m hm
      obtain rfl : m = v := hmem.elim id id
      exact ⟨m, rfl, by simp, by simpa using hle⟩
  | cons w vs ih =>
      obtain ⟨x, hx⟩ := (h.ok_iff v w).2 (hcomp v (by simp) w (by simp))
      obtain ⟨hxmem, hxv, hxw⟩ := h.outer v w x hx
      -- what is chosen so far takes the place of the first two
      have hsub : ∀ u ∈ x :: vs, u ∈ v :: w :: vs := by
        intro u hu
        rcases List.mem_cons.1 hu with rfl | hu
        · rcases hxmem with rfl | rfl <;> simp
        · simp [hu]
      obtain ⟨m, hm, hmem, hall⟩ := ih fun a ha b hb => hcomp a (hsub a ha) b (hsub b hb)
      refine ⟨m, by rw [List.foldlM_cons, hx]; exact hm, hsub m hmem, ?_⟩
      have hmx := hall x (by simp)
      intro u hu
      rcases List.mem_cons.1 hu with rfl | hu
      · exact h.trans m x u hmx hxv
      · rcases List.mem_cons.1 hu with rfl | hu
        · exact h.trans m x u hmx hxw
        · exact hall u (by simp [hu])

theorem pickAll_spec (h : Picks pick le) {vs : List StoredValue} (hne : vs ≠ [])
    (hcomp : ∀ a ∈ vs, ∀ b ∈ vs, a.Comparable b) :
    ∃ m, pickAll pick vs = .ok (some m) ∧ m ∈ vs ∧ ∀ v ∈ vs, le m v := by
  cases vs with
  | nil => exact absurd rfl hne
  | cons v vs =>
      obtain ⟨m, hm, hmem, hall⟩ := h.foldlM_spec hcomp
      exact ⟨m, by rw [pickAll, hm]; rfl, hmem, hall⟩

/-- Two outermost values of one list are at one place, so their order in the list is no matter. -/
theorem foldsTo (h : Picks pick le) : FoldsTo pick le := by
  intro vs ws hne hcomp hperm
  have hne' : ws ≠ [] := fun hnil => hne (List.perm_nil.1 (hnil ▸ hperm))
  have hcomp' : ∀ a ∈ ws, ∀ b ∈ ws, a.Comparable b := by
    intro a ha b hb
    exact hcomp a (hperm.mem_iff.2 ha) b (hperm.mem_iff.2 hb)
  obtain ⟨m, hm, hmem, hall⟩ := h.pickAll_spec hne hcomp
  obtain ⟨m', hm', hmem', hall'⟩ := h.pickAll_spec hne' hcomp'
  have hout : le m m' := hall m' (hperm.mem_iff.2 hmem')
  have hback : le m' m := hall' m (hperm.mem_iff.1 hmem)
  exact ⟨m, m', hm, hm', hmem, hall, h.order_eq m m' hout hback⟩

end Picks

end StoredValue

/-! ## The ends of a hull -/

namespace Hull

open StoredValue (least greatest pickAll)

/-- A fold that changes one part of a state is a fold of that part. -/
theorem foldlM_place (pick : StoredValue → StoredValue → Except ValueError StoredValue)
    (place : StoredValue → Hull) {add : Hull → StoredValue → Except ValueError Hull}
    (hadd : ∀ a v, add (place a) v = (pick a v).map place) (a : StoredValue)
    (vs : List StoredValue) : vs.foldlM add (place a) = (vs.foldlM pick a).map place := by
  induction vs generalizing a with
  | nil => rfl
  | cons v vs ih =>
      rw [List.foldlM_cons, List.foldlM_cons, hadd]
      cases pick a v with
      | error e => rfl
      | ok m => exact ih m

/-- Low ends are taken in by choosing the least. -/
theorem foldlM_addLow (vs : List StoredValue) :
    vs.foldlM (fun h v => h.addLow (some v)) ({} : Hull) =
      (pickAll least vs).map fun low => { low } := by
  cases vs with
  | nil => rfl
  | cons v vs =>
      rw [List.foldlM_cons, pickAll]
      refine (foldlM_place least (fun a => { low := some a }) (fun _ _ => rfl) v vs).trans ?_
      cases vs.foldlM least v <;> rfl

/-- High ends are taken in by choosing the greatest. -/
theorem foldlM_addHigh (vs : List StoredValue) :
    vs.foldlM (fun h v => h.addHigh (some v)) ({} : Hull) =
      (pickAll greatest vs).map fun high => { high } := by
  cases vs with
  | nil => rfl
  | cons v vs =>
      rw [List.foldlM_cons, pickAll]
      refine (foldlM_place greatest (fun a => { high := some a }) (fun _ _ => rfl) v vs).trans ?_
      cases vs.foldlM greatest v <;> rfl

end Hull

namespace StoredValue

/-- Stored values of one form are totally preordered, NaN apart. Just these compare, as their keys
    do; where values do not compare the error tells why. The answer is reversed for the values the
    other way round, it is transitive, and equal are only identical values and the two zeros of a
    format. The lesser and the greater of two values are there just where the values compare, and
    are one of them and a bound of both. Folded over values that compare with each other they end at
    a bound of all, at one place for every order of the values; and these are the folds by which a
    hull takes in its ends. -/
theorem order_totalPreorder :
    (∀ a b : StoredValue,
      a.Comparable b ↔ a.form = b.form ∧ a.isNaN = false ∧ b.isNaN = false) ∧
    (∀ (a b : StoredValue) (o : Ordering), a.order b = .ok o → o.Compares a.key b.key) ∧
    (∀ (a b : StoredValue) (e : ValueError), a.order b = .error e ↔
      a.form ≠ b.form ∧ e = .incomparable a.form b.form ∨
      a.form = b.form ∧ (a.isNaN = true ∨ b.isNaN = true) ∧ e = .unordered a b) ∧
    (∀ (a b : StoredValue) (o : Ordering), a.order b = .ok o → b.order a = .ok o.swap) ∧
    (∀ (a b c : StoredValue) (o p : Ordering), a.order b = .ok o → b.order c = .ok p →
      o ≠ .gt → p ≠ .gt → a.order c = .ok (o.then p)) ∧
    (∀ a b : StoredValue,
      a.order b = .ok .eq ↔ a.Comparable b ∧ (a = b ∨ a.IsZero ∧ b.IsZero)) ∧
    Picks least (fun a b => a.atMost b = true) ∧
    Picks greatest (fun a b => b.atMost a = true) ∧
    FoldsTo least (fun a b => a.atMost b = true) ∧
    FoldsTo greatest (fun a b => b.atMost a = true) ∧
    ∀ vs : List StoredValue,
      vs.foldlM (fun h v => h.addLow (some v)) ({} : Hull) =
          (pickAll least vs).map (fun low => { low }) ∧
        vs.foldlM (fun h v => h.addHigh (some v)) ({} : Hull) =
          (pickAll greatest vs).map fun high => { high } := by
  refine ⟨fun _ _ => comparable_iff, fun _ _ _ => compares_of_order,
    fun _ _ _ => order_eq_error_iff, fun _ _ _ => order_swap, fun _ _ _ _ _ => order_trans,
    fun _ _ => order_eq_iff_identical, picks_least, picks_greatest, picks_least.foldsTo,
    picks_greatest.foldsTo, ?_⟩
  intro vs
  exact ⟨Hull.foldlM_addLow vs, Hull.foldlM_addHigh vs⟩

/-- Minus zero, zero and one of single precision. -/
def zerosAndOne : List StoredValue :=
  [float .single (.ofBits 0x80000000), float .single (.ofBits 0),
    float .single (.ofBits 0x3f800000)]

/-- The least of them is the zero that comes first; the two zeros are equal but not identical. -/
theorem order_totalPreorder_zeros :
    pickAll least zerosAndOne = .ok (some (float .single (.ofBits 0x80000000))) ∧
      pickAll least zerosAndOne.reverse = .ok (some (float .single (.ofBits 0))) ∧
      (float .single (.ofBits 0x80000000)).order (float .single (.ofBits 0)) = .ok .eq ∧
      float .single (.ofBits 0x80000000) ≠ float .single (.ofBits 0) ∧
      (float .single (.ofBits 0)).order (float .single (.ofBits 0x3f800000)) = .ok .lt ∧
      (float .single (.ofBits 0x3f800000)).order (float .single (.ofBits 0)) = .ok .gt ∧
      (float .single (.ofBits 0x80000000)).order (float .single (.ofBits 0x3f800000)) =
        .ok .lt := by
  obtain ⟨-, -, -, hswap, htrans, -, -, -, hleast, -⟩ := order_totalPreorder
  have hcomp : ∀ a ∈ zerosAndOne, ∀ b ∈ zerosAndOne, a.Comparable b := by decide +kernel
  have hfirst : pickAll least zerosAndOne = .ok (some (float .single (.ofBits 0x80000000))) := by
    decide +kernel
  have hreverse : pickAll least zerosAndOne.reverse = .ok (some (float .single (.ofBits 0))) := by
    decide +kernel
  have hlt : (float .single (.ofBits 0)).order (float .single (.ofBits 0x3f800000)) = .ok .lt := by
    decide +kernel
  obtain ⟨m, m', hm, hm', -, -, hzeros⟩ :=
    hleast zerosAndOne _ (by decide) hcomp (List.reverse_perm _).symm
  rw [hfirst, Except.ok.injEq, Option.some.injEq] at hm
  rw [hreverse, Except.ok.injEq, Option.some.injEq] at hm'
  subst hm hm'
  exact ⟨hfirst, hreverse, hzeros, by decide, hlt, hswap _ _ _ hlt,
    htrans _ _ _ _ _ hzeros hlt (by decide) (by decide)⟩

end StoredValue

end SparseScan
