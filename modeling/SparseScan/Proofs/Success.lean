import Mathlib.Data.List.Forall2
import SparseScan.Buffer

set_option autoImplicit false

/-! # What success of a fallible step says

A sequence of fallible steps succeeds exactly when each of them does. These lemmas take a success
apart, so that no proof has to split on the failures. -/

namespace SparseScan

variable {ε ε' α β : Type}

theorem bind_eq_ok {x : Except ε α} {f : α → Except ε β} {b : β} :
    (x >>= f) = .ok b ↔ ∃ a, x = .ok a ∧ f a = .ok b := by
  cases x <;> simp [bind, Except.bind]

theorem bind_eq_error {x : Except ε α} {f : α → Except ε β} {e : ε} :
    (x >>= f) = .error e ↔ x = .error e ∨ ∃ a, x = .ok a ∧ f a = .error e := by
  cases x <;> simp [bind, Except.bind]

theorem exists_error_iff {x : Except ε α} : (∃ e, x = .error e) ↔ ¬ ∃ a, x = .ok a := by
  cases x <;> simp

theorem pure_eq_ok {a b : α} : (pure a : Except ε α) = .ok b ↔ a = b := by
  simp [pure, Except.pure]

theorem map_eq_ok {x : Except ε α} {f : α → β} {b : β} :
    x.map f = .ok b ↔ ∃ a, x = .ok a ∧ f a = b := by
  cases x <;> simp [Except.map]

theorem map_eq_error {x : Except ε α} {f : α → β} {e : ε} :
    x.map f = .error e ↔ x = .error e := by
  cases x <;> simp [Except.map]

theorem mapError_eq_ok {x : Except ε α} {f : ε → ε'} {a : α} :
    x.mapError f = .ok a ↔ x = .ok a := by
  cases x <;> simp [Except.mapError]

theorem mapError_eq_error {x : Except ε α} {f : ε → ε'} {e : ε'} :
    x.mapError f = .error e ↔ ∃ e', x = .error e' ∧ f e' = e := by
  cases x <;> simp [Except.mapError]

/-- A guard lets the steps behind it go on exactly when its condition fails. -/
theorem guard_eq_ok {c : Prop} [Decidable c] {e : ε} {g : β → Except ε α} {x : Except ε α} {a : α} :
    (if c then throw e >>= g else x) = .ok a ↔ ¬ c ∧ x = .ok a := by
  by_cases hc : c <;>
    simp [hc, throw, throwThe, MonadExceptOf.throw, bind, Except.bind]

theorem forM_eq_ok {f : α → Except ε Unit} {xs : List α} :
    xs.forM f = .ok () ↔ ∀ x ∈ xs, f x = .ok () := by
  induction xs with
  | nil => simp [pure, Except.pure]
  | cons x xs ih =>
      show (f x >>= fun _ => xs.forM f) = .ok () ↔ _
      simp only [bind_eq_ok, ih, List.mem_cons, forall_eq_or_imp]
      constructor
      · rintro ⟨⟨⟩, hx, hxs⟩
        exact ⟨hx, hxs⟩
      · rintro ⟨hx, hxs⟩
        exact ⟨(), hx, hxs⟩

theorem mapM_eq_ok {f : α → Except ε β} {xs : List α} {ys : List β} :
    xs.mapM f = .ok ys ↔ List.Forall₂ (fun x y => f x = .ok y) xs ys := by
  induction xs generalizing ys with
  | nil => simp [pure, Except.pure, eq_comm]
  | cons x xs ih =>
      simp only [List.mapM_cons, bind_eq_ok, pure_eq_ok, ih, List.forall₂_cons_left_iff]
      constructor
      · rintro ⟨y, hy, ys, hys, rfl⟩
        exact ⟨y, ys, hy, hys, rfl⟩
      · rintro ⟨y, ys, hy, hys, rfl⟩
        exact ⟨y, hy, ys, hys, rfl⟩

theorem onPresent_eq_ok {f : α → Except ε β} {x : Option α} {y : Option β} :
    onPresent f x = .ok y ↔
      x = none ∧ y = none ∨ ∃ a b, x = some a ∧ f a = .ok b ∧ y = some b := by
  cases x with
  | none => simp [onPresent, eq_comm]
  | some a =>
      simp only [onPresent, map_eq_ok, reduceCtorEq, false_and, false_or, Option.some.injEq]
      constructor
      · rintro ⟨b, hb, rfl⟩
        exact ⟨a, b, rfl, hb, rfl⟩
      · rintro ⟨_, b, rfl, hb, rfl⟩
        exact ⟨b, hb, rfl⟩

/-- A step succeeds for each of a list when it does so for all of them. -/
theorem mapM_ok {f : α → Except ε β} {xs : List α} (h : ∀ x ∈ xs, ∃ y, f x = .ok y) :
    ∃ ys, xs.mapM f = .ok ys := by
  induction xs with
  | nil => exact ⟨[], rfl⟩
  | cons x xs ih =>
      obtain ⟨y, hy⟩ := h x (List.mem_cons_self ..)
      obtain ⟨ys, hys⟩ := ih fun x' hx' => h x' (List.mem_cons_of_mem _ hx')
      exact ⟨y :: ys, mapM_eq_ok.2 (.cons hy (mapM_eq_ok.1 hys))⟩

/-- A step on what is there succeeds when it does so on each thing that can be there. -/
theorem onPresent_ok {f : α → Except ε β} {x : Option α} (h : ∀ a, x = some a → ∃ b, f a = .ok b) :
    ∃ y, onPresent f x = .ok y := by
  rcases x with _ | a
  · exact ⟨none, rfl⟩
  · obtain ⟨b, hb⟩ := h a rfl
    exact ⟨some b, onPresent_eq_ok.2 (Or.inr ⟨a, b, rfl, hb, rfl⟩)⟩

/-- A step for each of a list fails as it does for one of them. -/
theorem mapM_eq_error {f : α → Except ε β} {xs : List α} {e : ε} (h : xs.mapM f = .error e) :
    ∃ x ∈ xs, f x = .error e := by
  induction xs with
  | nil => cases h
  | cons x xs ih =>
      rw [List.mapM_cons, bind_eq_error] at h
      rcases h with hx | ⟨y, -, h⟩
      · exact ⟨x, List.mem_cons_self .., hx⟩
      · rcases bind_eq_error.1 h with hxs | ⟨ys, -, h⟩
        · obtain ⟨x', hx', he⟩ := ih hxs
          exact ⟨x', List.mem_cons_of_mem _ hx', he⟩
        · cases h

theorem onPresent_eq_error {f : α → Except ε β} {x : Option α} {e : ε}
    (h : onPresent f x = .error e) : ∃ a, x = some a ∧ f a = .error e := by
  cases x with
  | none => cases h
  | some a =>
      cases ha : f a with
      | ok b => simp [onPresent, ha, Except.map] at h
      | error e' =>
          simp only [onPresent, ha, Except.map, Except.error.injEq] at h
          exact ⟨a, rfl, h ▸ ha⟩

end SparseScan
