import SparseScan.Proofs.Storage.Fields

set_option autoImplicit false

/-! # Requests to a query

What a query has become when it grants a request: a range is there in addition (`TookRange`), or
capacities are registered (`register_eq_ok`). A refused request changes nothing, and what it can be
refused for is no abort (`FailsAs`). An estimate counts the cells inside the ranges
(`estimate_eq_ok`). -/

namespace SparseScan

/-- What a field takes for cells: the elements of their values, and one of offsets and of flags for
    each cell, if the field has them. -/
def TiledArray.StoredField.estimate (f : StoredField) (cells : List Cell) : Estimate where
  offsets := if f.shape.varLen then some cells.length else none
  values := (cells.map f.elements).sum
  validity := if f.shape.nullable then some cells.length else none

theorem TiledArray.StoredField.estimate_cells (f : StoredField) (cells : List Cell) :
    (f.estimate cells).cells = cells.length := by
  cases hvar : f.shape.varLen with
  | true => simp [estimate, Estimate.cells, hvar]
  | false => simp [estimate, Estimate.cells, hvar, f.sum_elements hvar]

namespace TiledQuery

variable {q q' : TiledQuery}

theorem whileOpen_eq_ok {α : Type} {answer : Except ArrayError α} {x : α}
    (h : q.whileOpen answer = .ok x) : answer = .ok x := by
  unfold whileOpen at h
  split at h
  · cases h
  · exact h

/-- Only an open query answers. -/
theorem isOpen_of_whileOpen {α : Type} {answer : Except ArrayError α} {x : α}
    (h : q.whileOpen answer = .ok x) : q.closed = false := by
  unfold whileOpen at h
  split at h
  · cases h
  · next hclosed => simpa using hclosed

theorem update_eq_ok {request : Except ArrayError TiledQuery}
    (h : (q.update request).1 = .ok ()) : request = .ok (q.update request).2 := by
  unfold update at h ⊢
  split at h
  · next q' hq' => exact whileOpen_eq_ok hq'
  · cases h

theorem update_eq_error {request : Except ArrayError TiledQuery} {e : ArrayError}
    (h : (q.update request).1 = .error e) : (q.update request).2 = q := by
  unfold update at h ⊢
  split
  · next hq' =>
      rw [hq'] at h
      cases h
  · rfl

/-! ## What a request fails with -/

end TiledQuery

/-- Whether an answer of the array says that the ends of a range cross. -/
def ArrayError.isCrossing : ArrayError → Bool
  | .rangeCrossed _ _ _ => true
  | _ => false

/-- Whatever a request fails with is as `P` says. -/
def FailsAs {α : Type} (P : ArrayError → Prop) (request : Except ArrayError α) : Prop :=
  ∀ e, request = .error e → P e

section

variable {P : ArrayError → Prop} {α β : Type} {x : Except ArrayError α}

theorem failsAs_ok (a : α) : FailsAs P (.ok a) := fun _ h => nomatch h

theorem failsAs_error {e : ArrayError} (he : P e) : FailsAs P (.error e : Except ArrayError α) := by
  rintro _ ⟨⟩
  exact he

theorem FailsAs.bind {f : α → Except ArrayError β} (hx : FailsAs P x)
    (hf : ∀ a, FailsAs P (f a)) : FailsAs P (x >>= f) := by
  cases x with
  | ok a => exact hf a
  | error e => exact failsAs_error (hx e rfl)

theorem FailsAs.guard {c : Prop} [Decidable c] {e : ArrayError} {g : PUnit → Except ArrayError α}
    (he : P e) (hx : FailsAs P x) : FailsAs P (if c then throw e >>= g else x) := by
  split
  · exact failsAs_error he
  · exact hx

variable {q : TiledQuery} (hP : ∀ e, e.isCrossing = false → e.aborts = false → P e)

include hP

theorem FailsAs.whileOpen (h : FailsAs P x) : FailsAs P (q.whileOpen x) := by
  unfold TiledQuery.whileOpen
  split
  · exact failsAs_error (hP _ rfl rfl)
  · exact h

theorem FailsAs.update {request : Except ArrayError TiledQuery} (h : FailsAs P request) :
    FailsAs P (q.update request).1 := by
  intro e he
  unfold TiledQuery.update at he
  split at he
  · cases he
  · next hopen =>
      cases he
      exact FailsAs.whileOpen hP h e hopen

namespace TiledQuery

variable {position : Nat} {low high : StoredValue}

theorem failsAs_stored (a : TiledArray) (name : String) : FailsAs P (a.stored name) := by
  unfold TiledArray.stored
  split
  · exact failsAs_ok _
  · exact failsAs_error (hP _ rfl rfl)

theorem failsAs_populated (a : TiledArray) : FailsAs P a.populated := by
  unfold TiledArray.populated
  split
  · exact failsAs_ok _
  · split
    · exact failsAs_error (hP _ rfl rfl)
    · exact failsAs_ok _

theorem failsAs_dimension (position : Nat) : FailsAs P (q.dimension position) := by
  unfold dimension
  split
  · exact failsAs_ok _
  · exact failsAs_error (hP _ rfl rfl)

theorem failsAs_ensureStorable (name : String) (d : Datatype) (varLen : Bool) (v : StoredValue) :
    FailsAs P (ensureStorable name d varLen v) := by
  unfold ensureStorable
  split
  · exact failsAs_ok _
  · exact failsAs_error (hP _ rfl rfl)

theorem failsAs_estimate (name : String) (shape : FieldShape) : FailsAs P (q.estimate name shape) :=
  FailsAs.whileOpen hP ((failsAs_stored hP _ _).bind fun _ =>
    .guard (hP _ rfl rfl) (failsAs_ok _))

theorem failsAs_register (name : String) (c : Capacities) : FailsAs P (q.register name c).1 :=
  FailsAs.update hP ((failsAs_stored hP _ _).bind fun _ => .guard (hP _ rfl rfl) (failsAs_ok _))

/-- A range that is refused as crossed is crossed. -/
theorem failsAs_withRange
    (hcross : low.order high = .ok .gt → P (.rangeCrossed position low high)) :
    FailsAs P (q.withRange position low high) := by
  unfold withRange
  split
  · exact failsAs_error (hP _ rfl rfl)
  · split
    · exact failsAs_error (hP _ rfl rfl)
    · next hgt => exact failsAs_error (hcross hgt)
    · exact failsAs_ok _

theorem failsAs_restrict
    (hcross : low.order high = .ok .gt → P (.rangeCrossed position low high)) :
    FailsAs P (q.restrict position low high).1 :=
  FailsAs.update hP ((failsAs_dimension hP _).bind fun _ => .guard (hP _ rfl rfl)
    ((failsAs_ensureStorable hP _ _ _ _).bind fun _ =>
      (failsAs_ensureStorable hP _ _ _ _).bind fun _ => failsAs_withRange hP hcross))

theorem failsAs_restrictText {low high : List UInt8}
    (hcross : (StoredValue.text low).order (.text high) = .ok .gt →
      P (.rangeCrossed position (.text low) (.text high))) :
    FailsAs P (q.restrictText position low high).1 :=
  FailsAs.update hP ((failsAs_dimension hP _).bind fun _ => .guard (hP _ rfl rfl)
    (failsAs_withRange hP hcross))

end TiledQuery

end

namespace TiledQuery

variable {q q' : TiledQuery}

/-! ## Requests to a changed query -/

section

variable {f : TiledQuery → TiledQuery}

/-- A request that is changed as the query is has the same answer. -/
theorem update_map (hclosed : (f q).closed = q.closed) (request : Except ArrayError TiledQuery) :
    (f q).update (request.map f) = ((q.update request).1, f (q.update request).2) := by
  unfold update whileOpen
  rw [hclosed]
  by_cases hopen : q.closed = true
  · simp [hopen]
  · cases request <;> simp [hopen, Except.map]

/-- Capacities are accepted alike, if the change leaves the array and what is registered alone. -/
theorem register_map {name : String} {c : Capacities} (hclosed : (f q).closed = q.closed)
    (harray : (f q).array = q.array)
    (hput : { f q with registered := putCapacities name c (f q).registered } =
      f { q with registered := putCapacities name c q.registered }) :
    (f q).register name c = ((q.register name c).1, f (q.register name c).2) := by
  have hstored : (f q).array.stored name = q.array.stored name := by rw [harray]
  unfold register
  rw [← update_map hclosed, hstored]
  refine congrArg _ ?_
  cases q.array.stored name with
  | error e => rfl
  | ok st =>
      by_cases hshape : c.offsets.isSome ≠ st.shape.varLen ∨ c.validity.isSome ≠ st.shape.nullable
      · simp only [bind, Except.bind, if_pos hshape, throw, throwThe, MonadExceptOf.throw,
          Except.map]
      · simp only [bind, Except.bind, if_neg hshape, pure, Except.pure, Except.map]
        exact congrArg Except.ok hput

end

theorem stored_eq_ok {a : TiledArray} {name : String} {st : TiledArray.StoredField}
    (h : a.stored name = .ok st) : a.stored? name = some st := by
  unfold TiledArray.stored at h
  split at h
  · next hst =>
      cases h
      exact hst
  · cases h

/-! ## Estimates -/

section

open TiledArray (StoredField)

variable {name : String} {shape : FieldShape} {st : StoredField} {e : Estimate}

/-- An open query estimates a field, in the shape in which it is stored, to be what the field takes
    for the cells inside the ranges. -/
theorem estimate_ok (hopen : q.closed = false) (hst : q.array.stored? name = some st) :
    q.estimate name st.shape = .ok (st.estimate q.cellsInside) := by
  have hstored : q.array.stored name = .ok st := by rw [TiledArray.stored, hst]
  simp only [estimate, whileOpen, hopen, hstored, ne_eq, not_true_eq_false, if_false,
    Bool.false_eq_true, bind, Except.bind, pure, Except.pure, StoredField.estimate]

/-- An estimate finds a field in its shape. -/
theorem estimate_eq_ok (h : q.estimate name shape = .ok e) :
    ∃ st, q.array.stored? name = some st ∧ st.shape = shape ∧ e = st.estimate q.cellsInside := by
  have hopen := isOpen_of_whileOpen h
  have hanswer := whileOpen_eq_ok h
  simp only [bind_eq_ok, guard_eq_ok, pure_eq_ok, not_not] at hanswer
  obtain ⟨st, hst, rfl, -⟩ := hanswer
  have hstored := stored_eq_ok hst
  have hsame := h.symm.trans (estimate_ok hopen hstored)
  exact ⟨st, hstored, rfl, Except.ok.inj hsame⟩

end

/-! ## Ranges -/

section

variable {position : Nat} {low high : StoredValue}

/-- The query has one range more, in order, on a dimension that it has; no cells are selected. -/
structure TookRange (q q' : TiledQuery) (position : Nat) (low high : StoredValue) : Prop where
  inOrder : low.atMost high = true
  position_lt : position < q.array.schema.dimensions.length
  unselected : q.selection = none
  query : q' = { q with ranges := q.ranges.modify position (· ++ [(low, high)]) }

theorem position_lt_of_dimension {d : Dimension} (h : q.dimension position = .ok d) :
    position < q.array.schema.dimensions.length := by
  unfold dimension at h
  split at h
  · next hd => exact (List.getElem?_eq_some_iff.1 hd).1
  · cases h

theorem withRange_eq_ok (h : q.withRange position low high = .ok q')
    (hlt : position < q.array.schema.dimensions.length) : q.TookRange q' position low high := by
  unfold withRange at h
  split at h
  · cases h
  · next hsome =>
      split at h
      · cases h
      · cases h
      · next o hne ho =>
          cases h
          exact ⟨by simpa [StoredValue.atMost, ho] using hne, hlt, by simpa using hsome, rfl⟩

theorem restrict_eq_ok (h : (q.restrict position low high).1 = .ok ()) :
    q.TookRange (q.restrict position low high).2 position low high := by
  have hrequest := update_eq_ok h
  simp only [bind_eq_ok, guard_eq_ok] at hrequest
  obtain ⟨d, hd, -, -, -, -, -, hrange⟩ := hrequest
  exact withRange_eq_ok hrange (position_lt_of_dimension hd)

theorem restrictText_eq_ok {low high : List UInt8}
    (h : (q.restrictText position low high).1 = .ok ()) :
    q.TookRange (q.restrictText position low high).2 position (.text low) (.text high) := by
  have hrequest := update_eq_ok h
  simp only [bind_eq_ok, guard_eq_ok] at hrequest
  obtain ⟨d, hd, -, hrange⟩ := hrequest
  exact withRange_eq_ok hrange (position_lt_of_dimension hd)

end

/-! ## Capacities -/

section

variable {name : String} {c : Capacities} {registered : List (String × Capacities)}

/-- Capacities of the shape of a stored field are registered under its name. -/
theorem register_eq_ok (h : (q.register name c).1 = .ok ()) :
    ∃ st, q.array.stored? name = some st ∧ c.offsets.isSome = st.shape.varLen ∧
      c.validity.isSome = st.shape.nullable ∧
      (q.register name c).2 = { q with registered := putCapacities name c q.registered } := by
  have hrequest := update_eq_ok h
  simp only [bind_eq_ok, guard_eq_ok, pure_eq_ok, not_or, not_not] at hrequest
  obtain ⟨st, hst, ⟨hoffsets, hvalidity⟩, hnext⟩ := hrequest
  exact ⟨st, stored_eq_ok hst, hoffsets, hvalidity, hnext.symm⟩

/-- An open query registers capacities of the shape of a stored field. -/
theorem register_ok {st : TiledArray.StoredField} (hopen : q.closed = false)
    (hst : q.array.stored? name = some st) (hoffsets : c.offsets.isSome = st.shape.varLen)
    (hvalidity : c.validity.isSome = st.shape.nullable) : q.register name c =
      (.ok (), { q with registered := putCapacities name c q.registered }) := by
  have hstored : q.array.stored name = .ok st := by rw [TiledArray.stored, hst]
  simp only [register, update, whileOpen, hopen, hstored, hoffsets, hvalidity, ne_eq,
    not_true_eq_false, or_self, if_false, Bool.false_eq_true, bind, Except.bind, pure, Except.pure]

theorem putCapacities_of_notMem (h : name ∉ registered.map Prod.fst) :
    putCapacities name c registered = registered ++ [(name, c)] := by
  induction registered with
  | nil => rfl
  | cons r rest ih =>
      rw [List.map_cons, List.mem_cons, not_or] at h
      rw [putCapacities, if_neg (Ne.symm h.1), ih h.2, List.cons_append]

/-- A name that is registered already keeps its place. -/
theorem putCapacities_names_of_mem (h : name ∈ registered.map Prod.fst) :
    (putCapacities name c registered).map Prod.fst = registered.map Prod.fst := by
  induction registered with
  | nil => cases h
  | cons r rest ih =>
      rw [putCapacities]
      split
      · next heq => rw [List.map_cons, List.map_cons, heq]
      · next hne =>
          rw [List.map_cons, List.mem_cons] at h
          rw [List.map_cons, List.map_cons, ih (h.resolve_left (Ne.symm hne))]

/-- The names that are registered are the old ones and the new one. -/
theorem mem_putCapacities_names {n : String} :
    n ∈ (putCapacities name c registered).map Prod.fst ↔
      n = name ∨ n ∈ registered.map Prod.fst := by
  by_cases hmem : name ∈ registered.map Prod.fst
  · rw [putCapacities_names_of_mem hmem]
    exact ⟨Or.inr, fun h => h.elim (fun heq => heq ▸ hmem) id⟩
  · rw [putCapacities_of_notMem hmem, List.map_append, List.mem_append, List.map_singleton,
      List.mem_singleton]
    exact or_comm

theorem putCapacities_nodup (h : (registered.map Prod.fst).Nodup) :
    ((putCapacities name c registered).map Prod.fst).Nodup := by
  by_cases hmem : name ∈ registered.map Prod.fst
  · rwa [putCapacities_names_of_mem hmem]
  · rw [putCapacities_of_notMem hmem, List.map_append, List.nodup_append]
    refine ⟨h, by simp, ?_⟩
    rintro n hn m hm rfl
    rw [List.map_singleton, List.mem_singleton] at hm
    subst hm
    exact hmem hn

theorem mem_putCapacities {r : String × Capacities}
    (h : r ∈ putCapacities name c registered) : r = (name, c) ∨ r ∈ registered := by
  induction registered with
  | nil => exact Or.inl (List.mem_singleton.1 h)
  | cons other rest ih =>
      rw [putCapacities] at h
      split at h
      · rcases List.mem_cons.1 h with rfl | h
        · exact Or.inl rfl
        · exact Or.inr (List.mem_cons_of_mem _ h)
      · rcases List.mem_cons.1 h with rfl | h
        · exact Or.inr (List.mem_cons_self ..)
        · exact (ih h).imp_right (List.mem_cons_of_mem _)

/-- What is registered after other capacities are, one after the other. -/
def putAll (rs registered : List (String × Capacities)) : List (String × Capacities) :=
  rs.foldl (fun registered r => putCapacities r.1 r.2 registered) registered

/-- Names of their own are registered behind the others. -/
theorem putAll_of_nodup {rs : List (String × Capacities)}
    (h : ((registered ++ rs).map Prod.fst).Nodup) : putAll rs registered = registered ++ rs := by
  induction rs generalizing registered with
  | nil => rw [List.append_nil]; rfl
  | cons r rest ih =>
      have hnew : r.1 ∉ registered.map Prod.fst := by
        rw [List.map_append, List.nodup_append] at h
        exact fun hmem => h.2.2 _ hmem _ (List.mem_cons_self ..) rfl
      have hnext : putAll (r :: rest) registered = putAll rest (registered ++ [r]) :=
        congrArg (putAll rest) (putCapacities_of_notMem hnew)
      rw [hnext, ih (by simpa using h), List.append_assoc]
      rfl

theorem mem_putAll_names {rs : List (String × Capacities)} {n : String} :
    n ∈ (putAll rs registered).map Prod.fst ↔
      n ∈ rs.map Prod.fst ∨ n ∈ registered.map Prod.fst := by
  induction rs generalizing registered with
  | nil => simp [putAll]
  | cons r rest ih =>
      have hnext : putAll (r :: rest) registered =
          putAll rest (putCapacities r.1 r.2 registered) := rfl
      rw [hnext, ih, mem_putCapacities_names, List.map_cons, List.mem_cons, or_assoc,
        or_left_comm]

end

end TiledQuery

end SparseScan
