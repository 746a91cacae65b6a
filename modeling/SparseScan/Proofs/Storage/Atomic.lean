import SparseScan.Proofs.Storage.Room

set_option autoImplicit false

/-! # Operations that fail change nothing

`perform` is one operation of an array query, whatever it is, and `run` is one after the other. An
operation that returns an error leaves the query and the buffers that it was given as they were
(`perform_error`). Only a submit can end the run instead, by writing outside a buffer
(`perform_aborts`). A query that is closed stays closed (`run_closed`) and answers nothing any more.
`perform_next` says what an operation can make of a query. Ranges are taken until cells are selected
(`restrict_ok_iff`), and only a submit that is answered selects any (`run_selection`). -/

namespace SparseScan

/-! ## Operations -/

/-- What can be asked of a query. -/
inductive Operation where
  | schema
  | populated
  | estimate (name : String) (shape : FieldShape)
  | restrict (position : Nat) (low high : StoredValue)
  | restrictText (position : Nat) (low high : List UInt8)
  | register (name : String) (c : Capacities)
  | unregisterAll
  | submit (buffers : List NamedBuffers)
  | elementCounts
  | keepStats (enabled : Bool)
  | close

namespace Operation

/-- The buffers that are passed to an operation. -/
def buffers : Operation → List NamedBuffers
  | submit buffers => buffers
  | _ => []

/-- Whether an operation can fail. -/
def fallible : Operation → Bool
  | unregisterAll | keepStats _ => false
  | _ => true

end Operation

/-- What a query answers. -/
inductive Answer where
  | done
  | schema (s : Schema)
  | populated (bounds : Option (List (StoredValue × StoredValue)))
  | estimate (e : Estimate)
  | progress (p : Progress)
  | counts (cs : List (String × ElementCounts))

/-- What an operation answers, with the buffers that were passed and the query after it. -/
structure Performed (Q : Type) where
  answer : Except ArrayError Answer
  buffers : List NamedBuffers
  query : Q

namespace TiledQuery

/-- An operation that is passed no buffers. -/
def performed {α : Type} (f : α → Answer) (outcome : Except ArrayError α × TiledQuery) :
    Performed TiledQuery := ⟨outcome.1.map f, [], outcome.2⟩

/-- Carry out an operation. -/
def perform (q : TiledQuery) : Operation → Performed TiledQuery
  | .schema => performed .schema (QueryEngine.schema q)
  | .populated => performed .populated (QueryEngine.populated q)
  | .estimate name shape => performed .estimate (QueryEngine.estimate q name shape)
  | .restrict position low high => performed (fun _ => .done) (q.restrict position low high)
  | .restrictText position low high => performed (fun _ => .done) (q.restrictText position low high)
  | .register name c => performed (fun _ => .done) (q.register name c)
  | .unregisterAll => ⟨.ok .done, [], q.unregisterAll⟩
  | .submit buffers =>
      let outcome := q.submit buffers
      ⟨outcome.1.map .progress, outcome.2.1, outcome.2.2⟩
  | .elementCounts => performed .counts (QueryEngine.elementCounts q)
  | .keepStats enabled => ⟨.ok .done, [], QueryEngine.keepStats q enabled⟩
  | .close => performed (fun _ => .done) q.close

/-- Carry out operations, one after the other. -/
def run (q : TiledQuery) (ops : List Operation) : TiledQuery :=
  ops.foldl (fun q op => (q.perform op).query) q

variable {q : TiledQuery} {op : Operation} {e : ArrayError}

/-- An operation that fails leaves the query and the buffers as they were. -/
theorem perform_error (h : (q.perform op).answer = .error e) :
    (q.perform op).query = q ∧ (q.perform op).buffers = op.buffers := by
  cases op with
  | schema => exact ⟨rfl, rfl⟩
  | populated => exact ⟨rfl, rfl⟩
  | estimate name shape => exact ⟨rfl, rfl⟩
  | restrict position low high => exact ⟨update_eq_error (map_eq_error.1 h), rfl⟩
  | restrictText position low high => exact ⟨update_eq_error (map_eq_error.1 h), rfl⟩
  | register name c => exact ⟨update_eq_error (map_eq_error.1 h), rfl⟩
  | unregisterAll => cases h
  | submit buffers =>
      rcases hsubmit : q.submit buffers with ⟨answer, filled, query⟩
      simp only [perform, hsubmit, map_eq_error] at h ⊢
      subst h
      obtain ⟨rfl, rfl⟩ := submit_eq_error hsubmit
      exact ⟨rfl, rfl⟩
  | elementCounts => exact ⟨rfl, rfl⟩
  | keepStats enabled => cases h
  | close => exact ⟨update_eq_error (map_eq_error.1 h), rfl⟩

/-! ## Operations that end the run -/

/-- All that can be wrong with the room in buffers is that one is too small. -/
theorem failsAs_ensureRooms {P : ArrayError → Prop} {name : String} {c : Capacities}
    {s : ElementBuffers}
    (h : ∀ role capacity required, P (.bufferTooSmall name role capacity required)) :
    FailsAs P (ensureRooms name c s) := by
  have hroom : ∀ role required capacity, FailsAs P (ensureRoom name role required capacity) := by
    intro role required capacity
    unfold ensureRoom
    split
    · exact failsAs_ok _
    · split
      · exact failsAs_error (h _ _ _)
      · exact failsAs_ok _
  exact (hroom _ _ _).bind fun _ => (hroom _ _ _).bind fun _ => hroom _ _ _

/-- What is not found for a submit is an error. -/
theorem failsAs_targets (a : TiledArray) (buffers : List NamedBuffers)
    (registered : List (String × Capacities)) :
    FailsAs (·.aborts = false) (targets a buffers registered) := by
  induction registered with
  | nil => exact failsAs_ok _
  | cons r rest ih =>
      unfold targets
      split
      · exact failsAs_error rfl
      · exact (failsAs_ensureRooms fun _ _ _ => rfl).bind fun _ =>
          (failsAs_stored (fun _ _ h => h) a _).bind fun _ => ih.bind fun _ => failsAs_ok _

/-- Writing ends the run at a buffer that is short. -/
theorem fillAll_aborts {cells : List Cell} {ts : List Target} {buffers : List NamedBuffers}
    (h : fillAll cells ts buffers = .error e) (haborts : e.aborts = true) :
    ∃ name role, e = .abort (.writeOutside name role) := by
  induction ts generalizing buffers with
  | nil => cases h
  | cons t ts ih =>
      simp only [fillAll] at h
      split at h
      · cases h
        cases haborts
      · split at h
        · next hfill =>
            cases h
            obtain ⟨role, he, -⟩ := fill_short hfill
            exact ⟨t.name, role, he⟩
        · exact ih h

theorem submit_aborts {buffers : List NamedBuffers} (h : (q.submit buffers).1 = .error e)
    (haborts : e.aborts = true) :
    q.closed = false ∧ ∃ name role, e = .abort (.writeOutside name role) := by
  simp only [submit] at h
  split at h
  · cases h
  · next e hattempt =>
      cases h
      unfold whileOpen at hattempt
      split at hattempt
      · cases hattempt
        cases haborts
      · next hopen =>
          refine ⟨by simpa using hopen, ?_⟩
          let P (e : ArrayError) : Prop :=
            e.aborts = true → ∃ name role, e = .abort (.writeOutside name role)
          have htargets : FailsAs P (targets q.array buffers q.registered) := by
            intro e he haborts
            rw [failsAs_targets _ _ _ e he] at haborts
            cases haborts
          -- of all steps it is the writing that can end the run
          exact FailsAs.guard (P := P) (fun h => Bool.noConfusion h)
            (htargets.bind fun ts => FailsAs.bind (fun e => fillAll_aborts) fun _ => failsAs_ok _)
            e hattempt haborts

/-- Only a submit on an open query ends the run, and that by writing outside a buffer. -/
theorem perform_aborts (h : (q.perform op).answer = .error e) (haborts : e.aborts = true) :
    q.closed = false ∧
      ∃ buffers name role, op = .submit buffers ∧ e = .abort (.writeOutside name role) := by
  have hrest : ∀ {α : Type} {f : α → Answer} {x : Except ArrayError α},
      FailsAs (·.aborts = false) x → x.map f = .error e → False := by
    intro α f x hx hmap
    rw [hx e (map_eq_error.1 hmap)] at haborts
    cases haborts
  have hreturned : ∀ e : ArrayError, e.isCrossing = false → e.aborts = false → e.aborts = false :=
    fun _ _ he => he
  cases op with
  | schema => exact (hrest (.whileOpen hreturned (failsAs_ok _)) h).elim
  | populated => exact (hrest (.whileOpen hreturned (failsAs_populated hreturned _)) h).elim
  | estimate name shape => exact (hrest (failsAs_estimate hreturned _ _) h).elim
  | restrict position low high => exact (hrest (failsAs_restrict hreturned fun _ => rfl) h).elim
  | restrictText position low high =>
      exact (hrest (failsAs_restrictText hreturned fun _ => rfl) h).elim
  | register name c => exact (hrest (failsAs_register hreturned _ _) h).elim
  | unregisterAll => cases h
  | submit buffers =>
      obtain ⟨hopen, name, role, rfl⟩ := submit_aborts (map_eq_error.1 h) haborts
      exact ⟨hopen, buffers, name, role, rfl, rfl⟩
  | elementCounts => exact (hrest (.whileOpen hreturned (failsAs_ok _)) h).elim
  | keepStats enabled => cases h
  | close => exact (hrest (.update hreturned (failsAs_ok _)) h).elim

/-! ## Closed queries -/

/-- A closed query fails whatever can fail. -/
theorem perform_closed (h : q.closed = true) (hfallible : op.fallible = true) :
    (q.perform op).answer = .error .closed := by
  have hupdate : ∀ request, (q.update request).1 = .error .closed := by
    intro request
    simp only [update, whileOpen, h, if_true]
  have hwhile : ∀ {α : Type} (answer : Except ArrayError α),
      q.whileOpen answer = .error .closed := fun _ => if_pos h
  cases op with
  | schema => exact map_eq_error.2 (hwhile _)
  | populated => exact map_eq_error.2 (hwhile _)
  | estimate name shape => exact map_eq_error.2 (hwhile _)
  | restrict position low high => exact map_eq_error.2 (hupdate _)
  | restrictText position low high => exact map_eq_error.2 (hupdate _)
  | register name c => exact map_eq_error.2 (hupdate _)
  | unregisterAll => cases hfallible
  | submit buffers => simp only [perform, submit, hwhile, Except.map]
  | elementCounts => exact map_eq_error.2 (hwhile _)
  | keepStats enabled => cases hfallible
  | close => exact map_eq_error.2 (hupdate _)

/-- No operation opens a query again. -/
theorem perform_keeps_closed (h : q.closed = true) (op : Operation) :
    (q.perform op).query.closed = true := by
  by_cases hfallible : op.fallible = true
  · rw [(perform_error (perform_closed h hfallible)).1]
    exact h
  · cases op with
    | unregisterAll => exact h
    | keepStats enabled => exact h
    | _ => exact absurd rfl hfallible

theorem run_closed (h : q.closed = true) (ops : List Operation) : (q.run ops).closed = true := by
  induction ops generalizing q with
  | nil => exact h
  | cons op rest ih => exact ih (perform_keeps_closed h op)

/-- A query is closed after it was asked to close, whether it was open or not. -/
theorem perform_close (q : TiledQuery) : (q.perform .close).query.closed = true := by
  cases hclosed : q.closed with
  | true => exact perform_keeps_closed hclosed .close
  | false =>
      show q.close.2.closed = true
      simp only [close, update, whileOpen, hclosed, Bool.false_eq_true, if_false]

/-! ## Ranges -/

/-- The range is in order, on a dimension that can hold its ends. -/
def RangeFits (a : TiledArray) (position : Nat) (low high : StoredValue) : Prop :=
  ∃ d, a.schema.dimensions[position]? = some d ∧ d.varLen = false ∧
    fitsField d.datatype false low = true ∧ fitsField d.datatype false high = true ∧
    low.atMost high = true

/-- The range is in order, on a dimension of texts. -/
def TextFits (a : TiledArray) (position : Nat) (low high : List UInt8) : Prop :=
  ∃ d, a.schema.dimensions[position]? = some d ∧ d.varLen = true ∧
    (StoredValue.text low).atMost (.text high) = true

theorem update_ok_iff {request : Except ArrayError TiledQuery} :
    (q.update request).1 = .ok () ↔ q.closed = false ∧ ∃ q', request = .ok q' := by
  unfold update whileOpen
  cases q.closed with
  | true => simp
  | false => cases request <;> simp

theorem dimension_eq_ok {position : Nat} {d : Dimension} :
    q.dimension position = .ok d ↔ q.array.schema.dimensions[position]? = some d := by
  unfold dimension
  split <;> simp_all

theorem withRange_ok_iff {position : Nat} {low high : StoredValue} :
    (∃ q', q.withRange position low high = .ok q') ↔
      q.selection = none ∧ low.atMost high = true := by
  unfold withRange StoredValue.atMost
  cases q.selection with
  | some cells => simp
  | none => rcases low.order high with e | (_ | _ | _) <;> simp

/-- Which ranges a query takes: those that fit, until its cells are selected. -/
theorem restrict_ok_iff {position : Nat} {low high : StoredValue} :
    (q.restrict position low high).1 = .ok () ↔
      q.closed = false ∧ q.selection = none ∧ RangeFits q.array position low high := by
  rw [restrict, update_ok_iff]
  simp only [bind_eq_ok, guard_eq_ok, dimension_eq_ok]
  refine and_congr_right fun _ => ⟨?_, ?_⟩
  · rintro ⟨q', d, hd, hvar, ⟨⟩, hlow, ⟨⟩, hhigh, hrange⟩
    obtain ⟨hnone, horder⟩ := withRange_ok_iff.1 ⟨q', hrange⟩
    exact ⟨hnone, d, hd, by simpa using hvar, ensureStorable_eq_ok.1 hlow,
      ensureStorable_eq_ok.1 hhigh, horder⟩
  · rintro ⟨hnone, d, hd, hvar, hlow, hhigh, horder⟩
    obtain ⟨q', hrange⟩ := withRange_ok_iff.2 ⟨hnone, horder⟩
    exact ⟨q', d, hd, by simp [hvar], (), ensureStorable_eq_ok.2 hlow, (),
      ensureStorable_eq_ok.2 hhigh, hrange⟩

theorem restrictText_ok_iff {position : Nat} {low high : List UInt8} :
    (q.restrictText position low high).1 = .ok () ↔
      q.closed = false ∧ q.selection = none ∧ TextFits q.array position low high := by
  rw [restrictText, update_ok_iff]
  simp only [bind_eq_ok, guard_eq_ok, dimension_eq_ok]
  refine and_congr_right fun _ => ⟨?_, ?_⟩
  · rintro ⟨q', d, hd, hvar, hrange⟩
    obtain ⟨hnone, horder⟩ := withRange_ok_iff.1 ⟨q', hrange⟩
    exact ⟨hnone, d, hd, by simpa using hvar, horder⟩
  · rintro ⟨hnone, d, hd, hvar, horder⟩
    obtain ⟨q', hrange⟩ := withRange_ok_iff.2 ⟨hnone, horder⟩
    exact ⟨q', d, hd, by simp [hvar], hrange⟩

/-! ## What an operation can do -/

/-- A submit that is answered. -/
def Hands (q : TiledQuery) (op : Operation) : Prop :=
  ∃ buffers status, op = .submit buffers ∧ (q.submit buffers).1 = .ok status

/-- What an operation can make of a query. -/
inductive Next (q : TiledQuery) (op : Operation) : TiledQuery → Prop
  | same : Next q op q
  | ranged {position : Nat} {low high : StoredValue} {q' : TiledQuery}
      (h : q.TookRange q' position low high) : Next q op q'
  | registered {name : String} {c : Capacities} {st : TiledArray.StoredField}
      (hst : q.array.stored? name = some st) (hoffsets : c.offsets.isSome = st.shape.varLen)
      (hvalidity : c.validity.isSome = st.shape.nullable) :
      Next q op { q with registered := putCapacities name c q.registered }
  | unregistered : Next q op q.unregisterAll
  | counting (stats : Option SubmitCounts) : Next q op { q with stats }
  | closed : Next q op { q with closed := true, registered := [], releases := q.releases + 1 }
  | submitted (h : q.Hands op) (cells : List Cell) (counts : List (String × ElementCounts)) :
      Next q op (q.advanced cells counts)

theorem perform_next (q : TiledQuery) (op : Operation) : q.Next op (q.perform op).query := by
  rcases hanswer : (q.perform op).answer with e | answer
  · rw [(perform_error hanswer).1]
    exact .same
  · cases op with
    | submit buffers =>
        rcases hsubmit : q.submit buffers with ⟨e | status, filled, query⟩
        · rw [perform, hsubmit] at hanswer
          cases hanswer
        · obtain ⟨ts, -, -, rfl, -⟩ := submit_eq_ok hsubmit
          simp only [perform, hsubmit]
          exact .submitted ⟨buffers, status, rfl, by rw [hsubmit]⟩ _ _
    | restrict position low high =>
        obtain ⟨⟨⟩, hok, -⟩ := map_eq_ok.1 hanswer
        exact .ranged (restrict_eq_ok hok)
    | restrictText position low high =>
        obtain ⟨⟨⟩, hok, -⟩ := map_eq_ok.1 hanswer
        exact .ranged (restrictText_eq_ok hok)
    | register name c =>
        obtain ⟨⟨⟩, hok, -⟩ := map_eq_ok.1 hanswer
        obtain ⟨st, hst, hoffsets, hvalidity, hquery⟩ := register_eq_ok hok
        rw [show (q.perform (.register name c)).query = _ from hquery]
        exact .registered hst hoffsets hvalidity
    | close =>
        obtain ⟨⟨⟩, hok, -⟩ := map_eq_ok.1 hanswer
        have hquery := update_eq_ok hok
        rw [Except.ok.injEq] at hquery
        rw [show (q.perform .close).query = _ from hquery.symm]
        exact .closed
    | unregisterAll => exact .unregistered
    | keepStats enabled => exact .counting _
    | _ => exact .same

/-! ## The selection -/

/-- Some submit among the operations is answered. -/
def Submitted : TiledQuery → List Operation → Prop
  | _, [] => False
  | q, op :: rest => q.Hands op ∨ Submitted (q.perform op).query rest

/-- A submit that is answered has selected the cells. -/
theorem Hands.selection (h : q.Hands op) : (q.perform op).query.selection ≠ none := by
  obtain ⟨buffers, status, rfl, hstatus⟩ := h
  rcases hsubmit : q.submit buffers with ⟨answer, filled, query⟩
  rw [hsubmit] at hstatus
  subst hstatus
  obtain ⟨ts, -, -, rfl, -⟩ := submit_eq_ok hsubmit
  simp [perform, hsubmit, advanced]

/-- No operation changes the array, and only a submit that is answered selects cells. -/
theorem perform_selection (q : TiledQuery) (op : Operation) :
    (q.perform op).query.array = q.array ∧
      ((q.perform op).query.selection = none ↔ q.selection = none ∧ ¬ q.Hands op) := by
  have hnext : (q.perform op).query.array = q.array ∧
      (q.Hands op ∨ (q.perform op).query.selection = q.selection) := by
    have hnext := perform_next q op
    generalize (q.perform op).query = q' at hnext
    cases hnext with
    | ranged h =>
        rw [h.query]
        exact ⟨rfl, Or.inr rfl⟩
    | submitted h cells counts => exact ⟨rfl, Or.inl h⟩
    | _ => exact ⟨rfl, Or.inr rfl⟩
  obtain ⟨harray, hselection⟩ := hnext
  refine ⟨harray, ?_⟩
  by_cases hhands : q.Hands op
  · exact iff_of_false hhands.selection fun h => h.2 hhands
  · rw [hselection.resolve_left hhands]
    exact ⟨fun hnone => ⟨hnone, hhands⟩, And.left⟩

theorem run_selection (q : TiledQuery) (ops : List Operation) :
    (q.run ops).array = q.array ∧
      ((q.run ops).selection = none ↔ q.selection = none ∧ ¬ q.Submitted ops) := by
  induction ops generalizing q with
  | nil => exact ⟨rfl, fun hnone => ⟨hnone, id⟩, And.left⟩
  | cons op rest ih =>
      obtain ⟨harray, hselection⟩ := perform_selection q op
      obtain ⟨harrays, hselections⟩ := ih (q.perform op).query
      refine ⟨harrays.trans harray, hselections.trans ?_⟩
      rw [hselection, Submitted, not_or, and_assoc]

/-- An operation that returns an error leaves the query, all that it has released, and the buffers
    that it was passed as they were. What does not return, but ends the run, is a submit on an open
    query that writes outside a buffer. Once a query has been asked to close, whatever can fail
    does, as on a closed query, and always will. Until then the query takes any range that fits as
    long as no submit has been answered, however many have failed. -/
theorem perform_atomic (q : TiledQuery) :
    (∀ op e, (q.perform op).answer = .error e → e.aborts = false →
      (q.perform op).query = q ∧ (q.perform op).buffers = op.buffers ∧
        ∀ others, releasesOf ((q.perform op).query :: others) = releasesOf (q :: others)) ∧
    (∀ op e, (q.perform op).answer = .error e → e.aborts = true → q.closed = false ∧
      ∃ buffers name role, op = .submit buffers ∧ e = .abort (.writeOutside name role)) ∧
    (q.perform .close).query.closed = true ∧
    (q.closed = true → ∀ ops op, op.fallible = true →
      ((q.run ops).perform op).answer = .error .closed) ∧
    ∀ ops, (q.run ops).closed = false →
      (∀ position low high, ((q.run ops).restrict position low high).1 = .ok () ↔
        q.selection = none ∧ ¬ q.Submitted ops ∧ RangeFits q.array position low high) ∧
      (∀ position low high, ((q.run ops).restrictText position low high).1 = .ok () ↔
        q.selection = none ∧ ¬ q.Submitted ops ∧ TextFits q.array position low high) := by
  refine ⟨?_, fun op e => perform_aborts, perform_close q, ?_, ?_⟩
  · intro op e herror _
    obtain ⟨hquery, hbuffers⟩ := perform_error herror
    exact ⟨hquery, hbuffers, fun others => by rw [hquery]⟩
  · intro hclosed ops op hfallible
    exact perform_closed (run_closed hclosed ops) hfallible
  · intro ops hopen
    obtain ⟨harray, hselection⟩ := run_selection q ops
    refine ⟨fun position low high => ?_, fun position low high => ?_⟩
    · rw [restrict_ok_iff, harray, hselection, and_assoc]
      exact and_iff_right hopen
    · rw [restrictText_ok_iff, harray, hselection, and_assoc]
      exact and_iff_right hopen

/-- A fresh query on an array of one row. -/
def freshRow : TiledQuery :=
  .ofArray ⟨⟨[⟨"row", .int64, false⟩], []⟩, [⟨[.small .int64 7], []⟩], 1⟩

/-- Its first submit comes before there are buffers, and fails. It still takes a range then, and
    once it has been closed it does not even say what was submitted. -/
theorem freshRow_takes_range :
    (freshRow.perform (.submit [])).answer = .error .nothingRegistered ∧
      (freshRow.perform (.submit [])).query = freshRow ∧
      ((freshRow.run [.submit []]).restrict 0 (.small .int64 3) (.small .int64 9)).1 = .ok () ∧
      ((freshRow.run [.submit [], .close, .unregisterAll]).perform .elementCounts).answer =
        .error .closed := by
  obtain ⟨hatomic, -, -, -, hranges⟩ := perform_atomic freshRow
  have hfails : (freshRow.submit []).1 = .error .nothingRegistered := by decide +kernel
  have hanswer : (freshRow.perform (.submit [])).answer = .error .nothingRegistered :=
    (map_eq_error (f := Answer.progress)).2 hfails
  have hunsubmitted : ¬ freshRow.Submitted [.submit []] := by
    rintro (⟨buffers, status, hop, hstatus⟩ | hnone)
    · cases hop
      exact absurd (hfails.symm.trans hstatus) nofun
    · exact hnone
  refine ⟨hanswer, (hatomic _ _ hanswer rfl).1, ?_, ?_⟩
  · refine ((hranges [.submit []] (by decide +kernel)).1 0 _ _).2 ⟨rfl, hunsubmitted, ?_⟩
    exact ⟨_, rfl, rfl, by decide, by decide, by decide⟩
  · have hclosed := (perform_atomic (freshRow.run [.submit [], .close])).2.2.2.1
    exact hclosed (by decide +kernel) [.unregisterAll] .elementCounts rfl

end TiledQuery

end SparseScan
