import SparseScan.Proofs.Scan.Alike

set_option autoImplicit false

/-! # Growing buffers

A fetch submits, and where not even one tile fits it doubles all buffers and submits again. A round
that leaves something to do has changed nothing that matters (`round_idle`), so growth is all that a
fetch does before it reads rows. Growth asks the memory once: it either fails with what it read, or
goes on as `enlarge` does, which asks nobody (`grow_of_permit`, `grow_of_not_permit`). Since every
growth doubles some capacity, which is a word, a fetch has rounds enough (`fetch_ne_stalled`). -/

namespace SparseScan

/-! ## Submits that hand out nothing -/

namespace TiledQuery

open TiledArray (StoredField)

section

variable {name : String} {st : StoredField} {s s' : ElementBuffers}
  {buffers filled : List NamedBuffers} {ts : List Target} {cells : List Cell}

theorem put_nil {role : BufferRole} {b b' : ElementBuffer} (h : put name role b [] = .ok b') :
    b' = b := by
  simp only [put, ElementBuffer.overwrite?, List.length_nil, Nat.zero_le, dite_true,
    Except.ok.injEq] at h
  exact h.symm

theorem onPresent_put_nil {role : BufferRole} {x y : Option ElementBuffer}
    (h : onPresent (fun b => put name role b []) x = .ok y) : y = x := by
  rcases onPresent_eq_ok.1 h with ⟨rfl, rfl⟩ | ⟨b, b', rfl, hb, rfl⟩
  · rfl
  · rw [put_nil hb]

theorem fill_nil (h : fill name st [] s = .ok s') : s' = s := by
  simp only [fill, bind_eq_ok, pure_eq_ok] at h
  obtain ⟨offsets, hoffsets, values, hvalues, validity, hvalidity, rfl⟩ := h
  rw [onPresent_put_nil hoffsets, put_nil hvalues, onPresent_put_nil hvalidity]

/-- Without cells the buffers stay as they are. -/
theorem fillAll_nil (h : fillAll [] ts buffers = .ok filled) : filled = buffers := by
  have hsame := fillAll_map id (fun t b s hs => by rw [fill_nil hs]) h
  simpa using hsame

/-- A submit leaves the array and the capacities of the buffers. -/
theorem submit_keeps (q : TiledQuery) (buffers : List NamedBuffers) :
    (q.submit buffers).2.2.array = q.array ∧
      (q.submit buffers).2.1.map (·.buffers.values.capacity) =
        buffers.map (·.buffers.values.capacity) := by
  rcases hsubmit : q.submit buffers with ⟨answer, filled, query⟩
  cases answer with
  | error e =>
      obtain ⟨rfl, rfl⟩ := submit_eq_error hsubmit
      exact ⟨rfl, rfl⟩
  | ok status =>
      obtain ⟨ts, -, hfilled, rfl, -⟩ := submit_eq_ok hsubmit
      refine ⟨rfl, fillAll_map _ (fun t b s hs => ?_) hfilled⟩
      have hvalues := (fill_spec hs).1.values
      rw [Prod.mk.injEq] at hvalues
      exact hvalues.2

theorem core_advanced_nil (q : TiledQuery) (counts : List (String × ElementCounts)) :
    (q.advanced [] counts).core = q.core := rfl

/-- The rows that are counted on a field are the cells that were taken, if the field has the shape
    that is stored. -/
theorem rowsRead_countsOfAll {a : TiledArray} {registered : List (String × Capacities)} {f : Field}
    {rest : List Field} {rows : Nat} (hts : targets a buffers registered = .ok ts)
    (hst : a.stored? f.name = some st) (hvar : st.shape.varLen = f.varLen)
    (h : Scan.rowsRead (f :: rest) (countsOfAll cells buffers ts) = .ok rows) :
    rows = cells.length := by
  simp only [Scan.rowsRead] at h
  split at h
  · next c hc =>
      obtain ⟨s, rfl⟩ := countsOf_of_lookup hts hst hc
      rw [countsOf, hvar, Except.ok.injEq] at h
      rw [← h]
      cases f.varLen <;> rfl
  · cases h

end

end TiledQuery

namespace Scan

variable {s u : Scan TiledQuery}

/-- Some buffer has a capacity of at least `k`, which is a word. -/
def Roomy (k : Nat) (s : Scan TiledQuery) : Prop :=
  ∃ n ∈ s.buffers.map (·.buffers.values.capacity), k ≤ n ∧ n < addressSpace

/-- Rows are counted on a field in the shape in which it is stored, and some buffer can grow. -/
structure Ready (s : Scan TiledQuery) : Prop where
  counted : ∃ f rest st, s.fields = f :: rest ∧ s.query.array.stored? f.name = some st ∧
    st.shape.varLen = f.varLen
  room : Roomy 1 s

theorem Ready.of_core (hs : Ready s) (h : s.core = u.core) : Ready u := by
  have hagrees := agrees_of_core h
  have harray : s.query.array = u.query.array := congrArg (·.array) hagrees.query
  refine ⟨?_, ?_⟩
  · rw [← hagrees.fields, ← harray]
    exact hs.counted
  · have hroom := hs.room
    unfold Roomy at hroom ⊢
    rwa [hagrees.buffers] at hroom

/-- A round that leaves something to do has read no rows of an incomplete query. -/
theorem round_eq_false (h : (round s).result = .ok false) :
    s.submit.result = .ok .incomplete ∧ (round s).scan = s.submit.scan ∧
      rowsRead s.submit.scan.fields s.submit.scan.query.counts = .ok 0 := by
  unfold round at h ⊢
  obtain ⟨status, hsubmit, hnext⟩ := Outcome.andThen_ok_inv h
  rw [hnext] at h ⊢
  obtain ⟨counts, hcounts, hnext⟩ := Outcome.andThen_ok_inv h
  rw [hnext] at h ⊢
  obtain ⟨hreported, hscan⟩ := elementCounts_eq_ok hcounts
  rw [hscan] at h ⊢
  subst hreported
  cases hread : rowsRead s.submit.scan.fields s.submit.scan.query.counts with
  | error e =>
      rw [hread] at h
      cases h
  | ok rows =>
      simp only [hread] at h ⊢
      by_cases hrows : rows = 0
      · subst hrows
        by_cases hstatus : status = .incomplete
        · subst hstatus
          exact ⟨hsubmit, rfl, rfl⟩
        · rw [if_pos rfl, if_neg hstatus] at h
          cases h
      · rw [if_neg hrows] at h
        obtain ⟨-, -, hnext⟩ := Outcome.andThen_ok_inv h
        rw [hnext] at h
        cases h

/-- A round that leaves something to do has changed nothing that matters. -/
theorem round_idle (hs : Ready s) (hstatus : s.status ≠ .completed)
    (h : (round s).result = .ok false) : (round s).scan.core = s.core := by
  obtain ⟨hsubmit, hscan, hread⟩ := round_eq_false h
  obtain ⟨filled, query, hquery, hafter, hcore⟩ := submit_core hsubmit
  obtain ⟨ts, hts, hfilled, rfl, -⟩ := TiledQuery.submit_eq_ok hquery
  obtain ⟨f, rest, st, hfields, hst, hvar⟩ := hs.counted
  have hkept := congrArg Scan.fields hcore
  rw [show s.submit.scan.fields = s.fields from hkept, hafter, hfields] at hread
  -- no rows are counted, so no cells were taken
  have hnone : s.query.batch ts = [] :=
    List.length_eq_zero_iff.1 (TiledQuery.rowsRead_countsOfAll hts hst hvar hread).symm
  rw [hnone] at hfilled hcore
  rw [hscan, hcore, TiledQuery.fillAll_nil hfilled, TiledQuery.core_advanced_nil]
  simp [core, hstatus]

/-! ## Growth without asking for memory -/

/-- Double all buffers and register them anew, however much memory is free. -/
def enlarge (s : Scan TiledQuery) : Outcome TiledQuery Unit :=
  match s.buffers.mapM NamedBuffers.double with
  | .error e => ⟨.error (.memory e), s⟩
  | .ok buffers =>
      registerAll buffers
        { s with buffers, query := s.query.unregisterAll }

/-- Growth asks for memory, and then doubles the buffers. -/
theorem grow_of_permit
    (h : s.allocator.growth.permit (NamedBuffers.footprint s.buffers) s.allocator.memory.next.1 =
      .ok ()) : s.grow.core = s.enlarge.core := by
  cases hdouble : s.buffers.mapM NamedBuffers.double with
  | error e =>
      simp only [grow, BufferAllocator.grow, h, enlarge, hdouble]
      exact Outcome.core_eq rfl rfl
  | ok buffers =>
      simp only [grow, BufferAllocator.grow, h, enlarge, hdouble]
      refine registerAll_alike ?_ buffers
      rfl

theorem grow_of_not_permit {e : MemoryError}
    (h : s.allocator.growth.permit (NamedBuffers.footprint s.buffers) s.allocator.memory.next.1 =
      .error e) : s.grow.result = .error (.memory e) ∧ s.grow.scan.core = s.core := by
  unfold grow BufferAllocator.grow
  simp only [h]
  exact ⟨trivial, rfl⟩

theorem enlarge_alike (h : s.core = u.core) : s.enlarge.core = u.enlarge.core := by
  unfold enlarge
  rw [(agrees_of_core h).buffers]
  split
  · exact Outcome.core_eq rfl h
  · next buffers hbuffers =>
      refine registerAll_alike ?_ buffers
      exact congrArg (fun t : Scan TiledQuery =>
        { t with buffers, query := t.query.unregisterAll }) h

/-! ## What no call changes -/

/-- What a scan keeps until it is closed. -/
structure Keeps (s t : Scan TiledQuery) : Prop where
  fields : t.fields = s.fields
  array : t.query.array = s.query.array
  upperBound : t.upperBound = s.upperBound
  answers : t.allocator.memory.answers = s.allocator.memory.answers
  room : ∀ k, Roomy k s → Roomy k t

theorem Keeps.refl (s : Scan TiledQuery) : Keeps s s := ⟨rfl, rfl, rfl, rfl, fun _ h => h⟩

theorem Keeps.trans {t : Scan TiledQuery} (h : Keeps s t) (h' : Keeps t u) : Keeps s u :=
  ⟨h'.fields.trans h.fields, h'.array.trans h.array, h'.upperBound.trans h.upperBound,
    h'.answers.trans h.answers, fun k hk => h'.room k (h.room k hk)⟩

theorem Ready.keeps {t : Scan TiledQuery} (hs : Ready s) (h : Keeps s t) : Ready t :=
  ⟨by rw [h.fields, h.array]; exact hs.counted, h.room 1 hs.room⟩

section

variable {α β : Type} {next : α → Scan TiledQuery → Outcome TiledQuery β}

theorem keeps_andThen {o : Outcome TiledQuery α} (h : Keeps s o.scan)
    (hnext : ∀ a t, Keeps t (next a t).scan) : Keeps s (o.andThen next).scan :=
  Outcome.andThen_scan h fun a t ht => ht.trans (hnext a t)

theorem keeps_timed {name : String} {step : Scan TiledQuery → Outcome TiledQuery α}
    (h : ∀ t, Keeps t (step t).scan) (s : Scan TiledQuery) : Keeps s (s.timed name step).scan := by
  obtain ⟨hfields, harray, hupper, hanswers, hroom⟩ := h s.now.2
  exact ⟨hfields, harray, hupper, hanswers, hroom⟩

end

theorem keeps_submit (s : Scan TiledQuery) : Keeps s s.submit.scan := by
  refine keeps_andThen (keeps_timed ?_ s) fun status t => ⟨rfl, rfl, rfl, rfl, fun _ h => h⟩
  intro t
  obtain ⟨harray, hcapacities⟩ := TiledQuery.submit_keeps t.query t.buffers
  refine ⟨rfl, harray, rfl, rfl, fun k hk => ?_⟩
  unfold Roomy at hk ⊢
  rwa [← hcapacities] at hk

theorem keeps_elementCounts (s : Scan TiledQuery) :
    Keeps s (s.ask QueryEngine.elementCounts).scan := ⟨rfl, rfl, rfl, rfl, fun _ h => h⟩

theorem keeps_load (s : Scan TiledQuery) (counts : List (String × ElementCounts)) :
    Keeps s (s.load counts).scan := by
  have hdecode : ∀ t, Keeps t (decode counts t).scan := by
    intro t
    simp only [decode]
    split
    · exact ⟨rfl, rfl, rfl, rfl, fun _ h => h⟩
    · exact .refl t
  have hload : Keeps { s with
      position := 0
      completedBytes := s.completedBytes + UInt64.ofNat (bytesRead s.buffers counts) }
    (s.load counts).scan := keeps_timed hdecode _
  exact ⟨hload.fields, hload.array, hload.upperBound, hload.answers, hload.room⟩

theorem keeps_round (s : Scan TiledQuery) : Keeps s (round s).scan := by
  refine keeps_andThen (keeps_submit s) fun status t => ?_
  refine keeps_andThen (keeps_elementCounts t) fun counts t => ?_
  split
  · exact .refl t
  · split
    · split
      · exact .refl t
      · exact ⟨rfl, rfl, rfl, rfl, fun _ h => h⟩
    · exact keeps_andThen (keeps_load t counts) fun _ t => .refl t

theorem register_array (q : TiledQuery) (name : String) (c : Capacities) :
    (q.register name c).2.array = q.array := by
  cases hanswer : (q.register name c).1 with
  | error e => rw [show (q.register name c).2 = q from TiledQuery.update_eq_error hanswer]
  | ok _ =>
      obtain ⟨st, -, -, -, hquery⟩ := TiledQuery.register_eq_ok hanswer
      rw [hquery]

theorem keeps_registerAll (buffers : List NamedBuffers) (s : Scan TiledQuery) :
    Keeps s (registerAll buffers s).scan := by
  induction buffers generalizing s with
  | nil => exact .refl s
  | cons b rest ih =>
      refine keeps_andThen ?_ fun _ t => ih t
      exact ⟨rfl, register_array _ _ _, rfl, rfl, fun _ h => h⟩

theorem roomy_double {k : Nat} {buffers : List NamedBuffers} (hs : Roomy k s)
    (h : List.Forall₂ (fun b b' => NamedBuffers.double b = .ok b') s.buffers buffers)
    (hu : u.buffers = buffers) : Roomy (k * 2) u := by
  obtain ⟨n, hn, hk, -⟩ := hs
  obtain ⟨b, hb, rfl⟩ := List.mem_map.1 hn
  obtain ⟨i, hi⟩ := List.mem_iff_getElem?.1 hb
  obtain ⟨b', hb', hdouble⟩ := forall₂_getElem? h hi
  obtain ⟨hcapacity, hlt⟩ := capacity_double hdouble
  refine ⟨_, List.mem_map.2 ⟨b', hu ▸ List.mem_of_getElem? hb', rfl⟩, ?_, hlt⟩
  rw [hcapacity]
  exact Nat.mul_le_mul_right 2 hk

/-- Growth that succeeds doubles every capacity. -/
theorem grow_keeps (s : Scan TiledQuery) : Keeps s s.grow.scan ∧
    (s.grow.result = .ok () → ∀ k, Roomy k s → Roomy (k * 2) s.grow.scan) := by
  rcases hgrow : s.allocator.grow s.buffers with ⟨e | buffers, allocator⟩
  · rw [grow_of_error hgrow, (BufferAllocator.grow_eq_error hgrow).1]
    exact ⟨⟨rfl, rfl, rfl, rfl, fun _ h => h⟩, nofun⟩
  · obtain ⟨-, hdouble, hallocator⟩ := BufferAllocator.grow_eq_ok hgrow
    have hall := mapM_eq_ok.1 hdouble
    have hanswers : allocator.memory.answers = s.allocator.memory.answers := by
      rw [hallocator]
      rfl
    simp only [grow, hgrow]
    have hkeeps := keeps_registerAll buffers
      { s with allocator, buffers, query := QueryEngine.unregisterAll s.query }
    have hroom : ∀ k, Roomy k s → Roomy (k * 2) (registerAll buffers
        { s with allocator, buffers, query := QueryEngine.unregisterAll s.query }).scan :=
      fun k hk => hkeeps.room _ (roomy_double hk hall rfl)
    refine ⟨⟨hkeeps.fields, hkeeps.array, hkeeps.upperBound, hkeeps.answers.trans hanswers, ?_⟩,
      fun _ => hroom⟩
    intro k hk
    obtain ⟨n, hn, hle, hlt⟩ := hroom k hk
    exact ⟨n, hn, by omega, hlt⟩

/-! ## Failures -/

/-- The step fails in the array only. -/
def FailsInArray {α : Type} (o : Outcome TiledQuery α) : Prop :=
  ∀ e, o.result = .error e → ∃ a, e = .storage a

section

variable {α β : Type} {next : α → Scan TiledQuery → Outcome TiledQuery β}

theorem failsInArray_ok (a : α) (s : Scan TiledQuery) : FailsInArray ⟨.ok a, s⟩ :=
  fun e h => by cases h

theorem failsInArray_andThen {o : Outcome TiledQuery α} (h : FailsInArray o)
    (hnext : ∀ a s, FailsInArray (next a s)) : FailsInArray (o.andThen next) := by
  obtain ⟨result, s⟩ := o
  cases result with
  | ok a => exact hnext a s
  | error e =>
      rintro _ ⟨⟩
      exact h e rfl

theorem failsInArray_storage (answer : Except ArrayError α) (s : Scan TiledQuery) :
    FailsInArray ⟨answer.mapError .storage, s⟩ := by
  intro e h
  cases answer with
  | ok a => cases h
  | error a =>
      cases h
      exact ⟨a, rfl⟩

end

theorem submit_fails (s : Scan TiledQuery) : FailsInArray s.submit :=
  failsInArray_andThen (fun e h => failsInArray_storage (s.query.submit s.buffers).1 s e h)
    fun _ _ => failsInArray_ok _ _

theorem load_fails (s : Scan TiledQuery) (counts : List (String × ElementCounts)) :
    FailsInArray (s.load counts) := by
  intro e h
  simp only [load, timed_result, decode] at h
  split at h
  · cases h
  · cases h
    exact ⟨_, rfl⟩

theorem rowsRead_fails {fields : List Field} {counts : List (String × ElementCounts)}
    {e : ScanError} (h : rowsRead fields counts = .error e) : ∃ a, e = .storage a := by
  unfold rowsRead at h
  split at h
  · cases h
  · split at h
    · cases h
    · cases h
      exact ⟨_, rfl⟩

theorem round_fails (s : Scan TiledQuery) : FailsInArray (round s) := by
  refine failsInArray_andThen (submit_fails s) fun status t => ?_
  refine failsInArray_andThen (failsInArray_storage _ _) fun counts t => ?_
  cases hread : rowsRead t.fields counts with
  | error e =>
      rintro _ ⟨⟩
      exact rowsRead_fails hread
  | ok rows =>
      by_cases hrows : rows = 0
      · by_cases hstatus : status = .incomplete
        · simp only [hrows, hstatus, if_true]
          exact failsInArray_ok _ _
        · simp only [hrows, hstatus, if_true, if_false]
          exact failsInArray_ok _ _
      · simp only [if_neg hrows]
        exact failsInArray_andThen (load_fails t counts) fun _ t => failsInArray_ok _ _

theorem registerAll_fails (buffers : List NamedBuffers) (s : Scan TiledQuery) :
    FailsInArray (registerAll buffers s) := by
  induction buffers generalizing s with
  | nil => exact failsInArray_ok _ _
  | cons b rest ih => exact failsInArray_andThen (failsInArray_storage _ _) fun _ t => ih t

/-- Growth that lacks memory leaves the buffers as they are. -/
theorem enlarge_eq_memory {e : MemoryError} (h : s.enlarge.result = .error (.memory e)) :
    s.enlarge.scan = s := by
  unfold enlarge at h ⊢
  split at h
  · rfl
  · obtain ⟨a, ha⟩ := registerAll_fails _ _ _ h
    cases ha

theorem grow_ne_stalled (s : Scan TiledQuery) : s.grow.result ≠ .error .stalled := by
  intro h
  unfold grow at h
  split at h
  · cases h
  · obtain ⟨a, ha⟩ := registerAll_fails _ _ _ h
    cases ha

/-! ## Rounds of a fetch -/

section

variable {fuel : Nat}

/-- A round that is not idle is the whole fetch. -/
theorem fetch_of_round (h : (round s).result ≠ .ok false) :
    fetch (fuel + 1) s = (round s).andThen fun _ s => ⟨.ok (), s⟩ := by
  rw [fetch_succ]
  generalize round s = o at h ⊢
  rcases o with ⟨e | done, t⟩
  · rfl
  · cases done with
    | true => rfl
    | false => exact absurd rfl h

theorem fetch_of_idle (h : (round s).result = .ok false) :
    fetch (fuel + 1) s =
      ((round s).scan.timed "grow_buffers" grow).andThen fun _ s => fetch fuel s := by
  rw [fetch_succ, Outcome.andThen_of_ok h]
  rfl

/-- A fetch that need not grow fails in the array only. -/
theorem fetch_fails (h : (round s).result ≠ .ok false) : FailsInArray (fetch (fuel + 1) s) := by
  rw [fetch_of_round h]
  exact failsInArray_andThen (round_fails s) fun _ _ => failsInArray_ok _ _

end

/-! ## Too little memory -/

/-- An error that says that there is too little memory says so truly. -/
def ReadsTooLittle (e : MemoryError) : Prop := ∀ current required available,
  e = .insufficient current required available → available ≤ required

theorem permit_eq_error {g : GrowthRule} {current : Nat} {reading : UInt64} {e : MemoryError}
    (h : g.permit current reading = .error e) :
    ReadsTooLittle e ∧ ∃ required available, e = .insufficient current required available := by
  obtain ⟨hnot, rfl⟩ := GrowthRule.permit_eq_refusal h
  have hword : reading.toNat < addressSpace := reading.toNat_lt
  refine ⟨?_, _, _, rfl⟩
  rintro _ _ _ ⟨⟩
  omega

/-- Buffers that cannot be doubled are too large, whatever memory there is. -/
theorem double_eq_error {b : ElementBuffer} {e : MemoryError} (h : b.double = .error e) :
    ReadsTooLittle e := by
  unfold ElementBuffer.double ElementBuffer.allocate at h
  split_ifs at h <;> cases h <;> rintro _ _ _ ⟨⟩

theorem grow_readsTooLittle {e : MemoryError} (h : s.grow.result = .error (.memory e)) :
    ReadsTooLittle e := by
  cases hpermit : s.allocator.growth.permit (NamedBuffers.footprint s.buffers)
      s.allocator.memory.next.1 with
  | error e' =>
      rw [(grow_of_not_permit hpermit).1] at h
      cases h
      exact (permit_eq_error hpermit).1
  | ok _ =>
      rw [Outcome.result_eq (grow_of_permit hpermit)] at h
      unfold enlarge at h
      split at h
      · next e' hdouble =>
          cases h
          obtain ⟨f, -, b, -, hb⟩ := NamedBuffers.mapM_double_eq_error hdouble
          exact double_eq_error hb
      · obtain ⟨a, ha⟩ := registerAll_fails _ _ _ h
        cases ha

theorem fetch_readsTooLittle {fuel : Nat} {e : MemoryError}
    (h : (fetch fuel s).result = .error (.memory e)) : ReadsTooLittle e := by
  induction fuel generalizing s with
  | zero => cases h
  | succ fuel ih =>
      by_cases hidle : (round s).result = .ok false
      · rw [fetch_of_idle hidle] at h
        generalize (round s).scan = t at h
        cases hgrow : (t.timed "grow_buffers" grow).result with
        | error e' =>
            rw [Outcome.andThen_of_error hgrow] at h
            cases h
            exact grow_readsTooLittle (s := t.now.2) hgrow
        | ok _ =>
            rw [Outcome.andThen_of_ok hgrow] at h
            exact ih h
      · obtain ⟨a, ha⟩ := fetch_fails hidle _ h
        cases ha

/-! ## Enough rounds -/

/-- The buffers can double no more often than there are rounds. -/
theorem fetch_ne_stalled {fuel : Nat} (hfuel : fuel ≤ submitLimit)
    (hroom : Roomy (2 ^ (submitLimit - fuel)) s) : (fetch fuel s).result ≠ .error .stalled := by
  induction fuel generalizing s with
  | zero =>
      obtain ⟨n, -, hle, hlt⟩ := hroom
      exact absurd hlt (Nat.not_lt.2 hle)
  | succ fuel ih =>
      have hkept := (keeps_round s).room _ hroom
      by_cases hidle : (round s).result = .ok false
      · rw [fetch_of_idle hidle]
        generalize (round s).scan = t at hkept ⊢
        cases hgrow : (t.timed "grow_buffers" grow).result with
        | error e =>
            rw [Outcome.andThen_of_error hgrow, ← hgrow]
            exact grow_ne_stalled t.now.2
        | ok _ =>
            -- the buffers are twice as large, for one round less
            have hdouble := (grow_keeps t.now.2).2 hgrow _ hkept
            have hless : submitLimit - (fuel + 1) + 1 = submitLimit - fuel := by omega
            rw [← Nat.pow_succ, Nat.succ_eq_add_one, hless] at hdouble
            rw [Outcome.andThen_of_ok hgrow]
            exact ih (Nat.le_of_succ_le hfuel) hdouble
      · intro hstalled
        obtain ⟨a, ha⟩ := fetch_fails hidle _ hstalled
        cases ha

/-- More rounds than are needed change nothing. -/
theorem fetch_of_le {fuel more : Nat} (h : (fetch fuel s).result ≠ .error .stalled)
    (hle : fuel ≤ more) : fetch more s = fetch fuel s := by
  induction fuel generalizing s more with
  | zero => exact absurd rfl h
  | succ fuel ih =>
      obtain ⟨more, rfl⟩ : ∃ n, more = n + 1 := ⟨more - 1, by omega⟩
      by_cases hidle : (round s).result = .ok false
      · rw [fetch_of_idle hidle] at h ⊢
        rw [fetch_of_idle hidle]
        generalize (round s).scan.timed "grow_buffers" grow = o at h ⊢
        rcases o with ⟨e | _, t⟩
        · rfl
        · exact ih h (Nat.le_of_succ_le_succ hle)
      · rw [fetch_of_round hidle, fetch_of_round hidle]

end Scan

end SparseScan
