import SparseScan.Proofs.Scan.Growth

set_option autoImplicit false

/-! # Scans with more or less memory

A scan that lacks memory stops in the middle of a fetch, after some growths perhaps. `GrowsTo` is
what is left of them: the scan is where another one comes to by growing, and would go on as that one
does. So a scan answers as the same scan with unlimited memory does, as soon as its growths are
granted: `fetch_follows` for one fetch, `step_follows` for one step. -/

namespace SparseScan

/-! ## Unlimited memory -/

/-- The greatest reading of free memory. -/
def greatestReading : UInt64 := UInt64.ofNat (addressSpace - 1)

theorem toNat_le_greatestReading (a : UInt64) : a.toNat ≤ greatestReading.toNat := by
  have hlt := a.toNat_lt
  have hgreatest : greatestReading.toNat = 2 ^ 64 - 1 := by decide
  omega

theorem permit_of_le {g : GrowthRule} {current : Nat} {a b : UInt64} (hab : a.toNat ≤ b.toNat)
    (h : g.permit current a = .ok ()) : g.permit current b = .ok () := by
  simp only [GrowthRule.permit] at h ⊢
  split at h
  · next hlt => rw [if_pos (lt_of_lt_of_le hlt hab)]
  · cases h

namespace Scan

variable {s t u v : Scan TiledQuery} {fuel : Nat}

/-- Every reading of the memory is the greatest. -/
def Unlimited (s : Scan TiledQuery) : Prop := ∀ n, s.allocator.memory.answers n = greatestReading

theorem Unlimited.keeps (hs : Unlimited s) (h : Keeps s t) : Unlimited t := by
  unfold Unlimited
  rw [h.answers]
  exact hs

/-! ## Growth -/

/-- What is left of a scan without its buffers and what it has asked the query. -/
def place (s : Scan TiledQuery) : Scan TiledQuery :=
  { s.core with buffers := [], query := .ofArray s.query.array }

theorem place_of_core (h : s.core = u.core) : s.place = u.place :=
  congrArg (fun t : Scan TiledQuery =>
    { t with buffers := [], query := TiledQuery.ofArray t.query.array }) h

/-- What scans at one place have in common. -/
structure AgreesInPlace (s u : Scan TiledQuery) : Prop where
  batch : s.batch = u.batch
  completed : s.status = .completed ↔ u.status = .completed
  position : s.position = u.position
  visited : s.visited = u.visited
  upperBound : s.upperBound = u.upperBound
  completedBytes : s.completedBytes = u.completedBytes
  isClosed : s.isClosed = u.isClosed

theorem agrees_of_place (h : s.place = u.place) : AgreesInPlace s u := by
  simp only [place, core, Scan.mk.injEq] at h
  obtain ⟨-, -, -, -, -, hbatch, hstatus, hposition, hvisited, hupper, hbytes, -, -, hended, -⟩ := h
  refine ⟨hbatch, completed_of_ite hstatus, hposition, hvisited, hupper, hbytes, ?_⟩
  simpa [isClosed] using congrArg Option.isSome hended

theorem registerAll_place (buffers : List NamedBuffers) (s : Scan TiledQuery) :
    (registerAll buffers s).scan.place = s.place := by
  induction buffers generalizing s with
  | nil => rfl
  | cons b rest ih =>
      refine Outcome.andThen_scan ?_ fun _ t ht => (ih t).trans ht
      have harray := register_array s.query b.name b.buffers.capacities
      exact congrArg (fun a : TiledArray =>
        { s.core with buffers := [], query := TiledQuery.ofArray a }) harray

theorem enlarge_place (s : Scan TiledQuery) : s.enlarge.scan.place = s.place := by
  unfold enlarge
  split
  · rfl
  · exact (registerAll_place _ _).trans rfl

theorem grow_place (s : Scan TiledQuery) : s.grow.scan.place = s.place := by
  rcases hpermit : s.allocator.growth.permit (NamedBuffers.footprint s.buffers)
      s.allocator.memory.next.1 with e | ⟨⟩
  · exact place_of_core (grow_of_not_permit hpermit).2
  · exact (place_of_core (Outcome.scan_core_eq (grow_of_permit hpermit))).trans (enlarge_place s)

/-- Whether the buffers of a scan may double at a reading of the memory. -/
def permitted (s : Scan TiledQuery) (reading : UInt64) : Except MemoryError Unit :=
  s.allocator.growth.permit (NamedBuffers.footprint s.buffers) reading

theorem permitted_of_core (h : s.core = u.core) (reading : UInt64) :
    s.permitted reading = u.permitted reading := by
  rw [permitted, permitted, (agrees_of_core h).growth, (agrees_of_core h).buffers]

/-- The scan `s` is where `u` comes to by rounds that find no room for a row and growths that are
    granted to unlimited memory. -/
inductive GrowsTo : Scan TiledQuery → Scan TiledQuery → Prop
  | same {u s : Scan TiledQuery} (h : u.core = s.core) : GrowsTo u s
  | grown {u s : Scan TiledQuery} (hidle : (round u).result = .ok false)
      (hpermit : u.permitted greatestReading = .ok ())
      (hgrown : u.enlarge.result = .ok ()) (h : GrowsTo u.enlarge.scan s) : GrowsTo u s

theorem GrowsTo.congr {u' s' : Scan TiledQuery} (h : GrowsTo u s) (hu : u.core = u'.core)
    (hs : s.core = s'.core) : GrowsTo u' s' := by
  induction h generalizing u' with
  | same h => exact .same (hu.symm.trans (h.trans hs))
  | @grown u s hidle hpermit hgrown h ih =>
      have henlarged := enlarge_alike hu
      refine .grown ?_ ?_ ?_ (ih (Outcome.scan_core_eq henlarged) hs)
      · rw [← Outcome.result_eq (round_alike hu)]
        exact hidle
      · rw [← permitted_of_core hu]
        exact hpermit
      · rw [← Outcome.result_eq henlarged]
        exact hgrown

theorem GrowsTo.trans (h : GrowsTo u v) (h' : GrowsTo v s) : GrowsTo u s := by
  induction h with
  | same h => exact h'.congr h.symm rfl
  | grown hidle hpermit hgrown _ ih => exact .grown hidle hpermit hgrown (ih h')

theorem GrowsTo.place_eq (h : GrowsTo u s) : s.place = u.place := by
  induction h with
  | same h => exact (place_of_core h).symm
  | grown _ _ _ _ ih => exact ih.trans (enlarge_place _)

theorem status_of_place (h : s.place = u.place) (hu : u.status ≠ .completed) :
    s.status ≠ .completed := mt (agrees_of_place h).completed.1 hu

/-! ## One fetch -/

/-- The reading of the memory that growth takes after a round. -/
def reading (s : Scan TiledQuery) : UInt64 := (round s).scan.allocator.memory.next.1

theorem Unlimited.reading (hs : Unlimited s) : s.reading = greatestReading :=
  hs.keeps (keeps_round s) _

/-- A fetch that must grow and may not stops where it was. -/
theorem fetch_of_not_permitted (fuel : Nat) {e : MemoryError} (hs : Ready s)
    (hstatus : s.status ≠ .completed) (hidle : (round s).result = .ok false)
    (hpermit : s.permitted s.reading = .error e) :
    (fetch (fuel + 1) s).core = ⟨.error (.memory e), s.core⟩ := by
  have hcore := round_idle hs hstatus hidle
  rw [← permitted_of_core hcore] at hpermit
  obtain ⟨hresult, hscan⟩ := grow_of_not_permit (s := (round s).scan.now.2) hpermit
  have hgrow : ((round s).scan.timed "grow_buffers" grow).core = ⟨.error (.memory e), s.core⟩ := by
    rw [timed_core, Outcome.core, hresult, hscan, ← hcore]
    rfl
  rw [fetch_of_idle hidle]
  generalize (round s).scan.timed "grow_buffers" grow = o at hgrow ⊢
  rcases o with ⟨e' | _, t⟩
  · exact hgrow
  · cases hgrow

/-- A fetch that must grow and may goes on with larger buffers. -/
theorem fetch_of_permitted (hs : Ready s) (hstatus : s.status ≠ .completed)
    (hidle : (round s).result = .ok false) (hpermit : s.permitted s.reading = .ok ()) :
    ∃ o : Outcome TiledQuery Unit, o.core = s.enlarge.core ∧ Keeps s o.scan ∧
      ∀ fuel, fetch (fuel + 1) s = o.andThen fun _ s => fetch fuel s := by
  have hcore := round_idle hs hstatus hidle
  rw [← permitted_of_core hcore] at hpermit
  have hgrow := grow_of_permit (s := (round s).scan.now.2) hpermit
  have hsame : (round s).scan.now.2.enlarge.core = s.enlarge.core := enlarge_alike hcore
  refine ⟨(round s).scan.timed "grow_buffers" grow, ?_, ?_, fun fuel => fetch_of_idle hidle⟩
  · rw [timed_core, hgrow, hsame]
  · exact (keeps_round s).trans (keeps_timed (fun t => (grow_keeps t).1) (round s).scan)

/-- A fetch that lacks memory stops at a scan to which this one grows. -/
theorem growsTo_of_refused {e : MemoryError} (hs : Ready s) (hstatus : s.status ≠ .completed)
    (h : (fetch fuel s).result = .error (.memory e)) : GrowsTo s (fetch fuel s).scan := by
  induction fuel generalizing s with
  | zero => cases h
  | succ fuel ih =>
      by_cases hidle : (round s).result = .ok false
      · cases hpermit : s.permitted s.reading with
        | error e =>
            have hfetch := fetch_of_not_permitted fuel hs hstatus hidle hpermit
            exact .same (congrArg Outcome.scan hfetch).symm
        | ok _ =>
            obtain ⟨o, hcore, hkeeps, hfetch⟩ := fetch_of_permitted hs hstatus hidle hpermit
            rw [hfetch] at h ⊢
            have hresult := Outcome.result_eq hcore
            have hscan := Outcome.scan_core_eq hcore
            rcases o with ⟨e' | _, t⟩
            · cases h
              rw [enlarge_eq_memory hresult.symm] at hscan
              exact .same hscan.symm
            · have hplace := (place_of_core hscan).trans (enlarge_place s)
              have hrest := ih (hs.keeps hkeeps) (status_of_place hplace hstatus) h
              exact .grown hidle (permit_of_le (toNat_le_greatestReading _) hpermit) hresult.symm
                (hrest.congr hscan rfl)
      · obtain ⟨a, ha⟩ := fetch_fails hidle _ h
        cases ha

/-- A scan with unlimited memory grows until it is where another one is that it grows to. -/
theorem GrowsTo.catchUp (h : GrowsTo u s) {u' : Scan TiledQuery} (hu : u'.core = u.core)
    (hready : Ready u') (hstatus : u'.status ≠ .completed) (hunlimited : Unlimited u') :
    ∃ v n, v.core = s.core ∧ Keeps u' v ∧ v.status ≠ .completed ∧
      ∀ fuel, fetch (fuel + n) u' = fetch fuel v := by
  induction h generalizing u' with
  | same h => exact ⟨u', 0, hu.trans h, .refl u', hstatus, fun fuel => rfl⟩
  | @grown u s hidle hpermit hgrown _ ih =>
      rw [← Outcome.result_eq (round_alike hu)] at hidle
      rw [← permitted_of_core hu, ← hunlimited.reading] at hpermit
      obtain ⟨o, hcore, hkeeps, hfetch⟩ := fetch_of_permitted hready hstatus hidle hpermit
      have henlarged := hcore.trans (enlarge_alike hu)
      have hscan := Outcome.scan_core_eq henlarged
      have hresult := (Outcome.result_eq henlarged).trans hgrown
      have hplace := (place_of_core (Outcome.scan_core_eq hcore)).trans (enlarge_place u')
      obtain ⟨v, n, hv, hkept, hopen, hrest⟩ := ih hscan (hready.keeps hkeeps)
        (status_of_place hplace hstatus) (hunlimited.keeps hkeeps)
      refine ⟨v, n + 1, hv, hkeeps.trans hkept, hopen, fun fuel => ?_⟩
      rw [← Nat.add_assoc, hfetch, Outcome.andThen_of_ok hresult, hrest]

/-- With unlimited memory a fetch answers as another one does, unless a reading of the memory was
    too small for that one. -/
theorem fetch_alike (h : s.core = u.core) (hs : Ready s) (hu : Ready u)
    (hstatus : s.status ≠ .completed) (hunlimited : Unlimited u)
    (hok : ∀ current required available, (fetch fuel s).result ≠
      .error (.memory (.insufficient current required available))) :
    (fetch fuel s).core = (fetch fuel u).core := by
  induction fuel generalizing s u with
  | zero => exact Outcome.core_eq rfl h
  | succ fuel ih =>
      have hround := round_alike h
      have hresult := Outcome.result_eq hround
      by_cases hidle : (round s).result = .ok false
      · cases hpermit : s.permitted s.reading with
        | error e =>
            obtain ⟨-, required, available, rfl⟩ := permit_eq_error hpermit
            have hfetch := fetch_of_not_permitted fuel hs hstatus hidle hpermit
            exact absurd (congrArg Outcome.result hfetch) (hok _ required available)
        | ok _ =>
            have hpermit' : u.permitted u.reading = .ok () := by
              rw [← permitted_of_core h, hunlimited.reading]
              exact permit_of_le (toNat_le_greatestReading _) hpermit
            have hstatus' := mt (agrees_of_core h).completed.2 hstatus
            obtain ⟨o, hcore, hkeeps, hfetch⟩ := fetch_of_permitted hs hstatus hidle hpermit
            obtain ⟨p, hcore', hkeeps', hfetch'⟩ :=
              fetch_of_permitted hu hstatus' (hresult ▸ hidle) hpermit'
            have hgrown := hcore.trans ((enlarge_alike h).trans hcore'.symm)
            have hplace := (place_of_core (Outcome.scan_core_eq hcore)).trans (enlarge_place s)
            rw [hfetch] at hok ⊢
            rw [hfetch']
            refine Outcome.andThen_alike hgrown fun _ ho hscan => ?_
            rw [Outcome.andThen_of_ok ho] at hok
            exact ih hscan (hs.keeps hkeeps) (hu.keeps hkeeps') (status_of_place hplace hstatus)
              (hunlimited.keeps hkeeps') hok
      · rw [fetch_of_round hidle, fetch_of_round (hresult ▸ hidle)]
        exact Outcome.andThen_alike hround fun _ _ hscan => Outcome.core_eq rfl hscan

theorem keeps_fetch (fuel : Nat) (s : Scan TiledQuery) : Keeps s (fetch fuel s).scan := by
  induction fuel generalizing s with
  | zero => exact .refl s
  | succ fuel ih =>
      rw [fetch_succ]
      refine keeps_andThen (keeps_round s) fun done t => ?_
      cases done with
      | true => exact .refl t
      | false =>
          exact keeps_andThen (keeps_timed (fun t => (grow_keeps t).1) t) fun _ t => ih t

/-! ## One step -/

/-- The next step fetches a batch. -/
structure Fetches (s : Scan TiledQuery) : Prop where
  isOpen : s.isClosed = false
  more : s.visited < s.upperBound
  used : s.batch.rows ≤ s.position
  incomplete : s.status ≠ .completed

theorem Fetches.of_place (hu : Fetches u) (h : s.place = u.place) : Fetches s := by
  have hagrees := agrees_of_place h
  refine ⟨hagrees.isClosed.trans hu.isOpen, ?_, ?_, status_of_place h hu.incomplete⟩
  · rw [hagrees.visited, hagrees.upperBound]
    exact hu.more
  · rw [hagrees.batch, hagrees.position]
    exact hu.used

theorem step_of_fetches (h : Fetches s) :
    s.step = (fetch submitLimit s).andThen fun _ s => s.handOut := by
  rw [step, if_neg (by simp [h.isOpen]), if_neg (Nat.not_le.2 h.more),
    if_neg (Nat.not_lt.2 h.used), if_neg h.incomplete]

/-- A step that fetches nothing needs no memory. -/
theorem step_alike (h : s.core = u.core) (hs : ¬ Fetches s) : s.step.core = u.step.core := by
  have hagrees := agrees_of_core h
  unfold step
  simp only [hagrees.isClosed, hagrees.upperBound, hagrees.visited, hagrees.position, hagrees.batch,
    hagrees.completed]
  split_ifs with hclosed hbound hrows hdone
  · exact Outcome.core_eq rfl h
  · exact finish_alike h
  · exact handOut_alike h
  · exact finish_alike h
  · have hu : Fetches u :=
      ⟨by simpa using hclosed, Nat.not_le.1 hbound, Nat.not_lt.1 hrows, hdone⟩
    exact absurd (hu.of_place (place_of_core h)) hs

/-- What a scan keeps as long as it is open. Its memory stays the same in any case. -/
structure KeepsOpen (s t : Scan TiledQuery) : Prop where
  answers : t.allocator.memory.answers = s.allocator.memory.answers
  keeps : t.isClosed = false → Keeps s t

theorem Keeps.keepsOpen (h : Keeps s t) : KeepsOpen s t := ⟨h.answers, fun _ => h⟩

theorem Keeps.transOpen (h : Keeps s t) (h' : KeepsOpen t u) : KeepsOpen s u :=
  ⟨h'.answers.trans h.answers, fun hopen => h.trans (h'.keeps hopen)⟩

theorem finish_keeps (s : Scan TiledQuery) : KeepsOpen s s.finish.scan := by
  refine ⟨?_, fun hopen => ?_⟩
  · show s.close.allocator.memory.answers = _
    unfold close
    split <;> rfl
  · rw [show s.finish.scan.isClosed = true from isClosed_close s] at hopen
    cases hopen

theorem handOut_keeps (s : Scan TiledQuery) : KeepsOpen s s.handOut.scan := by
  have hnext : Keeps s { s with position := s.position + 1, visited := s.visited + 1 } :=
    ⟨rfl, rfl, rfl, rfl, fun _ h => h⟩
  by_cases hrows : s.batch.rows = 0
  · rw [handOut, if_pos hrows]
    exact hnext.transOpen (finish_keeps _)
  · rw [handOut, if_neg hrows]
    exact hnext.keepsOpen

theorem step_keeps (s : Scan TiledQuery) : KeepsOpen s s.step.scan := by
  unfold step
  split_ifs with hclosed hbound hrows hdone
  · exact (Keeps.refl s).keepsOpen
  · exact finish_keeps s
  · exact handOut_keeps s
  · exact finish_keeps s
  · have hfetch := keeps_fetch submitLimit s
    generalize fetch submitLimit s = o at hfetch ⊢
    rcases o with ⟨e | _, t⟩
    · exact hfetch.keepsOpen
    · exact hfetch.transOpen (handOut_keeps t)

/-- The scan `s` is as far as `u`, which has unlimited memory, or it lacks memory for a fetch that
    `u` is at. -/
structure Follows (s u : Scan TiledQuery) : Prop where
  unlimited : Unlimited u
  ready : u.isClosed = false → 0 < u.upperBound → Ready u
  state : s.core = u.core ∨ Fetches u ∧ GrowsTo u s

theorem Follows.congr {s' u' : Scan TiledQuery} (h : Follows s u) (hs : s.core = s'.core)
    (hu : u.core = u'.core)
    (hanswers : u'.allocator.memory.answers = u.allocator.memory.answers) : Follows s' u' := by
  have hagrees := agrees_of_core hu
  refine ⟨?_, ?_, ?_⟩
  · unfold Unlimited
    rw [hanswers]
    exact h.unlimited
  · intro hopen hmore
    rw [← hagrees.isClosed] at hopen
    rw [← hagrees.upperBound] at hmore
    exact (h.ready hopen hmore).of_core hu
  · rcases h.state with hcore | ⟨hfetches, hgrows⟩
    · exact Or.inl (hs.symm.trans (hcore.trans hu))
    · exact Or.inr ⟨hfetches.of_place (place_of_core hu.symm), hgrows.congr hu hs⟩

theorem Follows.place_eq (h : Follows s u) : s.place = u.place := by
  rcases h.state with hcore | ⟨-, hgrows⟩
  · exact place_of_core hcore
  · exact hgrows.place_eq

theorem Follows.growsTo (h : Follows s u) : GrowsTo u s := by
  rcases h.state with hcore | ⟨-, hgrows⟩
  · exact .same hcore.symm
  · exact hgrows

theorem Follows.ready_of_fetches (h : Follows s u) (hu : Fetches u) : Ready u :=
  h.ready hu.isOpen (lt_of_le_of_lt (Nat.zero_le _) hu.more)

/-- What follows a scan answers its next step as that scan does, unless a reading of the memory is
    too small. -/
theorem step_follows (h : Follows s u) (hok : ∀ current required available, s.step.result ≠
    .error (.memory (.insufficient current required available))) : s.step.core = u.step.core := by
  by_cases hfetches : Fetches u
  · have hs := hfetches.of_place h.place_eq
    have hready := h.ready_of_fetches hfetches
    obtain ⟨v, n, hv, hkeeps, hstatus, hcatch⟩ :=
      h.growsTo.catchUp rfl hready hfetches.incomplete h.unlimited
    have hvReady := hready.keeps hkeeps
    rw [step_of_fetches hs] at hok ⊢
    rw [step_of_fetches hfetches]
    have hfetch : (fetch submitLimit s).core = (fetch submitLimit v).core := by
      refine fetch_alike hv.symm (hvReady.of_core hv) hvReady hs.incomplete
        (h.unlimited.keeps hkeeps) ?_
      intro current required available hfails
      exact hok current required available (Outcome.andThen_of_error hfails)
    have henough : fetch (submitLimit + n) u = fetch submitLimit u :=
      fetch_of_le (fetch_ne_stalled le_rfl hready.room) (Nat.le_add_right _ _)
    rw [← henough, hcatch]
    exact Outcome.andThen_alike hfetch fun _ _ hscan => handOut_alike hscan
  · rcases h.state with hcore | ⟨hu, -⟩
    · exact step_alike hcore fun hs => hfetches (hs.of_place (place_of_core hcore.symm))
    · exact absurd hu hfetches

theorem handOut_ok (s : Scan TiledQuery) : ∃ more, s.handOut.result = .ok more := by
  unfold handOut
  simp only
  split <;> exact ⟨_, rfl⟩

/-- A step that fetches nothing does not fail. -/
theorem step_of_not_fetches (h : ¬ Fetches s) : ∃ more, s.step.result = .ok more := by
  unfold step
  split_ifs with hclosed hbound hrows hdone
  · exact ⟨_, rfl⟩
  · exact ⟨_, rfl⟩
  · exact handOut_ok s
  · exact ⟨_, rfl⟩
  · exact absurd ⟨by simpa using hclosed, Nat.not_le.1 hbound, Nat.not_lt.1 hrows, hdone⟩ h

/-- A step that lacks memory leaves the scan at its place, where it still follows. -/
theorem step_refused {e : MemoryError} (h : Follows s u)
    (hrefused : s.step.result = .error (.memory e)) :
    Follows s.step.scan u ∧ s.step.scan.place = s.place ∧ s.isClosed = false ∧
      ReadsTooLittle e := by
  have hs : Fetches s := by
    by_contra hs
    obtain ⟨more, hmore⟩ := step_of_not_fetches hs
    rw [hmore] at hrefused
    cases hrefused
  have hu := hs.of_place h.place_eq.symm
  have hready := h.ready_of_fetches hu
  obtain ⟨v, n, hv, hkeeps, -, -⟩ := h.growsTo.catchUp rfl hready hu.incomplete h.unlimited
  have hsReady := (hready.keeps hkeeps).of_core hv
  rw [step_of_fetches hs] at hrefused ⊢
  have hgrows : ∀ e, (fetch submitLimit s).result = .error (.memory e) →
      GrowsTo s (fetch submitLimit s).scan ∧ ReadsTooLittle e :=
    fun e he => ⟨growsTo_of_refused hsReady hs.incomplete he, fetch_readsTooLittle he⟩
  generalize fetch submitLimit s = o at hrefused hgrows ⊢
  rcases o with ⟨e' | _, t⟩
  · cases hrefused
    obtain ⟨hgrowth, hlittle⟩ := hgrows e rfl
    exact ⟨⟨h.unlimited, h.ready, Or.inr ⟨hu, h.growsTo.trans hgrowth⟩⟩, hgrowth.place_eq,
      hs.isOpen, hlittle⟩
  · obtain ⟨more, hmore⟩ := handOut_ok t
    rw [Outcome.andThen_ok, hmore] at hrefused
    cases hrefused

/-- Scans that answer a step alike follow each other afterwards. -/
theorem Follows.step (h : Follows s u) (hcore : s.step.core = u.step.core) :
    Follows s.step.scan u.step.scan := by
  obtain ⟨hanswers, hkeeps⟩ := step_keeps u
  refine ⟨?_, ?_, Or.inl (Outcome.scan_core_eq hcore)⟩
  · unfold Unlimited
    rw [hanswers]
    exact h.unlimited
  · intro hopen hmore
    have hkept := hkeeps hopen
    rw [hkept.upperBound] at hmore
    have hwas : u.isClosed = false := by
      by_contra hclosed
      rw [Bool.not_eq_false] at hclosed
      rw [Scan.step, if_pos hclosed, hclosed] at hopen
      cases hopen
    exact (h.ready hwas hmore).keeps hkept

end Scan

end SparseScan
