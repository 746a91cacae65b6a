import SparseScan.Proofs.Scan.Retry

set_option autoImplicit false

/-! # The release of the query

A scan holds its query until it is closed, and closing releases it. Every step but closing keeps the
lease on the array (`Holds`), also a step that fails; a scan that cannot start is closed, one that
has no more rows closes itself, and one that is closed stays as it is. `start_releases_once` draws
the sum over whole runs. -/

namespace SparseScan

/-! ## Requests -/

namespace TiledQuery

variable {q : TiledQuery}

/-- Whether the query has been closed, and how often it has released its array. -/
def lease (q : TiledQuery) : Bool × Nat := (q.closed, q.releases)

theorem update_lease {request : Except ArrayError TiledQuery}
    (h : (q.update request).1 = .ok () → (q.update request).2.lease = q.lease) :
    (q.update request).2.lease = q.lease := by
  rcases hanswer : (q.update request).1 with e | ⟨⟩
  · rw [update_eq_error hanswer]
  · exact h hanswer

theorem restrict_lease (position : Nat) (low high : StoredValue) :
    (q.restrict position low high).2.lease = q.lease := by
  refine update_lease ?_
  intro h
  have hlease := congrArg lease (restrict_eq_ok h).query
  exact hlease

theorem restrictText_lease (position : Nat) (low high : List UInt8) :
    (q.restrictText position low high).2.lease = q.lease := by
  refine update_lease ?_
  intro h
  have hlease := congrArg lease (restrictText_eq_ok h).query
  exact hlease

theorem register_lease (name : String) (c : Capacities) :
    (q.register name c).2.lease = q.lease := by
  refine update_lease ?_
  intro h
  obtain ⟨st, -, -, -, hquery⟩ := register_eq_ok h
  have hlease := congrArg lease hquery
  exact hlease

theorem submit_lease (buffers : List NamedBuffers) : (q.submit buffers).2.2.lease = q.lease := by
  rcases hsubmit : q.submit buffers with ⟨e | status, filled, query⟩
  · rw [(submit_eq_error hsubmit).2]
  · obtain ⟨ts, -, -, rfl, -⟩ := submit_eq_ok hsubmit
    rfl

/-- An open query is closed, and has then released its array once more. -/
theorem close_lease (h : q.closed = false) : q.close.2.lease = (true, q.releases + 1) := by
  simp only [close, update, whileOpen, h, lease, Bool.false_eq_true, if_false]

end TiledQuery

namespace Scan

/-! ## Steps that keep the lease -/

/-- The scan is open, and its query has released the array `n` times and not been closed. -/
structure Holds (n : Nat) (s : Scan TiledQuery) : Prop where
  isOpen : s.isClosed = false
  lease : s.query.lease = (false, n)

/-- The scan is closed, and so is its query, which has released the array once more. -/
structure Released (n : Nat) (s : Scan TiledQuery) : Prop where
  isClosed : s.isClosed = true
  lease : s.query.lease = (true, n + 1)

section

variable {α : Type} {n : Nat} {s : Scan TiledQuery}

theorem holds_timed {name : String} {step : Scan TiledQuery → Outcome TiledQuery α}
    (h : Holds n (step s.now.2).scan) : Holds n (s.timed name step).scan := ⟨h.isOpen, h.lease⟩

theorem Holds.now (h : Holds n s) : Holds n s.now.2 := ⟨h.isOpen, h.lease⟩

theorem Holds.ask (h : Holds n s) {request : TiledQuery → Except ArrayError α × TiledQuery}
    (hrequest : ∀ q, (request q).2.lease = q.lease) : Holds n (s.ask request).scan :=
  ⟨h.isOpen, (hrequest s.query).trans h.lease⟩

theorem Holds.restrict (h : Holds n s) (position : Nat) (d : Dimension) (low high : StoredValue) :
    Holds n (s.restrict position d low high).scan := by
  unfold Scan.restrict
  split
  · split
    · exact h.ask fun q => q.restrictText_lease ..
    · exact h
  · exact h.ask fun q => q.restrict_lease ..

theorem Holds.restrictFrom (h : Holds n s) (position : Nat)
    (ranges : List (Dimension × StoredValue × StoredValue)) :
    Holds n (Scan.restrictFrom position ranges s).scan := by
  induction ranges generalizing position s with
  | nil => exact h
  | cons r rest ih => exact Outcome.andThen_scan (h.restrict ..) fun _ t ht => ih ht (position + 1)

theorem Holds.restrictAll (h : Holds n s) (dims : List Dimension) (constraints : Constraints)
    (populated : List (StoredValue × StoredValue)) :
    Holds n (s.restrictAll dims constraints populated).scan := by
  unfold Scan.restrictAll
  split
  · exact h
  · exact h
  · exact Outcome.andThen_scan (h.restrictFrom ..) fun _ t ht => ht

theorem Holds.estimates (h : Holds n s) (fields : List Field) :
    Holds n (Scan.estimates fields s).scan := by
  induction fields generalizing s with
  | nil => exact h
  | cons f rest ih =>
      refine Outcome.andThen_scan (h.ask fun q => rfl) ?_
      intro e t ht
      exact Outcome.andThen_scan (ih ht) fun _ _ hu => hu

theorem Holds.addBuffers (h : Holds n s) (pairs : List (Field × Estimate)) :
    Holds n (Scan.addBuffers pairs s).scan := by
  induction pairs generalizing s with
  | nil => exact h
  | cons p rest ih =>
      rw [Scan.addBuffers]
      split
      · exact h
      · refine Outcome.andThen_scan (h.ask fun q => q.register_lease ..) ?_
        intro _ t ht
        exact ih ⟨ht.isOpen, ht.lease⟩

theorem Holds.provideBuffers (h : Holds n s) : Holds n s.provideBuffers.scan := by
  refine Outcome.andThen_scan (h.estimates _) ?_
  intro es t ht
  have hadd : Holds n { t with upperBound := (es.head?.map (·.cells)).getD 0 } :=
    ⟨ht.isOpen, ht.lease⟩
  exact Outcome.andThen_scan (hadd.addBuffers _) fun _ u hu => ⟨hu.isOpen, hu.lease⟩

theorem Holds.prepare (h : Holds n s) (columns : List Column) (constraints : Constraints) :
    Holds n (s.prepare columns constraints).scan := by
  refine Outcome.andThen_scan (h.ask fun q => rfl) ?_
  intro schema t ht
  split
  · exact ht
  · next fields _ =>
      have hfields : Holds n { t with fields } := ⟨ht.isOpen, ht.lease⟩
      refine Outcome.andThen_scan (hfields.ask fun q => rfl) ?_
      intro populated u hu
      rcases populated with _ | populated
      · exact hu
      · refine Outcome.andThen_scan (holds_timed (hu.now.restrictAll ..)) ?_
        intro more v hv
        cases more
        · exact hv
        · exact holds_timed hv.now.provideBuffers

theorem Holds.submit (h : Holds n s) : Holds n s.submit.scan := by
  refine Outcome.andThen_scan (holds_timed ⟨h.isOpen, ?_⟩) fun _ t ht => ⟨ht.isOpen, ht.lease⟩
  exact (TiledQuery.submit_lease _).trans h.lease

theorem Holds.registerAll (h : Holds n s) (buffers : List NamedBuffers) :
    Holds n (Scan.registerAll buffers s).scan := by
  induction buffers generalizing s with
  | nil => exact h
  | cons b rest ih =>
      exact Outcome.andThen_scan (h.ask fun q => q.register_lease ..) fun _ t ht => ih ht

theorem Holds.grow (h : Holds n s) : Holds n s.grow.scan := by
  unfold Scan.grow
  split
  · exact ⟨h.isOpen, h.lease⟩
  · refine Holds.registerAll ?_ _
    exact ⟨h.isOpen, h.lease⟩

theorem Holds.load (h : Holds n s) (counts : List (String × ElementCounts)) :
    Holds n (s.load counts).scan := by
  refine holds_timed ?_
  unfold decode
  simp only
  split
  · exact ⟨h.isOpen, h.lease⟩
  · exact ⟨h.isOpen, h.lease⟩

theorem Holds.fetch (h : Holds n s) (fuel : Nat) : Holds n (Scan.fetch fuel s).scan := by
  induction fuel generalizing s with
  | zero => exact h
  | succ fuel ih =>
      rw [Scan.fetch]
      refine Outcome.andThen_scan h.submit ?_
      intro status t ht
      refine Outcome.andThen_scan (ht.ask fun q => rfl) ?_
      intro counts u hu
      split
      · exact hu
      · split
        · split
          · exact Outcome.andThen_scan (holds_timed hu.now.grow) fun _ v hv => ih hv
          · exact ⟨hu.isOpen, hu.lease⟩
        · exact hu.load counts

/-! ## Closing -/

/-- Closing releases what was held. -/
theorem Holds.close (h : Holds n s) : Released n s.close := by
  refine ⟨isClosed_close s, ?_⟩
  have hquery : s.query.closed = false ∧ s.query.releases = n := Prod.mk.inj h.lease
  rw [Scan.close, if_neg (by simp [h.isOpen]), ← hquery.2]
  exact TiledQuery.close_lease hquery.1

theorem Released.close (h : Released n s) : Released n s.close := by
  rwa [close_of_isClosed s h.isClosed]

/-- A scan is open and holds its query, or is closed and has released it. -/
def Leased (n : Nat) (s : Scan TiledQuery) : Prop := Holds n s ∨ Released n s

theorem Leased.close (h : Leased n s) : Released n s.close :=
  h.elim Holds.close Released.close

theorem Leased.releases (h : Leased n s) :
    s.query.releases = n + if s.isClosed then 1 else 0 := by
  rcases h with h | h
  · have hreleases : s.query.releases = n := congrArg Prod.snd h.lease
    simpa [h.isOpen] using hreleases
  · have hreleases : s.query.releases = n + 1 := congrArg Prod.snd h.lease
    simpa [h.isClosed] using hreleases

theorem Holds.handOut (h : Holds n s) : Leased n s.handOut.scan := by
  have hnext : Holds n { s with position := s.position + 1, visited := s.visited + 1 } :=
    ⟨h.isOpen, h.lease⟩
  unfold Scan.handOut
  simp only
  split
  · exact Or.inr hnext.close
  · exact Or.inl hnext

theorem Leased.step (h : Leased n s) : Leased n s.step.scan := by
  rcases h with h | h
  · unfold Scan.step
    rw [if_neg (by simp [h.isOpen])]
    split
    · exact Or.inr h.close
    · split
      · exact h.handOut
      · split
        · exact Or.inr h.close
        · -- a fetch that fails leaves the scan open
          have hfetched := h.fetch submitLimit
          generalize fetch submitLimit s = o at hfetched ⊢
          rcases o with ⟨e | _, t⟩
          · exact Or.inl hfetched
          · exact hfetched.handOut
  · rw [Scan.step, if_pos h.isClosed]
    exact Or.inr h

end

/-! ## Whole runs -/

/-- What the owner of a scan can ask of it. -/
inductive Call where
  | advance
  | close
  /-- Ask how long the scan has been open. -/
  | openTime
  /-- Read the current row, or observe anything else that is known without a reading of the time. -/
  | observe

section

variable {Q : Type} [QueryEngine Q]

/-- The scan after a call. -/
def afterCall (s : Scan Q) : Call → Scan Q
  | .advance => s.advance.scan
  | .close => s.close
  | .openTime => s.openTime.2
  | .observe => s

/-- The scan after calls. -/
def afterCalls (s : Scan Q) (calls : List Call) : Scan Q := calls.foldl afterCall s

/-- Two scans that own and have accounted for the same. -/
structure SameHoldings (s t : Scan Q) : Prop where
  query : t.query = s.query
  buffers : t.buffers = s.buffers
  completedBytes : t.completedBytes = s.completedBytes
  peakMemoryUse : t.peakMemoryUse = s.peakMemoryUse
  isClosed : t.isClosed = s.isClosed

/-- A call to a scan that is closed changes nothing but the record of times. -/
theorem afterCall_of_isClosed {s : Scan Q} (h : s.isClosed = true) (c : Call) :
    SameHoldings s (s.afterCall c) := by
  rcases c with _ | _ | _ | _
  · have hstep : s.now.2.step = ⟨.ok false, s.now.2⟩ := by
      rw [Scan.step, if_pos (show s.now.2.isClosed = true from h)]
    show SameHoldings s s.advance.scan
    simp only [Scan.advance, timed, hstep]
    exact ⟨rfl, rfl, rfl, rfl, rfl⟩
  · rw [afterCall, close_of_isClosed s h]
    exact ⟨rfl, rfl, rfl, rfl, rfl⟩
  · obtain ⟨ended, hended⟩ := Option.isSome_iff_exists.1 h
    rw [afterCall, openTime, hended]
    exact ⟨rfl, rfl, rfl, rfl, rfl⟩
  · exact ⟨rfl, rfl, rfl, rfl, rfl⟩

theorem afterCalls_of_isClosed {s : Scan Q} (h : s.isClosed = true) (calls : List Call) :
    SameHoldings s (s.afterCalls calls) := by
  induction calls generalizing s with
  | nil => exact ⟨rfl, rfl, rfl, rfl, rfl⟩
  | cons c rest ih =>
      have hcall := afterCall_of_isClosed h c
      have hrest := ih (hcall.isClosed.trans h)
      exact ⟨hrest.query.trans hcall.query, hrest.buffers.trans hcall.buffers,
        hrest.completedBytes.trans hcall.completedBytes,
        hrest.peakMemoryUse.trans hcall.peakMemoryUse, hrest.isClosed.trans hcall.isClosed⟩

/-- A scan that is closed has no more rows, and no current one. -/
theorem noRows_of_isClosed {s : Scan Q} (h : s.isClosed = true) :
    s.advance.result = .ok false ∧ ∀ ordinal, s.row ordinal =
      ⟨.error .noCurrentRow, .error .noCurrentRow, .error .noCurrentRow, .error .noCurrentRow,
        .error .noCurrentRow⟩ := by
  constructor
  · rw [Scan.advance, timed_result, Scan.step, if_pos (show s.now.2.isClosed = true from h)]
  · intro ordinal
    have hcurrent : s.current ordinal = .error .noCurrentRow := by
      rw [current, if_pos (Or.inl h)]
    simp only [row, long, double, boolean, bytes, isNull, readCurrent, hcurrent]

end

variable {n : Nat} {s : Scan TiledQuery}

theorem Leased.afterCall (h : Leased n s) (c : Call) : Leased n (s.afterCall c) := by
  rcases c with _ | _ | _ | _
  · have hnow : Leased n s.now.2 := h.imp Holds.now fun h => ⟨h.isClosed, h.lease⟩
    exact hnow.step.imp (fun h => ⟨h.isOpen, h.lease⟩) fun h => ⟨h.isClosed, h.lease⟩
  · exact Or.inr h.close
  · have htime : s.openTime.2.query = s.query ∧ s.openTime.2.isClosed = s.isClosed := by
      unfold openTime
      split <;> exact ⟨rfl, rfl⟩
    refine h.imp (fun h => ⟨htime.2.trans h.isOpen, ?_⟩) fun h => ⟨htime.2.trans h.isClosed, ?_⟩
    · exact (congrArg TiledQuery.lease htime.1).trans h.lease
    · exact (congrArg TiledQuery.lease htime.1).trans h.lease
  · exact h

theorem Leased.afterCalls (h : Leased n s) (calls : List Call) : Leased n (s.afterCalls calls) := by
  induction calls generalizing s with
  | nil => exact h
  | cons c rest ih => exact ih (h.afterCall c)

/-- A start that fails releases the query, and one that succeeds holds it. -/
theorem start_leased {q : TiledQuery} (hopen : q.closed = false) (id : ScanId)
    (settings : ScanSettings) (columns : List Column) (constraints : Constraints)
    (memory : Source UInt64) (clock : Source Nat) :
    Leased q.releases (start q id settings columns constraints memory clock).scan ∧
      ∀ e, (start q id settings columns constraints memory clock).result = .error e →
        (start q id settings columns constraints memory clock).scan.isClosed = true := by
  have hbegins : ∀ s : Scan TiledQuery, s.query.lease = q.lease → s.ended = none →
      Holds q.releases s := by
    intro s hlease hended
    refine ⟨by simp [isClosed, hended], ?_⟩
    rw [hlease, TiledQuery.lease, hopen]
  have hprepared : ∀ s : Scan TiledQuery, s.query.lease = q.lease → s.ended = none →
      Holds q.releases (s.timed "initialize" (·.prepare columns constraints)).scan := by
    intro s hlease hended
    exact holds_timed ((hbegins s hlease hended).now.prepare columns constraints)
  unfold start
  simp only
  split
  · refine ⟨Or.inr ?_, fun _ _ => isClosed_close _⟩
    dsimp only
    exact Holds.close (hbegins _ rfl rfl)
  · split
    · next hok =>
        refine ⟨Or.inl ?_, ?_⟩
        · have hscan := congrArg Outcome.scan hok
          exact hscan ▸ hprepared _ rfl rfl
        · rintro e ⟨⟩
    · next herror =>
        refine ⟨Or.inr ?_, fun _ _ => isClosed_close _⟩
        have hscan := congrArg Outcome.scan herror
        dsimp only at hscan ⊢
        rw [← hscan]
        exact Holds.close (hprepared _ rfl rfl)

/-- A query on an array is released exactly once by a scan over it, whether the scan cannot start or
    is dropped after any calls. From its first close on, the scan answers that there are no more
    rows, has no current row, and stays as it is. -/
theorem start_releases_once {q : TiledQuery} (hopen : q.closed = false) (id : ScanId)
    (settings : ScanSettings) (columns : List Column) (constraints : Constraints)
    (memory : Source UInt64) (clock : Source Nat) (others : List TiledQuery) :
    let started := start q id settings columns constraints memory clock
    (∀ e, started.result = .error e → started.scan.isClosed = true) ∧
    ∀ calls : List Call, let s := started.scan.afterCalls calls
      TiledQuery.releasesOf (s.query :: others) =
        TiledQuery.releasesOf (q :: others) + (if s.isClosed then 1 else 0) ∧
      TiledQuery.releasesOf (s.close.query :: others) = TiledQuery.releasesOf (q :: others) + 1 ∧
      (s.isClosed = true → ∀ more : List Call, let t := s.afterCalls more
        SameHoldings s t ∧ t.advance.result = .ok false ∧
        ∀ ordinal, t.row ordinal = ⟨.error .noCurrentRow, .error .noCurrentRow,
          .error .noCurrentRow, .error .noCurrentRow, .error .noCurrentRow⟩) := by
  intro started
  obtain ⟨hleased, hfailed⟩ := start_leased hopen id settings columns constraints memory clock
  refine ⟨hfailed, ?_⟩
  intro calls s
  have hrun : Leased q.releases s := hleased.afterCalls calls
  refine ⟨?_, ?_, ?_⟩
  · rw [TiledQuery.releasesOf, TiledQuery.releasesOf, List.map_cons, List.map_cons, List.sum_cons,
      List.sum_cons, hrun.releases]
    omega
  · have hclose : Leased q.releases s.close := Or.inr hrun.close
    rw [TiledQuery.releasesOf, TiledQuery.releasesOf, List.map_cons, List.map_cons, List.sum_cons,
      List.sum_cons, hclose.releases, if_pos hrun.close.isClosed]
    omega
  · intro hclosed more t
    have hsame : SameHoldings s t := afterCalls_of_isClosed hclosed more
    exact ⟨hsame, noRows_of_isClosed (hsame.isClosed.trans hclosed)⟩

/-- A scan that lacks memory at its first call, gives a row at the second and is closed twice. -/
theorem pairScan_released_once :
    let s := pairScan.scan.afterCalls [.advance, .advance, .close, .observe, .close]
    TiledQuery.releasesOf [s.close.query] = 1 ∧ s.advance.result = .ok false := by
  intro s
  have hruns := (start_releases_once (q := TiledQuery.ofArray pairs) rfl ⟨"pairs"⟩
    { bufferBudget := 8 } [⟨"row", .bigInt, true⟩] {}
    { answers := fun n => if n = 0 then 0 else 1000 } (Source.constant 0) []).2
  obtain ⟨-, honce, hclosed⟩ := hruns [.advance, .advance, .close, .observe, .close]
  exact ⟨honce, (hclosed (by decide +kernel) []).2.1⟩

end Scan

end SparseScan
