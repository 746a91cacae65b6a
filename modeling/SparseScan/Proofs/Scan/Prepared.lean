import SparseScan.Proofs.Scan.Start

set_option autoImplicit false

/-! # How a scan gets its first buffers

Whatever a scan asks of its query before the first row, it is left with fields, an allocator that
has only been told of the buffers, and either no buffers at all or those that were just provided
(`start_prepared`). -/

namespace SparseScan

namespace Scan

variable {s t u : Scan TiledQuery} {fields : List Field} {q : TiledQuery}
  {allocator : BufferAllocator}

/-- Scans that differ at most in what they know of the time. -/
structure SameButTime (s t : Scan TiledQuery) : Prop where
  view : s.view = t.view
  allocator : s.allocator = t.allocator
  completedBytes : s.completedBytes = t.completedBytes

/-- A scan of fields that has no buffers yet. -/
structure Bare (allocator : BufferAllocator) (fields : List Field) (query : TiledQuery)
    (s : Scan TiledQuery) : Prop where
  view : s.view = { freshView query with fields }
  allocator : s.allocator = allocator
  completedBytes : s.completedBytes = 0

/-- A scan before its first row: without buffers, or right after they were provided. -/
inductive Prepared (allocator : BufferAllocator) (fields : List Field) (s : Scan TiledQuery) : Prop
  | bare (query : TiledQuery) (h : Bare allocator fields query s)
  | provided (u : Scan TiledQuery) (query : TiledQuery) (h : Bare allocator fields query u)
      (hok : u.provideBuffers.result = .ok ()) (hsame : SameButTime s u.provideBuffers.scan)

theorem Prepared.fields_eq (h : Prepared allocator fields s) : s.fields = fields := by
  rcases h with ⟨query, h⟩ | ⟨u, query, h, hok, hsame⟩
  · exact congrArg ScanView.fields h.view
  · obtain ⟨es, bs, -, -, hscan⟩ := provideBuffers_eq hok (congrArg ScanView.buffers h.view)
    have hkept : u.provideBuffers.scan.fields = u.fields := by rw [hscan]
    exact ((congrArg ScanView.fields hsame.view).trans hkept).trans
      (congrArg ScanView.fields h.view)

theorem Prepared.congr (h : Prepared allocator fields s) (hsame : SameButTime t s) :
    Prepared allocator fields t := by
  rcases h with ⟨query, h⟩ | ⟨u, query, h, hok, hprovided⟩
  · refine .bare query ⟨hsame.view.trans h.view, hsame.allocator.trans h.allocator, ?_⟩
    exact hsame.completedBytes.trans h.completedBytes
  · refine .provided u query h hok ⟨hsame.view.trans hprovided.view, ?_, ?_⟩
    · exact hsame.allocator.trans hprovided.allocator
    · exact hsame.completedBytes.trans hprovided.completedBytes

theorem Bare.restrictAll (h : Bare allocator fields q s) (dims : List Dimension)
    (constraints : Constraints) (bounds : List (StoredValue × StoredValue)) :
    ∃ query, Bare allocator fields query
      (s.timed "set_ranges" (·.restrictAll dims constraints bounds)).scan := by
  obtain ⟨query, hscan⟩ := restrictAll_scan s.now.2 dims constraints bounds
  refine ⟨query, ?_, ?_, ?_⟩
  · rw [timed_view, hscan]
    show { s.view with query } = _
    rw [h.view]
    rfl
  · rw [timed_allocator, hscan]
    exact h.allocator
  · simp only [timed, hscan]
    exact h.completedBytes

theorem prepare_prepared {columns : List Column} {constraints : Constraints}
    (hbare : Bare allocator [] q s) (h : (s.prepare columns constraints).result = .ok ()) :
    ∃ fields, q.array.schema.project columns = .ok fields ∧
      Prepared allocator fields (s.prepare columns constraints).scan := by
  have hquery : s.query = q := congrArg ScanView.query hbare.view
  unfold prepare at h ⊢
  obtain ⟨schema, hschema, hnext⟩ := Outcome.andThen_ok_inv h
  rw [hnext] at h ⊢
  obtain ⟨hanswer, hscan⟩ := ask_eq_ok hschema
  have hschemaEq := TiledQuery.whileOpen_eq_ok hanswer
  rw [Except.ok.injEq] at hschemaEq
  subst hschemaEq
  change _ = s at hscan
  rw [hscan] at h ⊢
  split at h
  · cases h
  · next fields hfields =>
      refine ⟨fields, hquery ▸ hfields, ?_⟩
      obtain ⟨populated, hpopulated, hnext⟩ := Outcome.andThen_ok_inv h
      rw [hnext] at h ⊢
      have hscan : _ = { s with fields } := (ask_eq_ok hpopulated).2
      rw [hscan] at h ⊢
      have hfresh : Bare allocator fields q { s with fields } := by
        refine ⟨?_, hbare.allocator, hbare.completedBytes⟩
        show { s.view with fields } = _
        rw [hbare.view]
      -- from here on it matters only that there are no buffers yet
      generalize ({ s with fields } : Scan TiledQuery) = t at h hfresh ⊢
      rcases populated with _ | bounds
      · exact .bare q hfresh
      · obtain ⟨more, -, hnext⟩ := Outcome.andThen_ok_inv h
        dsimp only at hnext h ⊢
        rw [hnext] at h ⊢
        obtain ⟨restricted, hrestricted⟩ :=
          hfresh.restrictAll s.query.array.schema.dimensions constraints bounds
        rcases more with _ | _
        · exact .bare restricted hrestricted
        · refine .provided _ restricted ?_ h ⟨rfl, rfl, rfl⟩
          exact ⟨hrestricted.view, hrestricted.allocator, hrestricted.completedBytes⟩

/-- A scan that has started was readied with an allocator that follows the settings. -/
theorem start_prepared {id : ScanId} {settings : ScanSettings} {columns : List Column}
    {constraints : Constraints} {memory : Source UInt64} {clock : Source Nat}
    (hs : start q id settings columns constraints memory clock = ⟨.ok (), s⟩) :
    q.array.schema.project columns = .ok s.fields ∧
      Prepared ⟨settings.bufferBudget, ⟨settings.headroom⟩, memory, {}⟩ s.fields s := by
  unfold start at hs
  simp only at hs
  split at hs
  · cases hs
  · split at hs
    · next t ht =>
        have hresult := congrArg Outcome.result ht
        have hscan : _ = s := (congrArg Outcome.scan ht).trans (congrArg Outcome.scan hs)
        rw [timed_result] at hresult
        obtain ⟨fields, hproject, hprepared⟩ := prepare_prepared
          (q := QueryEngine.keepStats q settings.keepStats) ⟨rfl, rfl, rfl⟩ hresult
        have hstarted := hprepared.congr (t := s) (hscan ▸ ⟨rfl, rfl, rfl⟩)
        rw [hstarted.fields_eq]
        exact ⟨hproject, hstarted⟩
    · cases hs

theorem start_completedBytes {id : ScanId} {settings : ScanSettings} {columns : List Column}
    {constraints : Constraints} {memory : Source UInt64} {clock : Source Nat}
    (hs : start q id settings columns constraints memory clock = ⟨.ok (), s⟩) :
    s.completedBytes = 0 := by
  rcases (start_prepared hs).2 with ⟨query, h⟩ | ⟨u, query, h, hok, hsame⟩
  · exact h.completedBytes
  · obtain ⟨es, bs, -, -, hscan⟩ := provideBuffers_eq hok (congrArg ScanView.buffers h.view)
    have hkept : u.provideBuffers.scan.completedBytes = u.completedBytes := by rw [hscan]
    exact (hsame.completedBytes.trans hkept).trans h.completedBytes

end Scan

end SparseScan
