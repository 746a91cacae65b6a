import SparseScan.Proofs.Buffer.Allocator
import SparseScan.Scan.Start

set_option autoImplicit false

/-! # The calls of a scan

Each step of a scan over an array in memory, taken apart when it succeeds: what it asks the query,
and what it changes. Clocks, timings and sizes of buffers decide nothing about rows, so the changes
are stated on the `ScanView` that is left without them. -/

namespace SparseScan

/-! ## Answers -/

section

variable {Q α β : Type} {o : Outcome Q α} {next : α → Scan Q → Outcome Q β}

theorem Outcome.andThen_of_ok {a : α} (h : o.result = .ok a) :
    o.andThen next = next a o.scan := by
  obtain ⟨result, s⟩ := o
  cases h
  rfl

theorem Outcome.andThen_of_error {e : ScanError} (h : o.result = .error e) :
    (o.andThen next).result = .error e := by
  obtain ⟨result, s⟩ := o
  cases h
  rfl

theorem Outcome.andThen_ok_inv {b : β} (h : (o.andThen next).result = .ok b) :
    ∃ a, o.result = .ok a ∧ o.andThen next = next a o.scan := by
  cases ho : o.result with
  | ok a => exact ⟨a, rfl, andThen_of_ok ho⟩
  | error e =>
      rw [andThen_of_error ho] at h
      cases h

/-- Steps that go on alike from an answer have the same outcome. -/
theorem Outcome.andThen_congr {next' : α → Scan Q → Outcome Q β}
    (h : ∀ a, o.result = .ok a → next a o.scan = next' a o.scan) :
    o.andThen next = o.andThen next' := by
  obtain ⟨result, s⟩ := o
  cases result with
  | ok a => exact h a rfl
  | error e => rfl

end

/-- What the rows of a scan depend on. -/
structure ScanView where
  query : TiledQuery
  fields : List Field
  buffers : List NamedBuffers
  batch : RowBatch
  status : Progress
  position : Nat
  visited : Nat
  upperBound : Nat
  isClosed : Bool

namespace Scan

/-- The view of a scan. -/
def view (s : Scan TiledQuery) : ScanView where
  query := s.query
  fields := s.fields
  buffers := s.buffers
  batch := s.batch
  status := s.status
  position := s.position
  visited := s.visited
  upperBound := s.upperBound
  isClosed := s.isClosed

variable {s : Scan TiledQuery} {α : Type}

theorem timed_view (s : Scan TiledQuery) (name : String)
    (step : Scan TiledQuery → Outcome TiledQuery α) :
    (s.timed name step).scan.view = (step s.now.2).scan.view := rfl

theorem timed_allocator (s : Scan TiledQuery) (name : String)
    (step : Scan TiledQuery → Outcome TiledQuery α) :
    (s.timed name step).scan.allocator = (step s.now.2).scan.allocator := rfl

theorem ask_eq_ok {request : TiledQuery → Except ArrayError α × TiledQuery} {a : α}
    (h : (s.ask request).result = .ok a) :
    (request s.query).1 = .ok a ∧
      (s.ask request).scan = { s with query := (request s.query).2 } :=
  ⟨mapError_eq_ok.1 h, rfl⟩

end Scan

/-! ## Buffers -/

/-- Whether buffers are those of a field. They are never empty. -/
structure FieldBuffers (f : Field) (b : NamedBuffers) : Prop where
  name : b.name = f.name
  datatype : b.datatype = f.datatype
  offsets : b.buffers.offsets.isSome = f.varLen
  validity : b.buffers.validity.isSome = f.nullable
  layout : b.buffers.HasLayout b.datatype b.buffers.capacities
  /-- There is something to double, and its size is a word. -/
  room : b.buffers.capacities.AtLeast 1 ∧ b.buffers.values.capacity < addressSpace

/-- Doubling doubles the capacity, to no more than a word. -/
theorem capacity_double {b b' : NamedBuffers} (h : b.double = .ok b') :
    b'.buffers.values.capacity = b.buffers.values.capacity * 2 ∧
      b'.buffers.values.capacity < addressSpace := by
  obtain ⟨s, hs, rfl⟩ := map_eq_ok.1 h
  simp only [ElementBuffers.double, bind_eq_ok, pure_eq_ok] at hs
  obtain ⟨offsets, -, values, hvalues, validity, -, rfl⟩ := hs
  obtain ⟨hlayout, hlt⟩ := ElementBuffers.double_layout hvalues
  exact ⟨(congrArg Prod.snd hlayout).trans (Nat.mul_comm _ _), hlt⟩

/-- The initial capacities are not zero. -/
theorem atLeast_initialCapacities (a : BufferAllocator) (f : Field) (e : Estimate) :
    (a.initialCapacities f e).AtLeast 1 := by
  have helements : ∀ width estimate, 1 ≤ a.elementsFor width estimate := fun _ _ =>
    elementsWithin_pos
  refine ⟨?_, helements _ _, ?_⟩
  · intro n hn
    have hsome := (Option.ite_none_right_eq_some.1 hn).2
    exact Option.some.inj hsome ▸ helements _ _
  · intro n hn
    have hsome := (Option.ite_none_right_eq_some.1 hn).2
    exact Option.some.inj hsome ▸ helements _ _

theorem FieldBuffers.width {f : Field} {b : NamedBuffers} (hb : FieldBuffers f b) :
    b.buffers.values.width = f.datatype.width := by
  have hlayout := hb.layout.values
  rw [Prod.mk.injEq, hb.datatype] at hlayout
  exact hlayout.1

theorem FieldBuffers.double {f : Field} {b b' : NamedBuffers} (hb : FieldBuffers f b)
    (h : b.double = .ok b') : FieldBuffers f b' := by
  have hlt := (capacity_double h).2
  obtain ⟨s, hs, rfl⟩ := map_eq_ok.1 h
  have hlayout := hb.layout.double hs
  have hcapacities := hlayout.capacities
  rw [← hcapacities] at hlayout
  refine ⟨hb.name, hb.datatype, ?_, ?_, hlayout, ?_, hlt⟩
  · rw [hlayout.offsets_isSome, hcapacities, ← hb.offsets, hb.layout.offsets_isSome]
    exact Option.isSome_map
  · rw [hlayout.validity_isSome, hcapacities, ← hb.validity, hb.layout.validity_isSome]
    exact Option.isSome_map
  · rw [hcapacities]
    exact (hb.room.1.times 2).mono (by decide)

theorem FieldBuffers.fill {f : Field} {b : NamedBuffers} {name : String}
    {st : TiledArray.StoredField} {cells : List Cell} {s : ElementBuffers} (hb : FieldBuffers f b)
    (h : TiledQuery.fill name st cells b.buffers = .ok s) :
    FieldBuffers f { b with buffers := s } := by
  have hlayout := hb.layout.fill h
  have hcapacities := hlayout.capacities
  have hvalues := congrArg Capacities.values hcapacities
  rw [← hcapacities] at hlayout
  refine ⟨hb.name, hb.datatype, ?_, ?_, hlayout, ?_, ?_⟩
  · rw [hlayout.offsets_isSome, hcapacities, ← hb.offsets, hb.layout.offsets_isSome]
  · rw [hlayout.validity_isSome, hcapacities, ← hb.validity, hb.layout.validity_isSome]
  · rw [hcapacities]
    exact hb.room.1
  · exact lt_of_eq_of_lt hvalues hb.room.2

theorem FieldBuffers.allocate {f : Field} {e : Estimate} {a : BufferAllocator} {b : NamedBuffers}
    (h : a.allocate f e = .ok b) : FieldBuffers f b := by
  obtain ⟨s, hs, rfl⟩ := map_eq_ok.1 h
  have hlayout := ElementBuffers.allocate_hasLayout hs
  have hcapacities := hlayout.capacities
  have hatLeast := atLeast_initialCapacities a f e
  rw [← hcapacities] at hlayout hatLeast
  refine ⟨rfl, rfl, ?_, ?_, hlayout, hatLeast, ?_⟩
  · rw [hlayout.offsets_isSome, hcapacities]
    simp only [BufferAllocator.initialCapacities]
    split <;> simp_all
  · rw [hlayout.validity_isSome, hcapacities]
    simp only [BufferAllocator.initialCapacities]
    split <;> simp_all
  · have hsize := s.values.size_lt
    have hle := Nat.le_mul_of_pos_right s.values.capacity f.datatype.width_pos
    have hvalues := hlayout.values
    rw [Prod.mk.injEq] at hvalues
    rw [hvalues.1] at hsize
    exact lt_of_le_of_lt hle (hsize.trans (by decide))

theorem forall₂_names {fields : List Field} {buffers : List NamedBuffers}
    (h : List.Forall₂ FieldBuffers fields buffers) :
    buffers.map (·.name) = fields.map Field.name := by
  exact map_eq_map_of_forall₂ h fun f b hb => hb.name

/-! ## Registering and growing -/

namespace Scan

variable {s : Scan TiledQuery}

theorem register_spec {name : String} {c : Capacities}
    (h : (s.ask (QueryEngine.register · name c)).result = .ok ()) :
    (s.ask (QueryEngine.register · name c)).scan = { s with query := { s.query with
      registered := TiledQuery.putCapacities name c s.query.registered } } := by
  obtain ⟨hregister, hscan⟩ := ask_eq_ok h
  obtain ⟨st, -, -, -, hquery⟩ := TiledQuery.register_eq_ok hregister
  exact hscan.trans (congrArg (fun query => { s with query }) hquery)

/-- Buffers are registered one after the other, and nothing else changes. -/
theorem registerAll_spec {bs : List NamedBuffers} (h : (registerAll bs s).result = .ok ()) :
    (registerAll bs s).scan = { s with query := { s.query with
      registered :=
        TiledQuery.putAll (bs.map NamedBuffers.registration) s.query.registered } } := by
  induction bs generalizing s with
  | nil => rfl
  | cons b bs ih =>
      simp only [registerAll] at h ⊢
      obtain ⟨⟨⟩, hask, hnext⟩ := Outcome.andThen_ok_inv h
      rw [hnext] at h ⊢
      rw [ih h, register_spec hask]
      rfl

/-- Growing doubles all buffers and registers them anew. -/
theorem grow_spec (h : s.grow.result = .ok ()) (hnodup : (s.buffers.map (·.name)).Nodup) :
    ∃ buffers, List.Forall₂ (fun b b' => b.double = .ok b') s.buffers buffers ∧
      s.grow.scan.view = { s.view with
        buffers
        query := { s.query with registered := buffers.map NamedBuffers.registration } } := by
  unfold grow at h ⊢
  split at h
  · cases h
  · next buffers allocator hgrow =>
      have hall := mapM_eq_ok.1 (BufferAllocator.grow_eq_ok hgrow).2.1
      have hnames : buffers.map (·.name) = s.buffers.map (·.name) :=
        map_eq_map_of_forall₂ hall fun b b' hb => by
          obtain ⟨sizes, -, rfl⟩ := map_eq_ok.1 hb
          rfl
      have hregistered : TiledQuery.putAll (buffers.map NamedBuffers.registration) [] =
          buffers.map NamedBuffers.registration := by
        refine TiledQuery.putAll_of_nodup ?_
        rw [List.nil_append, List.map_map]
        show (buffers.map (·.name)).Nodup
        rwa [hnames]
      refine ⟨buffers, hall, (congrArg view (registerAll_spec h)).trans ?_⟩
      show { s.view with
        buffers
        query := { s.query with
          registered := TiledQuery.putAll (buffers.map NamedBuffers.registration) [] } } = _
      rw [hregistered]

/-! ## Submitting and loading -/

theorem submit_eq_ok {status : Progress} (h : s.submit.result = .ok status) :
    ∃ buffers query, s.query.submit s.buffers = (.ok status, buffers, query) ∧
      s.submit.scan.view = { s.view with query, buffers, status } := by
  unfold submit at h ⊢
  obtain ⟨status', hrun, hnext⟩ := Outcome.andThen_ok_inv h
  rw [hnext] at h ⊢
  cases h
  refine ⟨(s.query.submit s.buffers).2.1, (s.query.submit s.buffers).2.2, ?_, rfl⟩
  have hanswer : (s.query.submit s.buffers).1 = .ok status := mapError_eq_ok.1 hrun
  rw [← hanswer]

theorem elementCounts_eq_ok {counts : List (String × ElementCounts)}
    (h : (s.ask QueryEngine.elementCounts).result = .ok counts) :
    counts = s.query.counts ∧ (s.ask QueryEngine.elementCounts).scan = s := by
  obtain ⟨hcounts, hscan⟩ := ask_eq_ok h
  have hopen := TiledQuery.whileOpen_eq_ok hcounts
  rw [Except.ok.injEq] at hopen
  exact ⟨hopen.symm, hscan⟩

theorem load_spec {counts : List (String × ElementCounts)} (h : (s.load counts).result = .ok ()) :
    ∃ batch, List.Forall₂ (fun (fb : Field × NamedBuffers) out =>
        FieldBatch.ofBuffers fb.1 fb.2.buffers ((counts.lookup fb.1.name).getD {}) = .ok out)
          (s.fields.zip s.buffers) batch ∧
      (s.load counts).scan.view = { s.view with position := 0, batch := ⟨batch⟩ } := by
  unfold load at h ⊢
  simp only [timed_result, timed_view, decode] at h ⊢
  split at h
  · next batch hbatch =>
      exact ⟨batch, mapM_eq_ok.1 hbatch, rfl⟩
  · cases h

end Scan

end SparseScan
