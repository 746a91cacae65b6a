import SparseScan.Proofs.Storage.Atomic
import SparseScan.Proofs.Storage.Room

set_option autoImplicit false

/-! # What the check of a submit lets through

A submit compares the capacities that are registered, in elements, with those of the buffers that it
is passed. `short_iff_overruns` says what that comparison misses: an optional buffer that is there
although the field has none of that kind, and value elements that are narrower than what is stored.
`submit_overruns_iff` says that these are the only ways in which a submit that passes its check
writes outside a buffer, whatever was asked of the query before. -/

namespace SparseScan

open TiledArray (StoredField)

/-- Whether a submit was turned away before it wrote anything. -/
def ArrayError.refuses : ArrayError → Bool
  | .closed | .nothingRegistered | .bufferMissing _ | .bufferTooSmall .. => true
  | _ => false

/-- The bytes of the values of a field with elements of one width, nulls taking none. -/
theorem TiledArray.StoredField.flatMap_packed_length {st : StoredField} {cells : List Cell}
    (hfits : ∀ c ∈ cells, ∀ v, st.value? c = some v →
      fitsField st.datatype st.shape.varLen v = true)
    (hfixed : st.shape.varLen = false) : (cells.flatMap st.packed).length =
      cells.countP (fun c => (st.value? c).isSome) * st.datatype.width := by
  induction cells with
  | nil => simp
  | cons c rest ih =>
      have hrest := ih fun c' hc' => hfits c' (List.mem_cons_of_mem _ hc')
      rw [List.flatMap_cons, List.length_append, hrest, List.countP_cons]
      cases hv : st.value? c with
      | none => simp [StoredField.packed, hv]
      | some v =>
          have hsize := hfits c (List.mem_cons_self ..) v hv
          simp only [fitsField, hfixed, Bool.false_or, Bool.and_eq_true, beq_iff_eq] at hsize
          simp only [StoredField.packed, hv, StoredValue.encode_length, hsize.2, Option.isSome_some,
            if_true, Nat.succ_mul]
          omega

namespace TiledQuery

/-! ## The check -/

/-- The buffers have at least the capacities, counted in elements. -/
structure Covers (c : Capacities) (s : ElementBuffers) : Prop where
  offsets : ∀ n, c.offsets = some n → ∃ b, s.offsets = some b ∧ n ≤ b.capacity
  values : c.values ≤ s.values.capacity
  validity : ∀ n, c.validity = some n → ∃ b, s.validity = some b ∧ n ≤ b.capacity

section

variable {name : String} {c : Capacities} {s : ElementBuffers} {e : ArrayError}

theorem ensureRoom_eq_ok {role : BufferRole} {required capacity : Option Nat} :
    ensureRoom name role required capacity = .ok () ↔
      ∀ r, required = some r → ∃ n, capacity = some n ∧ r ≤ n := by
  rcases required with _ | r
  · simp [ensureRoom]
  · rcases capacity with _ | n <;> simp [ensureRoom]

theorem covers_of_ensureRooms (h : ensureRooms name c s = .ok ()) : Covers c s := by
  simp only [ensureRooms, bind_eq_ok] at h
  obtain ⟨⟨⟩, hoffsets, ⟨⟩, hvalues, hvalidity⟩ := h
  rw [ensureRoom_eq_ok] at hoffsets hvalues hvalidity
  have hbuffer : ∀ {x : Option ElementBuffer} {r : Nat},
      (∃ n, x.map (·.capacity) = some n ∧ r ≤ n) → ∃ b, x = some b ∧ r ≤ b.capacity := by
    rintro x r ⟨n, hn, hle⟩
    obtain ⟨b, hb, rfl⟩ := Option.map_eq_some_iff.1 hn
    exact ⟨b, hb, hle⟩
  obtain ⟨n, hn, hle⟩ := hvalues c.values rfl
  cases hn
  exact ⟨fun n hn => hbuffer (hoffsets n hn), hle, fun n hn => hbuffer (hvalidity n hn)⟩

/-- Finding the buffers of stored fields fails only as a refusal. -/
theorem targets_refuses {a : TiledArray} {buffers : List NamedBuffers}
    {registered : List (String × Capacities)}
    (hstored : ∀ r ∈ registered, ∃ st, a.stored? r.1 = some st)
    (h : targets a buffers registered = .error e) : e.refuses = true := by
  induction registered with
  | nil => cases h
  | cons r rest ih =>
      simp only [targets] at h
      split at h
      · cases h
        rfl
      · next b index hfind =>
          obtain ⟨st, hst⟩ := hstored r (List.mem_cons_self ..)
          have hfield : a.stored r.1 = .ok st := by rw [TiledArray.stored, hst]
          simp only [bind_eq_error, hfield, pure, Except.pure, reduceCtorEq, and_false,
            exists_false, or_false, false_or] at h
          rcases h with h | ⟨-, -, -, -, h⟩
          · exact failsAs_ensureRooms (P := (·.refuses = true)) (fun _ _ _ => rfl) e h
          · exact ih (fun r' hr' => hstored r' (List.mem_cons_of_mem _ hr')) h

end

/-- A submit that is not turned away has a target for everything registered. -/
theorem targets_of_submit {q : TiledQuery} {buffers : List NamedBuffers}
    (hregistered : q.Registered)
    (h : ∀ e, (q.submit buffers).1 = .error e → e.refuses = false) :
    q.closed = false ∧ q.registered ≠ [] ∧
      ∃ ts, targets q.array buffers q.registered = .ok ts := by
  have hanswered : ∀ e, e.refuses = true → (q.submit buffers).1 ≠ .error e := by
    intro e he hsubmit
    exact absurd (h e hsubmit) (by rw [he]; exact Bool.noConfusion)
  have hopen : q.closed = false := by
    by_contra hclosed
    rw [Bool.not_eq_false] at hclosed
    exact hanswered .closed rfl (by simp [submit, whileOpen, hclosed])
  have hne : q.registered ≠ [] := by
    intro hnil
    refine hanswered .nothingRegistered rfl ?_
    simp [submit, whileOpen, hopen, hnil, throw, throwThe, MonadExceptOf.throw, bind, Except.bind]
  refine ⟨hopen, hne, ?_⟩
  rcases hts : targets q.array buffers q.registered with e | ts
  · refine absurd ?_ (hanswered e (targets_refuses (fun r hr => ?_) hts))
    · simp [submit, whileOpen, hopen, hne, hts, bind, Except.bind]
    · exact (hregistered.shapes r hr).imp fun st hst => hst.1
  · exact ⟨ts, rfl⟩

/-! ## What it misses -/

section

variable {st : StoredField} {cells : List Cell} {c : Capacities} {s : ElementBuffers}

/-- The elements that are written of a field whose elements have one width: with an offset buffer
    nulls are left out. -/
def valuesWritten (st : StoredField) (cells : List Cell) (s : ElementBuffers) : Nat :=
  if s.offsets.isSome then cells.countP fun c => (st.value? c).isSome else cells.length

/-- Cells that are more than an optional buffer holds which the field does not have, or whose values
    take more bytes than there are elements for. -/
def Overruns (st : StoredField) (cells : List Cell) (s : ElementBuffers) : BufferRole → Prop
  | .offsets => st.shape.varLen = false ∧ ∃ b, s.offsets = some b ∧ b.capacity < cells.length
  | .values => st.shape.varLen = false ∧
      s.values.capacity * s.values.width < valuesWritten st cells s * st.datatype.width
  | .validity => st.shape.nullable = false ∧ ∃ b, s.validity = some b ∧ b.capacity < cells.length

theorem valueBytes_length_fixed
    (hfits : ∀ cell ∈ cells, ∀ v, st.value? cell = some v →
      fitsField st.datatype st.shape.varLen v = true)
    (hfixed : st.shape.varLen = false) :
    (valueBytes st s cells).length = valuesWritten st cells s * st.datatype.width := by
  unfold valueBytes valuesWritten
  split
  · exact st.flatMap_packed_length hfits hfixed
  · exact flatMap_length_of_forall _ fun cell hcell => st.aligned_length (hfits cell hcell) hfixed

/-- An optional buffer is short exactly where it has too few elements, and that only where nothing
    of its kind was registered. -/
theorem optional_short_iff {x : Option ElementBuffer} {registered : Option Nat} {present : Bool}
    {w n : Nat} (hw : 0 < w) (hpresent : registered.isSome = present)
    (hwidth : ∀ b, x = some b → b.width = w)
    (hcovers : ∀ r, registered = some r → ∃ b, x = some b ∧ r ≤ b.capacity)
    (hroom : ∀ r, registered = some r → n ≤ r) :
    (∃ b, x = some b ∧ b.size < n * w) ↔ present = false ∧ ∃ b, x = some b ∧ b.capacity < n := by
  have hsize : ∀ b, x = some b → (b.size < n * w ↔ b.capacity < n) := by
    intro b hb
    rw [ElementBuffer.size, hwidth b hb]
    exact Nat.mul_lt_mul_right hw
  constructor
  · rintro ⟨b, hb, hlt⟩
    have hfew := (hsize b hb).1 hlt
    refine ⟨?_, b, hb, hfew⟩
    rw [← hpresent, ← Bool.not_eq_true, Option.isSome_iff_exists]
    rintro ⟨r, hr⟩
    obtain ⟨b', hb', hle⟩ := hcovers r hr
    rw [hb, Option.some.injEq] at hb'
    subst hb'
    exact absurd ((hroom r hr).trans hle) (Nat.not_le.2 hfew)
  · rintro ⟨-, b, hb, hfew⟩
    exact ⟨b, hb, (hsize b hb).2 hfew⟩

/-- The buffers that pass the check and are short all the same. -/
theorem short_iff_overruns {d : Datatype} (hlayout : s.HasLayout d s.capacities)
    (hcovers : Covers c s) (hoffsets : c.offsets.isSome = st.shape.varLen)
    (hvalidity : c.validity.isSome = st.shape.nullable)
    (hfits : ∀ cell ∈ cells, ∀ v, st.value? cell = some v →
      fitsField st.datatype st.shape.varLen v = true)
    (hroom : HasRoom c st cells) (role : BufferRole) :
    Short st cells s role ↔ Overruns st cells s role := by
  have hwidth : ∀ {x : Option ElementBuffer} {w : Nat},
      x.map (fun b => (b.width, b.capacity)) = (x.map (·.capacity)).map (fun n => (w, n)) →
      ∀ b, x = some b → b.width = w := by
    rintro x w h b rfl
    simpa using h
  cases role with
  | offsets =>
      exact optional_short_iff (by decide) hoffsets (hwidth hlayout.offsets) hcovers.offsets
        hroom.offsets
  | validity =>
      exact optional_short_iff (by decide) hvalidity (hwidth hlayout.validity) hcovers.validity
        hroom.validity
  | values =>
      cases hvar : st.shape.varLen with
      | false =>
          simp only [Short, Overruns, hvar, true_and, valueBytes_length_fixed hfits hvar,
            ElementBuffer.size]
      | true =>
          -- the elements are bytes, and there are as many as were registered
          have hle : (valueBytes st s cells).length ≤ s.values.size := by
            refine valueBytes_length_le hlayout (Or.inl hvar) ?_ hfits
              (hroom.values.trans hcovers.values)
            obtain ⟨n, hn⟩ := Option.isSome_iff_exists.1 (hoffsets.trans hvar)
            obtain ⟨b, hb, -⟩ := hcovers.offsets n hn
            rw [hvar, ElementBuffers.capacities, hb]
            rfl
          simp [Short, Overruns, hvar, hle]

/-- The buffers of a stored field: offsets and validity as it has them, and elements wide enough. -/
structure Suits (s : ElementBuffers) (st : StoredField) : Prop where
  offsets : s.offsets.isSome = st.shape.varLen
  validity : s.validity.isSome = st.shape.nullable
  width : st.datatype.width ≤ s.values.width

/-- Of the buffers of the field itself nothing is missed. -/
theorem not_overruns (hsuits : Suits s st) (hcovers : Covers c s) (hroom : HasRoom c st cells)
    (role : BufferRole) : ¬ Overruns st cells s role := by
  obtain ⟨hoffsets, hvalidity, hwidth⟩ := hsuits
  cases role with
  | offsets =>
      rintro ⟨hfixed, b, hb, -⟩
      rw [hb, hfixed] at hoffsets
      cases hoffsets
  | validity =>
      rintro ⟨hfixed, b, hb, -⟩
      rw [hb, hfixed] at hvalidity
      cases hvalidity
  | values =>
      rintro ⟨hfixed, hlt⟩
      have hcount : valuesWritten st cells s = cells.length := by
        rw [valuesWritten, hoffsets, hfixed, if_neg Bool.false_ne_true]
      have hcells := hroom.values.trans hcovers.values
      rw [st.sum_elements hfixed] at hcells
      rw [hcount] at hlt
      exact absurd (Nat.mul_le_mul hcells hwidth) (Nat.not_le.2 hlt)

theorem RoomFor.not_short (h : RoomFor st cells s) (role : BufferRole) :
    ¬ Short st cells s role := by
  cases role with
  | offsets =>
      rintro ⟨b, hb, hlt⟩
      exact absurd (h.offsets b hb) (Nat.not_le.2 hlt)
  | values => exact Nat.not_lt.2 h.values
  | validity =>
      rintro ⟨b, hb, hlt⟩
      exact absurd (h.validity b hb) (Nat.not_le.2 hlt)

/-- What has been written had room. -/
theorem roomFor_of_fill {name : String} {s' : ElementBuffers}
    (h : fill name st cells s = .ok s') : RoomFor st cells s := by
  obtain ⟨hlayout, hoffsets, hvalues, hvalidity⟩ := fill_spec h
  have hsize : ∀ {x y : Option ElementBuffer},
      y.map (fun b => (b.width, b.capacity)) = x.map (fun b => (b.width, b.capacity)) →
      ∀ b, x = some b → ∃ b', y = some b' ∧ b'.size = b.size := by
    rintro x y heq b rfl
    obtain ⟨b', hb', hsame⟩ := Option.map_eq_some_iff.1 heq
    simp only [Prod.mk.injEq] at hsame
    exact ⟨b', hb', by rw [ElementBuffer.size, hsame.1, hsame.2, ElementBuffer.size]⟩
  refine ⟨?_, ?_, ?_⟩
  · intro b hb
    obtain ⟨b', hb', heq⟩ := hsize hlayout.offsets b hb
    rw [← heq, ← offsetBytes_length st]
    exact ElementBuffer.length_le_of_startsWith (hoffsets b' hb')
  · have hsame := hlayout.values
    simp only [Prod.mk.injEq] at hsame
    rw [ElementBuffer.size, ← hsame.1, ← hsame.2]
    exact ElementBuffer.length_le_of_startsWith hvalues
  · intro b hb
    obtain ⟨b', hb', heq⟩ := hsize hlayout.validity b hb
    rw [← heq, flagBytes, Nat.mul_one, ← List.length_map (f := st.flag)]
    exact ElementBuffer.length_le_of_startsWith (hvalidity b' hb')

end

/-! ## Queries in use -/

/-- What a query keeps, whatever is asked of it. -/
structure Kept (q : TiledQuery) : Prop where
  registered : q.Registered
  selection : ∀ cs, q.selection = some cs → ∀ c ∈ cs, c ∈ q.array.cells

theorem Kept.selected {q : TiledQuery} (h : q.Kept) : ∀ c ∈ q.selected, c ∈ q.array.cells := by
  intro c hc
  unfold TiledQuery.selected at hc
  rcases hselection : q.selection with _ | cs
  · rw [hselection, Option.getD_none] at hc
    exact List.mem_of_mem_filter hc
  · rw [hselection, Option.getD_some] at hc
    exact h.selection cs hselection c hc

theorem kept_ofArray (a : TiledArray) : (ofArray a).Kept where
  registered := ⟨List.nodup_nil, nofun⟩
  selection := nofun

theorem perform_kept {q : TiledQuery} (h : q.Kept) (op : Operation) :
    (q.perform op).query.Kept := by
  have hregistered := h.registered
  have hnext := perform_next q op
  generalize (q.perform op).query = q' at hnext
  cases hnext with
  | same => exact h
  | ranged hrange =>
      rw [hrange.query]
      exact ⟨⟨hregistered.nodup, hregistered.shapes⟩, h.selection⟩
  | registered hst hoffsets hvalidity =>
      exact ⟨hregistered.put hst hoffsets hvalidity, h.selection⟩
  | unregistered => exact ⟨⟨List.nodup_nil, nofun⟩, h.selection⟩
  | counting stats => exact ⟨⟨hregistered.nodup, hregistered.shapes⟩, h.selection⟩
  | closed => exact ⟨⟨List.nodup_nil, nofun⟩, h.selection⟩
  | submitted hhands cells counts =>
      refine ⟨⟨hregistered.nodup, hregistered.shapes⟩, ?_⟩
      rintro _ ⟨⟩
      exact h.selected

theorem run_kept {q : TiledQuery} (h : q.Kept) (ops : List Operation) : (q.run ops).Kept := by
  induction ops generalizing q with
  | nil => exact h
  | cons op rest ih => exact ih (perform_kept h op)

/-! ## Submits that pass the check -/

/-- A query on an array that has been asked for something or other. -/
def Reached (a : TiledArray) (q : TiledQuery) : Prop := ∃ ops, q = (ofArray a).run ops

theorem Reached.kept {a : TiledArray} {q : TiledQuery} (h : Reached a q) :
    q.Kept ∧ q.array = a := by
  obtain ⟨ops, rfl⟩ := h
  exact ⟨run_kept (kept_ofArray a) ops, (run_selection (ofArray a) ops).1⟩

section

variable {q : TiledQuery} {buffers : List NamedBuffers} {ts : List Target} {t : Target}
  {b : NamedBuffers}

/-- The buffers of a target passed the check, and the capacities have room for the batch. -/
theorem covers_of_target (hts : targets q.array buffers q.registered = .ok ts) (ht : t ∈ ts)
    (hb : buffers[t.index]? = some b) :
    Covers t.capacities b.buffers ∧ HasRoom t.capacities t.field (q.batch ts) := by
  obtain ⟨r, -, hfor⟩ := isFor_of_mem hts ht
  rw [hfor.capacities]
  exact ⟨covers_of_ensureRooms (hfor.covered b hb),
    hfor.capacities ▸ hasRoom_of_le_room (batchSize_le_room ht)⟩

theorem short_target_iff (hsound : q.array.Sound) (hkept : q.Kept)
    (hts : targets q.array buffers q.registered = .ok ts) (ht : t ∈ ts)
    (hb : buffers[t.index]? = some b)
    (hlayout : ∃ d, b.buffers.HasLayout d b.buffers.capacities) (role : BufferRole) :
    Short t.field (q.batch ts) b.buffers role ↔
      Overruns t.field (q.batch ts) b.buffers role := by
  obtain ⟨d, hlayout⟩ := hlayout
  obtain ⟨hcovers, hroom⟩ := covers_of_target hts ht hb
  obtain ⟨r, hr, hfor⟩ := isFor_of_mem hts ht
  obtain ⟨st, hst, hoffsets, hvalidity⟩ := hkept.registered.shapes r hr
  rw [hfor.field, Option.some.injEq] at hst
  subst hst
  rw [← hfor.capacities] at hoffsets hvalidity
  refine short_iff_overruns hlayout hcovers hoffsets hvalidity ?_ hroom role
  intro c hc
  exact (TiledArray.value?_spec hfor.field
    (hsound.fits c (hkept.selected c (mem_selected_of_batch hc)))).1

/-- A submit that was answered had room for all that it wrote. -/
theorem roomFor_of_submit {status : Progress} (hregistered : q.Registered)
    (hts : targets q.array buffers q.registered = .ok ts)
    (hsubmit : (q.submit buffers).1 = .ok status) (ht : t ∈ ts)
    (hb : buffers[t.index]? = some b) : RoomFor t.field (q.batch ts) b.buffers := by
  rcases hanswer : q.submit buffers with ⟨answer, filled, q'⟩
  rw [hanswer] at hsubmit
  subst hsubmit
  obtain ⟨ts', hts', hfilled, -⟩ := submit_eq_ok hanswer
  rw [hts, Except.ok.injEq] at hts'
  subst hts'
  obtain ⟨b', s, hb', hs, -⟩ := submit_wrote hts hfilled hregistered.nodup ht
  rw [hb, Option.some.injEq] at hb'
  subst hb'
  exact roomFor_of_fill hs

end

/-- A submit that passes its check, on a query in any state and with buffers that were allocated in
    any way, writes everything inside its buffers, unless it overruns one; then it writes outside,
    and into one that it overruns. The buffers that the fields themselves have are not overrun. -/
theorem submit_overruns_iff {schema : Schema} {tileExtent : Nat} {cells : List Cell}
    {a : TiledArray} {q : TiledQuery} {buffers : List NamedBuffers}
    (ha : TiledArray.ofCells schema tileExtent cells = .ok a) (hq : Reached a q)
    (hbuffers : ∀ b ∈ buffers, ∃ d, b.buffers.HasLayout d b.buffers.capacities)
    (hchecked : ∀ e, (q.submit buffers).1 = .error e → e.refuses = false) :
    ∃ ts, targets a buffers q.registered = .ok ts ∧
      ((∃ status, (q.submit buffers).1 = .ok status) ↔ ∀ t ∈ ts, ∀ b, buffers[t.index]? = some b →
        ∀ role, ¬ Overruns t.field (q.batch ts) b.buffers role) ∧
      (∀ status, (q.submit buffers).1 = .ok status → ∀ t ∈ ts, ∀ b, buffers[t.index]? = some b →
        RoomFor t.field (q.batch ts) b.buffers) ∧
      (∀ e, (q.submit buffers).1 = .error e → ∃ t ∈ ts, ∃ b role, buffers[t.index]? = some b ∧
        e = .abort (.writeOutside t.name role) ∧ Overruns t.field (q.batch ts) b.buffers role) ∧
      ∀ t ∈ ts, ∀ b, buffers[t.index]? = some b → Suits b.buffers t.field →
        ∀ role, ¬ Overruns t.field (q.batch ts) b.buffers role := by
  obtain ⟨hkept, rfl⟩ := hq.kept
  obtain ⟨hopen, hne, ts, hts⟩ := targets_of_submit hkept.registered hchecked
  have hsound := (TiledArray.sound_ofCells ha).1
  have hshort : ∀ t ∈ ts, ∀ b, buffers[t.index]? = some b → ∀ role,
      Short t.field (q.batch ts) b.buffers role ↔ Overruns t.field (q.batch ts) b.buffers role :=
    fun t ht b hb => short_target_iff hsound hkept hts ht hb (hbuffers b (List.mem_of_getElem? hb))
  have houtside : ∀ e, (q.submit buffers).1 = .error e → ∃ t ∈ ts, ∃ b role,
      buffers[t.index]? = some b ∧ e = .abort (.writeOutside t.name role) ∧
        Overruns t.field (q.batch ts) b.buffers role := by
    intro e he
    obtain ⟨t, ht, b, hb, hfill⟩ := submit_error_target hopen hne hkept.registered.nodup hts he
    obtain ⟨role, rfl, hrole⟩ := fill_short hfill
    exact ⟨t, ht, b, role, hb, rfl, (hshort t ht b hb role).1 hrole⟩
  refine ⟨ts, hts, ⟨?_, ?_⟩, ?_, houtside, ?_⟩
  · rintro ⟨status, hstatus⟩ t ht b hb role hrole
    have hroom := roomFor_of_submit hkept.registered hts hstatus ht hb
    exact hroom.not_short role ((hshort t ht b hb role).2 hrole)
  · intro hnone
    rcases hanswer : (q.submit buffers).1 with e | status
    · obtain ⟨t, ht, b, role, hb, -, hrole⟩ := houtside e hanswer
      exact absurd hrole (hnone t ht b hb role)
    · exact ⟨status, rfl⟩
  · intro status hstatus t ht b hb
    exact roomFor_of_submit hkept.registered hts hstatus ht hb
  · intro t ht b hb hsuits role
    obtain ⟨hcovers, hroom⟩ := covers_of_target hts ht hb
    exact not_overruns hsuits hcovers hroom role

/-! ## A buffer for flags that nobody asked for -/

/-- Two rows, in tiles of one. -/
def twoRows : TiledArray :=
  ⟨⟨[⟨"row", .int32, false⟩], []⟩, [⟨[.small .int32 7], []⟩, ⟨[.small .int32 8], []⟩], 1⟩

/-- A query that has been told of values for both rows. -/
def twoRowsQuery : TiledQuery := (ofArray twoRows).run [.register "row" ⟨none, 2, none⟩]

/-- Buffers with values for both rows, and one for no flags. -/
def strayFlags : List NamedBuffers :=
  [⟨"row", .int32,
    ⟨none, { width := 4, capacity := 2, size_lt := by decide },
      some { width := 1, capacity := 0, size_lt := by decide }⟩⟩]

/-- The capacities are as registered, and the flags are written past the end of their buffer. -/
theorem strayFlags_written_outside :
    twoRowsQuery.registered = [("row", ⟨none, 2, none⟩)] ∧
      strayFlags.map (·.buffers.capacities) = [⟨none, 2, some 0⟩] ∧
      (twoRowsQuery.submit strayFlags).1 = .error (.abort (.writeOutside "row" .validity)) := by
  decide +kernel

/-- Of all that is written it is the flags that have no room. -/
theorem strayFlags_overrun :
    ∃ ts, targets twoRows strayFlags twoRowsQuery.registered = .ok ts ∧ ∃ t ∈ ts, t.name = "row" ∧
      ∃ b ∈ strayFlags, Overruns t.field (twoRowsQuery.batch ts) b.buffers .validity := by
  have hcells : TiledArray.ofCells twoRows.schema 1 twoRows.cells = .ok twoRows :=
    TiledArray.ofCells_of_sorted (by decide) (by decide) (by decide +kernel) (by decide +kernel)
  have hbuffers : ∀ b ∈ strayFlags, ∃ d, b.buffers.HasLayout d b.buffers.capacities := by
    intro b hb
    rw [List.mem_singleton.1 hb]
    exact ⟨.int32, rfl, rfl, rfl⟩
  have hanswer : (twoRowsQuery.submit strayFlags).1 =
      .error (.abort (.writeOutside "row" .validity)) := by
    decide +kernel
  have hchecked : ∀ e, (twoRowsQuery.submit strayFlags).1 = .error e → e.refuses = false := by
    intro e he
    rw [hanswer, Except.error.injEq] at he
    exact he ▸ rfl
  obtain ⟨ts, hts, -, -, houtside, -⟩ := submit_overruns_iff hcells ⟨_, rfl⟩ hbuffers hchecked
  obtain ⟨t, ht, b, role, hb, herror, hrole⟩ := houtside _ hanswer
  rw [ArrayError.abort.injEq, Abort.writeOutside.injEq] at herror
  obtain ⟨hname, rfl⟩ := herror
  exact ⟨ts, hts, t, ht, hname.symm, b, List.mem_of_getElem? hb, hrole⟩

end TiledQuery

end SparseScan
