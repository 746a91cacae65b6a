import SparseScan.Proofs.Scan.Serving

set_option autoImplicit false

/-! # The rows of a scan

A scan that serves a selection hands out its cells one by one: `advance_serves` is one call, and
`handsOut_of_serves` follows a whole run of calls to its end. -/

namespace SparseScan

open TiledArray (StoredField)

/-! ## What a row shows -/

/-- The bytes of a value as a reader of a field is shown them. A null of fixed length is a zeroed
    element, one of variable length is empty. -/
def Field.shownBytes (f : Field) : Option StoredValue → List UInt8
  | some v => v.encode
  | none => if f.varLen then [] else List.replicate f.datatype.width 0

theorem shown_eq_shownBytes {f : Field} {st : StoredField} (h : FieldBatch.Decodes f st)
    (c : Cell) : st.shown c = f.shownBytes (st.value? c) := by
  have hvar : st.shape.varLen = f.varLen := by rw [h.shape]; rfl
  unfold StoredField.shown StoredField.packed StoredField.aligned Field.shownBytes
  rw [hvar]
  cases hlen : f.varLen with
  | true => cases st.value? c <;> rfl
  | false =>
      rw [h.width.resolve_left (by simp [hlen])]
      cases st.value? c <;> rfl

namespace Scan

variable {Q : Type}

/-- The current row has the value `v`, perhaps null, in the field at a position. -/
structure ShowsValue (s : Scan Q) (ordinal : Nat) (f : Field) (v : Option StoredValue) : Prop where
  isNull : s.isNull ordinal = .ok v.isNone
  bytes : s.bytes ordinal = .ok (f.shownBytes v)

/-- The current row shows what is stored in a cell, in every field that decodes it. -/
def ShowsCell (s : Scan Q) (a : TiledArray) (c : Cell) : Prop :=
  ∀ ordinal f, s.fields[ordinal]? = some f → ∀ st, a.stored? f.name = some st →
    FieldBatch.Decodes f st → s.ShowsValue ordinal f (st.value? c)

variable {a : TiledArray} {sel : List Cell} {s : Scan TiledQuery}

/-- The current row is the last cell that was handed out. -/
theorem showsCell_of_serves (hs : Serves a sel s.view) (hpos : 0 < s.position) :
    ∃ c, sel[s.visited - 1]? = some c ∧ s.ShowsCell a c := by
  have hopen : s.isClosed = false := hs.isOpen
  have hle : s.position ≤ s.batch.rows := hs.position_le_rows
  have hvisited : s.position ≤ s.visited := hs.position_le_visited
  have hshows := hs.batch (by show s.batch.rows ≠ 0; omega)
  have hrows : s.batch.rows =
      ((sel.drop (s.visited - s.position)).take s.batch.rows).length :=
    hshows.rows hs.fields.ne_nil
  -- the batch holds the cells from the first that it brought, and the row is the last one taken
  obtain ⟨c, hc⟩ : ∃ c, ((sel.drop (s.visited - s.position)).take s.batch.rows)[s.position - 1]? =
      some c := by
    refine ⟨_, List.getElem?_eq_getElem ?_⟩
    rw [← hrows]
    omega
  have hcell : sel[s.visited - 1]? = some c := by
    rw [List.getElem?_take_of_lt (by omega), List.getElem?_drop] at hc
    rw [← hc]
    congr 1
    omega
  refine ⟨c, hcell, ?_⟩
  intro ordinal f hf st hst hdec
  obtain ⟨fb, hfb, -, hfield⟩ := forall₂_getElem? hshows hf
  have hshown := hfield st hst hdec
  have hcurrent : s.current ordinal = .ok (fb, s.position - 1) := by
    have hbatch : s.batch.field ordinal = .ok fb := by
      rw [RowBatch.field, show s.batch.fields[ordinal]? = some fb from hfb]
    rw [current, if_neg (by simp [hopen]; omega), hbatch]
  refine ⟨?_, ?_⟩
  · rw [Scan.isNull, readCurrent, hcurrent]
    simp only [hshown.isNull _ c hc]
  · rw [Scan.bytes, readCurrent, hcurrent, ← shown_eq_shownBytes hdec]
    exact hshown.bytesAt _ c hc

/-! ## One call -/

/-- With rows left in the batch, the next one is handed out. -/
theorem handOut_serves (hs : Serves a sel s.view) (hlt : s.position < s.batch.rows)
    (hmore : s.visited < sel.length) :
    s.handOut = ⟨.ok true, { s with position := s.position + 1, visited := s.visited + 1 }⟩ ∧
      Serves a sel
        ({ s with
          position := s.position + 1
          visited := s.visited + 1 } : Scan TiledQuery).view := by
  have hvisited : s.position ≤ s.visited := hs.position_le_visited
  have hdelivered : s.query.delivered = s.visited + (s.batch.rows - s.position) := hs.delivered
  constructor
  · rw [handOut, if_neg (by show s.batch.rows ≠ 0; omega)]
  · exact
      { isOpen := hs.isOpen
        queryOpen := hs.queryOpen
        array := hs.array
        selected := hs.selected
        registered := hs.registered
        fields := hs.fields
        stored := hs.stored
        buffers := hs.buffers
        upperBound := hs.upperBound
        visited_le := hmore
        position_le_visited := Nat.succ_le_succ hvisited
        position_le_rows := hlt
        delivered := by
          show s.query.delivered = s.visited + 1 + (s.batch.rows - (s.position + 1))
          omega
        completed := hs.completed
        batch := by
          show s.batch.rows ≠ 0 → s.batch.Shows a s.fields
            ((sel.drop (s.visited + 1 - (s.position + 1))).take s.batch.rows)
          rw [Nat.add_sub_add_right]
          exact hs.batch }

/-- With the batch used up and cells left, the scan fetches until it can hand out the next one. -/
theorem fetch_handOut_serves (ha : a.Sound) (hsel : ∀ c ∈ sel, c ∈ a.cells)
    (hs : Serves a sel s.view) (hpos : s.position = s.batch.rows) (hmore : s.visited < sel.length)
    (hok : ∀ e, s.step.result ≠ .error e) (hbound : ¬ s.upperBound ≤ s.visited) :
    ∃ t : Scan TiledQuery, Serves a sel t.view ∧ t.position < t.batch.rows ∧
      t.visited = s.visited ∧ t.fields = s.fields ∧ s.step = t.handOut := by
  have hopen : ¬ s.isClosed = true := by
    rw [show s.isClosed = false from hs.isOpen]
    exact Bool.false_ne_true
  -- the query is not complete, or there would be nothing left to visit
  have hstatus : ¬ s.status = .completed := by
    intro hcompleted
    have hle : sel.length ≤ s.query.delivered := hs.completed hcompleted
    have hdelivered : s.query.delivered = s.visited + (s.batch.rows - s.position) := hs.delivered
    omega
  have hfetch : s.step = (fetch submitLimit s).andThen fun _ s => s.handOut := by
    rw [step, if_neg hopen, if_neg hbound, if_neg (by omega), if_neg hstatus]
  rw [hfetch] at hok ⊢
  cases hf : (fetch submitLimit s).result with
  | error e => exact absurd (Outcome.andThen_of_error hf) (hok e)
  | ok u =>
      obtain ⟨hserves, hzero, hvisited, hfields, hrows⟩ := fetch_serves ha hsel hs hpos hmore hf
      exact ⟨_, hserves, by omega, hvisited, hfields, Outcome.andThen_of_ok hf⟩

/-- A step of a scan that serves `sel` hands out the next cell, or ends the scan when all have been
    handed out. -/
theorem step_serves (ha : a.Sound) (hsel : ∀ c ∈ sel, c ∈ a.cells) (hs : Serves a sel s.view)
    (hok : ∀ e, s.step.result ≠ .error e) :
    (s.visited < sel.length → s.step.result = .ok true ∧ Serves a sel s.step.scan.view ∧
      s.step.scan.visited = s.visited + 1 ∧ 0 < s.step.scan.position ∧
        s.step.scan.fields = s.fields) ∧
      (sel.length ≤ s.visited → s.step.result = .ok false) := by
  have hupper : s.upperBound = sel.length := hs.upperBound
  have hopen : ¬ s.isClosed = true := by
    rw [show s.isClosed = false from hs.isOpen]
    exact Bool.false_ne_true
  refine ⟨?_, ?_⟩
  · intro hmore
    have hbound : ¬ s.upperBound ≤ s.visited := by omega
    obtain ⟨t, ht, hlt, hvisited, hfields, hstep⟩ : ∃ t : Scan TiledQuery, Serves a sel t.view ∧
        t.position < t.batch.rows ∧ t.visited = s.visited ∧ t.fields = s.fields ∧
          s.step = t.handOut := by
      by_cases hlt : s.position < s.batch.rows
      · refine ⟨s, hs, hlt, rfl, rfl, ?_⟩
        rw [step, if_neg hopen, if_neg hbound, if_pos hlt]
      · exact fetch_handOut_serves ha hsel hs
          (le_antisymm hs.position_le_rows (Nat.le_of_not_lt hlt)) hmore hok hbound
    obtain ⟨hout, hserves⟩ := handOut_serves ht hlt (by omega)
    rw [hstep, hout]
    exact ⟨rfl, hserves, congrArg (· + 1) hvisited, Nat.succ_pos _, hfields⟩
  · intro hdone
    rw [step, if_neg hopen, if_pos (by omega)]
    rfl

/-- A call is a step at a later time, which decides nothing about rows. -/
theorem advance_serves (ha : a.Sound) (hsel : ∀ c ∈ sel, c ∈ a.cells) (hs : Serves a sel s.view)
    (hok : ∀ e, s.advance.result ≠ .error e) :
    (s.visited < sel.length → s.advance.result = .ok true ∧ Serves a sel s.advance.scan.view ∧
      s.advance.scan.visited = s.visited + 1 ∧ 0 < s.advance.scan.position ∧
        s.advance.scan.fields = s.fields) ∧
      (sel.length ≤ s.visited → s.advance.result = .ok false) :=
  step_serves (s := s.now.2) ha hsel hs hok

/-! ## A whole run -/

/-- The call number `n`, counted from zero. -/
def advances [QueryEngine Q] (s : Scan Q) : Nat → Outcome Q Bool
  | 0 => s.advance
  | n + 1 => (s.advances n).scan.advance

/-- No call fails until one has answered that there are no more rows. -/
def NeverFails [QueryEngine Q] (s : Scan Q) : Prop :=
  ∀ n e, (∀ m < n, (s.advances m).result = .ok true) → (s.advances n).result ≠ .error e

/-- A scan that has ended without a failure never fails. -/
theorem neverFails_of_ends {n : Nat} (hrows : ∀ m < n, (s.advances m).result = .ok true)
    (hend : (s.advances n).result = .ok false) : s.NeverFails := by
  intro k e hbefore he
  rcases lt_trichotomy k n with hk | rfl | hk
  · rw [hrows k hk] at he
    cases he
  · rw [hend] at he
    cases he
  · have hmore := hbefore n hk
    rw [hend] at hmore
    cases hmore

/-- The scan hands out `cells`, each once and in order, and then ends. -/
structure HandsOut (s : Scan TiledQuery) (a : TiledArray) (cells : List Cell) : Prop where
  rows : ∀ n c, cells[n]? = some c → (s.advances n).result = .ok true ∧
    (s.advances n).scan.fields = s.fields ∧ (s.advances n).scan.ShowsCell a c
  ends : (s.advances cells.length).result = .ok false

/-- As long as cells are left, every call hands out one of them. -/
theorem advances_serves (ha : a.Sound) (hsel : ∀ c ∈ sel, c ∈ a.cells) (hs : Serves a sel s.view)
    (hzero : s.visited = 0) (hok : s.NeverFails) (n : Nat) (hn : n < sel.length) :
    (s.advances n).result = .ok true ∧ Serves a sel (s.advances n).scan.view ∧
      (s.advances n).scan.visited = n + 1 ∧ 0 < (s.advances n).scan.position ∧
        (s.advances n).scan.fields = s.fields := by
  induction n using Nat.strong_induction_on with
  | _ n ih =>
      have hbefore : ∀ m < n, (s.advances m).result = .ok true := fun m hm =>
        (ih m hm (hm.trans hn)).1
      cases n with
      | zero =>
          obtain ⟨hmore, -⟩ := advance_serves ha hsel hs fun e => hok 0 e hbefore
          obtain ⟨hresult, hserves, hvisited, hpos, hfields⟩ := hmore (by omega)
          exact ⟨hresult, hserves, hvisited.trans (by rw [hzero]), hpos, hfields⟩
      | succ n =>
          obtain ⟨-, hprev, hvisited, -, hfields⟩ := ih n (Nat.lt_succ_self n) (by omega)
          obtain ⟨hmore, -⟩ := advance_serves ha hsel hprev fun e => hok (n + 1) e hbefore
          obtain ⟨hresult, hserves, hnext, hpos, hsame⟩ := hmore (by omega)
          exact ⟨hresult, hserves, hnext.trans (by rw [hvisited]), hpos, hsame.trans hfields⟩

/-- A scan that serves a selection and has handed out nothing yet hands out all of it. -/
theorem handsOut_of_serves (ha : a.Sound) (hsel : ∀ c ∈ sel, c ∈ a.cells) (hs : Serves a sel s.view)
    (hzero : s.visited = 0) (hok : s.NeverFails) : s.HandsOut a sel := by
  have hrun := advances_serves ha hsel hs hzero hok
  refine ⟨?_, ?_⟩
  · intro n c hc
    obtain ⟨hresult, hserves, hvisited, hpos, hfields⟩ :=
      hrun n (List.getElem?_eq_some_iff.1 hc).1
    obtain ⟨c', hc', hshows⟩ := showsCell_of_serves hserves hpos
    rw [hvisited, Nat.add_sub_cancel, hc, Option.some.injEq] at hc'
    subst hc'
    exact ⟨hresult, hfields, hshows⟩
  · -- the last call follows the one that handed out the last cell, if there is any
    have hbefore : ∀ m < sel.length, (s.advances m).result = .ok true := fun m hm => (hrun m hm).1
    cases hlen : sel.length with
    | zero =>
        exact (advance_serves ha hsel hs fun e => hok 0 e (by simp)).2 (by omega)
    | succ n =>
        obtain ⟨-, hserves, hvisited, -⟩ := hrun n (by omega)
        exact (advance_serves ha hsel hserves fun e =>
          hok (n + 1) e fun m hm => hbefore m (by omega)).2 (by omega)

end Scan

end SparseScan
