import SparseScan.Proofs.Scan.Lockstep
import SparseScan.Proofs.Scan.Contents
import SparseScan.Proofs.Scan.SideChange

set_option autoImplicit false

/-! # Calls that lack memory and their repetition

A call that must grow its buffers fails where too little memory is free, and may be repeated later.
Such a scan is compared with the same scan under unlimited memory. After any number of calls it
follows that scan, which has made only the calls that did not lack memory, and both have handed out
the same rows (`after_follows`); the start asks the memory nothing (`start_withMemory`), so the two
begin alike. `start_resumes` is the result: a refused call leaves the scan open at its row, and the
next one that is not refused hands out the very next row. -/

namespace SparseScan

/-- Memory without limit. -/
def Source.unlimited : Source UInt64 := .constant greatestReading

/-- Whether a call failed for want of memory. -/
def Outcome.isRefused {Q α : Type} (o : Outcome Q α) : Bool :=
  match o.result with
  | .error (.memory _) => true
  | _ => false

theorem Outcome.isRefused_iff {Q α : Type} {o : Outcome Q α} :
    o.isRefused = true ↔ ∃ e, o.result = .error (.memory e) := by
  unfold isRefused
  split
  · next e he => simp [he]
  · next hne => simpa using hne

namespace Scan

/-! ## Runs -/

/-- What can be read of a field of the current row. -/
structure FieldView where
  long : Except ScanError Long
  double : Except ScanError (Binary .double)
  boolean : Except ScanError Bool
  bytes : Except ScanError (List UInt8)
  isNull : Except ScanError Bool

section

variable {Q : Type}

/-- The current row, by ordinal. -/
def row (s : Scan Q) (ordinal : Nat) : FieldView :=
  ⟨s.long ordinal, s.double ordinal, s.boolean ordinal, s.bytes ordinal, s.isNull ordinal⟩

variable [QueryEngine Q]

/-- The scan after `n` calls. -/
def after (s : Scan Q) : Nat → Scan Q
  | 0 => s
  | n + 1 => (s.after n).advance.scan

/-- The rows that the first `n` calls have handed out, in order. -/
def rows (s : Scan Q) (n : Nat) : List (Nat → FieldView) :=
  (List.range n).filterMap fun k =>
    if (s.advances k).result = .ok true then some (s.advances k).scan.row else none

/-- How many of the first `n` calls did not lack memory. -/
def answered (s : Scan Q) (n : Nat) : Nat :=
  ((List.range n).filter fun k => !(s.advances k).isRefused).length

theorem advances_eq_after (s : Scan Q) (n : Nat) : s.advances n = (s.after n).advance := by
  induction n with
  | zero => rfl
  | succ n ih => rw [advances, ih, after]

theorem rows_succ (s : Scan Q) (n : Nat) : s.rows (n + 1) = s.rows n ++
    if (s.advances n).result = .ok true then [(s.advances n).scan.row] else [] := by
  rw [rows, rows, List.range_succ, List.filterMap_append]
  congr 1
  split
  · next hrow => simp [hrow]
  · next hrow => simp [hrow]

theorem answered_succ (s : Scan Q) (n : Nat) : s.answered (n + 1) =
    if (s.advances n).isRefused then s.answered n else s.answered n + 1 := by
  rw [answered, answered, List.range_succ, List.filter_append, List.length_append]
  cases hrefused : (s.advances n).isRefused <;> simp [hrefused]

theorem answered_le (s : Scan Q) (n : Nat) : s.answered n ≤ n := by
  have hle := List.length_filter_le (fun k => !(s.advances k).isRefused) (List.range n)
  rwa [List.length_range] at hle

/-- Later calls append to the rows. -/
theorem rows_prefix (s : Scan Q) {m n : Nat} (h : m ≤ n) : s.rows m <+: s.rows n := by
  induction n, h using Nat.le_induction with
  | base => exact List.prefix_rfl
  | succ n _ ih =>
      rw [rows_succ]
      exact ih.trans (List.prefix_append _ _)

end

variable {s u : Scan TiledQuery}

theorem row_of_place (h : s.place = u.place) : s.row = u.row := by
  have hagrees := agrees_of_place h
  have hcurrent : s.current = u.current := by
    funext ordinal
    rw [current, current, hagrees.batch, hagrees.position, hagrees.isClosed]
  funext ordinal
  simp only [row, long, double, boolean, bytes, isNull, readCurrent, hcurrent]

/-! ## One call -/

theorem advance_refused {e : MemoryError} (h : Follows s u)
    (hrefused : s.advance.result = .error (.memory e)) :
    Follows s.advance.scan u ∧ s.advance.scan.place = s.place ∧ s.isClosed = false ∧
      ReadsTooLittle e := by
  have hnow : Follows s.now.2 u := h.congr rfl rfl rfl
  obtain ⟨hfollows, hplace, hopen, hlittle⟩ := step_refused hnow hrefused
  exact ⟨hfollows.congr rfl rfl rfl, hplace, hopen, hlittle⟩

theorem advance_alike (h : Follows s u) (hok : ∀ current required available, s.advance.result ≠
    .error (.memory (.insufficient current required available))) :
    s.advance.core = u.advance.core := by
  have hnow : Follows s.now.2 u.now.2 := h.congr rfl rfl rfl
  exact step_follows hnow hok

theorem Follows.advance (h : Follows s u) (hcore : s.advance.core = u.advance.core) :
    Follows s.advance.scan u.advance.scan := by
  have hnow : Follows s.now.2 u.now.2 := h.congr rfl rfl rfl
  exact (hnow.step hcore).congr rfl rfl rfl

/-! ## Whole runs -/

/-- After each call the scan follows the one with unlimited memory, which has made only those calls
    that did not lack memory, and both have handed out the same rows. -/
theorem after_follows (h : Follows s u) (n : Nat) :
    Follows (s.after n) (u.after (s.answered n)) ∧ s.rows n = u.rows (s.answered n) := by
  induction n with
  | zero => exact ⟨h, rfl⟩
  | succ n ih =>
      obtain ⟨hfollows, hrows⟩ := ih
      rw [after, answered_succ, rows_succ, advances_eq_after]
      by_cases hrefused : (s.after n).advance.isRefused = true
      · obtain ⟨e, he⟩ := Outcome.isRefused_iff.1 hrefused
        rw [if_pos hrefused, he]
        exact ⟨(advance_refused hfollows he).1, by simpa using hrows⟩
      · have hcore := advance_alike hfollows fun current required available hfails =>
          hrefused (Outcome.isRefused_iff.2 ⟨_, hfails⟩)
        have hrow := row_of_place (place_of_core (Outcome.scan_core_eq hcore))
        rw [if_neg hrefused, after, rows_succ, advances_eq_after, hrows, Outcome.result_eq hcore,
          hrow]
        exact ⟨hfollows.advance hcore, rfl⟩

/-! ## The start -/

/-- The scan with another memory. -/
def withMemory (s : Scan TiledQuery) (memory : Source UInt64) : Scan TiledQuery :=
  { s with allocator := { s.allocator with memory } }

end Scan

def Outcome.withMemory {α : Type} (o : Outcome TiledQuery α) (memory : Source UInt64) :
    Outcome TiledQuery α := ⟨o.result, o.scan.withMemory memory⟩

namespace Scan

variable {memory : Source UInt64} {s u : Scan TiledQuery}

/-- The memory is not asked before the first call. -/
theorem start_withMemory (query : TiledQuery) (id : ScanId) (settings : ScanSettings)
    (columns : List Column) (constraints : Constraints) (memory memory' : Source UInt64)
    (clock : Source Nat) : start query id settings columns constraints memory' clock =
      (start query id settings columns constraints memory clock).withMemory memory' :=
  SideChange.scan_start (x := .replacing (fun _ => memory') fun counts => counts)
    (fun _ _ _ _ _ => rfl) rfl rfl rfl columns constraints

/-- A scan that serves cells has rows to count and buffers to grow. -/
theorem Serves.isReady {a : TiledArray} {sel : List Cell} (h : Serves a sel s.view) : Ready s := by
  have harray : s.query.array = a := h.array
  cases hfields : s.fields with
  | nil => exact absurd hfields h.fields.ne_nil
  | cons f rest =>
      have hf : f ∈ s.fields := by simp [hfields]
      obtain ⟨st, hst, hshape⟩ := h.stored f hf
      refine ⟨⟨f, rest, st, hfields, by rwa [harray], by rw [hshape]; rfl⟩, ?_⟩
      have hbuffers : List.Forall₂ FieldBuffers (f :: rest) s.buffers := hfields ▸ h.buffers
      obtain ⟨b, hb, hfield⟩ := forall₂_getElem? hbuffers (show (f :: rest)[0]? = some f from rfl)
      exact ⟨_, List.mem_map.2 ⟨b, List.mem_of_getElem? hb, rfl⟩, hfield.room.1.values,
        hfield.room.2⟩

/-- From its start on, a scan follows the one with unlimited memory. -/
theorem follows_start {a : TiledArray} {id : ScanId} {settings : ScanSettings}
    {columns : List Column} {constraints : Constraints} {clock : Source Nat} (ha : a.Sound)
    (hs : start (TiledQuery.ofArray a) id settings columns constraints memory clock = ⟨.ok (), s⟩) :
    Follows s (s.withMemory .unlimited) := by
  refine ⟨fun n => rfl, ?_, Or.inl rfl⟩
  intro hopen hmore
  rcases (started_of_start ha hs).rows with hserves | ⟨-, hupper, -⟩
  · have hready := Serves.isReady hserves
    exact hready.of_core rfl
  · exact absurd hmore (by rw [show (s.withMemory .unlimited).upperBound = 0 from hupper]; simp)

/-- What a call that lacks memory leaves of a scan: it is open, at the same row, with as many rows
    visited and bytes completed. -/
structure Unmoved (s t : Scan TiledQuery) : Prop where
  isOpen : t.isClosed = false
  row : t.row = s.row
  visited : t.visited = s.visited
  completedBytes : t.completedBytes = s.completedBytes

theorem unmoved_of_place (h : u.place = s.place) (hopen : s.isClosed = false) : Unmoved s u := by
  have hagrees := agrees_of_place h
  exact ⟨hagrees.isClosed.trans hopen, row_of_place h, hagrees.visited, hagrees.completedBytes⟩

/-- A call that lacks memory leaves the scan open at its row, and the next call that does not lack
    memory answers as the next call of the scan with unlimited memory does. So the rows handed out
    so far are those of that scan, whichever growths were refused. A call lacks memory only when a
    reading of the memory is too small, unless it does so with unlimited memory as well. -/
theorem start_resumes {schema : Schema} {tileExtent : Nat} {cells : List Cell} {a : TiledArray}
    {id : ScanId} {settings : ScanSettings} {columns : List Column} {constraints : Constraints}
    {clock : Source Nat} (ha : TiledArray.ofCells schema tileExtent cells = .ok a)
    (hs : start (TiledQuery.ofArray a) id settings columns constraints memory clock = ⟨.ok (), s⟩) :
    ∃ u, start (TiledQuery.ofArray a) id settings columns constraints .unlimited clock =
        ⟨.ok (), u⟩ ∧
      ∀ n, s.rows n <+: u.rows n ∧ s.rows n = u.rows (s.answered n) ∧
        ((s.advances n).isRefused = true → Unmoved (s.after n) (s.advances n).scan) ∧
        ((s.advances n).isRefused = false →
          (s.advances n).result = (u.advances (s.answered n)).result ∧
            (s.advances n).scan.row = (u.advances (s.answered n)).scan.row) ∧
        ∀ e, (s.advances n).result = .error (.memory e) →
          (∃ current required available, e = .insufficient current required available ∧
              available ≤ required) ∨
            (u.advances (s.answered n)).result = .error (.memory e) := by
  have hfollows := follows_start (TiledArray.sound_ofCells ha).1 hs
  refine ⟨s.withMemory .unlimited, ?_, ?_⟩
  · rw [start_withMemory _ _ _ _ _ memory, hs]
    rfl
  intro n
  obtain ⟨hn, hrows⟩ := after_follows hfollows n
  refine ⟨hrows ▸ rows_prefix _ (answered_le s n), hrows, ?_, ?_, ?_⟩
  · intro hrefused
    rw [advances_eq_after] at hrefused ⊢
    obtain ⟨e, he⟩ := Outcome.isRefused_iff.1 hrefused
    obtain ⟨-, hplace, hopen, -⟩ := advance_refused hn he
    exact unmoved_of_place hplace hopen
  · intro hanswered
    rw [advances_eq_after] at hanswered ⊢
    have hcore := advance_alike hn fun current required available hfails => by
      rw [Outcome.isRefused_iff.2 ⟨_, hfails⟩] at hanswered
      cases hanswered
    rw [advances_eq_after]
    exact ⟨Outcome.result_eq hcore, row_of_place (place_of_core (Outcome.scan_core_eq hcore))⟩
  · intro e he
    rw [advances_eq_after] at he ⊢
    by_cases hinsufficient : ∃ current required available,
        e = .insufficient current required available
    · obtain ⟨current, required, available, rfl⟩ := hinsufficient
      obtain ⟨-, -, -, hlittle⟩ := advance_refused hn he
      exact Or.inl ⟨_, _, _, rfl, hlittle _ _ _ rfl⟩
    · right
      have hcore := advance_alike hn fun current required available hfails => by
        rw [he] at hfails
        cases hfails
        exact hinsufficient ⟨_, _, _, rfl⟩
      rw [← Outcome.result_eq hcore]
      exact he

/-! ## A growth that is refused once -/

/-- Three rows, in tiles of two. -/
def pairs : TiledArray :=
  ⟨⟨[⟨"row", .int64, false⟩], []⟩,
    [⟨[.small .int64 7], []⟩, ⟨[.small .int64 8], []⟩, ⟨[.small .int64 9], []⟩], 2⟩

/-- A scan of the rows into a buffer for one of them, with no memory free at first. -/
def pairScan : Outcome TiledQuery Unit :=
  start (TiledQuery.ofArray pairs) ⟨"pairs"⟩ { bufferBudget := 8 } [⟨"row", .bigInt, true⟩] {}
    { answers := fun n => if n = 0 then 0 else 1000 } (Source.constant 0)

/-- The first call finds no room for two rows and lacks memory for it; the second one hands out the
    first row. -/
theorem pairScan_resumes :
    (pairScan.scan.advances 0).result = .error (.memory (.insufficient 8 32 0)) ∧
      Unmoved pairScan.scan (pairScan.scan.advances 0).scan ∧
      (pairScan.scan.advances 1).result = .ok true ∧
      (pairScan.scan.advances 1).scan.bytes 0 = .ok [7, 0, 0, 0, 0, 0, 0, 0] ∧
      ∃ u, start (TiledQuery.ofArray pairs) ⟨"pairs"⟩ { bufferBudget := 8 }
          [⟨"row", .bigInt, true⟩] {} .unlimited (Source.constant 0) = ⟨.ok (), u⟩ ∧
        (pairScan.scan.advances 1).scan.row = (u.advances 0).scan.row := by
  have hcells : TiledArray.ofCells pairs.schema 2 pairs.cells = .ok pairs :=
    TiledArray.ofCells_of_sorted (by decide) (by decide) (by decide +kernel) (by decide +kernel)
  have hstart : pairScan = ⟨.ok (), pairScan.scan⟩ := by
    have hresult : pairScan.result = .ok () := by decide +kernel
    rw [← hresult]
  obtain ⟨u, hu, hcalls⟩ := start_resumes hcells hstart
  have hanswered : pairScan.scan.answered 1 = 0 := by decide +kernel
  obtain ⟨-, -, hrefused, -⟩ := hcalls 0
  obtain ⟨-, -, -, hnext, -⟩ := hcalls 1
  rw [hanswered] at hnext
  exact ⟨by decide +kernel, hrefused (by decide +kernel), by decide +kernel, by decide +kernel, u,
    hu, (hnext (by decide +kernel)).2⟩

end Scan

end SparseScan
