import SparseScan.Proofs.Scan.Contents
import SparseScan.Proofs.Scan.Stages

set_option autoImplicit false

/-! # A scan comes to its end

A call takes one step, and only a step that fetches loops. Its loop ends, without the limit on its
rounds, because each round that goes on has doubled all buffers, which is bounded by what a tile
needs. So a scan hands out its rows and ends, unless a call lacks memory or the elements of a field
are too wide (`start_drains`). -/

namespace SparseScan

namespace Scan

variable {a : TiledArray} {sel : List Cell} {columns : List Column} {constraints : Constraints}
  {s₀ s : Scan TiledQuery} {k : Nat}

/-! ## The loop of a call -/

/-- The fetch of a scan that has started comes to the end of the loop. -/
theorem Stage.fetchEnds (h : Stage a sel s₀ k s) (hfetches : Fetches s) :
    FetchEnds s s.stepGrowths (fetch submitLimit s) := by
  obtain ⟨hsized, -⟩ := h.fetches hfetches
  rw [stepGrowths, if_pos hfetches]
  exact Scan.fetchEnds (fetch_ne_stalled le_rfl (Serves.isReady hsized.serves).room)

/-- The last growth that was granted was needed. -/
theorem Stage.needed (h : Stage a sel s₀ k s) :
    k = 0 ∨ 2 ^ (k - 1) < a.largestNeed s₀.fields sel := by
  rcases h with h | - | h
  · exact h.needed
  · exact Or.inl rfl
  · exact h.needed

/-! ## The end -/

section

variable {Q : Type} [QueryEngine Q] {s : Scan Q}

theorem handOut_closes (h : s.handOut.result = .ok false) : s.handOut.scan.isClosed = true := by
  unfold handOut at h ⊢
  simp only at h ⊢
  split at h
  · next hrows =>
      rw [if_pos hrows]
      exact isClosed_close _
  · cases h

theorem step_closes (h : s.step.result = .ok false) : s.step.scan.isClosed = true := by
  unfold step at h ⊢
  split_ifs at h ⊢ with hclosed hbound hrows hdone
  · exact hclosed
  · exact isClosed_close s
  · exact handOut_closes h
  · exact isClosed_close s
  · generalize fetch submitLimit s = o at h ⊢
    rcases o with ⟨e | _, t⟩
    · cases h
    · exact handOut_closes h

/-- A scan that has answered that there are no more rows has closed itself, and so it answers that
    ever after. -/
theorem advances_of_ends {n m : Nat} (hend : (s.advances n).result = .ok false) (hle : n ≤ m) :
    (s.advances m).result = .ok false := by
  have hclosed : ∀ t : Scan Q, t.advance.result = .ok false → t.advance.scan.isClosed = true := by
    intro t ht
    rw [advance, timed_result] at ht
    exact step_closes ht
  induction m, hle using Nat.le_induction with
  | base => exact hend
  | succ m _ ih =>
      rw [advances_eq_after] at ih ⊢
      exact (noRows_of_isClosed (hclosed _ ih)).1

end

/-! ## Whole runs -/

theorem after_eq_afterCalls (s : Scan TiledQuery) (n : Nat) :
    s.after n = s.afterCalls (List.replicate n .advance) := by
  induction n with
  | zero => rfl
  | succ n ih =>
      rw [after, ih, List.replicate_succ', afterCalls, afterCalls, List.foldl_append]
      rfl

/-- A scan over an array comes to its end. Each call ends, with the fetch that it makes; it fails
    for want of memory, or because the elements stored under the name of a field are wider than
    those of the field, which needs that there are no columns. The growths of any calls are bounded
    by the most elements that a tile needs of one buffer. If no call lacks memory and no elements
    are too wide, as many calls as there are cells hand out a row, and all further calls answer that
    there are no more. -/
theorem start_drains {schema : Schema} {tileExtent : Nat} {cells : List Cell} {id : ScanId}
    {settings : ScanSettings} {memory : Source UInt64} {clock : Source Nat}
    (ha : TiledArray.ofCells schema tileExtent cells = .ok a)
    (hs : start (TiledQuery.ofArray a) id settings columns constraints memory clock = ⟨.ok (), s⟩) :
    (∀ f ∈ s.fields, f.outgrown a → f.shadowed schema ∧ columns = []) ∧
    (∀ calls : List Call, let t := s.afterCalls calls
      (Fetches t.now.2 →
        FetchEnds t.now.2 (t.callGrowths .advance) (fetch submitLimit t.now.2)) ∧
      (∀ e, t.advance.result = .error e → Accounted a s.fields e) ∧
      (s.growths calls = 0 ∨
        2 ^ (s.growths calls - 1) < a.largestNeed s.fields (a.admitted constraints))) ∧
    ((∀ n m, (s.advances n).result ≠ .error (.memory m)) → (∀ f ∈ s.fields, ¬ f.outgrown a) →
      ∀ n, (s.advances n).result = .ok (decide (n < (a.admitted constraints).length))) := by
  have hstage := stage_afterCalls ha hs
  refine ⟨fun f hf hout => noColumns_of_outgrown ha hs hf hout, ?_, ?_⟩
  · intro calls t
    have hnow : Stage a (a.admitted constraints) s (s.growths calls) t.now.2 :=
      (hstage calls).1.congr rfl rfl
    exact ⟨hnow.fetchEnds, (hstage calls).2, (hstage calls).1.needed⟩
  · intro hmemory hwide
    -- a call can fail in two ways only, and both are ruled out
    have hok : s.NeverFails := by
      intro n e _ he
      have haccounted := he
      rw [advances_eq_after, after_eq_afterCalls] at haccounted
      rcases (hstage _).2 e haccounted with ⟨m, rfl, -⟩ | ⟨f, hf, hout, -⟩
      · exact hmemory n m he
      · exact hwide f hf hout
    obtain ⟨hsound, -⟩ := TiledArray.sound_ofCells ha
    have hstarted := started_of_start hsound hs
    obtain ⟨hrows, hends⟩ := hstarted.handsOut hsound hok
    intro n
    by_cases hn : n < (a.admitted constraints).length
    · rw [decide_eq_true hn]
      exact (hrows n _ (List.getElem?_eq_getElem hn)).1
    · rw [decide_eq_false hn]
      exact advances_of_ends hends (Nat.le_of_not_lt hn)

/-- A scan of three rows in tiles of two grows its buffer once, hands out the rows and ends. -/
theorem ampleScan_drains :
    (∀ n, (ampleScan.scan.advances n).result = .ok (decide (n < 3))) ∧
      ampleScan.scan.growths (List.replicate 4 .advance) = 1 ∧
      1 < pairs.largestNeed ampleScan.scan.fields (pairs.admitted {}) := by
  have hcells : TiledArray.ofCells pairs.schema 2 pairs.cells = .ok pairs :=
    TiledArray.ofCells_of_sorted (by decide) (by decide) (by decide +kernel) (by decide +kernel)
  have hstart : ampleScan = ⟨.ok (), ampleScan.scan⟩ := by
    have hresult : ampleScan.result = .ok () := by decide +kernel
    rw [← hresult]
  obtain ⟨hclear, hruns, hdrains⟩ := start_drains hcells hstart
  have hbegins : ∀ n < 3, (ampleScan.scan.advances n).result = .ok true := by decide +kernel
  have hend : (ampleScan.scan.advances 3).result = .ok false := by decide +kernel
  have hgrowths : ampleScan.scan.growths (List.replicate 4 .advance) = 1 := by decide +kernel
  refine ⟨?_, hgrowths, ?_⟩
  · refine hdrains ?_ ?_
    · intro n m he
      by_cases hn : n < 3
      · rw [hbegins n hn] at he
        cases he
      · rw [advances_of_ends hend (Nat.le_of_not_lt hn)] at he
        cases he
    · intro f hf hout
      cases (hclear f hf hout).2
  · obtain ⟨-, -, hneeded⟩ := hruns (List.replicate 4 .advance)
    rw [hgrowths] at hneeded
    exact hneeded.resolve_left Nat.one_ne_zero

/-! ## An attribute that is wider than the dimension of its name -/

def overflowingCells : List Cell :=
  [⟨[.int .int16 ⟨1, by decide⟩], [some (.int .int32 ⟨5, by decide⟩)]⟩,
    ⟨[.int .int16 ⟨2, by decide⟩], [some (.int .int32 ⟨6, by decide⟩)]⟩]

def overflowing : TiledArray :=
  ⟨⟨[⟨"day", .int16, false⟩], [⟨"day", .int32, false, false⟩]⟩, overflowingCells, 2⟩

/-- Without columns the scan reads the dimension. Although there is memory enough, and no growth is
    asked for, each call fails and none says that there are no more rows. -/
theorem overflowingScan_fails :
    TiledArray.ofCells overflowing.schema 2 overflowingCells = .ok overflowing ∧
      let started := start (TiledQuery.ofArray overflowing) ⟨"overflowing"⟩ {} [] {}
        (Source.constant (2 ^ 40)) (Source.constant 0)
      started.result = .ok () ∧
        started.scan.growths (List.replicate 3 .advance) = 0 ∧
        ∀ n < 3, (started.scan.advances n).result =
          .error (.storage (.abort (.writeOutside "day" .values))) := by
  refine ⟨?_, ?_⟩
  · exact TiledArray.ofCells_of_sorted (by decide) (by decide) (by decide +kernel)
      (by decide +kernel)
  · decide +kernel

end Scan

end SparseScan
